import MyJQL.Index.RepairSpec
import MyJQL.Index.TreeRuns

/-!
# Repairs in runs

What `delete_entry` does to a node with `DEGREE` entries that loses one, in every run: the
entries of the two neighbours stand as before, without the one that is lost.
-/

namespace MyJQL.Index

open Library Library.Prog Storage

/-- What stands in a node. -/
inductive Entry where
  | child (addr : Int)
  | row (rid : RID)

/-- The rows of a leaf, or the children of a node and the separators between them. -/
def inOrder : List Int → List RID → List Entry
  | [], rows => rows.map .row
  | kid :: kids, [] => .child kid :: inOrder kids []
  | kid :: kids, row :: rows => .child kid :: .row row :: inOrder kids rows

/-- Some entries have gone, and the others stand as they were. -/
def Minus (entries lost rest : List Entry) : Prop :=
  ∃ front back, entries = front ++ lost ++ back ∧ rest = front ++ back

section InOrder

variable {kids kids' : List Int} {rows rows' : List RID} {separator : RID}

theorem inOrder_append (count : kids.length = rows.length + 1) :
    inOrder (kids ++ kids') (rows ++ separator :: rows') =
      inOrder kids rows ++ .row separator :: inOrder kids' rows' := by
  induction rows generalizing kids with
  | nil =>
      obtain ⟨kid, rfl⟩ := List.length_eq_one_iff.mp count
      rfl
  | cons row rows ih =>
      obtain ⟨kid, kids, rfl⟩ := List.exists_cons_of_length_eq_add_one count
      simp only [List.cons_append, inOrder, ih (Nat.succ.inj count)]

/-- An entry and the child behind it stand behind the children and entries in front of them. -/
theorem inOrder_slot {us vs : List RID} {as bs : List Int} {lost : RID} {kid dead : Int} (count : as.length = us.length) :
    Minus (inOrder (as ++ kid :: dead :: bs) (us ++ lost :: vs)) [.row lost, .child dead]
      (inOrder (as ++ kid :: bs) (us ++ vs)) := by
  induction us generalizing as with
  | nil =>
      obtain rfl := List.length_eq_zero_iff.mp count
      cases vs with
      | nil => exact ⟨[.child kid], inOrder bs [], rfl, rfl⟩
      | cons row vs => exact ⟨[.child kid], .row row :: inOrder bs vs, rfl, rfl⟩
  | cons row us ih =>
      obtain ⟨first, as, rfl⟩ := List.exists_cons_of_length_eq_add_one count
      obtain ⟨front, back, withSlot, without⟩ := ih (Nat.succ.inj count)
      refine ⟨.child first :: .row row :: front, back, ?_, ?_⟩
      · simp only [List.cons_append, inOrder, withSlot]
      · simp only [List.cons_append, inOrder, without]

/-- The same beside a neighbour. -/
theorem inOrder_join (side : Side) {us vs others : List RID} {as bs places : List Int} {middle lost : RID}
    {kid dead : Int} (count : as.length = us.length) (countOthers : places.length = others.length + 1) :
    Minus (inOrder (side.join (as ++ kid :: dead :: bs) [] places) (side.join (us ++ lost :: vs) [middle] others))
      [.row lost, .child dead]
      (inOrder (side.join (as ++ kid :: bs) [] places) (side.join (us ++ vs) [middle] others)) := by
  cases side with
  | left =>
      have slot := @inOrder_slot us (vs ++ middle :: others) as (bs ++ places) lost kid dead count
      simpa only [Side.join, List.append_nil, List.append_assoc, List.cons_append, List.nil_append] using slot
  | right =>
      have together : (places ++ as).length = (others ++ middle :: us).length := by
        rw [List.length_append, List.length_append, List.length_cons, countOthers, count]
        omega
      have slot := @inOrder_slot (others ++ middle :: us) vs (places ++ as) bs lost kid dead together
      simpa only [Side.join, List.append_nil, List.append_assoc, List.cons_append, List.nil_append] using slot

/-- A position among the entries of a node, as a position among its children. -/
theorem exists_slot {i : Nat} {lost : RID} {dead : Int} (count : kids.length = rows.length + 1)
    (atRow : rows[i]? = some lost) (atKid : kids[i + 1]? = some dead) :
    ∃ us vs as kid bs, rows = us ++ lost :: vs ∧ kids = as ++ kid :: dead :: bs ∧ us.length = i ∧
      as.length = us.length ∧ bs.length = vs.length := by
  obtain ⟨first, kids, rfl⟩ := List.exists_cons_of_length_eq_add_one count
  induction i generalizing rows first kids with
  | zero =>
      cases rows with
      | nil => cases atRow
      | cons row vs =>
          cases atRow
          obtain ⟨next, bs, rfl⟩ := List.exists_cons_of_length_eq_add_one (Nat.succ.inj count)
          cases atKid
          exact ⟨[], vs, [], first, bs, rfl, rfl, rfl, rfl, Nat.succ.inj (Nat.succ.inj count)⟩
  | succ i ih =>
      cases rows with
      | nil => cases atRow
      | cons row rows =>
          obtain ⟨next, kids, rfl⟩ := List.exists_cons_of_length_eq_add_one (Nat.succ.inj count)
          obtain ⟨us, vs, as, kid, bs, rfl, split, rfl, countBefore, countAfter⟩ :=
            ih atRow next kids (Nat.succ.inj count) atKid
          refine ⟨row :: us, vs, first :: as, kid, bs, rfl, ?_, rfl, congrArg Nat.succ countBefore, countAfter⟩
          rw [split, List.cons_append]

end InOrder

/-- The children of a node are one more than its entries, and a leaf has none. -/
def Shaped (desc : NodeDesc) : Prop :=
  desc.kids.length = if desc.leaf then 0 else desc.rows.length + 1

namespace Neighbours

/-- What stands in two neighbours, with the separator that the parent has between two nodes above the leaves. -/
def contents (pair : Neighbours) : List Entry :=
  inOrder pair.left.kids pair.left.rows ++ (if pair.left.leaf then [] else [.row pair.separator]) ++
    inOrder pair.right.kids pair.right.rows

/-- The neighbours with other entries, and another separator between them. -/
def recut (pair : Neighbours) (separator : RID) (rows : List RID) (kids : List Int) (rows' : List RID)
    (kids' : List Int) : Neighbours :=
  { pair with
    separator := separator
    left := ⟨pair.left.addr, pair.left.leaf, rows, kids⟩
    right := ⟨pair.right.addr, pair.right.leaf, rows', kids'⟩ }

end Neighbours

section Repairs

variable {K Q σ : Type} [LinearOrder K]

/--
Two neighbours in an index file: the node has `DEGREE` entries, and its brother no fewer. It is
the right brother, or the left one of the last child.
-/
structure Underfull (degree : Nat) (pair : Neighbours) (side : Side) (map : PageMap IndexPage) (root : Int)
    (others : Multiset NodeDesc) (free : List Int) : Prop where
  last : side = .right → pair.seps' = []
  countBefore : pair.kids.length = pair.seps.length
  countAfter : pair.kids'.length = pair.seps'.length
  bound : pair.parent.rows.length ≤ 2 * degree
  distinct : pair.parent.kids.Nodup
  full : (pair.node side).rows.length = degree
  least : degree ≤ (pair.brother side).rows.length
  most : (pair.brother side).rows.length ≤ 2 * degree
  shapedLeft : Shaped pair.left
  shapedRight : Shaped pair.right
  sameKind : pair.right.leaf = pair.left.leaf
  lays : Lays map ⟨root, pair.nodes + others, 0, free⟩

/--
What a repair leaves of two neighbours, and its result. An entry has come over, and the parent
may have another separator; or the two are one node, the page of the right one is free, and the
parent, which is as it was, has to drop entry `i` and child `i + 1`.
-/
inductive Repaired (key : RID → K) (degree : Nat) (pair : Neighbours) (side : Side) (lost : List Entry) (root : Int)
    (others : Multiset NodeDesc) (free : List Int) : Int → PageMap IndexPage → Prop where
  | borrowed {map : PageMap IndexPage} (separator : RID) (rows rows' : List RID) (kids kids' : List Int)
      (more : degree < (pair.brother side).rows.length)
      (contents : Minus pair.contents lost (pair.recut separator rows kids rows' kids').contents)
      (own : ((pair.recut separator rows kids rows' kids').node side).rows.length = degree)
      (other : degree ≤ ((pair.recut separator rows kids rows' kids').brother side).rows.length)
      (shapedLeft : Shaped (pair.recut separator rows kids rows' kids').left)
      (shapedRight : Shaped (pair.recut separator rows kids rows' kids').right)
      (behind : pair.left.leaf = true → ∃ first ∈ rows'.head?, key separator = key first)
      (lays : Lays map ⟨root, (pair.recut separator rows kids rows' kids').nodes + others, 0, free⟩) :
      Repaired key degree pair side lost root others free (-1) map
  | merged {map : PageMap IndexPage} (i : Nat) (desc : NodeDesc) (few : (pair.brother side).rows.length = degree)
      (separator : pair.parent.rows[i]? = some pair.separator) (stays : pair.parent.kids[i]? = some desc.addr)
      (dead : pair.parent.kids[i + 1]? = some pair.right.addr)
      (contents : Minus pair.contents lost (inOrder desc.kids desc.rows))
      (size : desc.rows.length = if pair.left.leaf then 2 * degree - 1 else 2 * degree)
      (sameKind : desc.leaf = pair.left.leaf) (shaped : Shaped desc)
      (lays : Lays map ⟨root, {pair.parent} + ({desc} + others), 0, pair.right.addr :: free⟩) :
      Repaired key degree pair side lost root others free i map

variable {degree : Nat} {callbacks : Callbacks Q σ} {ask : Q → K} {key : RID → K} {pair : Neighbours} {side : Side}
  {map : PageMap IndexPage} {root : Int} {others : Multiset NodeDesc} {free : List Int} {made : Multiset RID}

theorem Underfull.fits (under : Underfull degree pair side map root others free) : pair.Fits degree := by
  obtain ⟨-, countBefore, countAfter, bound, distinct, -, -, -, -, -, -, -⟩ := under
  have apart := List.nodup_append.mp (show (pair.kids ++ pair.left.addr :: pair.right.addr :: pair.kids').Nodup from distinct)
  obtain ⟨-, behind, cross⟩ := apart
  refine ⟨countBefore, countAfter, bound, ?_, ?_⟩
  · intro member
    exact cross _ member _ List.mem_cons_self rfl
  · intro member
    rcases List.mem_append.mp member with old | left
    · exact cross _ old _ (List.mem_cons_of_mem _ List.mem_cons_self) rfl
    · exact (List.nodup_cons.mp behind).1 (List.mem_singleton.mp left ▸ List.mem_cons_self)

theorem Underfull.countKids (under : Underfull degree pair side map root others free) (inner : pair.left.leaf = false) :
    ∀ side, (pair.node side).kids.length = (pair.node side).rows.length + 1 := by
  have left := under.shapedLeft
  have right := under.shapedRight
  rw [Shaped, inner, if_neg Bool.false_ne_true] at left
  rw [Shaped, under.sameKind, inner, if_neg Bool.false_ne_true] at right
  rintro (_ | _)
  · exact left
  · exact right

theorem Underfull.leaves (under : Underfull degree pair side map root others free) (leaf : pair.left.leaf = true) :
    ∀ side, (pair.node side).leaf = true ∧ (pair.node side).kids = [] := by
  have left := under.shapedLeft
  have right := under.shapedRight
  rw [Shaped, leaf, if_pos rfl, List.length_eq_zero_iff] at left
  rw [Shaped, under.sameKind, leaf, if_pos rfl, List.length_eq_zero_iff] at right
  rintro (_ | _)
  · exact ⟨leaf, left⟩
  · exact ⟨under.sameKind.trans leaf, right⟩

/-- The entry of the parent that a merge leaves behind. -/
theorem Underfull.position (under : Underfull degree pair side map root others free) :
    pair.parent.rows[pair.seps.length]? = some pair.separator ∧
      pair.parent.kids[pair.seps.length]? = some pair.left.addr ∧
        pair.parent.kids[pair.seps.length + 1]? = some pair.right.addr := by
  refine ⟨?_, ?_, ?_⟩
  · simp [Neighbours.parent]
  · simp [Neighbours.parent, ← under.countBefore]
  · simp [Neighbours.parent, ← under.countBefore]

theorem Underfull.atNode (under : Underfull degree pair side map root others free) :
    pair.node side ∈ (Layout.mk root (pair.nodes + others) 0 free).nodes := by
  refine Multiset.mem_add.mpr (.inl (Multiset.mem_add.mpr (.inr (Multiset.mem_add.mpr ?_))))
  cases side with
  | left => exact .inl (Multiset.mem_singleton_self _)
  | right => exact .inr (Multiset.mem_singleton_self _)

theorem contents_leaves (leaves : ∀ side, (pair.node side).leaf = true ∧ (pair.node side).kids = []) :
    pair.contents = (side.join (pair.node side).rows [] (pair.brother side).rows).map .row := by
  obtain ⟨leaf, noKids⟩ : pair.left.leaf = true ∧ pair.left.kids = [] := leaves .left
  have noKids' : pair.right.kids = [] := (leaves .right).2
  rw [pair.join_rows, List.append_nil, Neighbours.contents, leaf, if_pos rfl, List.append_nil, noKids, noKids',
    List.map_append]
  rfl

theorem contents_inner (side : Side) (inner : pair.left.leaf = false) (count : pair.left.kids.length = pair.left.rows.length + 1) :
    pair.contents = inOrder (side.join (pair.node side).kids [] (pair.brother side).kids)
      (side.join (pair.node side).rows [pair.separator] (pair.brother side).rows) := by
  rw [pair.join_rows, pair.join_kids, List.append_assoc, List.singleton_append, inOrder_append count, Neighbours.contents,
    inner, if_neg Bool.false_ne_true, List.append_assoc, List.singleton_append]

/-- Rows in strictly increasing order are told apart by their keys. -/
theorem eq_of_increasing {rows : List RID} {row found : RID} (increasing : rows.Pairwise fun a b => key a < key b)
    (present : row ∈ rows) (here : found ∈ rows) (same : key found = key row) : found = row := by
  have distinct : (rows.map key).Nodup := (List.pairwise_map.mpr increasing).imp ne_of_lt
  exact List.inj_on_of_nodup_map distinct here present same

/-- `delete_entry` on a leaf with `DEGREE` rows. -/
theorem wp_leafIsRepaired {rid row : RID} (rounds : Nat) (positive : 1 ≤ degree)
    (under : Underfull degree pair side map root others free) (leaf : pair.left.leaf = true)
    (increasing : (pair.node side).rows.Pairwise fun a b => key a < key b) (present : row ∈ (pair.node side).rows)
    (same : key row = key rid) (copy : pair.separator ∈ made) :
    (deleteEntry degree (rounds + 1) (pair.node side).addr pair.addrPar rid : TreeProg Q Int).wp (treeLogic ask)
      (fun result final => final.1.pins = 0 ∧
        Repaired final.2.key degree pair side [.row row] root others free result final.1.map)
      (⟨map, 0⟩, ⟨key, Set.univ, made⟩) := by
  have leaves := under.leaves leaf
  have full := under.full
  unfold deleteEntry
  rw [wp_bind]
  refine wp_getNode under.lays under.atNode room_zero fun node is => ?_
  change NodeIs node (pair.node side).leaf (pair.node side).rows (pair.node side).kids at is
  rw [(leaves side).1, (leaves side).2] at is
  rw [if_pos is.kind]
  refine wp_repairLeaf pair side positive under.lays under.fits under.last leaves is full under.least under.most
    (Set.mem_univ rid) (fun _ row _ => Set.mem_univ row) copy present same ?_ ?_
  · intro us found vs separator rows first rows' map' world' more split sameKey cut settled renewed lays'
    obtain rfl : found = row := eq_of_increasing increasing present (by rw [split]; simp) (sameKey.trans same.symm)
    obtain ⟨us', vs', withRow, without⟩ := side.exists_join_cons us vs [] (pair.brother side).rows found
    rw [without] at cut
    have recutIs : pair.recut separator rows [] (first :: rows') [] = { pair with
        separator := separator
        left := ⟨pair.left.addr, true, rows, []⟩
        right := ⟨pair.right.addr, true, first :: rows', []⟩ } := by
      rw [Neighbours.recut, under.sameKind, leaf]
    rw [← recutIs] at lays'
    refine ⟨rfl, .borrowed separator rows (first :: rows') [] [] more ⟨us'.map .row, vs'.map .row, ?_, ?_⟩ ?_ ?_ ?_ ?_ ?_
      lays'⟩
    · rw [contents_leaves leaves, split, withRow, List.map_append, List.map_cons, List.append_assoc]
      rfl
    · rw [recutIs, Neighbours.contents, if_pos rfl, List.append_nil, ← List.map_append, ← cut, List.map_append]
      rfl
    · cases side with
      | left => exact settled.1
      | right => exact settled.2
    · cases side with
      | left => exact settled.2
      | right => exact settled.1
    · rw [recutIs]
      rfl
    · rw [recutIs]
      rfl
    · intro _
      exact ⟨first, rfl, renewed.copy.trans (renewed.agree first (.inl (Set.mem_univ first))).symm⟩
  · intro us found vs map' few split sameKey lays'
    obtain rfl : found = row := eq_of_increasing increasing present (by rw [split]; simp) (sameKey.trans same.symm)
    obtain ⟨us', vs', withRow, without⟩ := side.exists_join_cons us vs [] (pair.brother side).rows found
    obtain ⟨separator, stays, dead⟩ := under.position
    refine ⟨rfl, .merged pair.seps.length ⟨pair.left.addr, true, side.join (us ++ vs) [] (pair.brother side).rows, []⟩ few
      separator stays dead ⟨us'.map .row, vs'.map .row, ?_, ?_⟩ ?_ leaf.symm rfl lays'⟩
    · rw [contents_leaves leaves, split, withRow, List.map_append, List.map_cons, List.append_assoc]
      rfl
    · rw [← List.map_append, ← without]
      rfl
    · rw [split, List.length_append, List.length_cons] at full
      rw [if_pos leaf, Side.length_join, few, List.length_append, List.length_nil]
      omega

/-- The part of `delete_entry` behind the recursion, on a node with `DEGREE` separators. -/
theorem wp_innerIsRepaired {position : Nat} {lost : RID} {dead : Int} {child : NodeDesc}
    (under : Underfull degree pair side map root others free) (inner : pair.left.leaf = false)
    (atRow : (pair.node side).rows[position]? = some lost) (atKid : (pair.node side).kids[position + 1]? = some dead)
    (atChild : child ∈ others) (first : (pair.node side).kids.head? = some child.addr)
    (copy : child.leaf = true → lost ∈ made) :
    (do
      let node ← getNode (pair.node side).addr
      deleteInner degree (pair.node side).addr pair.addrPar node position : TreeProg Q Int).wp (treeLogic ask)
      (fun result final => final.1.pins = 0 ∧
        Repaired final.2.key degree pair side [.row lost, .child dead] root others free result final.1.map)
      (⟨map, 0⟩, ⟨key, Set.univ, made⟩) := by
  have counts := under.countKids inner
  have full := under.full
  obtain ⟨us, vs, as, kid, bs, rows, kids, rfl, countBefore, countAfter⟩ := exists_slot (counts side) atRow atKid
  rw [wp_bind]
  refine wp_getNode under.lays under.atNode room_zero fun node is => ?_
  change NodeIs node (pair.node side).leaf (pair.node side).rows (pair.node side).kids at is
  have noLeaf : (pair.node side).leaf = false := by
    cases side with
    | left => exact inner
    | right => exact under.sameKind.trans inner
  have countBro : (pair.brother side).kids.length = (pair.brother side).rows.length + 1 := by
    cases side with
    | left => exact counts .right
    | right => exact counts .left
  have first' : (as ++ kid :: bs).head? = some child.addr := by
    rw [← first, kids]
    cases as with
    | nil => rfl
    | cons other as => rfl
  have before := contents_inner side inner (counts .left)
  rw [noLeaf, rows, kids] at is
  rw [rows, kids] at before
  rw [rows] at full
  have minus := @inOrder_join side us vs (pair.brother side).rows as bs (pair.brother side).kids pair.separator lost kid dead
    countBefore countBro
  rw [← before] at minus
  refine wp_repairInner pair side under.lays under.fits under.last ?_ rows kids countBefore countAfter is full under.least
    under.most countBro atChild first' copy ?_ ?_
  · rintro (_ | _)
    · exact inner
    · exact under.sameKind.trans inner
  · intro separator rows kids rows' kids' map' world' more seps children count settled dropped lays'
    have recutIs : pair.recut separator rows kids rows' kids' = { pair with
        separator := separator
        left := ⟨pair.left.addr, false, rows, kids⟩
        right := ⟨pair.right.addr, false, rows', kids'⟩ } := by
      rw [Neighbours.recut, under.sameKind, inner]
    have after : (pair.recut separator rows kids rows' kids').contents =
        inOrder (kids ++ kids') (rows ++ separator :: rows') := by
      rw [recutIs, inOrder_append count, Neighbours.contents, if_neg Bool.false_ne_true, List.append_assoc,
        List.singleton_append]
    have count' : kids'.length = rows'.length + 1 := by
      have lengths := congrArg List.length seps
      have lengths' := congrArg List.length children
      rw [Side.length_join, List.length_append, List.length_cons, List.length_singleton] at lengths
      rw [Side.length_join, List.length_append, List.length_nil, countBro] at lengths'
      simp only [List.length_append, List.length_cons] at lengths lengths'
      omega
    rw [← recutIs] at lays'
    refine ⟨rfl, .borrowed separator rows rows' kids kids' more ?_ ?_ ?_ ?_ ?_ ?_ lays'⟩
    · rw [after, seps, children]
      exact minus
    · cases side with
      | left => exact settled.1
      | right => exact settled.2
    · cases side with
      | left => exact settled.2
      | right => exact settled.1
    · rw [recutIs]
      exact count
    · rw [recutIs]
      exact count'
    · intro leaf
      cases leaf.symm.trans inner
  · intro map' world' few dropped lays'
    obtain ⟨separator, stays, dead⟩ := under.position
    have size : (side.join (us ++ vs) [pair.separator] (pair.brother side).rows).length = 2 * degree := by
      rw [List.length_append, List.length_cons] at full
      rw [Side.length_join, few, List.length_append, List.length_singleton]
      omega
    have sizeKids : (side.join (as ++ kid :: bs) [] (pair.brother side).kids).length = 2 * degree + 1 := by
      rw [List.length_append, List.length_cons] at full
      rw [Side.length_join, countBro, few, List.length_append, List.length_cons, List.length_nil]
      omega
    refine ⟨rfl, .merged pair.seps.length ⟨pair.left.addr, false,
      side.join (us ++ vs) [pair.separator] (pair.brother side).rows,
      side.join (as ++ kid :: bs) [] (pair.brother side).kids⟩ few separator stays dead minus ?_ inner.symm ?_ lays'⟩
    · rw [inner]
      exact size
    · exact sizeKids.trans (congrArg Nat.succ size.symm)

/-- What a repair does from every world, it does in a run. -/
theorem run_of_repaired (lawful : callbacks.Lawful ask key) (caller : σ) {program : TreeProg Q Int} {lost : List Entry}
    (spec : program.wp (treeLogic ask) (fun result final => final.1.pins = 0 ∧
      Repaired final.2.key degree pair side lost root others free result final.1.map)
      (⟨map, 0⟩, ⟨key, Set.univ, made⟩)) :
    ∃ result map' ledger, program.run (treeMeaning callbacks) (⟨map, 0⟩, ⟨caller, made, 0⟩) =
        some (result, (⟨map', 0⟩, ledger)) ∧
      Repaired key degree pair side lost root others free result map' := by
  have accounts : Accounts key (⟨map, 0⟩, ⟨key, Set.univ, made⟩) ((⟨map, 0⟩, ⟨caller, made, 0⟩) : RunState σ) :=
    ⟨rfl, rfl, rfl, (zero_add made).symm⟩
  obtain ⟨⟨result, ⟨pages, ledger⟩, ran, ⟨_, world⟩, ⟨rfl, rfl, -, -⟩, ended⟩, -⟩ := run_of_wp_tree lawful accounts spec
  obtain ⟨map', pins⟩ := pages
  obtain ⟨rfl, repaired⟩ := ended
  exact ⟨result, map', ledger, ran, repaired⟩

/--
Underflow repair keeps what stands in order in two neighbours, but for the entry that is lost, in
all eight branches of the code: a row of a leaf, or a separator and the child behind it. After a
borrow the node has `DEGREE` entries and its brother no fewer; after a merge one node has what the
two had, and the result is the position of the separator between them in the parent, with the
page that was given up as the child behind it.
-/
theorem repair_keeps_order (positive : 1 ≤ degree) (lawful : callbacks.Lawful ask key) (caller : σ)
    (made : Multiset RID) (under : Underfull degree pair side map root others free) :
    (pair.left.leaf = true → ∀ row rid rounds, (pair.node side).rows.Pairwise (fun a b => key a < key b) →
      row ∈ (pair.node side).rows → key row = key rid → pair.separator ∈ made →
        ∃ result map' ledger, (deleteEntry degree (rounds + 1) (pair.node side).addr pair.addrPar rid).run
            (treeMeaning callbacks) (⟨map, 0⟩, ⟨caller, made, 0⟩) = some (result, (⟨map', 0⟩, ledger)) ∧
          Repaired key degree pair side [.row row] root others free result map') ∧
    (pair.left.leaf = false → ∀ position lost dead, (pair.node side).rows[position]? = some lost →
      (pair.node side).kids[position + 1]? = some dead → ∀ child ∈ others,
        (pair.node side).kids.head? = some child.addr → (child.leaf = true → lost ∈ made) →
          ∃ result map' ledger, (do
              let node ← getNode (pair.node side).addr
              deleteInner degree (pair.node side).addr pair.addrPar node position).run
                (treeMeaning callbacks) (⟨map, 0⟩, ⟨caller, made, 0⟩) = some (result, (⟨map', 0⟩, ledger)) ∧
            Repaired key degree pair side [.row lost, .child dead] root others free result map') := by
  constructor
  · intro leaf row rid rounds increasing present same copy
    exact run_of_repaired lawful caller (wp_leafIsRepaired rounds positive under leaf increasing present same copy)
  · intro inner position lost dead atRow atKid child atChild first copy
    exact run_of_repaired lawful caller (wp_innerIsRepaired under inner atRow atKid atChild first copy)

/-- Two neighbours behind the first page, with one separator. -/
def smallFamily (leaf : Bool) (rows rows' : List RID) (kids kids' : List Int) : Neighbours :=
  ⟨pageSize, [], ⟨4, -1⟩, [], [], [], ⟨2 * pageSize, leaf, rows, kids⟩, ⟨3 * pageSize, leaf, rows', kids'⟩⟩

/-- An index file of a control block, a parent, its two children, and an empty leaf. -/
def smallFile (left right : BNode) : PageMap IndexPage :=
  ⟨5 * pageSize, fun addr =>
    if addr = 0 then .ctrl ⟨pageSize, -1⟩
    else if addr = pageSize then .node ⟨1, -1, fun i => (i + 2) * pageSize, fun _ => ⟨4, -1⟩, false⟩
    else if addr = 2 * pageSize then .node left
    else if addr = 3 * pageSize then .node right
    else .node ⟨0, -1, fun _ => 0, fun _ => ⟨0, 0⟩, true⟩⟩

theorem smallFile_lays {left right : BNode} {leaf : Bool} {rows rows' : List RID} {kids kids' : List Int}
    (isLeft : NodeIs left leaf rows kids) (isRight : NodeIs right leaf rows' kids') :
    Lays (smallFile left right) ⟨pageSize, (smallFamily leaf rows rows' kids kids').nodes + {⟨4 * pageSize, true, [], []⟩},
      0, []⟩ where
  ctrl := ⟨-1, rfl, rfl⟩
  stored desc member := by
    have isPar : NodeIs ⟨1, -1, fun i => (i + 2) * pageSize, fun _ => ⟨4, -1⟩, false⟩ false [⟨4, -1⟩]
        [2 * pageSize, 3 * pageSize] := ⟨rfl, rfl, by unfold Holds; decide, by unfold Holds; decide⟩
    simp only [Neighbours.nodes, Multiset.mem_add, Multiset.mem_singleton] at member
    rcases member with (rfl | rfl | rfl) | rfl
    · exact ⟨_, rfl, isPar⟩
    · exact ⟨left, rfl, isLeft⟩
    · exact ⟨right, rfl, isRight⟩
    · exact ⟨_, rfl, rfl, rfl, fun _ less => absurd less (Nat.not_lt_zero _), fun _ less => absurd less (Nat.not_lt_zero _)⟩
  opened addr member := absurd member (Multiset.notMem_zero _)
  freed addr member := absurd member List.not_mem_nil
  distinct := by
    change (({pageSize} + ({2 * pageSize} + {3 * pageSize}) + {4 * pageSize} : Multiset Int)).Nodup
    decide
  covers addr := by
    have pages : Layout.pages ⟨pageSize, (smallFamily leaf rows rows' kids kids').nodes + {⟨4 * pageSize, true, [], []⟩},
        0, []⟩ = {pageSize, 2 * pageSize, 3 * pageSize, 4 * pageSize} := rfl
    rw [pages]
    simp only [Multiset.insert_eq_cons, Multiset.mem_cons, Multiset.mem_singleton, PageMap.InFile, smallFile, pageSize]
    omega
  whole := rfl
  positive := (by decide : (0 : Int) < 5 * pageSize)

theorem repair_keeps_order_two :
    (∃ map' ledger, (deleteEntry 2 1 (2 * pageSize) pageSize ⟨1, 0⟩).run (treeMeaning testCallbacks)
        (⟨smallFile ⟨2, -1, fun _ => 0, fun i => ⟨i + 1, 0⟩, true⟩ ⟨3, -1, fun _ => 0, fun i => ⟨i + 4, 0⟩, true⟩, 0⟩,
          ⟨(), {⟨4, -1⟩}, 0⟩) = some (-1, (⟨map', 0⟩, ledger)) ∧
      Repaired RID.blockAddr 2 (smallFamily true [⟨1, 0⟩, ⟨2, 0⟩] [⟨4, 0⟩, ⟨5, 0⟩, ⟨6, 0⟩] [] []) .left [.row ⟨1, 0⟩]
        pageSize {⟨4 * pageSize, true, [], []⟩} [] (-1) map') ∧
    ∃ map' ledger, (do
        let node ← getNode (3 * pageSize)
        deleteInner 2 (3 * pageSize) pageSize node 0 : TreeProg Int Int).run (treeMeaning testCallbacks)
          (⟨smallFile ⟨2, -1, fun i => (i + 10) * pageSize, fun i => ⟨i + 1, -1⟩, false⟩
            ⟨2, -1, fun i => (i + 4) * pageSize, fun i => ⟨i + 5, -1⟩, false⟩, 0⟩, ⟨(), {⟨5, -1⟩}, 0⟩) =
              some ((0 : Int), (⟨map', 0⟩, ledger)) ∧
      Repaired RID.blockAddr 2 (smallFamily false [⟨1, -1⟩, ⟨2, -1⟩] [⟨5, -1⟩, ⟨6, -1⟩]
        [10 * pageSize, 11 * pageSize, 12 * pageSize] [4 * pageSize, 5 * pageSize, 6 * pageSize]) .right
          [.row ⟨5, -1⟩, .child (5 * pageSize)] pageSize {⟨4 * pageSize, true, [], []⟩} [] 0 map' := by
  constructor
  · have isLeft : NodeIs ⟨2, -1, fun _ => 0, fun i => ⟨i + 1, 0⟩, true⟩ true [⟨1, 0⟩, ⟨2, 0⟩] [] :=
      ⟨rfl, rfl, by unfold Holds; decide, fun _ less => absurd less (Nat.not_lt_zero _)⟩
    have isRight : NodeIs ⟨3, -1, fun _ => 0, fun i => ⟨i + 4, 0⟩, true⟩ true [⟨4, 0⟩, ⟨5, 0⟩, ⟨6, 0⟩] [] :=
      ⟨rfl, rfl, by unfold Holds; decide, fun _ less => absurd less (Nat.not_lt_zero _)⟩
    have under : Underfull 2 (smallFamily true [⟨1, 0⟩, ⟨2, 0⟩] [⟨4, 0⟩, ⟨5, 0⟩, ⟨6, 0⟩] [] []) .left _ pageSize _ [] :=
      ⟨fun _ => rfl, rfl, rfl, by decide, by decide, rfl, by decide, by decide, rfl, rfl, rfl,
        smallFile_lays isLeft isRight⟩
    obtain ⟨leaf, -⟩ := repair_keeps_order (by decide : 1 ≤ 2) testCallbacks_lawful () {⟨4, -1⟩} under
    obtain ⟨result, map', ledger, ran, repaired⟩ :=
      leaf rfl ⟨1, 0⟩ ⟨1, 0⟩ 0 (by decide) List.mem_cons_self rfl (Multiset.mem_singleton_self _)
    have minusOne : result = -1 := by
      cases repaired with
      | borrowed => rfl
      | merged i desc few => exact absurd few (by decide)
    subst minusOne
    exact ⟨map', ledger, ran, repaired⟩
  · have isLeft : NodeIs ⟨2, -1, fun i => (i + 10) * pageSize, fun i => ⟨i + 1, -1⟩, false⟩ false [⟨1, -1⟩, ⟨2, -1⟩]
        [10 * pageSize, 11 * pageSize, 12 * pageSize] :=
      ⟨rfl, rfl, by unfold Holds; decide, by unfold Holds; decide⟩
    have isRight : NodeIs ⟨2, -1, fun i => (i + 4) * pageSize, fun i => ⟨i + 5, -1⟩, false⟩ false [⟨5, -1⟩, ⟨6, -1⟩]
        [4 * pageSize, 5 * pageSize, 6 * pageSize] :=
      ⟨rfl, rfl, by unfold Holds; decide, by unfold Holds; decide⟩
    have under : Underfull 2 (smallFamily false [⟨1, -1⟩, ⟨2, -1⟩] [⟨5, -1⟩, ⟨6, -1⟩]
        [10 * pageSize, 11 * pageSize, 12 * pageSize] [4 * pageSize, 5 * pageSize, 6 * pageSize]) .right _ pageSize _ [] :=
      ⟨fun _ => rfl, rfl, rfl, by decide, by decide, rfl, by decide, by decide, rfl, rfl, rfl,
        smallFile_lays isLeft isRight⟩
    obtain ⟨-, inner⟩ := repair_keeps_order (by decide : 1 ≤ 2) testCallbacks_lawful () {⟨5, -1⟩} under
    obtain ⟨result, map', ledger, ran, repaired⟩ := inner rfl 0 ⟨5, -1⟩ (5 * pageSize) rfl rfl
      ⟨4 * pageSize, true, [], []⟩ (Multiset.mem_singleton_self _) rfl fun _ => Multiset.mem_singleton_self _
    have zero : result = 0 := by
      cases repaired with
      | borrowed separator rows rows' kids kids' more => exact absurd more (by decide)
      | merged i desc few separator =>
          cases i with
          | zero => rfl
          | succ i => cases separator
    subst zero
    exact ⟨map', ledger, ran, repaired⟩

end Repairs

end MyJQL.Index
