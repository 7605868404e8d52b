import MyJQL.Index.SearchSpec

/-!
# Repairs

A node with `DEGREE` entries that is about to lose one is repaired with a neighbour: an entry
comes over, or the two become one node and the caller is told which entry of the parent to
drop. What the two nodes hold stands between them as before, without the entry that is lost.

The neighbour is the right one, or the left one of the last child.
-/

namespace MyJQL.Index

open Library Library.Prog Storage

/-- Which of two neighbours loses an entry. -/
inductive Side where
  | left
  | right

namespace Side

variable {α : Type}

/-- Whether the neighbour is the right one. -/
def toRight : Side → Bool
  | .left => true
  | .right => false

/-- What stands in a node and its neighbour, from left to right, around `middle`. -/
def join (side : Side) (own middle other : List α) : List α :=
  match side with
  | .left => own ++ middle ++ other
  | .right => other ++ middle ++ own

/-- After an entry has come over, the node has `DEGREE` entries and its neighbour no fewer. -/
def Settles (side : Side) (degree : Nat) (rows rows' : List α) : Prop :=
  match side with
  | .left => rows.length = degree ∧ degree ≤ rows'.length
  | .right => degree ≤ rows.length ∧ rows'.length = degree

theorem length_join (side : Side) (own middle other : List α) :
    (side.join own middle other).length = own.length + middle.length + other.length := by
  cases side with
  | left => simp only [join, List.length_append]
  | right =>
      simp only [join, List.length_append]
      omega

/-- An entry of the node stands among the entries of the two, and is all that the node loses. -/
theorem exists_join_cons (side : Side) (us vs middle other : List α) (found : α) :
    ∃ us' vs', side.join (us ++ found :: vs) middle other = us' ++ found :: vs' ∧
      side.join (us ++ vs) middle other = us' ++ vs' := by
  cases side with
  | left =>
      refine ⟨us, vs ++ middle ++ other, ?_, ?_⟩
      · simp only [join, List.append_assoc, List.cons_append]
      · simp only [join, List.append_assoc]
  | right =>
      refine ⟨other ++ middle ++ us, vs, ?_, ?_⟩
      · simp only [join, List.append_assoc]
      · simp only [join, List.append_assoc]

/-- Neither of the two has too few or too many entries. -/
theorem Settles.sized {side : Side} {degree : Nat} {rows rows' : List α} (settled : side.Settles degree rows rows')
    (total : rows.length + rows'.length ≤ 3 * degree) : (degree ≤ rows.length ∧ rows.length ≤ 2 * degree) ∧
      degree ≤ rows'.length ∧ rows'.length ≤ 2 * degree := by
  cases side with
  | left =>
      obtain ⟨exact, least⟩ := settled
      omega
  | right =>
      obtain ⟨least, exact⟩ := settled
      omega

end Side

/-- Two neighbours and their parent, with what the parent has in front of the two and behind them. -/
structure Neighbours where
  addrPar : Int
  seps : List RID
  separator : RID
  seps' : List RID
  kids : List Int
  kids' : List Int
  left : NodeDesc
  right : NodeDesc

namespace Neighbours

def parent (pair : Neighbours) : NodeDesc :=
  ⟨pair.addrPar, false, pair.seps ++ pair.separator :: pair.seps', pair.kids ++ pair.left.addr :: pair.right.addr :: pair.kids'⟩

def nodes (pair : Neighbours) : Multiset NodeDesc := {pair.parent} + ({pair.left} + {pair.right})

/-- The node that loses an entry. -/
def node (pair : Neighbours) : Side → NodeDesc
  | .left => pair.left
  | .right => pair.right

def brother (pair : Neighbours) : Side → NodeDesc
  | .left => pair.right
  | .right => pair.left

theorem join_rows (pair : Neighbours) (side : Side) (middle : List RID) :
    side.join (pair.node side).rows middle (pair.brother side).rows = pair.left.rows ++ middle ++ pair.right.rows := by
  cases side with
  | left => rfl
  | right => rfl

theorem join_kids (pair : Neighbours) (side : Side) :
    side.join (pair.node side).kids [] (pair.brother side).kids = pair.left.kids ++ pair.right.kids := by
  cases side with
  | left => simp only [Side.join, node, brother, List.append_nil]
  | right => simp only [Side.join, node, brother, List.append_nil]

/-! The pages in the orders in which they are written. -/

theorem leftFirst (pair : Neighbours) (others : Multiset NodeDesc) :
    pair.nodes + others = {pair.left} + ({pair.parent} + ({pair.right} + others)) := by
  rw [nodes, add_assoc, add_assoc, add_left_comm]

theorem rightFirst (pair : Neighbours) (others : Multiset NodeDesc) :
    pair.nodes + others = {pair.right} + ({pair.parent} + ({pair.left} + others)) := by
  rw [nodes]
  abel

theorem parentLast (pair : Neighbours) (others : Multiset NodeDesc) :
    pair.nodes + others = {pair.left} + ({pair.right} + ({pair.parent} + others)) := by
  rw [nodes]
  abel

/-- The parent is a node, and its pointers to the two are the first of their kind. -/
structure Fits (pair : Neighbours) (degree : Nat) : Prop where
  countBefore : pair.kids.length = pair.seps.length
  countAfter : pair.kids'.length = pair.seps'.length
  bound : (pair.seps ++ pair.separator :: pair.seps').length ≤ 2 * degree
  freshLeft : pair.left.addr ∉ pair.kids
  freshRight : pair.right.addr ∉ pair.kids ++ [pair.left.addr]

end Neighbours

section Handlers

variable {K : Type} {world world' : World K} {separator row made : RID}

/-- A separator has been taken back by `delete_handler`, and `insert_handler` has made a copy of a row. -/
structure Renewed (world : World K) (separator row made : RID) (world' : World K) : Prop where
  agree : ∀ rid, World.Knows ⟨world.key, world.held, world.owed.erase separator⟩ rid → world'.key rid = world.key rid
  copy : world'.key made = world.key row
  held : world'.held = world.held
  owed : world'.owed = made ::ₘ world.owed.erase separator

/-- A separator has been dropped, and taken back by `delete_handler` if it stood above leaves. -/
structure Dropped (above : Bool) (world : World K) (separator : RID) (world' : World K) : Prop where
  agree : ∀ rid, world'.Knows rid → world'.key rid = world.key rid
  held : world'.held = world.held
  owed : world'.owed = if above then world.owed.erase separator else world.owed

end Handlers

section Repair

variable {K Q : Type} [LinearOrder K] {growing : Prop} {ask : Q → K} {degree : Nat} {addr addrPar addrBro root : Int}
  {others rest : Multiset NodeDesc} {map : PageMap IndexPage} {world : World K} {pins : Multiset Int} {free : List Int}
  {xs ys : List RID} {separator : RID} {nodePar brother : BNode} {post : Int → TreeState K → Prop}

/-! ## The parent -/

section Parent

variable {node : BNode} {leaf : Bool} {rows : List RID} {as bs : List Int} {pair : Neighbours}

/-- The position of a child in its parent. -/
theorem findChild_spec {count : Nat} (is : NodeIs node leaf rows (as ++ addr :: bs)) (fresh : addr ∉ as)
    (inside : as.length < 2 * degree + 1) (enough : as.length < count) :
    findChild degree node addr 0 count = some as.length := by
  have general : ∀ later earlier : List Int, as = earlier ++ later → ∀ left, later.length < left →
      findChild degree node addr earlier.length left = some as.length := by
    intro later
    induction later with
    | nil =>
        intro earlier split left enough
        obtain ⟨left, rfl⟩ : ∃ less, left = less + 1 := ⟨left - 1, by omega⟩
        rw [List.append_nil] at split
        subst split
        rw [findChild, childAt_place is inside]
        simp only [Option.bind_eq_bind, Option.bind_some, if_pos]
        rfl
    | cons other later ih =>
        intro earlier split left enough
        obtain ⟨left, rfl⟩ : ∃ less, left = less + 1 := ⟨left - 1, by omega⟩
        have different : other ≠ addr := by
          rintro rfl
          exact fresh (by simp [split])
        rw [split, List.append_assoc, List.cons_append] at is
        have place : earlier.length < 2 * degree + 1 := by
          rw [split, List.length_append] at inside
          omega
        have next := ih (earlier ++ [other]) (split.trans (List.append_cons ..)) left
          (by rw [List.length_cons] at enough; omega)
        rw [List.length_append, List.length_singleton] at next
        rw [findChild, childAt_place is place]
        simp only [Option.bind_eq_bind, Option.bind_some, if_neg different]
        exact next
  exact general as [] rfl count enough

/--
The parent and a brother are fetched: the right one, or the left one of the last child. The
result says whether it is the right one, and where the separator between the two stands.
-/
def fetchBrother (degree : Nat) (addr addrPar : Int) : TreeProg Q (Bool × BNode × Nat × Int × BNode) := do
  let nodePar ← getNode addrPar
  let ttmp ← ofOption (Index.findChild degree nodePar addr 0 (nodePar.n + 1))
  if ttmp ≠ nodePar.n then
    let addrBro ← ofOption (nodePar.childAt degree (ttmp + 1))
    let brother ← getNode addrBro
    return (true, nodePar, ttmp, addrBro, brother)
  else
    let before ← ofOption (predecessor ttmp)
    let addrBro ← ofOption (nodePar.childAt degree before)
    let brother ← getNode addrBro
    return (false, nodePar, before, addrBro, brother)

/-- How a case of `delete_entry` starts that needs a brother. -/
theorem fetchBrother_eq (addr addrPar : Int) (whenRight whenLeft : BNode → Nat → Int → BNode → TreeProg Q Int) :
    (do
      let nodePar ← getNode addrPar
      let ttmp ← ofOption (Index.findChild degree nodePar addr 0 (nodePar.n + 1))
      if ttmp ≠ nodePar.n then
        let addrBro ← ofOption (nodePar.childAt degree (ttmp + 1))
        let brother ← getNode addrBro
        whenRight nodePar ttmp addrBro brother
      else
        let before ← ofOption (predecessor ttmp)
        let addrBro ← ofOption (nodePar.childAt degree before)
        let brother ← getNode addrBro
        whenLeft nodePar before addrBro brother : TreeProg Q Int) =
      fetchBrother degree addr addrPar >>= fun (right, nodePar, position, addrBro, brother) =>
        if right then whenRight nodePar position addrBro brother else whenLeft nodePar position addrBro brother := by
  have assoc : ∀ {α β γ : Type} (program : TreeProg Q α) (next : α → TreeProg Q β) (last : β → TreeProg Q γ),
      program >>= next >>= last = program >>= fun value => next value >>= last := Prog.bind_assoc
  unfold fetchBrother
  rw [assoc]
  apply congrArg
  funext nodePar
  rw [assoc]
  apply congrArg
  funext ttmp
  by_cases notLast : ttmp ≠ nodePar.n
  · rw [if_pos notLast, if_pos notLast, assoc]
    apply congrArg
    funext addrBro
    rw [assoc]
    rfl
  · rw [if_neg notLast, if_neg notLast, assoc]
    apply congrArg
    funext before
    rw [assoc]
    apply congrArg
    funext addrBro
    rw [assoc]
    rfl

/-- The address of the parent is not the mark of a root. -/
theorem Neighbours.proper (lays : Lays map ⟨root, pair.nodes + others, 0, free⟩) : pair.addrPar ≠ -1 := by
  have atParent : pair.parent ∈ (Layout.mk root (pair.nodes + others) 0 free).nodes :=
    Multiset.mem_add.mpr (.inl (Multiset.mem_add.mpr (.inl (Multiset.mem_singleton_self _))))
  have inside := (lays.node_inFile atParent).1.2.1
  dsimp only [Neighbours.parent] at inside
  omega

/-- The parent and the neighbour are fetched. -/
theorem wp_fetchNeighbour (pair : Neighbours) (side : Side) {post : Bool × BNode × Nat × Int × BNode → TreeState K → Prop}
    (lays : Lays map ⟨root, pair.nodes + others, 0, free⟩) (fits : pair.Fits degree)
    (last : side = .right → pair.seps' = [])
    (ended : ∀ nodePar brother, NodeIs nodePar false pair.parent.rows pair.parent.kids →
      NodeIs brother (pair.brother side).leaf (pair.brother side).rows (pair.brother side).kids →
        post (side.toRight, nodePar, pair.seps.length, (pair.brother side).addr, brother)
          (⟨map, (pair.brother side).addr ::ₘ pair.addrPar ::ₘ (pair.node side).addr ::ₘ 0⟩, world)) :
    (fetchBrother degree (pair.node side).addr pair.addrPar : TreeProg Q _).wp (growthLogic growing ask) post
      (⟨map, (pair.node side).addr ::ₘ 0⟩, world) := by
  obtain ⟨countBefore, countAfter, bound, freshLeft, freshRight⟩ := fits
  rw [List.length_append, List.length_cons] at bound
  have atParent : pair.parent ∈ (Layout.mk root (pair.nodes + others) 0 free).nodes :=
    Multiset.mem_add.mpr (.inl (Multiset.mem_add.mpr (.inl (Multiset.mem_singleton_self _))))
  have atBrother : pair.brother side ∈ (Layout.mk root (pair.nodes + others) 0 free).nodes := by
    refine Multiset.mem_add.mpr (.inl (Multiset.mem_add.mpr (.inr (Multiset.mem_add.mpr ?_))))
    cases side with
    | left => exact .inr (Multiset.mem_singleton_self _)
    | right => exact .inl (Multiset.mem_singleton_self _)
  unfold fetchBrother
  rw [wp_bind]
  refine wp_getNode lays atParent room_one fun nodePar isPar => ?_
  have count : nodePar.n = pair.seps.length + (pair.seps'.length + 1) := by
    rw [isPar.count, List.length_append, List.length_cons]
  have regroup : pair.kids ++ pair.left.addr :: pair.right.addr :: pair.kids' =
      (pair.kids ++ [pair.left.addr]) ++ pair.right.addr :: pair.kids' := List.append_cons ..
  rw [wp_bind]
  cases side with
  | left =>
      have place : findChild degree nodePar pair.left.addr 0 (nodePar.n + 1) = some pair.kids.length :=
        findChild_spec isPar freshLeft (by omega) (by omega)
      have child : nodePar.childAt degree (pair.kids.length + 1) = some pair.right.addr := by
        have here := @childAt_place degree _ _ _ _ _ _ (regroup ▸ isPar)
          (by rw [List.length_append, List.length_singleton]; omega)
        rwa [List.length_append, List.length_singleton] at here
      rw [show findChild degree nodePar (pair.node .left).addr 0 (nodePar.n + 1) = _ from place]
      simp only [wp_ofOption_some]
      rw [if_pos (by omega), wp_bind, child]
      simp only [wp_ofOption_some]
      rw [wp_bind]
      refine wp_getNode lays atBrother room_two fun brother isBro => ?_
      rw [countBefore]
      exact ended nodePar brother isPar isBro
  | right =>
      have alone : pair.seps'.length = 0 := by rw [last rfl, List.length_nil]
      have place : findChild degree nodePar pair.right.addr 0 (nodePar.n + 1) =
          some (pair.kids ++ [pair.left.addr]).length :=
        @findChild_spec degree _ _ _ _ _ _ _ (regroup ▸ isPar) freshRight (by rw [List.length_append, List.length_singleton]; omega)
          (by rw [List.length_append, List.length_singleton]; omega)
      rw [List.length_append, List.length_singleton] at place
      have child : nodePar.childAt degree pair.kids.length = some pair.left.addr := childAt_place isPar (by omega)
      rw [show findChild degree nodePar (pair.node .right).addr 0 (nodePar.n + 1) = _ from place]
      simp only [wp_ofOption_some]
      rw [if_neg (by omega), wp_bind, predecessor_eq (Nat.succ_pos _), Nat.succ_sub_one]
      simp only [wp_ofOption_some]
      rw [wp_bind, child]
      simp only [wp_ofOption_some]
      rw [wp_bind]
      refine wp_getNode lays atBrother room_two fun brother isBro => ?_
      rw [countBefore]
      exact ended nodePar brother isPar isBro

end Parent

/-! ## Writing a family back -/

section Writing

variable {node node₁ node₂ node₃ : BNode} {leaf leaf' : Bool} {rows rows' : List RID} {kids kids' : List Int}
  {taken : Multiset Int}

/-- A node and its brother are written. -/
theorem wp_writePair {post : Unit → TreeState K → Prop} {leaf₁ leaf₃ leaf₁' leaf₃' : Bool}
    {rows₁ rows₃ rows₁' rows₃' : List RID} {kids₁ kids₃ kids₁' kids₃' : List Int} {parent : NodeDesc}
    (lays : Lays map ⟨root, {⟨addr, leaf₁', rows₁', kids₁'⟩} + ({parent} +
      ({⟨addrBro, leaf₃', rows₃', kids₃'⟩} + rest)), taken, free⟩)
    (is₁ : NodeIs node₁ leaf₁ rows₁ kids₁) (is₃ : NodeIs node₃ leaf₃ rows₃ kids₃) (pinned : addr ∈ pins)
    (pinnedBro : addrBro ∈ pins)
    (ended : ∀ map', Lays map' ⟨root, {parent} + ({⟨addr, leaf₁, rows₁, kids₁⟩} +
      ({⟨addrBro, leaf₃, rows₃, kids₃⟩} + rest)), taken, free⟩ → post () (⟨map', pins⟩, world)) :
    (writeNode addr node₁ : TreeProg Q Unit).wp (growthLogic growing ask)
      (fun _ after => (writeNode addrBro node₃).wp (growthLogic growing ask) post after) (⟨map, pins⟩, world) := by
  refine wp_writeNode lays is₁ pinned fun map₁ lays₁ => ?_
  have atBrother : ({⟨addr, leaf₁, rows₁, kids₁⟩} : Multiset NodeDesc) + ({parent} +
      ({⟨addrBro, leaf₃', rows₃', kids₃'⟩} + rest)) =
        {⟨addrBro, leaf₃', rows₃', kids₃'⟩} + ({parent} + ({⟨addr, leaf₁, rows₁, kids₁⟩} + rest)) := by
    abel
  refine wp_writeNode (lays₁.regroup atBrother) is₃ pinnedBro fun map₂ lays₂ => ?_
  exact ended map₂ (lays₂.regroup (by abel))

/-- A node, its parent and its brother are released. -/
theorem wp_releaseFamily {post : Unit → TreeState K → Prop} (pinned : pins = addr ::ₘ addrPar ::ₘ addrBro ::ₘ 0)
    (ended : post () (⟨map, 0⟩, world)) :
    (releaseFamily addr addrPar addrBro : TreeProg Q Unit).wp (growthLogic growing ask) post (⟨map, pins⟩, world) := by
  subst pinned
  unfold releaseFamily
  simp only [wp_bind]
  refine wp_release (Multiset.mem_cons_self _ _) ?_
  rw [Multiset.erase_cons_head]
  refine wp_release (Multiset.mem_cons_self _ _) ?_
  rw [Multiset.erase_cons_head]
  refine wp_release (Multiset.mem_cons_self _ _) ?_
  rw [Multiset.erase_cons_head]
  exact ended

/-- The left of two nodes takes over what both had, and the right one is given up. -/
theorem wp_putMerged {post : Unit → TreeState K → Prop} {left right : Int} {merged : BNode}
    {leaf₁ leaf₂ : Bool} {rows₁ rows₂ : List RID} {kids₁ kids₂ : List Int}
    (lays : Lays map ⟨root, {⟨left, leaf₁, rows₁, kids₁⟩} + ({⟨right, leaf₂, rows₂, kids₂⟩} + rest), taken, free⟩)
    (is : NodeIs merged leaf rows kids) (pinned : pins = left ::ₘ right ::ₘ 0)
    (ended : ∀ map', Lays map' ⟨root, {⟨left, leaf, rows, kids⟩} + rest, taken, right :: free⟩ →
      post () (⟨map', 0⟩, world)) :
    (putNode left merged : TreeProg Q Unit).wp (growthLogic growing ask)
      (fun _ after => (freeNode right).wp (growthLogic growing ask) post after) (⟨map, pins⟩, world) := by
  subst pinned
  refine wp_putNode lays is (Multiset.mem_cons_self _ _) fun map₁ lays₁ => ?_
  rw [Multiset.erase_cons_head]
  refine wp_freeNode (lays₁.regroup (add_left_comm _ _ _)) (Multiset.mem_cons_self _ _) room_one fun map₂ lays₂ => ?_
  rw [Multiset.erase_cons_head]
  exact ended map₂ lays₂

end Writing

/-- The pins of a node, its parent and its brother, in the order in which they are released. -/
theorem family_pins (addr addrPar addrBro : Int) :
    addrBro ::ₘ addrPar ::ₘ addr ::ₘ 0 = addr ::ₘ addrPar ::ₘ addrBro ::ₘ (0 : Multiset Int) := by
  simp only [← Multiset.singleton_add]
  abel

/-! ## Leaves -/

section Leaves

variable {node : BNode} {rows rowsBro : List RID} {kidsPar : List Int} {rid row : RID}

/-- The separator is taken back, and a copy of the first row behind it takes its place. -/
theorem wp_renewSeparator {addrSide : Int} {tail : List RID} {as : List Int} {taken : Multiset Int}
    {next : Unit → TreeState K → Prop} (positive : 1 ≤ degree)
    (lays : Lays map ⟨root, {⟨addrPar, false, xs ++ separator :: ys, as⟩} + rest, taken, free⟩)
    (inside : xs.length < 2 * degree) (atSide : ⟨addrSide, true, row :: tail, []⟩ ∈ rest) (pinnedPar : addrPar ∈ pins)
    (pinnedSide : addrSide ∈ pins) (owed : separator ∈ world.owed) (held : row ∈ world.held)
    (ended : ∀ made map' world', Renewed world separator row made world' →
      Lays map' ⟨root, {⟨addrPar, false, xs ++ made :: ys, as⟩} + rest, taken, free⟩ → next () (⟨map', pins⟩, world')) :
    (renewSeparator degree addrPar xs.length addrSide : TreeProg Q Unit).wp (growthLogic growing ask) next
      (⟨map, pins⟩, world) := by
  have slot : InSeparatorSlot ⟨map, pins⟩ separator :=
    lays.slot Lays.mem_front (List.mem_append_right _ List.mem_cons_self) pinnedPar
  unfold renewSeparator
  simp only [wp_bind]
  refine wp_readNode lays Lays.mem_front pinnedPar fun nodePar isPar => ?_
  rw [rowAt_place isPar inside]
  simp only [wp_ofOption_some]
  refine wp_deleteHandler owed slot fun key agree => ?_
  refine wp_readNode lays (Multiset.mem_add.mpr (.inr atSide)) pinnedSide fun side isSide => ?_
  rw [rowAt_first isSide positive]
  simp only [wp_ofOption_some]
  refine wp_insertHandler (.inl held) fun made key' agree' same => ?_
  refine wp_readNode lays Lays.mem_front pinnedPar fun nodePar isPar => ?_
  obtain ⟨nodePar', set, isPar'⟩ := @setRow_place degree _ _ _ _ _ _ made isPar inside
  rw [set]
  refine wp_writeNode lays isPar' pinnedPar fun map' lays' => ?_
  refine ended made map' _ ⟨?_, same.trans (agree row (.inl held)), rfl, rfl⟩ lays'
  exact fun rid known => (agree' rid known).trans (agree rid known)

/-- The first row of the right brother comes over. -/
theorem wp_rowFromRight (positive : 1 ≤ degree)
    (lays : Lays map ⟨root, {⟨addr, true, rows, []⟩} + ({⟨addrPar, false, xs ++ separator :: ys, kidsPar⟩} +
      ({⟨addrBro, true, rowsBro, []⟩} + others)), 0, free⟩)
    (inside : xs.length < 2 * degree) (full : rows.length = degree)
    (more : degree < rowsBro.length) (boundBro : rowsBro.length ≤ 2 * degree) (known : world.Knows rid)
    (knows : ∀ row ∈ rows, world.Knows row) (heldBro : ∀ row ∈ rowsBro, row ∈ world.held)
    (owed : separator ∈ world.owed) (present : row ∈ rows) (same : world.key row = world.key rid)
    (ended : ∀ us found vs q q' qs made world' map', rows = us ++ found :: vs → world.key found = world.key rid →
      rowsBro = q :: q' :: qs → Renewed world separator q' made world' →
      Lays map' ⟨root, {⟨addr, true, us ++ vs ++ [q], []⟩} + ({⟨addrPar, false, xs ++ made :: ys, kidsPar⟩} +
        ({⟨addrBro, true, q' :: qs, []⟩} + others)), 0, free⟩ → post (-1) (⟨map', 0⟩, world')) :
    (do
      let prtFinal ← findRow degree addr rid
      let node ← readNode addr
      let node ← ofOption (dropRow degree node prtFinal)
      let brother ← readNode addrBro
      let (node, brother) ← ofOption (borrowRowRight degree node brother)
      writeNode addr node
      writeNode addrBro brother
      renewSeparator degree addrPar xs.length addrBro
      releaseFamily addr addrPar addrBro
      return -1 : TreeProg Q Int).wp (growthLogic growing ask) post (⟨map, addrBro ::ₘ addrPar ::ₘ addr ::ₘ 0⟩, world) := by
  obtain ⟨q, rowsBro, rfl⟩ := List.exists_cons_of_length_pos (lt_of_le_of_lt (Nat.zero_le _) more)
  rw [List.length_cons] at more boundBro
  obtain ⟨q', qs, rfl⟩ := List.exists_cons_of_length_pos (lt_of_lt_of_le positive (Nat.le_of_lt_succ more))
  have pinned : addr ∈ addrBro ::ₘ addrPar ::ₘ addr ::ₘ 0 := by simp
  have pinnedBro : addrBro ∈ addrBro ::ₘ addrPar ::ₘ addr ::ₘ 0 := Multiset.mem_cons_self _ _
  simp only [wp_bind]
  refine wp_findRow lays Lays.mem_front pinned (by omega) known knows present same fun us found vs split sameKey => ?_
  refine wp_readNode lays Lays.mem_front pinned fun node is => ?_
  subst split
  obtain ⟨node', dropped, is'⟩ := @dropRow_spec degree _ _ _ _ _ _ is (by omega)
  rw [dropped]
  simp only [wp_ofOption_some]
  refine wp_readNode lays Lays.mem_third pinnedBro fun brother isBro => ?_
  rw [List.length_append, List.length_cons] at full
  obtain ⟨node'', brother', borrowed, is'', isBro'⟩ := @borrowRowRight_spec degree _ _ _ _ _ _ _ _ is' isBro
    (by rw [List.length_append]; omega) (by omega)
  rw [borrowed]
  simp only [wp_ofOption_some]
  refine wp_writePair lays is'' isBro' pinned pinnedBro fun map₁ lays₁ => ?_
  have heldFirst : q' ∈ world.held := heldBro q' (List.mem_cons_of_mem _ List.mem_cons_self)
  refine wp_renewSeparator positive lays₁ inside Lays.mem_second (by simp) pinnedBro owed heldFirst ?_
  intro made map' world' renewed lays'
  refine wp_releaseFamily (family_pins _ _ _) ?_
  exact ended us found vs q q' qs made world' map' rfl sameKey rfl renewed (lays'.regroup (add_left_comm _ _ _))

/-- The last row of the left brother comes over. -/
theorem wp_rowFromLeft (positive : 1 ≤ degree)
    (lays : Lays map ⟨root, {⟨addr, true, rows, []⟩} + ({⟨addrPar, false, xs ++ separator :: ys, kidsPar⟩} +
      ({⟨addrBro, true, rowsBro, []⟩} + others)), 0, free⟩)
    (inside : xs.length < 2 * degree) (full : rows.length = degree)
    (more : degree < rowsBro.length) (boundBro : rowsBro.length ≤ 2 * degree) (known : world.Knows rid)
    (knows : ∀ row ∈ rows, world.Knows row) (heldBro : ∀ row ∈ rowsBro, row ∈ world.held)
    (owed : separator ∈ world.owed) (present : row ∈ rows) (same : world.key row = world.key rid)
    (ended : ∀ us found vs ps p made world' map', rows = us ++ found :: vs → world.key found = world.key rid →
      rowsBro = ps ++ [p] → Renewed world separator p made world' →
      Lays map' ⟨root, {⟨addr, true, p :: (us ++ vs), []⟩} + ({⟨addrPar, false, xs ++ made :: ys, kidsPar⟩} +
        ({⟨addrBro, true, ps, []⟩} + others)), 0, free⟩ → post (-1) (⟨map', 0⟩, world')) :
    (do
      let prtFinal ← findRow degree addr rid
      let node ← readNode addr
      let brother ← readNode addrBro
      let (node, brother) ← ofOption (borrowRowLeft degree node brother prtFinal)
      writeNode addr node
      writeNode addrBro brother
      renewSeparator degree addrPar xs.length addr
      releaseFamily addr addrPar addrBro
      return -1 : TreeProg Q Int).wp (growthLogic growing ask) post (⟨map, addrBro ::ₘ addrPar ::ₘ addr ::ₘ 0⟩, world) := by
  obtain ⟨ps, p, rfl⟩ := (List.eq_nil_or_concat' rowsBro).resolve_left
    (List.ne_nil_of_length_pos (lt_of_le_of_lt (Nat.zero_le _) more))
  rw [List.length_append, List.length_singleton] at more boundBro
  have pinned : addr ∈ addrBro ::ₘ addrPar ::ₘ addr ::ₘ 0 := by simp
  have pinnedBro : addrBro ∈ addrBro ::ₘ addrPar ::ₘ addr ::ₘ 0 := Multiset.mem_cons_self _ _
  simp only [wp_bind]
  refine wp_findRow lays Lays.mem_front pinned (by omega) known knows present same fun us found vs split sameKey => ?_
  refine wp_readNode lays Lays.mem_front pinned fun node is => ?_
  refine wp_readNode lays Lays.mem_third pinnedBro fun brother isBro => ?_
  subst split
  rw [List.length_append, List.length_cons] at full
  obtain ⟨node', brother', borrowed, is', isBro'⟩ := @borrowRowLeft_spec degree _ _ _ _ _ _ _ _ _ _ is isBro
    (by rw [List.length_append, List.length_cons]; omega) (by omega)
  rw [borrowed]
  simp only [wp_ofOption_some]
  refine wp_writePair lays is' isBro' pinned pinnedBro fun map₁ lays₁ => ?_
  have heldFirst : p ∈ world.held := heldBro p (List.mem_append_right _ (List.mem_singleton_self _))
  refine wp_renewSeparator positive lays₁ inside Lays.mem_front (by simp) pinned owed heldFirst ?_
  intro made map' world' renewed lays'
  refine wp_releaseFamily (family_pins _ _ _) ?_
  exact ended us found vs ps p made world' map' rfl sameKey rfl renewed (lays'.regroup (add_left_comm _ _ _))

/-- The rows of the right brother are appended, and its page is given up. -/
theorem wp_rowsFromRight
    (lays : Lays map ⟨root, {⟨addr, true, rows, []⟩} + ({⟨addrBro, true, rowsBro, []⟩} + others), 0, free⟩)
    (full : rows.length = degree) (few : rowsBro.length ≤ degree) (known : world.Knows rid)
    (knows : ∀ row ∈ rows, world.Knows row) (present : row ∈ rows) (same : world.key row = world.key rid)
    (ended : ∀ us found vs map', rows = us ++ found :: vs → world.key found = world.key rid →
      Lays map' ⟨root, {⟨addr, true, us ++ vs ++ rowsBro, []⟩} + others, 0, addrBro :: free⟩ →
        post xs.length (⟨map', 0⟩, world)) :
    (do
      release addrPar
      let prtFinal ← findRow degree addr rid
      let node ← readNode addr
      let node ← ofOption (dropRow degree node prtFinal)
      let brother ← readNode addrBro
      let node ← ofOption (mergeRows degree node brother)
      putNode addr node
      freeNode addrBro
      return (xs.length : Int) : TreeProg Q Int).wp (growthLogic growing ask) post
        (⟨map, addrBro ::ₘ addrPar ::ₘ addr ::ₘ 0⟩, world) := by
  have pinned : addr ∈ addrBro ::ₘ addr ::ₘ 0 := Multiset.mem_cons_of_mem (Multiset.mem_cons_self _ _)
  simp only [wp_bind]
  refine wp_release (Multiset.mem_cons_of_mem (Multiset.mem_cons_self _ _)) ?_
  rw [erase_second]
  refine wp_findRow lays Lays.mem_front pinned (by omega) known knows present same fun us found vs split sameKey => ?_
  refine wp_readNode lays Lays.mem_front pinned fun node is => ?_
  subst split
  obtain ⟨node', dropped, is'⟩ := @dropRow_spec degree _ _ _ _ _ _ is (by omega)
  rw [dropped]
  simp only [wp_ofOption_some]
  refine wp_readNode lays Lays.mem_second (Multiset.mem_cons_self _ _) fun brother isBro => ?_
  rw [List.length_append, List.length_cons] at full
  obtain ⟨node'', merged, is''⟩ := @mergeRows_spec degree _ _ _ _ _ _ _ is' isBro
    (by rw [List.length_append]; omega)
  rw [merged]
  simp only [wp_ofOption_some]
  refine wp_putMerged lays is'' (Multiset.cons_swap _ _ _) fun map' lays' => ?_
  exact ended us found vs map' rfl sameKey lays'

/-- The rows are appended to the left brother, and the page of the leaf is given up. -/
theorem wp_rowsToLeft
    (lays : Lays map ⟨root, {⟨addrBro, true, rowsBro, []⟩} + ({⟨addr, true, rows, []⟩} + others), 0, free⟩)
    (full : rows.length = degree) (few : rowsBro.length ≤ degree) (known : world.Knows rid)
    (knows : ∀ row ∈ rows, world.Knows row) (present : row ∈ rows) (same : world.key row = world.key rid)
    (ended : ∀ us found vs map', rows = us ++ found :: vs → world.key found = world.key rid →
      Lays map' ⟨root, {⟨addrBro, true, rowsBro ++ (us ++ vs), []⟩} + others, 0, addr :: free⟩ →
        post xs.length (⟨map', 0⟩, world)) :
    (do
      release addrPar
      let prtFinal ← findRow degree addr rid
      let node ← readNode addr
      let node ← ofOption (dropRow degree node prtFinal)
      let brother ← readNode addrBro
      let brother ← ofOption (mergeRows degree brother node)
      writeNode addr node
      putNode addrBro brother
      freeNode addr
      return (xs.length : Int) : TreeProg Q Int).wp (growthLogic growing ask) post
        (⟨map, addrBro ::ₘ addrPar ::ₘ addr ::ₘ 0⟩, world) := by
  have pinned : addr ∈ addrBro ::ₘ addr ::ₘ 0 := Multiset.mem_cons_of_mem (Multiset.mem_cons_self _ _)
  have front := lays.regroup (add_left_comm _ _ _)
  simp only [wp_bind]
  refine wp_release (Multiset.mem_cons_of_mem (Multiset.mem_cons_self _ _)) ?_
  rw [erase_second]
  refine wp_findRow front Lays.mem_front pinned (by omega) known knows present same fun us found vs split sameKey => ?_
  refine wp_readNode front Lays.mem_front pinned fun node is => ?_
  subst split
  obtain ⟨node', dropped, is'⟩ := @dropRow_spec degree _ _ _ _ _ _ is (by omega)
  rw [dropped]
  simp only [wp_ofOption_some]
  refine wp_readNode lays Lays.mem_front (Multiset.mem_cons_self _ _) fun brother isBro => ?_
  rw [List.length_append, List.length_cons] at full
  obtain ⟨brother', merged, isBro'⟩ := @mergeRows_spec degree _ _ _ _ _ _ _ isBro is'
    (by rw [List.length_append]; omega)
  rw [merged]
  simp only [wp_ofOption_some]
  refine wp_writeNode front is' pinned fun map₁ lays₁ => ?_
  refine wp_putMerged (lays₁.regroup (add_left_comm _ _ _)) isBro' rfl fun map' lays' => ?_
  exact ended us found vs map' rfl sameKey lays'

/--
A leaf with `DEGREE` rows loses one: a row of the neighbour comes over, and the separator is a
copy of the first row behind it, or the rows of the two go to the left of them.
-/
theorem wp_repairLeaf (pair : Neighbours) (side : Side) (positive : 1 ≤ degree)
    (lays : Lays map ⟨root, pair.nodes + others, 0, free⟩) (fits : pair.Fits degree)
    (last : side = .right → pair.seps' = [])
    (leaves : ∀ side, (pair.node side).leaf = true ∧ (pair.node side).kids = [])
    (is : NodeIs node true (pair.node side).rows []) (full : (pair.node side).rows.length = degree)
    (least : degree ≤ (pair.brother side).rows.length) (boundBro : (pair.brother side).rows.length ≤ 2 * degree)
    (held : rid ∈ world.held) (heldRows : ∀ side, ∀ row ∈ (pair.node side).rows, row ∈ world.held)
    (owed : pair.separator ∈ world.owed) (present : row ∈ (pair.node side).rows) (same : world.key row = world.key rid)
    (borrowed : ∀ us found vs made rows first rows' map' world', degree < (pair.brother side).rows.length →
      (pair.node side).rows = us ++ found :: vs → world.key found = world.key rid →
      rows ++ first :: rows' = side.join (us ++ vs) [] (pair.brother side).rows →
      side.Settles degree rows (first :: rows') → Renewed world pair.separator first made world' →
      Lays map' ⟨root, Neighbours.nodes { pair with
          separator := made
          left := ⟨pair.left.addr, true, rows, []⟩
          right := ⟨pair.right.addr, true, first :: rows', []⟩ } + others, 0, free⟩ → post (-1) (⟨map', 0⟩, world'))
    (merged : ∀ us found vs map', (pair.brother side).rows.length = degree →
      (pair.node side).rows = us ++ found :: vs → world.key found = world.key rid →
      Lays map' ⟨root, {pair.parent} + ({⟨pair.left.addr, true, side.join (us ++ vs) [] (pair.brother side).rows, []⟩} +
        others), 0, pair.right.addr :: free⟩ → post pair.seps.length (⟨map', 0⟩, world)) :
    (deleteLeaf degree (pair.node side).addr pair.addrPar node rid : TreeProg Q Int).wp (growthLogic growing ask) post
      (⟨map, (pair.node side).addr ::ₘ 0⟩, world) := by
  have inside : pair.seps.length < 2 * degree := by
    have bound := fits.bound
    rw [List.length_append, List.length_cons] at bound
    omega
  unfold deleteLeaf
  rw [if_pos (Neighbours.proper lays), if_neg (by rw [is.count, full]; exact lt_irrefl _), fetchBrother_eq, wp_bind]
  refine wp_fetchNeighbour pair side lays fits last fun nodePar brother isPar isBro => ?_
  have leftFirst := lays.regroup (pair.leftFirst others)
  have rightFirst := lays.regroup (pair.rightFirst others)
  have parentLast := lays.regroup (pair.parentLast others)
  obtain ⟨addrPar, seps, separator, seps', kids, kids', ⟨addrLeft, leafLeft, rowsLeft, kidsLeft⟩,
    ⟨addrRight, leafRight, rowsRight, kidsRight⟩⟩ := pair
  obtain ⟨rfl, rfl⟩ := leaves .left
  obtain ⟨rfl, rfl⟩ := leaves .right
  have heldLeft := heldRows .left
  have heldRight := heldRows .right
  cases side with
  | left =>
      dsimp only [Neighbours.node, Neighbours.brother, Neighbours.parent, Side.toRight, Side.join, Side.Settles] at *
      rw [if_pos rfl]
      simp only [List.append_nil] at borrowed merged
      by_cases more : degree < brother.n
      · rw [if_pos more]
        rw [isBro.count] at more
        refine wp_rowFromRight positive leftFirst inside full more boundBro (.inl held)
          (fun row member => .inl (heldLeft row member)) heldRight owed present same ?_
        intro us found vs q q' qs made world' map' split sameKey splitBro renewed lays'
        refine borrowed us found vs made (us ++ vs ++ [q]) q' qs map' world' more split sameKey ?_ ?_ renewed
          (lays'.regroup (Eq.symm ?_))
        · rw [splitBro, List.append_assoc (us ++ vs), List.singleton_append]
        · rw [split, List.length_append, List.length_cons] at full
          rw [splitBro, List.length_cons] at more
          simp only [List.length_append, List.length_singleton]
          omega
        · exact Neighbours.leftFirst _ _
      · rw [if_neg more]
        rw [isBro.count, not_lt] at more
        refine wp_rowsFromRight parentLast full more (.inl held)
          (fun row member => .inl (heldLeft row member)) present same ?_
        intro us found vs map' split sameKey lays'
        exact merged us found vs map' (le_antisymm more least) split sameKey (lays'.regroup (add_left_comm _ _ _))
  | right =>
      dsimp only [Neighbours.node, Neighbours.brother, Neighbours.parent, Side.toRight, Side.join, Side.Settles] at *
      rw [if_neg Bool.false_ne_true]
      simp only [List.append_nil] at borrowed merged
      by_cases more : degree < brother.n
      · rw [if_pos more]
        rw [isBro.count] at more
        refine wp_rowFromLeft positive rightFirst inside full more boundBro (.inl held)
          (fun row member => .inl (heldRight row member)) heldLeft owed present same ?_
        intro us found vs ps p made world' map' split sameKey splitBro renewed lays'
        refine borrowed us found vs made ps p (us ++ vs) map' world' more split sameKey ?_ ?_ renewed
          (lays'.regroup (Eq.symm ?_))
        · rw [splitBro, List.append_assoc, List.singleton_append]
        · rw [split, List.length_append, List.length_cons] at full
          rw [splitBro, List.length_append, List.length_singleton] at more
          simp only [List.length_append, List.length_cons]
          omega
        · exact Neighbours.rightFirst _ _
      · rw [if_neg more]
        rw [isBro.count, not_lt] at more
        refine wp_rowsToLeft parentLast full more (.inl held)
          (fun row member => .inl (heldRight row member)) present same ?_
        intro us found vs map' split sameKey lays'
        exact merged us found vs map' (le_antisymm more least) split sameKey (lays'.regroup (add_left_comm _ _ _))

end Leaves

/-! ## Nodes above the leaves -/

section Inners

variable {node : BNode} {us vs seps sepsBro oldRows : List RID} {as bs kids kidsBro kidsPar oldKids : List Int}
  {lost : RID} {kid dead : Int} {leaf : Bool}

/-- An entry is dropped; above leaves its copy goes to `delete_handler`. -/
theorem wp_dropEntry {taken : Multiset Int} {child : NodeDesc} {next : Unit → TreeState K → Prop}
    (lays : Lays map ⟨root, {⟨addr, false, us ++ lost :: vs, as ++ kid :: dead :: bs⟩} + rest, taken, free⟩)
    (countBefore : as.length = us.length) (countAfter : bs.length = vs.length)
    (bound : (us ++ lost :: vs).length ≤ 2 * degree) (pinned : addr ∈ pins) (room : pins.card < cachePage)
    (atChild : child ∈ rest) (first : (as ++ kid :: bs).head? = some child.addr)
    (owed : child.leaf = true → lost ∈ world.owed)
    (ended : ∀ map' world', Lays map' ⟨root, {⟨addr, false, us ++ vs, as ++ kid :: bs⟩} + rest, taken, free⟩ →
      Dropped child.leaf world lost world' → next () (⟨map', pins⟩, world')) :
    (dropEntry degree addr us.length : TreeProg Q Unit).wp (growthLogic growing ask) next (⟨map, pins⟩, world) := by
  have firstChild : ∀ node, NodeIs node false (us ++ lost :: vs) (as ++ kid :: dead :: bs) →
      node.childAt degree 0 = some child.addr := by
    intro node is
    cases as with
    | nil =>
        cases first
        exact @childAt_place degree node false _ [] _ child.addr is (Nat.succ_pos _)
    | cons a as =>
        cases first
        exact @childAt_place degree node false _ [] _ child.addr is (Nat.succ_pos _)
  have inside : us.length < 2 * degree := by
    rw [List.length_append, List.length_cons] at bound
    omega
  obtain ⟨addrChild, leafChild, rowsChild, kidsChild⟩ := child
  have pinned' : addr ∈ addrChild ::ₘ pins := Multiset.mem_cons_of_mem pinned
  -- what follows the call of the handler, in whatever world
  have closes : ∀ world', Dropped leafChild world lost world' → (do
      let node ← readNode addr
      let first ← ofOption (node.childAt degree 0)
      release first
      let node ← readNode addr
      let node ← ofOption (dropSlot degree node us.length)
      writeNode addr node : TreeProg Q Unit).wp (growthLogic growing ask) next (⟨map, addrChild ::ₘ pins⟩, world') := by
    intro world' dropped
    simp only [wp_bind]
    refine wp_readNode lays Lays.mem_front pinned' fun node is => ?_
    rw [firstChild node is]
    simp only [wp_ofOption_some]
    refine wp_release (Multiset.mem_cons_self _ _) ?_
    rw [Multiset.erase_cons_head]
    refine wp_readNode lays Lays.mem_front pinned fun node is => ?_
    obtain ⟨node', computed, is'⟩ := dropSlot_spec is countBefore countAfter bound
    rw [computed]
    simp only [wp_ofOption_some]
    exact wp_writeNode lays is' pinned fun map' lays' => ended map' world' lays' dropped
  unfold dropEntry
  rw [wp_bind]
  refine wp_readNode lays Lays.mem_front pinned fun node is => ?_
  rw [wp_bind, firstChild node is]
  simp only [wp_ofOption_some]
  rw [wp_bind]
  refine wp_getNode lays (Multiset.mem_add.mpr (.inr atChild)) room fun childnode isChild => ?_
  rw [isChild.kind]
  cases leafChild with
  | true =>
      rw [if_pos rfl, wp_bind]
      refine wp_readNode lays Lays.mem_front pinned' fun node is => ?_
      rw [wp_bind, rowAt_place is inside]
      simp only [wp_ofOption_some]
      rw [wp_bind]
      refine wp_deleteHandler (owed rfl) (lays.slot Lays.mem_front (by simp) pinned') ?_
      intro key agree
      exact closes _ ⟨agree, rfl, rfl⟩
  | false =>
      rw [if_neg Bool.false_ne_true]
      exact closes world ⟨fun _ _ => rfl, rfl, rfl⟩

/-- A node, its parent and its brother are written and released. -/
theorem wp_putFamily {node₁ node₂ node₃ : BNode} {post : Unit → TreeState K → Prop}
    {leaf₁ leaf₂ leaf₃ leaf₁' leaf₂' leaf₃' : Bool} {rows₁ rows₂ rows₃ rows₁' rows₂' rows₃' : List RID}
    {kids₁ kids₂ kids₃ kids₁' kids₂' kids₃' : List Int} {taken : Multiset Int}
    (lays : Lays map ⟨root, {⟨addr, leaf₁', rows₁', kids₁'⟩} + ({⟨addrPar, leaf₂', rows₂', kids₂'⟩} +
      ({⟨addrBro, leaf₃', rows₃', kids₃'⟩} + rest)), taken, free⟩)
    (is₁ : NodeIs node₁ leaf₁ rows₁ kids₁) (is₂ : NodeIs node₂ leaf₂ rows₂ kids₂)
    (is₃ : NodeIs node₃ leaf₃ rows₃ kids₃) (pinned : pins = addr ::ₘ addrPar ::ₘ addrBro ::ₘ 0)
    (ended : ∀ map', Lays map' ⟨root, {⟨addr, leaf₁, rows₁, kids₁⟩} + ({⟨addrPar, leaf₂, rows₂, kids₂⟩} +
      ({⟨addrBro, leaf₃, rows₃, kids₃⟩} + rest)), taken, free⟩ → post () (⟨map', 0⟩, world)) :
    (writeNode addr node₁ : TreeProg Q Unit).wp (growthLogic growing ask)
      (fun _ after => (writeNode addrPar node₂).wp (growthLogic growing ask)
        (fun _ after => (writeNode addrBro node₃).wp (growthLogic growing ask)
          (fun _ after => (releaseFamily addr addrPar addrBro).wp (growthLogic growing ask) post after) after) after)
      (⟨map, pins⟩, world) := by
  have atNode : addr ∈ pins := by simp [pinned]
  have atParent : addrPar ∈ pins := by simp [pinned]
  have atBrother : addrBro ∈ pins := by simp [pinned]
  refine wp_writeNode lays is₁ atNode fun map₁ lays₁ => ?_
  refine wp_writePair (lays₁.regroup (add_left_comm _ _ _)) is₂ is₃ atParent atBrother fun map₂ lays₂ => ?_
  exact wp_releaseFamily pinned (ended map₂ lays₂)

/-- The first child of the right brother comes over. -/
theorem wp_slotFromRight
    (lays : Lays map ⟨root, {⟨addr, false, seps, kids⟩} + ({⟨addrPar, false, xs ++ separator :: ys, kidsPar⟩} +
      ({⟨addrBro, false, sepsBro, kidsBro⟩} + others)), 0, free⟩) (inside : xs.length < 2 * degree)
    (count : kids.length = seps.length + 1) (countBro : kidsBro.length = sepsBro.length + 1)
    (full : seps.length + 1 = degree) (more : degree < sepsBro.length) (boundBro : sepsBro.length ≤ 2 * degree)
    (ended : ∀ q qs c cs map', sepsBro = q :: qs → kidsBro = c :: cs →
      Lays map' ⟨root, {⟨addr, false, seps ++ [separator], kids ++ [c]⟩} + ({⟨addrPar, false, xs ++ q :: ys, kidsPar⟩} +
        ({⟨addrBro, false, qs, cs⟩} + others)), 0, free⟩ → post (-1) (⟨map', 0⟩, world)) :
    (do
      let node ← readNode addr
      let nodePar ← readNode addrPar
      let brother ← readNode addrBro
      let (node, nodePar, brother) ← ofOption (borrowSlotRight degree node nodePar brother xs.length)
      writeNode addr node
      writeNode addrPar nodePar
      writeNode addrBro brother
      releaseFamily addr addrPar addrBro
      return -1 : TreeProg Q Int).wp (growthLogic growing ask) post (⟨map, addrBro ::ₘ addrPar ::ₘ addr ::ₘ 0⟩, world) := by
  obtain ⟨q, qs, rfl⟩ := List.exists_cons_of_length_pos (lt_of_le_of_lt (Nat.zero_le _) more)
  obtain ⟨c, cs, rfl⟩ := List.exists_cons_of_length_eq_add_one countBro
  rw [List.length_cons] at more boundBro
  rw [List.length_cons, List.length_cons] at countBro
  simp only [wp_bind]
  refine wp_readNode lays Lays.mem_front (by simp) fun node is => ?_
  refine wp_readNode lays Lays.mem_second (by simp) fun nodePar isPar => ?_
  refine wp_readNode lays Lays.mem_third (by simp) fun brother isBro => ?_
  obtain ⟨node', nodePar', brother', borrowed, is', isPar', isBro'⟩ :=
    @borrowSlotRight_spec degree _ _ _ _ _ _ _ _ _ _ _ _ _ _ is isPar isBro count (by omega) (by omega) inside (by omega)
  rw [borrowed]
  simp only [wp_ofOption_some]
  refine wp_putFamily lays is' isPar' isBro' (family_pins _ _ _) fun map' lays' => ?_
  exact ended q qs c cs map' rfl rfl lays'

/-- The last child of the left brother comes over. -/
theorem wp_slotFromLeft
    (lays : Lays map ⟨root, {⟨addr, false, seps, kids⟩} + ({⟨addrPar, false, xs ++ separator :: ys, kidsPar⟩} +
      ({⟨addrBro, false, sepsBro, kidsBro⟩} + others)), 0, free⟩) (inside : xs.length < 2 * degree)
    (count : kids.length = seps.length + 1) (countBro : kidsBro.length = sepsBro.length + 1)
    (full : seps.length + 1 = degree) (more : degree < sepsBro.length) (boundBro : sepsBro.length ≤ 2 * degree)
    (ended : ∀ q qs c cs map', sepsBro = qs ++ [q] → kidsBro = cs ++ [c] →
      Lays map' ⟨root, {⟨addr, false, separator :: seps, c :: kids⟩} + ({⟨addrPar, false, xs ++ q :: ys, kidsPar⟩} +
        ({⟨addrBro, false, qs, cs⟩} + others)), 0, free⟩ → post (-1) (⟨map', 0⟩, world)) :
    (do
      let node ← readNode addr
      let nodePar ← readNode addrPar
      let brother ← readNode addrBro
      let (node, nodePar, brother) ← ofOption (borrowSlotLeft degree node nodePar brother xs.length)
      writeNode addr node
      writeNode addrPar nodePar
      writeNode addrBro brother
      releaseFamily addr addrPar addrBro
      return -1 : TreeProg Q Int).wp (growthLogic growing ask) post (⟨map, addrBro ::ₘ addrPar ::ₘ addr ::ₘ 0⟩, world) := by
  obtain ⟨qs, q, rfl⟩ := (List.eq_nil_or_concat' sepsBro).resolve_left
    (List.ne_nil_of_length_pos (lt_of_le_of_lt (Nat.zero_le _) more))
  obtain ⟨cs, c, rfl⟩ := (List.eq_nil_or_concat' kidsBro).resolve_left
    (List.ne_nil_of_length_pos (countBro ▸ Nat.succ_pos _))
  rw [List.length_append, List.length_singleton] at more boundBro
  rw [List.length_append, List.length_singleton, List.length_append, List.length_singleton] at countBro
  simp only [wp_bind]
  refine wp_readNode lays Lays.mem_front (by simp) fun node is => ?_
  refine wp_readNode lays Lays.mem_second (by simp) fun nodePar isPar => ?_
  refine wp_readNode lays Lays.mem_third (by simp) fun brother isBro => ?_
  obtain ⟨node', nodePar', brother', borrowed, is', isPar', isBro'⟩ :=
    @borrowSlotLeft_spec degree _ _ _ _ _ _ _ _ _ _ _ _ _ _ is isPar isBro count (by omega) (by omega) inside (by omega)
  rw [borrowed]
  simp only [wp_ofOption_some]
  refine wp_putFamily lays is' isPar' isBro' (family_pins _ _ _) fun map' lays' => ?_
  exact ended q qs c cs map' rfl rfl lays'

/-- The separator and the right node go to the left one, and the page of the right one is given up. -/
theorem wp_slotsTogether {addrLeft addrRight : Int} {sepsRight : List RID} {kidsRight : List Int}
    (lays : Lays map ⟨root, {⟨addrLeft, false, seps, kids⟩} + ({⟨addrRight, false, sepsRight, kidsRight⟩} + others), 0,
      free⟩)
    (atParent : ⟨addrPar, false, xs ++ separator :: ys, kidsPar⟩ ∈ others) (inside : xs.length < 2 * degree)
    (count : kids.length = seps.length + 1) (countRight : kidsRight.length = sepsRight.length + 1)
    (room : seps.length + sepsRight.length < 2 * degree) (parent : addrPar ∈ pins)
    (pinned : pins.erase addrPar = addrLeft ::ₘ addrRight ::ₘ 0)
    (ended : ∀ map', Lays map' ⟨root, {⟨addrLeft, false, seps ++ separator :: sepsRight, kids ++ kidsRight⟩} + others, 0,
      addrRight :: free⟩ → post xs.length (⟨map', 0⟩, world)) :
    (do
      let nodePar ← readNode addrPar
      let separator ← ofOption (nodePar.rowAt degree xs.length)
      release addrPar
      let left ← readNode addrLeft
      let right ← readNode addrRight
      let merged ← ofOption (mergeSlots degree left separator right)
      putNode addrLeft merged
      freeNode addrRight
      return (xs.length : Int) : TreeProg Q Int).wp (growthLogic growing ask) post (⟨map, pins⟩, world) := by
  simp only [wp_bind]
  refine wp_readNode lays (Multiset.mem_add.mpr (.inr (Multiset.mem_add.mpr (.inr atParent)))) parent ?_
  intro nodePar isPar
  rw [rowAt_place isPar inside]
  simp only [wp_ofOption_some]
  refine wp_release parent ?_
  rw [pinned]
  refine wp_readNode lays Lays.mem_front (by simp) fun left is => ?_
  refine wp_readNode lays Lays.mem_second (by simp) fun right isRight => ?_
  obtain ⟨merged, computed, isMerged⟩ := @mergeSlots_spec degree _ _ _ _ separator _ _ is isRight count countRight room
  rw [computed]
  simp only [wp_ofOption_some]
  exact wp_putMerged lays isMerged rfl ended

/--
A node with `DEGREE` separators loses one, and the child behind it: a child of the neighbour comes
over, through the parent, or the parent's separator and all of the two go to the left of them.
-/
theorem wp_repairInner (pair : Neighbours) (side : Side) {child : NodeDesc}
    (lays : Lays map ⟨root, pair.nodes + others, 0, free⟩) (fits : pair.Fits degree)
    (last : side = .right → pair.seps' = []) (inner : ∀ side, (pair.node side).leaf = false)
    (rows : (pair.node side).rows = us ++ lost :: vs) (children : (pair.node side).kids = as ++ kid :: dead :: bs)
    (countBefore : as.length = us.length) (countAfter : bs.length = vs.length)
    (is : NodeIs node false (us ++ lost :: vs) (as ++ kid :: dead :: bs)) (full : (us ++ lost :: vs).length = degree)
    (least : degree ≤ (pair.brother side).rows.length) (boundBro : (pair.brother side).rows.length ≤ 2 * degree)
    (countBro : (pair.brother side).kids.length = (pair.brother side).rows.length + 1) (atChild : child ∈ others)
    (first : (as ++ kid :: bs).head? = some child.addr) (owed : child.leaf = true → lost ∈ world.owed)
    (borrowed : ∀ made rows kids rows' kids' map' world', degree < (pair.brother side).rows.length →
      rows ++ made :: rows' = side.join (us ++ vs) [pair.separator] (pair.brother side).rows →
      kids ++ kids' = side.join (as ++ kid :: bs) [] (pair.brother side).kids → kids.length = rows.length + 1 →
      side.Settles degree rows rows' → Dropped child.leaf world lost world' →
      Lays map' ⟨root, Neighbours.nodes { pair with
          separator := made
          left := ⟨pair.left.addr, false, rows, kids⟩
          right := ⟨pair.right.addr, false, rows', kids'⟩ } + others, 0, free⟩ → post (-1) (⟨map', 0⟩, world'))
    (merged : ∀ map' world', (pair.brother side).rows.length = degree → Dropped child.leaf world lost world' →
      Lays map' ⟨root, {pair.parent} + ({⟨pair.left.addr, false,
        side.join (us ++ vs) [pair.separator] (pair.brother side).rows,
        side.join (as ++ kid :: bs) [] (pair.brother side).kids⟩} + others), 0, pair.right.addr :: free⟩ →
        post pair.seps.length (⟨map', 0⟩, world')) :
    (deleteInner degree (pair.node side).addr pair.addrPar node us.length : TreeProg Q Int).wp (growthLogic growing ask) post
      (⟨map, (pair.node side).addr ::ₘ 0⟩, world) := by
  have inside : pair.seps.length < 2 * degree := by
    have bound := fits.bound
    rw [List.length_append, List.length_cons] at bound
    omega
  have countOwn : (as ++ kid :: bs).length = (us ++ vs).length + 1 := by
    simp only [List.length_append, List.length_cons]
    omega
  have short : (us ++ vs).length + 1 = degree := by
    rw [List.length_append, List.length_cons] at full
    rw [List.length_append]
    omega
  unfold deleteInner
  rw [if_pos (Neighbours.proper lays), if_neg (by rw [is.count, full]; exact lt_irrefl _), fetchBrother_eq, wp_bind]
  refine wp_fetchNeighbour pair side lays fits last fun nodePar brother isPar isBro => ?_
  have leftFirst := lays.regroup (pair.leftFirst others)
  have rightFirst := lays.regroup (pair.rightFirst others)
  obtain ⟨addrPar, seps, separator, seps', kids, kids', ⟨addrLeft, leafLeft, rowsLeft, kidsLeft⟩,
    ⟨addrRight, leafRight, rowsRight, kidsRight⟩⟩ := pair
  obtain rfl : leafLeft = false := inner .left
  obtain rfl : leafRight = false := inner .right
  cases side with
  | left =>
      dsimp only [Neighbours.node, Neighbours.brother, Neighbours.parent, Side.toRight, Side.join, Side.Settles] at *
      subst rows children
      simp only [List.append_nil] at borrowed merged
      rw [if_pos rfl]
      by_cases more : degree < brother.n
      · rw [if_pos more, wp_bind]
        rw [isBro.count] at more
        refine wp_dropEntry leftFirst countBefore countAfter (by omega) (by simp) room_three (by simp [atChild]) first owed ?_
        intro map₁ world' lays₁ dropped
        refine wp_slotFromRight lays₁ inside countOwn countBro short more boundBro ?_
        rintro q qs c cs map' rfl rfl lays'
        refine borrowed q (us ++ vs ++ [separator]) (as ++ kid :: bs ++ [c]) qs cs map' world' more ?_ ?_ ?_ ?_ dropped
          (lays'.regroup (Eq.symm ?_))
        · rfl
        · rw [List.append_assoc (as ++ kid :: bs), List.singleton_append]
        · simp only [List.length_append, List.length_cons, List.length_nil] at countOwn ⊢
          omega
        · rw [List.length_cons] at more
          rw [List.length_append, List.length_singleton]
          omega
        · exact Neighbours.leftFirst _ _
      · rw [if_neg more, wp_bind]
        rw [isBro.count, not_lt] at more
        refine wp_dropEntry leftFirst countBefore countAfter (by omega) (by simp) room_three (by simp [atChild]) first owed ?_
        intro map₁ world' lays₁ dropped
        have together := lays₁.regroup (congrArg (_ + ·) (add_left_comm _ _ _))
        refine wp_slotsTogether together Lays.mem_front inside countOwn countBro (by omega)
          (Multiset.mem_cons_of_mem (Multiset.mem_cons_self _ _)) (by rw [erase_second]; exact Multiset.cons_swap _ _ _) ?_
        intro map' lays'
        refine merged map' world' (le_antisymm more least) dropped (lays'.regroup ?_)
        rw [add_left_comm, List.append_assoc (us ++ vs), List.singleton_append]
  | right =>
      dsimp only [Neighbours.node, Neighbours.brother, Neighbours.parent, Side.toRight, Side.join, Side.Settles] at *
      subst rows children
      simp only [List.append_nil] at borrowed merged
      rw [if_neg Bool.false_ne_true]
      by_cases more : degree < brother.n
      · rw [if_pos more, wp_bind]
        rw [isBro.count] at more
        refine wp_dropEntry rightFirst countBefore countAfter (by omega) (by simp) room_three (by simp [atChild]) first
          owed ?_
        intro map₁ world' lays₁ dropped
        refine wp_slotFromLeft lays₁ inside countOwn countBro short more boundBro ?_
        rintro q qs c cs map' rfl rfl lays'
        rw [List.length_append, List.length_singleton] at more countBro
        rw [List.length_append, List.length_singleton] at countBro
        refine borrowed q qs cs (separator :: (us ++ vs)) (c :: (as ++ kid :: bs)) map' world' ?_ ?_ ?_ ?_ ?_ dropped
          (lays'.regroup (Eq.symm ?_))
        · rwa [List.length_append, List.length_singleton]
        · simp only [List.append_assoc, List.cons_append, List.nil_append]
        · simp only [List.append_assoc, List.singleton_append]
        · omega
        · rw [List.length_cons]
          omega
        · exact Neighbours.rightFirst _ _
      · rw [if_neg more, wp_bind]
        rw [isBro.count, not_lt] at more
        refine wp_dropEntry rightFirst countBefore countAfter (by omega) (by simp) room_three (by simp [atChild]) first
          owed ?_
        intro map₁ world' lays₁ dropped
        have together := lays₁.regroup (add_third _ _ _ _)
        refine wp_slotsTogether together Lays.mem_front inside countBro countOwn (by omega)
          (Multiset.mem_cons_of_mem (Multiset.mem_cons_self _ _)) (by rw [erase_second]) ?_
        intro map' lays'
        refine merged map' world' (le_antisymm more least) dropped (lays'.regroup ?_)
        rw [add_left_comm, List.append_assoc, List.singleton_append]

end Inners

end Repair

end MyJQL.Index
