import MyJQL.Index.SplitSpec
import MyJQL.Index.TreeRuns

/-!
# Splits in runs

What `insert_entry` does to a full node, in every run: the entry goes to its place in the
sorted list, and the result is cut.
-/

namespace MyJQL.Index

open Library Library.Prog Storage

section Lists

variable {α : Type} {before : α → α → Prop} [DecidableRel before] {xs ys : List α} {entry : α}

/-- An entry goes where a scan for it stops. -/
theorem orderedInsert_eq (passed : ∀ other ∈ xs, ¬ before entry other) (stopped : ∀ other ∈ ys.head?, before entry other) :
    (xs ++ ys).orderedInsert before entry = xs ++ entry :: ys := by
  induction xs with
  | nil =>
      cases ys with
      | nil => rfl
      | cons other ys => exact List.orderedInsert_cons_of_le before ys (stopped other rfl)
  | cons other xs ih =>
      rw [List.cons_append, List.orderedInsert_of_not_le before _ (passed other List.mem_cons_self),
        ih fun later member => passed later (List.mem_cons_of_mem _ member)]
      rfl

omit [DecidableRel before] in
theorem pairwise_insert (trans : ∀ a b c, before a b → before b c → before a c) (sorted : (xs ++ ys).Pairwise before)
    (passed : ∀ other ∈ xs, before other entry) (stopped : ∀ other ∈ ys.head?, before entry other) :
    (xs ++ entry :: ys).Pairwise before := by
  obtain ⟨left, right, cross⟩ := List.pairwise_append.mp sorted
  have behind : ∀ other ∈ ys, before entry other := by
    cases ys with
    | nil => exact fun _ member => absurd member List.not_mem_nil
    | cons first ys =>
        intro other member
        rcases List.mem_cons.mp member with rfl | later
        · exact stopped other rfl
        · exact trans _ _ _ (stopped first rfl) ((List.pairwise_cons.mp right).1 other later)
  refine List.pairwise_append.mpr ⟨left, List.pairwise_cons.mpr ⟨behind, right⟩, ?_⟩
  intro other member later here
  rcases List.mem_cons.mp here with rfl | old
  · exact passed other member
  · exact cross other member later old

end Lists

section Splits

variable {K Q σ : Type} [LinearOrder K]

/-- The rows of a leaf with a new row in its place. -/
def withRow (key : RID → K) (rid : RID) (rows : List RID) : List RID :=
  rows.orderedInsert (fun a b => key a ≤ key b) rid

/-- The separators of a node, each with the child behind it, and a new pair in its place. -/
def withSlot (key : RID → K) (entry : NewChildEntry) (slots : List (RID × Int)) : List (RID × Int) :=
  slots.orderedInsert (fun a b => key a.1 ≤ key b.1) (entry.childKey, entry.childPtr)

/-- A node with `2 * DEGREE` entries in strictly increasing order, in an index file. -/
structure FullNode (degree : Nat) (key : RID → K) (map : PageMap IndexPage) (root : Int) (others : Multiset NodeDesc)
    (desc : NodeDesc) : Prop where
  full : desc.rows.length = 2 * degree
  increasing : desc.rows.Pairwise fun a b => key a < key b
  lays : ∃ free, Lays map ⟨root, {desc} + others, 0, free⟩

variable {degree : Nat} {callbacks : Callbacks Q σ} {ask : Q → K} {key : RID → K}

/-- `insert_entry` on a full leaf. -/
theorem wp_leafIsCut {addr root : Int} {rows : List RID} {rid : RID} {rounds : Nat} {others : Multiset NodeDesc}
    {map : PageMap IndexPage} {post : NewChildEntry → TreeState K → Prop} (positive : 1 ≤ degree)
    (leaf : FullNode degree key map root others ⟨addr, true, rows, []⟩) (absent : ∀ row ∈ rows, key row ≠ key rid)
    (ended : ∀ row made key' addrNew map', (withRow key rid rows).Pairwise (fun a b => key a < key b) →
      ((withRow key rid rows).drop degree).head? = some row → key' made = key row →
      Halved root others ⟨addr, true, (withRow key rid rows).take degree, []⟩
        ⟨addrNew, true, (withRow key rid rows).drop degree, []⟩ made map' →
        post ⟨made, addrNew⟩ (⟨map', 0⟩, ⟨key', Set.univ, {made}⟩)) :
    (insertEntry degree (rounds + 1) addr rid root : TreeProg Q NewChildEntry).wp (treeLogic ask) post
      (⟨map, 0⟩, ⟨key, Set.univ, 0⟩) := by
  obtain ⟨full, increasing, free, lays⟩ := leaf
  have knows : ∀ row : RID, World.Knows ⟨key, Set.univ, 0⟩ row := fun row => .inl (Set.mem_univ row)
  have member : ⟨addr, true, rows, []⟩ ∈ ({⟨addr, true, rows, []⟩} + others : Multiset NodeDesc) :=
    Multiset.mem_add.mpr (.inl (Multiset.mem_singleton_self _))
  unfold insertEntry
  rw [wp_bind]
  refine wp_getNode lays member room_zero fun node is => ?_
  rw [if_pos is.kind]
  refine wp_splitLeaf positive lays is full (knows rid) (fun row _ => knows row) ?_
  intro xs ys row made key' addrNew map' split passed stopped cut agree same halved
  subst split
  have less : ∀ other ∈ xs, key other < key rid := fun other here =>
    lt_of_le_of_ne (passed other here) (absent other (List.mem_append_left _ here))
  have placed : withRow key rid (xs ++ ys) = xs ++ rid :: ys :=
    orderedInsert_eq (fun other here => not_le.mpr (less other here)) (fun other here => (stopped other here).le)
  rw [placed] at ended
  exact ended row made key' addrNew map' (pairwise_insert (fun _ _ _ => lt_trans) increasing less stopped) cut same halved

/-- The part of `insert_entry` behind the recursion, on a full node. -/
theorem wp_innerIsCut {addr first root : Int} {slots : List (RID × Int)} {entry : NewChildEntry}
    {others : Multiset NodeDesc} {map : PageMap IndexPage} {post : NewChildEntry → TreeState K → Prop}
    (positive : 1 ≤ degree)
    (inner : FullNode degree key map root others ⟨addr, false, slots.map Prod.fst, first :: slots.map Prod.snd⟩)
    (absent : ∀ slot ∈ slots, key slot.1 ≠ key entry.childKey)
    (ended : ∀ middle addrNew map', (withSlot key entry slots).Pairwise (fun a b => key a.1 < key b.1) →
      ((withSlot key entry slots).map Prod.fst)[degree]? = some middle →
      Halved root others
        ⟨addr, false, ((withSlot key entry slots).map Prod.fst).take degree,
          (first :: (withSlot key entry slots).map Prod.snd).take (degree + 1)⟩
        ⟨addrNew, false, ((withSlot key entry slots).map Prod.fst).drop (degree + 1),
          (first :: (withSlot key entry slots).map Prod.snd).drop (degree + 1)⟩ middle map' →
        post ⟨middle, addrNew⟩ (⟨map', 0⟩, ⟨key, Set.univ, 0⟩)) :
    (do
      let node ← getNode addr
      insertInner degree addr node entry root : TreeProg Q NewChildEntry).wp (treeLogic ask) post
        (⟨map, 0⟩, ⟨key, Set.univ, 0⟩) := by
  obtain ⟨full, increasing, free, lays⟩ := inner
  have knows : ∀ row : RID, World.Knows ⟨key, Set.univ, 0⟩ row := fun row => .inl (Set.mem_univ row)
  have member : ⟨addr, false, slots.map Prod.fst, first :: slots.map Prod.snd⟩ ∈
      ({⟨addr, false, slots.map Prod.fst, first :: slots.map Prod.snd⟩} + others : Multiset NodeDesc) :=
    Multiset.mem_add.mpr (.inl (Multiset.mem_singleton_self _))
  have count : (first :: slots.map Prod.snd).length = (slots.map Prod.fst).length + 1 := by
    rw [List.length_cons, List.length_map, List.length_map]
  rw [wp_bind]
  refine wp_getNode lays member room_zero fun node is => ?_
  refine wp_splitInner positive lays is full count (knows _) (fun row _ => knows row) ?_
  intro xs ys as bs middle addrNew map' split splitKids place passed stopped cut halved
  obtain ⟨us, vs, rfl, rfl, rfl⟩ := List.map_eq_append_iff.mp split
  -- the first child stands in front of the pairs, so it is on the left of every place for a new one
  rw [List.map_append, ← List.cons_append] at splitKids
  obtain ⟨rfl, rfl⟩ := List.append_inj splitKids (by rw [place, List.length_cons, List.length_map, List.length_map])
  have less : ∀ other ∈ us, key other.1 < key entry.childKey := fun other here =>
    lt_of_le_of_ne (passed other.1 (List.mem_map_of_mem here)) (absent other (List.mem_append_left _ here))
  have next : ∀ other ∈ vs.head?, key entry.childKey < key other.1 := fun other here =>
    stopped other.1 (by rw [List.head?_map]; exact Option.mem_map_of_mem _ here)
  have placed : withSlot key entry (us ++ vs) = us ++ (entry.childKey, entry.childPtr) :: vs :=
    orderedInsert_eq (fun other here => not_le.mpr (less other here)) (fun other here => (next other here).le)
  dsimp only at increasing
  rw [List.pairwise_map] at increasing
  rw [placed, List.map_append, List.map_cons, List.map_append, List.map_cons, ← List.cons_append] at ended
  exact ended middle addrNew map' (pairwise_insert (fun _ _ _ => lt_trans) increasing less next) cut halved

/--
A split is an insertion and a cut, in all four copies of the code: a full leaf keeps the first
`DEGREE` of its rows with the new row among them, the other `DEGREE + 1` go to the new leaf, and
the separator is a copy of the first of these; a full node above the leaves keeps `DEGREE` keys
and `DEGREE + 1` children, the last `DEGREE` and `DEGREE + 1` go to the new node, and the key
between them is the separator.
-/
theorem split_is_cut (positive : 1 ≤ degree) (lawful : callbacks.Lawful ask key) (caller : σ) (map : PageMap IndexPage)
    (root : Int) (others : Multiset NodeDesc) :
    (∀ addr rows rid rounds, FullNode degree key map root others ⟨addr, true, rows, []⟩ →
      (∀ row ∈ rows, key row ≠ key rid) →
        ∃ made addrNew map' ledger, (insertEntry degree (rounds + 1) addr rid root).run (treeMeaning callbacks)
            (⟨map, 0⟩, ⟨caller, 0, 0⟩) = some (⟨made, addrNew⟩, (⟨map', 0⟩, ledger)) ∧
          (withRow key rid rows).Pairwise (fun a b => key a < key b) ∧
          made ∈ ledger.made ∧ (∃ row ∈ ((withRow key rid rows).drop degree).head?, key made = key row) ∧
          Halved root others ⟨addr, true, (withRow key rid rows).take degree, []⟩
            ⟨addrNew, true, (withRow key rid rows).drop degree, []⟩ made map') ∧
    (∀ addr first slots entry,
      FullNode degree key map root others ⟨addr, false, slots.map Prod.fst, first :: slots.map Prod.snd⟩ →
      (∀ slot ∈ slots, key slot.1 ≠ key entry.childKey) →
        ∃ middle addrNew map' ledger, (do
            let node ← getNode addr
            insertInner degree addr node entry root).run (treeMeaning callbacks)
              (⟨map, 0⟩, ⟨caller, 0, 0⟩) = some (⟨middle, addrNew⟩, (⟨map', 0⟩, ledger)) ∧
          (withSlot key entry slots).Pairwise (fun a b => key a.1 < key b.1) ∧
          ((withSlot key entry slots).map Prod.fst)[degree]? = some middle ∧
          Halved root others
            ⟨addr, false, ((withSlot key entry slots).map Prod.fst).take degree,
              (first :: (withSlot key entry slots).map Prod.snd).take (degree + 1)⟩
            ⟨addrNew, false, ((withSlot key entry slots).map Prod.fst).drop (degree + 1),
              (first :: (withSlot key entry slots).map Prod.snd).drop (degree + 1)⟩ middle map') := by
  have accounts : Accounts key (⟨map, 0⟩, ⟨key, Set.univ, 0⟩) ((⟨map, 0⟩, ⟨caller, 0, 0⟩) : RunState σ) :=
    ⟨rfl, rfl, rfl, rfl⟩
  constructor
  · intro addr rows rid rounds leaf absent
    have spec : (insertEntry degree (rounds + 1) addr rid root : TreeProg Q NewChildEntry).wp (treeLogic ask)
        (fun entry (final : TreeState K) => final.1.pins = 0 ∧ final.2.owed = {entry.childKey} ∧
          (withRow key rid rows).Pairwise (fun a b => key a < key b) ∧
          (∃ row ∈ ((withRow key rid rows).drop degree).head?, final.2.key entry.childKey = key row) ∧
          Halved root others ⟨addr, true, (withRow key rid rows).take degree, []⟩
            ⟨entry.childPtr, true, (withRow key rid rows).drop degree, []⟩ entry.childKey final.1.map)
        (⟨map, 0⟩, ⟨key, Set.univ, 0⟩) := by
      refine wp_leafIsCut positive leaf absent ?_
      intro row made key' addrNew map' sorted cut same halved
      exact ⟨rfl, rfl, sorted, ⟨row, cut, same⟩, halved⟩
    obtain ⟨⟨⟨made, addrNew⟩, ⟨pages, ledger⟩, ran, ⟨_, world⟩, ⟨rfl, rfl, -, owed⟩, ended⟩, -⟩ :=
      run_of_wp_tree lawful accounts spec
    obtain ⟨map', pins⟩ := pages
    obtain ⟨rfl, single, sorted, first, halved⟩ := ended
    refine ⟨made, addrNew, map', ledger, ran, sorted, ?_, first, halved⟩
    rw [show ledger.made = ledger.freed + world.owed from owed, single]
    exact Multiset.mem_add.mpr (.inr (Multiset.mem_singleton_self _))
  · intro addr first slots entry inner absent
    have spec : (do
        let node ← getNode addr
        insertInner degree addr node entry root : TreeProg Q NewChildEntry).wp (treeLogic ask)
        (fun result (final : TreeState K) => final.1.pins = 0 ∧
          (withSlot key entry slots).Pairwise (fun a b => key a.1 < key b.1) ∧
          ((withSlot key entry slots).map Prod.fst)[degree]? = some result.childKey ∧
          Halved root others
            ⟨addr, false, ((withSlot key entry slots).map Prod.fst).take degree,
              (first :: (withSlot key entry slots).map Prod.snd).take (degree + 1)⟩
            ⟨result.childPtr, false, ((withSlot key entry slots).map Prod.fst).drop (degree + 1),
              (first :: (withSlot key entry slots).map Prod.snd).drop (degree + 1)⟩ result.childKey final.1.map)
        (⟨map, 0⟩, ⟨key, Set.univ, 0⟩) := by
      refine wp_innerIsCut positive inner absent ?_
      intro middle addrNew map' sorted cut halved
      exact ⟨rfl, sorted, cut, halved⟩
    obtain ⟨⟨⟨middle, addrNew⟩, ⟨pages, ledger⟩, ran, ⟨_, world⟩, ⟨rfl, -, -, -⟩, ended⟩, -⟩ :=
      run_of_wp_tree lawful accounts spec
    obtain ⟨map', pins⟩ := pages
    obtain ⟨rfl, sorted, cut, halved⟩ := ended
    exact ⟨middle, addrNew, map', ledger, ran, sorted, cut, halved⟩

/-- An index file of a control block and one node, the root. -/
def rootPages (node : BNode) : PageMap IndexPage :=
  ⟨2 * pageSize, fun addr => if addr = 0 then .ctrl ⟨pageSize, -1⟩ else .node node⟩

theorem rootPages_lays {node : BNode} {leaf : Bool} {rows : List RID} {kids : List Int} (is : NodeIs node leaf rows kids) :
    Lays (rootPages node) ⟨pageSize, {⟨pageSize, leaf, rows, kids⟩} + 0, 0, []⟩ where
  ctrl := ⟨-1, rfl, rfl⟩
  stored desc member := by
    rw [add_zero, Multiset.mem_singleton] at member
    subst member
    exact ⟨node, rfl, is⟩
  opened addr member := absurd member (Multiset.notMem_zero _)
  freed addr member := absurd member List.not_mem_nil
  distinct := Multiset.nodup_singleton _
  covers addr := by
    have pages : Layout.pages ⟨pageSize, {⟨pageSize, leaf, rows, kids⟩} + 0, 0, []⟩ = {pageSize} := rfl
    rw [pages, Multiset.mem_singleton]
    simp only [PageMap.InFile, rootPages, pageSize]
    omega
  whole := rfl
  positive := (by decide : (0 : Int) < 2 * pageSize)

/-- The rows `1, 3, 5, 7`, with children behind the pages of the file. -/
def oddRows (leaf : Bool) : BNode :=
  ⟨4, -1, fun i => (i + 2) * pageSize, fun i => ⟨2 * i + 1, 0⟩, leaf⟩

theorem split_is_cut_four :
    (∃ made addrNew map' ledger, (insertEntry 2 1 pageSize ⟨4, 0⟩ pageSize).run (treeMeaning testCallbacks)
        (⟨rootPages (oddRows true), 0⟩, ⟨(), 0, 0⟩) = some (⟨made, addrNew⟩, (⟨map', 0⟩, ledger)) ∧
      made ∈ ledger.made ∧ made.blockAddr = 4 ∧
      Halved pageSize 0 ⟨pageSize, true, [⟨1, 0⟩, ⟨3, 0⟩], []⟩ ⟨addrNew, true, [⟨4, 0⟩, ⟨5, 0⟩, ⟨7, 0⟩], []⟩ made map') ∧
    ∃ addrNew map' ledger, (do
        let node ← getNode pageSize
        insertInner 2 pageSize node ⟨⟨4, -1⟩, 9 * pageSize⟩ pageSize).run (treeMeaning testCallbacks)
          (⟨rootPages (oddRows false), 0⟩, ⟨(), 0, 0⟩) = some (⟨⟨4, -1⟩, addrNew⟩, (⟨map', 0⟩, ledger)) ∧
      Halved pageSize 0 ⟨pageSize, false, [⟨1, 0⟩, ⟨3, 0⟩], [2 * pageSize, 3 * pageSize, 4 * pageSize]⟩
        ⟨addrNew, false, [⟨5, 0⟩, ⟨7, 0⟩], [9 * pageSize, 5 * pageSize, 6 * pageSize]⟩ ⟨4, -1⟩ map' := by
  obtain ⟨leaf, -⟩ := split_is_cut (by decide : 1 ≤ 2) testCallbacks_lawful () (rootPages (oddRows true)) pageSize 0
  obtain ⟨-, inner⟩ := split_is_cut (by decide : 1 ≤ 2) testCallbacks_lawful () (rootPages (oddRows false)) pageSize 0
  constructor
  · obtain ⟨made, addrNew, map', ledger, ran, -, fresh, ⟨row, cut, same⟩, halved⟩ :=
      leaf pageSize [⟨1, 0⟩, ⟨3, 0⟩, ⟨5, 0⟩, ⟨7, 0⟩] ⟨4, 0⟩ 0
        ⟨rfl, by decide, [], rootPages_lays ⟨rfl, rfl, by unfold Holds; decide, fun _ less => absurd less (Nat.not_lt_zero _)⟩⟩ (by decide)
    obtain rfl : row = ⟨4, 0⟩ := (Option.some.inj cut).symm
    exact ⟨made, addrNew, map', ledger, ran, fresh, same, halved⟩
  · obtain ⟨middle, addrNew, map', ledger, ran, -, cut, halved⟩ :=
      inner pageSize (2 * pageSize) [(⟨1, 0⟩, 3 * pageSize), (⟨3, 0⟩, 4 * pageSize), (⟨5, 0⟩, 5 * pageSize),
        (⟨7, 0⟩, 6 * pageSize)] ⟨⟨4, -1⟩, 9 * pageSize⟩
          ⟨rfl, by decide, [], rootPages_lays ⟨rfl, rfl, by unfold Holds; decide, by unfold Holds; decide⟩⟩ (by decide)
    obtain rfl : middle = ⟨4, -1⟩ := (Option.some.inj cut).symm
    exact ⟨addrNew, map', ledger, ran, halved⟩

end Splits

end MyJQL.Index
