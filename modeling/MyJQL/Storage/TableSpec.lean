import MyJQL.Storage.Table

/-!
# What a table holds

`TableHolds` names the items of every data block and ties the free-space map to
the blocks: a block's address stands in the bucket of its free space, once. Read
from outside, a table is a heap of byte strings named by RIDs.
-/

namespace MyJQL.Storage.Table

open Library Library.Prog HashMap Block

/-- The bytes between the ItemIDs and the items of a block. -/
def freeSpace (block : Block) : Int := block.tailPtr - block.headPtr

/-- The free-space map lists every data block once, under its free space. -/
def Indexed (maps : TableMaps) (pairs : Finset (Nat × Int)) : Prop :=
  Holds nDirectoryBlocks maps.2 pairs ∧ ∀ (size : Nat) (addr : Int),
    (size, addr) ∈ pairs ↔ maps.1.InFile addr ∧ (size : Int) = freeSpace (maps.1.page addr)

structure TableHolds (maps : TableMaps) (items : Int → List Item) : Prop where
  nonneg : 0 ≤ maps.1.length
  aligned : maps.1.length % pageSize = 0
  blocks : ∀ addr, maps.1.InFile addr → BlockHolds (maps.1.page addr) (items addr)
  outside : ∀ addr, ¬ maps.1.InFile addr → items addr = []
  indexed : ∃ pairs, Indexed maps pairs

/-- A heap of byte strings named by RIDs. -/
abbrev Heap : Type := RID → Option (List Cell)

/-- The heap that the items of the blocks make up. -/
def heapOf (items : Int → List Item) : Heap := fun rid =>
  if 0 ≤ rid.idx then (items rid.blockAddr).lookup rid.idx.toNat else none

/-- The logic of the two page maps of a table. -/
def tableLogic : Logic TablePageOp TableMaps := (mapLogic Block).sum (mapLogic FsmPage)

/-- The data pool under the pin discipline, beside the free-space map. -/
def pinnedTableLogic : Logic TablePageOp (Pinned Block × PageMap FsmPage) :=
  (pinnedLogic Block True).sum (mapLogic FsmPage)

/-- No block is pinned. -/
def idle (maps : TableMaps) : Pinned Block × PageMap FsmPage := (⟨maps.1, 0⟩, maps.2)

/-- After a call that pins no block in the end. -/
def Settles {α : Type} (post : α → TableMaps → Prop) (result : α) (after : Pinned Block × PageMap FsmPage) : Prop :=
  after.1.pins = 0 ∧ post result (after.1.map, after.2)

theorem released_only {addr : Int} : (addr ::ₘ (0 : Multiset Int)).erase addr = 0 := Multiset.erase_cons_head ..

/-- What is specified under the pin discipline holds of the page maps. -/
theorem wp_of_idle {α : Type} {program : TableProg α} {post : α → TableMaps → Prop} {maps : TableMaps}
    (holds : program.wp pinnedTableLogic (Settles post) (idle maps)) : program.wp tableLogic post maps := by
  refine wp_mono ?_ (wp_simulates (Logic.Simulates.sum (pinned_simulates Block True) (Logic.Simulates.refl _)) ⟨rfl, rfl⟩ holds)
  rintro result ⟨data, fsm⟩ ⟨⟨pinned, _⟩, ⟨rfl, rfl⟩, -, ended⟩
  exact ended

/-! ## Free space -/

section Free

variable {block : Block} {items : List Item}

theorem freeSpace_bounds (holds : BlockHolds block items) :
    0 ≤ freeSpace block ∧ freeSpace block ≤ 122 := by
  have nonneg := holds.nonneg
  have head := holds.head
  have tail := holds.tail
  have room := holds.room
  unfold freeSpace
  simp only [dataOffset, Block.itemIdSize, blockBytes] at *
  omega

theorem freeSize_eq (holds : BlockHolds block items) :
    freeSize block = some (freeSpace block).toNat := by
  obtain ⟨low, high⟩ := freeSpace_bounds holds
  unfold freeSize
  unfold freeSpace at *
  rw [if_pos ⟨low, by omega⟩]

theorem freeSpace_initBlock (block : Block) : freeSpace block.initBlock = 122 := rfl

/-- The free space of a block is a size the free-space map takes. -/
theorem inRange_freeSpace (holds : BlockHolds block items) :
    FsmOp.InRange nDirectoryBlocks (freeSpace block).toNat := by
  obtain ⟨low, high⟩ := freeSpace_bounds holds
  constructor
  · simp only [dirBlockSize, nDirectoryBlocks]
    omega
  · omega

end Free

/-! ## The free-space map, in the logic of the page map -/

section Fsm

variable {map : PageMap FsmPage} {pairs : Finset (Nat × Int)} {size : Nat} {addr : Int}

theorem wp_fsmInsert (holds : Holds nDirectoryBlocks map pairs)
    (range : FsmOp.InRange nDirectoryBlocks size) (fresh : ∀ other, (other, addr) ∉ pairs) :
    (hashTableInsert size addr).wp (mapLogic FsmPage)
      (fun _ after => Holds nDirectoryBlocks after (insert (size, addr) pairs)) map := by
  have allowed : (FsmOp.insert size addr).Allowed nDirectoryBlocks pairs := ⟨range, fresh⟩
  have called := wp_program_map holds allowed
  simp only [FsmOp.program, wp_bind, wp_pure] at called
  exact wp_mono (fun _ _ final => final.1) called

theorem wp_fsmPop (holds : Holds nDirectoryBlocks map pairs)
    (range : FsmOp.InRange nDirectoryBlocks size) (present : (size, addr) ∈ pairs) :
    (hashTablePop size addr).wp (mapLogic FsmPage)
      (fun _ after => Holds nDirectoryBlocks after (pairs.erase (size, addr))) map := by
  have allowed : (FsmOp.pop size addr).Allowed nDirectoryBlocks pairs := ⟨range, present⟩
  have called := wp_program_map holds allowed
  simp only [FsmOp.program, wp_bind, wp_pure] at called
  exact wp_mono (fun _ _ final => final.1) called

/-- What the lower bound takes out of the free-space map. -/
def Taken (pairs : Finset (Nat × Int)) (size : Nat) (addr : Int) (rest : Finset (Nat × Int)) : Prop :=
  (addr = -1 ∧ rest = pairs ∧ ∀ pair ∈ pairs, pair.1 < size) ∨
    ∃ found, (found, addr) ∈ pairs ∧ size ≤ found ∧ rest = pairs.erase (found, addr) ∧
      ∀ pair ∈ pairs, size ≤ pair.1 → found ≤ pair.1

theorem wp_fsmPopLowerBound (holds : Holds nDirectoryBlocks map pairs)
    (range : FsmOp.InRange nDirectoryBlocks size) :
    (hashTablePopLowerBound size).wp (mapLogic FsmPage)
      (fun addr after => ∃ rest, Holds nDirectoryBlocks after rest ∧ Taken pairs size addr rest)
      map := by
  have allowed : (FsmOp.popLowerBound size).Allowed nDirectoryBlocks pairs := range
  have called := wp_program_map holds allowed
  simp only [FsmOp.program, wp_bind, wp_pure] at called
  refine wp_mono ?_ called
  rintro addr after ⟨final, answers⟩
  refine ⟨_, final, ?_⟩
  cases least : FsmOp.leastSize pairs size with
  | top =>
      simp only [FsmOp.Answers, least, Option.some.injEq] at answers
      simp only [FsmOp.after, least]
      exact Or.inl ⟨answers, rfl, fun pair member => lt_of_leastSize_eq_top least member⟩
  | coe found =>
      simp only [FsmOp.Answers, least, Option.some.injEq] at answers
      obtain ⟨same, rfl, present⟩ := answers
      obtain ⟨fits, smallest⟩ := of_leastSize_eq_coe least
      simp only [FsmOp.after, least, Option.getD_some]
      exact Or.inr ⟨found, present, fits, rfl, smallest⟩

end Fsm

/-! ## The heap -/

section HeapOf

variable {items : Int → List Item} {rid : RID} {addr : Int} {idx : Nat} {content src : List Cell}
  {before later : List Item}

theorem lookup_eq_some_iff_mem {list : List Item} (distinct : (list.map Prod.fst).Nodup) :
    list.lookup idx = some content ↔ (idx, content) ∈ list := by
  induction list with
  | nil => exact iff_of_false (by simp) List.not_mem_nil
  | cons item rest ih =>
      obtain ⟨other, cells⟩ := item
      obtain ⟨absent, restDistinct⟩ := List.nodup_cons.mp distinct
      rw [List.lookup_cons, List.mem_cons]
      by_cases same : idx = other
      · subst same
        have notLater : (idx, content) ∉ rest := fun member =>
          absent (List.mem_map.mpr ⟨_, member, rfl⟩)
        simp only [beq_self_eq_true, Option.some.injEq, Prod.mk.injEq, true_and, notLater, or_false]
        exact eq_comm
      · have different : (idx == other) = false := beq_false_of_ne same
        simp only [different, ih restDistinct, Prod.mk.injEq, same, false_and, false_or]

theorem heapOf_eq_some_iff (distinct : ((items rid.blockAddr).map Prod.fst).Nodup) :
    heapOf items rid = some content ↔
      0 ≤ rid.idx ∧ (rid.idx.toNat, content) ∈ items rid.blockAddr := by
  unfold heapOf
  by_cases nonneg : 0 ≤ rid.idx
  · rw [if_pos nonneg, lookup_eq_some_iff_mem distinct]
    exact (and_iff_right nonneg).symm
  · rw [if_neg nonneg]
    exact iff_of_false (by simp) fun both => nonneg both.1

theorem heapOf_of_addr_ne {list : List Item} (different : rid.blockAddr ≠ addr) :
    heapOf (Function.update items addr list) rid = heapOf items rid := by
  unfold heapOf
  rw [Function.update_of_ne different]

theorem heapOf_insert :
    heapOf (Function.update items addr ((idx, src) :: items addr)) =
      Function.update (heapOf items) ⟨addr, idx⟩ (some src) := by
  funext rid
  by_cases same : rid = ⟨addr, idx⟩
  · subst same
    rw [Function.update_self]
    unfold heapOf
    rw [if_pos (Int.natCast_nonneg idx), Function.update_self, Int.toNat_natCast, List.lookup_cons,
      beq_self_eq_true]
  · rw [Function.update_of_ne same]
    by_cases here : rid.blockAddr = addr
    · unfold heapOf
      by_cases nonneg : 0 ≤ rid.idx
      · have different : (rid.idx.toNat == idx) = false := by
          refine beq_false_of_ne fun equal => same ?_
          obtain ⟨blockAddr, index⟩ := rid
          simp only [RID.mk.injEq] at *
          omega
        rw [if_pos nonneg, if_pos nonneg, here, Function.update_self, List.lookup_cons, different]
      · rw [if_neg nonneg, if_neg nonneg]
    · exact heapOf_of_addr_ne here

theorem heapOf_delete (place : items addr = before ++ (idx, content) :: later)
    (distinct : ((items addr).map Prod.fst).Nodup) :
    heapOf (Function.update items addr (before ++ later)) =
      Function.update (heapOf items) ⟨addr, idx⟩ none := by
  have absent : idx ∉ (before ++ later).map Prod.fst := by
    have fsts : (before ++ (idx, content) :: later).map Prod.fst =
        before.map Prod.fst ++ idx :: later.map Prod.fst := by
      simp
    rw [place, fsts, List.nodup_middle, List.nodup_cons] at distinct
    rw [List.map_append]
    exact distinct.1
  funext rid
  by_cases same : rid = ⟨addr, idx⟩
  · subst same
    rw [Function.update_self]
    unfold heapOf
    rw [if_pos (Int.natCast_nonneg idx), Function.update_self, Int.toNat_natCast,
      List.lookup_eq_none_iff]
    intro item member
    refine bne_iff_ne.mpr fun equal => absent ?_
    exact List.mem_map.mpr ⟨item, member, equal.symm⟩
  · rw [Function.update_of_ne same]
    by_cases here : rid.blockAddr = addr
    · unfold heapOf
      by_cases nonneg : 0 ≤ rid.idx
      · have different : (rid.idx.toNat == idx) = false := by
          refine beq_false_of_ne fun equal => same ?_
          obtain ⟨blockAddr, index⟩ := rid
          simp only [RID.mk.injEq] at *
          omega
        rw [if_pos nonneg, if_pos nonneg, here, Function.update_self, place, List.lookup_append,
          List.lookup_append, List.lookup_cons, different]
      · rw [if_neg nonneg, if_neg nonneg]
    · exact heapOf_of_addr_ne here

end HeapOf

/-! ## Operations -/

section Operations

variable {maps : TableMaps} {items : Int → List Item} {rid : RID} {content src : List Cell}

/-- A live RID names an item of a block of the file. -/
theorem TableHolds.live (holds : TableHolds maps items) (live : heapOf items rid = some content) :
    maps.1.InFile rid.blockAddr ∧ 0 ≤ rid.idx ∧
      (rid.idx.toNat, content) ∈ items rid.blockAddr := by
  have inside : maps.1.InFile rid.blockAddr := by
    by_contra outside
    unfold heapOf at live
    rw [holds.outside _ outside] at live
    by_cases nonneg : 0 ≤ rid.idx
    · rw [if_pos nonneg] at live
      cases live
    · rw [if_neg nonneg] at live
      cases live
  have distinct := (holds.blocks _ inside).distinct
  exact ⟨inside, (heapOf_eq_some_iff distinct).mp live⟩

theorem idle_tableRead {post : List Cell → TableMaps → Prop} (holds : TableHolds maps items)
    (live : heapOf items rid = some content) (ended : post content maps) :
    (tableRead rid).wp pinnedTableLogic (Settles post) (idle maps) := by
  obtain ⟨inside, nonneg, member⟩ := holds.live live
  obtain ⟨itemId, read, size, offset, got, bytes⟩ := (holds.blocks _ inside).getItem member
  rw [Int.toNat_of_nonneg nonneg] at read got
  unfold tableRead pinnedTableLogic idle
  simp only [onData, wp_bind, wp_onLeft, wp_perform]
  have pinned : rid.blockAddr ∈ rid.blockAddr ::ₘ (0 : Multiset Int) := Multiset.mem_cons_self _ _
  refine rule_getPage inside (fun _ => by decide) (rule_load (fun _ => pinned) ?_)
  rw [read, got]
  simp only [wp_ofOption_some, size, wp_bind, bytes, wp_onLeft, wp_perform, wp_pure]
  exact rule_release (fun _ => pinned) ⟨released_only, ended⟩

theorem wp_tableRead {post : List Cell → TableMaps → Prop} (holds : TableHolds maps items)
    (live : heapOf items rid = some content) (ended : post content maps) :
    (tableRead rid).wp tableLogic post maps := wp_of_idle (idle_tableRead holds live ended)

/-! ### Rewriting one block -/

section Rewriting

variable {data : PageMap Block} {fsm fsm' : PageMap FsmPage} {pairs : Finset (Nat × Int)} {addr : Int}
  {block : Block} {list : List Item}

theorem TableHolds.bounds (holds : TableHolds (data, fsm) items) (inside : data.InFile addr) :
    0 ≤ freeSpace (data.page addr) ∧ freeSpace (data.page addr) ≤ 122 :=
  freeSpace_bounds (holds.blocks addr inside)

theorem TableHolds.rewrite (holds : TableHolds (data, fsm) items) (inside : data.InFile addr)
    (blockHolds : BlockHolds block list) (indexed : Indexed (data.store addr block, fsm') pairs) :
    TableHolds (data.store addr block, fsm') (Function.update items addr list) := by
  refine ⟨holds.nonneg, holds.aligned, ?_, ?_, pairs, indexed⟩
  · intro other otherInside
    by_cases same : other = addr
    · subst same
      rw [Function.update_self, PageMap.store_page_self]
      exact blockHolds
    · rw [Function.update_of_ne same, PageMap.store_page_of_ne _ _ same]
      exact holds.blocks other otherInside
  · intro other otherOutside
    have same : other ≠ addr := by
      rintro rfl
      exact otherOutside inside
    rw [Function.update_of_ne same]
    exact holds.outside other otherOutside

/-- The pair of a rewritten block takes the place of its old pair. -/
theorem Indexed.rewrite (indexed : Indexed (data, fsm) pairs) (inside : data.InFile addr)
    (blockHolds : BlockHolds block list)
    (fsmHolds : Holds nDirectoryBlocks fsm' (insert ((freeSpace block).toNat, addr)
      (pairs.erase ((freeSpace (data.page addr)).toNat, addr)))) :
    Indexed (data.store addr block, fsm') (insert ((freeSpace block).toNat, addr)
      (pairs.erase ((freeSpace (data.page addr)).toNat, addr))) := by
  refine ⟨fsmHolds, fun size other => ?_⟩
  have bounds := freeSpace_bounds blockHolds
  rw [Finset.mem_insert, Finset.mem_erase, indexed.2 size other]
  by_cases same : other = addr
  · subst same
    simp only [Prod.mk.injEq, PageMap.inFile_store, PageMap.store_page_self, ne_eq, inside, true_and,
      and_true]
    omega
  · simp only [Prod.mk.injEq, same, and_false, false_or, ne_eq, not_false_eq_true, true_and,
      PageMap.inFile_store, PageMap.store_page_of_ne _ _ same]

/-- The page map with one more block at its end. -/
structure Extended (data : PageMap Block) (block : Block) (data' : PageMap Block) : Prop where
  length : data'.length = data.length + pageSize
  here : data'.page data.length = block
  kept : ∀ other ≠ data.length, data'.page other = data.page other

theorem Extended.inFile_iff {data' : PageMap Block} (extended : Extended data block data')
    (nonneg : 0 ≤ data.length) (aligned : data.length % pageSize = 0) (other : Int) :
    data'.InFile other ↔ data.InFile other ∨ other = data.length := by
  unfold PageMap.InFile
  rw [extended.length]
  simp only [pageSize] at *
  omega

theorem TableHolds.extend {data' : PageMap Block} (holds : TableHolds (data, fsm) items)
    (extended : Extended data block data') (blockHolds : BlockHolds block list)
    (indexed : Indexed (data', fsm') pairs) :
    TableHolds (data', fsm') (Function.update items data.length list) := by
  have inFile_iff := extended.inFile_iff holds.nonneg holds.aligned
  have nonneg := holds.nonneg
  have aligned := holds.aligned
  refine ⟨?_, ?_, ?_, ?_, pairs, indexed⟩
  · simp only [extended.length, pageSize] at *
    omega
  · simp only [extended.length, pageSize] at *
    omega
  · intro other otherInside
    by_cases same : other = data.length
    · subst same
      rw [Function.update_self, extended.here]
      exact blockHolds
    · rw [Function.update_of_ne same, extended.kept other same]
      exact holds.blocks other (((inFile_iff other).mp otherInside).resolve_right same)
  · intro other otherOutside
    have same : other ≠ data.length := fun equal => otherOutside ((inFile_iff other).mpr (Or.inr equal))
    rw [Function.update_of_ne same]
    exact holds.outside other fun inside => otherOutside ((inFile_iff other).mpr (Or.inl inside))

/-- The pair of a new block is added. -/
theorem Indexed.extend {data' : PageMap Block} (indexed : Indexed (data, fsm) pairs)
    (nonneg : 0 ≤ data.length) (aligned : data.length % pageSize = 0)
    (extended : Extended data block data') (blockHolds : BlockHolds block list)
    (fsmHolds : Holds nDirectoryBlocks fsm' (insert ((freeSpace block).toNat, data.length) pairs)) :
    Indexed (data', fsm') (insert ((freeSpace block).toNat, data.length) pairs) := by
  refine ⟨fsmHolds, fun size other => ?_⟩
  have bounds := freeSpace_bounds blockHolds
  rw [Finset.mem_insert, indexed.2 size other, extended.inFile_iff nonneg aligned other]
  by_cases same : other = data.length
  · subst same
    have outside : ¬ data.InFile data.length := fun inside => absurd inside.2.2 (lt_irrefl _)
    simp only [Prod.mk.injEq, extended.here, outside, and_true, false_and, or_false, or_true, true_and]
    omega
  · simp only [Prod.mk.injEq, same, and_false, false_or, or_false, extended.kept other same]

end Rewriting

/-! ### Insertion -/

section Insertion

variable {data : PageMap Block} {fsm : PageMap FsmPage} {pairs : Finset (Nat × Int)} {addr : Int}
  {list : List Item}

theorem idle_insertInto {post : RID → TableMaps → Prop}
    (blockHolds : BlockHolds (data.page addr) list)
    (fsmHolds : Holds nDirectoryBlocks fsm pairs) (fresh : ∀ other, (other, addr) ∉ pairs)
    (nonempty : src ≠ []) (fits : (src.length : Int) + itemIdSize ≤ freeSpace (data.page addr))
    (ended : ∀ (idx : Nat) (filled : Block) (fsm' : PageMap FsmPage),
      idx ∉ list.map Prod.fst → BlockHolds filled ((idx, src) :: list) →
      Holds nDirectoryBlocks fsm' (insert ((freeSpace filled).toNat, addr) pairs) →
      post ⟨addr, idx⟩ (data.store addr filled, fsm')) :
    (insertInto addr addr src).wp pinnedTableLogic (Settles post) (⟨data, addr ::ₘ 0⟩, fsm) := by
  obtain ⟨idx, filled, inserted, absent, filledHolds⟩ := newItem_spec blockHolds nonempty fits
  have pinned : addr ∈ addr ::ₘ (0 : Multiset Int) := Multiset.mem_cons_self _ _
  unfold insertInto pinnedTableLogic
  simp only [onData, onFsm, wp_bind, wp_onLeft, wp_onRight, wp_perform]
  refine rule_load (fun _ => pinned) ?_
  rw [inserted]
  simp only [wp_ofOption_some]
  refine rule_store (fun _ => pinned) ?_
  rw [freeSize_eq filledHolds]
  simp only [wp_ofOption_some, wp_pure]
  refine wp_mono ?_ (wp_fsmInsert fsmHolds (inRange_freeSpace filledHolds) fresh)
  intro _ fsm' fsmHolds'
  exact rule_release (fun _ => pinned) ⟨released_only, ended idx filled fsm' absent filledHolds fsmHolds'⟩

/-- Where `table_insert` puts an item of this size. -/
structure Placement (maps : TableMaps) (size : Nat) (rid : RID) (after : TableMaps) : Prop where
  appends : after.1.length = maps.1.length + pageSize ↔
    ∀ addr, maps.1.InFile addr → freeSpace (maps.1.page addr) < size + itemIdSize
  appended : after.1.length = maps.1.length + pageSize → rid.blockAddr = maps.1.length
  reused : after.1.length ≠ maps.1.length + pageSize → after.1.length = maps.1.length ∧
    maps.1.InFile rid.blockAddr ∧
    size + itemIdSize ≤ freeSpace (maps.1.page rid.blockAddr) ∧
    ∀ addr, maps.1.InFile addr → size + itemIdSize ≤ freeSpace (maps.1.page addr) →
      freeSpace (maps.1.page rid.blockAddr) ≤ freeSpace (maps.1.page addr)

/-- What `table_insert` promises. -/
structure Inserted (maps : TableMaps) (items : Int → List Item) (src : List Cell) (rid : RID)
    (after : TableMaps) (items' : Int → List Item) : Prop where
  holds : TableHolds after items'
  fresh : heapOf items rid = none
  heap : heapOf items' = Function.update (heapOf items) rid (some src)
  nonneg : 0 ≤ rid.blockAddr ∧ 0 ≤ rid.idx
  placed : Placement maps src.length rid after

theorem heapOf_eq_none {idx : Nat} (absent : idx ∉ (items addr).map Prod.fst) :
    heapOf items ⟨addr, idx⟩ = none := by
  unfold heapOf
  rw [if_pos (Int.natCast_nonneg idx), Int.toNat_natCast, List.lookup_eq_none_iff]
  intro item member
  refine bne_iff_ne.mpr fun equal => absent ?_
  exact List.mem_map.mpr ⟨item, member, equal.symm⟩

/-- `table_insert` stores the item under a RID that was not live, in the best fitting block. -/
theorem idle_tableInsert {post : RID → TableMaps → Prop} (holds : TableHolds maps items)
    (nonempty : src ≠ []) (small : src.length ≤ 118)
    (ended : ∀ rid after items', Inserted maps items src rid after items' → post rid after) :
    (tableInsert src).wp pinnedTableLogic (Settles post) (idle maps) := by
  obtain ⟨data, fsm⟩ := maps
  obtain ⟨pairs, fsmHolds, indexed⟩ := holds.indexed
  have listed : ∀ (size : Nat) (addr : Int),
      (size, addr) ∈ pairs ↔ data.InFile addr ∧ (size : Int) = freeSpace (data.page addr) := indexed
  have range : FsmOp.InRange nDirectoryBlocks (src.length + itemIdSize) := by
    constructor <;> simp only [dirBlockSize, nDirectoryBlocks, itemIdSize, Block.itemIdSize] <;> omega
  unfold tableInsert pinnedTableLogic idle
  simp only [onFsm, wp_bind, wp_onRight]
  refine wp_mono ?_ (wp_fsmPopLowerBound fsmHolds range)
  rintro addr fsm' ⟨rest, restHolds, taken⟩
  rcases taken with ⟨rfl, rfl, none⟩ | ⟨found, member, fits, rfl, least⟩
  · -- nothing fits: a block is appended
    have outside : ¬ data.InFile data.length := fun inside => absurd inside.2.2 (lt_irrefl _)
    have nothing : ∀ addr, data.InFile addr →
        freeSpace (data.page addr) < src.length + itemIdSize := by
      intro addr inside
      have bounds := holds.bounds inside
      have below := none ((freeSpace (data.page addr)).toNat, addr)
        ((listed _ addr).mpr ⟨inside, by omega⟩)
      simp only [itemIdSize] at below ⊢
      omega
    rw [if_pos rfl]
    simp only [onData, wp_bind, wp_onLeft, wp_perform]
    have pinned : data.length ∈ data.length ::ₘ (0 : Multiset Int) := Multiset.mem_cons_self _ _
    refine rule_fileLength ?_
    refine rule_getPage_append holds.aligned holds.nonneg le_rfl (fun _ => by decide) (fun _ => le_rfl) ?_
    refine rule_load (fun _ => pinned) (rule_store (fun _ => pinned) (rule_fileLength ?_))
    simp only [PageMap.store_length, PageMap.append_length, add_sub_cancel_right,
      PageMap.append_page_self]
    have blankHolds : BlockHolds (((data.append data.length).store data.length
        (emptyPage : Block).initBlock).page data.length) [] := by
      rw [PageMap.store_page_self]
      exact blockHolds_initBlock _
    refine idle_insertInto blankHolds restHolds ?_ nonempty ?_ ?_
    · intro other member
      exact outside ((listed other _).mp member).1
    · rw [PageMap.store_page_self, freeSpace_initBlock]
      simp only [itemIdSize, Block.itemIdSize]
      omega
    · intro idx filled fsm'' _ filledHolds fsmHolds'
      have extended : Extended data filled (((data.append data.length).store data.length
          (emptyPage : Block).initBlock).store data.length filled) := by
        refine ⟨rfl, PageMap.store_page_self _ _ _, fun other different => ?_⟩
        rw [PageMap.store_page_of_ne _ _ different, PageMap.store_page_of_ne _ _ different,
          PageMap.append_page_of_ne _ different]
      have blank := holds.outside _ outside
      have indexed := Indexed.extend ⟨fsmHolds, listed⟩ holds.nonneg holds.aligned extended filledHolds
        fsmHolds'
      refine ended _ _ (Function.update items data.length ((idx, src) :: items data.length)) ⟨?_, ?_,
        heapOf_insert, ⟨holds.nonneg, Int.natCast_nonneg idx⟩, ?_⟩
      · rw [blank]
        exact holds.extend extended filledHolds indexed
      · refine heapOf_eq_none ?_
        rw [blank]
        exact List.not_mem_nil
      · exact ⟨iff_of_true rfl nothing, fun _ => rfl, fun different => absurd rfl different⟩
  · -- the block of least free space that fits
    obtain ⟨inside, foundFree⟩ := (listed found addr).mp member
    have notNull : addr ≠ -1 := by
      have nonneg := inside.2.1
      omega
    have bounds := holds.bounds inside
    have enough : (src.length : Int) + itemIdSize ≤ freeSpace (data.page addr) := by
      simp only [itemIdSize] at fits ⊢
      omega
    rw [if_neg notNull]
    simp only [onData, wp_bind, wp_onLeft, wp_perform]
    refine rule_getPage inside (fun _ => by decide) ?_
    refine idle_insertInto (holds.blocks addr inside) restHolds ?_ nonempty enough ?_
    · intro other erased
      obtain ⟨different, otherMember⟩ := Finset.mem_erase.mp erased
      have otherFree := ((listed other addr).mp otherMember).2
      exact different (by rw [Prod.mk.injEq]; omega)
    · intro idx filled fsm'' absent filledHolds fsmHolds'
      have foundNat : found = (freeSpace (data.page addr)).toNat := by omega
      rw [foundNat] at fsmHolds'
      have indexed := Indexed.rewrite ⟨fsmHolds, listed⟩ inside filledHolds fsmHolds'
      refine ended _ _ (Function.update items addr ((idx, src) :: items addr)) ⟨?_,
        heapOf_eq_none absent, heapOf_insert, ⟨inside.2.1, Int.natCast_nonneg idx⟩, ?_⟩
      · exact holds.rewrite inside filledHolds indexed
      · have unchanged : (data.store addr filled).length = data.length := rfl
        have noGrowth : (data.store addr filled).length ≠ data.length + pageSize := by
          simp only [unchanged, pageSize]
          omega
        refine ⟨iff_of_false noGrowth fun nothing => ?_, fun grown => absurd grown noGrowth,
          fun _ => ⟨rfl, inside, enough, ?_⟩⟩
        · exact absurd (nothing addr inside) (not_lt.mpr enough)
        · intro other otherInside otherFits
          have otherBounds := holds.bounds otherInside
          have smallest := least ((freeSpace (data.page other)).toNat, other)
            ((listed _ other).mpr ⟨otherInside, by omega⟩) (by
              simp only [itemIdSize] at otherFits ⊢
              omega)
          dsimp only at smallest ⊢
          omega

theorem wp_tableInsert {post : RID → TableMaps → Prop} (holds : TableHolds maps items)
    (nonempty : src ≠ []) (small : src.length ≤ 118)
    (ended : ∀ rid after items', Inserted maps items src rid after items' → post rid after) :
    (tableInsert src).wp tableLogic post maps := wp_of_idle (idle_tableInsert holds nonempty small ended)

end Insertion

/-! ### Deletion -/

/-- `table_delete` of a live RID frees that RID and no other. -/
theorem idle_tableDelete {post : Unit → TableMaps → Prop} (holds : TableHolds maps items)
    (live : heapOf items rid = some content)
    (ended : ∀ after items', TableHolds after items' →
      heapOf items' = Function.update (heapOf items) rid none → post () after) :
    (tableDelete rid).wp pinnedTableLogic (Settles post) (idle maps) := by
  obtain ⟨data, fsm⟩ := maps
  obtain ⟨addr, index⟩ := rid
  obtain ⟨inside, nonneg, member⟩ := holds.live live
  obtain ⟨idx, rfl⟩ := Int.eq_ofNat_of_zero_le nonneg
  obtain ⟨before, later, place⟩ := List.append_of_mem member
  rw [Int.toNat_natCast] at place
  obtain ⟨pairs, fsmHolds, indexed⟩ := holds.indexed
  have blockHolds : BlockHolds (data.page addr) (items addr) := holds.blocks addr inside
  have bounds := holds.bounds inside
  have listed : ((freeSpace (data.page addr)).toNat, addr) ∈ pairs := by
    refine (indexed _ addr).mpr ⟨inside, ?_⟩
    exact Int.toNat_of_nonneg bounds.1
  have distinct := blockHolds.distinct
  obtain ⟨final, deleted, finalHolds⟩ := deleteItem_spec (place ▸ blockHolds)
  have pinned : addr ∈ addr ::ₘ (0 : Multiset Int) := Multiset.mem_cons_self _ _
  unfold tableDelete pinnedTableLogic idle
  simp only [onData, onFsm, wp_bind, wp_onLeft, wp_onRight, wp_perform]
  refine rule_getPage inside (fun _ => by decide) (rule_load (fun _ => pinned) ?_)
  rw [freeSize_eq blockHolds, deleted]
  simp only [wp_ofOption_some]
  refine wp_mono ?_ (wp_fsmPop fsmHolds (inRange_freeSpace blockHolds) listed)
  intro _ fsm' erasedHolds
  refine rule_store (fun _ => pinned) ?_
  rw [freeSize_eq finalHolds]
  simp only [wp_ofOption_some]
  have unlisted : ∀ other, (other, addr) ∉ pairs.erase ((freeSpace (data.page addr)).toNat, addr) := by
    intro other erased
    obtain ⟨different, otherMember⟩ := Finset.mem_erase.mp erased
    have otherFree : (other : Int) = freeSpace (data.page addr) := ((indexed other addr).mp otherMember).2
    exact different (by rw [Prod.mk.injEq]; omega)
  refine wp_mono ?_ (wp_fsmInsert erasedHolds (inRange_freeSpace finalHolds) unlisted)
  intro _ fsm'' insertedHolds
  refine rule_release (fun _ => pinned) ⟨released_only, ended _ (Function.update items addr (before ++ later)) ?_ ?_⟩
  · exact holds.rewrite inside finalHolds
      (Indexed.rewrite ⟨fsmHolds, indexed⟩ inside finalHolds insertedHolds)
  · exact heapOf_delete place distinct

theorem wp_tableDelete {post : Unit → TableMaps → Prop} (holds : TableHolds maps items)
    (live : heapOf items rid = some content)
    (ended : ∀ after items', TableHolds after items' →
      heapOf items' = Function.update (heapOf items) rid none → post () after) :
    (tableDelete rid).wp tableLogic post maps := wp_of_idle (idle_tableDelete holds live ended)

/-! ### A new table -/

/-- The two files of a table before `table_init`. -/
def noPages : TableMaps := (PageMap.empty, PageMap.empty)

theorem idle_tableInit {post : Unit → TableMaps → Prop}
    (ended : ∀ after, TableHolds after (fun _ => []) → post () after) :
    tableInit.wp pinnedTableLogic (Settles post) (idle noPages) := by
  unfold tableInit pinnedTableLogic idle
  simp only [onFsm, wp_onRight]
  refine wp_mono ?_ (wp_hashTableInit_map nDirectoryBlocks)
  rintro _ fsm ⟨-, fsmHolds⟩
  have nothing : ∀ addr, ¬ (PageMap.empty : PageMap Block).InFile addr :=
    fun addr inside => absurd inside.2.2 (not_lt.mpr inside.2.1)
  refine ⟨rfl, ended _ ⟨le_rfl, rfl, fun addr inside => absurd inside (nothing addr), fun _ _ => rfl, ∅,
    fsmHolds, fun size addr => ?_⟩⟩
  exact iff_of_false (Finset.notMem_empty _) fun both => nothing addr both.1

theorem wp_tableInit {post : Unit → TableMaps → Prop}
    (ended : ∀ after, TableHolds after (fun _ => []) → post () after) :
    tableInit.wp tableLogic post noPages := wp_of_idle (idle_tableInit ended)

/-- A table that is opened again is as it was. -/
theorem TableHolds.idle_tableInit {post : Unit → TableMaps → Prop} (holds : TableHolds maps items)
    (ended : post () maps) : tableInit.wp pinnedTableLogic (Settles post) (idle maps) := by
  obtain ⟨pairs, ⟨⟨chain, free, shape, -⟩, -⟩, -⟩ := holds.indexed
  have above := shape.maxAbove.trans shape.maxBelow
  have proper : maps.2.length ≠ 0 := by
    simp only [nDirectoryBlocks, pageSize] at above
    omega
  unfold tableInit pinnedTableLogic hashTableInit idle
  simp only [onFsm, wp_onRight]
  rw [wp_bind]
  refine mapRule_fileLength ?_
  rw [wp_ret, if_pos proper]
  exact ⟨rfl, ended⟩

theorem TableHolds.wp_tableInit {post : Unit → TableMaps → Prop} (holds : TableHolds maps items)
    (ended : post () maps) : tableInit.wp tableLogic post maps := wp_of_idle (holds.idle_tableInit ended)

theorem heapOf_nil : heapOf (fun _ => []) = fun _ => none := by
  funext rid
  unfold heapOf
  split <;> rfl

end Operations

end MyJQL.Storage.Table
