import MyJQL.Storage.BlockSpec

/-!
# Runs on one block

A block from `init_block` under `new_item` and `delete_item`. The items beside the block
are those that were stored and not deleted, each with the index `new_item` returned.
-/

namespace MyJQL.Storage.Block

/-- The index has an ItemID, and it is not available. -/
def InUse (block : Block) (idx : Int) : Prop :=
  0 ≤ idx ∧ idx < block.nItems ∧ ∃ itemId, block.getItemId idx = some itemId ∧ itemIdAvailability itemId = 0

/-- Runs whose `delete_item` calls, on indices in use, satisfy `allowed`. -/
inductive Runs (allowed : Block → Int → Prop) : Block → List Item → Prop where
  | init (block : Block) : Runs allowed block.initBlock []
  | new {block after : Block} {items : List Item} {item : List Cell} {idx : Int}
      (before : Runs allowed block items) (size : 1 ≤ item.length)
      (room : (item.length : Int) ≤ block.tailPtr - block.headPtr - itemIdSize)
      (ran : block.newItem item = some (idx, after)) : Runs allowed after ((idx.toNat, item) :: items)
  | delete {block after : Block} {items : List Item} {idx : Int} (before : Runs allowed block items)
      (inUse : block.InUse idx) (permitted : allowed block idx) (ran : block.deleteItem idx = some after) :
      Runs allowed after (items.filter fun stored => stored.1 ≠ idx.toNat)

section Runs

variable {allowed : Block → Int → Prop} {block after final : Block} {items : List Item} {idx : Int}
  {item : List Cell}

theorem BlockHolds.inUse_iff (holds : BlockHolds block items) :
    block.InUse idx ↔ 0 ≤ idx ∧ idx.toNat ∈ items.map Prod.fst := by
  constructor
  · rintro ⟨nonneg, below, itemId, read, used⟩
    refine ⟨nonneg, ?_⟩
    by_contra absent
    have same : ((idx.toNat : Nat) : Int) = idx := Int.toNat_of_nonneg nonneg
    obtain ⟨other, readOther, available⟩ := holds.unused idx.toNat (same ▸ below) absent
    rw [same, read] at readOther
    cases readOther
    rw [used] at available
    cases available
  · rintro ⟨nonneg, member⟩
    have same : ((idx.toNat : Nat) : Int) = idx := Int.toNat_of_nonneg nonneg
    have below := holds.below _ member
    obtain ⟨before, content, later, rfl⟩ := exists_split_of_mem member
    obtain ⟨itemId, read, available, -⟩ := holds.itemId
    rw [same] at below read
    exact ⟨nonneg, below, itemId, read, available⟩

/-- The items without one index, where indices are distinct. -/
theorem filter_split {before later : List Item} {index : Nat} {content : List Cell}
    (distinct : ((before ++ (index, content) :: later).map Prod.fst).Nodup) :
    (before ++ (index, content) :: later).filter (fun stored => stored.1 ≠ index) = before ++ later := by
  rw [List.map_append, List.map_cons, List.nodup_middle, List.nodup_cons, ← List.map_append] at distinct
  rw [List.filter_append, List.filter_cons_of_neg (by simp), ← List.filter_append]
  refine List.filter_eq_self.mpr fun stored member => ?_
  have absent : stored.1 ≠ index := by
    intro same
    apply distinct.1
    rw [← same]
    exact List.mem_map.mpr ⟨stored, member, rfl⟩
  exact decide_eq_true absent

theorem delete_holds (holds : BlockHolds block items) (inUse : block.InUse idx)
    (ran : block.deleteItem idx = some after) :
    BlockHolds after (items.filter fun stored => stored.1 ≠ idx.toNat) := by
  obtain ⟨nonneg, member⟩ := holds.inUse_iff.mp inUse
  have same : ((idx.toNat : Nat) : Int) = idx := Int.toNat_of_nonneg nonneg
  obtain ⟨before, content, later, rfl⟩ := exists_split_of_mem member
  obtain ⟨final, deleted, finalHolds⟩ := deleteItem_spec holds
  rw [same, ran] at deleted
  cases deleted
  rw [filter_split holds.distinct]
  exact finalHolds

/-- Every run keeps the items in the block. -/
theorem Runs.holds (run : Runs allowed block items) : BlockHolds block items := by
  induction run with
  | init block => exact blockHolds_initBlock block
  | new before size room ran ih =>
      obtain ⟨index, final, computed, -, finalHolds⟩ := newItem_spec ih (List.length_pos_iff.mp size) (by omega)
      rw [computed] at ran
      cases ran
      exact finalHolds
  | delete before inUse permitted ran ih => exact delete_holds ih inUse ran

/-! ## The layout of a block -/

/-- The byte at `place` belongs to the item of an index in use. -/
def Occupies (block : Block) (idx : Int) (place : Nat) : Prop :=
  block.InUse idx ∧ ∃ itemId, block.getItemId idx = some itemId ∧ itemIdOffset itemId ≤ place ∧
    place < itemIdOffset itemId + itemIdSizeOf itemId

/-- The invariant of a slotted page that stores these items. -/
structure Slotted (block : Block) (items : List Item) : Prop where
  head : block.headPtr = dataOffset + itemIdSize * block.nItems
  room : block.headPtr ≤ block.tailPtr
  inUse : ∀ idx, block.InUse idx ↔ ∃ stored ∈ items, (stored.1 : Int) = idx
  fill : ∀ place : Nat, (block.tailPtr ≤ place ∧ place < blockBytes) ↔ ∃! idx, block.Occupies idx place
  apart : ∀ idx other place, block.Occupies idx place → block.Occupies other place → idx = other
  tail : block.tailPtr = blockBytes - ((items.map fun stored => stored.2.length).sum : Nat)
  content : ∀ stored ∈ items, ∃ offset, block.getItem stored.1 = some (some offset) ∧
    block.readCells offset stored.2.length = some stored.2

theorem length_itemCells : (itemCells items).length = (items.map fun stored => stored.2.length).sum := by
  rw [itemCells, List.length_flatMap]

/-- The item that a byte belongs to. -/
theorem exists_item_at {place : Nat} (inside : place < (itemCells items).length) :
    ∃ before index content later, items = before ++ (index, content) :: later ∧
      (itemCells before).length ≤ place ∧ place < (itemCells before).length + content.length := by
  induction items generalizing place with
  | nil => exact absurd inside (Nat.not_lt_zero _)
  | cons stored items ih =>
      rw [itemCells_cons, List.length_append] at inside
      by_cases here : place < stored.2.length
      · exact ⟨[], stored.1, stored.2, items, rfl, Nat.zero_le _, by simpa [itemCells] using here⟩
      · obtain ⟨before, index, content, later, rfl, low, high⟩ := @ih (place - stored.2.length) (by omega)
        refine ⟨stored :: before, index, content, later, rfl, ?_, ?_⟩
        · rw [itemCells_cons, List.length_append]
          omega
        · rw [itemCells_cons, List.length_append]
          omega

/-- Two items that share a byte are one. -/
theorem item_at_unique {before before' later later' : List Item} {index index' : Nat} {content content' : List Cell}
    {place : Nat} (same : before ++ (index, content) :: later = before' ++ (index', content') :: later')
    (low : (itemCells before).length ≤ place) (high : place < (itemCells before).length + content.length)
    (low' : (itemCells before').length ≤ place) (high' : place < (itemCells before').length + content'.length) :
    index = index' := by
  induction before generalizing before' place with
  | nil =>
      cases before' with
      | nil =>
          cases same
          rfl
      | cons stored before' =>
          cases same
          simp only [itemCells_cons, List.length_append] at low' high'
          simp only [itemCells, List.flatMap_nil, List.length_nil] at high
          omega
  | cons stored before ih =>
      cases before' with
      | nil =>
          cases same
          simp only [itemCells_cons, List.length_append] at low high
          simp only [itemCells, List.flatMap_nil, List.length_nil] at high'
          omega
      | cons stored' before' =>
          obtain ⟨rfl, rest⟩ := List.cons.inj same
          rw [itemCells_cons, List.length_append] at low high low' high'
          exact @ih before' (place - stored.2.length) rest (by omega) (by omega) (by omega) (by omega)

theorem BlockHolds.occupies_iff (holds : BlockHolds block items) {place : Nat} :
    block.Occupies idx place ↔ ∃ (before : List Item) (index : Nat) (content : List Cell) (later : List Item),
      items = before ++ (index, content) :: later ∧
      (index : Int) = idx ∧ block.tailPtr.toNat + (itemCells before).length ≤ place ∧
      place < block.tailPtr.toNat + (itemCells before).length + content.length := by
  constructor
  · rintro ⟨inUse, itemId, read, low, high⟩
    obtain ⟨nonneg, member⟩ := holds.inUse_iff.mp inUse
    have same : ((idx.toNat : Nat) : Int) = idx := Int.toNat_of_nonneg nonneg
    obtain ⟨before, content, later, rfl⟩ := exists_split_of_mem member
    obtain ⟨other, readOther, -, offset, size⟩ := holds.itemId
    rw [same, read] at readOther
    cases readOther
    rw [offset] at low high
    rw [size] at high
    exact ⟨before, idx.toNat, content, later, rfl, same, low, high⟩
  · rintro ⟨before, index, content, later, rfl, rfl, low, high⟩
    obtain ⟨itemId, read, -, offset, size⟩ := holds.itemId
    refine ⟨holds.inUse_iff.mpr ⟨Int.natCast_nonneg _, by simp⟩, itemId, read, ?_, ?_⟩
    · rw [offset]
      exact low
    · rw [offset, size]
      exact high

theorem BlockHolds.slotted (holds : BlockHolds block items) : Slotted block items := by
  obtain ⟨-, total, exactTail⟩ := holds.tail_bounds
  have apart : ∀ idx other place, block.Occupies idx place → block.Occupies other place → idx = other := by
    intro idx other place first second
    obtain ⟨before, index, content, later, split, rfl, low, high⟩ := holds.occupies_iff.mp first
    obtain ⟨before', index', content', later', split', rfl, low', high'⟩ := holds.occupies_iff.mp second
    have same := @item_at_unique before before' later later' index index' content content'
      (place - block.tailPtr.toNat) (split.symm.trans split') (by omega) (by omega) (by omega) (by omega)
    rw [same]
  refine ⟨holds.head, holds.room, ?_, ?_, apart, ?_, ?_⟩
  · intro idx
    rw [holds.inUse_iff]
    constructor
    · rintro ⟨nonneg, member⟩
      obtain ⟨stored, here, same⟩ := List.mem_map.mp member
      exact ⟨stored, here, by omega⟩
    · rintro ⟨stored, here, rfl⟩
      exact ⟨Int.natCast_nonneg _, List.mem_map.mpr ⟨stored, here, rfl⟩⟩
  · intro place
    constructor
    · rintro ⟨low, high⟩
      obtain ⟨before, index, content, later, split, start, stop⟩ :=
        @exists_item_at items (place - block.tailPtr.toNat) (by omega)
      have here : block.Occupies index place :=
        holds.occupies_iff.mpr ⟨before, index, content, later, split, rfl, by omega, by omega⟩
      exact ⟨index, here, fun other there => apart other index place there here⟩
    · rintro ⟨idx, here, -⟩
      obtain ⟨before, index, content, later, rfl, rfl, low, high⟩ := holds.occupies_iff.mp here
      simp only [itemCells_append, itemCells_cons, List.length_append] at total
      omega
  · have tail := holds.tail
    rw [length_itemCells] at tail
    omega
  · rintro ⟨index, content⟩ member
    obtain ⟨-, -, -, offset, got, read⟩ := holds.getItem member
    exact ⟨offset, got, read⟩

/--
The slotted-page invariant. In every run on a block the header fields are exact, the items in
use fill the bytes from `tail_ptr` on without overlap, and `get_item` finds each of them as it
was stored; the next call returns, and a new item gets an index that is not in use.
-/
theorem block_is_slotted (run : Runs (fun _ _ => True) block items) : Slotted block items ∧
    (∀ item : List Cell, 1 ≤ item.length → (item.length : Int) ≤ block.tailPtr - block.headPtr - itemIdSize →
      ∃ idx after, block.newItem item = some (idx, after) ∧ 0 ≤ idx ∧ ¬ block.InUse idx) ∧
    ∀ idx, block.InUse idx → ∃ after, block.deleteItem idx = some after := by
  have holds := run.holds
  refine ⟨holds.slotted, ?_, ?_⟩
  · intro item size room
    obtain ⟨index, after, computed, absent, -⟩ := newItem_spec holds (List.length_pos_iff.mp size) (by omega)
    refine ⟨index, after, computed, Int.natCast_nonneg _, fun inUse => ?_⟩
    exact absent (holds.inUse_iff.mp inUse).2
  · intro idx inUse
    obtain ⟨nonneg, member⟩ := holds.inUse_iff.mp inUse
    have same : ((idx.toNat : Nat) : Int) = idx := Int.toNat_of_nonneg nonneg
    obtain ⟨before, content, later, rfl⟩ := exists_split_of_mem member
    obtain ⟨after, deleted, -⟩ := deleteItem_spec holds
    rw [same] at deleted
    exact ⟨after, deleted⟩

/-- Two items of different sizes. -/
theorem two_items_stored : ∃ block : Block, Runs allowed block [(1, [.byte 2, .byte 3]), (0, [.byte 1])] ∧
    block.nItems = 2 ∧ block.tailPtr = 125 ∧ (∃ moved, block.deleteItem 0 = some moved ∧ moved.tailPtr = 126) ∧
      ∃ third last, block.deleteItem 1 = some third ∧ third.deleteItem 0 = some last ∧ third.nItems = 1 := by
  obtain ⟨first, second, new, new', head, tail, count, places, moved, reclaimed⟩ : ∃ first second : Block,
      (initBlock PageType.emptyPage).newItem [.byte 1] = some (0, first) ∧
        first.newItem [.byte 2, .byte 3] = some (1, second) ∧ first.headPtr = 10 ∧ first.tailPtr = 127 ∧
          second.nItems = 2 ∧ second.tailPtr = 125 ∧ (∃ moved, second.deleteItem 0 = some moved ∧ moved.tailPtr = 126) ∧
            ∃ third last, second.deleteItem 1 = some third ∧ third.deleteItem 0 = some last ∧ third.nItems = 1 :=
    ⟨_, _, rfl, rfl, rfl, rfl, rfl, rfl, ⟨_, rfl, rfl⟩, _, _, rfl, rfl, rfl⟩
  have run := (@Runs.init allowed PageType.emptyPage).new (by decide) (by decide) new
  exact ⟨second, run.new (by decide) (by rw [head, tail]; decide) new', count, places, moved, reclaimed⟩

/-- The first of two items is deleted, and the second is moved over its bytes. -/
theorem block_is_slotted_moved : ∃ block : Block, Runs (fun _ _ => True) block [(1, [.byte 2, .byte 3])] ∧
    block.tailPtr = 126 ∧ Slotted block [(1, [.byte 2, .byte 3])] := by
  obtain ⟨block, run, -, -, ⟨moved, deleted, tail⟩, -⟩ := @two_items_stored fun _ _ => True
  have inUse : block.InUse 0 := run.holds.inUse_iff.mpr ⟨by decide, by decide⟩
  have left : Runs (fun _ _ => True) moved [(1, [.byte 2, .byte 3])] := run.delete inUse trivial deleted
  exact ⟨moved, left, tail, (block_is_slotted left).1⟩

/-! ## Giving ItemIDs back -/

/-- The last ItemID is in use. -/
def LastInUse (block : Block) : Prop := 0 < block.nItems → block.InUse (block.nItems - 1)

/-- With the last index the one before it is not to be given back too. -/
def NextInUse (block : Block) (idx : Int) : Prop :=
  idx = block.nItems - 1 → 2 ≤ block.nItems → block.InUse (block.nItems - 2)

theorem trimLast_nItems (holds : BlockHolds block items) (positive : 0 < block.nItems)
    (trimmed : block.trimLast = some after) :
    (block.InUse (block.nItems - 1) ∧ after.nItems = block.nItems) ∨
      (¬ block.InUse (block.nItems - 1) ∧ after.nItems = block.nItems - 1) := by
  have last : block.nItems - 1 = ((block.nItems.toNat - 1 : Nat) : Int) := by omega
  have small : ((block.nItems.toNat - 1 : Nat) : Int) < block.nItems := by omega
  obtain ⟨itemId, read, available⟩ := holds.availability small
  rw [← last] at read
  unfold trimLast at trimmed
  rw [read] at trimmed
  simp only [Option.bind_eq_bind, Option.bind_some] at trimmed
  by_cases free : itemIdAvailability itemId = 0
  · rw [if_neg (not_not.mpr free)] at trimmed
    cases trimmed
    exact .inl ⟨⟨by omega, by omega, itemId, read, free⟩, rfl⟩
  · rw [if_pos free] at trimmed
    cases trimmed
    refine .inr ⟨?_, rfl⟩
    rintro ⟨-, -, other, readOther, used⟩
    rw [read] at readOther
    cases readOther
    exact free used

/-- What `delete_item` leaves in use, and how many ItemIDs. -/
theorem delete_lastInUse_iff (holds : BlockHolds block items) (last : LastInUse block) (inUse : block.InUse idx)
    (ran : block.deleteItem idx = some after) : LastInUse after ↔ NextInUse block idx := by
  obtain ⟨nonneg, member⟩ := holds.inUse_iff.mp inUse
  have same : ((idx.toNat : Nat) : Int) = idx := Int.toNat_of_nonneg nonneg
  have distinct := holds.distinct
  obtain ⟨before, content, later, rfl⟩ := exists_split_of_mem member
  obtain ⟨middle, deleted, removed⟩ := exists_removed holds
  rw [same, ran] at deleted
  have middleHolds := removed.holds holds
  have below := inUse.2.1
  have counted : middle.nItems = block.nItems := removed.nItems
  have afterHolds := delete_holds holds inUse ran
  rw [filter_split distinct] at afterHolds
  -- the indices in use are those before, but one
  have others : ∀ other, (∃ stored ∈ before ++ later, (stored.1 : Int) = other) ↔ block.InUse other ∧ other ≠ idx := by
    intro other
    rw [(holds.slotted).inUse, ← same]
    rw [List.map_append, List.map_cons, List.nodup_middle, List.nodup_cons, ← List.map_append] at distinct
    constructor
    · rintro ⟨stored, here, rfl⟩
      refine ⟨⟨stored, by rcases List.mem_append.mp here with old | old <;> simp [old], rfl⟩, ?_⟩
      intro equal
      apply distinct.1
      rw [← Int.natCast_inj.mp equal]
      exact List.mem_map.mpr ⟨stored, here, rfl⟩
    · rintro ⟨⟨stored, here, rfl⟩, different⟩
      refine ⟨stored, ?_, rfl⟩
      rw [List.mem_append, List.mem_cons] at here
      rcases here with old | rfl | old
      · exact List.mem_append_left _ old
      · exact absurd rfl different
      · exact List.mem_append_right _ old
  have inMiddle : ∀ other, middle.InUse other ↔ block.InUse other ∧ other ≠ idx := fun other =>
    (middleHolds.slotted.inUse other).trans (others other)
  have inAfter : ∀ other, after.InUse other ↔ block.InUse other ∧ other ≠ idx := fun other =>
    (afterHolds.slotted.inUse other).trans (others other)
  have trimmed := trimLast_nItems middleHolds (by omega) deleted.symm
  rw [inMiddle, counted] at trimmed
  unfold LastInUse NextInUse
  rw [inAfter]
  rcases trimmed with ⟨⟨used, different⟩, kept⟩ | ⟨unused, less⟩
  · rw [kept]
    exact iff_of_true (fun _ => ⟨used, different⟩) (fun equal => absurd equal.symm different)
  · have isLast : idx = block.nItems - 1 := by
      by_contra different
      exact unused ⟨last (by omega), fun equal => different equal.symm⟩
    have less' : after.nItems - 1 = block.nItems - 2 := by omega
    rw [less']
    constructor
    · exact fun holds _ more => (holds (by omega)).1
    · exact fun holds more => ⟨holds isLast (by omega), by omega⟩

theorem nItems_writeCells {offset : Int} {cells : List Cell} (written : block.writeCells offset cells = some after) :
    after.nItems = block.nItems := by
  unfold writeCells at written
  split at written
  · cases written
    rfl
  · cases written

theorem nItems_placeItem (placed : block.placeItem idx item = some after) : after.nItems = block.nItems := by
  unfold placeItem setItemId at placed
  obtain ⟨named, naming, rest⟩ := Option.bind_eq_some_iff.mp placed
  obtain ⟨written, writing, last⟩ := Option.bind_eq_some_iff.mp rest
  cases last
  exact (nItems_writeCells writing).trans (nItems_writeCells naming)

/-- `new_item` reuses an ItemID, or adds one and uses it. -/
theorem nItems_newItem (ran : block.newItem item = some (idx, after)) :
    after.nItems = block.nItems ∨ (after.nItems = block.nItems + 1 ∧ idx = block.nItems) := by
  unfold newItem at ran
  obtain ⟨found, -, rest⟩ := Option.bind_eq_some_iff.mp ran
  cases found with
  | some index =>
      obtain ⟨placed, placing, last⟩ := Option.bind_eq_some_iff.mp rest
      cases last
      exact .inl (nItems_placeItem placing)
  | none =>
      obtain ⟨placed, placing, last⟩ := Option.bind_eq_some_iff.mp rest
      cases last
      exact .inr ⟨rfl, rfl⟩

theorem new_lastInUse (holds : BlockHolds block items) (last : LastInUse block) (size : 1 ≤ item.length)
    (room : (item.length : Int) ≤ block.tailPtr - block.headPtr - itemIdSize)
    (ran : block.newItem item = some (idx, after)) : LastInUse after := by
  have counted := nItems_newItem ran
  obtain ⟨index, final, computed, absent, finalHolds⟩ := newItem_spec holds (List.length_pos_iff.mp size) (by omega)
  rw [computed] at ran
  cases ran
  have inAfter : ∀ other, block.InUse other ∨ other = index → after.InUse other := by
    intro other used
    rw [(finalHolds.slotted).inUse]
    rcases used with old | rfl
    · obtain ⟨stored, here, same⟩ := (holds.slotted.inUse other).mp old
      exact ⟨stored, List.mem_cons_of_mem _ here, same⟩
    · exact ⟨_, List.mem_cons_self, rfl⟩
  intro positive
  rcases counted with same | ⟨more, isLast⟩
  · rw [same] at positive ⊢
    exact inAfter _ (.inl (last positive))
  · refine inAfter _ (.inr ?_)
    omega

theorem Runs.lastInUse (run : Runs NextInUse block items) : LastInUse block := by
  induction run with
  | init block => exact fun positive => absurd positive (lt_irrefl _)
  | new before size room ran ih => exact new_lastInUse before.holds ih size room ran
  | delete before inUse permitted ran ih => exact (delete_lastInUse_iff before.holds ih inUse ran).mpr permitted

/--
Deleting reclaims the block as long as no `delete_item` of the last index leaves an ItemID
behind that is not in use: then the last ItemID is in use in every state, and a block
without items is as large as a new one. A call keeps this exactly if it meets the condition.
-/
theorem block_is_reclaimed (run : Runs NextInUse block items) :
    LastInUse block ∧ ((∀ idx, ¬ block.InUse idx) → block.nItems = 0 ∧
      block.tailPtr - block.headPtr = blockBytes - dataOffset) ∧
    ∀ idx after, block.InUse idx → block.deleteItem idx = some after →
      (LastInUse after ↔ NextInUse block idx) := by
  have holds := run.holds
  have last := run.lastInUse
  refine ⟨last, ?_, fun idx after inUse ran => delete_lastInUse_iff holds last inUse ran⟩
  intro unused
  have empty : block.nItems = 0 := by
    by_contra more
    have nonneg := holds.nonneg
    exact unused _ (last (by omega))
  have noItems : items = [] := by
    cases items with
    | nil => rfl
    | cons stored items => exact absurd ((holds.slotted.inUse _).mpr ⟨stored, List.mem_cons_self, rfl⟩) (unused _)
  refine ⟨empty, ?_⟩
  have head := holds.head
  have tail := holds.tail
  rw [noItems] at tail
  rw [empty] at head
  simp only [itemCells, List.flatMap_nil, List.length_nil, dataOffset, blockBytes] at *
  omega

/-- Two items are stored, and deleted in the order opposite to that of their indices. -/
theorem block_is_reclaimed_backwards : ∃ block : Block, Runs NextInUse block [] ∧ block.nItems = 0 ∧
    block.tailPtr - block.headPtr = blockBytes - dataOffset := by
  obtain ⟨block, run, count, -, -, third, last, deleted, deleted', count'⟩ := @two_items_stored NextInUse
  have inUse : ∀ idx : Int, idx = 0 ∨ idx = 1 → block.InUse idx := by
    rintro idx (rfl | rfl)
    · exact run.holds.inUse_iff.mpr ⟨by decide, by decide⟩
    · exact run.holds.inUse_iff.mpr ⟨by decide, by decide⟩
  have one : Runs NextInUse third [(0, [.byte 1])] :=
    run.delete (inUse 1 (.inr rfl)) (fun _ _ => by rw [count]; exact inUse 0 (.inl rfl)) deleted
  have inUse' : third.InUse 0 := one.holds.inUse_iff.mpr ⟨by decide, by decide⟩
  have none : Runs NextInUse last [] :=
    one.delete inUse' (fun _ many => absurd (count' ▸ many) (by decide)) deleted'
  refine ⟨last, none, (block_is_reclaimed none).2.1 fun idx used => ?_⟩
  exact List.not_mem_nil (none.holds.inUse_iff.mp used).2

/-- Two items are stored, and deleted in the order of their indices. -/
theorem run_of_two_items : ∃ first second third last : Block,
    (initBlock PageType.emptyPage).newItem [.byte 1] = some (0, first) ∧
    first.newItem [.byte 2] = some (1, second) ∧ second.deleteItem 0 = some third ∧
    third.deleteItem 1 = some last ∧ (first.headPtr = 10 ∧ first.tailPtr = 127) ∧ last.nItems = 1 :=
  ⟨_, _, _, _, rfl, rfl, rfl, rfl, ⟨rfl, rfl⟩, rfl⟩

/-- One ItemID is left, and it is not in use. -/
theorem deleted_block_keeps_itemId : ∃ block : Block, Runs (fun _ _ => True) block [] ∧
    block.nItems = 1 ∧ ¬ LastInUse block := by
  obtain ⟨first, second, third, last, new, new', deleted, deleted', ⟨head, tail⟩, count⟩ := run_of_two_items
  have run₁ := (@Runs.init (fun _ _ => True) PageType.emptyPage).new (by decide) (by decide) new
  have run₂ := run₁.new (by decide) (by rw [head, tail]; decide) new'
  have inUse : second.InUse 0 := run₂.holds.inUse_iff.mpr ⟨by decide, by decide⟩
  have run₃ := run₂.delete inUse trivial deleted
  have inUse' : third.InUse 1 := run₃.holds.inUse_iff.mpr ⟨by decide, by decide⟩
  have run₄ : Runs (fun _ _ => True) last [] := run₃.delete inUse' trivial deleted'
  refine ⟨last, run₄, count, fun lastInUse => ?_⟩
  have used := lastInUse (by rw [count]; decide)
  exact List.not_mem_nil (run₄.holds.inUse_iff.mp used).2

end Runs

end MyJQL.Storage.Block
