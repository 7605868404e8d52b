import MyJQL.Storage.Block

/-!
# The items of a slotted page

`BlockHolds` says which items a block holds, in the order in which their bytes
lie from `tail_ptr` to the end of the page. A new item is put in front of that
list, and deleting an item takes it out of the list, wherever it stands.
-/

namespace MyJQL.Storage.Block

/-! ## ItemIDs -/

section ItemIds

variable {availability offset size : Nat}

theorem low15_coe {value : Nat} (small : value < 2 ^ 15) : low15 value = value := by
  unfold low15
  omega

theorem composeItemId_eq (flag : availability ≤ 1) (offsetSmall : offset < 2 ^ 15)
    (sizeSmall : size < 2 ^ 15) :
    composeItemId availability offset size = availability * 2 ^ 30 + (offset * 2 ^ 15 + size) := by
  have bit : availability &&& 1 = availability := by
    rw [Nat.and_one_is_mod]
    omega
  have inner : offset * 2 ^ 15 + size < 2 ^ 30 := by omega
  unfold composeItemId
  rw [bit, low15_coe offsetSmall, low15_coe sizeSmall, Nat.lor_assoc,
    ← Nat.shiftLeft_add_eq_or_of_lt sizeSmall, Nat.shiftLeft_eq offset,
    ← Nat.shiftLeft_add_eq_or_of_lt inner, Nat.shiftLeft_eq]

theorem composeItemId_lt (flag : availability ≤ 1) (offsetSmall : offset < 2 ^ 15)
    (sizeSmall : size < 2 ^ 15) : composeItemId availability offset size < 2 ^ 32 := by
  rw [composeItemId_eq flag offsetSmall sizeSmall]
  omega

theorem itemIdAvailability_compose (flag : availability ≤ 1) (offsetSmall : offset < 2 ^ 15)
    (sizeSmall : size < 2 ^ 15) :
    itemIdAvailability (composeItemId availability offset size) = availability := by
  rw [composeItemId_eq flag offsetSmall sizeSmall, itemIdAvailability, Nat.shiftRight_eq_div_pow,
    Nat.and_one_is_mod]
  omega

theorem itemIdOffset_compose (flag : availability ≤ 1) (offsetSmall : offset < 2 ^ 15)
    (sizeSmall : size < 2 ^ 15) :
    itemIdOffset (composeItemId availability offset size) = offset := by
  rw [composeItemId_eq flag offsetSmall sizeSmall, itemIdOffset, Nat.shiftRight_eq_div_pow,
    Nat.and_two_pow_sub_one_eq_mod]
  omega

theorem itemIdSizeOf_compose (flag : availability ≤ 1) (offsetSmall : offset < 2 ^ 15)
    (sizeSmall : size < 2 ^ 15) :
    itemIdSizeOf (composeItemId availability offset size) = size := by
  rw [composeItemId_eq flag offsetSmall sizeSmall, itemIdSizeOf, Nat.and_two_pow_sub_one_eq_mod]
  omega

theorem itemIdOfCells_itemIdCells {itemId : Nat} (small : itemId < 2 ^ 32) :
    itemIdOfCells (itemIdCells itemId) = some itemId := by
  have spelled : itemIdCells itemId = [.byte (UInt8.ofNat itemId), .byte (UInt8.ofNat (itemId / 256)),
      .byte (UInt8.ofNat (itemId / 65536)), .byte (UInt8.ofNat (itemId / 16777216))] := by
    simp [itemIdCells, List.range_succ]
  rw [spelled]
  simp only [itemIdOfCells, Option.map_some, Option.some.injEq, UInt8.toNat_ofNat']
  omega

end ItemIds

/-! ## Memory -/

/-- The block after `cells` were copied to `offset`. -/
structure Written (block : Block) (offset : Nat) (cells : List Cell) (after : Block) : Prop where
  nItems : after.nItems = block.nItems
  headPtr : after.headPtr = block.headPtr
  tailPtr : after.tailPtr = block.tailPtr
  inside : ∀ index value, cells[index]? = some value → after.cell (offset + index) = value
  outside : ∀ place, place < offset ∨ offset + cells.length ≤ place →
    after.cell place = block.cell place

section Memory

variable {block after : Block} {offset : Nat} {cells : List Cell} {idx other : Nat}

theorem exists_writeCells (block : Block) (low : dataOffset ≤ offset)
    (high : offset + cells.length ≤ blockBytes) :
    ∃ after, block.writeCells offset cells = some after ∧ Written block offset cells after := by
  unfold writeCells
  rw [if_pos (by omega)]
  refine ⟨_, rfl, rfl, rfl, rfl, ?_, ?_⟩
  · intro index value present
    have above : (offset : Int).toNat ≤ offset + index := by omega
    have distance : offset + index - (offset : Int).toNat = index := by omega
    simp only [if_pos above, distance, present, Option.getD_some]
  · intro place apart
    by_cases above : (offset : Int).toNat ≤ place
    · have past : cells[place - (offset : Int).toNat]? = none := by
        rw [List.getElem?_eq_none]
        omega
      simp only [if_pos above, past, Option.getD_none]
    · simp only [if_neg above]

theorem readCells_eq {count : Nat} (low : dataOffset ≤ offset) (high : offset + count ≤ blockBytes) :
    block.readCells offset count =
      some ((List.range count).map fun index => block.cell (offset + index)) := by
  unfold readCells
  rw [if_pos (by omega)]
  rfl

/-- The page has room for the ItemID of an index. -/
def IdFits (idx : Nat) : Prop := dataOffset + itemIdSize * idx + itemIdSize ≤ blockBytes

theorem getItemId_eq (fits : IdFits idx) : block.getItemId idx =
    itemIdOfCells ((List.range itemIdSize).map fun index =>
      block.cell (dataOffset + itemIdSize * idx + index)) := by
  have place : ((dataOffset : Int) + itemIdSize * (idx : Int)) =
      ((dataOffset + itemIdSize * idx : Nat) : Int) := by
    push_cast
    rfl
  unfold getItemId
  rw [place, readCells_eq (Nat.le_add_right _ _) fits]
  rfl

theorem getItemId_congr (fits : IdFits idx)
    (same : ∀ index < itemIdSize, after.cell (dataOffset + itemIdSize * idx + index) =
      block.cell (dataOffset + itemIdSize * idx + index)) :
    after.getItemId idx = block.getItemId idx := by
  rw [getItemId_eq fits, getItemId_eq fits]
  congr 1
  refine List.map_congr_left fun index member => ?_
  exact same index (List.mem_range.mp member)

/-- ItemIDs are read from the cells alone. -/
theorem getItemId_of_cell_eq (same : after.cell = block.cell) (idx : Int) :
    after.getItemId idx = block.getItemId idx := by
  unfold getItemId readCells
  rw [same]

theorem length_itemIdCells (itemId : Nat) : (itemIdCells itemId).length = itemIdSize := by
  unfold itemIdCells
  rw [List.length_map, List.length_range]

/-- An assigned ItemID reads back, and the others are as before. -/
structure IdWritten (block : Block) (idx itemId : Nat) (after : Block) : Prop where
  nItems : after.nItems = block.nItems
  headPtr : after.headPtr = block.headPtr
  tailPtr : after.tailPtr = block.tailPtr
  self : after.getItemId idx = some itemId
  others : ∀ other : Nat, IdFits other → other ≠ idx → after.getItemId other = block.getItemId other
  outside : ∀ place, dataOffset + itemIdSize * (idx + 1) ≤ place → after.cell place = block.cell place

theorem exists_setItemId (block : Block) {itemId : Nat} (fits : IdFits idx) (small : itemId < 2 ^ 32) :
    ∃ after, block.setItemId idx itemId = some after ∧ IdWritten block idx itemId after := by
  have place : ((dataOffset : Int) + itemIdSize * (idx : Int)) =
      ((dataOffset + itemIdSize * idx : Nat) : Int) := by
    push_cast
    rfl
  obtain ⟨after, wrote, written⟩ := exists_writeCells block
    (Nat.le_add_right dataOffset (itemIdSize * idx))
    (show dataOffset + itemIdSize * idx + (itemIdCells itemId).length ≤ blockBytes by
      rw [length_itemIdCells]
      exact fits)
  refine ⟨after, by rw [setItemId, place]; exact wrote, written.nItems, written.headPtr,
    written.tailPtr, ?_, ?_, ?_⟩
  · rw [getItemId_eq fits, ← itemIdOfCells_itemIdCells small]
    congr 1
    refine List.ext_getElem? fun index => ?_
    by_cases inside : index < itemIdSize
    · have present : (itemIdCells itemId)[index]? =
          some (.byte (UInt8.ofNat (itemId / 256 ^ index))) := by
        rw [itemIdCells, List.getElem?_map, List.getElem?_range inside, Option.map_some]
      rw [List.getElem?_map, List.getElem?_range inside, Option.map_some, present,
        written.inside index _ present]
    · rw [List.getElem?_eq_none, List.getElem?_eq_none]
      · rw [length_itemIdCells]
        omega
      · rw [List.length_map, List.length_range]
        omega
  · intro other otherFits different
    refine getItemId_congr otherFits fun index small => ?_
    refine written.outside _ ?_
    rw [length_itemIdCells]
    simp only [itemIdSize] at *
    omega
  · intro place above
    refine written.outside place ?_
    rw [length_itemIdCells]
    simp only [itemIdSize] at *
    omega

end Memory

/-! ## Contents -/

/-- An item: its index and its bytes. -/
abbrev Item : Type := Nat × List Cell

/-- The bytes of a list of items, one after the other. -/
def itemCells (items : List Item) : List Cell := items.flatMap Prod.snd

theorem itemCells_append (first second : List Item) :
    itemCells (first ++ second) = itemCells first ++ itemCells second := List.flatMap_append

theorem itemCells_cons (item : Item) (items : List Item) :
    itemCells (item :: items) = item.2 ++ itemCells items := List.flatMap_cons

/-- The block holds these items, in the order of their bytes from `tail_ptr` on. -/
structure BlockHolds (block : Block) (items : List Item) : Prop where
  nonneg : 0 ≤ block.nItems
  head : block.headPtr = dataOffset + itemIdSize * block.nItems
  tail : block.tailPtr + (itemCells items).length = blockBytes
  room : block.headPtr ≤ block.tailPtr
  distinct : (items.map Prod.fst).Nodup
  below : ∀ idx ∈ items.map Prod.fst, (idx : Int) < block.nItems
  nonempty : ∀ item ∈ items, item.2 ≠ []
  bytes : ∀ index value, (itemCells items)[index]? = some value →
    block.cell (block.tailPtr.toNat + index) = value
  used : ∀ (before : List Item) (idx : Nat) (content : List Cell) (later : List Item),
    items = before ++ (idx, content) :: later →
      block.getItemId idx = some (composeItemId 0
        ((block.tailPtr.toNat + (itemCells before).length : Nat) : Int) content.length)
  unused : ∀ idx : Nat, (idx : Int) < block.nItems → idx ∉ items.map Prod.fst →
    ∃ itemId, block.getItemId idx = some itemId ∧ itemIdAvailability itemId = 1

section Holds

variable {block after : Block} {items before later : List Item} {idx : Nat} {content item : List Cell}

theorem BlockHolds.idFits (holds : BlockHolds block items) (small : (idx : Int) < block.nItems) :
    IdFits idx := by
  have head := holds.head
  have tail := holds.tail
  have room := holds.room
  unfold IdFits
  simp only [dataOffset, itemIdSize, blockBytes] at *
  omega

theorem BlockHolds.tail_bounds (holds : BlockHolds block items) :
    dataOffset + itemIdSize * block.nItems.toNat ≤ block.tailPtr.toNat ∧
      block.tailPtr.toNat + (itemCells items).length = blockBytes ∧
      block.tailPtr = (block.tailPtr.toNat : Int) := by
  have nonneg := holds.nonneg
  have head := holds.head
  have tail := holds.tail
  have room := holds.room
  simp only [dataOffset, itemIdSize, blockBytes] at *
  omega

theorem exists_split_of_mem (member : idx ∈ items.map Prod.fst) :
    ∃ before content later, items = before ++ (idx, content) :: later := by
  obtain ⟨⟨other, content⟩, inside, rfl⟩ := List.mem_map.mp member
  obtain ⟨before, later, split⟩ := List.append_of_mem inside
  exact ⟨before, content, later, split⟩

/-- The ItemID of an index in use. -/
theorem BlockHolds.itemId (holds : BlockHolds block (before ++ (idx, content) :: later)) :
    ∃ itemId, block.getItemId idx = some itemId ∧ itemIdAvailability itemId = 0 ∧
      itemIdOffset itemId = block.tailPtr.toNat + (itemCells before).length ∧
      itemIdSizeOf itemId = content.length := by
  obtain ⟨-, total, -⟩ := holds.tail_bounds
  rw [itemCells_append, itemCells_cons, List.length_append, List.length_append] at total
  simp only [blockBytes] at total
  have offsetSmall : block.tailPtr.toNat + (itemCells before).length < 2 ^ 15 := by omega
  have sizeSmall : content.length < 2 ^ 15 := by omega
  refine ⟨_, holds.used before idx content later rfl,
    itemIdAvailability_compose (Nat.zero_le 1) offsetSmall sizeSmall,
    itemIdOffset_compose (Nat.zero_le 1) offsetSmall sizeSmall,
    itemIdSizeOf_compose (Nat.zero_le 1) offsetSmall sizeSmall⟩

/-- Every index below `n_items` has an ItemID, available exactly when it is not in use. -/
theorem BlockHolds.availability (holds : BlockHolds block items)
    (small : (idx : Int) < block.nItems) :
    ∃ itemId, block.getItemId idx = some itemId ∧
      (itemIdAvailability itemId ≠ 0 ↔ idx ∉ items.map Prod.fst) := by
  by_cases member : idx ∈ items.map Prod.fst
  · obtain ⟨before, content, later, rfl⟩ := exists_split_of_mem member
    obtain ⟨itemId, read, available, -⟩ := holds.itemId
    exact ⟨itemId, read, iff_of_false (not_not.mpr available) (not_not.mpr member)⟩
  · obtain ⟨itemId, read, available⟩ := holds.unused idx small member
    refine ⟨itemId, read, iff_of_true ?_ member⟩
    rw [available]
    exact Nat.one_ne_zero

/-- `get_item` points at the bytes of an index in use. -/
theorem BlockHolds.getItem (holds : BlockHolds block items) (member : (idx, content) ∈ items) :
    ∃ itemId, block.getItemId idx = some itemId ∧ itemIdSizeOf itemId = content.length ∧
      ∃ offset : Nat, block.getItem idx = some (some (offset : Int)) ∧
        block.readCells offset content.length = some content := by
  have small := holds.below idx (List.mem_map.mpr ⟨_, member, rfl⟩)
  obtain ⟨before, later, rfl⟩ := List.append_of_mem member
  obtain ⟨itemId, read, available, offset, size⟩ := holds.itemId
  obtain ⟨low, total, -⟩ := holds.tail_bounds
  have layout : itemCells (before ++ (idx, content) :: later) =
      itemCells before ++ (content ++ itemCells later) := by
    rw [itemCells_append, itemCells_cons]
  refine ⟨itemId, read, size, itemIdOffset itemId, ?_, ?_⟩
  · unfold Block.getItem
    rw [if_neg (by omega), read]
    simp only [Option.bind_eq_bind, Option.bind_some, available]
    rfl
  · rw [layout, List.length_append, List.length_append] at total
    rw [offset, readCells_eq (by omega) (by omega)]
    congr 1
    refine List.ext_getElem? fun index => ?_
    by_cases inside : index < content.length
    · have present : (itemCells (before ++ (idx, content) :: later))[(itemCells before).length + index]?
          = some content[index] := by
        rw [layout, List.getElem?_append_right (Nat.le_add_right _ _), Nat.add_sub_cancel_left,
          List.getElem?_append_left inside, List.getElem?_eq_getElem inside]
      rw [List.getElem?_map, List.getElem?_range inside, Option.map_some,
        List.getElem?_eq_getElem inside, Nat.add_assoc, holds.bytes _ _ present]
    · rw [List.getElem?_eq_none, List.getElem?_eq_none]
      · omega
      · rw [List.length_map, List.length_range]
        omega

end Holds

end MyJQL.Storage.Block
