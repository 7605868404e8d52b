import MyJQL.Storage.BlockItems

/-!
# The operations on a slotted page

`new_item` puts an item in front of the items of a block, under an index that
was not in use; `delete_item` takes an item out and leaves the indices and the
bytes of the others.
-/

namespace MyJQL.Storage.Block

variable {block : Block} {items before later : List Item} {idx : Nat} {content item : List Cell}

/-- A fresh block holds nothing. -/
theorem blockHolds_initBlock (block : Block) : BlockHolds block.initBlock [] := by
  refine ⟨le_rfl, rfl, rfl, (by decide : (dataOffset : Int) ≤ blockBytes), List.nodup_nil, ?_, ?_, ?_, ?_, ?_⟩
  · intro idx member
    exact absurd member List.not_mem_nil
  · intro item member
    exact absurd member List.not_mem_nil
  · intro index value present
    exact absurd present (by simp [itemCells])
  · intro before idx content later split
    exact absurd split (by simp)
  · intro idx small
    exact absurd small (not_lt.mpr (Int.natCast_nonneg idx))

/-! ## Insertion -/

theorem firstAvailable_spec (holds : BlockHolds block items) (count : Nat) : ∀ index : Nat,
    ((index + count : Nat) : Int) ≤ block.nItems →
    ∃ found, block.firstAvailable count index = some found ∧
      ∀ idx, found = some idx → (idx : Int) < block.nItems ∧ idx ∉ items.map Prod.fst := by
  induction count with
  | zero =>
      intro index _
      refine ⟨none, rfl, fun idx impossible => ?_⟩
      cases impossible
  | succ count ih =>
      intro index small
      have here : (index : Int) < block.nItems := by omega
      obtain ⟨itemId, read, available⟩ := holds.availability here
      rw [firstAvailable, read]
      simp only [Option.bind_eq_bind, Option.bind_some]
      by_cases free : itemIdAvailability itemId = 0
      · rw [if_neg (not_not.mpr free)]
        exact ih (index + 1) (by omega)
      · rw [if_pos free]
        refine ⟨some index, rfl, fun idx same => ?_⟩
        cases same
        exact ⟨by omega, available.mp free⟩

/-- The block after the ItemID and the bytes of a new item are written. -/
structure Placed (block : Block) (idx : Nat) (item : List Cell) (placed : Block) : Prop where
  nItems : placed.nItems = block.nItems
  headPtr : placed.headPtr = block.headPtr
  tailPtr : placed.tailPtr = block.tailPtr - item.length
  bytes : ∀ index value, item[index]? = some value →
    placed.cell (placed.tailPtr.toNat + index) = value
  kept : ∀ place, block.tailPtr.toNat ≤ place → placed.cell place = block.cell place
  self : placed.getItemId idx = some (composeItemId 0 (placed.tailPtr.toNat : Int) item.length)
  others : ∀ other : Nat, dataOffset + itemIdSize * (other + 1) ≤ placed.tailPtr.toNat →
    other ≠ idx → placed.getItemId other = block.getItemId other

theorem exists_placeItem (low : 0 ≤ block.tailPtr) (high : block.tailPtr ≤ blockBytes)
    (spare : dataOffset + itemIdSize * (idx + 1) + item.length ≤ block.tailPtr.toNat) :
    ∃ placed, block.placeItem idx item = some placed ∧ Placed block idx item placed := by
  have tail : block.tailPtr - (item.length : Int) =
      ((block.tailPtr.toNat - item.length : Nat) : Int) := by
    omega
  have offsetSmall : block.tailPtr.toNat - item.length < 2 ^ 15 := by
    simp only [blockBytes] at high
    omega
  have sizeSmall : item.length < 2 ^ 15 := by
    simp only [blockBytes] at high
    omega
  have fits : IdFits idx := by
    unfold IdFits
    simp only [dataOffset, itemIdSize, blockBytes] at *
    omega
  have start : dataOffset + itemIdSize * (idx + 1) ≤ block.tailPtr.toNat - item.length := by omega
  have stop : block.tailPtr.toNat - item.length + item.length ≤ blockBytes := by omega
  obtain ⟨named, naming, isNamed⟩ := exists_setItemId block fits
    (composeItemId_lt (Nat.zero_le 1) offsetSmall sizeSmall)
  obtain ⟨written, writing, isWritten⟩ := exists_writeCells named
    (le_trans (Nat.le_add_right _ _) start) stop
  refine ⟨{ written with tailPtr := block.tailPtr - item.length }, ?_, ?_⟩
  · unfold placeItem
    simp only [tail, naming, writing, Option.bind_eq_bind, Option.bind_some]
    rfl
  · have unchanged : ∀ other : Nat,
        dataOffset + itemIdSize * (other + 1) ≤ block.tailPtr.toNat - item.length →
          written.getItemId other = named.getItemId other := by
      intro other under
      have otherFits : IdFits other := by
        unfold IdFits
        simp only [dataOffset, itemIdSize, blockBytes] at *
        omega
      refine getItemId_congr otherFits fun index small => isWritten.outside _ (Or.inl ?_)
      simp only [dataOffset, itemIdSize] at *
      omega
    have newTail : (block.tailPtr - (item.length : Int)).toNat =
        block.tailPtr.toNat - item.length := by
      omega
    refine ⟨?_, ?_, rfl, ?_, ?_, ?_, ?_⟩
    · exact isWritten.nItems.trans isNamed.nItems
    · exact isWritten.headPtr.trans isNamed.headPtr
    · intro index value present
      simp only [newTail]
      exact isWritten.inside index value present
    · intro place above
      exact (isWritten.outside place (Or.inr (by omega))).trans
        (isNamed.outside place (by simp only [dataOffset, itemIdSize] at *; omega))
    · simp only [newTail]
      exact (unchanged idx start).trans isNamed.self
    · intro other under different
      simp only [newTail] at under
      have otherFits : IdFits other := by
        unfold IdFits
        simp only [dataOffset, itemIdSize, blockBytes] at *
        omega
      exact (unchanged other under).trans (isNamed.others other otherFits different)

/-- The items after a placement, once the header says the same of the indices. -/
theorem Placed.holds {placed final : Block} (holds : BlockHolds block items)
    (isPlaced : Placed block idx item placed) (absent : idx ∉ items.map Prod.fst)
    (some : item ≠ []) (cells : final.cell = placed.cell) (tail : final.tailPtr = placed.tailPtr)
    (head : final.headPtr = dataOffset + itemIdSize * final.nItems)
    (room : final.headPtr ≤ final.tailPtr) (grown : block.nItems ≤ final.nItems)
    (small : (idx : Int) < final.nItems)
    (fresh : ∀ other : Nat, (other : Int) < final.nItems → other ≠ idx →
      (other : Int) < block.nItems) :
    BlockHolds final ((idx, item) :: items) := by
  obtain ⟨-, total, exactTail⟩ := holds.tail_bounds
  have positive : item.length ≠ 0 := fun empty => some (List.eq_nil_of_length_eq_zero empty)
  have nonneg := holds.nonneg
  have newTail : placed.tailPtr.toNat + item.length = block.tailPtr.toNat := by
    have shape := isPlaced.tailPtr
    rw [← tail] at shape ⊢
    simp only [dataOffset, itemIdSize] at *
    omega
  have idUnder : ∀ other : Nat, (other : Int) < final.nItems →
      dataOffset + itemIdSize * (other + 1) ≤ placed.tailPtr.toNat := by
    intro other otherSmall
    rw [← tail]
    simp only [dataOffset, itemIdSize] at *
    omega
  refine ⟨by omega, head, ?_, room, ?_, ?_, ?_, ?_, ?_, ?_⟩
  · rw [tail, isPlaced.tailPtr, itemCells_cons, List.length_append, ← holds.tail]
    push_cast
    ring
  · exact List.nodup_cons.mpr ⟨absent, holds.distinct⟩
  · intro other member
    rcases List.mem_cons.mp member with rfl | old
    · exact small
    · exact lt_of_lt_of_le (holds.below other old) grown
  · intro other member
    rcases List.mem_cons.mp member with rfl | old
    · exact some
    · exact holds.nonempty other old
  · intro index value present
    rw [cells, tail]
    rw [itemCells_cons] at present
    by_cases inside : index < item.length
    · rw [List.getElem?_append_left inside] at present
      exact isPlaced.bytes index value present
    · rw [List.getElem?_append_right (not_lt.mp inside)] at present
      have place : placed.tailPtr.toNat + index =
          block.tailPtr.toNat + (index - item.length) := by
        omega
      rw [place, isPlaced.kept _ (Nat.le_add_right _ _), holds.bytes _ _ present]
  · intro before other content later split
    rw [getItemId_of_cell_eq cells, tail]
    cases before with
    | nil =>
        obtain ⟨⟨rfl, rfl⟩, rfl⟩ : (idx = other ∧ item = content) ∧ items = later := by
          simpa using split
        exact isPlaced.self
    | cons first before =>
        obtain ⟨rfl, rest⟩ := List.cons.inj split
        have member : other ∈ items.map Prod.fst := by
          rw [rest]
          simp
        have different : other ≠ idx := fun same => absent (same ▸ member)
        rw [isPlaced.others other (idUnder other ?_) different, holds.used before other content later rest,
          itemCells_cons, List.length_append]
        · congr 3
          dsimp only
          omega
        · exact lt_of_lt_of_le (holds.below other member) grown
  · intro other otherSmall unused
    have different : other ≠ idx := fun same => unused (same ▸ List.mem_cons_self)
    rw [getItemId_of_cell_eq cells, isPlaced.others other (idUnder other otherSmall) different]
    refine holds.unused other (fresh other otherSmall different) fun member => ?_
    exact unused (List.mem_cons_of_mem idx member)

/-- `new_item` stores the item under an index not in use. -/
theorem newItem_spec (holds : BlockHolds block items) (some : item ≠ [])
    (fits : item.length + itemIdSize ≤ block.tailPtr - block.headPtr) :
    ∃ (idx : Nat) (final : Block), block.newItem item = Option.some ((idx : Int), final) ∧
      idx ∉ items.map Prod.fst ∧ BlockHolds final ((idx, item) :: items) := by
  obtain ⟨low, total, exactTail⟩ := holds.tail_bounds
  have head := holds.head
  have nonneg := holds.nonneg
  have high : block.tailPtr ≤ blockBytes := by omega
  obtain ⟨found, searched, free⟩ := firstAvailable_spec holds block.nItems.toNat 0 (by omega)
  unfold newItem
  rw [searched]
  simp only [Option.bind_eq_bind, Option.bind_some]
  cases found with
  | some idx =>
      obtain ⟨small, absent⟩ := free idx rfl
      have spare : dataOffset + itemIdSize * (idx + 1) + item.length ≤ block.tailPtr.toNat := by
        simp only [dataOffset, itemIdSize] at *
        omega
      obtain ⟨placed, placing, isPlaced⟩ := exists_placeItem (by omega) high spare
      refine ⟨idx, placed, ?_, absent, ?_⟩
      · simp only [placing, Option.bind_some]
        rfl
      · refine isPlaced.holds holds absent some rfl rfl ?_ ?_ (le_of_eq isPlaced.nItems.symm) ?_ ?_
        · rw [isPlaced.headPtr, isPlaced.nItems, head]
        · rw [isPlaced.headPtr, isPlaced.tailPtr]
          simp only [itemIdSize] at fits
          omega
        · rw [isPlaced.nItems]
          exact small
        · intro other otherSmall _
          rw [isPlaced.nItems] at otherSmall
          exact otherSmall
  | none =>
      have count : block.nItems = (block.nItems.toNat : Int) := by omega
      have spare : dataOffset + itemIdSize * (block.nItems.toNat + 1) + item.length ≤
          block.tailPtr.toNat := by
        simp only [dataOffset, itemIdSize] at *
        omega
      obtain ⟨placed, placing, isPlaced⟩ := exists_placeItem (by omega) high spare
      have absent : block.nItems.toNat ∉ items.map Prod.fst := by
        intro member
        have below := holds.below _ member
        omega
      rw [← count] at placing
      refine ⟨block.nItems.toNat, { placed with
        nItems := block.nItems + 1, headPtr := block.headPtr + itemIdSize }, ?_, absent, ?_⟩
      · simp only [placing, Option.bind_some, ← count]
        rfl
      · refine isPlaced.holds holds absent some rfl rfl ?_ ?_ ?_ ?_ ?_
        · simp only [head, itemIdSize]
          ring
        · simp only [isPlaced.tailPtr, itemIdSize] at *
          omega
        · simp only
          omega
        · simp only
          omega
        · intro other otherSmall different
          simp only at otherSmall
          omega

/-! ## Deletion -/

/-- The block after `count` bytes have moved up by `size`. -/
structure Slid (block : Block) (start size count : Nat) (after : Block) : Prop where
  nItems : after.nItems = block.nItems
  headPtr : after.headPtr = block.headPtr
  tailPtr : after.tailPtr = block.tailPtr
  moved : ∀ index < count, after.cell (start + size + index) = block.cell (start + index)
  kept : ∀ place, place < start + size ∨ start + size + count ≤ place →
    after.cell place = block.cell place

theorem slideCells_spec {start : Nat} (size : Nat) (low : dataOffset ≤ start) (count : Nat) :
    ∀ block : Block, start + size + count ≤ blockBytes →
      ∃ after, block.slideCells start ((start + size : Nat) : Int) count = some after ∧
        Slid block start size count after := by
  induction count with
  | zero =>
      intro block _
      refine ⟨block, rfl, rfl, rfl, rfl, ?_, fun _ _ => rfl⟩
      intro index impossible
      omega
  | succ count ih =>
      intro block high
      have source : (start : Int) + count = ((start + count : Nat) : Int) := by omega
      have target : ((start + size : Nat) : Int) + count = ((start + size + count : Nat) : Int) := by
        omega
      have read : block.readCells ((start + count : Nat) : Int) 1 =
          some [block.cell (start + count)] := by
        rw [readCells_eq (by omega) (by omega)]
        rfl
      have end_le : start + size + count + [block.cell (start + count)].length ≤ blockBytes := by
        rw [List.length_singleton]
        omega
      obtain ⟨moved, moving, isMoved⟩ := exists_writeCells block
        (show dataOffset ≤ start + size + count by omega) end_le
      obtain ⟨after, sliding, slid⟩ := ih moved (by omega)
      have here : moved.cell (start + size + count) = block.cell (start + count) :=
        isMoved.inside 0 _ rfl
      have elsewhere : ∀ place, place ≠ start + size + count → moved.cell place = block.cell place := by
        intro place different
        refine isMoved.outside place ?_
        rw [List.length_singleton]
        omega
      refine ⟨after, ?_, slid.nItems.trans isMoved.nItems, slid.headPtr.trans isMoved.headPtr,
        slid.tailPtr.trans isMoved.tailPtr, ?_, ?_⟩
      · rw [slideCells, source, target, read]
        simp only [Option.bind_eq_bind, Option.bind_some, moving, sliding]
      · intro index inside
        rcases Nat.lt_or_ge index count with early | last
        · rw [slid.moved index early, elsewhere _ (by omega)]
        · obtain rfl : index = count := by omega
          rw [slid.kept _ (Or.inr le_rfl), here]
      · intro place apart
        rw [slid.kept place (by omega), elsewhere place (by omega)]

/-- An ItemID after the items below `itemOffset` have moved up. -/
def raisedId (itemOffset itemSize itemId : Nat) : Nat :=
  if itemIdAvailability itemId = 0 ∧ itemIdOffset itemId < itemOffset then
    composeItemId 0 (itemIdOffset itemId + itemSize) (itemIdSizeOf itemId)
  else itemId

theorem raiseOffset_spec {itemOffset itemSize itemId : Nat}
    (bound : itemOffset + itemSize < 2 ^ 15) (fits : IdFits idx)
    (read : block.getItemId idx = some itemId) :
    ∃ after, raiseOffset itemOffset itemSize idx block = some after ∧
      IdWritten block idx (raisedId itemOffset itemSize itemId) after := by
  unfold raiseOffset raisedId
  rw [read]
  simp only [Option.bind_eq_bind, Option.bind_some]
  by_cases raise : itemIdAvailability itemId = 0 ∧ itemIdOffset itemId < itemOffset
  · rw [if_pos raise, if_pos raise]
    refine exists_setItemId block fits ?_
    have size : itemIdSizeOf itemId < 2 ^ 15 := by
      unfold itemIdSizeOf
      rw [Nat.and_two_pow_sub_one_eq_mod]
      exact Nat.mod_lt _ (by decide)
    exact composeItemId_lt (Nat.zero_le 1) (by omega) size
  · rw [if_neg raise, if_neg raise]
    exact ⟨block, rfl, rfl, rfl, rfl, read, fun _ _ _ => rfl, fun _ _ => rfl⟩

structure Raised (block : Block) (itemOffset itemSize first count : Nat) (after : Block) : Prop where
  nItems : after.nItems = block.nItems
  headPtr : after.headPtr = block.headPtr
  tailPtr : after.tailPtr = block.tailPtr
  outside : ∀ place, dataOffset + itemIdSize * (first + count) ≤ place →
    after.cell place = block.cell place
  earlier : ∀ idx : Nat, idx < first → IdFits idx → after.getItemId idx = block.getItemId idx
  raised : ∀ (idx : Nat) (itemId : Nat), first ≤ idx → idx < first + count →
    block.getItemId idx = some itemId →
      after.getItemId idx = some (raisedId itemOffset itemSize itemId)

theorem raiseOffsets_spec {itemOffset itemSize : Nat} (bound : itemOffset + itemSize < 2 ^ 15)
    (count : Nat) : ∀ (first : Nat) (block : Block),
      (∀ idx : Nat, first ≤ idx → idx < first + count →
        IdFits idx ∧ ∃ itemId, block.getItemId idx = some itemId) →
      ∃ after, raiseOffsets itemOffset itemSize count first block = some after ∧
        Raised block itemOffset itemSize first count after := by
  induction count with
  | zero =>
      intro first block _
      refine ⟨block, rfl, rfl, rfl, rfl, fun _ _ => rfl, fun _ _ _ => rfl, ?_⟩
      intro idx itemId low high
      omega
  | succ count ih =>
      intro first block readable
      obtain ⟨fits, itemId, read⟩ := readable first le_rfl (by omega)
      obtain ⟨middle, step, written⟩ := raiseOffset_spec bound fits read
      obtain ⟨after, rest, isRaised⟩ := ih (first + 1) middle (by
        intro idx low high
        obtain ⟨otherFits, other, otherRead⟩ := readable idx (by omega) (by omega)
        exact ⟨otherFits, other, by rw [written.others idx otherFits (by omega), otherRead]⟩)
      refine ⟨after, ?_, isRaised.nItems.trans written.nItems,
        isRaised.headPtr.trans written.headPtr, isRaised.tailPtr.trans written.tailPtr, ?_, ?_, ?_⟩
      · rw [raiseOffsets, step]
        exact rest
      · intro place above
        rw [isRaised.outside place (by simp only [itemIdSize] at *; omega),
          written.outside place (by simp only [itemIdSize] at *; omega)]
      · intro idx early idxFits
        rw [isRaised.earlier idx (by omega) idxFits, written.others idx idxFits (by omega)]
      · intro idx other low high otherRead
        rcases Nat.lt_or_ge first idx with later | here
        · have otherFits := (readable idx low high).1
          refine isRaised.raised idx other later (by omega) ?_
          rw [written.others idx otherFits (by omega), otherRead]
        · obtain rfl : idx = first := by omega
          rw [read] at otherRead
          cases otherRead
          rw [isRaised.earlier idx (by omega) fits, written.self]

/-- Giving back the last ItemID keeps the items. -/
theorem trimLast_spec (holds : BlockHolds block items) (positive : 0 < block.nItems) :
    ∃ final, block.trimLast = some final ∧ BlockHolds final items := by
  have last : block.nItems - 1 = ((block.nItems.toNat - 1 : Nat) : Int) := by omega
  have small : ((block.nItems.toNat - 1 : Nat) : Int) < block.nItems := by omega
  obtain ⟨itemId, read, available⟩ := holds.availability small
  unfold trimLast
  rw [last, read]
  simp only [Option.bind_eq_bind, Option.bind_some]
  by_cases free : itemIdAvailability itemId = 0
  · rw [if_neg (not_not.mpr free)]
    exact ⟨block, rfl, holds⟩
  · rw [if_pos free]
    refine ⟨_, rfl, ⟨Int.natCast_nonneg _, ?_, holds.tail, ?_, holds.distinct, ?_, holds.nonempty, holds.bytes,
      holds.used, ?_⟩⟩
    · have head := holds.head
      simp only [itemIdSize] at *
      omega
    · have room := holds.room
      simp only [itemIdSize] at *
      omega
    · intro idx member
      have below := holds.below idx member
      have notLast : idx ≠ block.nItems.toNat - 1 := by
        rintro rfl
        exact available.mp free member
      simp only
      omega
    · intro idx idxSmall absent
      exact holds.unused idx (by simp only at idxSmall; omega) absent

/-- The state of a block once the deleted item's bytes and ItemID are gone. -/
structure Removed (block : Block) (before : List Item) (idx : Nat) (content : List Cell)
    (final : Block) : Prop where
  nItems : final.nItems = block.nItems
  headPtr : final.headPtr = block.headPtr
  tailPtr : final.tailPtr = block.tailPtr + content.length
  moved : ∀ index < (itemCells before).length,
    final.cell (block.tailPtr.toNat + content.length + index) =
      block.cell (block.tailPtr.toNat + index)
  kept : ∀ place, block.tailPtr.toNat + content.length + (itemCells before).length ≤ place →
    final.cell place = block.cell place
  self : ∃ itemId, final.getItemId idx = some itemId ∧ itemIdAvailability itemId = 1
  others : ∀ (other itemId : Nat), (other : Int) < block.nItems → other ≠ idx →
    block.getItemId other = some itemId → final.getItemId other =
      some (raisedId (block.tailPtr.toNat + (itemCells before).length) content.length itemId)

theorem exists_removed (holds : BlockHolds block (before ++ (idx, content) :: later)) :
    ∃ final, block.deleteItem idx = final.trimLast ∧ Removed block before idx content final := by
  obtain ⟨low, total, exactTail⟩ := holds.tail_bounds
  have member : idx ∈ (before ++ (idx, content) :: later).map Prod.fst := by simp
  have small := holds.below idx member
  have fits := holds.idFits small
  obtain ⟨itemId, read, -, offset, size⟩ := holds.itemId
  rw [itemCells_append, itemCells_cons, List.length_append, List.length_append] at total
  simp only at total
  have offsetSmall : block.tailPtr.toNat + (itemCells before).length < 2 ^ 15 := by
    simp only [blockBytes] at total
    omega
  have sizeSmall : content.length < 2 ^ 15 := by
    simp only [blockBytes] at total
    omega
  -- the ItemID of the deleted item is marked available
  obtain ⟨freed, freeing, isFreed⟩ := exists_setItemId block fits
    (composeItemId_lt le_rfl offsetSmall sizeSmall)
  -- the bytes below it move up
  have slideLow : dataOffset ≤ block.tailPtr.toNat := by
    simp only [dataOffset, itemIdSize] at low ⊢
    omega
  obtain ⟨slid, sliding, isSlid⟩ := slideCells_spec content.length slideLow
    (itemCells before).length { freed with tailPtr := block.tailPtr + content.length } (by omega)
  have slidItems : slid.nItems = block.nItems := isSlid.nItems.trans isFreed.nItems
  have slidIds : ∀ other : Nat, (other : Int) < block.nItems →
      slid.getItemId other = freed.getItemId other := by
    intro other otherSmall
    refine getItemId_congr (holds.idFits otherSmall) fun index inside => ?_
    refine isSlid.kept _ (Or.inl ?_)
    simp only [dataOffset, itemIdSize] at *
    omega
  have above : ∀ place, block.tailPtr.toNat ≤ place → freed.cell place = block.cell place := by
    intro place high
    refine isFreed.outside place ?_
    simp only [dataOffset, itemIdSize] at *
    omega
  -- the offsets of the items below it follow
  have bound : block.tailPtr.toNat + (itemCells before).length + content.length < 2 ^ 15 := by
    simp only [blockBytes] at total
    omega
  obtain ⟨raised, raising, isRaised⟩ := raiseOffsets_spec bound block.nItems.toNat 0 slid (by
    intro other _ high
    have otherSmall : (other : Int) < block.nItems := by omega
    refine ⟨holds.idFits otherSmall, ?_⟩
    rw [slidIds other otherSmall]
    by_cases same : other = idx
    · rw [same]
      exact ⟨_, isFreed.self⟩
    · obtain ⟨otherId, otherRead, -⟩ := holds.availability otherSmall
      exact ⟨otherId, by rw [isFreed.others other (holds.idFits otherSmall) same, otherRead]⟩)
  have cells : ∀ place, block.tailPtr.toNat ≤ place → raised.cell place = slid.cell place := by
    intro place high
    refine isRaised.outside place ?_
    rw [Nat.zero_add]
    omega
  refine ⟨raised, ?_, isRaised.nItems.trans slidItems, ?_, ?_, ?_, ?_, ?_, ?_⟩
  · have start : block.tailPtr + (content.length : Int) - content.length =
        (block.tailPtr.toNat : Int) := by
      omega
    have target : block.tailPtr + (content.length : Int) =
        ((block.tailPtr.toNat + content.length : Nat) : Int) := by
      omega
    have count : (((block.tailPtr.toNat + (itemCells before).length : Nat) : Int) -
        (block.tailPtr + content.length) + content.length).toNat = (itemCells before).length := by
      omega
    unfold deleteItem
    rw [read]
    simp only [Option.bind_eq_bind, Option.bind_some, offset, size, freeing, start, count]
    rw [← target] at sliding
    simp only [sliding, Option.bind_some, slidItems, raising, if_neg (not_lt.mpr holds.nonneg)]
  · exact isRaised.headPtr.trans (isSlid.headPtr.trans isFreed.headPtr)
  · exact isRaised.tailPtr.trans isSlid.tailPtr
  · intro index inside
    rw [cells _ (by omega), isSlid.moved index inside]
    exact above _ (Nat.le_add_right _ _)
  · intro place high
    rw [cells place (by omega), isSlid.kept place (Or.inr high)]
    exact above place (by omega)
  · have selfRead : slid.getItemId idx = some _ := (slidIds idx small).trans isFreed.self
    refine ⟨_, isRaised.raised idx _ (Nat.zero_le _) (by omega) selfRead, ?_⟩
    have flag := itemIdAvailability_compose le_rfl offsetSmall sizeSmall
    rw [raisedId, if_neg, flag]
    rw [flag]
    exact fun raise => absurd raise.1 Nat.one_ne_zero
  · intro other otherId otherSmall different otherRead
    refine isRaised.raised other otherId (Nat.zero_le _) (by omega) ?_
    rw [slidIds other otherSmall, isFreed.others other (holds.idFits otherSmall) different, otherRead]

/-- Two ways to stand in a list from which an item was taken. -/
theorem split_removed {other : Nat} {cells : List Cell} {front back : List Item}
    (split : before ++ later = front ++ (other, cells) :: back) :
    (∃ middle, before = front ++ (other, cells) :: middle ∧ back = middle ++ later) ∨
      ∃ middle, front = before ++ middle ∧ later = middle ++ (other, cells) :: back := by
  rcases List.append_eq_append_iff.mp split with ⟨middle, rfl, rest⟩ | ⟨middle, rfl, rest⟩
  · exact Or.inr ⟨middle, rfl, rest⟩
  · cases middle with
    | nil => exact Or.inr ⟨[], by simp, by simpa using rest.symm⟩
    | cons first middle =>
        obtain ⟨rfl, rfl⟩ := List.cons.inj rest
        exact Or.inl ⟨middle, rfl, rfl⟩

theorem Removed.holds {final : Block}
    (holds : BlockHolds block (before ++ (idx, content) :: later))
    (removed : Removed block before idx content final) : BlockHolds final (before ++ later) := by
  obtain ⟨low, total, exactTail⟩ := holds.tail_bounds
  have layout : itemCells (before ++ (idx, content) :: later) =
      itemCells before ++ (content ++ itemCells later) := by
    rw [itemCells_append, itemCells_cons]
  have newTail : final.tailPtr.toNat = block.tailPtr.toNat + content.length := by
    rw [removed.tailPtr]
    omega
  have fsts : (before ++ (idx, content) :: later).map Prod.fst =
      before.map Prod.fst ++ idx :: later.map Prod.fst := by
    simp
  have distinct := holds.distinct
  rw [fsts, List.nodup_middle, List.nodup_cons] at distinct
  have members : ∀ other, other ∈ (before ++ later).map Prod.fst →
      other ∈ (before ++ (idx, content) :: later).map Prod.fst ∧ other ≠ idx := by
    intro other member
    rw [List.map_append] at member
    refine ⟨?_, fun same => distinct.1 (same ▸ member)⟩
    rw [fsts]
    rcases List.mem_append.mp member with left | right
    · exact List.mem_append_left _ left
    · exact List.mem_append_right _ (List.mem_cons_of_mem _ right)
  refine ⟨removed.nItems ▸ holds.nonneg, ?_, ?_, ?_, ?_, ?_, ?_, ?_, ?_, ?_⟩
  · rw [removed.headPtr, removed.nItems, holds.head]
  · have tail := holds.tail
    rw [layout, List.length_append, List.length_append] at tail
    rw [removed.tailPtr, itemCells_append, List.length_append]
    omega
  · have room := holds.room
    rw [removed.headPtr, removed.tailPtr]
    omega
  · rw [List.map_append]
    exact distinct.2
  · intro other member
    rw [removed.nItems]
    exact holds.below other (members other member).1
  · intro item member
    refine holds.nonempty item ?_
    rcases List.mem_append.mp member with left | right
    · exact List.mem_append_left _ left
    · exact List.mem_append_right _ (List.mem_cons_of_mem _ right)
  · intro index value present
    rw [itemCells_append] at present
    rw [newTail]
    by_cases inside : index < (itemCells before).length
    · rw [List.getElem?_append_left inside] at present
      rw [removed.moved index inside]
      refine holds.bytes index value ?_
      rw [layout, List.getElem?_append_left inside, present]
    · rw [List.getElem?_append_right (not_lt.mp inside)] at present
      rw [removed.kept _ (by omega), Nat.add_assoc]
      refine holds.bytes (content.length + index) value ?_
      rw [layout, List.getElem?_append_right (by omega), List.getElem?_append_right (by omega), ← present]
      congr 1
      omega
  · intro front other cells back split
    have inItems : other ∈ (before ++ later).map Prod.fst := by
      rw [split]
      simp
    obtain ⟨inAll, different⟩ := members other inItems
    have small := holds.below other inAll
    rw [newTail]
    rcases split_removed split with ⟨middle, rfl, rfl⟩ | ⟨middle, rfl, rfl⟩
    · -- below the deleted item: its offset is raised
      have regroup : front ++ (other, cells) :: middle ++ (idx, content) :: later =
          front ++ (other, cells) :: (middle ++ (idx, content) :: later) := by
        simp
      have nonempty := holds.nonempty (other, cells) (by simp)
      have positive : 0 < cells.length := List.length_pos_iff.mpr nonempty
      have beforeLength : (itemCells (front ++ (other, cells) :: middle)).length =
          (itemCells front).length + (cells.length + (itemCells middle).length) := by
        rw [itemCells_append, itemCells_cons, List.length_append, List.length_append]
      rw [regroup] at holds
      obtain ⟨itemId, read, available, offset, size⟩ := holds.itemId
      have lower : itemIdOffset itemId <
          block.tailPtr.toNat + (itemCells (front ++ (other, cells) :: middle)).length := by
        omega
      rw [removed.others other itemId small different read, raisedId, if_pos ⟨available, lower⟩,
        offset, size]
      congr 2
      push_cast
      ring
    · -- above the deleted item: its ItemID stays
      have regroup : before ++ (idx, content) :: (middle ++ (other, cells) :: back) =
          (before ++ (idx, content) :: middle) ++ (other, cells) :: back := by
        simp
      have frontLength : (itemCells (before ++ (idx, content) :: middle)).length =
          content.length + (itemCells (before ++ middle)).length := by
        simp only [itemCells_append, itemCells_cons, List.length_append]
        omega
      have atLeast : (itemCells before).length ≤ (itemCells (before ++ middle)).length := by
        rw [itemCells_append, List.length_append]
        exact Nat.le_add_right _ _
      rw [regroup] at holds
      obtain ⟨itemId, read, -, offset, -⟩ := holds.itemId
      have exactId := holds.used _ other cells back rfl
      have stays : ¬ (itemIdAvailability itemId = 0 ∧
          itemIdOffset itemId < block.tailPtr.toNat + (itemCells before).length) := by
        rintro ⟨-, lower⟩
        omega
      rw [removed.others other itemId small different read, raisedId, if_neg stays, ← read, exactId,
        frontLength, Nat.add_assoc]
  · intro other otherSmall absent
    by_cases same : other = idx
    · rw [same]
      exact removed.self
    · rw [removed.nItems] at otherSmall
      have notUsed : other ∉ (before ++ (idx, content) :: later).map Prod.fst := by
        rw [fsts]
        intro member
        rw [List.map_append] at absent
        rcases List.mem_append.mp member with left | right
        · exact absent (List.mem_append_left _ left)
        · exact absent (List.mem_append_right _ ((List.mem_cons.mp right).resolve_left same))
      obtain ⟨itemId, read, available⟩ := holds.unused other otherSmall notUsed
      refine ⟨itemId, ?_, available⟩
      rw [removed.others other itemId otherSmall same read, raisedId, if_neg]
      rw [available]
      exact fun raise => absurd raise.1 Nat.one_ne_zero

/-- `delete_item` takes out the item of an index in use. -/
theorem deleteItem_spec (holds : BlockHolds block (before ++ (idx, content) :: later)) :
    ∃ final, block.deleteItem idx = some final ∧ BlockHolds final (before ++ later) := by
  obtain ⟨middle, deleted, removed⟩ := exists_removed holds
  have positive : 0 < middle.nItems := by
    have small := holds.below idx (by simp)
    rw [removed.nItems]
    omega
  obtain ⟨final, trimmed, finalHolds⟩ := trimLast_spec (removed.holds holds) positive
  exact ⟨final, deleted.trans trimmed, finalHolds⟩

end MyJQL.Storage.Block
