import MyJQL.Storage.PageMap

/-!
# Slotted pages (`block.c`)

A block is a page of 128 bytes: three `short` fields, the ItemIDs from offset 6
upwards, and the items from the end downwards. ItemIDs and items share one array
of cells, so an item that grew too far would overwrite ItemIDs.

A cell is a byte, or one of the ten bytes of a RID: clients store RIDs, whose
`off_t` is unbounded here, and read them back whole. A cell of an uninitialised
variable is undefined. Accesses outside the page, and ItemIDs made of anything
but bytes, are undefined behaviour, `none`.
-/

namespace MyJQL.Storage

structure RID where
  blockAddr : Int
  idx : Int
  deriving DecidableEq, Repr

inductive Cell where
  | byte (value : UInt8)
  | rid (value : RID) (part : Fin 10)
  | undef
  deriving DecidableEq, Repr

structure Block where
  nItems : Int
  headPtr : Int
  tailPtr : Int
  cell : Nat → Cell

instance : PageType Block where
  emptyPage := ⟨0, 0, 0, fun _ => .byte 0⟩

namespace Block

/-- The offset of `data`, after the three header fields. -/
abbrev dataOffset : Nat := 6

/-- `sizeof(ItemID)`. -/
abbrev itemIdSize : Nat := 4

/-- `sizeof(Block)`. -/
abbrev blockBytes : Nat := 128

/-! ## ItemIDs -/

/-- `value & ((1 << 15) - 1)`. -/
def low15 (value : Int) : Nat := (value % 2 ^ 15).toNat

/-- `compose_item_id`. -/
def composeItemId (availability : Nat) (offset size : Int) : Nat :=
  ((availability &&& 1) <<< 30) ||| (low15 offset <<< 15) ||| low15 size

/-- `get_item_id_availability`. -/
def itemIdAvailability (itemId : Nat) : Nat := (itemId >>> 30) &&& 1

/-- `get_item_id_offset`. -/
def itemIdOffset (itemId : Nat) : Nat := (itemId >>> 15) &&& (2 ^ 15 - 1)

/-- `get_item_id_size`. -/
def itemIdSizeOf (itemId : Nat) : Nat := itemId &&& (2 ^ 15 - 1)

/-- The four bytes of an ItemID, least significant first. -/
def itemIdCells (itemId : Nat) : List Cell :=
  (List.range itemIdSize).map fun index => .byte (UInt8.ofNat (itemId / 256 ^ index))

/-- The ItemID that four cells spell. -/
def itemIdOfCells : List Cell → Option Nat
  | [] => some 0
  | .byte value :: rest => (itemIdOfCells rest).map fun high => value.toNat + 256 * high
  | _ => none

/-! ## Memory -/

/-- `memcpy` out of the page. -/
def readCells (block : Block) (offset : Int) (count : Nat) : Option (List Cell) :=
  if dataOffset ≤ offset ∧ offset + count ≤ blockBytes then
    some ((List.range count).map fun index => block.cell (offset.toNat + index))
  else none

/-- `memcpy` into the page. -/
def writeCells (block : Block) (offset : Int) (cells : List Cell) : Option Block :=
  if dataOffset ≤ offset ∧ offset + cells.length ≤ blockBytes then
    some { block with
      cell := fun place =>
        if offset.toNat ≤ place then (cells[place - offset.toNat]?).getD (block.cell place)
        else block.cell place }
  else none

/-- `get_item_id(block, idx)` read. -/
def getItemId (block : Block) (idx : Int) : Option Nat := do
  let cells ← block.readCells (dataOffset + itemIdSize * idx) itemIdSize
  itemIdOfCells cells

/-- `get_item_id(block, idx)` assigned. -/
def setItemId (block : Block) (idx : Int) (itemId : Nat) : Option Block :=
  block.writeCells (dataOffset + itemIdSize * idx) (itemIdCells itemId)

/-! ## Operations -/

/-- `init_block`. -/
def initBlock (block : Block) : Block :=
  { block with nItems := 0, headPtr := dataOffset, tailPtr := blockBytes }

/-- `get_item`: the offset of the item, or `none` inside for the `NULL` of its two error branches. -/
def getItem (block : Block) (idx : Int) : Option (Option Int) :=
  if idx < 0 ∨ block.nItems ≤ idx then some none
  else do
    let itemId ← block.getItemId idx
    if itemIdAvailability itemId ≠ 0 then return none
    return some (itemIdOffset itemId : Int)

/-- The loop of `new_item`: the first available index from `index` on. -/
def firstAvailable (block : Block) : Nat → Nat → Option (Option Nat)
  | 0, _ => some none
  | count + 1, index => do
      let itemId ← block.getItemId index
      if itemIdAvailability itemId ≠ 0 then return some index
      firstAvailable block count (index + 1)

/-- The ItemID and the bytes of a new item. -/
def placeItem (block : Block) (idx : Int) (item : List Cell) : Option Block := do
  let itemId := composeItemId 0 (block.tailPtr - item.length) item.length
  let named ← block.setItemId idx itemId
  let written ← named.writeCells (block.tailPtr - item.length) item
  return { written with tailPtr := block.tailPtr - item.length }

/-- `new_item`, with the index it returns. -/
def newItem (block : Block) (item : List Cell) : Option (Int × Block) := do
  match ← block.firstAvailable block.nItems.toNat 0 with
  | some index =>
      let placed ← block.placeItem index item
      return (index, placed)
  | none =>
      let placed ← block.placeItem block.nItems item
      return (block.nItems,
        { placed with nItems := block.nItems + 1, headPtr := block.headPtr + itemIdSize })

/-- The backward copy of `delete_item`: `cp_target[i] = cp_start[i]` for `i` below a count. -/
def slideCells (block : Block) (start target : Int) : Nat → Option Block
  | 0 => some block
  | count + 1 => do
      let cells ← block.readCells (start + count) 1
      let moved ← block.writeCells (target + count) cells
      slideCells moved start target count

/-- One round of the second loop of `delete_item`: an item below the deleted one has moved up. -/
def raiseOffset (itemOffset itemSize index : Nat) (block : Block) : Option Block := do
  let itemId ← block.getItemId index
  if itemIdAvailability itemId = 0 ∧ itemIdOffset itemId < itemOffset then
    block.setItemId index (composeItemId 0 (itemIdOffset itemId + itemSize) (itemIdSizeOf itemId))
  else return block

/-- The second loop of `delete_item`. -/
def raiseOffsets (itemOffset itemSize : Nat) : Nat → Nat → Block → Option Block
  | 0, _, block => some block
  | count + 1, index, block => do
      let raised ← raiseOffset itemOffset itemSize index block
      raiseOffsets itemOffset itemSize count (index + 1) raised

/-- The end of `delete_item`: the last ItemID is given back if it is available. -/
def trimLast (block : Block) : Option Block := do
  let last ← block.getItemId (block.nItems - 1)
  if itemIdAvailability last ≠ 0 then
    return { block with headPtr := block.headPtr - itemIdSize, nItems := block.nItems - 1 }
  return block

/-- `delete_item`. The loops over the ItemIDs end on `i != n_items`. -/
def deleteItem (block : Block) (idx : Int) : Option Block := do
  let itemId ← block.getItemId idx
  let size := itemIdSizeOf itemId
  let offset := itemIdOffset itemId
  let freed ← block.setItemId idx (composeItemId 1 offset size)
  let tail := block.tailPtr + size
  let slid ← { freed with tailPtr := tail }.slideCells (tail - size) tail
    (offset - tail + size : Int).toNat
  if slid.nItems < 0 then none
  else
    let raised ← raiseOffsets offset size slid.nItems.toNat 0 slid
    raised.trimLast

end Block

end MyJQL.Storage
