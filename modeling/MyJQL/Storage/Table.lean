import MyJQL.Library.Signature
import MyJQL.Storage.BlockSpec
import MyJQL.Storage.HashMapRuns

/-!
# Tables (`table.c`)

A table is a file of data blocks and its free-space map. Its programs are written
over both page interfaces. The state of a table is the pair of its page maps.
-/

namespace MyJQL.Storage

open Library Library.Prog HashMap

/-- The page operations of the two pools of a table. -/
abbrev TablePageOp : Type → Type := SumOp (PageOp Block) (PageOp FsmPage)

abbrev TableProg (α : Type) := Prog TablePageOp α

/-- The two page maps of a table, `data_pool` and `fsm_pool`. -/
abbrev TableMaps : Type := PageMap Block × PageMap FsmPage

namespace Table

/-- One operation on the data pool. -/
def onData {α : Type} (effect : PageOp Block α) : TableProg α := onLeft (perform effect)

/-- A call on the free-space map. -/
def onFsm {α : Type} (program : FsmProg α) : TableProg α := onRight program

/-- `PAGE_SIZE / HASH_MAP_DIR_BLOCK_SIZE`, the directory blocks of the free-space map of a table. -/
abbrev nDirectoryBlocks : Nat := 8

/-- `sizeof(ItemID)`. -/
abbrev itemIdSize : Nat := Block.itemIdSize

/-- The free space of a block as the `short` passed to the free-space map. -/
def freeSize (block : Block) : Option Nat :=
  if 0 ≤ block.tailPtr - block.headPtr ∧ block.tailPtr - block.headPtr < 2 ^ 15 then
    some (block.tailPtr - block.headPtr).toNat
  else none

/-- `table_init`, once the pools are open. -/
def tableInit : TableProg Unit := onFsm (hashTableInit nDirectoryBlocks)

/-- `table_read`, with the bytes it copies. A `NULL` item pointer is undefined behaviour. -/
def tableRead (rid : RID) : TableProg (List Cell) := do
  onData (.getPage rid.blockAddr)
  let block ← onData (.load rid.blockAddr)
  let itemId ← ofOption (block.getItemId rid.idx)
  match ← ofOption (block.getItem rid.idx) with
  | none => .fail
  | some offset =>
      let item ← ofOption (block.readCells offset (Block.itemIdSizeOf itemId))
      onData (.release rid.blockAddr)
      return item

/-- The part of `table_insert` after the block has been found or made. -/
def insertInto (addr finalAddr : Int) (src : List Cell) : TableProg RID := do
  let block ← onData (.load addr)
  let (idx, filled) ← ofOption (block.newItem src)
  onData (.store addr filled)
  let finalSize ← ofOption (freeSize filled)
  onFsm (hashTableInsert finalSize finalAddr)
  onData (.release finalAddr)
  return ⟨finalAddr, idx⟩

/-- `table_insert` of `src`, of size `src.length`. -/
def tableInsert (src : List Cell) : TableProg RID := do
  let addr ← onFsm (hashTablePopLowerBound (src.length + itemIdSize))
  if addr = -1 then
    let newAddr ← onData .fileLength
    onData (.getPage newAddr)
    let block ← onData (.load newAddr)
    onData (.store newAddr block.initBlock)
    let length ← onData .fileLength
    insertInto newAddr (length - pageSize) src
  else
    onData (.getPage addr)
    insertInto addr addr src

/-- `table_delete`. -/
def tableDelete (rid : RID) : TableProg Unit := do
  onData (.getPage rid.blockAddr)
  let block ← onData (.load rid.blockAddr)
  let targetSize ← ofOption (freeSize block)
  onFsm (hashTablePop targetSize rid.blockAddr)
  let shorter ← ofOption (block.deleteItem rid.idx)
  onData (.store rid.blockAddr shorter)
  let targetSize ← ofOption (freeSize shorter)
  onFsm (hashTableInsert targetSize rid.blockAddr)
  onData (.release rid.blockAddr)

/-- The page-map meaning of the two pools. -/
def tablePages : Meaning TablePageOp TableMaps := (mapMeaning Block).sum (mapMeaning FsmPage)

end Table

end MyJQL.Storage
