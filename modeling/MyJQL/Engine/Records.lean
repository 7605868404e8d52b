import MyJQL.Strings.StringRuns

/-!
# Records, comparators and separator handlers (`myjql.c`)

A `Record` is the RIDs of a key and a value, twenty bytes in `tbl_rec`; the strings
are in `tbl_str`. The B-tree compares records through these functions and makes and
destroys its separators through the two handlers.
-/

namespace MyJQL.Engine

open Library Library.Prog Storage Strings

/-- Calls on `tbl_rec` (left) and `tbl_str` (right). -/
abbrev TablesOp : Type → Type := SumOp TableOp TableOp

abbrev TablesProg (α : Type) := Prog TablesOp α

def onRec {α : Type} (program : ItemProg α) : TablesProg α := onLeft program

def onStr {α : Type} (program : ItemProg α) : TablesProg α := onRight program

/-- `sizeof(Record)`. -/
abbrev recordSize : Nat := 20

/-- The twenty bytes of a record. -/
abbrev Record : Type := List Cell

namespace Record

/-- The record with this key and value. -/
def make (key value : RID) : Record := ridCells key ++ ridCells value

def key (record : Record) : Option RID := ridOfCells (List.take ridSize record)

def value (record : Record) : Option RID := ridOfCells (List.take ridSize (List.drop ridSize record))

/-- `record.value = value`. -/
def setValue (record : Record) (value : RID) : Record := List.take ridSize record ++ ridCells value

end Record

/-- `read_record` into a record that has not been assigned. -/
def readRecord (rid : RID) : ItemProg Record := readInto rid (uninitialised recordSize)

/-- `write_record`. -/
def writeRecord (record : Record) : ItemProg RID := perform (.insert (List.take recordSize record))

/-- `delete_record`. -/
def deleteRecord (rid : RID) : ItemProg Unit := perform (.delete rid)

/-- The `StringRecord` of the key of a record. -/
def readKey (rid : RID) : TablesProg StringRecord := do
  let record ← onRec (readRecord rid)
  let key ← ofOption (Record.key record)
  onStr (readString key)

def rowRowCmp (rid1 rid2 : RID) : TablesProg Int := do
  let strRecord1 ← readKey rid1
  let strRecord2 ← readKey rid2
  let size1 ← ofOption (getStrChunkSize strRecord1.chunk)
  if size1 = 0 then return -1
  let size2 ← ofOption (getStrChunkSize strRecord2.chunk)
  if size2 = 0 then return 1
  let length ← onStr (perform .dataLength)
  onStr (compareChars (length.toNat + 1) strRecord1 strRecord2)

/-- The loop of `ptr_row_cmp` over the rest of the key, and the tests after it. -/
def ptrRowChars : List UInt8 → StringRecord → ItemProg Int
  | [], record => do
      let more ← ofOption (hasNextChar record)
      if more then return -1
      return 0
  | a :: key, record => do
      let more ← ofOption (hasNextChar record)
      if more then
        let (b, record') ← nextChar record
        if a ≠ b then return if charValue a > charValue b then 1 else -1
        ptrRowChars key record'
      else return 1

/-- `ptr_row_cmp` of a key of `key.length` bytes. -/
def ptrRowCmp (key : List UInt8) (rid : RID) : TablesProg Int := do
  let strRecord ← readKey rid
  let size ← ofOption (getStrChunkSize strRecord.chunk)
  if size = 0 then return 1
  onStr (ptrRowChars key strRecord)

/-- The first loop of `insert_handler`: the chunks of the key, the last one in front. -/
def collectChunks : Nat → RID → List RID → ItemProg (List RID)
  | 0, _, _ => .fail
  | rounds + 1, chunkRid, front => do
      if chunkRid.blockAddr = -1 then return front
      let tmp ← readInto chunkRid (uninitialised strChunkMaxSize)
      let next ← ofOption (getStrChunkRid tmp)
      if next.blockAddr = -1 then return chunkRid :: front
      collectChunks rounds next (chunkRid :: front)

/--
The second loop of `insert_handler`: `newChunk` is stored, and the chunk before it
is read over it and linked to the copy. The list is what stands behind `ptr_chunk`.
-/
def copyChunks : List RID → StringChunk → Int → ItemProg RID
  | [], newChunk, size => perform (.insert (newChunk.take size.toNat))
  | front :: rest, newChunk, size => do
      let nxtChunk ← perform (.insert (newChunk.take size.toNat))
      let chunk ← readInto front newChunk
      copyChunks rest (setStrChunkRid chunk nxtChunk) strChunkMaxSize

/-- The copy of a key that `insert_handler` makes. -/
def copyString (rid : RID) : ItemProg RID := do
  let length ← perform .dataLength
  match ← collectChunks (length.toNat + 1) rid [] with
  | [] => .fail
  | front :: rest =>
      let newChunk ← readInto front (uninitialised strChunkMaxSize)
      let size ← ofOption (getStrChunkSize newChunk)
      copyChunks rest newChunk (calcStrChunkSize size)

def insertHandler (rid : RID) : TablesProg RID := do
  let record ← onRec (readRecord rid)
  let key ← ofOption (Record.key record)
  let nxtChunk ← onStr (copyString key)
  onRec (writeRecord (Record.make nxtChunk nullRid))

def deleteHandler (rid : RID) : TablesProg Unit := do
  let record ← onRec (readRecord rid)
  let key ← ofOption (Record.key record)
  onStr (deleteString key)
  let value ← ofOption (Record.value record)
  onStr (deleteString value)
  onRec (deleteRecord rid)

end MyJQL.Engine
