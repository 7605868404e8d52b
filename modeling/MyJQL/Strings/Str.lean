import MyJQL.Storage.TableHeap

/-!
# Chunked strings (`str.c`)

A string is a chain of chunks in a table. A `StringChunk` is 32 bytes: the RID of
the next chunk, the length of this one as a `short`, and up to twenty characters.
A local `StringChunk` starts out undefined, and `table_read` copies an item over its
first bytes; an item longer than its destination is undefined behaviour.

The loops that follow a chain carry a bound on their rounds, the bytes of the data
file; reaching the bound is `fail`, and the specifications show that it is not
reached. `char` is signed, as on the platforms the code is built for.
-/

namespace MyJQL.Strings

open Library Library.Prog Storage

abbrev ItemProg (α : Type) := Prog TableOp α

/-- `STR_CHUNK_MAX_SIZE`, that is `sizeof(StringChunk)`. -/
abbrev strChunkMaxSize : Nat := 32

/-- `STR_CHUNK_MAX_SIZE - sizeof(RID) - sizeof(short)`. -/
abbrev strChunkMaxLen : Nat := 20

/-- `sizeof(RID)`. -/
abbrev ridSize : Nat := 10

/-- Where the characters of a chunk start, after the RID and the `short`. -/
abbrev strChunkData : Nat := 12

/-- The RID `(-1, -1)` that ends a chain. -/
def nullRid : RID := ⟨-1, -1⟩

/-- A value converted to `short`. -/
def toShort (value : Int) : Int := (value + 2 ^ 15) % 2 ^ 16 - 2 ^ 15

/-- A value converted to `size_t`. -/
def toSizeT (value : Int) : Int := value % 2 ^ 64

/-- The value of a character. -/
def charValue (char : UInt8) : Int := if char.toNat < 128 then char.toNat else char.toNat - 256

/-! ## Memory -/

/-- The ten bytes of a RID. -/
def ridCells (rid : RID) : List Cell := (List.finRange ridSize).map (Cell.rid rid)

/-- The RID that ten bytes spell. -/
def ridOfCells (cells : List Cell) : Option RID :=
  match cells with
  | .rid rid _ :: _ => if cells = ridCells rid then some rid else none
  | _ => none

/-- The two bytes of a `short`, least significant first. -/
def shortCells (value : Int) : List Cell :=
  [.byte (UInt8.ofNat (value % 2 ^ 16).toNat), .byte (UInt8.ofNat ((value % 2 ^ 16).toNat / 256))]

/-- The `short` that two bytes spell. -/
def shortOfCells (cells : List Cell) : Option Int :=
  match cells with
  | [.byte low, .byte high] => some (toShort (low.toNat + 256 * high.toNat))
  | _ => none

/-- A variable that has not been assigned. -/
def uninitialised (size : Nat) : List Cell := List.replicate size Cell.undef

/-- `table_read` of an item into a variable. -/
def readInto (rid : RID) (dest : List Cell) : ItemProg (List Cell) := do
  let item ← perform (.read rid)
  if item.length ≤ dest.length then return item ++ dest.drop item.length
  else .fail

/-! ## `StringChunk` -/

abbrev StringChunk : Type := List Cell

def getStrChunkRid (chunk : StringChunk) : Option RID := ridOfCells (chunk.take ridSize)

def setStrChunkRid (chunk : StringChunk) (rid : RID) : StringChunk := ridCells rid ++ chunk.drop ridSize

def getStrChunkSize (chunk : StringChunk) : Option Int :=
  shortOfCells ((chunk.drop ridSize).take 2)

def setStrChunkSize (chunk : StringChunk) (size : Int) : StringChunk :=
  chunk.take ridSize ++ (shortCells size ++ chunk.drop strChunkData)

/-- `get_str_chunk_data_ptr(chunk)[index]`, a character. -/
def getStrChunkData (chunk : StringChunk) (index : Int) : Option UInt8 :=
  if 0 ≤ index then
    match chunk[strChunkData + index.toNat]? with
    | some (.byte value) => some value
    | _ => none
  else none

/-- `get_str_chunk_data_ptr(chunk)[index] = value`. -/
def setStrChunkData (chunk : StringChunk) (index : Nat) (value : UInt8) : Option StringChunk :=
  if strChunkData + index < chunk.length then some (chunk.set (strChunkData + index) (.byte value))
  else none

/-- `calc_str_chunk_size(len)`. -/
def calcStrChunkSize (len : Int) : Int := len + strChunkData

/-! ## Reading a string -/

structure StringRecord where
  chunk : StringChunk
  idx : Int

/-- `read_string` into a record that has not been assigned. -/
def readString (rid : RID) : ItemProg StringRecord := do
  let chunk ← readInto rid (uninitialised strChunkMaxSize)
  return ⟨chunk, 0⟩

def hasNextChar (record : StringRecord) : Option Bool := do
  let size ← getStrChunkSize record.chunk
  if size ≠ record.idx then return true
  let rid ← getStrChunkRid record.chunk
  if rid.idx = -1 then return false
  return true

/-- `next_char`, with the record it advances. -/
def nextChar (record : StringRecord) : ItemProg (UInt8 × StringRecord) := do
  let size ← ofOption (getStrChunkSize record.chunk)
  if size ≠ record.idx then
    let char ← ofOption (getStrChunkData record.chunk record.idx)
    return (char, ⟨record.chunk, record.idx + 1⟩)
  else
    let rid ← ofOption (getStrChunkRid record.chunk)
    if rid.idx = -1 then return (0, record)
    else
      let chunk ← readInto rid record.chunk
      let char ← ofOption (getStrChunkData chunk 0)
      return (char, ⟨chunk, 1⟩)

/--
The loop over two strings and the tests after it, as `compare_string_record` and
`row_row_cmp` have them.
-/
def compareChars : Nat → StringRecord → StringRecord → ItemProg Int
  | 0, _, _ => .fail
  | rounds + 1, first, second => do
      let firstMore ← ofOption (hasNextChar first)
      let secondMore ← ofOption (hasNextChar second)
      if firstMore ∧ secondMore then
        let (a, first') ← nextChar first
        let (b, second') ← nextChar second
        if a ≠ b then return if charValue a > charValue b then 1 else -1
        compareChars rounds first' second'
      else if ¬ firstMore ∧ secondMore then return -1
      else if firstMore ∧ ¬ secondMore then return 1
      else return 0

/-- `compare_string_record`. -/
def compareStringRecord (first second : StringRecord) : ItemProg Int := do
  let firstSize ← ofOption (getStrChunkSize first.chunk)
  let secondSize ← ofOption (getStrChunkSize second.chunk)
  if firstSize = 0 then return -1
  if secondSize = 0 then return 1
  let length ← perform .dataLength
  compareChars (length.toNat + 1) first second

/-- The loop of `load_string` and the terminator after it: the count and the bytes written to `dest`. -/
def loadChars (maxSize : Nat) : Nat → Nat → StringRecord → List UInt8 → ItemProg (Nat × List UInt8)
  | 0, _, _, _ => .fail
  | rounds + 1, size, record, dest => do
      let more ← ofOption (hasNextChar record)
      if more ∧ size < maxSize then
        let (char, record') ← nextChar record
        loadChars maxSize rounds (size + 1) record' (dest ++ [char])
      else if size < maxSize then return (size, dest ++ [0])
      else return (size, dest)

/-- `load_string`: the count it returns and the bytes it writes to `dest`, from the first on. -/
def loadString (record : StringRecord) (maxSize : Nat) : ItemProg (Nat × List UInt8) := do
  let length ← perform .dataLength
  loadChars maxSize (length.toNat + 1) 0 record []

/-! ## Writing and deleting a string -/

/-- `data[index]` of a buffer. -/
def dataAt (data : List UInt8) (index : Int) : Option UInt8 :=
  if 0 ≤ index then data[index.toNat]? else none

/-- `for (i = 0; i != count; i++) get_str_chunk_data_ptr(chunk)[i] = data[start + i]`. -/
def copyData (data : List UInt8) (start : Int) : Nat → Nat → StringChunk → Option StringChunk
  | 0, _, chunk => some chunk
  | count + 1, index, chunk => do
      let value ← dataAt data (start + index)
      let written ← setStrChunkData chunk index value
      copyData data start count (index + 1) written

/-- `extra_len`, the length of the last chunk. -/
def extraLen (size : Int) : Int :=
  let rest := toShort (toSizeT size % strChunkMaxLen)
  if rest = 0 then strChunkMaxLen else rest

/-- `(size - extra_len) / (STR_CHUNK_MAX_SIZE - sizeof(RID) - sizeof(short))`, before its conversion. -/
def chunkCount (size : Int) : Int := toSizeT (size - extraLen size) / strChunkMaxLen

/-- `sum`, the number of chunks before the last. -/
def chunkSum (size : Int) : Int := toShort (chunkCount size)

/-- A chunk with its link and length assigned. -/
def newChunk (rid : RID) (len : Int) : StringChunk :=
  setStrChunkSize (setStrChunkRid (uninitialised strChunkMaxSize) rid) len

/-- The loop over the chunks before the last, from the last of them to the first. -/
def writeChunks (data : List UInt8) : Nat → RID → ItemProg RID
  | 0, rid => return rid
  | k + 1, rid => do
      let chunk ← ofOption (copyData data (k * strChunkMaxLen : Nat) strChunkMaxLen 0
        (newChunk rid strChunkMaxLen))
      let rid' ← perform (.insert chunk)
      writeChunks data k rid'

/-- `write_string` of a buffer `data` with the length `size`. -/
@[irreducible]
def writeString (data : List UInt8) (size : Int) : ItemProg RID := do
  let tail ← ofOption (copyData data (size - extraLen size) (extraLen size).toNat 0
    (newChunk nullRid (extraLen size)))
  let rid ← perform (.insert (tail.take (calcStrChunkSize (extraLen size)).toNat))
  writeChunks data (chunkSum size).toNat rid

/-- The loop of `delete_string`. -/
def deleteChunks : Nat → RID → ItemProg Unit
  | 0, _ => .fail
  | rounds + 1, rid => do
      if rid.idx = -1 then return
      let chunk ← readInto rid (uninitialised strChunkMaxSize)
      perform (.delete rid)
      let next ← ofOption (getStrChunkRid chunk)
      deleteChunks rounds next

/-- `delete_string`. -/
def deleteString (rid : RID) : ItemProg Unit := do
  let length ← perform .dataLength
  deleteChunks (length.toNat + 1) rid

end MyJQL.Strings
