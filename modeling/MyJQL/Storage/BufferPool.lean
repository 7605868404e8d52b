import MyJQL.Storage.PageMap

/-!
# The buffer pool (`file_io.c`, `buffer_pool.c`)

All accesses to a file are whole pages at page addresses, so the bytes behind
`fp` are a list of pages; writing past its end fills the hole with zero pages,
and reading past its end is a short `fread`. `file.length` is kept apart: the
pool raises it before anything is written.

`cnt` and `ref` are `size_t` and wrap. A page pointer is the index of its slot.
`none` is undefined behaviour: `get_page` with no free slot runs off its array
of candidates, and a failed read falls off the end of the function.
-/

namespace MyJQL.Storage

open Library

variable {P : Type}

/-- `Page`, a placeholder of `PAGE_SIZE` bytes. -/
abbrev Page : Type := Fin 128 → UInt8

instance : PageType Page where
  emptyPage _ := 0

structure FileInfo (P : Type) where
  disk : List P
  length : Int

inductive FileIOResult where
  | success
  | failed
  | invalidLen
  | invalidAddr
  | addrOutOfRange
  deriving DecidableEq, Repr

namespace FileInfo

/-- `fseek` and `fwrite` of one page. -/
def writeDisk [PageType P] (disk : List P) (index : Nat) (page : P) : List P :=
  if index < disk.length then disk.set index page
  else disk ++ List.replicate (index - disk.length) emptyPage ++ [page]

/-- `open_file`, with the offset that `ftell` reports at the end of the file. -/
def openFile (disk : List P) : FileInfo P := ⟨disk, disk.length * pageSize⟩

/-- `read_page`: the page on success, the result code otherwise. -/
def readPage (file : FileInfo P) (addr : Int) : Except FileIOResult P :=
  if addr % pageSize ≠ 0 then .error .invalidAddr
  else if addr < 0 ∨ file.length ≤ addr then .error .addrOutOfRange
  else
    match file.disk[(addr / pageSize).toNat]? with
    | some page => .ok page
    | none => .error .failed

/-- `write_page`. -/
def writePage [PageType P] (page : P) (file : FileInfo P) (addr : Int) :
    FileIOResult × FileInfo P :=
  if addr % pageSize ≠ 0 then (.invalidAddr, file)
  else if addr < 0 ∨ file.length < addr then (.addrOutOfRange, file)
  else
    (.success, {
      disk := writeDisk file.disk (addr / pageSize).toNat page
      length := if addr = file.length then file.length + pageSize else file.length })

end FileInfo

abbrev Slot : Type := Fin cachePage

structure BufferPool (P : Type) where
  file : FileInfo P
  pages : Slot → P
  addrs : Slot → Int
  cnt : Slot → UInt64
  ref : Slot → UInt64

namespace BufferPool

/-- The value `-1` of a `size_t`, the count of a slot never used. -/
abbrev unusedCnt : UInt64 := 18446744073709551615

/-- `init_buffer_pool`; the pages keep what the struct held before. -/
def initBufferPool (disk : List P) (pages : Slot → P) : BufferPool P where
  file := .openFile disk
  pages := pages
  addrs _ := -1
  cnt _ := unusedCnt
  ref _ := 0

/-- One round of `close_buffer_pool`. -/
def closeSlot [PageType P] (pool : BufferPool P) (slot : Slot) : BufferPool P where
  file := (FileInfo.writePage (pool.pages slot) pool.file (pool.addrs slot)).2
  pages := pool.pages
  addrs := Function.update pool.addrs slot 0
  cnt := Function.update pool.cnt slot 0
  ref := Function.update pool.ref slot 0

/-- `close_buffer_pool`. -/
def closeBufferPool [PageType P] (pool : BufferPool P) : BufferPool P :=
  (List.finRange cachePage).foldl closeSlot pool

/-- The first slot that holds an address. -/
def findSlot (pool : BufferPool P) (addr : Int) : Option Slot :=
  (List.finRange cachePage).find? fun slot => pool.addrs slot = addr

/-- The slots that may be reassigned, `changeable_page`. -/
def changeable (pool : BufferPool P) : List Slot :=
  (List.finRange cachePage).filter fun slot => pool.ref slot = 0

/-- The slot to reassign: the first with the least count among the changeable ones. -/
def chooseTarget (pool : BufferPool P) : Option Slot :=
  match pool.changeable with
  | [] => none
  | first :: rest =>
      some (rest.foldl (fun target slot =>
        if pool.cnt target > pool.cnt slot then slot else target) first)

/-- `get_page` when a slot holds the address. -/
def hit (pool : BufferPool P) (slot : Slot) : BufferPool P :=
  { pool with
    cnt := Function.update pool.cnt slot (pool.cnt slot + 1)
    ref := Function.update pool.ref slot (pool.ref slot + 1) }

/-- The slot `target` taken over for a page, with the counts reset. -/
def install (pool : BufferPool P) (target : Slot) (addr : Int) (page : P) (length : Int) :
    BufferPool P where
  file := { pool.file with length := length }
  pages := Function.update pool.pages target page
  addrs := Function.update pool.addrs target addr
  cnt := Function.update
    (fun slot => if pool.cnt slot ≠ unusedCnt then 0 else pool.cnt slot) target 1
  ref := Function.update pool.ref target 1

/-- The page of a slot written back, unless the slot was never used. -/
def writeBack [PageType P] (pool : BufferPool P) (target : Slot) : BufferPool P :=
  if pool.cnt target ≠ unusedCnt then
    { pool with file := (FileInfo.writePage (pool.pages target) pool.file (pool.addrs target)).2 }
  else pool

/-- `get_page` when no slot holds the address. -/
def miss [PageType P] (pool : BufferPool P) (target : Slot) (addr : Int) : Option (BufferPool P) :=
  let written := pool.writeBack target
  match written.file.readPage addr with
  | .ok page => some (written.install target addr page written.file.length)
  | .error code =>
      if code = .addrOutOfRange ∧ 0 ≤ addr then
        some (written.install target addr emptyPage (addr + pageSize))
      else none

/-- `get_page`, with the slot whose pointer it returns. -/
def getPage [PageType P] (pool : BufferPool P) (addr : Int) : Option (Slot × BufferPool P) :=
  match pool.findSlot addr with
  | some slot => some (slot, pool.hit slot)
  | none => do
      let target ← pool.chooseTarget
      let after ← pool.miss target addr
      return (target, after)

/-- `release`: the first slot that holds the address. -/
def release (pool : BufferPool P) (addr : Int) : BufferPool P :=
  match pool.findSlot addr with
  | some slot => { pool with ref := Function.update pool.ref slot (pool.ref slot - 1) }
  | none => pool

/-- A write through the pointer of a slot. -/
def writeSlot (pool : BufferPool P) (slot : Slot) (page : P) : BufferPool P :=
  { pool with pages := Function.update pool.pages slot page }

end BufferPool

/-- A pool with the pointers its callers hold, by the address they asked for. -/
structure Held (P : Type) where
  pool : BufferPool P
  ptr : Int → Option Slot

/-- The pool meaning of the page interface. -/
def poolMeaning (P : Type) [PageType P] : Meaning (PageOp P) (Held P)
  | _, .getPage addr, held =>
      (held.pool.getPage addr).map fun result =>
        ((), ⟨result.2, Function.update held.ptr addr (some result.1)⟩)
  | _, .release addr, held => some ((), ⟨held.pool.release addr, held.ptr⟩)
  | _, .load addr, held => (held.ptr addr).map fun slot => (held.pool.pages slot, held)
  | _, .store addr page, held =>
      (held.ptr addr).map fun slot => ((), ⟨held.pool.writeSlot slot page, held.ptr⟩)
  | _, .fileLength, held => some (held.pool.file.length, held)
  | _, .setFileLength length, held =>
      some ((), ⟨{ held.pool with file := { held.pool.file with length := length } }, held.ptr⟩)

end MyJQL.Storage
