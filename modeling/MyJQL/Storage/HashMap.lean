import MyJQL.Storage.PageMap

/-!
# The free-space map (`hash_map.c`)

Every page of the free-space map is sixteen `off_t` words. The three structs
overlay them: the control block (words 0, 1, 2), a directory block (sixteen
directory entries) and a bucket block (`next`, `n_items`, fourteen addresses).
The overlay is kept, because the lower-bound scan reads one bucket page as a
directory block.

A `short` size is a natural number below `2 ^ 15`. The `while (1)` loops carry a
bound on their rounds, the number of directory slots or of pages of the file;
reaching the bound is `fail`, and the specifications show that it is not reached.
-/

namespace MyJQL.Storage.HashMap

open Library Library.Prog

/-- `HASH_MAP_DIR_BLOCK_SIZE`. -/
abbrev dirBlockSize : Nat := 16

/-- `HASH_MAP_BLOCK_SIZE`. -/
abbrev blockSize : Nat := 14

structure FsmPage where
  word : Nat → Int

namespace FsmPage

def set (page : FsmPage) (index : Nat) (value : Int) : FsmPage :=
  ⟨Function.update page.word index value⟩

/-! `HashMapControlBlock` -/

def freeBlockHead (page : FsmPage) : Int := page.word 0
def nDirectoryBlocks (page : FsmPage) : Int := page.word 1
def maxSize (page : FsmPage) : Int := page.word 2

/-! `HashMapDirectoryBlock` -/

def directory (page : FsmPage) (index : Nat) : Int := page.word index

/-! `HashMapBlock` -/

def next (page : FsmPage) : Int := page.word 0
def nItems (page : FsmPage) : Int := page.word 1
def table (page : FsmPage) (index : Nat) : Int := page.word (index + 2)

end FsmPage

instance : PageType FsmPage where
  emptyPage := ⟨fun _ => 0⟩

abbrev FsmProg (α : Type) := Prog (PageOp FsmPage) α

def getPage (addr : Int) : FsmProg Unit := perform (.getPage addr)
def release (addr : Int) : FsmProg Unit := perform (.release addr)
def load (addr : Int) : FsmProg FsmPage := perform (.load addr)
def store (addr : Int) (page : FsmPage) : FsmProg Unit := perform (.store addr page)
def fileLength : FsmProg Int := perform .fileLength
def setFileLength (length : Int) : FsmProg Unit := perform (.setFileLength length)

/-- An assignment through the pointer of a page. -/
def modify (addr : Int) (change : FsmPage → FsmPage) : FsmProg Unit := do
  let page ← load addr
  store addr (change page)

/-- `block->table[index] = value`; the table has `HASH_MAP_BLOCK_SIZE` entries. -/
def setTable (page : FsmPage) (index value : Int) : Option FsmPage :=
  if 0 ≤ index ∧ index < blockSize then some (page.set (index.toNat + 2) value) else none

/-- The address of the directory block of a size, `(size / HASH_MAP_DIR_BLOCK_SIZE + 1) * PAGE_SIZE`. -/
def dirAddrOf (size : Nat) : Int := ((size / dirBlockSize + 1 : Nat) : Int) * pageSize

/-- A `size_t` passed as a `short` and used again as a `size_t`. -/
def throughShort (value : Nat) : Nat :=
  if value % 2 ^ 16 < 2 ^ 15 then value % 2 ^ 16 else 2 ^ 64 - 2 ^ 16 + value % 2 ^ 16

/-- The loop of `hash_table_init` over the directory blocks, from block `first`. -/
def initDirectory : Nat → Nat → FsmProg Unit
  | _, 0 => return
  | first, count + 1 => do
      let initAddr := (first : Int) * pageSize
      getPage initAddr
      store initAddr ⟨fun _ => -1⟩
      release initAddr
      initDirectory (first + 1) count

/-- `hash_table_init` on the pool that `init_buffer_pool` has opened. -/
def hashTableInit (nDirectoryBlocks : Nat) : FsmProg Unit := do
  let length ← fileLength
  if length ≠ 0 then return
  initDirectory 1 nDirectoryBlocks
  getPage 0
  modify 0 fun ctrl => ctrl.set 0 (-1)
  modify 0 fun ctrl => ctrl.set 1 nDirectoryBlocks
  modify 0 fun ctrl => ctrl.set 2 (pageSize * (nDirectoryBlocks + 1))
  let ctrl ← load 0
  setFileLength ctrl.maxSize
  release 0

def hashTableInsert (size : Nat) (addr : Int) : FsmProg Unit := do
  let dirAddr := dirAddrOf size
  getPage dirAddr
  let dirBlock ← load dirAddr
  let cntAddr := dirBlock.directory (size % dirBlockSize)
  if cntAddr = -1 then
    getPage 0
    let ctrl ← load 0
    if ctrl.freeBlockHead ≠ -1 then
      getPage ctrl.freeBlockHead
      let freeAddr := ctrl.freeBlockHead
      modify dirAddr fun page => page.set (size % dirBlockSize) freeAddr
      let freeBlock ← load freeAddr
      modify 0 fun page => page.set 0 freeBlock.next
      modify freeAddr fun page => ((page.set 0 (-1)).set 1 1).set 2 addr
      release freeAddr
      release dirAddr
      release 0
    else
      let freeAddr := ctrl.maxSize
      modify dirAddr fun page => page.set (size % dirBlockSize) freeAddr
      getPage freeAddr
      modify freeAddr fun page => ((page.set 1 1).set 2 addr).set 0 (-1)
      modify 0 fun page => page.set 2 (page.maxSize + pageSize)
      release dirAddr
      release freeAddr
      release 0
  else
    getPage cntAddr
    let cntBlock ← load cntAddr
    if cntBlock.nItems ≠ blockSize then
      let filled ← ofOption (setTable cntBlock cntBlock.nItems addr)
      store cntAddr (filled.set 1 (filled.nItems + 1))
      release dirAddr
      release cntAddr
    else
      getPage 0
      let ctrl ← load 0
      let freeAddr := ctrl.maxSize
      getPage freeAddr
      modify freeAddr fun page => ((page.set 0 cntAddr).set 1 1).set 2 addr
      modify dirAddr fun page => page.set (size % dirBlockSize) freeAddr
      modify 0 fun page => page.set 2 (page.maxSize + pageSize)
      release cntAddr
      release freeAddr
      release 0
      release dirAddr

/--
The scan of `hash_table_pop` over one block: the last index at which `addr`
stands. The loop ends on `i != n_items`, so a count outside the table runs off it.
-/
def findTarget (block : FsmPage) (addr : Int) : Option (Option Nat) :=
  if 0 ≤ block.nItems ∧ block.nItems ≤ blockSize then
    some ((List.range block.nItems.toNat).foldl
      (fun target index => if block.table index = addr then some index else target) none)
  else none

/-- The shift of `hash_table_pop`: entries from `target + 1` up to `n_items` move down by one. -/
def shiftTable (block : FsmPage) (target : Nat) : Nat → FsmPage
  | 0 => block
  | count + 1 => shiftTable (block.set (target + 2) (block.table (target + 1))) (target + 1) count

def hashTablePopLoop (size : Nat) (addr : Int) : Nat → Int → Int → FsmProg Unit
  | 0, _, _ => .fail
  | rounds + 1, cntAddr, preAddr => do
      getPage cntAddr
      let cntBlock ← load cntAddr
      let nxtAddr := cntBlock.next
      match ← ofOption (findTarget cntBlock addr) with
      | none =>
          release cntAddr
          hashTablePopLoop size addr rounds nxtAddr cntAddr
      | some target =>
          let nItems := cntBlock.nItems
          if nItems > 1 then
            let shifted := shiftTable cntBlock target (nItems.toNat - (target + 1))
            let shorter := shifted.set 1 (nItems - 1)
            let cleared ← ofOption (setTable shorter (nItems - 1) 0)
            store cntAddr cleared
            release cntAddr
          else if preAddr = cntAddr then
            getPage (dirAddrOf size)
            modify (dirAddrOf size) fun page => page.set (size % dirBlockSize) cntBlock.next
            getPage 0
            let ctrl ← load 0
            let freeBlockPtr := ctrl.freeBlockHead
            modify cntAddr fun page => ((page.set 1 0).set 2 0).set 0 freeBlockPtr
            modify 0 fun page => page.set 0 cntAddr
            release (dirAddrOf size)
            release cntAddr
            release 0
          else
            getPage preAddr
            modify preAddr fun page => page.set 0 cntBlock.next
            getPage 0
            let ctrl ← load 0
            let freeBlockPtr := ctrl.freeBlockHead
            modify cntAddr fun page => ((page.set 1 0).set 2 0).set 0 freeBlockPtr
            modify 0 fun page => page.set 0 cntAddr
            release preAddr
            release cntAddr
            release 0

def hashTablePop (size : Nat) (addr : Int) : FsmProg Unit := do
  getPage (dirAddrOf size)
  let dirBlock ← load (dirAddrOf size)
  let cntAddr := dirBlock.directory (size % dirBlockSize)
  release (dirAddrOf size)
  let length ← fileLength
  hashTablePopLoop size addr length.toNat cntAddr cntAddr

/-- The directory position a scan stands at. -/
def scanPosition (dirAddr : Int) (counter : Nat) : Nat :=
  (dirAddr / pageSize - 1).toNat * dirBlockSize + counter

/--
The scan of `hash_table_pop_lower_bound`. It leaves the page it stopped at
pinned when it stopped on a used entry, and released when it ran past the
directory.
-/
def scanDirectory (nDirectoryBlocks : Nat) : Nat → Int → Nat → FsmProg (Int × Nat)
  | 0, _, _ => .fail
  | rounds + 1, dirAddr, counter => do
      let dirBlock ← load dirAddr
      if dirBlock.directory counter ≠ -1 then return (dirAddr, counter)
      if scanPosition dirAddr counter ≥ nDirectoryBlocks * dirBlockSize then
        release dirAddr
        return (dirAddr, counter)
      release dirAddr
      let (dirAddr, counter) :=
        if counter + 1 = dirBlockSize then (dirAddr + pageSize, 0) else (dirAddr, counter + 1)
      getPage dirAddr
      scanDirectory nDirectoryBlocks rounds dirAddr counter

def hashTablePopLowerBound (size : Nat) : FsmProg Int := do
  getPage 0
  let ctrl ← load 0
  let nDirectoryBlocks := ctrl.nDirectoryBlocks.toNat
  release 0
  getPage (dirAddrOf size)
  let (dirAddr, counter) ←
    scanDirectory nDirectoryBlocks (nDirectoryBlocks * dirBlockSize + 1) (dirAddrOf size)
      (size % dirBlockSize)
  if scanPosition dirAddr counter ≠ nDirectoryBlocks * dirBlockSize then
    let dirBlock ← load dirAddr
    let mapBlockAddr := dirBlock.directory counter
    getPage mapBlockAddr
    let mapBlock ← load mapBlockAddr
    let addr := mapBlock.table 0
    release dirAddr
    release mapBlockAddr
    hashTablePop (throughShort (scanPosition dirAddr counter)) addr
    return addr
  release dirAddr
  return -1

end MyJQL.Storage.HashMap
