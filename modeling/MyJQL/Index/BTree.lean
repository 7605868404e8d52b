import MyJQL.Index.Node
import MyJQL.Library.Signature

/-!
# The B-tree (`b_tree.c`)

The index calls the comparators and the separator handlers through function pointers;
here they are effects beside those of the pages. Between two calls the code works on what
stands behind its pointers, and each stretch of it is one load of a page, or one store:
after a call of the buffer pool, a comparator or a handler a page is loaded again, and what
was written to it is stored before its release. A write to a page that stays fetched may stand
on the other side of a call of a comparator or a handler, which sees no page of the index.

The recursion carries a bound on its depth, the length of the file; reaching the bound is
`fail`, and the specifications show that it is not reached.
-/

namespace MyJQL.Index

open Library Library.Prog Storage

/-- The calls through function pointers; `Q` is the type of a key given by pointer. -/
inductive EnvOp (Q : Type) : Type → Type where
  | rowRowCmp (rid1 rid2 : RID) : EnvOp Q Int
  | ptrRowCmp (key : Q) (rid : RID) : EnvOp Q Int
  | insertHandler (rid : RID) : EnvOp Q RID
  | deleteHandler (rid : RID) : EnvOp Q Unit

abbrev TreeOp (Q : Type) : Type → Type := SumOp (PageOp IndexPage) (EnvOp Q)

abbrev TreeProg (Q α : Type) := Prog (TreeOp Q) α

variable {Q : Type}

def getPage (addr : Int) : TreeProg Q Unit := perform (.left (.getPage addr))
def release (addr : Int) : TreeProg Q Unit := perform (.left (.release addr))
def load (addr : Int) : TreeProg Q IndexPage := perform (.left (.load addr))
def store (addr : Int) (page : IndexPage) : TreeProg Q Unit := perform (.left (.store addr page))
def fileLength : TreeProg Q Int := perform (.left .fileLength)

def rowRowCmp (rid1 rid2 : RID) : TreeProg Q Int := perform (.right (.rowRowCmp rid1 rid2))
def ptrRowCmp (key : Q) (rid : RID) : TreeProg Q Int := perform (.right (.ptrRowCmp key rid))
def insertHandler (rid : RID) : TreeProg Q RID := perform (.right (.insertHandler rid))
def deleteHandler (rid : RID) : TreeProg Q Unit := perform (.right (.deleteHandler rid))

/-- What stands behind the pointer to a node. -/
def readNode (addr : Int) : TreeProg Q BNode := do
  let page ← load addr
  ofOption page.asNode

/-- `(BNode*)get_page(pool, addr)`, and what stands behind the pointer then. -/
def getNode (addr : Int) : TreeProg Q BNode := do
  getPage addr
  readNode addr

/-- What is written through the pointer to a node. -/
def writeNode (addr : Int) (node : BNode) : TreeProg Q Unit := store addr (.node node)

/-- What is written through the pointer to a node, and `release(pool, addr)`. -/
def putNode (addr : Int) (node : BNode) : TreeProg Q Unit := do
  writeNode addr node
  release addr

/-- The control block, through its pointer. -/
def loadCtrl : TreeProg Q BCtrlBlock := do
  let page ← load 0
  ofOption page.asCtrl

def storeCtrl (ctrl : BCtrlBlock) : TreeProg Q Unit := store 0 (.ctrl ctrl)

/-- A node from the free list, or a new page. The control block has been fetched. -/
def takeNode : TreeProg Q Int := do
  let ctrl ← loadCtrl
  if ctrl.freeNodeHead ≠ -1 then
    let addr := ctrl.freeNodeHead
    let node ← getNode addr
    let ctrl ← loadCtrl
    storeCtrl { ctrl with freeNodeHead := node.next }
    return addr
  else
    let addr ← fileLength
    getPage addr
    return addr

/-- `ctrl->root_node = addr`. -/
def setRoot (addr : Int) : TreeProg Q Unit := do
  getPage 0
  let ctrl ← loadCtrl
  storeCtrl { ctrl with rootNode := addr }
  release 0

/-- A node that has been fetched is put in front of the free list. -/
def freeNode (addr : Int) : TreeProg Q Unit := do
  getPage 0
  let ctrl ← loadCtrl
  let node ← readNode addr
  writeNode addr { node with n := 0, next := ctrl.freeNodeHead }
  storeCtrl { ctrl with freeNodeHead := addr }
  release 0
  release addr

/-- A root without entries is put in front of the free list, and what it says takes its place. -/
def freeRoot (addr : Int) (root : BNode → Option Int) : TreeProg Q Unit := do
  getPage 0
  let ctrl ← loadCtrl
  let node ← readNode addr
  writeNode addr { node with next := ctrl.freeNodeHead }
  storeCtrl { ctrl with freeNodeHead := addr }
  let ctrl ← loadCtrl
  let root ← ofOption (root node)
  storeCtrl { ctrl with rootNode := root }
  release 0
  release addr

variable (degree : Nat)

/-- The position of the first row that passes the test among `count` rows of a node from `pos` on. -/
def scanRows (test : RID → TreeProg Q Bool) (addr : Int) : Nat → Nat → TreeProg Q Nat
  | pos, 0 => return pos
  | pos, count + 1 => do
      let node ← readNode addr
      let row ← ofOption (node.rowAt degree pos)
      if ← test row then return pos
      scanRows test addr (pos + 1) count

/-- `(*cmp)(rid, row) < 0`. -/
def rowBefore (rid row : RID) : TreeProg Q Bool := do
  let sign ← rowRowCmp rid row
  return decide (sign < 0)

/-- `(*cmp)(rid, row) == 0`. -/
def rowEquals (rid row : RID) : TreeProg Q Bool := do
  let sign ← rowRowCmp rid row
  return decide (sign = 0)

/-- `(*cmp)(key, size, row) < 0`. -/
def keyBefore (key : Q) (row : RID) : TreeProg Q Bool := do
  let sign ← ptrRowCmp key row
  return decide (sign < 0)

/-- `(*cmp)(key, size, row) == 0`. -/
def keyEquals (key : Q) (row : RID) : TreeProg Q Bool := do
  let sign ← ptrRowCmp key row
  return decide (sign = 0)

/-! ## Insertion -/

/-- The result when there is no new node. -/
def resultEmpty : NewChildEntry := ⟨⟨-1, -1⟩, -1⟩

/-- The part of `insert_entry` for a node whose child has been split. -/
def insertInner (addr : Int) (node : BNode) (childNew : NewChildEntry) (rootNodeAddr : Int) :
    TreeProg Q NewChildEntry := do
  if node.n < 2 * degree then
    let tmp ← scanRows degree (rowBefore childNew.childKey) addr 0 node.n
    let node ← readNode addr
    let node ← ofOption (insertSlot degree node tmp childNew)
    putNode addr node
    return resultEmpty
  else if addr = rootNodeAddr then
    getPage 0
    let addrNew ← takeNode
    let addrRootNew ← takeNode
    release 0
    let new ← readNode addrNew
    writeNode addrNew { new with n := degree, leaf := false, next := -1 }
    let childPos ← scanRows degree (rowBefore childNew.childKey) addr 0 (2 * degree)
    let node ← readNode addr
    let new ← readNode addrNew
    let (node, new, middle) ← ofOption (splitSlots degree node new childPos childNew)
    writeNode addr node
    writeNode addrNew new
    release addr
    release addrNew
    let rootNew ← readNode addrRootNew
    let rootNew ← ofOption (newRoot degree rootNew addr addrNew middle)
    putNode addrRootNew rootNew
    setRoot addrRootNew
    return ⟨middle, addrNew⟩
  else
    getPage 0
    let addrNew ← takeNode
    release 0
    let new ← readNode addrNew
    writeNode addrNew { new with n := degree, leaf := false, next := -1 }
    let childPos ← scanRows degree (rowBefore childNew.childKey) addr 0 (2 * degree)
    let node ← readNode addr
    let new ← readNode addrNew
    let (node, new, middle) ← ofOption (splitSlots degree node new childPos childNew)
    writeNode addr node
    writeNode addrNew new
    release addr
    release addrNew
    return ⟨middle, addrNew⟩

/-- The part of `insert_entry` for a leaf. -/
def insertLeaf (addr : Int) (node : BNode) (rid : RID) (rootNodeAddr : Int) : TreeProg Q NewChildEntry := do
  if node.n < 2 * degree then
    let counter ← scanRows degree (rowBefore rid) addr 0 node.n
    let node ← readNode addr
    let node ← ofOption (insertRow degree node counter rid)
    putNode addr node
    return resultEmpty
  else if addr = rootNodeAddr then
    getPage 0
    let addrNew ← takeNode
    let addrRootNew ← takeNode
    release 0
    let new ← readNode addrNew
    writeNode addrNew { new with n := degree + 1, leaf := true, next := -1 }
    let childPos ← scanRows degree (rowBefore rid) addr 0 (2 * degree)
    let node ← readNode addr
    let new ← readNode addrNew
    let (node, new) ← ofOption (splitRows degree node new childPos rid)
    writeNode addr node
    writeNode addrNew new
    let first ← ofOption (new.rowAt degree 0)
    let childKey ← insertHandler first
    let rootNew ← readNode addrRootNew
    let rootNew ← ofOption (newRoot degree rootNew addr addrNew childKey)
    writeNode addrRootNew rootNew
    release addr
    release addrNew
    let rootNew ← readNode addrRootNew
    let childKey ← ofOption (rootNew.rowAt degree 0)
    release addrRootNew
    setRoot addrRootNew
    return ⟨childKey, addrNew⟩
  else
    getPage 0
    let addrNew ← takeNode
    release 0
    let new ← readNode addrNew
    writeNode addrNew { new with n := degree + 1, leaf := true, next := -1 }
    let childPos ← scanRows degree (rowBefore rid) addr 0 (2 * degree)
    if childPos < degree then
      -- the row that will be the first of the new leaf, before it is moved
      let node ← readNode addr
      let first ← ofOption (node.rowAt degree (degree - 1))
      let childKey ← insertHandler first
      let node ← readNode addr
      let new ← readNode addrNew
      let (node, new) ← ofOption (splitRows degree node new childPos rid)
      writeNode addr node
      writeNode addrNew new
      release addr
      release addrNew
      return ⟨childKey, addrNew⟩
    else
      let node ← readNode addr
      let new ← readNode addrNew
      let (node, new) ← ofOption (splitRows degree node new childPos rid)
      writeNode addr node
      writeNode addrNew new
      let first ← ofOption (new.rowAt degree 0)
      let childKey ← insertHandler first
      release addr
      release addrNew
      return ⟨childKey, addrNew⟩

def insertEntry : Nat → Int → RID → Int → TreeProg Q NewChildEntry
  | 0, _, _, _ => .fail
  | rounds + 1, addr, rid, rootNodeAddr => do
      let node ← getNode addr
      if node.leaf then insertLeaf degree addr node rid rootNodeAddr
      else
        let prtChild ← scanRows degree (rowBefore rid) addr 0 node.n
        let node ← readNode addr
        let addrChild ← ofOption (node.childAt degree prtChild)
        release addr
        let childNew ← insertEntry rounds addrChild rid rootNodeAddr
        let node ← getNode addr
        if childNew.childPtr = -1 then
          release addr
          return childNew
        insertInner degree addr node childNew rootNodeAddr

/-! ## Deletion -/

/-- The position of the pointer to a child, or one past the last; `count` children from `ttmp` on. -/
def findChild (node : BNode) (addr : Int) : Nat → Nat → Option Nat
  | ttmp, 0 => some ttmp
  | ttmp, count + 1 => do
      let child ← node.childAt degree ttmp
      if child = addr then return ttmp
      findChild node addr (ttmp + 1) count

/-- The separator `childOld` and the child after it are dropped; above leaves the copy is deleted. -/
def dropEntry (addr : Int) (childOld : Nat) : TreeProg Q Unit := do
  let node ← readNode addr
  let first ← ofOption (node.childAt degree 0)
  let childnode ← getNode first
  if childnode.leaf then
    let node ← readNode addr
    let row ← ofOption (node.rowAt degree childOld)
    deleteHandler row
  let node ← readNode addr
  let first ← ofOption (node.childAt degree 0)
  release first
  let node ← readNode addr
  let node ← ofOption (dropSlot degree node childOld)
  writeNode addr node

/-- The position of a row among the rows of a leaf, or one past the last. -/
def findRow (addr : Int) (rid : RID) : TreeProg Q Nat := do
  let node ← readNode addr
  scanRows degree (rowEquals rid) addr 0 node.n

/-- The separator `ttmp` is deleted, and a copy of the first row of a leaf takes its place. -/
def renewSeparator (parentAddr : Int) (ttmp : Nat) (addr : Int) : TreeProg Q Unit := do
  let nodePar ← readNode parentAddr
  let separator ← ofOption (nodePar.rowAt degree ttmp)
  deleteHandler separator
  let node ← readNode addr
  let first ← ofOption (node.rowAt degree 0)
  let separator ← insertHandler first
  let nodePar ← readNode parentAddr
  let nodePar ← ofOption (nodePar.setRow degree ttmp separator)
  writeNode parentAddr nodePar

/-- A node, its parent and its brother are released. -/
def releaseFamily (addr parentAddr addrBro : Int) : TreeProg Q Unit := do
  release addr
  release parentAddr
  release addrBro

/-- The part of `delete_entry` for a node two of whose children have been merged. -/
def deleteInner (addr parentAddr : Int) (node : BNode) (childOld : Nat) : TreeProg Q Int := do
  if parentAddr ≠ -1 then
    if degree < node.n then
      dropEntry degree addr childOld
      release addr
      return -1
    else
      let nodePar ← getNode parentAddr
      let ttmp ← ofOption (findChild degree nodePar addr 0 (nodePar.n + 1))
      if ttmp ≠ nodePar.n then
        let addrBro ← ofOption (nodePar.childAt degree (ttmp + 1))
        let brother ← getNode addrBro
        if degree < brother.n then
          dropEntry degree addr childOld
          let node ← readNode addr
          let nodePar ← readNode parentAddr
          let brother ← readNode addrBro
          let (node, nodePar, brother) ← ofOption (borrowSlotRight degree node nodePar brother ttmp)
          writeNode addr node
          writeNode parentAddr nodePar
          writeNode addrBro brother
          releaseFamily addr parentAddr addrBro
          return -1
        else
          dropEntry degree addr childOld
          let nodePar ← readNode parentAddr
          let separator ← ofOption (nodePar.rowAt degree ttmp)
          -- the first steps of the merge stand in front of this release, on pages that stay fetched
          release parentAddr
          let node ← readNode addr
          let brother ← readNode addrBro
          let node ← ofOption (mergeSlots degree node separator brother)
          putNode addr node
          freeNode addrBro
          return ttmp
      else
        let before ← ofOption (predecessor ttmp)
        let addrBro ← ofOption (nodePar.childAt degree before)
        let brother ← getNode addrBro
        if degree < brother.n then
          dropEntry degree addr childOld
          let node ← readNode addr
          let nodePar ← readNode parentAddr
          let brother ← readNode addrBro
          let (node, nodePar, brother) ← ofOption (borrowSlotLeft degree node nodePar brother before)
          writeNode addr node
          writeNode parentAddr nodePar
          writeNode addrBro brother
          releaseFamily addr parentAddr addrBro
          return -1
        else
          dropEntry degree addr childOld
          let nodePar ← readNode parentAddr
          let separator ← ofOption (nodePar.rowAt degree before)
          release parentAddr
          let brother ← readNode addrBro
          let node ← readNode addr
          let brother ← ofOption (mergeSlots degree brother separator node)
          putNode addrBro brother
          freeNode addr
          return before
  else
    dropEntry degree addr childOld
    let node ← readNode addr
    if node.n = 0 then freeRoot addr fun node => node.childAt degree 0
    else release addr
    return -1

/-- The part of `delete_entry` for a leaf. -/
def deleteLeaf (addr parentAddr : Int) (node : BNode) (rid : RID) : TreeProg Q Int := do
  if parentAddr ≠ -1 then
    if degree < node.n then
      let prtFinal ← findRow degree addr rid
      let node ← readNode addr
      let node ← ofOption (dropRow degree node prtFinal)
      putNode addr node
      return -1
    else
      let nodePar ← getNode parentAddr
      let ttmp ← ofOption (findChild degree nodePar addr 0 (nodePar.n + 1))
      if ttmp ≠ nodePar.n then
        let addrBro ← ofOption (nodePar.childAt degree (ttmp + 1))
        let brother ← getNode addrBro
        if degree < brother.n then
          let prtFinal ← findRow degree addr rid
          let node ← readNode addr
          let node ← ofOption (dropRow degree node prtFinal)
          let brother ← readNode addrBro
          let (node, brother) ← ofOption (borrowRowRight degree node brother)
          writeNode addr node
          writeNode addrBro brother
          renewSeparator degree parentAddr ttmp addrBro
          releaseFamily addr parentAddr addrBro
          return -1
        else
          release parentAddr
          let prtFinal ← findRow degree addr rid
          let node ← readNode addr
          let node ← ofOption (dropRow degree node prtFinal)
          let brother ← readNode addrBro
          let node ← ofOption (mergeRows degree node brother)
          putNode addr node
          freeNode addrBro
          return ttmp
      else
        let before ← ofOption (predecessor ttmp)
        let addrBro ← ofOption (nodePar.childAt degree before)
        let brother ← getNode addrBro
        if degree < brother.n then
          let prtFinal ← findRow degree addr rid
          let node ← readNode addr
          let brother ← readNode addrBro
          let (node, brother) ← ofOption (borrowRowLeft degree node brother prtFinal)
          writeNode addr node
          writeNode addrBro brother
          renewSeparator degree parentAddr before addr
          releaseFamily addr parentAddr addrBro
          return -1
        else
          release parentAddr
          let prtFinal ← findRow degree addr rid
          let node ← readNode addr
          let node ← ofOption (dropRow degree node prtFinal)
          let brother ← readNode addrBro
          let brother ← ofOption (mergeRows degree brother node)
          writeNode addr node
          putNode addrBro brother
          freeNode addr
          return before
  else
    let prtFinal ← findRow degree addr rid
    let node ← readNode addr
    let node ← ofOption (dropRow degree node prtFinal)
    writeNode addr node
    if node.n = 0 then freeRoot addr fun _ => some (-1)
    else release addr
    return -1

/-- `delete_entry`: the position of the entry that the caller must drop, or `-1`. -/
def deleteEntry : Nat → Int → Int → RID → TreeProg Q Int
  | 0, _, _, _ => .fail
  | rounds + 1, addr, parentAddr, rid => do
      let node ← getNode addr
      if node.leaf then deleteLeaf degree addr parentAddr node rid
      else
        let prtChild ← scanRows degree (rowBefore rid) addr 0 node.n
        let node ← readNode addr
        let addrChild ← ofOption (node.childAt degree prtChild)
        release addr
        let childOld ← deleteEntry rounds addrChild addr rid
        let node ← getNode addr
        if childOld = -1 then
          release addr
          return -1
        deleteInner degree addr parentAddr node childOld.toNat

/-! ## The operations -/

/-- The RID of a failed search. -/
def failedRid : RID := ⟨-1, 0⟩

def searchEntry : Nat → Int → Q → TreeProg Q RID
  | 0, _, _ => .fail
  | rounds + 1, addr, key => do
      let node ← getNode addr
      if node.leaf then
        let counter ← scanRows degree (keyEquals key) addr 0 node.n
        let node ← readNode addr
        if counter < node.n then
          let result ← ofOption (node.rowAt degree counter)
          release addr
          return result
        else
          release addr
          return failedRid
      else
        let prtChild ← scanRows degree (keyBefore key) addr 0 node.n
        let node ← readNode addr
        let addrChild ← ofOption (node.childAt degree prtChild)
        release addr
        searchEntry rounds addrChild key

/-- `b_tree_init` on the pool that `init_buffer_pool` has opened. -/
def bTreeInit : TreeProg Q Unit := do
  let length ← fileLength
  if length ≠ 0 then return
  getPage 0
  let ctrl ← loadCtrl
  storeCtrl { ctrl with freeNodeHead := -1, rootNode := -1 }
  release 0

def bTreeSearch (key : Q) : TreeProg Q RID := do
  getPage 0
  let ctrl ← loadCtrl
  let rootNodeAddr := ctrl.rootNode
  release 0
  if rootNodeAddr = -1 then return failedRid
  let length ← fileLength
  searchEntry degree length.toNat rootNodeAddr key

def bTreeInsert (rid : RID) : TreeProg Q RID := do
  getPage 0
  let ctrl ← loadCtrl
  if ctrl.rootNode ≠ -1 then getPage ctrl.rootNode
  else
    if ctrl.freeNodeHead = -1 then
      let root ← getNode pageSize
      writeNode pageSize { root with n := 0, next := -1, leaf := true }
    else
      let addr := ctrl.freeNodeHead
      let root ← getNode addr
      let ctrl ← loadCtrl
      storeCtrl { ctrl with freeNodeHead := root.next }
      writeNode addr { root with n := 0, next := -1, leaf := true }
    let ctrl ← loadCtrl
    storeCtrl { ctrl with rootNode := pageSize }
  let ctrl ← loadCtrl
  let rootNodeAddr := ctrl.rootNode
  release 0
  release rootNodeAddr
  let length ← fileLength
  let _ ← insertEntry degree length.toNat rootNodeAddr rid rootNodeAddr
  return rid

/-- On an empty tree `b_tree_delete` returns with the control block still fetched. -/
def bTreeDelete (rid : RID) : TreeProg Q Unit := do
  getPage 0
  let ctrl ← loadCtrl
  let rootNodeAddr := ctrl.rootNode
  if rootNodeAddr = -1 then return
  release 0
  let length ← fileLength
  let _ ← deleteEntry degree length.toNat rootNodeAddr (-1) rid

end MyJQL.Index
