import MyJQL.Library.Arrays
import MyJQL.Storage.Block
import MyJQL.Storage.PageMap

/-!
# Nodes of the B-tree (`b_tree.h`, the array code of `b_tree.c`)

A page of the index file is the control block or a node; a page that has just been
appended is zero and can be read as either. A node has `2 * DEGREE` entries and one more
child; an access outside these bounds is undefined behaviour, as is a loop whose counter
starts behind the value it must meet.

The functions here are the straight-line blocks of `insert_entry` and `delete_entry` that
work on the arrays of one, two or three nodes. Blocks that stand in the source several
times are one function.
-/

namespace MyJQL.Index

open Library Storage

structure BNode where
  n : Nat
  next : Int
  child : Nat → Int
  rowPtr : Nat → RID
  leaf : Bool

structure BCtrlBlock where
  rootNode : Int
  freeNodeHead : Int

/-- A page of the index file. -/
inductive IndexPage where
  | zero
  | ctrl (block : BCtrlBlock)
  | node (node : BNode)

instance : PageType IndexPage where
  emptyPage := .zero

/-- The node of zero bytes. -/
def zeroNode : BNode := ⟨0, 0, fun _ => 0, fun _ => ⟨0, 0⟩, false⟩

namespace IndexPage

/-- The page as a `BNode`. -/
def asNode : IndexPage → Option BNode
  | .zero => some zeroNode
  | .ctrl _ => none
  | .node content => some content

/-- The page as a `BCtrlBlock`. -/
def asCtrl : IndexPage → Option BCtrlBlock
  | .zero => some ⟨0, 0⟩
  | .ctrl block => some block
  | .node _ => none

end IndexPage

/-- What `insert_entry` returns: the separator and the address of a new node, if there is one. -/
structure NewChildEntry where
  childKey : RID
  childPtr : Int

/-- `size - 1` for a `size_t` that must not be zero. -/
def predecessor (size : Nat) : Option Nat := if 0 < size then some (size - 1) else none

variable (degree : Nat)

namespace BNode

def rowAt (node : BNode) (index : Nat) : Option RID :=
  if index < 2 * degree then some (node.rowPtr index) else none

def setRow (node : BNode) (index : Nat) (rid : RID) : Option BNode :=
  if index < 2 * degree then some { node with rowPtr := Function.update node.rowPtr index rid } else none

def childAt (node : BNode) (index : Nat) : Option Int :=
  if index < 2 * degree + 1 then some (node.child index) else none

def setChild (node : BNode) (index : Nat) (addr : Int) : Option BNode :=
  if index < 2 * degree + 1 then some { node with child := Function.update node.child index addr } else none

end BNode

/-! ## Insertion -/

/-- A row at position `counter` of a leaf that is not full. -/
def insertRow (node : BNode) (counter : Nat) (rid : RID) : Option BNode := do
  let node ← forGt node.n counter (fun i node => do node.setRow degree i (← node.rowAt degree (i - 1))) node
  let node ← node.setRow degree counter rid
  return { node with n := node.n + 1 }

/-- A separator at position `tmp`, with its child, of a node that is not full. -/
def insertSlot (node : BNode) (tmp : Nat) (entry : NewChildEntry) : Option BNode := do
  let node ← forGt node.n tmp (fun i node => do node.setRow degree i (← node.rowAt degree (i - 1))) node
  let node ← forGt (node.n + 1) (tmp + 1)
    (fun i node => do node.setChild degree i (← node.childAt degree (i - 1))) node
  let node ← node.setRow degree tmp entry.childKey
  let node ← node.setChild degree (tmp + 1) entry.childPtr
  return { node with n := node.n + 1 }

/-- The rows of a full leaf and a new one, on the leaf and a new leaf. -/
def splitRows (node new : BNode) (childPos : Nat) (rid : RID) : Option (BNode × BNode) := do
  if childPos < degree then
    let new ← forLe 0 degree
      (fun i new => do new.setRow degree i (← node.rowAt degree (degree - 1 + i))) new
    let node ← forGt (degree - 1) childPos
      (fun i node => do node.setRow degree i (← node.rowAt degree (i - 1))) node
    let node ← node.setRow degree childPos rid
    return ({ node with n := degree }, new)
  else
    let new ← forNe 0 (childPos - degree)
      (fun i new => do new.setRow degree i (← node.rowAt degree (degree + i))) new
    let new ← new.setRow degree (childPos - degree) rid
    let new ← forLe (childPos - degree + 1) degree
      (fun i new => do new.setRow degree i (← node.rowAt degree (degree - 1 + i))) new
    return ({ node with n := degree }, new)

/--
The separators and children of a full node and a new pair, on the node and a new node;
the separator between the two nodes is returned.
-/
def splitSlots (node new : BNode) (childPos : Nat) (entry : NewChildEntry) :
    Option (BNode × BNode × RID) := do
  if childPos < degree then
    let middle ← node.rowAt degree (degree - 1)
    let new ← forNe 0 degree (fun i new => do
      let new ← new.setRow degree i (← node.rowAt degree (degree + i))
      new.setChild degree i (← node.childAt degree (degree + i))) new
    let new ← new.setChild degree degree (← node.childAt degree (2 * degree))
    let node ← forGt (degree - 1) childPos (fun i node => do
      let node ← node.setRow degree i (← node.rowAt degree (i - 1))
      node.setChild degree (i + 1) (← node.childAt degree i)) node
    let node ← node.setRow degree childPos entry.childKey
    let node ← node.setChild degree (childPos + 1) entry.childPtr
    return ({ node with n := degree }, new, middle)
  else if childPos = degree then
    let new ← forNe 0 degree (fun i new => do
      let new ← new.setRow degree i (← node.rowAt degree (degree + i))
      new.setChild degree (i + 1) (← node.childAt degree (degree + i + 1))) new
    let new ← new.setChild degree 0 entry.childPtr
    return ({ node with n := degree }, new, entry.childKey)
  else
    let middle ← node.rowAt degree degree
    let new ← new.setChild degree 0 (← node.childAt degree (degree + 1))
    let new ← forNe 0 (childPos - degree - 1) (fun i new => do
      let new ← new.setRow degree i (← node.rowAt degree (degree + i + 1))
      new.setChild degree (i + 1) (← node.childAt degree (degree + i + 2))) new
    let new ← new.setRow degree (childPos - degree - 1) entry.childKey
    let new ← new.setChild degree (childPos - degree) entry.childPtr
    let new ← forNe (childPos - degree) degree (fun i new => do
      let new ← new.setRow degree i (← node.rowAt degree (degree + i))
      new.setChild degree (i + 1) (← node.childAt degree (degree + i + 1))) new
    return ({ node with n := degree }, new, middle)

/-- A root over two nodes. -/
def newRoot (root : BNode) (left right : Int) (middle : RID) : Option BNode := do
  let root := { root with leaf := false, n := 1 }
  let root ← root.setChild degree 0 left
  let root ← root.setChild degree 1 right
  let root := { root with next := -1 }
  root.setRow degree 0 middle

/-! ## Deletion -/

/-- A separator and the child after it are dropped. -/
def dropSlot (node : BNode) (childOld : Nat) : Option BNode := do
  let node ← forNe childOld (← predecessor node.n) (fun i node => do
    let node ← node.setRow degree i (← node.rowAt degree (i + 1))
    node.setChild degree (i + 1) (← node.childAt degree (i + 2))) node
  return { node with n := ← predecessor node.n }

/-- A row of a leaf is dropped. -/
def dropRow (node : BNode) (prtFinal : Nat) : Option BNode := do
  let node ← forNe prtFinal (← predecessor node.n)
    (fun i node => do node.setRow degree i (← node.rowAt degree (i + 1))) node
  return { node with n := ← predecessor node.n }

/-- The first child of the right brother comes over, under the parent's separator `ttmp`. -/
def borrowSlotRight (node nodePar brother : BNode) (ttmp : Nat) : Option (BNode × BNode × BNode) := do
  let node ← node.setRow degree node.n (← nodePar.rowAt degree ttmp)
  let node ← node.setChild degree (node.n + 1) (← brother.childAt degree 0)
  let node := { node with n := node.n + 1 }
  let nodePar ← nodePar.setRow degree ttmp (← brother.rowAt degree 0)
  let brother ← forNe 1 brother.n (fun i brother => do
    let brother ← brother.setRow degree (i - 1) (← brother.rowAt degree i)
    brother.setChild degree (i - 1) (← brother.childAt degree i)) brother
  let last ← predecessor brother.n
  let brother ← brother.setChild degree last (← brother.childAt degree brother.n)
  return (node, nodePar, { brother with n := last })

/-- The last child of the left brother comes over, under the parent's separator `position`. -/
def borrowSlotLeft (node nodePar brother : BNode) (position : Nat) : Option (BNode × BNode × BNode) := do
  let node ← forGt node.n 0 (fun i node => do
    let node ← node.setRow degree i (← node.rowAt degree (i - 1))
    node.setChild degree (i + 1) (← node.childAt degree i)) node
  let node ← node.setChild degree 1 (← node.childAt degree 0)
  let node := { node with n := node.n + 1 }
  let node ← node.setRow degree 0 (← nodePar.rowAt degree position)
  let node ← node.setChild degree 0 (← brother.childAt degree brother.n)
  let last ← predecessor brother.n
  let nodePar ← nodePar.setRow degree position (← brother.rowAt degree last)
  return (node, nodePar, { brother with n := last })

/-- A separator and all of the right node are appended to the left node. -/
def mergeSlots (left : BNode) (separator : RID) (right : BNode) : Option BNode := do
  let left ← left.setRow degree left.n separator
  let left ← left.setChild degree (left.n + 1) (← right.childAt degree 0)
  let left := { left with n := left.n + 1 }
  let left ← forNe 0 right.n (fun i left => do
    let left ← left.setRow degree (left.n + i) (← right.rowAt degree i)
    left.setChild degree (left.n + i + 1) (← right.childAt degree (i + 1))) left
  return { left with n := left.n + right.n }

/-- The first row of the right brother comes over. -/
def borrowRowRight (node brother : BNode) : Option (BNode × BNode) := do
  let node ← node.setRow degree node.n (← brother.rowAt degree 0)
  let brother ← forNe 1 brother.n
    (fun i brother => do brother.setRow degree (i - 1) (← brother.rowAt degree i)) brother
  return ({ node with n := node.n + 1 }, { brother with n := ← predecessor brother.n })

/-- A row is dropped and the last row of the left brother comes over. -/
def borrowRowLeft (node brother : BNode) (prtFinal : Nat) : Option (BNode × BNode) := do
  let node ← forGt prtFinal 0 (fun i node => do node.setRow degree i (← node.rowAt degree (i - 1))) node
  let node := { node with n := ← predecessor node.n }
  let last ← predecessor brother.n
  let node ← node.setRow degree 0 (← brother.rowAt degree last)
  return ({ node with n := node.n + 1 }, { brother with n := last })

/-- All rows of the right leaf are appended to the left leaf. -/
def mergeRows (left right : BNode) : Option BNode := do
  let left ← forNe 0 right.n
    (fun i left => do left.setRow degree (left.n + i) (← right.rowAt degree i)) left
  return { left with n := left.n + right.n }

end MyJQL.Index
