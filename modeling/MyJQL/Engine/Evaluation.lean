import MyJQL.Library.Strict
import MyJQL.Engine.MyJql

/-!
# Pages evaluated in order

What can be looked at of the pages of the engine, so that its sessions can be evaluated effect by
effect: the words of a page of a free-space map, the header of a block, the entries of a node.
-/

namespace MyJQL.Engine

open Library Library.Strict Storage

instance : Strict RID where
  look
    | ⟨blockAddr, idx⟩, next => look blockAddr fun blockAddr => look idx fun idx => next ⟨blockAddr, idx⟩
  look_eq rid next := by simp only [look_eq]

/-- A cell is written once or twice, so the cells are left to their readers. -/
instance : Strict Block where
  look
    | ⟨nItems, headPtr, tailPtr, cell⟩, next =>
        look nItems fun nItems => look headPtr fun headPtr => look tailPtr fun tailPtr => next ⟨nItems, headPtr, tailPtr, cell⟩
  look_eq block next := by simp only [look_eq]

instance : Strict HashMap.FsmPage where
  look page next := lookBelow HashMap.dirBlockSize page.word fun word => next ⟨word⟩
  look_eq page next := by simp only [lookBelow_eq]

instance : Strict Index.BNode where
  look
    | ⟨n, nextAddr, child, rowPtr, leaf⟩, next =>
        look n fun n => look nextAddr fun nextAddr => look leaf fun leaf =>
          lookBelow (2 * degree + 1) child fun child =>
            lookBelow (2 * degree) rowPtr fun rowPtr => next ⟨n, nextAddr, child, rowPtr, leaf⟩
  look_eq node next := by simp only [look_eq, lookBelow_eq]

instance : Strict Index.IndexPage where
  look
    | .zero, next => next .zero
    | .ctrl ⟨rootNode, freeNodeHead⟩, next =>
        look rootNode fun rootNode => look freeNodeHead fun freeNodeHead => next (.ctrl ⟨rootNode, freeNodeHead⟩)
    | .node node, next => look node fun node => next (.node node)
  look_eq page next := by cases page <;> simp only [look_eq]

section Maps

variable {P β : Type}

/-- The pages of a map have been looked at when they were stored. -/
instance : Strict (PageMap P) where
  look
    | ⟨length, page⟩, next => look length fun length => next ⟨length, page⟩
  look_eq map next := by simp only [look_eq]

instance : Strict (Pinned P) where
  look
    | ⟨map, pins⟩, next => look map fun map => next ⟨map, pins⟩
  look_eq state next := by simp only [look_eq]

instance [Strict P] : Strict (PageOp P β) where
  look
    | .getPage addr, next => look addr fun addr => next (.getPage addr)
    | .release addr, next => look addr fun addr => next (.release addr)
    | .load addr, next => look addr fun addr => next (.load addr)
    | .store addr page, next => look addr fun addr => look page fun page => next (.store addr page)
    | .fileLength, next => next .fileLength
    | .setFileLength length, next => look length fun length => next (.setFileLength length)
  look_eq effect next := by cases effect <;> simp only [look_eq]

end Maps

end MyJQL.Engine
