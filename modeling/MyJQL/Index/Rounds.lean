import MyJQL.Index.BTree
import MyJQL.Library.Cost

/-!
# The recursion of the index

The bound on the depth of a recursion is generous: the length of the file. Here the operations
are given a smaller one, and where they do not reach it they are the operations of `b_tree.c`.
-/

namespace MyJQL.Index

open Library Library.Prog Storage

variable {Q : Type}

/-! ## Operations with a smaller bound -/

section Limit

variable (degree limit : Nat)

/-- `b_tree_search`, whose recursion is not deeper than the limit. -/
def bTreeSearchFor (key : Q) : TreeProg Q RID := do
  getPage 0
  let ctrl ← loadCtrl
  let rootNodeAddr := ctrl.rootNode
  release 0
  if rootNodeAddr = -1 then return failedRid
  let length ← fileLength
  searchEntry degree (min limit length.toNat) rootNodeAddr key

/-- `b_tree_insert`, whose recursion is not deeper than the limit. -/
def bTreeInsertFor (rid : RID) : TreeProg Q RID := do
  getPage 0
  let ctrl ← loadCtrl
  if ctrl.rootNode ≠ -1 then getPage ctrl.rootNode
  else
    if ctrl.freeNodeHead = -1 then
      let root ← getNode pageSize
      writeNode pageSize { root with n := 0, next := -1, leaf := true }
    else
      let addr := ctrl.freeNodeHead
      let root ← getNode addr
      let ctrl ← loadCtrl
      storeCtrl { ctrl with freeNodeHead := root.next }
      writeNode addr { root with n := 0, next := -1, leaf := true }
    let ctrl ← loadCtrl
    storeCtrl { ctrl with rootNode := pageSize }
  let ctrl ← loadCtrl
  let rootNodeAddr := ctrl.rootNode
  release 0
  release rootNodeAddr
  let length ← fileLength
  let _ ← insertEntry degree (min limit length.toNat) rootNodeAddr rid rootNodeAddr
  return rid

/-- `b_tree_delete`, whose recursion is not deeper than the limit. -/
def bTreeDeleteFor (rid : RID) : TreeProg Q Unit := do
  getPage 0
  let ctrl ← loadCtrl
  let rootNodeAddr := ctrl.rootNode
  if rootNodeAddr = -1 then return
  release 0
  let length ← fileLength
  let _ ← deleteEntry degree (min limit length.toNat) rootNodeAddr (-1) rid

end Limit

section Below

variable {degree rounds rounds' limit : Nat} {addr root parent : Int} {rid : RID} {key : Q}

theorem searchEntry_below (le : rounds ≤ rounds') :
    (searchEntry degree rounds addr key).Below (searchEntry degree rounds' addr key) := by
  induction rounds generalizing rounds' addr with
  | zero => trivial
  | succ rounds ih =>
      obtain ⟨rounds', rfl⟩ := Nat.exists_eq_add_of_le' (Nat.one_le_of_lt le)
      refine Below.bind (.refl _) fun node => ?_
      split
      · exact .refl _
      · exact Below.bind (.refl _) fun child => Below.bind (.refl _) fun _ => Below.bind (.refl _) fun addrChild =>
          Below.bind (.refl _) fun _ => ih (Nat.le_of_succ_le_succ le)

theorem insertEntry_below (le : rounds ≤ rounds') :
    (insertEntry degree rounds addr rid root : TreeProg Q NewChildEntry).Below (insertEntry degree rounds' addr rid root) := by
  induction rounds generalizing rounds' addr with
  | zero => trivial
  | succ rounds ih =>
      obtain ⟨rounds', rfl⟩ := Nat.exists_eq_add_of_le' (Nat.one_le_of_lt le)
      refine Below.bind (.refl _) fun node => ?_
      split
      · exact .refl _
      · exact Below.bind (.refl _) fun child => Below.bind (.refl _) fun _ => Below.bind (.refl _) fun addrChild =>
          Below.bind (.refl _) fun _ => Below.bind (ih (Nat.le_of_succ_le_succ le)) fun _ => .refl _

theorem deleteEntry_below (le : rounds ≤ rounds') :
    (deleteEntry degree rounds addr parent rid : TreeProg Q Int).Below (deleteEntry degree rounds' addr parent rid) := by
  induction rounds generalizing rounds' addr parent with
  | zero => trivial
  | succ rounds ih =>
      obtain ⟨rounds', rfl⟩ := Nat.exists_eq_add_of_le' (Nat.one_le_of_lt le)
      refine Below.bind (.refl _) fun node => ?_
      split
      · exact .refl _
      · exact Below.bind (.refl _) fun child => Below.bind (.refl _) fun _ => Below.bind (.refl _) fun addrChild =>
          Below.bind (.refl _) fun _ => Below.bind (ih (Nat.le_of_succ_le_succ le)) fun _ => .refl _

theorem bTreeSearchFor_below : (bTreeSearchFor degree limit key).Below (bTreeSearch degree key) := by
  refine Below.bind (.refl _) fun _ => Below.bind (.refl _) fun ctrl => Below.bind (.refl _) fun _ => ?_
  split
  · exact .refl _
  · exact Below.bind (.refl _) fun length => searchEntry_below (Nat.min_le_right ..)

theorem bTreeInsertFor_below : (bTreeInsertFor degree limit rid : TreeProg Q RID).Below (bTreeInsert degree rid) := by
  have recurses : ∀ ctrl : BCtrlBlock, (do
      release 0
      release ctrl.rootNode
      let length ← fileLength
      let _ ← insertEntry degree (min limit length.toNat) ctrl.rootNode rid ctrl.rootNode
      return rid : TreeProg Q RID).Below (do
        release 0
        release ctrl.rootNode
        let length ← fileLength
        let _ ← insertEntry degree length.toNat ctrl.rootNode rid ctrl.rootNode
        return rid) := fun ctrl =>
    Below.bind (.refl _) fun _ => Below.bind (.refl _) fun _ => Below.bind (.refl _) fun length =>
      Below.bind (insertEntry_below (Nat.min_le_right ..)) fun _ => .refl _
  refine Below.bind (.refl _) fun _ => Below.bind (.refl _) fun ctrl => ?_
  dsimp only
  split
  · exact Below.bind (.refl _) fun _ => Below.bind (.refl _) recurses
  · split
    · exact Below.bind (.refl _) fun root => Below.bind (.refl _) fun _ => Below.bind (.refl _) fun _ =>
        Below.bind (.refl _) fun _ => Below.bind (.refl _) recurses
    · exact Below.bind (.refl _) fun root => Below.bind (.refl _) fun _ => Below.bind (.refl _) fun _ =>
        Below.bind (.refl _) fun _ => Below.bind (.refl _) fun _ => Below.bind (.refl _) fun _ =>
          Below.bind (.refl _) recurses

theorem bTreeDeleteFor_below : (bTreeDeleteFor degree limit rid : TreeProg Q Unit).Below (bTreeDelete degree rid) := by
  refine Below.bind (.refl _) fun _ => Below.bind (.refl _) fun ctrl => ?_
  dsimp only
  split
  · exact .refl _
  · exact Below.bind (.refl _) fun _ => Below.bind (.refl _) fun length =>
      Below.bind (deleteEntry_below (Nat.min_le_right ..)) fun _ => .refl _

end Below

end MyJQL.Index
