import MyJQL.Index.Node

/-!
# What the array code does to the lists of a node

`NodeIs` reads a node as the list of its rows or separators and the list of its children.
Each function of `Node` is specified by the lists before and after it; the bounds on their
lengths are those that keep every access inside the arrays.
-/

namespace MyJQL.Index

open Library Storage

/-- The entries and the children of a node. -/
structure NodeIs (node : BNode) (leaf : Bool) (rows : List RID) (kids : List Int) : Prop where
  kind : node.leaf = leaf
  count : node.n = rows.length
  rows : Holds node.rowPtr rows
  kids : Holds node.child kids

variable {degree : Nat} {node new brother nodePar : BNode} {leaf : Bool} {xs ys rs : List RID}
  {as bs cs : List Int} {rid : RID} {entry : NewChildEntry}

/-! ## Accesses -/

section Accesses

variable {index : Nat} {addr : Int}

theorem rowAt_eq (inside : index < 2 * degree) : node.rowAt degree index = some (node.rowPtr index) :=
  if_pos inside

theorem setRow_eq (inside : index < 2 * degree) : node.setRow degree index rid =
    some { node with rowPtr := Function.update node.rowPtr index rid } :=
  if_pos inside

theorem childAt_eq (inside : index < 2 * degree + 1) : node.childAt degree index = some (node.child index) :=
  if_pos inside

theorem setChild_eq (inside : index < 2 * degree + 1) : node.setChild degree index addr =
    some { node with child := Function.update node.child index addr } :=
  if_pos inside

/-- The row at a place of the list. -/
theorem rowAt_place {row : RID} (is : NodeIs node leaf (xs ++ row :: ys) as) (inside : xs.length < 2 * degree) :
    node.rowAt degree xs.length = some row := by
  have within : xs.length < (xs ++ row :: ys).length := by
    rw [List.length_append, List.length_cons]
    omega
  rw [rowAt_eq inside, ← is.rows _ within, List.getElem?_append_right le_rfl, Nat.sub_self,
    List.getElem?_cons_zero]

theorem rowAt_first {row : RID} (is : NodeIs node leaf (row :: ys) as) (positive : 1 ≤ degree) :
    node.rowAt degree 0 = some row :=
  @rowAt_place degree node leaf [] ys as row is (Nat.mul_pos Nat.two_pos positive)

/-- The child at a place of the list. -/
theorem childAt_place (is : NodeIs node leaf xs (as ++ addr :: bs)) (inside : as.length < 2 * degree + 1) :
    node.childAt degree as.length = some addr := by
  have within : as.length < (as ++ addr :: bs).length := by
    rw [List.length_append, List.length_cons]
    omega
  rw [childAt_eq inside, ← is.kids _ within, List.getElem?_append_right le_rfl, Nat.sub_self,
    List.getElem?_cons_zero]

/-- A row at a place of the list is replaced. -/
theorem setRow_place {row made : RID} (is : NodeIs node leaf (xs ++ row :: ys) as) (inside : xs.length < 2 * degree) :
    ∃ node', node.setRow degree xs.length made = some node' ∧ NodeIs node' leaf (xs ++ made :: ys) as := by
  obtain ⟨kind, count, rows, kids⟩ := is
  refine ⟨_, setRow_eq inside, kind, ?_, ?_, kids⟩
  · simp only [count, List.length_append, List.length_cons]
  · unfold Holds at *
    simp only [Function.update_apply]
    grind

theorem predecessor_eq {size : Nat} (positive : 0 < size) : predecessor size = some (size - 1) :=
  if_pos positive

end Accesses

/-! ## Loops -/

section Loops

variable {start stop offset : Nat}

/-- Entries move up by one, from the last to position `stop`. -/
theorem forGt_rows (order : stop ≤ start) (inside : start < 2 * degree) :
    forGt start stop (fun i node => do node.setRow degree i (← node.rowAt degree (i - 1))) node =
      some { node with rowPtr := blit node.rowPtr node.rowPtr (stop + 1) stop (start - stop) } := by
  refine forGt_eq (fun count => { node with
    rowPtr := blit node.rowPtr node.rowPtr (start - count + 1) (start - count) count }) ?_ ?_ ?_
  · simp only [blit_zero]
  · simp only [Nat.sub_sub_self order]
  · intro index less
    simp (disch := omega) only [rowAt_eq, setRow_eq, Option.bind_eq_bind, Option.bind_some]
    congr 2
    funext place
    simp only [blit, Function.update_apply]
    grind

/-- Children move up by one. -/
theorem forGt_kids (order : stop ≤ start) (inside : start < 2 * degree + 1) :
    forGt start stop (fun i node => do node.setChild degree i (← node.childAt degree (i - 1))) node =
      some { node with child := blit node.child node.child (stop + 1) stop (start - stop) } := by
  refine forGt_eq (fun count => { node with
    child := blit node.child node.child (start - count + 1) (start - count) count }) ?_ ?_ ?_
  · simp only [blit_zero]
  · simp only [Nat.sub_sub_self order]
  · intro index less
    simp (disch := omega) only [childAt_eq, setChild_eq, Option.bind_eq_bind, Option.bind_some]
    congr 2
    funext place
    simp only [blit, Function.update_apply]
    grind

/-- Separators move up by one, each with the child after it. -/
theorem forGt_slots (order : stop ≤ start) (inside : start < 2 * degree) :
    forGt start stop (fun i node => do
      let node ← node.setRow degree i (← node.rowAt degree (i - 1))
      node.setChild degree (i + 1) (← node.childAt degree i)) node =
      some { node with
        rowPtr := blit node.rowPtr node.rowPtr (stop + 1) stop (start - stop)
        child := blit node.child node.child (stop + 2) (stop + 1) (start - stop) } := by
  refine forGt_eq (fun count => { node with
    rowPtr := blit node.rowPtr node.rowPtr (start - count + 1) (start - count) count
    child := blit node.child node.child (start - count + 2) (start - count + 1) count }) ?_ ?_ ?_
  · simp only [blit_zero]
  · simp only [Nat.sub_sub_self order]
  · intro index less
    simp (disch := omega) only [rowAt_eq, setRow_eq, childAt_eq, setChild_eq, Option.bind_eq_bind,
      Option.bind_some]
    congr 2
    · funext place
      simp only [blit, Function.update_apply]
      grind
    · funext place
      simp only [blit, Function.update_apply]
      grind

/-- Entries move down by one. -/
theorem forNe_rows (order : start ≤ stop) (inside : stop < 2 * degree) :
    forNe start stop (fun i node => do node.setRow degree i (← node.rowAt degree (i + 1))) node =
      some { node with rowPtr := blit node.rowPtr node.rowPtr start (start + 1) (stop - start) } := by
  refine forNe_eq (fun count => { node with
    rowPtr := blit node.rowPtr node.rowPtr start (start + 1) count }) order ?_ rfl ?_
  · simp only [blit_zero]
  · intro index less
    simp (disch := omega) only [rowAt_eq, setRow_eq, Option.bind_eq_bind, Option.bind_some]
    congr 2
    funext place
    simp only [blit, Function.update_apply]
    grind

/-- Separators move down by one, each with the child after it. -/
theorem forNe_slots (order : start ≤ stop) (inside : stop < 2 * degree) :
    forNe start stop (fun i node => do
      let node ← node.setRow degree i (← node.rowAt degree (i + 1))
      node.setChild degree (i + 1) (← node.childAt degree (i + 2))) node =
      some { node with
        rowPtr := blit node.rowPtr node.rowPtr start (start + 1) (stop - start)
        child := blit node.child node.child (start + 1) (start + 2) (stop - start) } := by
  refine forNe_eq (fun count => { node with
    rowPtr := blit node.rowPtr node.rowPtr start (start + 1) count
    child := blit node.child node.child (start + 1) (start + 2) count }) order ?_ rfl ?_
  · simp only [blit_zero]
  · intro index less
    simp (disch := omega) only [rowAt_eq, setRow_eq, childAt_eq, setChild_eq, Option.bind_eq_bind,
      Option.bind_some]
    congr 2
    · funext place
      simp only [blit, Function.update_apply]
      grind
    · funext place
      simp only [blit, Function.update_apply]
      grind

/-- Rows are copied from another node. -/
theorem forNe_copyRows (order : start ≤ stop) (inside : offset + stop ≤ 2 * degree) :
    forNe start stop (fun i new => do new.setRow degree i (← node.rowAt degree (offset + i))) new =
      some { new with rowPtr := blit node.rowPtr new.rowPtr start (offset + start) (stop - start) } := by
  refine forNe_eq (fun count => { new with
    rowPtr := blit node.rowPtr new.rowPtr start (offset + start) count }) order ?_ rfl ?_
  · simp only [blit_zero]
  · intro index less
    simp (disch := omega) only [rowAt_eq, setRow_eq, Option.bind_eq_bind, Option.bind_some]
    congr 2
    funext place
    simp only [blit, Function.update_apply]
    grind

theorem forLe_copyRows (inside : offset + stop < 2 * degree) :
    forLe start stop (fun i new => do new.setRow degree i (← node.rowAt degree (offset + i))) new =
      some { new with rowPtr := blit node.rowPtr new.rowPtr start (offset + start) (stop + 1 - start) } := by
  refine forLe_eq (fun count => { new with
    rowPtr := blit node.rowPtr new.rowPtr start (offset + start) count }) ?_ rfl ?_
  · simp only [blit_zero]
  · intro index less
    simp (disch := omega) only [rowAt_eq, setRow_eq, Option.bind_eq_bind, Option.bind_some]
    congr 2
    funext place
    simp only [blit, Function.update_apply]
    grind

/-- Separators are copied from another node, each with the child before it. -/
theorem forNe_copySlots_before (order : start ≤ stop) (inside : stop ≤ degree) :
    forNe start stop (fun i new => do
      let new ← new.setRow degree i (← node.rowAt degree (degree + i))
      new.setChild degree (i) (← node.childAt degree (degree + i))) new =
      some { new with
        rowPtr := blit node.rowPtr new.rowPtr start (degree + start) (stop - start)
        child := blit node.child new.child (start) (degree + start) (stop - start) } := by
  refine forNe_eq (fun count => { new with
    rowPtr := blit node.rowPtr new.rowPtr start (degree + start) count
    child := blit node.child new.child (start) (degree + start) count }) order ?_ rfl ?_
  · simp only [blit_zero]
  · intro index less
    simp (disch := omega) only [rowAt_eq, setRow_eq, childAt_eq, setChild_eq, Option.bind_eq_bind,
      Option.bind_some]
    congr 2
    · funext place
      simp only [blit, Function.update_apply]
      grind
    · funext place
      simp only [blit, Function.update_apply]
      grind

/-- Separators are copied from another node, each with the child after it. -/
theorem forNe_copySlots_after (order : start ≤ stop) (inside : stop ≤ degree) :
    forNe start stop (fun i new => do
      let new ← new.setRow degree i (← node.rowAt degree (degree + i))
      new.setChild degree (i + 1) (← node.childAt degree (degree + i + 1))) new =
      some { new with
        rowPtr := blit node.rowPtr new.rowPtr start (degree + start) (stop - start)
        child := blit node.child new.child (start + 1) (degree + start + 1) (stop - start) } := by
  refine forNe_eq (fun count => { new with
    rowPtr := blit node.rowPtr new.rowPtr start (degree + start) count
    child := blit node.child new.child (start + 1) (degree + start + 1) count }) order ?_ rfl ?_
  · simp only [blit_zero]
  · intro index less
    simp (disch := omega) only [rowAt_eq, setRow_eq, childAt_eq, setChild_eq, Option.bind_eq_bind,
      Option.bind_some]
    congr 2
    · funext place
      simp only [blit, Function.update_apply]
      grind
    · funext place
      simp only [blit, Function.update_apply]
      grind

/-- Separators are copied from another node behind its middle, each with the child after it. -/
theorem forNe_copySlots_next (order : start ≤ stop) (inside : stop < degree) :
    forNe start stop (fun i new => do
      let new ← new.setRow degree i (← node.rowAt degree (degree + i + 1))
      new.setChild degree (i + 1) (← node.childAt degree (degree + i + 2))) new =
      some { new with
        rowPtr := blit node.rowPtr new.rowPtr start (degree + start + 1) (stop - start)
        child := blit node.child new.child (start + 1) (degree + start + 2) (stop - start) } := by
  refine forNe_eq (fun count => { new with
    rowPtr := blit node.rowPtr new.rowPtr start (degree + start + 1) count
    child := blit node.child new.child (start + 1) (degree + start + 2) count }) order ?_ rfl ?_
  · simp only [blit_zero]
  · intro index less
    simp (disch := omega) only [rowAt_eq, setRow_eq, childAt_eq, setChild_eq, Option.bind_eq_bind,
      Option.bind_some]
    congr 2
    · funext place
      simp only [blit, Function.update_apply]
      grind
    · funext place
      simp only [blit, Function.update_apply]
      grind

/-- The rows of a node after its first move to the front. -/
theorem forNe_frontRows (positive : 1 ≤ stop) (inside : stop ≤ 2 * degree) :
    forNe 1 stop (fun i brother => do brother.setRow degree (i - 1) (← brother.rowAt degree i)) brother =
      some { brother with rowPtr := blit brother.rowPtr brother.rowPtr 0 1 (stop - 1) } := by
  refine forNe_eq (fun count => { brother with
    rowPtr := blit brother.rowPtr brother.rowPtr 0 1 count }) positive ?_ rfl ?_
  · simp only [blit_zero]
  · intro index less
    simp (disch := omega) only [rowAt_eq, setRow_eq, Option.bind_eq_bind, Option.bind_some]
    congr 2
    funext place
    simp only [blit, Function.update_apply]
    grind

/-- The separators of a node after its first move to the front, each with the child before it. -/
theorem forNe_frontSlots (positive : 1 ≤ stop) (inside : stop ≤ 2 * degree) :
    forNe 1 stop (fun i brother => do
      let brother ← brother.setRow degree (i - 1) (← brother.rowAt degree i)
      brother.setChild degree (i - 1) (← brother.childAt degree i)) brother =
      some { brother with
        rowPtr := blit brother.rowPtr brother.rowPtr 0 1 (stop - 1)
        child := blit brother.child brother.child 0 1 (stop - 1) } := by
  refine forNe_eq (fun count => { brother with
    rowPtr := blit brother.rowPtr brother.rowPtr 0 1 count
    child := blit brother.child brother.child 0 1 count }) positive ?_ rfl ?_
  · simp only [blit_zero]
  · intro index less
    simp (disch := omega) only [rowAt_eq, setRow_eq, childAt_eq, setChild_eq, Option.bind_eq_bind,
      Option.bind_some]
    congr 2
    · funext place
      simp only [blit, Function.update_apply]
      grind
    · funext place
      simp only [blit, Function.update_apply]
      grind

/-- The rows of another leaf are appended. -/
theorem forNe_appendRows (inside : node.n + stop ≤ 2 * degree) :
    forNe 0 stop (fun i node => do node.setRow degree (node.n + i) (← new.rowAt degree i)) node =
      some { node with rowPtr := blit new.rowPtr node.rowPtr node.n 0 stop } := by
  refine forNe_eq (fun count => { node with
    rowPtr := blit new.rowPtr node.rowPtr node.n 0 count }) (Nat.zero_le _) ?_ rfl ?_
  · simp only [blit_zero]
  · intro index less
    simp (disch := omega) only [rowAt_eq, setRow_eq, Option.bind_eq_bind, Option.bind_some]
    congr 2
    funext place
    simp only [blit, Function.update_apply]
    grind

/-- The separators of another node are appended, each with the child after it. -/
theorem forNe_appendSlots (inside : node.n + stop ≤ 2 * degree) :
    forNe 0 stop (fun i node => do
      let node ← node.setRow degree (node.n + i) (← new.rowAt degree i)
      node.setChild degree (node.n + i + 1) (← new.childAt degree (i + 1))) node =
      some { node with
        rowPtr := blit new.rowPtr node.rowPtr node.n 0 stop
        child := blit new.child node.child (node.n + 1) 1 stop } := by
  refine forNe_eq (fun count => { node with
    rowPtr := blit new.rowPtr node.rowPtr node.n 0 count
    child := blit new.child node.child (node.n + 1) 1 count }) (Nat.zero_le _) ?_ rfl ?_
  · simp only [blit_zero]
  · intro index less
    simp (disch := omega) only [rowAt_eq, setRow_eq, childAt_eq, setChild_eq, Option.bind_eq_bind,
      Option.bind_some]
    congr 2
    · funext place
      simp only [blit, Function.update_apply]
      grind
    · funext place
      simp only [blit, Function.update_apply]
      grind

end Loops

/-! ## Insertion -/

section Insertion

theorem insertRow_spec (is : NodeIs node leaf (xs ++ ys) as) (room : (xs ++ ys).length < 2 * degree) :
    ∃ node', insertRow degree node xs.length rid = some node' ∧ NodeIs node' leaf (xs ++ rid :: ys) as := by
  obtain ⟨kind, count, rows, kids⟩ := is
  rw [List.length_append] at count room
  unfold insertRow
  simp (disch := omega) only [forGt_rows, setRow_eq, some_bind_eq]
  refine ⟨_, rfl, kind, ?_, ?_, kids⟩
  · simp only [count, List.length_append, List.length_cons, Nat.add_assoc]
  · unfold Holds blit at *
    simp only [Function.update_apply, count]
    grind

theorem insertSlot_spec (is : NodeIs node leaf (xs ++ ys) (as ++ bs)) (place : as.length = xs.length + 1)
    (rest : bs.length = ys.length) (room : (xs ++ ys).length < 2 * degree) :
    ∃ node', insertSlot degree node xs.length entry = some node' ∧
      NodeIs node' leaf (xs ++ entry.childKey :: ys) (as ++ entry.childPtr :: bs) := by
  obtain ⟨kind, count, rows, kids⟩ := is
  rw [List.length_append] at count room
  unfold insertSlot
  simp (disch := omega) only [forGt_rows, forGt_kids, setRow_eq, setChild_eq, some_bind_eq]
  refine ⟨_, rfl, kind, ?_, ?_, ?_⟩
  · simp only [count, List.length_append, List.length_cons, Nat.add_assoc]
  · unfold Holds blit at *
    simp only [Function.update_apply, count]
    grind
  · unfold Holds blit at *
    simp only [Function.update_apply, count]
    grind

/-- The split of a leaf cuts the list with the new row in it. -/
theorem splitRows_spec (is : NodeIs node true (xs ++ ys) []) (full : (xs ++ ys).length = 2 * degree)
    (positive : 1 ≤ degree) (newCount : new.n = degree + 1) (newKind : new.leaf = true) :
    ∃ node' new', splitRows degree node new xs.length rid = some (node', new') ∧
      NodeIs node' true ((xs ++ rid :: ys).take degree) [] ∧
      NodeIs new' true ((xs ++ rid :: ys).drop degree) [] := by
  obtain ⟨kind, count, rows, kids⟩ := is
  rw [List.length_append] at count full
  unfold splitRows
  by_cases low : xs.length < degree
  · rw [if_pos low]
    simp (disch := omega) only [forGt_rows, forLe_copyRows, setRow_eq, some_bind_eq]
    refine ⟨_, _, rfl, ⟨kind, ?_, ?_, kids⟩, ⟨newKind, ?_, ?_, nofun⟩⟩
    · grind
    · unfold Holds blit at *
      simp only [Function.update_apply]
      grind
    · grind
    · unfold Holds blit at *
      grind
  · rw [if_neg low]
    simp (disch := omega) only [forNe_copyRows, forLe_copyRows, setRow_eq, some_bind_eq]
    refine ⟨_, _, rfl, ⟨kind, ?_, ?_, kids⟩, ⟨newKind, ?_, ?_, nofun⟩⟩
    · grind
    · unfold Holds at *
      grind
    · grind
    · unfold Holds blit at *
      simp only [Function.update_apply]
      grind

/-- The split of a node cuts the lists with the new pair in them, around the middle separator. -/
theorem splitSlots_spec (is : NodeIs node false (xs ++ ys) (as ++ bs)) (place : as.length = xs.length + 1)
    (rest : bs.length = ys.length) (full : (xs ++ ys).length = 2 * degree) (positive : 1 ≤ degree)
    (newCount : new.n = degree) (newKind : new.leaf = false) :
    ∃ node' new' middle, splitSlots degree node new xs.length entry = some (node', new', middle) ∧
      (xs ++ entry.childKey :: ys)[degree]? = some middle ∧
      NodeIs node' false ((xs ++ entry.childKey :: ys).take degree)
        ((as ++ entry.childPtr :: bs).take (degree + 1)) ∧
      NodeIs new' false ((xs ++ entry.childKey :: ys).drop (degree + 1))
        ((as ++ entry.childPtr :: bs).drop (degree + 1)) := by
  obtain ⟨kind, count, rows, kids⟩ := is
  rw [List.length_append] at count full
  unfold splitSlots
  by_cases low : xs.length < degree
  · rw [if_pos low]
    simp (disch := omega) only [forGt_slots, forNe_copySlots_before, rowAt_eq, setRow_eq, childAt_eq,
      setChild_eq, some_bind_eq]
    refine ⟨_, _, _, rfl, ?_, ⟨kind, ?_, ?_, ?_⟩, ⟨newKind, ?_, ?_, ?_⟩⟩
    · unfold Holds at *
      grind
    · grind
    · unfold Holds blit at *
      simp only [Function.update_apply]
      grind
    · unfold Holds blit at *
      simp only [Function.update_apply]
      grind
    · grind
    · unfold Holds blit at *
      grind
    · unfold Holds blit at *
      simp only [Function.update_apply]
      grind
  · rw [if_neg low]
    by_cases middle : xs.length = degree
    · rw [if_pos middle]
      simp (disch := omega) only [forNe_copySlots_after, setChild_eq, some_bind_eq]
      refine ⟨_, _, _, rfl, ?_, ⟨kind, ?_, ?_, ?_⟩, ⟨newKind, ?_, ?_, ?_⟩⟩
      · grind
      · grind
      · unfold Holds at *
        grind
      · unfold Holds at *
        grind
      · grind
      · unfold Holds blit at *
        grind
      · unfold Holds blit at *
        simp only [Function.update_apply]
        grind
    · rw [if_neg middle]
      simp (disch := omega) only [forNe_copySlots_after, forNe_copySlots_next, rowAt_eq, setRow_eq,
        childAt_eq, setChild_eq, some_bind_eq]
      refine ⟨_, _, _, rfl, ?_, ⟨kind, ?_, ?_, ?_⟩, ⟨newKind, ?_, ?_, ?_⟩⟩
      · unfold Holds at *
        grind
      · grind
      · unfold Holds at *
        grind
      · unfold Holds at *
        grind
      · grind
      · unfold Holds blit at *
        simp only [Function.update_apply]
        grind
      · unfold Holds blit at *
        simp only [Function.update_apply]
        grind

theorem newRoot_spec {left right : Int} {middle : RID} (positive : 1 ≤ degree) (root : BNode) :
    ∃ root', newRoot degree root left right middle = some root' ∧
      NodeIs root' false [middle] [left, right] := by
  unfold newRoot
  simp (disch := omega) only [setRow_eq, setChild_eq, some_bind_eq]
  refine ⟨_, rfl, rfl, rfl, ?_, ?_⟩
  · unfold Holds
    simp only [Function.update_apply]
    grind
  · unfold Holds
    simp only [Function.update_apply]
    grind

end Insertion

/-! ## Deletion -/

section Deletion

variable {s t row : RID} {a c dead : Int} {rows : List RID} {kids : List Int}

theorem dropSlot_spec (is : NodeIs node leaf (xs ++ s :: ys) (as ++ a :: dead :: bs))
    (place : as.length = xs.length) (rest : bs.length = ys.length)
    (room : (xs ++ s :: ys).length ≤ 2 * degree) :
    ∃ node', dropSlot degree node xs.length = some node' ∧ NodeIs node' leaf (xs ++ ys) (as ++ a :: bs) := by
  obtain ⟨kind, count, rows, kids⟩ := is
  rw [List.length_append, List.length_cons] at count room
  unfold dropSlot
  simp (disch := omega) only [predecessor_eq, forNe_slots, some_bind_eq]
  refine ⟨_, rfl, kind, ?_, ?_, ?_⟩
  · simp only [List.length_append]
    omega
  · unfold Holds blit at *
    grind
  · unfold Holds blit at *
    grind

theorem dropRow_spec (is : NodeIs node leaf (xs ++ row :: ys) kids)
    (room : (xs ++ row :: ys).length ≤ 2 * degree) :
    ∃ node', dropRow degree node xs.length = some node' ∧ NodeIs node' leaf (xs ++ ys) kids := by
  obtain ⟨kind, count, rows, kids⟩ := is
  rw [List.length_append, List.length_cons] at count room
  unfold dropRow
  simp (disch := omega) only [predecessor_eq, forNe_rows, some_bind_eq]
  refine ⟨_, rfl, kind, ?_, ?_, kids⟩
  · simp only [List.length_append]
    omega
  · unfold Holds blit at *
    grind

/-- The first pair of the right brother goes to the end of the node, through the parent. -/
theorem borrowSlotRight_spec (is : NodeIs node false rows kids) (isPar : NodeIs nodePar leaf (xs ++ s :: ys) as)
    (isBro : NodeIs brother false (t :: rs) (c :: cs)) (kidCount : kids.length = rows.length + 1)
    (broCount : cs.length = rs.length + 1) (room : rows.length < 2 * degree)
    (roomPar : xs.length < 2 * degree) (roomBro : rs.length < 2 * degree) :
    ∃ node' nodePar' brother',
      borrowSlotRight degree node nodePar brother xs.length = some (node', nodePar', brother') ∧
      NodeIs node' false (rows ++ [s]) (kids ++ [c]) ∧ NodeIs nodePar' leaf (xs ++ t :: ys) as ∧
      NodeIs brother' false rs cs := by
  obtain ⟨kind, count, holds, children⟩ := is
  obtain ⟨kindPar, countPar, holdsPar, childrenPar⟩ := isPar
  obtain ⟨kindBro, countBro, holdsBro, childrenBro⟩ := isBro
  rw [List.length_append, List.length_cons] at countPar
  rw [List.length_cons] at countBro
  unfold borrowSlotRight
  simp (disch := omega) only [predecessor_eq, forNe_frontSlots, rowAt_eq, setRow_eq, childAt_eq,
    setChild_eq, some_bind_eq]
  refine ⟨_, _, _, rfl, ⟨kind, ?_, ?_, ?_⟩, ⟨kindPar, ?_, ?_, childrenPar⟩, ⟨kindBro, ?_, ?_, ?_⟩⟩
  · simp only [count, List.length_append, List.length_singleton]
  · unfold Holds at *
    simp only [Function.update_apply]
    grind
  · unfold Holds at *
    simp only [Function.update_apply]
    grind
  · simp only [countPar, List.length_append, List.length_cons]
  · unfold Holds at *
    simp only [Function.update_apply]
    grind
  · simp only [countBro, Nat.add_sub_cancel]
  · unfold Holds blit at *
    grind
  · unfold Holds blit at *
    simp only [Function.update_apply]
    grind

/-- The last pair of the left brother goes to the front of the node, through the parent. -/
theorem borrowSlotLeft_spec (is : NodeIs node false rows kids) (isPar : NodeIs nodePar leaf (xs ++ s :: ys) as)
    (isBro : NodeIs brother false (rs ++ [t]) (cs ++ [c])) (kidCount : kids.length = rows.length + 1)
    (broCount : cs.length = rs.length + 1) (room : rows.length < 2 * degree)
    (roomPar : xs.length < 2 * degree) (roomBro : rs.length < 2 * degree) :
    ∃ node' nodePar' brother',
      borrowSlotLeft degree node nodePar brother xs.length = some (node', nodePar', brother') ∧
      NodeIs node' false (s :: rows) (c :: kids) ∧ NodeIs nodePar' leaf (xs ++ t :: ys) as ∧
      NodeIs brother' false rs cs := by
  obtain ⟨kind, count, holds, children⟩ := is
  obtain ⟨kindPar, countPar, holdsPar, childrenPar⟩ := isPar
  obtain ⟨kindBro, countBro, holdsBro, childrenBro⟩ := isBro
  rw [List.length_append, List.length_cons] at countPar
  rw [List.length_append, List.length_singleton] at countBro
  unfold borrowSlotLeft
  simp (disch := omega) only [predecessor_eq, forGt_slots, rowAt_eq, setRow_eq, childAt_eq,
    setChild_eq, some_bind_eq]
  refine ⟨_, _, _, rfl, ⟨kind, ?_, ?_, ?_⟩, ⟨kindPar, ?_, ?_, childrenPar⟩, ⟨kindBro, ?_, ?_, ?_⟩⟩
  · simp only [count, List.length_cons]
  · unfold Holds blit at *
    simp only [Function.update_apply]
    grind
  · unfold Holds blit at *
    simp only [Function.update_apply]
    grind
  · simp only [countPar, List.length_append, List.length_cons]
  · unfold Holds at *
    simp only [Function.update_apply]
    grind
  · simp only [countBro, Nat.add_sub_cancel]
  · unfold Holds at *
    grind
  · unfold Holds at *
    grind

theorem mergeSlots_spec {left right : BNode} (isLeft : NodeIs left false xs as)
    (isRight : NodeIs right false ys bs) (leftCount : as.length = xs.length + 1)
    (rightCount : bs.length = ys.length + 1) (room : xs.length + ys.length < 2 * degree) :
    ∃ merged, mergeSlots degree left s right = some merged ∧
      NodeIs merged false (xs ++ s :: ys) (as ++ bs) := by
  obtain ⟨kind, count, holds, children⟩ := isLeft
  obtain ⟨-, countRight, holdsRight, childrenRight⟩ := isRight
  unfold mergeSlots
  simp (disch := omega) only [setRow_eq, childAt_eq, setChild_eq, some_bind_eq]
  rw [forNe_appendSlots (by simp only; omega)]
  refine ⟨_, rfl, kind, ?_, ?_, ?_⟩
  · simp only [count, countRight, List.length_append, List.length_cons]
    omega
  · unfold Holds blit at *
    simp only [Function.update_apply]
    grind
  · unfold Holds blit at *
    simp only [Function.update_apply]
    grind

theorem borrowRowRight_spec (is : NodeIs node leaf rows kids) (isBro : NodeIs brother leaf (row :: ys) bs)
    (room : rows.length < 2 * degree) (roomBro : ys.length < 2 * degree) :
    ∃ node' brother', borrowRowRight degree node brother = some (node', brother') ∧
      NodeIs node' leaf (rows ++ [row]) kids ∧ NodeIs brother' leaf ys bs := by
  obtain ⟨kind, count, holds, children⟩ := is
  obtain ⟨kindBro, countBro, holdsBro, childrenBro⟩ := isBro
  rw [List.length_cons] at countBro
  unfold borrowRowRight
  simp (disch := omega) only [predecessor_eq, forNe_frontRows, rowAt_eq, setRow_eq, some_bind_eq]
  refine ⟨_, _, rfl, ⟨kind, ?_, ?_, children⟩, ⟨kindBro, ?_, ?_, childrenBro⟩⟩
  · simp only [count, List.length_append, List.length_singleton]
  · unfold Holds at *
    simp only [Function.update_apply]
    grind
  · simp only [countBro, Nat.add_sub_cancel]
  · unfold Holds blit at *
    grind

theorem borrowRowLeft_spec (is : NodeIs node leaf (xs ++ row :: ys) kids)
    (isBro : NodeIs brother leaf (rows ++ [t]) bs) (room : (xs ++ row :: ys).length ≤ 2 * degree)
    (roomBro : rows.length < 2 * degree) :
    ∃ node' brother', borrowRowLeft degree node brother xs.length = some (node', brother') ∧
      NodeIs node' leaf (t :: (xs ++ ys)) kids ∧ NodeIs brother' leaf rows bs := by
  obtain ⟨kind, count, holds, children⟩ := is
  obtain ⟨kindBro, countBro, holdsBro, childrenBro⟩ := isBro
  rw [List.length_append, List.length_cons] at count room
  rw [List.length_append, List.length_singleton] at countBro
  unfold borrowRowLeft
  simp (disch := omega) only [predecessor_eq, forGt_rows, rowAt_eq, setRow_eq, some_bind_eq]
  refine ⟨_, _, rfl, ⟨kind, ?_, ?_, children⟩, ⟨kindBro, ?_, ?_, childrenBro⟩⟩
  · simp only [count, List.length_append, List.length_cons]
    omega
  · unfold Holds blit at *
    simp only [Function.update_apply]
    grind
  · simp only [countBro, Nat.add_sub_cancel]
  · unfold Holds at *
    grind

theorem mergeRows_spec {left right : BNode} (isLeft : NodeIs left leaf xs kids)
    (isRight : NodeIs right leaf ys bs) (room : xs.length + ys.length ≤ 2 * degree) :
    ∃ merged, mergeRows degree left right = some merged ∧ NodeIs merged leaf (xs ++ ys) kids := by
  obtain ⟨kind, count, holds, children⟩ := isLeft
  obtain ⟨-, countRight, holdsRight, -⟩ := isRight
  unfold mergeRows
  simp (disch := omega) only [forNe_appendRows, some_bind_eq]
  refine ⟨_, rfl, kind, ?_, ?_, children⟩
  · simp only [count, countRight, List.length_append]
  · unfold Holds blit at *
    grind

end Deletion

end MyJQL.Index
