import MyJQL.Index.BTree
import MyJQL.Index.Layout

/-!
# A logic for the programs of the index

The world of the index is what it knows of RIDs: the keys they stand for, the RIDs that
its caller keeps alive, and the separators it owes to `delete_handler`. Comparators are
asked about known RIDs only, and may return any number of the right sign. A handler may
change the keys of RIDs that are not known.

The logic asks for the pin discipline, and that the file grows only when the free list is
empty; `delete_handler` takes only a separator that is owed and that stands in a fetched
non-leaf node.
-/

namespace MyJQL.Index

open Library Library.Prog Storage

structure World (K : Type) where
  key : RID → K
  held : Set RID
  owed : Multiset RID

namespace World

variable {K : Type}

/-- The RIDs whose keys cannot change under the index. -/
def Knows (world : World K) (rid : RID) : Prop := rid ∈ world.held ∨ rid ∈ world.owed

end World

section Logic

variable {K Q : Type} [LinearOrder K]

/-- The answer of a comparator. -/
def Agrees (sign : Int) (first second : K) : Prop := (sign < 0 ↔ first < second) ∧ (sign = 0 ↔ first = second)

/-- A page is appended to a file with a control block only when the free list is empty. -/
def GrowsWhenEmpty {β : Type} (effect : PageOp IndexPage β) (map : PageMap IndexPage) : Prop :=
  match effect with
  | .getPage addr => 0 < map.length → map.length ≤ addr → ∃ root, map.page 0 = .ctrl ⟨root, -1⟩
  | _ => True

/-- The RID stands in a non-leaf node that has been fetched. -/
def InSeparatorSlot (pages : Pinned IndexPage) (rid : RID) : Prop :=
  ∃ addr node index, addr ∈ pages.pins ∧ pages.map.page addr = .node node ∧ node.leaf = false ∧
    index < node.n ∧ node.rowPtr index = rid

/-- The pages of the index and its world. -/
abbrev TreeState (K : Type) : Type := Pinned IndexPage × World K

/-- What `GrowsWhenEmpty` says, and no page is appended at all where nothing may grow. -/
def Grows (growing : Prop) {β : Type} (effect : PageOp IndexPage β) (map : PageMap IndexPage) : Prop :=
  match effect with
  | .getPage addr => 0 < map.length → map.length ≤ addr → growing ∧ ∃ root, map.page 0 = .ctrl ⟨root, -1⟩
  | .setFileLength _ => growing
  | _ => True

/-- `ask` is the key that a key given by pointer stands for; the file may grow, or it may not. -/
def growthLogic (growing : Prop) (ask : Q → K) : Logic (TreeOp Q) (TreeState K) where
  rule
    | _, .left effect, post, state =>
        Grows growing effect state.1.map ∧ (pinnedLogic IndexPage True).rule _ effect
          (fun result after => post result (after, state.2)) state.1
    | _, .right (.rowRowCmp rid1 rid2), post, state =>
        state.2.Knows rid1 ∧ state.2.Knows rid2 ∧
          ∀ sign, Agrees sign (state.2.key rid1) (state.2.key rid2) → post sign state
    | _, .right (.ptrRowCmp key rid), post, state =>
        state.2.Knows rid ∧ ∀ sign, Agrees sign (ask key) (state.2.key rid) → post sign state
    | _, .right (.insertHandler rid), post, state =>
        state.2.Knows rid ∧ ∀ copy key, (∀ known, state.2.Knows known → key known = state.2.key known) →
          key copy = state.2.key rid → post copy (state.1, ⟨key, state.2.held, copy ::ₘ state.2.owed⟩)
    | _, .right (.deleteHandler rid), post, state =>
        (rid ∈ state.2.owed ∧ InSeparatorSlot state.1 rid) ∧
          ∀ key, (∀ known, World.Knows ⟨state.2.key, state.2.held, state.2.owed.erase rid⟩ known →
            key known = state.2.key known) → post () (state.1, ⟨key, state.2.held, state.2.owed.erase rid⟩)
  mono {_ effect _ _ _} imp holds := by
    cases effect with
    | left effect =>
        exact ⟨holds.1, (pinnedLogic IndexPage True).mono (fun result after => imp result _) holds.2⟩
    | right effect =>
        cases effect with
        | rowRowCmp rid1 rid2 =>
            exact ⟨holds.1, holds.2.1, fun sign agrees => imp _ _ (holds.2.2 sign agrees)⟩
        | ptrRowCmp key rid => exact ⟨holds.1, fun sign agrees => imp _ _ (holds.2 sign agrees)⟩
        | insertHandler rid =>
            exact ⟨holds.1, fun copy key agree same => imp _ _ (holds.2 copy key agree same)⟩
        | deleteHandler rid => exact ⟨holds.1, fun key agree => imp _ _ (holds.2 key agree)⟩

/-- The logic of the operations. -/
abbrev treeLogic (ask : Q → K) : Logic (TreeOp Q) (TreeState K) := growthLogic True ask

omit [LinearOrder K] in
theorem Grows.whenEmpty {growing : Prop} {β : Type} {effect : PageOp IndexPage β} {map : PageMap IndexPage}
    (grows : Grows growing effect map) : GrowsWhenEmpty effect map := by
  cases effect with
  | getPage addr => exact fun positive outside => (grows positive outside).2
  | _ => trivial

end Logic

/-! ## Releases out of order -/

section Pins

variable {a b c d : Int} {pins : Multiset Int}

theorem erase_second : (a ::ₘ b ::ₘ pins).erase b = a ::ₘ pins := by
  rw [Multiset.erase_cons_tail_of_mem (Multiset.mem_cons_self _ _), Multiset.erase_cons_head]

theorem erase_third : (a ::ₘ b ::ₘ c ::ₘ pins).erase c = a ::ₘ b ::ₘ pins := by
  have member : c ∈ b ::ₘ c ::ₘ pins := Multiset.mem_cons_of_mem (Multiset.mem_cons_self _ _)
  rw [Multiset.erase_cons_tail_of_mem member, erase_second]

theorem room_zero : (0 : Multiset Int).card < cachePage := by decide

theorem room_one : (a ::ₘ 0).card < cachePage := by
  simp only [Multiset.card_cons, Multiset.card_zero]
  decide

theorem room_two : (a ::ₘ b ::ₘ 0).card < cachePage := by
  simp only [Multiset.card_cons, Multiset.card_zero]
  decide

theorem room_three : (a ::ₘ b ::ₘ c ::ₘ 0).card < cachePage := by
  simp only [Multiset.card_cons, Multiset.card_zero]
  decide

end Pins

section Rules

variable {K Q : Type} [LinearOrder K] {growing : Prop} {ask : Q → K} {map : PageMap IndexPage} {pins : Multiset Int}
  {world : World K} {addr root root' head : Int} {rid : RID}

/-! ## Effects -/

theorem wp_getPage {post : Unit → TreeState K → Prop} (inside : map.InFile addr)
    (room : pins.card < cachePage) (ended : post () (⟨map, addr ::ₘ pins⟩, world)) :
    (getPage addr : TreeProg Q Unit).wp (growthLogic growing ask) post (⟨map, pins⟩, world) :=
  ⟨fun _ outside => absurd inside.2.2 (not_lt.mpr outside), rule_getPage inside (fun _ => room) ended⟩

theorem wp_release {post : Unit → TreeState K → Prop} (pinned : addr ∈ pins)
    (ended : post () (⟨map, pins.erase addr⟩, world)) :
    (release addr : TreeProg Q Unit).wp (growthLogic growing ask) post (⟨map, pins⟩, world) :=
  ⟨trivial, rule_release (fun _ => pinned) ended⟩

theorem wp_load {post : IndexPage → TreeState K → Prop} (pinned : addr ∈ pins)
    (ended : post (map.page addr) (⟨map, pins⟩, world)) :
    (load addr : TreeProg Q IndexPage).wp (growthLogic growing ask) post (⟨map, pins⟩, world) :=
  ⟨trivial, rule_load (fun _ => pinned) ended⟩

theorem wp_store {post : Unit → TreeState K → Prop} {page : IndexPage} (pinned : addr ∈ pins)
    (ended : post () (⟨map.store addr page, pins⟩, world)) :
    (store addr page : TreeProg Q Unit).wp (growthLogic growing ask) post (⟨map, pins⟩, world) :=
  ⟨trivial, rule_store (fun _ => pinned) ended⟩

theorem wp_fileLength {post : Int → TreeState K → Prop} (ended : post map.length (⟨map, pins⟩, world)) :
    (fileLength : TreeProg Q Int).wp (growthLogic growing ask) post (⟨map, pins⟩, world) :=
  ⟨trivial, rule_fileLength ended⟩

theorem wp_insertHandler {post : RID → TreeState K → Prop} {pages : Pinned IndexPage} (known : world.Knows rid)
    (ended : ∀ copy key, (∀ known, world.Knows known → key known = world.key known) →
      key copy = world.key rid → post copy (pages, ⟨key, world.held, copy ::ₘ world.owed⟩)) :
    (insertHandler rid : TreeProg Q RID).wp (growthLogic growing ask) post (pages, world) :=
  ⟨known, ended⟩

theorem wp_deleteHandler {post : Unit → TreeState K → Prop} {pages : Pinned IndexPage} (owed : rid ∈ world.owed)
    (slot : InSeparatorSlot pages rid)
    (ended : ∀ key, (∀ known, World.Knows ⟨world.key, world.held, world.owed.erase rid⟩ known →
      key known = world.key known) → post () (pages, ⟨key, world.held, world.owed.erase rid⟩)) :
    (deleteHandler rid : TreeProg Q Unit).wp (growthLogic growing ask) post (pages, world) :=
  ⟨⟨owed, slot⟩, ended⟩

/-! ## Reads -/

section Reads

variable {layout : Layout} {nodes : Multiset NodeDesc} {taken : Multiset Int} {free : List Int} {leaf : Bool}
  {rows : List RID} {kids : List Int}

/-- What stands behind the pointer to a page that is known. -/
theorem wp_readPage {post : BNode → TreeState K → Prop} {node : BNode} (content : map.page addr = .node node)
    (pinned : addr ∈ pins) (ended : post node (⟨map, pins⟩, world)) :
    (readNode addr : TreeProg Q BNode).wp (growthLogic growing ask) post (⟨map, pins⟩, world) := by
  unfold readNode
  rw [wp_bind]
  refine wp_load pinned ?_
  rw [content]
  exact ended

/-- What stands behind the pointer to a node of the layout. -/
theorem wp_readNode {post : BNode → TreeState K → Prop} (lays : Lays map layout)
    (member : ⟨addr, leaf, rows, kids⟩ ∈ layout.nodes) (pinned : addr ∈ pins)
    (ended : ∀ node, NodeIs node leaf rows kids → post node (⟨map, pins⟩, world)) :
    (readNode addr : TreeProg Q BNode).wp (growthLogic growing ask) post (⟨map, pins⟩, world) := by
  obtain ⟨node, content, is⟩ := lays.stored _ member
  exact wp_readPage content pinned (ended node is)

/-- A page that has been taken can be read as a node, whatever stands there. -/
theorem wp_readTaken {post : BNode → TreeState K → Prop} (lays : Lays map ⟨root, nodes, {addr} + taken, free⟩)
    (pinned : addr ∈ pins) (ended : ∀ node, post node (⟨map, pins⟩, world)) :
    (readNode addr : TreeProg Q BNode).wp (growthLogic growing ask) post (⟨map, pins⟩, world) := by
  obtain ⟨node, content⟩ := lays.opened addr (Multiset.mem_add.mpr (.inl (Multiset.mem_singleton_self _)))
  unfold readNode
  rw [wp_bind]
  refine wp_load pinned ?_
  rw [content]
  exact ended node

theorem wp_getNode {post : BNode → TreeState K → Prop} (lays : Lays map layout)
    (member : ⟨addr, leaf, rows, kids⟩ ∈ layout.nodes) (room : pins.card < cachePage)
    (ended : ∀ node, NodeIs node leaf rows kids → post node (⟨map, addr ::ₘ pins⟩, world)) :
    (getNode addr : TreeProg Q BNode).wp (growthLogic growing ask) post (⟨map, pins⟩, world) := by
  unfold getNode
  rw [wp_bind]
  refine wp_getPage (lays.node_inFile member).1 room ?_
  exact wp_readNode lays member (Multiset.mem_cons_self _ _) ended

end Reads

/-! ## Scans -/

section Scans

variable {degree : Nat} {layout : Layout} {leaf : Bool} {rows : List RID} {kids : List Int} {count : Nat}
  {pages : Pinned IndexPage} {key : Q}

/-- A scan stops at the first row that passes the test. -/
theorem wp_scanRows {post : Nat → TreeState K → Prop} {test : RID → TreeProg Q Bool} {passes : RID → Prop}
    (lays : Lays map layout) (member : ⟨addr, leaf, rows, kids⟩ ∈ layout.nodes) (pinned : addr ∈ pins)
    (bound : rows.length ≤ 2 * degree) (all : count = rows.length)
    (tested : ∀ row ∈ rows, ∀ next : Bool → TreeState K → Prop,
      (∀ answer, (answer = true ↔ passes row) → next answer (⟨map, pins⟩, world)) →
        (test row).wp (growthLogic growing ask) next (⟨map, pins⟩, world))
    (ended : ∀ xs ys, rows = xs ++ ys → (∀ row ∈ xs, ¬ passes row) → (∀ row ∈ ys.head?, passes row) →
      post xs.length (⟨map, pins⟩, world)) :
    (scanRows degree test addr 0 count).wp (growthLogic growing ask) post (⟨map, pins⟩, world) := by
  have general : ∀ rest done : List RID, rows = done ++ rest → (∀ row ∈ done, ¬ passes row) →
      (scanRows degree test addr done.length rest.length).wp (growthLogic growing ask) post (⟨map, pins⟩, world) := by
    intro rest
    induction rest with
    | nil =>
        intro done split failed
        exact ended done [] split failed nofun
    | cons row rest ih =>
        intro done split failed
        have inside : done.length < rows.length := by
          rw [split, List.length_append, List.length_cons]
          omega
        have present : row ∈ rows := by
          rw [split]
          exact List.mem_append_right _ List.mem_cons_self
        simp only [List.length_cons, scanRows, wp_bind]
        refine wp_readNode lays member pinned fun node is => ?_
        have here : node.rowAt degree done.length = some row := by
          rw [rowAt_eq (by omega), ← is.rows _ inside, split, List.getElem?_append_right le_rfl,
            Nat.sub_self, List.getElem?_cons_zero]
        simp only [here, wp_ofOption_some]
        refine tested row present _ fun answer correct => ?_
        cases answer with
        | true =>
            refine ended done (row :: rest) split failed ?_
            intro other first
            cases first
            exact correct.mp rfl
        | false =>
            have extended := ih (done ++ [row]) (split.trans (List.append_cons ..)) ?_
            · rw [List.length_append, List.length_singleton] at extended
              exact extended
            · intro other member
              rcases List.mem_append.mp member with old | new
              · exact failed other old
              · rw [List.mem_singleton] at new
                subst new
                exact fun pass => Bool.false_ne_true (correct.mpr pass)
  rw [all]
  exact general rows [] rfl fun _ member => absurd member List.not_mem_nil

theorem wp_rowBefore {next : Bool → TreeState K → Prop} {row : RID} (known : world.Knows rid)
    (knows : world.Knows row)
    (ended : ∀ answer, (answer = true ↔ world.key rid < world.key row) → next answer (pages, world)) :
    (rowBefore rid row : TreeProg Q Bool).wp (growthLogic growing ask) next (pages, world) := by
  unfold rowBefore
  simp only [wp_bind]
  refine ⟨known, knows, fun sign agrees => ended _ ?_⟩
  rw [decide_eq_true_iff]
  exact agrees.1

theorem wp_rowEquals {next : Bool → TreeState K → Prop} {row : RID} (known : world.Knows rid)
    (knows : world.Knows row)
    (ended : ∀ answer, (answer = true ↔ world.key rid = world.key row) → next answer (pages, world)) :
    (rowEquals rid row : TreeProg Q Bool).wp (growthLogic growing ask) next (pages, world) := by
  unfold rowEquals
  simp only [wp_bind]
  refine ⟨known, knows, fun sign agrees => ended _ ?_⟩
  rw [decide_eq_true_iff]
  exact agrees.2

theorem wp_keyBefore {next : Bool → TreeState K → Prop} {row : RID} (knows : world.Knows row)
    (ended : ∀ answer, (answer = true ↔ ask key < world.key row) → next answer (pages, world)) :
    (keyBefore key row).wp (growthLogic growing ask) next (pages, world) := by
  unfold keyBefore
  simp only [wp_bind]
  refine ⟨knows, fun sign agrees => ended _ ?_⟩
  rw [decide_eq_true_iff]
  exact agrees.1

theorem wp_keyEquals {next : Bool → TreeState K → Prop} {row : RID} (knows : world.Knows row)
    (ended : ∀ answer, (answer = true ↔ ask key = world.key row) → next answer (pages, world)) :
    (keyEquals key row).wp (growthLogic growing ask) next (pages, world) := by
  unfold keyEquals
  simp only [wp_bind]
  refine ⟨knows, fun sign agrees => ended _ ?_⟩
  rw [decide_eq_true_iff]
  exact agrees.2

/-- The scan of `insert_entry` and `delete_entry` for the place of a key. -/
theorem wp_scanBefore {post : Nat → TreeState K → Prop} (lays : Lays map layout)
    (member : ⟨addr, leaf, rows, kids⟩ ∈ layout.nodes) (pinned : addr ∈ pins) (bound : rows.length ≤ 2 * degree)
    (all : count = rows.length) (known : world.Knows rid) (knows : ∀ row ∈ rows, world.Knows row)
    (ended : ∀ xs ys, rows = xs ++ ys → (∀ row ∈ xs, world.key row ≤ world.key rid) →
      (∀ row ∈ ys.head?, world.key rid < world.key row) → post xs.length (⟨map, pins⟩, world)) :
    (scanRows degree (rowBefore rid) addr 0 count).wp (growthLogic growing ask) post (⟨map, pins⟩, world) := by
  refine wp_scanRows lays member pinned bound all (fun row here next => wp_rowBefore known (knows row here)) ?_
  intro xs ys split failed passed
  exact ended xs ys split (fun row member => not_lt.mp (failed row member)) passed

/-- The scan of `delete_entry` for the row of a key that is there. -/
theorem wp_findRow {post : Nat → TreeState K → Prop} {row : RID} (lays : Lays map layout)
    (member : ⟨addr, leaf, rows, kids⟩ ∈ layout.nodes) (pinned : addr ∈ pins) (bound : rows.length ≤ 2 * degree)
    (known : world.Knows rid) (knows : ∀ row ∈ rows, world.Knows row) (present : row ∈ rows)
    (same : world.key row = world.key rid)
    (ended : ∀ xs row ys, rows = xs ++ row :: ys → world.key row = world.key rid →
      post xs.length (⟨map, pins⟩, world)) :
    (findRow degree addr rid).wp (growthLogic growing ask) post (⟨map, pins⟩, world) := by
  unfold findRow
  rw [wp_bind]
  refine wp_readNode lays member pinned fun node is => ?_
  refine wp_scanRows lays member pinned bound is.count (fun row here next => wp_rowEquals known (knows row here)) ?_
  intro xs ys split failed passed
  cases ys with
  | nil =>
      rw [List.append_nil] at split
      exact absurd same.symm (failed row (split ▸ present))
  | cons first ys => exact ended xs first ys split (passed first rfl).symm

end Scans

/-! ## Nodes and the control block -/

section Nodes

variable {layout : Layout} {nodes : Multiset NodeDesc} {taken : Multiset Int} {free : List Int}
  {node : BNode} {leaf leaf' : Bool} {rows rows' : List RID} {kids kids' : List Int}

/-- A separator of a node that has been fetched. -/
theorem Lays.slot (lays : Lays map layout) (member : ⟨addr, false, rows, kids⟩ ∈ layout.nodes)
    (here : rid ∈ rows) (pinned : addr ∈ pins) : InSeparatorSlot ⟨map, pins⟩ rid := by
  obtain ⟨node, content, is⟩ := lays.stored _ member
  obtain ⟨index, inside, same⟩ := List.mem_iff_getElem.mp here
  refine ⟨addr, node, index, pinned, content, is.kind, ?_, ?_⟩
  · rw [is.count]
    exact inside
  · have holds := is.rows index inside
    rw [List.getElem?_eq_getElem inside, same] at holds
    exact (Option.some.inj holds).symm

theorem wp_loadCtrl {post : BCtrlBlock → TreeState K → Prop} {block : BCtrlBlock}
    (content : map.page 0 = .ctrl block) (pinned : 0 ∈ pins) (ended : post block (⟨map, pins⟩, world)) :
    (loadCtrl : TreeProg Q BCtrlBlock).wp (growthLogic growing ask) post (⟨map, pins⟩, world) := by
  unfold loadCtrl
  simp only [wp_bind]
  refine wp_load pinned ?_
  rw [content]
  exact ended

/-- A page that has been taken is written, and stays taken. -/
theorem wp_writeTaken {post : Unit → TreeState K → Prop} (lays : Lays map ⟨root, nodes, {addr} + taken, free⟩)
    (pinned : addr ∈ pins)
    (ended : ∀ map', Lays map' ⟨root, nodes, {addr} + taken, free⟩ → map'.page addr = .node node →
      post () (⟨map', pins⟩, world)) :
    (writeNode addr node : TreeProg Q Unit).wp (growthLogic growing ask) post (⟨map, pins⟩, world) :=
  wp_store pinned (ended _ (lays.store_taken node) (PageMap.store_page_self _ _ _))

/-- A page that has been taken is written as a node. -/
theorem wp_writeNew {post : Unit → TreeState K → Prop} (lays : Lays map ⟨root, nodes, {addr} + taken, free⟩)
    (is : NodeIs node leaf rows kids) (pinned : addr ∈ pins)
    (ended : ∀ map', Lays map' ⟨root, {⟨addr, leaf, rows, kids⟩} + nodes, taken, free⟩ →
      post () (⟨map', pins⟩, world)) :
    (writeNode addr node : TreeProg Q Unit).wp (growthLogic growing ask) post (⟨map, pins⟩, world) :=
  wp_store pinned (ended _ ((lays.store_taken node).tie (PageMap.store_page_self _ _ _) is))

/-- A node is written. -/
theorem wp_writeNode {post : Unit → TreeState K → Prop}
    (lays : Lays map ⟨root, {⟨addr, leaf', rows', kids'⟩} + nodes, taken, free⟩)
    (is : NodeIs node leaf rows kids) (pinned : addr ∈ pins)
    (ended : ∀ map', Lays map' ⟨root, {⟨addr, leaf, rows, kids⟩} + nodes, taken, free⟩ →
      post () (⟨map', pins⟩, world)) :
    (writeNode addr node : TreeProg Q Unit).wp (growthLogic growing ask) post (⟨map, pins⟩, world) :=
  wp_writeNew lays.untie is pinned ended

/-- A page that has been taken is written as a node and released. -/
theorem wp_putTaken {post : Unit → TreeState K → Prop} (lays : Lays map ⟨root, nodes, {addr} + taken, free⟩)
    (is : NodeIs node leaf rows kids) (pinned : addr ∈ pins)
    (ended : ∀ map', Lays map' ⟨root, {⟨addr, leaf, rows, kids⟩} + nodes, taken, free⟩ →
      post () (⟨map', pins.erase addr⟩, world)) :
    (putNode addr node : TreeProg Q Unit).wp (growthLogic growing ask) post (⟨map, pins⟩, world) := by
  unfold putNode
  rw [wp_bind]
  exact wp_writeNew lays is pinned fun map' lays' => wp_release pinned (ended map' lays')

/-- A node is written and released. -/
theorem wp_putNode {post : Unit → TreeState K → Prop}
    (lays : Lays map ⟨root, {⟨addr, leaf', rows', kids'⟩} + nodes, taken, free⟩)
    (is : NodeIs node leaf rows kids) (pinned : addr ∈ pins)
    (ended : ∀ map', Lays map' ⟨root, {⟨addr, leaf, rows, kids⟩} + nodes, taken, free⟩ →
      post () (⟨map', pins.erase addr⟩, world)) :
    (putNode addr node : TreeProg Q Unit).wp (growthLogic growing ask) post (⟨map, pins⟩, world) :=
  wp_putTaken lays.untie is pinned ended

theorem wp_takeNode {post : Int → TreeState K → Prop} (lays : Lays map ⟨root, nodes, taken, free⟩)
    (pinned : 0 ∈ pins) (room : pins.card < cachePage)
    (ended : ∀ addr map' free', Lays map' ⟨root, nodes, {addr} + taken, free'⟩ →
      post addr (⟨map', addr ::ₘ pins⟩, world)) :
    (takeNode : TreeProg Q Int).wp (treeLogic ask) post (⟨map, pins⟩, world) := by
  unfold takeNode getNode readNode
  simp only [wp_bind]
  cases free with
  | nil =>
      obtain ⟨content, appended⟩ := lays.take_new
      refine wp_loadCtrl content pinned ?_
      rw [if_neg (not_not.mpr rfl)]
      simp only [wp_bind]
      refine wp_fileLength ⟨fun _ _ => ⟨trivial, root, content⟩, ?_⟩
      refine rule_getPage_append lays.whole lays.positive.le le_rfl (fun _ => room) (fun _ => le_rfl) ?_
      exact ended _ _ _ appended
  | cons addr free =>
      obtain ⟨content, taken⟩ := lays.take_free
      obtain ⟨inside, -⟩ := lays.free_inFile List.mem_cons_self
      obtain ⟨node, page⟩ := lays.freed addr List.mem_cons_self
      have proper : addr ≠ -1 := by
        have nonneg := inside.2.1
        omega
      have fetched : (0 : Int) ∈ addr ::ₘ pins := Multiset.mem_cons_of_mem pinned
      refine wp_loadCtrl content pinned ?_
      rw [if_pos proper]
      simp only [wp_bind]
      refine wp_getPage inside room (wp_load (Multiset.mem_cons_self _ _) ?_)
      rw [page]
      refine wp_loadCtrl content fetched (wp_store fetched ?_)
      have next : nextOf map addr = node.next := by
        rw [nextOf, page]
      rw [next] at taken
      exact ended _ _ _ taken

theorem wp_setRoot {post : Unit → TreeState K → Prop} (lays : Lays map ⟨root, nodes, taken, free⟩)
    (room : pins.card < cachePage)
    (ended : ∀ map', Lays map' ⟨addr, nodes, taken, free⟩ → post () (⟨map', pins⟩, world)) :
    (setRoot addr : TreeProg Q Unit).wp (growthLogic growing ask) post (⟨map, pins⟩, world) := by
  obtain ⟨head, content, -⟩ := lays.ctrl
  have fetched : (0 : Int) ∈ 0 ::ₘ pins := Multiset.mem_cons_self _ _
  unfold setRoot storeCtrl
  simp only [wp_bind]
  refine wp_getPage lays.ctrl_inFile room (wp_loadCtrl content fetched ?_)
  refine wp_store fetched (wp_release fetched ?_)
  rw [Multiset.erase_cons_head]
  exact ended _ (lays.store_root content)

/-- A node that is given up goes to the front of the free list. -/
theorem wp_freeNode {post : Unit → TreeState K → Prop}
    (lays : Lays map ⟨root, {⟨addr, leaf, rows, kids⟩} + nodes, taken, free⟩)
    (pinned : addr ∈ pins) (room : pins.card < cachePage)
    (ended : ∀ map', Lays map' ⟨root, nodes, taken, addr :: free⟩ → post () (⟨map', pins.erase addr⟩, world)) :
    (freeNode addr : TreeProg Q Unit).wp (growthLogic growing ask) post (⟨map, pins⟩, world) := by
  obtain ⟨head, content, -⟩ := lays.ctrl
  obtain ⟨notZero, -, -⟩ := lays.untie.taken_fresh
  have fetched : (0 : Int) ∈ 0 ::ₘ pins := Multiset.mem_cons_self _ _
  have pinned' : addr ∈ 0 ::ₘ pins := Multiset.mem_cons_of_mem pinned
  unfold freeNode storeCtrl writeNode
  simp only [wp_bind]
  refine wp_getPage lays.ctrl_inFile room (wp_loadCtrl content fetched ?_)
  refine wp_readNode lays Lays.mem_front pinned' fun node is => ?_
  refine wp_store pinned' (wp_store fetched (wp_release fetched ?_))
  rw [Multiset.erase_cons_head]
  refine wp_release pinned (ended _ ?_)
  have control := (PageMap.store_page_of_ne map (.node { node with n := 0, next := head }) notZero.symm).trans content
  exact (lays.untie.store_taken _).give control (PageMap.store_page_self _ _ _) rfl

/-- The root is given up, and the node that it names, or none, is the root. -/
theorem wp_freeRoot {post : Unit → TreeState K → Prop} {choose : BNode → Option Int}
    (lays : Lays map ⟨root, {⟨addr, leaf, rows, kids⟩} + nodes, taken, free⟩)
    (pinned : addr ∈ pins) (room : pins.card < cachePage)
    (named : ∀ node, NodeIs node leaf rows kids → choose node = some root')
    (ended : ∀ map', Lays map' ⟨root', nodes, taken, addr :: free⟩ → post () (⟨map', pins.erase addr⟩, world)) :
    (freeRoot addr choose : TreeProg Q Unit).wp (growthLogic growing ask) post (⟨map, pins⟩, world) := by
  obtain ⟨head, content, -⟩ := lays.ctrl
  obtain ⟨notZero, -, -⟩ := lays.untie.taken_fresh
  have fetched : (0 : Int) ∈ 0 ::ₘ pins := Multiset.mem_cons_self _ _
  have pinned' : addr ∈ 0 ::ₘ pins := Multiset.mem_cons_of_mem pinned
  unfold freeRoot storeCtrl writeNode
  simp only [wp_bind]
  refine wp_getPage lays.ctrl_inFile room (wp_loadCtrl content fetched ?_)
  refine wp_readNode lays Lays.mem_front pinned' fun node is => ?_
  refine wp_store pinned' (wp_store fetched ?_)
  have control := (PageMap.store_page_of_ne map (.node { node with next := head }) notZero.symm).trans content
  have given := (lays.untie.store_taken _).give control (PageMap.store_page_self _ _ _) rfl
  refine wp_loadCtrl (PageMap.store_page_self _ _ _) fetched ?_
  rw [named node is]
  refine wp_store fetched (wp_release fetched ?_)
  rw [Multiset.erase_cons_head]
  exact wp_release pinned (ended _ (given.store_root (PageMap.store_page_self _ _ _)))

end Nodes

end Rules

end MyJQL.Index
