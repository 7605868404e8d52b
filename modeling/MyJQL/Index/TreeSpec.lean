import MyJQL.Index.InsertSpec
import MyJQL.Index.DeleteSpec
import MyJQL.Index.Rounds

/-!
# The operations of the index

Between two operations no page is fetched, and the file holds either a tree whose leftmost
leaf is the page at `PAGE_SIZE`, or no tree, and then that page is the one an insertion
will take. Each operation keeps this. Its recursion is no deeper than the logarithm of the
number of rows, and so ends within the bound that the length of the file puts on its depth.
-/

namespace MyJQL.Index

open Library Library.Prog Storage

section Operations

variable {K Q : Type} [LinearOrder K] {growing : Prop} {ask : Q → K} {degree height limit : Nat}
  {map : PageMap IndexPage} {world : World K} {word : Word RID} {free : List Int} {rid row : RID} {key : Q}

/-- The next new node is the page at `PAGE_SIZE`. -/
def FirstPageNext (map : PageMap IndexPage) (free : List Int) : Prop :=
  (free = [] ∧ map.length = pageSize) ∨ free.head? = some pageSize

/-- An index file between two operations; `word` is what the leaves and the separators say from left to right. -/
inductive Stands (degree : Nat) : Word RID → TreeState K → Prop where
  | tree {height : Nat} {state : TreeState K} (tree : Tree Int RID height) (left : tree.leftmost = pageSize)
      (sized : tree.Sized degree 1) (rests : Rests state tree.addr tree.nodes 0 tree.word) :
      Stands degree tree.word state
  | nothing {state : TreeState K} (free : List Int) (pins : state.1.pins = 0)
      (lays : Lays state.1.map ⟨-1, 0, 0, free⟩) (first : FirstPageNext state.1.map free)
      (sound : Sound state.2 0 []) : Stands degree [] state

theorem Stands.pins {state : TreeState K} (stands : Stands degree word state) : state.1.pins = 0 := by
  cases stands with
  | tree tree left sized rests => exact rests.pins
  | nothing free pins lays first sound => exact pins

theorem Stands.sound {state : TreeState K} (stands : Stands degree word state) : Sound state.2 0 word := by
  cases stands with
  | tree tree left sized rests => exact rests.sound
  | nothing free pins lays first sound => exact sound

/-- The caller lends or takes back RIDs that are not in the index. -/
theorem Stands.congr {pages : Pinned IndexPage} {world' : World K} (stands : Stands degree word (pages, world))
    (keys : ∀ mark ∈ word, world'.key mark.row = world.key mark.row) (held : ∀ row ∈ word.items, row ∈ world'.held)
    (owed : world'.owed = world.owed) : Stands degree word (pages, world') := by
  have sound : Sound world' 0 word :=
    ⟨stands.sound.sorted.congr keys, held, owed.trans stands.sound.owed⟩
  cases stands with
  | tree tree left sized rests => exact .tree tree left sized ⟨rests.pins, rests.lays, sound⟩
  | nothing free pins lays first _ => exact .nothing free pins lays first sound

/-! ## Opening an empty file -/

/-- The control block alone. -/
theorem lays_control (empty : map.length = pageSize) (content : map.page 0 = .ctrl ⟨-1, -1⟩) :
    Lays map ⟨-1, 0, 0, []⟩ := by
  refine ⟨⟨-1, content, rfl⟩, ?_, ?_, nofun, ?_, ?_, ?_, ?_⟩
  · exact fun _ member => absurd member (Multiset.notMem_zero _)
  · exact fun _ member => absurd member (Multiset.notMem_zero _)
  · exact Multiset.nodup_zero
  · intro addr
    constructor
    · exact fun member => absurd member (Multiset.notMem_zero _)
    · rintro ⟨⟨aligned, nonneg, below⟩, proper⟩
      rw [empty] at below
      simp only [pageSize] at aligned below
      omega
  · rw [empty]
    decide
  · rw [empty]
    decide

theorem wp_bTreeInit {post : Unit → TreeState K → Prop} (owed : world.owed = 0)
    (ended : ∀ state, Stands degree [] state → state.2 = world → post () state) :
    (bTreeInit : TreeProg Q Unit).wp (treeLogic ask) post (⟨PageMap.empty, 0⟩, world) := by
  have fetched : (0 : Int) ∈ (0 : Int) ::ₘ 0 := Multiset.mem_cons_self _ _
  unfold bTreeInit storeCtrl
  rw [wp_bind]
  refine wp_fileLength ?_
  have closed : (PageMap.empty : PageMap IndexPage).length = 0 := rfl
  rw [if_neg (not_not.mpr closed), wp_bind]
  refine ⟨fun positive _ => absurd positive (lt_irrefl _), ?_⟩
  refine rule_getPage_append rfl le_rfl le_rfl (fun _ => room_zero) (fun _ => le_rfl) ?_
  unfold loadCtrl
  simp only [wp_bind]
  refine wp_load fetched ?_
  rw [PageMap.append_page_self]
  refine wp_store fetched (wp_release fetched ?_)
  rw [Multiset.erase_cons_head]
  refine ended _ (.nothing [] rfl ?_ (.inl ⟨rfl, rfl⟩) (.nil owed)) rfl
  exact lays_control rfl (PageMap.store_page_self _ _ _)

/-- An index that is opened again is as it was. -/
theorem Stands.wp_bTreeInit {post : Unit → TreeState K → Prop} (stands : Stands degree word (⟨map, 0⟩, world))
    (ended : post () (⟨map, 0⟩, world)) :
    (bTreeInit : TreeProg Q Unit).wp (treeLogic ask) post (⟨map, 0⟩, world) := by
  have positive : 0 < map.length := by
    cases stands with
    | tree tree left sized rests => exact rests.lays.choose_spec.positive
    | nothing free pins lays first sound => exact lays.positive
  unfold bTreeInit
  rw [wp_bind]
  refine wp_fileLength ?_
  rw [if_pos positive.ne']
  exact ended

/-! ## Search -/

theorem wp_bTreeSearchFor {post : RID → TreeState K → Prop} (stands : Stands degree word (⟨map, 0⟩, world))
    (deep : Nat.log (degree + 1) word.items.card < limit)
    (ended : ∀ result, Answers world (ask key) word.items result → post result (⟨map, 0⟩, world)) :
    (bTreeSearchFor degree limit key).wp (growthLogic growing ask) post (⟨map, 0⟩, world) := by
  have fetched : (0 : Int) ∈ (0 : Int) ::ₘ 0 := Multiset.mem_cons_self _ _
  unfold bTreeSearchFor
  cases stands with
  | nothing free pins lays first sound =>
      obtain ⟨head, content, -⟩ := lays.ctrl
      rw [wp_bind]
      refine wp_getPage lays.ctrl_inFile room_zero ?_
      rw [wp_bind]
      refine wp_loadCtrl content fetched ?_
      rw [wp_bind]
      refine wp_release fetched ?_
      rw [Multiset.erase_cons_head, if_pos rfl]
      exact ended _ (.inr ⟨nofun, rfl⟩)
  | @tree height _ tree left sized rests =>
      obtain ⟨-, ⟨free, lays⟩, sound⟩ := rests
      obtain ⟨head, content, -⟩ := lays.ctrl
      obtain ⟨top, member, same⟩ := tree.root_mem_nodes
      have proper : tree.addr ≠ -1 := by
        have nonneg := (lays.node_inFile member).1.2.1
        omega
      rw [wp_bind]
      refine wp_getPage lays.ctrl_inFile room_zero ?_
      rw [wp_bind]
      refine wp_loadCtrl content fetched ?_
      rw [wp_bind]
      refine wp_release fetched ?_
      rw [Multiset.erase_cons_head, if_neg proper, wp_bind]
      refine wp_fileLength ?_
      have enough := lt_min ((tree.height_le_log sized).trans_lt deep)
        (lt_of_lt_of_le (tree.height_lt_card sized) lays.card_nodes_le)
      have plain : ([] : Word RID) ++ tree.word ++ [] = tree.word := by rw [List.nil_append, List.append_nil]
      rw [← plain] at sound
      refine wp_searchEntry tree enough lays (fun _ => id) sized sound (.nil world _) fun result answers => ended result ?_
      rwa [plain] at answers

theorem wp_bTreeSearch {post : RID → TreeState K → Prop} (stands : Stands degree word (⟨map, 0⟩, world))
    (ended : ∀ result, Answers world (ask key) word.items result → post result (⟨map, 0⟩, world)) :
    (bTreeSearch degree key).wp (growthLogic growing ask) post (⟨map, 0⟩, world) :=
  bTreeSearchFor_below.wp (wp_bTreeSearchFor stands (Nat.lt_succ_self _) ended)

/-! ## Insertion -/

/-- What an insertion leaves, from what `insert_entry` leaves of the whole tree. -/
theorem Settled.stands {low : Nat} {addr root : Int} {entry : NewChildEntry} {state : TreeState K}
    (settled : Settled degree low height addr pageSize root 0 [] word [] entry state) (top : addr = root)
    (sized : ∀ tree : Tree Int RID height, tree.word = word → tree.Sized degree low → tree.Sized degree 1) :
    Stands degree word state := by
  have plain : ([] : Word RID) ++ word ++ [] = word := by rw [List.nil_append, List.append_nil]
  cases settled with
  | whole tree noEntry same left reads sized' rests =>
      rw [plain, add_zero, ← top, ← same, ← reads] at rests
      rw [← reads]
      exact .tree tree left (sized tree reads sized') rests
  | split tree new separator inner same left reads sized' sizedNew rests => exact absurd top inner
  | grown tree top left reads sized' rests =>
      rw [plain, add_zero, ← reads] at rests
      rw [← reads]
      exact .tree tree left sized' rests

/-- The recursion of `b_tree_insert`, on the root that stands. -/
theorem wp_insertRoot {low : Nat} {post : RID → TreeState K → Prop} (positive : 1 ≤ degree)
    (tree : Tree Int RID height) (deep : height < limit) (lays : Lays map ⟨tree.addr, tree.nodes, 0, free⟩) (left : tree.leftmost = pageSize)
    (sized : tree.Sized degree low) (sound : Sound world 0 tree.word) (held : rid ∈ world.held)
    (absent : ∀ row ∈ tree.word.items, world.key row ≠ world.key rid)
    (filled : ∀ tree' : Tree Int RID height, 0 < tree'.word.items.card → tree'.Sized degree low → tree'.Sized degree 1)
    (ended : ∀ word state, word.items = rid ::ₘ tree.word.items → Stands degree word state →
      Later world state.2 → post rid state) :
    (do
      let length ← fileLength
      let _ ← insertEntry degree (min limit length.toNat) tree.addr rid tree.addr
      return rid : TreeProg Q RID).wp (treeLogic ask) post (⟨map, 0⟩, world) := by
  have plain : ([] : Word RID) ++ tree.word ++ [] = tree.word := by rw [List.nil_append, List.append_nil]
  have enough := lt_min deep (lt_of_lt_of_le (tree.height_lt_card sized) lays.card_nodes_le)
  rw [← add_zero tree.nodes] at lays
  rw [← plain] at sound
  rw [wp_bind]
  refine wp_fileLength ?_
  rw [wp_bind]
  refine wp_insertEntry positive tree enough lays (.inl rfl) sized sound held
    (.nil world _) absent ?_
  intro word entry state items settled later
  rw [left] at settled
  refine ended word state items (settled.stands rfl fun tree' reads => filled tree' ?_) later
  rw [reads, items, Multiset.card_cons]
  exact Nat.succ_pos _

/-- The node that `b_tree_insert` initialises. -/
theorem emptyLeaf (node : BNode) : NodeIs { node with n := 0, next := -1, leaf := true } true [] [] :=
  ⟨rfl, rfl, nofun, nofun⟩

/-- The end of `b_tree_insert` on an empty tree, when the page at `PAGE_SIZE` has been initialised. -/
theorem wp_rootTaken {node : BNode} {post : RID → TreeState K → Prop} (positive : 1 ≤ degree) (deep : 0 < limit)
    (lays : Lays map ⟨-1, 0, {pageSize} + 0, free⟩) (content : map.page pageSize = .node node)
    (is : NodeIs node true [] []) (sound : Sound world 0 []) (held : rid ∈ world.held)
    (ended : ∀ word state, word.items = rid ::ₘ 0 → Stands degree word state → Later world state.2 → post rid state) :
    (do
      let ctrl ← loadCtrl
      storeCtrl { ctrl with rootNode := pageSize }
      let ctrl ← loadCtrl
      release 0
      release ctrl.rootNode
      let length ← fileLength
      let _ ← insertEntry degree (min limit length.toNat) ctrl.rootNode rid ctrl.rootNode
      return rid : TreeProg Q RID).wp (treeLogic ask) post (⟨map, pageSize ::ₘ (0 : Int) ::ₘ 0⟩, world) := by
  have fetched : (0 : Int) ∈ pageSize ::ₘ (0 : Int) ::ₘ 0 := Multiset.mem_cons_of_mem (Multiset.mem_cons_self _ _)
  obtain ⟨head, control, -⟩ := lays.ctrl
  have stored : Lays (map.store 0 (.ctrl ⟨pageSize, head⟩))
      ⟨pageSize, (Tree.leaf pageSize ([] : List RID)).nodes, 0, free⟩ := by
    rw [Tree.nodes_leaf, ← add_zero {_}]
    exact (lays.tie content is).store_root control
  rw [wp_bind]
  refine wp_loadCtrl control fetched ?_
  unfold storeCtrl
  rw [wp_bind]
  refine wp_store fetched ?_
  rw [wp_bind]
  refine wp_loadCtrl (PageMap.store_page_self _ _ _) fetched ?_
  rw [wp_bind]
  refine wp_release fetched ?_
  rw [erase_second, wp_bind]
  refine wp_release (Multiset.mem_cons_self _ _) ?_
  rw [Multiset.erase_cons_head]
  refine wp_insertRoot positive (Tree.leaf pageSize []) deep stored rfl ⟨le_rfl, Nat.zero_le _⟩ sound held
    nofun ?_ ended
  intro tree filled sized
  obtain ⟨addr, rows, rfl⟩ := tree.exists_leaf
  rw [Tree.word_leaf, Word.items_rows, Multiset.coe_card] at filled
  exact ⟨filled, sized.2⟩

theorem wp_bTreeInsertFor {post : RID → TreeState K → Prop} (positive : 1 ≤ degree)
    (stands : Stands degree word (⟨map, 0⟩, world)) (deep : Nat.log (degree + 1) word.items.card < limit)
    (held : rid ∈ world.held)
    (absent : ∀ row ∈ word.items, world.key row ≠ world.key rid)
    (ended : ∀ word' state, word'.items = rid ::ₘ word.items → Stands degree word' state →
      Later world state.2 → post rid state) :
    (bTreeInsertFor degree limit rid : TreeProg Q RID).wp (treeLogic ask) post (⟨map, 0⟩, world) := by
  have fetched : (0 : Int) ∈ (0 : Int) ::ₘ 0 := Multiset.mem_cons_self _ _
  unfold bTreeInsertFor
  rw [wp_bind]
  cases stands with
  | @tree height _ tree left sized rests =>
      obtain ⟨-, ⟨free, lays⟩, sound⟩ := rests
      obtain ⟨head, content, -⟩ := lays.ctrl
      obtain ⟨top, member, same⟩ := tree.root_mem_nodes
      have inside := (lays.node_inFile member).1
      rw [same] at inside
      have proper : tree.addr ≠ -1 := by
        have nonneg := inside.2.1
        omega
      have fetched' : (0 : Int) ∈ tree.addr ::ₘ (0 : Int) ::ₘ 0 := Multiset.mem_cons_of_mem fetched
      refine wp_getPage lays.ctrl_inFile room_zero ?_
      rw [wp_bind]
      refine wp_loadCtrl content fetched ?_
      rw [if_pos proper, wp_bind]
      refine wp_getPage inside room_one ?_
      rw [wp_bind]
      refine wp_loadCtrl content fetched' ?_
      rw [wp_bind]
      refine wp_release fetched' ?_
      rw [erase_second, wp_bind]
      refine wp_release (Multiset.mem_cons_self _ _) ?_
      rw [Multiset.erase_cons_head]
      exact wp_insertRoot positive tree ((tree.height_le_log sized).trans_lt deep) lays left sized sound held absent
        (fun _ _ => id) ended
  | nothing free pins lays first sound =>
      refine wp_getPage lays.ctrl_inFile room_zero ?_
      rw [wp_bind]
      rcases first with ⟨rfl, only⟩ | next
      · obtain ⟨content, appended⟩ := lays.take_new
        have length : map.length = pageSize := only
        rw [length] at appended
        refine wp_loadCtrl content fetched ?_
        rw [if_neg (not_not.mpr rfl), if_pos rfl]
        unfold getNode readNode
        simp only [wp_bind]
        refine ⟨fun _ _ => ⟨trivial, -1, content⟩, ?_⟩
        refine rule_getPage_append (by decide) (by decide) length.le (fun _ => room_one) (fun _ => length.ge) ?_
        refine wp_load (Multiset.mem_cons_self _ _) ?_
        rw [PageMap.append_page_self]
        refine wp_store (Multiset.mem_cons_self _ _) ?_
        simp only [← wp_bind]
        exact wp_rootTaken positive (Nat.zero_lt_of_lt deep) (appended.store_taken _)
          (PageMap.store_page_self _ _ _) (emptyLeaf _) sound held ended
      · obtain ⟨rest, rfl⟩ : ∃ rest, free = pageSize :: rest := by
          cases free with
          | nil => cases next
          | cons addr rest =>
              cases next
              exact ⟨rest, rfl⟩
        obtain ⟨content, taken⟩ := lays.take_free
        have inside := (lays.free_inFile List.mem_cons_self).1
        obtain ⟨node, page⟩ := lays.freed pageSize List.mem_cons_self
        refine wp_loadCtrl content fetched ?_
        rw [if_neg (not_not.mpr rfl), if_neg (by decide)]
        have fetched' : (0 : Int) ∈ pageSize ::ₘ (0 : Int) ::ₘ 0 := Multiset.mem_cons_of_mem fetched
        unfold getNode readNode
        simp only [wp_bind]
        refine wp_getPage inside room_one (wp_load (Multiset.mem_cons_self _ _) ?_)
        rw [page]
        refine wp_loadCtrl content fetched' (wp_store fetched' (wp_store (Multiset.mem_cons_self _ _) ?_))
        have after : nextOf map pageSize = node.next := by rw [nextOf, page]
        rw [after] at taken
        simp only [← wp_bind]
        exact wp_rootTaken positive (Nat.zero_lt_of_lt deep) (taken.store_taken _)
          (PageMap.store_page_self _ _ _) (emptyLeaf _) sound held ended

theorem wp_bTreeInsert {post : RID → TreeState K → Prop} (positive : 1 ≤ degree)
    (stands : Stands degree word (⟨map, 0⟩, world)) (held : rid ∈ world.held)
    (absent : ∀ row ∈ word.items, world.key row ≠ world.key rid)
    (ended : ∀ word' state, word'.items = rid ::ₘ word.items → Stands degree word' state →
      Later world state.2 → post rid state) :
    (bTreeInsert degree rid : TreeProg Q RID).wp (treeLogic ask) post (⟨map, 0⟩, world) :=
  bTreeInsertFor_below.wp (wp_bTreeInsertFor positive stands (Nat.lt_succ_self _) held absent ended)

/-! ## Deletion -/

/-- What a deletion leaves of a tree whose leftmost leaf is the page at `PAGE_SIZE`. -/
theorem Remains.stands {state : TreeState K} (remains : Remains degree pageSize word state) :
    Stands degree word state := by
  cases remains with
  | tree tree left sized rests => exact .tree tree left sized rests
  | nothing free pins lays sound => exact .nothing (pageSize :: free) pins lays (.inr rfl) sound

theorem wp_bTreeDeleteFor {post : Unit → TreeState K → Prop} (positive : 1 ≤ degree)
    (stands : Stands degree word (⟨map, 0⟩, world)) (deep : Nat.log (degree + 1) word.items.card < limit)
    (held : rid ∈ world.held)
    (present : row ∈ word.items) (same : world.key row = world.key rid)
    (ended : ∀ word' state, Loses world (world.key rid) word word' → Stands degree word' state →
      Later world state.2 → post () state) :
    (bTreeDeleteFor degree limit rid : TreeProg Q Unit).wp (growthLogic growing ask) post (⟨map, 0⟩, world) := by
  have fetched : (0 : Int) ∈ (0 : Int) ::ₘ 0 := Multiset.mem_cons_self _ _
  cases stands with
  | nothing free pins lays first sound => exact absurd present (Multiset.notMem_zero _)
  | @tree height _ tree left sized rests =>
      obtain ⟨-, ⟨free, lays⟩, sound⟩ := rests
      obtain ⟨head, content, -⟩ := lays.ctrl
      obtain ⟨top, member, here⟩ := tree.root_mem_nodes
      have proper : tree.addr ≠ -1 := by
        have nonneg := (lays.node_inFile member).1.2.1
        omega
      have enough := lt_min ((tree.height_le_log sized).trans_lt deep)
        (lt_of_lt_of_le (tree.height_lt_card sized) lays.card_nodes_le)
      unfold bTreeDeleteFor
      rw [wp_bind]
      refine wp_getPage lays.ctrl_inFile room_zero ?_
      rw [wp_bind]
      refine wp_loadCtrl content fetched ?_
      rw [if_neg proper, wp_bind]
      refine wp_release fetched ?_
      rw [Multiset.erase_cons_head, wp_bind]
      refine wp_fileLength ?_
      rw [wp_bind]
      refine wp_deleteRoot positive tree enough lays sized sound held present same ?_
      intro word' state loses remains later
      rw [left] at remains
      exact ended word' state loses remains.stands later

theorem wp_bTreeDelete {post : Unit → TreeState K → Prop} (positive : 1 ≤ degree)
    (stands : Stands degree word (⟨map, 0⟩, world)) (held : rid ∈ world.held)
    (present : row ∈ word.items) (same : world.key row = world.key rid)
    (ended : ∀ word' state, Loses world (world.key rid) word word' → Stands degree word' state →
      Later world state.2 → post () state) :
    (bTreeDelete degree rid : TreeProg Q Unit).wp (growthLogic growing ask) post (⟨map, 0⟩, world) :=
  bTreeDeleteFor_below.wp (wp_bTreeDeleteFor positive stands (Nat.lt_succ_self _) held present same ended)

end Operations

end MyJQL.Index
