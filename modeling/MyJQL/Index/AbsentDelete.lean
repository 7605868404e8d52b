import MyJQL.Index.TreeRuns

/-!
# Deleting an absent key

`b_tree_delete` does not look whether its key is there. On an empty index it returns without
releasing the control block. In a leaf the scan for the row ends behind the last row, and the
loop that closes the gap starts behind the value it must meet; only where a row is borrowed
from the left does the call return, and then a row of the leaf is lost.
-/

namespace MyJQL.Index

open Library Library.Prog Storage

section Absent

variable {K Q : Type} [LinearOrder K] {ask : Q → K} {degree height low : Nat} {addr addrPar addrBro root first : Int}
  {others : Multiset NodeDesc} {front back : Word RID} {map : PageMap IndexPage} {world : World K}
  {pages : Pinned IndexPage} {free : List Int} {rid separator : RID} {xs ys rows rowsBro : List RID} {kids : List Int}
  {node nodePar brother : BNode} {leaf : Bool}

/-- A call on an absent key that has returned. -/
structure Altered (map : PageMap IndexPage) (value : Int) (state : TreeState K) : Prop where
  value : value = -1
  pins : state.1.pins = 0
  inFile : ∀ addr, map.InFile addr → state.1.map.InFile addr
  page : ∃ addr, state.1.map.page addr ≠ map.page addr

/-- Two layouts of the same pages are those of files of the same pages. -/
theorem Lays.inFile_of_pages {map' : PageMap IndexPage} {layout layout' : Layout} (lays : Lays map layout)
    (lays' : Lays map' layout') (same : layout.pages = layout'.pages) (inside : map.InFile addr) : map'.InFile addr := by
  by_cases control : addr = 0
  · exact control ▸ lays'.ctrl_inFile
  · exact ((lays'.covers addr).mp (same ▸ (lays.covers addr).mpr ⟨inside, control⟩)).1

/-! ## In a leaf -/

/-- The scan ends behind the last row. -/
theorem wp_findAbsent {layout : Layout} {pins : Multiset Int} {post : Nat → TreeState K → Prop} (lays : Lays map layout)
    (member : ⟨addr, leaf, rows, kids⟩ ∈ layout.nodes) (pinned : addr ∈ pins) (bound : rows.length ≤ 2 * degree)
    (held : rid ∈ world.held) (knows : ∀ row ∈ rows, world.Knows row)
    (absent : ∀ row ∈ rows, world.key row ≠ world.key rid) (ended : post rows.length (⟨map, pins⟩, world)) :
    (findRow degree addr rid : TreeProg Q Nat).wp (treeLogic ask) post (⟨map, pins⟩, world) := by
  unfold findRow
  rw [wp_bind]
  refine wp_readNode lays member pinned fun node is => ?_
  refine wp_scanRows lays member pinned bound is.count (fun row here next => wp_rowEquals (.inl held) (knows row here)) ?_
  intro xs ys split failed passed
  cases ys with
  | nil =>
      rw [List.append_nil] at split
      exact split ▸ ended
  | cons row ys =>
      have member : row ∈ rows := split ▸ List.mem_append_right _ List.mem_cons_self
      exact absurd (passed row rfl).symm (absent row member)

/-- The counter of the loop starts behind its end. -/
theorem dropRow_behind (node : BNode) : dropRow degree node node.n = none := by
  unfold dropRow predecessor
  by_cases some : 0 < node.n
  · rw [if_pos some, some_bind_eq, forNe, if_neg (by omega)]
    rfl
  · rw [if_neg some]
    rfl

/-- The loop that drops a row does not end. -/
theorem wlp_dropAbsent {α : Type} {layout : Layout} {pins : Multiset Int} {next : BNode → TreeProg Q α}
    {post : α → TreeState K → Prop} (lays : Lays map layout) (member : ⟨addr, leaf, rows, kids⟩ ∈ layout.nodes)
    (pinned : addr ∈ pins) (bound : rows.length ≤ 2 * degree) (held : rid ∈ world.held)
    (knows : ∀ row ∈ rows, world.Knows row) (absent : ∀ row ∈ rows, world.key row ≠ world.key rid) :
    (do
      let prtFinal ← findRow degree addr rid
      let node ← readNode addr
      let node ← ofOption (dropRow degree node prtFinal)
      next node : TreeProg Q α).wlp (treeLogic ask) post (⟨map, pins⟩, world) := by
  refine wlp_seq (wp_findAbsent lays member pinned bound held knows absent ?_)
  refine wlp_seq (wp_readNode lays member pinned fun node is => ?_)
  rw [← is.count, dropRow_behind]
  trivial

/-- No row is dropped, and the last row of the left brother takes the place of the last row of the leaf. -/
theorem borrowRowLeft_behind {us ps : List RID} {lost p : RID} (is : NodeIs node true (us ++ [lost]) [])
    (isBro : NodeIs brother true (ps ++ [p]) []) (room : (us ++ [lost]).length < 2 * degree)
    (roomBro : ps.length < 2 * degree) :
    ∃ node' brother', borrowRowLeft degree node brother (us ++ [lost]).length = some (node', brother') ∧
      NodeIs node' true (p :: us) [] ∧ NodeIs brother' true ps [] := by
  obtain ⟨kind, count, holds, children⟩ := is
  obtain ⟨kindBro, countBro, holdsBro, childrenBro⟩ := isBro
  rw [List.length_append, List.length_singleton] at count room countBro
  unfold borrowRowLeft
  simp (disch := omega) only [List.length_append, List.length_singleton, predecessor_eq, forGt_rows, rowAt_eq, setRow_eq,
    some_bind_eq]
  refine ⟨_, _, rfl, ⟨kind, ?_, ?_, children⟩, ⟨kindBro, ?_, ?_, childrenBro⟩⟩
  · simp only [count, List.length_cons, Nat.add_sub_cancel]
  · unfold Holds blit at *
    simp only [Function.update_apply]
    grind
  · simp only [countBro, Nat.add_sub_cancel]
  · unfold Holds at *
    grind

/-- The branch that returns: the left brother has a row fewer. -/
theorem wp_rowLost {before after : List (Tree Int RID 0)} (positive : 1 ≤ degree)
    (brothers : Brothers degree 0 addrPar first root others front back map free world 0 xs ys separator before after
      (Tree.leaf addrBro rowsBro) (Tree.leaf addr rows) ⟨addrBro, true, rowsBro, []⟩ ⟨addr, true, rows, []⟩ 0)
    (full : rows.length = degree) (more : degree < rowsBro.length) (boundBro : rowsBro.length ≤ 2 * degree)
    (held : rid ∈ world.held) (absent : ∀ row ∈ rows, world.key row ≠ world.key rid) :
    (do
      let prtFinal ← findRow degree addr rid
      let node ← readNode addr
      let brother ← readNode addrBro
      let (node, brother) ← ofOption (borrowRowLeft degree node brother prtFinal)
      writeNode addr node
      writeNode addrBro brother
      renewSeparator degree addrPar xs.length addr
      releaseFamily addr addrPar addrBro
      return -1 : TreeProg Q Int).wp (treeLogic ask) (Altered map)
        (⟨map, addrBro ::ₘ addrPar ::ₘ addr ::ₘ 0⟩, world) := by
  obtain ⟨lays, -, -, inside, -, -, sound⟩ := brothers
  have knows : ∀ row ∈ rows, world.Knows row := fun row member => sound.knows_item (by simp [member])
  have owed : separator ∈ world.owed := by
    rw [sound.owed]
    refine Multiset.mem_add.mpr (.inr (Word.mem_seps.mpr ?_))
    simp
  obtain ⟨us, lost, rfl⟩ := (List.eq_nil_or_concat' rows).resolve_left
    (List.ne_nil_of_length_pos (full ▸ positive))
  obtain ⟨ps, p, rfl⟩ := (List.eq_nil_or_concat' rowsBro).resolve_left
    (List.ne_nil_of_length_pos (lt_of_le_of_lt (Nat.zero_le _) more))
  have heldLast : p ∈ world.held := sound.held p (Word.mem_items.mpr (by simp))
  rw [List.length_append, List.length_singleton] at more boundBro
  have family := lays.regroup (add_third _ _ _ _)
  have pinned : addr ∈ addrBro ::ₘ addrPar ::ₘ addr ::ₘ 0 := by simp
  have pinnedBro : addrBro ∈ addrBro ::ₘ addrPar ::ₘ addr ::ₘ 0 := Multiset.mem_cons_self _ _
  simp only [wp_bind]
  refine wp_findAbsent family Lays.mem_front pinned (by omega) held knows absent ?_
  refine wp_readNode family Lays.mem_front pinned fun node is => ?_
  refine wp_readNode family Lays.mem_third pinnedBro fun brother isBro => ?_
  obtain ⟨node', brother', borrowed, is', isBro'⟩ := @borrowRowLeft_behind degree node brother us ps lost p is isBro
    (by omega) (by omega)
  rw [borrowed]
  simp only [wp_ofOption_some]
  refine wp_writePair family is' isBro' pinned pinnedBro fun map₁ lays₁ => ?_
  refine wp_renewSeparator positive lays₁ inside Lays.mem_front (by simp) pinned owed heldLast ?_
  intro made map' world' renewed lays'
  refine wp_releaseFamily (family_pins _ _ _) ?_
  refine ⟨rfl, rfl, fun other => family.inFile_of_pages lays' ?_, addrBro, ?_⟩
  · simp only [Layout.pages, Multiset.map_add, Multiset.map_singleton]
    abel
  · obtain ⟨stored, page, isStored⟩ := family.stored _ Lays.mem_third
    obtain ⟨stored', page', isStored'⟩ := lays'.stored _ Lays.mem_third
    intro same
    have counts := congrArg BNode.n (IndexPage.node.inj (page'.symm.trans (same.trans page)))
    rw [isStored.count, isStored'.count] at counts
    simp only [List.length_append, List.length_singleton] at counts
    omega

/-- No branch for a leaf leaves the pages as they were. -/
theorem wlp_deleteLeaf {before after : List (Tree Int RID 0)} (positive : 1 ≤ degree)
    (family : Family degree 0 addrPar first root others front back map free world 0 xs ys before after
      (Tree.leaf addr rows) ⟨addr, true, rows, []⟩ 0)
    (is : NodeIs node true rows []) (least : degree ≤ rows.length) (bound : rows.length ≤ 2 * degree)
    (held : rid ∈ world.held) (absent : ∀ row ∈ rows, world.key row ≠ world.key rid) :
    (deleteLeaf degree addr addrPar node rid : TreeProg Q Int).wlp (treeLogic ask) (Altered map)
      (⟨map, addr ::ₘ 0⟩, world) := by
  have knows : ∀ row ∈ rows, world.Knows row := fun row member => family.sound.knows_item (by simp [member])
  have pages := family.lays.regroup (add_left_comm _ _ _)
  unfold deleteLeaf
  rw [if_pos family.proper]
  by_cases more : degree < node.n
  · rw [if_pos more]
    exact wlp_dropAbsent pages Lays.mem_front (Multiset.mem_cons_self _ _) bound held knows absent
  · rw [if_neg more]
    rw [is.count] at more
    have full : rows.length = degree := by omega
    rw [fetchBrother_eq]
    refine wlp_seq (wp_fetchBrother family ?_ ?_)
    · rintro separator ys right after nodePar brother rfl rfl brothers isPar isBro sizedBro
      dsimp only
      by_cases moreBro : degree < brother.n
      · rw [if_pos rfl, if_pos moreBro]
        exact wlp_dropAbsent pages Lays.mem_front (by simp) bound held knows absent
      · rw [if_pos rfl, if_neg moreBro]
        refine wlp_seq (wp_release (Multiset.mem_cons_of_mem (Multiset.mem_cons_self _ _)) ?_)
        rw [erase_second]
        exact wlp_dropAbsent pages Lays.mem_front (by simp) bound held knows absent
    · rintro separator xs left before nodePar brother rfl rfl rfl rfl brothers isPar isBro sizedBro
      obtain ⟨addrBro, rowsBro, rfl⟩ := left.exists_leaf
      rw [Tree.sized_leaf] at sizedBro
      dsimp only
      rw [if_neg Bool.false_ne_true]
      by_cases moreBro : degree < brother.n
      · rw [if_pos moreBro]
        exact wlp_of_wp (wp_rowLost positive brothers full (isBro.count ▸ moreBro) sizedBro.2 held absent)
      · rw [if_neg moreBro]
        refine wlp_seq (wp_release (Multiset.mem_cons_of_mem (Multiset.mem_cons_self _ _)) ?_)
        rw [erase_second]
        exact wlp_dropAbsent pages Lays.mem_front (by simp) bound held knows absent

/-! ## On the way down -/

/-- A node that is fetched again, whatever has become of it. -/
theorem wlp_getNode {α : Type} {next : BNode → TreeProg Q α} {post : α → TreeState K → Prop} {pins : Multiset Int}
    (inside : map.InFile addr) (room : pins.card < cachePage)
    (ended : ∀ node, (next node).wlp (treeLogic ask) post (⟨map, addr ::ₘ pins⟩, world)) :
    (getNode addr >>= next).wlp (treeLogic ask) post (⟨map, pins⟩, world) := by
  unfold getNode readNode
  rw [wlp_bind]
  refine wlp_seq (wp_getPage inside room ?_)
  refine wlp_seq (wp_load (Multiset.mem_cons_self _ _) ?_)
  cases (map.page addr).asNode with
  | none => trivial
  | some node => exact ended node

/-- What the parent does after a call on an absent key that has returned. -/
theorem wlp_afterAltered {next : BNode → TreeProg Q Int} {state : TreeState K} {value : Int} (inside : map.InFile addr)
    (altered : Altered map value state) :
    (do
      let node ← getNode addr
      if value = -1 then
        release addr
        return -1
      next node : TreeProg Q Int).wlp (treeLogic ask) (Altered map) state := by
  obtain ⟨⟨map', pins⟩, world'⟩ := state
  obtain ⟨rfl, none, inFile, page⟩ := altered
  obtain rfl : pins = 0 := none
  refine wlp_getNode (inFile addr inside) room_zero fun node => ?_
  rw [if_pos rfl]
  refine wlp_seq (wp_release (Multiset.mem_cons_self _ _) ?_)
  rw [Multiset.erase_cons_head]
  exact ⟨rfl, rfl, inFile, page⟩

/-- `delete_entry` on a child, where the key is in none of its leaves. -/
theorem wlp_deleteEntry {before after : List (Tree Int RID height)} (positive : 1 ≤ degree) (tree : Tree Int RID height)
    (rounds : Nat) (family : Family degree height addrPar first root others front back map free world 0 xs ys before after
      tree tree.root tree.below) (sizedTree : tree.Sized degree degree) (held : rid ∈ world.held)
    (absent : ∀ row ∈ tree.word.items, world.key row ≠ world.key rid) :
    (deleteEntry degree rounds tree.addr addrPar rid : TreeProg Q Int).wlp (treeLogic ask) (Altered map)
      (⟨map, 0⟩, world) := by
  induction height generalizing rounds addrPar first others front back xs ys with
  | zero =>
      obtain ⟨addr, rows, rfl⟩ := tree.exists_leaf
      rw [Tree.sized_leaf] at sizedTree
      rw [Tree.word_leaf, Word.items_rows] at absent
      rw [Tree.addr_leaf]
      cases rounds with
      | zero => trivial
      | succ rounds =>
          unfold deleteEntry
          refine wlp_seq (wp_getNode (family.lays.regroup (add_left_comm _ _ _))
            (Multiset.mem_add.mpr (.inl (Multiset.mem_singleton_self _))) room_zero fun node is => ?_)
          rw [if_pos is.kind]
          exact wlp_deleteLeaf positive family is sizedTree.1 sizedTree.2 held absent
  | succ height ih =>
      obtain ⟨addr, seps, kids, rfl⟩ := tree.exists_inner
      obtain ⟨⟨least, bound⟩, count, sizedKids⟩ := Tree.sized_inner.mp sizedTree
      rw [Tree.root_inner, Tree.below_inner] at family
      rw [Tree.word_inner] at absent
      rw [Tree.addr_inner]
      have knows : ∀ row ∈ seps, world.Knows row := fun row here => by
        have inWord : .sep row ∈ interleave Tree.word seps kids := mem_interleave count here
        exact family.sound.knows_sep (by simp [inWord])
      have pages := family.lays.regroup (add_left_comm _ _ _)
      have inside := family.inFile
      rw [Tree.addr_inner] at inside
      cases rounds with
      | zero => trivial
      | succ rounds =>
          unfold deleteEntry
          refine wlp_seq (wp_getNode pages (Multiset.mem_add.mpr (.inl (Multiset.mem_singleton_self _))) room_zero ?_)
          intro node is
          rw [if_neg (by rw [is.kind]; exact Bool.false_ne_true), enterChild_eq]
          refine wlp_seq (wp_enterChild pages Lays.mem_front is bound count held knows ?_)
          rintro us vs kidsBefore kid kidsAfter rfl rfl countLeft countRight - -
          have family' := family.inward countLeft countRight (le_trans positive least) bound sizedKids
          have absent' : ∀ row ∈ kid.word.items, world.key row ≠ world.key rid := by
            intro row here
            refine absent row ?_
            rw [items_around countLeft countRight]
            exact Multiset.mem_add.mpr (.inl here)
          rw [wlp_bind]
          refine wlp_mono ?_ (ih kid rounds family' (sizedKids kid (by simp)) absent')
          exact fun value state altered => wlp_afterAltered inside altered

/-- `b_tree_delete` of a key that is not there: if it returns, a page is still fetched or a page has changed. -/
theorem wlp_bTreeDelete {word : Word RID} (positive : 1 ≤ degree) (stands : Stands degree word (⟨map, 0⟩, world))
    (held : rid ∈ world.held) (absent : ∀ row ∈ word.items, world.key row ≠ world.key rid) :
    (bTreeDelete degree rid : TreeProg Q Unit).wlp (treeLogic ask) (fun _ (state : TreeState K) =>
      state.1.pins ≠ 0 ∨ ∃ addr, state.1.map.page addr ≠ map.page addr) (⟨map, 0⟩, world) := by
  have fetched : (0 : Int) ∈ (0 : Int) ::ₘ 0 := Multiset.mem_cons_self _ _
  unfold bTreeDelete
  cases stands with
  | nothing free pins lays first sound =>
      obtain ⟨head, content, -⟩ := lays.ctrl
      refine wlp_seq (wp_getPage lays.ctrl_inFile room_zero ?_)
      refine wlp_seq (wp_loadCtrl content fetched ?_)
      rw [if_pos rfl]
      have kept : (0 : Int) ::ₘ 0 ≠ 0 := Multiset.cons_ne_zero
      exact .inl kept
  | @tree height _ tree left sized rests =>
      obtain ⟨-, ⟨free, lays⟩, sound⟩ := rests
      obtain ⟨head, content, -⟩ := lays.ctrl
      obtain ⟨top, member, here⟩ := tree.root_mem_nodes
      have inside := (lays.node_inFile member).1
      rw [here] at inside
      have proper : tree.addr ≠ -1 := by
        have nonneg := inside.2.1
        omega
      refine wlp_seq (wp_getPage lays.ctrl_inFile room_zero ?_)
      refine wlp_seq (wp_loadCtrl content fetched ?_)
      rw [if_neg proper]
      refine wlp_seq (wp_release fetched ?_)
      rw [Multiset.erase_cons_head]
      refine wlp_seq (wp_fileLength ?_)
      rw [wlp_bind]
      have below : (deleteEntry degree map.length.toNat tree.addr (-1) rid : TreeProg Q Int).wlp (treeLogic ask)
          (Altered map) (⟨map, 0⟩, world) := by
        cases map.length.toNat with
        | zero => trivial
        | succ rounds =>
            unfold deleteEntry
            cases height with
            | zero =>
                obtain ⟨addr, rows, rfl⟩ := tree.exists_leaf
                rw [Tree.sized_leaf] at sized
                rw [Tree.word_leaf] at sound absent
                rw [Word.items_rows] at absent
                have knows : ∀ row ∈ rows, world.Knows row := fun row member => sound.knows_item (by simp [member])
                refine wlp_seq (wp_getNode lays (Multiset.mem_singleton_self _) room_zero fun node is => ?_)
                rw [if_pos is.kind]
                unfold deleteLeaf
                rw [if_neg (not_not.mpr rfl)]
                have only : (⟨addr, true, rows, []⟩ : NodeDesc) ∈ (Tree.leaf addr rows).nodes := Multiset.mem_singleton_self _
                exact wlp_dropAbsent lays only (Multiset.mem_cons_self _ _) sized.2 held knows absent
            | succ height =>
                obtain ⟨addr, seps, kids, rfl⟩ := tree.exists_inner
                obtain ⟨⟨least, bound⟩, count, sizedKids⟩ := Tree.sized_inner.mp sized
                rw [Tree.word_inner] at sound absent
                rw [Tree.addr_inner] at inside lays ⊢
                have knows : ∀ row ∈ seps, world.Knows row := fun row here => sound.knows_sep (mem_interleave count here)
                refine wlp_seq (wp_getNode lays (Multiset.mem_add.mpr (.inl (Multiset.mem_singleton_self _))) room_zero ?_)
                intro node is
                rw [if_neg (by rw [is.kind]; exact Bool.false_ne_true), enterChild_eq]
                refine wlp_seq (wp_enterChild lays Lays.mem_front is bound count held knows ?_)
                rintro us vs kidsBefore kid kidsAfter rfl rfl countLeft countRight - -
                have family := Family.ofRoot lays countLeft countRight least bound sizedKids sound
                have absent' : ∀ row ∈ kid.word.items, world.key row ≠ world.key rid := by
                  intro row here
                  refine absent row ?_
                  rw [items_around countLeft countRight]
                  exact Multiset.mem_add.mpr (.inl here)
                rw [wlp_bind]
                refine wlp_mono ?_ (wlp_deleteEntry positive kid rounds family (sizedKids kid (by simp)) held absent')
                exact fun value state altered => wlp_afterAltered inside altered
      refine wlp_mono ?_ below
      exact fun value state altered => .inr altered.page

end Absent

/-! ## In a run -/

section Runs

variable {K Q σ : Type} [LinearOrder K] {degree : Nat} {callbacks : Callbacks Q σ} {ask : Q → K} {key : RID → K}
  {contents : K → Option RID} {state : RunState σ} {rid : RID}

/-- A deletion that does nothing: it returns, no page and no pin has changed, and no handler was called. -/
def Ignores (degree : Nat) (callbacks : Callbacks Q σ) (rid : RID) (state : RunState σ) : Prop :=
  ∃ after, (bTreeDelete degree rid).run (treeMeaning callbacks) state = some ((), after) ∧
    after.1.map = state.1.map ∧ after.1.pins = state.1.pins ∧ after.2.made = state.2.made ∧
      after.2.freed = state.2.freed

/-- In no state reached does deleting an absent key do nothing. -/
theorem absent_key_is_not_ignored (positive : 1 ≤ degree) (lawful : callbacks.Lawful ask key)
    (reached : Reaches degree callbacks key contents state) (absent : contents (key rid) = none) :
    ¬ Ignores degree callbacks rid state := by
  rintro ⟨after, ran, pages, pins, -, -⟩
  obtain ⟨word, world, stands, accounts, lists⟩ := reached.holds positive lawful
  obtain ⟨⟨map, none⟩, ledger⟩ := state
  obtain rfl : none = 0 := stands.pins
  obtain ⟨-, rfl, all, -⟩ := id accounts
  have spec : (bTreeDelete degree rid : TreeProg Q Unit).wlp (treeLogic ask) (fun _ (state : TreeState K) =>
      state.1.pins ≠ 0 ∨ ∃ addr, state.1.map.page addr ≠ map.page addr) (⟨map, 0⟩, world) :=
    wlp_bTreeDelete positive stands (all ▸ Set.mem_univ rid) (lists.absent absent)
  obtain ⟨final, accounts', altered⟩ := of_run_of_wlp ran (wlp_simulates (callbacks_simulate lawful) accounts spec)
  rw [← accounts'.pages, pages, pins] at altered
  rcases altered with fetched | ⟨addr, changed⟩
  · exact fetched rfl
  · exact changed rfl

/-- The row deleted before is deleted again: the search for it ends in a leaf of three rows. -/
theorem absent_key_is_not_ignored_grown : Reaches 2 testCallbacks RID.blockAddr grownContents grown ∧
    ¬ Ignores 2 testCallbacks ⟨2, 0⟩ grown :=
  ⟨grown_reached, absent_key_is_not_ignored (by decide) testCallbacks_lawful grown_reached grownContents_deleted⟩

end Runs

/-- On a new index `b_tree_delete` returns with the control block still fetched. -/
theorem empty_index_keeps_pin : ∃ opened after, (bTreeInit : TreeProg Int Unit).run (treeMeaning testCallbacks)
    (unopened ()) = some ((), opened) ∧ opened.1.pins = 0 ∧
      (bTreeDelete 2 ⟨7, 0⟩).run (treeMeaning testCallbacks) opened = some ((), after) ∧ after.1.pins = {0} ∧
        ¬ Ignores 2 testCallbacks ⟨7, 0⟩ opened := by
  have opened : (bTreeInit : TreeProg Int Unit).run (treeMeaning testCallbacks) (unopened ()) =
      some ((), (⟨(PageMap.empty.append 0).store 0 (.ctrl ⟨-1, -1⟩), 0⟩, ⟨(), 0, 0⟩)) := rfl
  have ran : (bTreeDelete 2 ⟨7, 0⟩).run (treeMeaning testCallbacks)
      (⟨(PageMap.empty.append 0).store 0 (.ctrl ⟨-1, -1⟩), 0⟩, ⟨(), 0, 0⟩) =
        some ((), (⟨(PageMap.empty.append 0).store 0 (.ctrl ⟨-1, -1⟩), {0}⟩, ⟨(), 0, 0⟩)) := rfl
  refine ⟨_, _, opened, rfl, ran, rfl, ?_⟩
  rintro ⟨after, again, -, pins, -⟩
  rw [ran] at again
  cases again
  exact Multiset.singleton_ne_zero 0 pins

end MyJQL.Index
