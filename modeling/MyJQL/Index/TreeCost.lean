import MyJQL.Index.TreeRuns
import MyJQL.Storage.PoolPrograms

/-!
# How many pages the index fetches

Along every path an operation fetches at most six pages for each level of its recursion, and the
recursion goes no deeper than the logarithm of the number of rows.
-/

namespace MyJQL.Index

open Library Library.Prog Storage

/-- Fetches of pages. -/
def fetches {Q : Type} : ∀ β : Type, TreeOp Q β → Nat
  | _, .left effect => effect.requests
  | _, .right _ => 0

section Fetches

variable {Q : Type} {degree rounds limit bound rest pos count : Nat} {addr parent root : Int} {rid : RID} {key : Q}
  {node : BNode} {entry : NewChildEntry} {page : IndexPage} {ctrl : BCtrlBlock} {childOld : Nat}

/-! ## The parts -/

theorem within_getPage : (getPage addr : TreeProg Q Unit).Within fetches 1 := within_perform le_rfl

theorem within_release : (release addr : TreeProg Q Unit).Within fetches 0 := within_perform le_rfl

theorem within_load : (load addr : TreeProg Q IndexPage).Within fetches 0 := within_perform le_rfl

theorem within_store : (store addr page : TreeProg Q Unit).Within fetches 0 := within_perform le_rfl

theorem within_fileLength : (fileLength : TreeProg Q Int).Within fetches 0 := within_perform le_rfl

theorem within_insertHandler : (insertHandler rid : TreeProg Q RID).Within fetches 0 := within_perform le_rfl

theorem within_deleteHandler : (deleteHandler rid : TreeProg Q Unit).Within fetches 0 := within_perform le_rfl

theorem within_option {α : Type} {value : Option α} : (ofOption value : TreeProg Q α).Within fetches 0 := within_ofOption

theorem within_readNode : (readNode addr : TreeProg Q BNode).Within fetches 0 := within_load.after fun _ => within_option

theorem within_getNode : (getNode addr : TreeProg Q BNode).Within fetches 1 := within_getPage.paid fun _ => within_readNode

theorem within_writeNode : (writeNode addr node : TreeProg Q Unit).Within fetches 0 := within_store

theorem within_putNode : (putNode addr node : TreeProg Q Unit).Within fetches 0 :=
  within_writeNode.after fun _ => within_release

theorem within_loadCtrl : (loadCtrl : TreeProg Q BCtrlBlock).Within fetches 0 := within_load.after fun _ => within_option

theorem within_storeCtrl : (storeCtrl ctrl : TreeProg Q Unit).Within fetches 0 := within_store

theorem within_takeNode : (takeNode : TreeProg Q Int).Within fetches 1 := by
  refine within_loadCtrl.after fun ctrl => ?_
  split
  · exact within_getNode.paid fun node => within_loadCtrl.after fun _ => within_storeCtrl.after fun _ => trivial
  · exact within_fileLength.after fun addr => within_getPage.paid fun _ => trivial

theorem within_setRoot : (setRoot addr : TreeProg Q Unit).Within fetches 1 :=
  within_getPage.paid fun _ => within_loadCtrl.after fun _ => within_storeCtrl.after fun _ => within_release

theorem within_freeNode : (freeNode addr : TreeProg Q Unit).Within fetches 1 :=
  within_getPage.paid fun _ => within_loadCtrl.after fun _ => within_readNode.after fun _ => within_writeNode.after fun _ =>
    within_storeCtrl.after fun _ => within_release.after fun _ => within_release

theorem within_freeRoot {root : BNode → Option Int} : (freeRoot addr root : TreeProg Q Unit).Within fetches 1 :=
  within_getPage.paid fun _ => within_loadCtrl.after fun _ => within_readNode.after fun _ => within_writeNode.after fun _ =>
    within_storeCtrl.after fun _ => within_loadCtrl.after fun _ => within_option.after fun _ =>
      within_storeCtrl.after fun _ => within_release.after fun _ => within_release

theorem within_scanRows {test : RID → TreeProg Q Bool} (free : ∀ row, (test row).Within fetches 0) :
    (scanRows degree test addr pos count).Within fetches 0 := by
  induction count generalizing pos with
  | zero => trivial
  | succ count ih =>
      refine within_readNode.after fun _ => within_option.after fun row => (free row).after fun passed => ?_
      split
      · trivial
      · exact ih

theorem within_scanBefore : (scanRows degree (rowBefore rid) addr pos count : TreeProg Q Nat).Within fetches 0 :=
  within_scanRows fun _ => Within.after (within_perform le_rfl) fun _ => trivial

theorem within_scanKeyBefore : (scanRows degree (keyBefore key) addr pos count).Within fetches 0 :=
  within_scanRows fun _ => Within.after (within_perform le_rfl) fun _ => trivial

theorem within_scanKeyEquals : (scanRows degree (keyEquals key) addr pos count).Within fetches 0 :=
  within_scanRows fun _ => Within.after (within_perform le_rfl) fun _ => trivial

theorem within_findRow : (findRow degree addr rid : TreeProg Q Nat).Within fetches 0 :=
  within_readNode.after fun _ => within_scanRows fun _ => Within.after (within_perform le_rfl) fun _ => trivial

theorem within_renewSeparator : (renewSeparator degree parent pos addr : TreeProg Q Unit).Within fetches 0 :=
  within_readNode.after fun _ => within_option.after fun _ => within_deleteHandler.after fun _ =>
    within_readNode.after fun _ => within_option.after fun _ => within_insertHandler.after fun _ =>
      within_readNode.after fun _ => within_option.after fun _ => within_writeNode

theorem within_releaseFamily {addrBro : Int} : (releaseFamily addr parent addrBro : TreeProg Q Unit).Within fetches 0 :=
  within_release.after fun _ => within_release.after fun _ => within_release

/-! ## Insertion -/

theorem within_insertInner : (insertInner degree addr node entry root : TreeProg Q NewChildEntry).Within fetches 4 := by
  rw [insertInner]
  split
  · exact within_scanBefore.after fun _ => within_readNode.after fun _ => within_option.after fun _ =>
      within_putNode.after fun _ => trivial
  split
  · exact within_getPage.paid fun _ => within_takeNode.paid fun _ => within_takeNode.paid fun _ =>
      within_release.after fun _ => within_readNode.after fun _ => within_writeNode.after fun _ =>
        within_scanBefore.after fun _ => within_readNode.after fun _ => within_readNode.after fun _ =>
          within_option.after fun _ => within_writeNode.after fun _ => within_writeNode.after fun _ =>
            within_release.after fun _ => within_release.after fun _ => within_readNode.after fun _ =>
              within_option.after fun _ => within_putNode.after fun _ => within_setRoot.paid fun _ => trivial
  · exact within_getPage.paid fun _ => within_takeNode.paid fun _ => within_release.after fun _ =>
      within_readNode.after fun _ => within_writeNode.after fun _ => within_scanBefore.after fun _ =>
        within_readNode.after fun _ => within_readNode.after fun _ => within_option.after fun _ =>
          within_writeNode.after fun _ => within_writeNode.after fun _ => within_release.after fun _ =>
            within_release.after fun _ => trivial

theorem within_insertLeaf : (insertLeaf degree addr node rid root : TreeProg Q NewChildEntry).Within fetches 4 := by
  rw [insertLeaf]
  split
  · exact within_scanBefore.after fun _ => within_readNode.after fun _ => within_option.after fun _ =>
      within_putNode.after fun _ => trivial
  split
  · exact within_getPage.paid fun _ => within_takeNode.paid fun _ => within_takeNode.paid fun _ =>
      within_release.after fun _ => within_readNode.after fun _ => within_writeNode.after fun _ =>
        within_scanBefore.after fun _ => within_readNode.after fun _ => within_readNode.after fun _ =>
          within_option.after fun _ => within_writeNode.after fun _ => within_writeNode.after fun _ =>
            within_option.after fun _ => within_insertHandler.after fun _ => within_readNode.after fun _ =>
              within_option.after fun _ => within_writeNode.after fun _ => within_release.after fun _ =>
                within_release.after fun _ => within_readNode.after fun _ => within_option.after fun _ =>
                  within_release.after fun _ => within_setRoot.paid fun _ => trivial
  · refine within_getPage.paid fun _ => within_takeNode.paid fun _ => within_release.after fun _ =>
      within_readNode.after fun _ => within_writeNode.after fun _ => within_scanBefore.after fun childPos => ?_
    split
    · exact within_readNode.after fun _ => within_option.after fun _ => within_insertHandler.after fun _ =>
        within_readNode.after fun _ => within_readNode.after fun _ => within_option.after fun _ =>
          within_writeNode.after fun _ => within_writeNode.after fun _ => within_release.after fun _ =>
            within_release.after fun _ => trivial
    · exact within_readNode.after fun _ => within_readNode.after fun _ => within_option.after fun _ =>
        within_writeNode.after fun _ => within_writeNode.after fun _ => within_option.after fun _ =>
          within_insertHandler.after fun _ => within_release.after fun _ => within_release.after fun _ => trivial

theorem within_insertEntry : (insertEntry degree rounds addr rid root : TreeProg Q NewChildEntry).Within fetches (6 * rounds) := by
  induction rounds generalizing addr with
  | zero => trivial
  | succ rounds ih =>
      change (insertEntry degree (rounds + 1) addr rid root : TreeProg Q NewChildEntry).Within fetches (6 * rounds + 5 + 1)
      refine within_getNode.paid fun node => ?_
      split
      · exact within_insertLeaf.mono (by omega)
      · refine within_scanBefore.after fun _ => within_readNode.after fun _ => within_option.after fun _ =>
          within_release.after fun _ => ih.bind fun entry => within_getNode.paid fun node => ?_
        split
        · exact within_release.after fun _ => trivial
        · exact within_insertInner

theorem within_bTreeInsertFor : (bTreeInsertFor degree limit rid : TreeProg Q RID).Within fetches (6 * limit + 2) := by
  have recurses : ∀ ctrl : BCtrlBlock, (do
      release 0
      release ctrl.rootNode
      let length ← fileLength
      let _ ← insertEntry degree (min limit length.toNat) ctrl.rootNode rid ctrl.rootNode
      return rid : TreeProg Q RID).Within fetches (6 * limit) := fun ctrl =>
    within_release.after fun _ => within_release.after fun _ => within_fileLength.after fun length =>
      (within_insertEntry.mono (Nat.mul_le_mul_left 6 (Nat.min_le_left ..))).before fun _ => trivial
  refine within_getPage.paid fun _ => within_loadCtrl.after fun ctrl => ?_
  dsimp only
  split
  · exact within_getPage.paid fun _ => within_loadCtrl.after recurses
  split
  · exact within_getNode.paid fun root => within_writeNode.after fun _ => within_loadCtrl.after fun _ =>
      within_storeCtrl.after fun _ => within_loadCtrl.after recurses
  · exact within_getNode.paid fun root => within_loadCtrl.after fun _ => within_storeCtrl.after fun _ =>
      within_writeNode.after fun _ => within_loadCtrl.after fun _ => within_storeCtrl.after fun _ =>
        within_loadCtrl.after recurses

/-! ## Deletion -/

theorem within_dropEntry : (dropEntry degree addr childOld : TreeProg Q Unit).Within fetches 1 := by
  have drops : ∀ _ : PUnit, (do
      let node ← readNode addr
      let first ← ofOption (node.childAt degree 0)
      release first
      let node ← readNode addr
      let node ← ofOption (dropSlot degree node childOld)
      writeNode addr node : TreeProg Q Unit).Within fetches 0 := fun _ =>
    within_readNode.after fun _ => within_option.after fun _ => within_release.after fun _ =>
      within_readNode.after fun _ => within_option.after fun _ => within_writeNode
  refine within_readNode.after fun _ => within_option.after fun first => within_getNode.paid fun child => ?_
  dsimp only
  split
  · exact within_readNode.after fun _ => within_option.after fun _ => within_deleteHandler.after drops
  · exact drops ⟨⟩

theorem within_deleteInner : (deleteInner degree addr parent node childOld : TreeProg Q Int).Within fetches 4 := by
  rw [deleteInner]
  split
  · split
    · exact within_dropEntry.paid fun _ => within_release.after fun _ => trivial
    · refine within_getNode.paid fun _ => within_option.after fun ttmp => ?_
      split
      · refine within_option.after fun _ => within_getNode.paid fun _ => ?_
        split
        · exact within_dropEntry.paid fun _ => within_readNode.after fun _ => within_readNode.after fun _ =>
            within_readNode.after fun _ => within_option.after fun _ => within_writeNode.after fun _ =>
              within_writeNode.after fun _ => within_writeNode.after fun _ => within_releaseFamily.after fun _ => trivial
        · exact within_dropEntry.paid fun _ => within_readNode.after fun _ => within_option.after fun _ =>
            within_release.after fun _ => within_readNode.after fun _ => within_readNode.after fun _ =>
              within_option.after fun _ => within_putNode.after fun _ => within_freeNode.paid fun _ => trivial
      · refine within_option.after fun _ => within_option.after fun _ => within_getNode.paid fun _ => ?_
        split
        · exact within_dropEntry.paid fun _ => within_readNode.after fun _ => within_readNode.after fun _ =>
            within_readNode.after fun _ => within_option.after fun _ => within_writeNode.after fun _ =>
              within_writeNode.after fun _ => within_writeNode.after fun _ => within_releaseFamily.after fun _ => trivial
        · exact within_dropEntry.paid fun _ => within_readNode.after fun _ => within_option.after fun _ =>
            within_release.after fun _ => within_readNode.after fun _ => within_readNode.after fun _ =>
              within_option.after fun _ => within_putNode.after fun _ => within_freeNode.paid fun _ => trivial
  · refine within_dropEntry.paid fun _ => within_readNode.after fun _ => ?_
    split
    · exact within_freeRoot.paid fun _ => trivial
    · exact within_release.after fun _ => trivial

theorem within_deleteLeaf : (deleteLeaf degree addr parent node rid : TreeProg Q Int).Within fetches 4 := by
  rw [deleteLeaf]
  split
  · split
    · exact within_findRow.after fun _ => within_readNode.after fun _ => within_option.after fun _ =>
        within_putNode.after fun _ => trivial
    · refine within_getNode.paid fun _ => within_option.after fun ttmp => ?_
      split
      · refine within_option.after fun _ => within_getNode.paid fun _ => ?_
        split
        · exact within_findRow.after fun _ => within_readNode.after fun _ => within_option.after fun _ =>
            within_readNode.after fun _ => within_option.after fun _ => within_writeNode.after fun _ =>
              within_writeNode.after fun _ => within_renewSeparator.after fun _ => within_releaseFamily.after fun _ => trivial
        · exact within_release.after fun _ => within_findRow.after fun _ => within_readNode.after fun _ =>
            within_option.after fun _ => within_readNode.after fun _ => within_option.after fun _ =>
              within_putNode.after fun _ => within_freeNode.paid fun _ => trivial
      · refine within_option.after fun _ => within_option.after fun _ => within_getNode.paid fun _ => ?_
        split
        · exact within_findRow.after fun _ => within_readNode.after fun _ => within_readNode.after fun _ =>
            within_option.after fun _ => within_writeNode.after fun _ => within_writeNode.after fun _ =>
              within_renewSeparator.after fun _ => within_releaseFamily.after fun _ => trivial
        · exact within_release.after fun _ => within_findRow.after fun _ => within_readNode.after fun _ =>
            within_option.after fun _ => within_readNode.after fun _ => within_option.after fun _ =>
              within_writeNode.after fun _ => within_putNode.after fun _ => within_freeNode.paid fun _ => trivial
  · refine within_findRow.after fun _ => within_readNode.after fun _ => within_option.after fun _ =>
      within_writeNode.after fun _ => ?_
    split
    · exact within_freeRoot.paid fun _ => trivial
    · exact within_release.after fun _ => trivial

theorem within_deleteEntry : (deleteEntry degree rounds addr parent rid : TreeProg Q Int).Within fetches (6 * rounds) := by
  induction rounds generalizing addr parent with
  | zero => trivial
  | succ rounds ih =>
      change (deleteEntry degree (rounds + 1) addr parent rid : TreeProg Q Int).Within fetches (6 * rounds + 5 + 1)
      refine within_getNode.paid fun node => ?_
      split
      · exact within_deleteLeaf.mono (by omega)
      · refine within_scanBefore.after fun _ => within_readNode.after fun _ => within_option.after fun _ =>
          within_release.after fun _ => ih.bind fun childOld => within_getNode.paid fun node => ?_
        split
        · exact within_release.after fun _ => trivial
        · exact within_deleteInner

theorem within_bTreeDeleteFor : (bTreeDeleteFor degree limit rid : TreeProg Q Unit).Within fetches (6 * limit + 2) := by
  refine within_getPage.paid fun _ => within_loadCtrl.after fun ctrl => ?_
  dsimp only
  split
  · trivial
  · refine within_release.after fun _ => within_fileLength.after fun length => ?_
    exact Within.bind (within_deleteEntry.mono (Nat.mul_le_mul_left 6 (Nat.min_le_left ..))) fun _ => trivial

/-! ## Search -/

theorem within_searchEntry : (searchEntry degree rounds addr key).Within fetches rounds := by
  induction rounds generalizing addr with
  | zero => trivial
  | succ rounds ih =>
      refine within_getNode.paid fun node => ?_
      split
      · refine within_scanKeyEquals.after fun counter => within_readNode.after fun _ => ?_
        split
        · exact within_option.after fun _ => within_release.after fun _ => trivial
        · exact within_release.after fun _ => trivial
      · exact within_scanKeyBefore.after fun _ => within_readNode.after fun _ => within_option.after fun _ =>
          within_release.after fun _ => ih

theorem within_bTreeSearchFor : (bTreeSearchFor degree limit key).Within fetches (limit + 1) := by
  refine within_getPage.paid fun _ => within_loadCtrl.after fun ctrl => within_release.after fun _ => ?_
  split
  · trivial
  · exact within_fileLength.after fun length => within_searchEntry.mono (Nat.min_le_left ..)

end Fetches

/-! ## Runs -/

section Runs

variable {K Q σ α : Type} [LinearOrder K] {degree bound : Nat} {callbacks : Callbacks Q σ} {ask : Q → K} {key : RID → K}
  {contents : K → Option RID} {state : RunState σ} {rows : Finset RID}

/-- The levels that a tree of so many rows can have. -/
def levels (degree count : Nat) : Nat := Nat.log (degree + 1) count + 1

/-- The limited program runs as the whole one does, and fetches no more pages than the bound. -/
def Shallow (callbacks : Callbacks Q σ) (limited program : TreeProg Q α) (bound : Nat) (state : RunState σ) : Prop :=
  limited.run (treeMeaning callbacks) state = program.run (treeMeaning callbacks) state ∧
    program.cost fetches (treeMeaning callbacks) state ≤ bound

theorem shallow_of_run {limited program : TreeProg Q α} {result : α × RunState σ} (below : limited.Below program)
    (within : limited.Within fetches bound) (ran : limited.run (treeMeaning callbacks) state = some result) :
    Shallow callbacks limited program bound state := by
  refine ⟨ran.trans (below.run ran).symm, ?_⟩
  rw [below.cost fetches ran]
  exact within.cost_le state

theorem IndexHolds.exists_stands (holds : IndexHolds degree key contents state)
    (stored : ∀ rid, contents (key rid) = some rid → rid ∈ rows) :
    ∃ word world, Stands degree word (state.1, world) ∧ Accounts key (state.1, world) state ∧
      Lists key contents word.items ∧ Nat.log (degree + 1) word.items.card < levels degree rows.card := by
  obtain ⟨word, world, stands, accounts, lists⟩ := holds
  refine ⟨word, world, stands, accounts, lists, Nat.lt_succ_of_le (Nat.log_mono_right ?_)⟩
  have distinct : word.items.Nodup := Multiset.Nodup.of_map _ stands.sound.sorted.nodup_keys
  refine Multiset.card_le_card ((Multiset.le_iff_subset distinct).mpr fun rid member => ?_)
  exact stored rid ((lists _ rid).mpr ⟨member, rfl⟩)

theorem IndexHolds.shallow (holds : IndexHolds degree key contents state) (positive : 1 ≤ degree)
    (lawful : callbacks.Lawful ask key) (stored : ∀ rid, contents (key rid) = some rid → rid ∈ rows) :
    (∀ pointer, Shallow callbacks (bTreeSearchFor degree (levels degree rows.card) pointer) (bTreeSearch degree pointer)
      (levels degree rows.card + 1) state) ∧
      (∀ rid, contents (key rid) = none → Shallow callbacks (bTreeInsertFor degree (levels degree rows.card) rid)
        (bTreeInsert degree rid) (6 * levels degree rows.card + 2) state) ∧
        ∀ rid, contents (key rid) ≠ none → Shallow callbacks (bTreeDeleteFor degree (levels degree rows.card) rid)
          (bTreeDelete degree rid) (6 * levels degree rows.card + 2) state := by
  obtain ⟨word, world, stands, accounts, lists, deep⟩ := holds.exists_stands stored
  obtain ⟨⟨map, pins⟩, ledger⟩ := state
  obtain rfl : pins = 0 := stands.pins
  obtain ⟨-, rfl, all, -⟩ := id accounts
  refine ⟨fun pointer => ?_, fun rid absent => ?_, fun rid present => ?_⟩
  · have spec : (bTreeSearchFor degree (levels degree rows.card) pointer).wp (treeLogic ask)
        (fun _ (_ : TreeState K) => True) (⟨map, 0⟩, world) := wp_bTreeSearchFor stands deep fun _ _ => trivial
    obtain ⟨⟨result, after, ran, -⟩, -⟩ := run_of_wp_tree lawful accounts spec
    exact shallow_of_run bTreeSearchFor_below within_bTreeSearchFor ran
  · have spec : (bTreeInsertFor degree (levels degree rows.card) rid : TreeProg Q RID).wp (treeLogic ask)
        (fun _ (_ : TreeState K) => True) (⟨map, 0⟩, world) :=
      wp_bTreeInsertFor positive stands deep (all ▸ Set.mem_univ rid) (lists.absent absent) fun _ _ _ _ _ => trivial
    obtain ⟨⟨result, after, ran, -⟩, -⟩ := run_of_wp_tree lawful accounts spec
    exact shallow_of_run bTreeInsertFor_below within_bTreeInsertFor ran
  · obtain ⟨row, bound⟩ := Option.ne_none_iff_exists'.mp present
    obtain ⟨member, same⟩ := (lists _ row).mp bound
    have spec : (bTreeDeleteFor degree (levels degree rows.card) rid : TreeProg Q Unit).wp (treeLogic ask)
        (fun _ (_ : TreeState K) => True) (⟨map, 0⟩, world) :=
      wp_bTreeDeleteFor positive stands deep (all ▸ Set.mem_univ rid) member same fun _ _ _ _ _ => trivial
    obtain ⟨⟨result, after, ran, -⟩, -⟩ := run_of_wp_tree lawful accounts spec
    exact shallow_of_run bTreeDeleteFor_below within_bTreeDeleteFor ran

/--
With so many rows in the index, an operation of the index goes no deeper than the levels that
they fill, and fetches at most six pages for each of these levels and two more.
-/
theorem index_is_shallow (positive : 1 ≤ degree) (lawful : callbacks.Lawful ask key)
    (reached : Reaches degree callbacks key contents state)
    (stored : ∀ rid, contents (key rid) = some rid → rid ∈ rows) :
    (∀ pointer, Shallow callbacks (bTreeSearchFor degree (levels degree rows.card) pointer) (bTreeSearch degree pointer)
      (levels degree rows.card + 1) state) ∧
      (∀ rid, contents (key rid) = none → Shallow callbacks (bTreeInsertFor degree (levels degree rows.card) rid)
        (bTreeInsert degree rid) (6 * levels degree rows.card + 2) state) ∧
        ∀ rid, contents (key rid) ≠ none → Shallow callbacks (bTreeDeleteFor degree (levels degree rows.card) rid)
          (bTreeDelete degree rid) (6 * levels degree rows.card + 2) state :=
  (reached.holds positive lawful).shallow positive lawful stored

/-- Fifteen rows fill no more than three levels. -/
theorem index_is_shallow_grown : Reaches 2 testCallbacks RID.blockAddr grownContents grown ∧
    Shallow testCallbacks (bTreeSearchFor 2 3 13) (bTreeSearch 2 13) 4 grown ∧
      Shallow testCallbacks (bTreeInsertFor 2 3 ⟨17, 0⟩) (bTreeInsert 2 ⟨17, 0⟩) 20 grown ∧
        Shallow testCallbacks (bTreeDeleteFor 2 3 ⟨6, 0⟩) (bTreeDelete 2 ⟨6, 0⟩) 20 grown := by
  have deep : levels 2 grownRows.card = 3 := by
    have count : grownRows.card = 15 := by decide
    rw [count, levels]
    norm_num [Nat.log]
  obtain ⟨searches, inserts, deletes⟩ :=
    index_is_shallow (by decide) testCallbacks_lawful grown_reached grownRows_stored
  rw [deep] at searches inserts deletes
  exact ⟨grown_reached, searches 13, inserts ⟨17, 0⟩ grownContents_absent, deletes ⟨6, 0⟩ grownContents_present⟩

end Runs

end MyJQL.Index
