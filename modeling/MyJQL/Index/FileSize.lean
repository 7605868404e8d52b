import MyJQL.Index.TreePages
import MyJQL.Library.Contract

/-!
# The size of an index file

A deletion or a search never lengthens the file. An insertion lengthens it only when the free
list is empty, and where the file has grown that list is empty at the end as well, and every
page but the control block is a node. As the nodes are at least half
full, the file is never longer than the most keys it has held account for.
-/

namespace MyJQL.Index

open Library Library.Prog Storage

/-! ## Pages and nodes -/

/-- The free list of the control block, if there is one, is empty. -/
def Exhausted (map : PageMap IndexPage) : Prop := ∀ ctrl, (map.page 0).asCtrl = some ctrl → ctrl.freeNodeHead = -1

namespace Lays

variable {map : PageMap IndexPage} {layout : Layout}

theorem exhausted (lays : Lays map layout) (exhausted : Exhausted map) : layout.free = [] := by
  obtain ⟨head, content, linked⟩ := lays.ctrl
  have last : head = -1 := exhausted ⟨layout.root, head⟩ (congrArg IndexPage.asCtrl content)
  cases free : layout.free with
  | nil => rfl
  | cons addr rest =>
      rw [free] at linked
      have member : addr ∈ layout.free := free ▸ List.mem_cons_self
      have nonneg := (lays.free_inFile member).1.2.1
      have same := linked.1
      omega

/-- The pages of a file are the control block and those of its layout. -/
theorem length_eq (lays : Lays map layout) : map.length = pageSize * (layout.pages.card + 1) := by
  obtain ⟨count, length⟩ : ∃ count : Nat, map.length = pageSize * (count + 1) := by
    have whole := lays.whole
    have positive := lays.positive
    refine ⟨(map.length / pageSize - 1).toNat, ?_⟩
    simp only [pageSize] at *
    omega
  have pages : layout.pages = (Multiset.range count).map fun place : Nat => pageSize * (place + 1 : Int) := by
    refine (Multiset.Nodup.ext lays.distinct ?_).mpr fun addr => ?_
    · refine Multiset.Nodup.map (fun first second same => ?_) (Multiset.nodup_range count)
      simp only [pageSize] at same
      omega
    · rw [lays.covers addr, Multiset.mem_map]
      constructor
      · rintro ⟨⟨aligned, nonneg, below⟩, proper⟩
        refine ⟨(addr / pageSize - 1).toNat, Multiset.mem_range.mpr ?_, ?_⟩
        · rw [length] at below
          simp only [pageSize] at *
          omega
        · simp only [pageSize] at *
          omega
      · rintro ⟨place, member, rfl⟩
        have below := Multiset.mem_range.mp member
        refine ⟨⟨Int.mul_emod_right .., ?_, ?_⟩, ?_⟩
        · simp only [pageSize]
          omega
        · rw [length]
          simp only [pageSize]
          omega
        · simp only [pageSize]
          omega
  rw [length, pages, Multiset.card_map, Multiset.card_range]

end Lays

/-! ## Insertions use the free pages first -/

/-- The file is no longer than this, or its free list is empty. -/
structure Frugal (limit : Int) (map : PageMap IndexPage) : Prop where
  positive : 0 < map.length
  spent : map.length ≤ limit ∨ Exhausted map

section Frugal

variable {Q σ : Type} {callbacks : Callbacks Q σ} {limit addr : Int} {map : PageMap IndexPage}

theorem Frugal.store_node (frugal : Frugal limit map) (node : BNode) : Frugal limit (map.store addr (.node node)) := by
  refine ⟨frugal.positive, frugal.spent.imp_right fun exhausted ctrl content => ?_⟩
  rw [PageMap.store_page] at content
  split at content
  · cases content
  · exact exhausted ctrl content

/-- A control block whose list is empty may be written, and any while the file is short. -/
theorem Frugal.store_ctrl {ctrl : BCtrlBlock} (frugal : Frugal limit map)
    (spent : Exhausted map → map.length ≤ limit ∨ ctrl.freeNodeHead = -1) : Frugal limit (map.store 0 (.ctrl ctrl)) := by
  refine ⟨frugal.positive, ?_⟩
  rcases frugal.spent.elim .inl spent with short | last
  · exact .inl short
  · right
    intro other content
    rw [PageMap.store_page_self] at content
    cases content
    exact last

/-- The programs that keep a file frugal, as long as it grows only when the free list is empty. -/
abbrev Thrifty {α : Type} (callbacks : Callbacks Q σ) (limit : Int) (program : TreeProg Q α) : Prop :=
  program.Keeps (treeMeaning callbacks) GrowthKept fun state => Frugal limit state.1.map

/-- `get_page` finds the page, or appends one when the free list is empty. -/
theorem wlp_getPage {post : Unit → RunState σ → Prop} {state : RunState σ} (frugal : Frugal limit state.1.map)
    (found : ∀ after : RunState σ, after.1.map = state.1.map → post () after)
    (appended : ∀ after : RunState σ, Exhausted state.1.map → Frugal limit after.1.map → post () after) :
    (getPage addr : TreeProg Q Unit).wlp (Logic.relying (treeMeaning callbacks) GrowthKept) post state := by
  intro grows result after step
  obtain ⟨ran, -⟩ := Meaning.sum_left step
  obtain ⟨map, got, same⟩ := Option.map_eq_some_iff.mp ran
  have pages : map = after.1.map := congrArg (fun result => result.2.map) same
  unfold PageMap.getPage at got
  split at got
  · split at got
    · cases got
      exact found after pages.symm
    · rename_i outside
      obtain ⟨root, content⟩ := grows frugal.positive (not_lt.mp outside)
      have exhausted : Exhausted state.1.map := by
        intro ctrl here
        rw [content] at here
        cases here
        rfl
      refine appended after exhausted ?_
      obtain rfl := Option.some.inj got
      rw [← pages]
      have proper : (0 : Int) ≠ addr := (lt_of_lt_of_le frugal.positive (not_lt.mp outside)).ne
      refine ⟨?_, .inr fun ctrl here => exhausted ctrl ?_⟩
      · have positive := frugal.positive
        simp only [pageSize]
        omega
      · rw [← here]
        exact congrArg IndexPage.asCtrl (Function.update_of_ne proper ..).symm
  · cases got

theorem thrifty_getPage : Thrifty callbacks limit (getPage addr) := by
  intro state frugal
  refine wlp_getPage frugal (fun after same => ?_) fun _ _ kept => kept
  have kept : Frugal limit after.1.map := same ▸ frugal
  exact kept

theorem thrifty_release : Thrifty callbacks limit (release addr) := by
  intro state frugal _ result after step
  cases step
  exact frugal

theorem wlp_load {post : IndexPage → RunState σ → Prop} {state : RunState σ} (ended : post (state.1.map.page addr) state) :
    (load addr : TreeProg Q IndexPage).wlp (Logic.relying (treeMeaning callbacks) GrowthKept) post state := by
  intro _ result after step
  cases step
  exact ended

theorem thrifty_load : Thrifty callbacks limit (load addr) := fun _ frugal => wlp_load frugal

theorem thrifty_fileLength : Thrifty callbacks limit fileLength := by
  intro state frugal _ result after step
  cases step
  exact frugal

theorem thrifty_writeNode {node : BNode} : Thrifty callbacks limit (writeNode addr node) := by
  intro state frugal _ result after step
  cases step
  exact frugal.store_node node

/-- What a caller does leaves the file alone. -/
theorem thrifty_env {β : Type} (effect : EnvOp Q β) : Thrifty callbacks limit (perform (.right effect)) := by
  intro state frugal _ result after step
  have kept : Frugal limit after.1.map := (Meaning.sum_right step).2 ▸ frugal
  exact kept

theorem thrifty_readNode : Thrifty callbacks limit (readNode addr) := thrifty_load.bind fun _ => keeps_ofOption _

theorem thrifty_getNode : Thrifty callbacks limit (getNode addr) := thrifty_getPage.bind fun _ => thrifty_readNode

theorem thrifty_putNode {node : BNode} : Thrifty callbacks limit (putNode addr node) :=
  thrifty_writeNode.bind fun _ => thrifty_release

/-- The control block is what page 0 says. -/
theorem wlp_loadCtrl {post : BCtrlBlock → RunState σ → Prop} {state : RunState σ}
    (ended : ∀ ctrl, (state.1.map.page 0).asCtrl = some ctrl → post ctrl state) :
    (loadCtrl : TreeProg Q BCtrlBlock).wlp (Logic.relying (treeMeaning callbacks) GrowthKept) post state := by
  unfold loadCtrl
  rw [wlp_bind]
  exact wlp_load (wlp_ofOption ended)

theorem thrifty_loadCtrl : Thrifty callbacks limit loadCtrl := fun _ frugal => wlp_loadCtrl fun _ _ => frugal

theorem wlp_storeCtrl {post : Unit → RunState σ → Prop} {state : RunState σ} {ctrl : BCtrlBlock}
    (ended : ∀ after : RunState σ, after.1.map = state.1.map.store 0 (.ctrl ctrl) → post () after) :
    (storeCtrl ctrl : TreeProg Q Unit).wlp (Logic.relying (treeMeaning callbacks) GrowthKept) post state := by
  intro _ result after step
  cases step
  exact ended _ rfl

/-- The control block is written with the list that it had. -/
theorem thrifty_changeCtrl (change : BCtrlBlock → BCtrlBlock) (same : ∀ ctrl, (change ctrl).freeNodeHead = ctrl.freeNodeHead) :
    Thrifty callbacks limit (loadCtrl >>= fun ctrl => storeCtrl (change ctrl)) := by
  intro state frugal
  rw [wlp_bind]
  refine wlp_loadCtrl fun ctrl content => wlp_storeCtrl fun after stored => ?_
  change Frugal limit after.1.map
  rw [stored]
  exact frugal.store_ctrl fun exhausted => .inr ((same ctrl).trans (exhausted ctrl content))

/-- A free page is fetched and taken off the list, which is not empty. -/
theorem wlp_takeFree {α : Type} {next : BNode → TreeProg Q α} {state : RunState σ} {ctrl : BCtrlBlock}
    (frugal : Frugal limit state.1.map) (content : (state.1.map.page 0).asCtrl = some ctrl) (listed : ctrl.freeNodeHead ≠ -1)
    (rest : ∀ node, Thrifty callbacks limit (next node)) :
    (do
      let node ← getNode ctrl.freeNodeHead
      let ctrl ← loadCtrl
      storeCtrl { ctrl with freeNodeHead := node.next }
      next node : TreeProg Q α).wlp (Logic.relying (treeMeaning callbacks) GrowthKept)
        (fun _ after => Frugal limit after.1.map) state := by
  unfold getNode readNode
  simp only [wlp_bind]
  refine wlp_getPage frugal ?_ ?_
  · intro fetched same
    refine wlp_load (wlp_ofOption fun node _ => wlp_loadCtrl fun _ _ => wlp_storeCtrl fun after stored => ?_)
    refine rest node after ?_
    change Frugal limit after.1.map
    rw [stored, same]
    exact frugal.store_ctrl fun exhausted => absurd (exhausted ctrl content) listed
  · exact fun _ exhausted _ => absurd (exhausted ctrl content) listed

theorem thrifty_takeNode : Thrifty callbacks limit takeNode := by
  intro state frugal
  unfold takeNode
  rw [wlp_bind]
  refine wlp_loadCtrl fun ctrl content => ?_
  split
  · rename_i listed
    exact wlp_takeFree frugal content listed fun node => keeps_pure _
  · exact (thrifty_fileLength.bind fun _ => thrifty_getPage.bind fun _ => keeps_pure _) state frugal

theorem thrifty_setRoot {root : Int} : Thrifty callbacks limit (setRoot root) := by
  unfold setRoot
  refine thrifty_getPage.bind fun _ => ?_
  have change := @thrifty_changeCtrl Q σ callbacks limit (fun ctrl => { ctrl with rootNode := root }) fun _ => rfl
  have released := change.bind fun _ => @thrifty_release Q σ callbacks limit 0
  intro state frugal
  have holds := released state frugal
  simp only [wlp_bind] at holds ⊢
  exact holds

variable {degree count pos : Nat} {node : BNode} {rid : RID} {root : Int} {entry : NewChildEntry}

theorem thrifty_scanBefore : Thrifty callbacks limit (scanRows degree (rowBefore rid) addr pos count) := by
  induction count generalizing pos with
  | zero => exact keeps_pure _
  | succ count ih =>
      refine thrifty_readNode.bind fun _ => (keeps_ofOption _).bind fun row => ?_
      refine Keeps.bind ((thrifty_env _).bind fun _ => keeps_pure _) fun answer => ?_
      cases answer with
      | true => exact keeps_pure _
      | false => exact ih

theorem thrifty_insertInner : Thrifty callbacks limit (insertInner degree addr node entry root) := by
  unfold insertInner
  split
  · refine thrifty_scanBefore.bind fun _ => thrifty_readNode.bind fun _ => (keeps_ofOption _).bind fun _ => ?_
    exact thrifty_putNode.bind fun _ => keeps_pure _
  · split
    · refine thrifty_getPage.bind fun _ => thrifty_takeNode.bind fun addrNew => ?_
      refine thrifty_takeNode.bind fun addrRootNew => thrifty_release.bind fun _ => ?_
      refine thrifty_readNode.bind fun _ => thrifty_writeNode.bind fun _ => thrifty_scanBefore.bind fun _ => ?_
      refine thrifty_readNode.bind fun _ => thrifty_readNode.bind fun _ => ?_
      refine (keeps_ofOption _).bind fun ⟨node, new, middle⟩ => ?_
      refine thrifty_writeNode.bind fun _ => thrifty_writeNode.bind fun _ => ?_
      refine thrifty_release.bind fun _ => thrifty_release.bind fun _ => ?_
      refine thrifty_readNode.bind fun _ => (keeps_ofOption _).bind fun _ => ?_
      exact thrifty_putNode.bind fun _ => thrifty_setRoot.bind fun _ => keeps_pure _
    · refine thrifty_getPage.bind fun _ => thrifty_takeNode.bind fun addrNew => thrifty_release.bind fun _ => ?_
      refine thrifty_readNode.bind fun _ => thrifty_writeNode.bind fun _ => thrifty_scanBefore.bind fun _ => ?_
      refine thrifty_readNode.bind fun _ => thrifty_readNode.bind fun _ => ?_
      refine (keeps_ofOption _).bind fun ⟨node, new, middle⟩ => ?_
      refine thrifty_writeNode.bind fun _ => thrifty_writeNode.bind fun _ => ?_
      exact thrifty_release.bind fun _ => thrifty_release.bind fun _ => keeps_pure _

theorem thrifty_insertLeaf : Thrifty callbacks limit (insertLeaf degree addr node rid root) := by
  unfold insertLeaf
  split
  · refine thrifty_scanBefore.bind fun _ => thrifty_readNode.bind fun _ => (keeps_ofOption _).bind fun _ => ?_
    exact thrifty_putNode.bind fun _ => keeps_pure _
  · split
    · refine thrifty_getPage.bind fun _ => thrifty_takeNode.bind fun addrNew => ?_
      refine thrifty_takeNode.bind fun addrRootNew => thrifty_release.bind fun _ => ?_
      refine thrifty_readNode.bind fun _ => thrifty_writeNode.bind fun _ => thrifty_scanBefore.bind fun _ => ?_
      refine thrifty_readNode.bind fun _ => thrifty_readNode.bind fun _ => ?_
      refine (keeps_ofOption _).bind fun ⟨node, new⟩ => ?_
      refine thrifty_writeNode.bind fun _ => thrifty_writeNode.bind fun _ => ?_
      refine (keeps_ofOption _).bind fun _ => (thrifty_env _).bind fun _ => ?_
      refine thrifty_readNode.bind fun _ => (keeps_ofOption _).bind fun _ => thrifty_writeNode.bind fun _ => ?_
      refine thrifty_release.bind fun _ => thrifty_release.bind fun _ => ?_
      refine thrifty_readNode.bind fun _ => (keeps_ofOption _).bind fun _ => thrifty_release.bind fun _ => ?_
      exact thrifty_setRoot.bind fun _ => keeps_pure _
    · refine thrifty_getPage.bind fun _ => thrifty_takeNode.bind fun addrNew => thrifty_release.bind fun _ => ?_
      refine thrifty_readNode.bind fun _ => thrifty_writeNode.bind fun _ => thrifty_scanBefore.bind fun childPos => ?_
      split
      · refine thrifty_readNode.bind fun _ => (keeps_ofOption _).bind fun _ => (thrifty_env _).bind fun _ => ?_
        refine thrifty_readNode.bind fun _ => thrifty_readNode.bind fun _ => ?_
        refine (keeps_ofOption _).bind fun ⟨node, new⟩ => ?_
        refine thrifty_writeNode.bind fun _ => thrifty_writeNode.bind fun _ => ?_
        exact thrifty_release.bind fun _ => thrifty_release.bind fun _ => keeps_pure _
      · refine thrifty_readNode.bind fun _ => thrifty_readNode.bind fun _ => ?_
        refine (keeps_ofOption _).bind fun ⟨node, new⟩ => ?_
        refine thrifty_writeNode.bind fun _ => thrifty_writeNode.bind fun _ => ?_
        refine (keeps_ofOption _).bind fun _ => (thrifty_env _).bind fun _ => ?_
        exact thrifty_release.bind fun _ => thrifty_release.bind fun _ => keeps_pure _

theorem thrifty_insertEntry {rounds : Nat} : Thrifty callbacks limit (insertEntry degree rounds addr rid root) := by
  induction rounds generalizing addr with
  | zero => exact keeps_fail
  | succ rounds ih =>
      refine thrifty_getNode.bind fun node => ?_
      split
      · exact thrifty_insertLeaf
      · refine thrifty_scanBefore.bind fun _ => thrifty_readNode.bind fun _ => (keeps_ofOption _).bind fun _ => ?_
        refine thrifty_release.bind fun _ => ih.bind fun childNew => thrifty_getNode.bind fun node => ?_
        split
        · exact thrifty_release.bind fun _ => keeps_pure _
        · exact thrifty_insertInner

theorem thrifty_bTreeInsert : Thrifty callbacks limit (bTreeInsert degree rid) := by
  have rest : Thrifty callbacks limit (do
      let ctrl ← loadCtrl
      release 0
      release ctrl.rootNode
      let length ← fileLength
      let _ ← insertEntry degree length.toNat ctrl.rootNode rid ctrl.rootNode
      return rid) := by
    refine thrifty_loadCtrl.bind fun _ => thrifty_release.bind fun _ => thrifty_release.bind fun _ => ?_
    exact thrifty_fileLength.bind fun _ => thrifty_insertEntry.bind fun _ => keeps_pure _
  have rooted : Thrifty callbacks limit (do
      let ctrl ← loadCtrl
      storeCtrl { ctrl with rootNode := pageSize }
      let ctrl ← loadCtrl
      release 0
      release ctrl.rootNode
      let length ← fileLength
      let _ ← insertEntry degree length.toNat ctrl.rootNode rid ctrl.rootNode
      return rid) := by
    have change := @thrifty_changeCtrl Q σ callbacks limit (fun ctrl => { ctrl with rootNode := pageSize }) fun _ => rfl
    intro state frugal
    have holds := (change.bind fun _ => rest) state frugal
    simp only [wlp_bind] at holds ⊢
    exact holds
  unfold bTreeInsert
  refine thrifty_getPage.bind fun _ => ?_
  intro state frugal
  rw [wlp_bind]
  refine wlp_loadCtrl fun ctrl content => ?_
  split
  · exact (thrifty_getPage.bind fun _ => rest) state frugal
  · split
    · exact (thrifty_getNode.bind fun _ => thrifty_writeNode.bind fun _ => rooted) state frugal
    · rename_i listed
      exact wlp_takeFree frugal content listed fun node => thrifty_writeNode.bind fun _ => rooted

end Frugal

/-! ## Deletions and searches append nothing -/

section Length

variable {K Q σ : Type} [LinearOrder K] {callbacks : Callbacks Q σ} {ask : Q → K} {key : RID → K} {limit : Int}

/-- Where nothing may grow, the file keeps its length. -/
theorem growthLogic_honours : (growthLogic False ask).Honours (.any : Contract (TreeOp Q))
    (fun state : TreeState K => 0 < state.1.map.length ∧ state.1.map.length = limit) fun _ _ _ => True := by
  intro β effect post state length _ holds
  refine ⟨trivial, ?_⟩
  cases effect with
  | left effect =>
      obtain ⟨grows, guarded, result, after, step, ended⟩ := holds
      refine ⟨grows, guarded, result, after, step, ended, ?_, trivial⟩
      cases effect with
      | getPage addr =>
          obtain ⟨map, got, same⟩ := Option.map_eq_some_iff.mp step
          cases same
          unfold PageMap.getPage at got
          split at got
          · split at got
            · cases got
              exact length
            · rename_i outside
              exact (grows length.1 (not_lt.mp outside)).1.elim
          · cases got
      | setFileLength => exact grows.elim
      | release addr => cases step; exact length
      | load addr => cases step; exact length
      | store addr page => cases step; exact length
      | fileLength => cases step; exact length
  | right effect =>
      cases effect with
      | rowRowCmp rid1 rid2 =>
          obtain ⟨known, knows, ended⟩ := holds
          exact ⟨known, knows, fun sign agrees => ⟨ended sign agrees, length, trivial⟩⟩
      | ptrRowCmp pointer rid =>
          obtain ⟨knows, ended⟩ := holds
          exact ⟨knows, fun sign agrees => ⟨ended sign agrees, length, trivial⟩⟩
      | insertHandler rid =>
          obtain ⟨known, ended⟩ := holds
          exact ⟨known, fun copy key agree same => ⟨ended copy key agree same, length, trivial⟩⟩
      | deleteHandler rid =>
          obtain ⟨owed, ended⟩ := holds
          exact ⟨owed, fun key agree => ⟨ended key agree, length, trivial⟩⟩

/-- A run of a program that appends nothing leaves a file of the same length. -/
theorem run_keeps_length (lawful : callbacks.Lawful ask key) {α : Type} {program : TreeProg Q α}
    {state : TreeState K} {state' after : RunState σ} {value : α} (accounts : Accounts key state state')
    (positive : 0 < state.1.map.length) (holds : program.wp (growthLogic False ask) (fun _ _ => True) state)
    (ran : program.run (treeMeaning callbacks) state' = some (value, after)) :
    after.1.map.length = state'.1.map.length := by
  have kept := Logic.wp_of_guarded ((meets_any program).wp_guarded growthLogic_honours ⟨positive, rfl⟩ holds)
  obtain ⟨⟨_, _, ran', final, accounts', -, -, same⟩, -⟩ := run_of_wp_tree lawful accounts kept
  rw [ran] at ran'
  cases ran'
  rw [accounts'.pages, accounts.pages]
  exact same

variable {degree : Nat} {contents : K → Option RID} {state after : RunState σ} {rid result : RID} {pointer : Q}

theorem Stands.positive {word : Word RID} {state : TreeState K} (stands : Stands degree word state) :
    0 < state.1.map.length := by
  obtain ⟨root, nodes, free, lays, -⟩ := stands.shows
  exact lays.positive

theorem delete_keeps_length (positive : 1 ≤ degree) (lawful : callbacks.Lawful ask key)
    (holds : IndexHolds degree key contents state) (present : contents (key rid) ≠ none)
    (ran : (bTreeDelete degree rid).run (treeMeaning callbacks) state = some ((), after)) :
    after.1.map.length = state.1.map.length := by
  obtain ⟨word, world, stands, accounts, lists⟩ := holds
  obtain ⟨⟨map, pins⟩, ledger⟩ := state
  obtain rfl : pins = 0 := stands.pins
  obtain ⟨-, rfl, all, -⟩ := id accounts
  obtain ⟨row, bound⟩ := Option.ne_none_iff_exists'.mp present
  obtain ⟨member, same⟩ := (lists _ row).mp bound
  refine run_keeps_length lawful accounts stands.positive ?_ ran
  exact wp_bTreeDelete positive stands (all ▸ Set.mem_univ rid) member same fun _ _ _ _ _ => trivial

theorem search_keeps_length (lawful : callbacks.Lawful ask key) (holds : IndexHolds degree key contents state)
    (ran : (bTreeSearch degree pointer).run (treeMeaning callbacks) state = some (result, after)) :
    after.1.map.length = state.1.map.length := by
  obtain ⟨word, world, stands, accounts, lists⟩ := holds
  obtain ⟨⟨map, pins⟩, ledger⟩ := state
  obtain rfl : pins = 0 := stands.pins
  refine run_keeps_length lawful accounts stands.positive ?_ ran
  exact wp_bTreeSearch stands fun _ _ => trivial

/-- Where an insertion has lengthened the file, the free list is empty. -/
theorem insert_grows_when_empty (positive : 1 ≤ degree) (lawful : callbacks.Lawful ask key)
    (holds : IndexHolds degree key contents state) (absent : contents (key rid) = none)
    (ran : (bTreeInsert degree rid).run (treeMeaning callbacks) state = some (result, after)) :
    after.1.map.length ≤ state.1.map.length ∨ Exhausted after.1.map := by
  obtain ⟨-, always⟩ := run_bTreeInsert positive lawful holds absent
  obtain ⟨word, world, stands, accounts, -⟩ := holds
  have frugal : Frugal state.1.map.length state.1.map := ⟨stands.positive, .inl le_rfl⟩
  exact (of_run_of_always ran (always.imp fun _ _ _ guard => guard.2.1) (thrifty_bTreeInsert state frugal)).spent

end Length

/-! ## How many nodes and copies there are -/

section Occupancy

variable {K Q σ : Type} {key : RID → K} {contents : K → Option RID} {rows : Multiset RID} {rid : RID}

/-- The keys that are present. -/
def keysOf (contents : K → Option RID) : Set K := {x | contents x ≠ none}

theorem Lists.keysOf_eq (lists : Lists key contents rows) : keysOf contents = {x | x ∈ rows.map key} := by
  ext x
  rw [keysOf, Set.mem_ofPred_eq, Set.mem_ofPred_eq, Option.ne_none_iff_exists', Multiset.mem_map]
  exact exists_congr fun row => lists x row

variable [LinearOrder K] {degree : Nat} {callbacks : Callbacks Q σ} {ask : Q → K} {state : RunState σ}

theorem Lists.ncard (lists : Lists key contents rows) (distinct : (rows.map key).Nodup) :
    (keysOf contents).Finite ∧ (keysOf contents).ncard = rows.card := by
  have same : keysOf contents = ((rows.map key).toFinset : Set K) := by
    rw [lists.keysOf_eq]
    ext x
    exact Multiset.mem_toFinset.symm
  rw [same]
  refine ⟨Finset.finite_toSet _, ?_⟩
  rw [Set.ncard_coe_finset, Multiset.toFinset_card_of_nodup distinct, Multiset.card_map]

/-- An index has few nodes for its rows. -/
theorem Stands.few_nodes {word : Word RID} {final : TreeState K} (stands : Stands degree word final) (two : 2 ≤ degree) :
    ∃ root nodes free, Lays final.1.map ⟨root, nodes, 0, free⟩ ∧
      2 * degree * nodes.card ≤ max (2 * degree) (3 * word.items.card) := by
  cases stands with
  | nothing free pins lays first sound => exact ⟨-1, 0, free, lays, Nat.zero_le _⟩
  | tree tree left sized rests =>
      obtain ⟨-, ⟨free, lays⟩, -⟩ := rests
      exact ⟨tree.addr, tree.nodes, free, lays, tree.card_nodes_le two sized⟩

/-- An index has few separators for its rows. -/
theorem Stands.few_separators {word : Word RID} {final : TreeState K} (stands : Stands degree word final) :
    word.seps = 0 ∨ degree * word.seps.card + degree ≤ word.items.card := by
  cases stands with
  | nothing free pins lays first sound => exact .inl rfl
  | tree tree left sized rests => exact tree.card_seps_le sized

/--
Copies are few: in every state reached, what `insert_handler` has made and `delete_handler` was
not given is nothing at all, or one copy less than a `DEGREE`-th of the keys that are present.
-/
theorem copies_are_few (positive : 1 ≤ degree) (lawful : callbacks.Lawful ask key)
    (reached : Reaches degree callbacks key contents state) :
    state.2.freed ≤ state.2.made ∧ (state.2.made = state.2.freed ∨
      degree * (state.2.made - state.2.freed).card + degree ≤ (keysOf contents).ncard) := by
  obtain ⟨word, world, stands, accounts, lists⟩ := reached.holds positive lawful
  have distinct := stands.sound.sorted.nodup_keys
  rw [accounts.key] at distinct
  have owed : world.owed = word.seps := stands.sound.owed.trans (zero_add _)
  have made : state.2.made = state.2.freed + word.seps := owed ▸ accounts.owed
  rw [(lists.ncard distinct).2, made, add_tsub_cancel_left]
  refine ⟨Multiset.le_add_right _ _, stands.few_separators.imp (fun none => ?_) id⟩
  rw [none, add_zero]

/-- Five copies stand among fifteen keys. -/
theorem copies_are_few_grown : Reaches 2 testCallbacks RID.blockAddr grownContents grown ∧
    (grown.2.made - grown.2.freed).card = 5 ∧ 2 * 5 + 2 ≤ (keysOf grownContents).ncard := by
  obtain ⟨less, few⟩ := copies_are_few (by decide) testCallbacks_lawful grown_reached
  obtain ⟨made, freed⟩ := grown_copies
  have card : (grown.2.made - grown.2.freed).card = 5 := by
    rw [Multiset.card_sub less, made, freed]
  rw [card] at few
  refine ⟨grown_reached, card, few.resolve_left fun same => ?_⟩
  rw [same, freed] at made
  cases made

/-! ## The length of the file -/

/-- The file has the pages that this number of keys accounts for. -/
def FitsKeys (degree : Nat) (map : PageMap IndexPage) (most : Nat) : Prop :=
  ∃ pages : Nat, map.length = pageSize * (pages + 1) ∧ 2 * degree * pages ≤ max (2 * degree) (3 * most)

theorem FitsKeys.mono {map : PageMap IndexPage} {most most' : Nat} (fits : FitsKeys degree map most) (le : most ≤ most') :
    FitsKeys degree map most' := by
  obtain ⟨pages, length, few⟩ := fits
  exact ⟨pages, length, few.trans (max_le_max le_rfl (Nat.mul_le_mul_left 3 le))⟩

/-- The most keys that are present at one time, from this number of keys on. -/
def peak : Nat → List (Command Q) → Nat
  | now, [] => now
  | now, .insert _ :: commands => max now (peak (now + 1) commands)
  | now, .delete _ :: commands => max now (peak (now - 1) commands)
  | now, .search _ :: commands => peak now commands

theorem le_peak (now : Nat) (commands : List (Command Q)) : now ≤ peak now commands := by
  induction commands with
  | nil => exact le_rfl
  | cons command commands ih =>
      cases command with
      | insert rid => exact le_max_left _ _
      | delete rid => exact le_max_left _ _
      | search pointer => exact ih

theorem IndexHolds.keys (holds : IndexHolds degree key contents state) : (keysOf contents).Finite := by
  obtain ⟨word, world, stands, accounts, lists⟩ := holds
  have distinct := stands.sound.sorted.nodup_keys
  rw [accounts.key] at distinct
  exact (lists.ncard distinct).1

/-- A file whose free list is empty fits the keys that are present. -/
theorem IndexHolds.fits (two : 2 ≤ degree) (holds : IndexHolds degree key contents state)
    (exhausted : Exhausted state.1.map) : FitsKeys degree state.1.map (keysOf contents).ncard := by
  obtain ⟨word, world, stands, accounts, lists⟩ := holds
  have distinct := stands.sound.sorted.nodup_keys
  rw [accounts.key] at distinct
  obtain ⟨root, nodes, free, lays, few⟩ := stands.few_nodes two
  obtain rfl : free = [] := lays.exhausted exhausted
  refine ⟨nodes.card, ?_, ?_⟩
  · rw [lays.length_eq, Layout.pages, Multiset.coe_nil, add_zero, add_zero, Multiset.card_map]
  · rw [(lists.ncard distinct).2]
    exact few

/-- A file that is no longer fits as many keys. -/
theorem IndexHolds.fits_of_le {most : Nat} {map : PageMap IndexPage} (holds : IndexHolds degree key contents state)
    (fits : FitsKeys degree map most) (shorter : state.1.map.length ≤ map.length) : FitsKeys degree state.1.map most := by
  obtain ⟨word, world, stands, -, -⟩ := holds
  obtain ⟨root, nodes, free, lays, -⟩ := stands.shows
  obtain ⟨pages, length, few⟩ := fits
  have count := lays.length_eq
  refine ⟨_, count, le_trans (Nat.mul_le_mul_left _ ?_) few⟩
  rw [count, length] at shorter
  simp only [pageSize] at shorter
  omega

theorem keysOf_insert : keysOf (Function.update contents (key rid) (some rid)) = insert (key rid) (keysOf contents) := by
  ext x
  rw [keysOf, Set.mem_ofPred_eq, Set.mem_insert_iff]
  by_cases here : x = key rid
  · subst here
    rw [Function.update_self]
    exact iff_of_true (Option.some_ne_none _) (.inl rfl)
  · rw [Function.update_of_ne here]
    exact (or_iff_right here).symm

theorem keysOf_delete : keysOf (Function.update contents (key rid) none) = keysOf contents \ {key rid} := by
  ext x
  rw [keysOf, Set.mem_ofPred_eq, Set.mem_sdiff, Set.mem_singleton_iff]
  by_cases here : x = key rid
  · subst here
    rw [Function.update_self]
    exact iff_of_false (not_not.mpr rfl) fun both => both.2 rfl
  · rw [Function.update_of_ne here]
    exact (and_iff_left here).symm

/-- A session keeps the file as short as the most keys allow. -/
theorem session_fits (two : 2 ≤ degree) (lawful : callbacks.Lawful ask key) (commands : List (Command Q)) {most : Nat}
    {results : List RID} {after : RunState σ} (holds : IndexHolds degree key contents state)
    (fits : FitsKeys degree state.1.map most) (enough : peak (keysOf contents).ncard commands ≤ most)
    (allowed : Allowed key contents commands)
    (ran : (session degree commands).run (treeMeaning callbacks) state = some (results, after)) :
    FitsKeys degree after.1.map most := by
  have positive : 1 ≤ degree := Nat.le_of_succ_le two
  induction commands generalizing contents state results with
  | nil =>
      cases ran
      exact fits
  | cons command commands ih =>
      cases command with
      | insert rid =>
          obtain ⟨absent, allowed⟩ := allowed
          obtain ⟨⟨middle, step, holds'⟩, -⟩ := run_bTreeInsert positive lawful holds absent
          rw [session, run_bind, step, Option.bind_some] at ran
          have more : (keysOf (Function.update contents (key rid) (some rid))).ncard = (keysOf contents).ncard + 1 := by
            rw [keysOf_insert]
            exact Set.ncard_insert_of_notMem (not_not.mpr absent) holds.keys
          have enough' := (le_max_right _ _).trans enough
          rw [← more] at enough'
          refine ih holds' ?_ enough' allowed ran
          rcases insert_grows_when_empty positive lawful holds absent step with shorter | exhausted
          · exact holds'.fits_of_le fits shorter
          · exact (holds'.fits two exhausted).mono ((le_peak _ _).trans enough')
      | delete rid =>
          obtain ⟨present, allowed⟩ := allowed
          obtain ⟨⟨middle, step, holds'⟩, -⟩ := run_bTreeDelete positive lawful holds present
          rw [session, run_bind, step, Option.bind_some] at ran
          have fewer : (keysOf (Function.update contents (key rid) none)).ncard = (keysOf contents).ncard - 1 := by
            rw [keysOf_delete]
            exact Set.ncard_sdiff_singleton_of_mem present
          have enough' := (le_max_right _ _).trans enough
          rw [← fewer] at enough'
          refine ih holds' ?_ enough' allowed ran
          exact holds'.fits_of_le fits (delete_keeps_length positive lawful holds present step).le
      | search pointer =>
          obtain ⟨⟨middle, step, holds'⟩, -⟩ := run_bTreeSearch lawful holds
          rw [session, run_bind, step, Option.bind_some, run_bind] at ran
          obtain ⟨⟨rest, final⟩, ran', last⟩ := Option.bind_eq_some_iff.mp ran
          cases last
          refine ih holds' ?_ enough allowed ran'
          exact holds'.fits_of_le fits (search_keeps_length lawful holds step).le

/-- A session on a new index keeps the file as short as the most keys allow. -/
theorem new_session_fits (two : 2 ≤ degree) (lawful : callbacks.Lawful ask key) (caller : σ) (commands : List (Command Q))
    (allowed : Allowed key (fun _ => none) commands) :
    ∃ after, (do bTreeInit; session degree commands : TreeProg Q (List RID)).run (treeMeaning callbacks)
      (unopened caller) = some (answers ask key (fun _ => none) commands, after) ∧
        FitsKeys degree after.1.map (peak 0 commands) := by
  have positive : 1 ≤ degree := Nat.le_of_succ_le two
  obtain ⟨⟨opened, ran, holds⟩, -⟩ := run_bTreeInit lawful caller
  obtain ⟨after, rest⟩ := run_session positive lawful commands holds allowed
  have first : FitsKeys degree opened.1.map (peak 0 commands) := by
    cases ran
    exact ⟨0, rfl, Nat.zero_le _⟩
  refine ⟨after, ?_, session_fits two lawful commands holds first ?_ allowed rest⟩
  · rw [run_bind, ran]
    exact rest
  · have none : keysOf (fun _ : K => none) = ∅ := Set.eq_empty_of_forall_notMem fun _ member => member rfl
    rw [none, Set.ncard_empty]

/--
What the calls do to the length of the file: a search or a deletion keeps it, and where an
insertion adds to it, no page is free at the end.
-/
structure Sparing (degree : Nat) (callbacks : Callbacks Q σ) (key : RID → K) (contents : K → Option RID)
    (state : RunState σ) : Prop where
  search : ∀ pointer, ∃ result after, (bTreeSearch degree pointer).run (treeMeaning callbacks) state = some (result, after) ∧
    after.1.map.length = state.1.map.length
  delete : ∀ rid, contents (key rid) ≠ none → ∃ after, (bTreeDelete degree rid).run (treeMeaning callbacks) state =
    some ((), after) ∧ after.1.map.length = state.1.map.length
  insert : ∀ rid, contents (key rid) = none → ∃ after, (bTreeInsert degree rid).run (treeMeaning callbacks) state =
    some (rid, after) ∧ (state.1.map.length < after.1.map.length → Exhausted after.1.map)

theorem IndexHolds.sparing (positive : 1 ≤ degree) (lawful : callbacks.Lawful ask key)
    (holds : IndexHolds degree key contents state) : Sparing degree callbacks key contents state where
  search pointer := by
    obtain ⟨⟨after, ran, -⟩, -⟩ := run_bTreeSearch lawful holds
    exact ⟨_, after, ran, search_keeps_length lawful holds ran⟩
  delete rid present := by
    obtain ⟨⟨after, ran, -⟩, -⟩ := run_bTreeDelete positive lawful holds present
    exact ⟨after, ran, delete_keeps_length positive lawful holds present ran⟩
  insert rid absent := by
    obtain ⟨⟨after, ran, -⟩, -⟩ := run_bTreeInsert positive lawful holds absent
    refine ⟨after, ran, fun longer => ?_⟩
    exact (insert_grows_when_empty positive lawful holds absent ran).resolve_left (not_le.mpr longer)

/--
The file follows the most keys: after every session of insertions of absent keys, deletions of
present ones and searches, on an index that was empty, the pages beside the control block are
one, or at most three for every `2 * DEGREE` keys of the most that were ever present together.
In every state reached a search or a deletion keeps the length of the file, and an insertion
adds to it only when it leaves no page free.
-/
theorem file_follows_peak (two : 2 ≤ degree) (lawful : callbacks.Lawful ask key) :
    (∀ (caller : σ) (commands : List (Command Q)), Allowed key (fun _ => none) commands →
      ∃ after, (do bTreeInit; session degree commands : TreeProg Q (List RID)).run (treeMeaning callbacks)
        (unopened caller) = some (answers ask key (fun _ => none) commands, after) ∧
          FitsKeys degree after.1.map (peak 0 commands)) ∧
      ∀ contents state, Reaches degree callbacks key contents state → Sparing degree callbacks key contents state :=
  ⟨new_session_fits two lawful, fun _ _ reached =>
    (reached.holds (Nat.le_of_succ_le two) lawful).sparing (Nat.le_of_succ_le two) lawful⟩

/-- Four rows, which fill the first leaf. -/
def filledCommands : List (Command Int) := (List.range 4).map fun place => .insert ⟨(place : Int) + 1, 0⟩

/--
A session of splits and a merge, a deletion that frees three pages of its file, and the fifth
row of an index, which adds two pages to a file of two and leaves none of them free.
-/
theorem file_follows_peak_grown :
    (∃ after, (do bTreeInit; session 2 grownCommands : TreeProg Int (List RID)).run (treeMeaning testCallbacks)
      (unopened ()) = some ([], after) ∧ FitsKeys 2 after.1.map 16) ∧
      (∃ after, (bTreeDelete 2 ⟨6, 0⟩).run (treeMeaning testCallbacks) grown = some ((), after) ∧
        after.1.map.length = grown.1.map.length) ∧
        ∃ after, (bTreeInsert 2 ⟨5, 0⟩).run (treeMeaning testCallbacks) (stateAfter filledCommands) =
          some (⟨5, 0⟩, after) ∧ (stateAfter filledCommands).1.map.length = 2 * pageSize ∧
            after.1.map.length = 4 * pageSize ∧ Exhausted after.1.map := by
  obtain ⟨sessions, calls⟩ := file_follows_peak le_rfl testCallbacks_lawful
  refine ⟨sessions () grownCommands (by decide +kernel),
    (calls _ _ grown_reached).delete ⟨6, 0⟩ grownContents_present, ?_⟩
  obtain ⟨after, ran, spent⟩ :=
    (calls _ _ (stateAfter_reached (by decide +kernel : Allowed _ _ filledCommands))).insert ⟨5, 0⟩ (by decide +kernel)
  have short : (stateAfter filledCommands).1.map.length = 2 * pageSize := by decide +kernel
  have lengthened : ((bTreeInsert 2 ⟨5, 0⟩).run (treeMeaning testCallbacks) (stateAfter filledCommands)).map
      (fun result => result.2.1.map.length) = some (4 * pageSize) := by decide +kernel
  rw [ran, Option.map_some, Option.some.injEq] at lengthened
  rw [short, lengthened] at spent
  exact ⟨after, ran, short, lengthened, spent (by decide)⟩

end Occupancy

end MyJQL.Index
