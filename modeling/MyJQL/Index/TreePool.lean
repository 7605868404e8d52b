import MyJQL.Index.TreeCost
import MyJQL.Storage.BufferPoolRuns

/-!
# The index on its buffer pool

What the index does on a page map it does on the pool of eight slots, with evictions, and after
the pool has been closed and opened again. A hit counter cannot wrap within `2 ^ 50` operations,
since each of them fetches few pages. A node is loaded again after each call that may evict or
write its page, so a pointer that outlived its pin would show.
-/

namespace MyJQL.Index

open Library Library.Prog Storage

/-! ## Programs of the index on a pool -/

section Programs

variable {Q σ α : Type} {callbacks : Callbacks Q σ}

abbrev PooledState (σ : Type) : Type := Held IndexPage × Ledger σ

def pooledMeaning (callbacks : Callbacks Q σ) : Meaning (TreeOp Q) (PooledState σ) :=
  (poolMeaning IndexPage).sum (callbackMeaning callbacks)

/-- A pointer is used while its slot is pinned and holds the page. -/
def PointersKept : ∀ β : Type, TreeOp Q β → PooledState σ → Prop
  | _, .left effect, state => PointerGuard IndexPage _ effect state.1
  | _, .right _, _ => True

/-- The pool caches the pages of the state, and can still be asked for so many. -/
structure Cached (pooled : PooledState σ) (state : RunState σ) (calls : Nat) : Prop where
  sim : Sim pooled.1 state.1
  ledger : pooled.2 = state.2
  headroom : Headroom pooled.1.pool calls

theorem Cached.fewer {pooled : PooledState σ} {state : RunState σ} {few many : Nat} (cached : Cached pooled state many)
    (le : few ≤ many) : Cached pooled state few := ⟨cached.sim, cached.ledger, cached.headroom.mono le⟩

theorem affords_cached :
    Affords fetches (treeMeaning callbacks) PinsKept (pooledMeaning callbacks) PointersKept fun calls pooled state =>
      Cached pooled state calls := by
  rintro β effect spare ⟨held, ledger⟩ ⟨pinned, _⟩ after result ⟨sim, rfl, headroom⟩ guard step
  cases effect with
  | left effect =>
      obtain ⟨⟨answer, pages⟩, moved, same⟩ := Option.map_eq_some_iff.mp step
      cases same
      obtain ⟨pointer, held', ran, sim', room⟩ := affords_pool _ effect spare held pinned pages answer ⟨sim, headroom⟩ guard moved
      refine ⟨pointer, (held', ledger), ?_, sim', rfl, room⟩
      simp only [pooledMeaning, Meaning.sum, ran, Option.map_some]
  | right effect =>
      obtain ⟨⟨answer, ledger'⟩, moved, same⟩ := Option.map_eq_some_iff.mp step
      cases same
      rw [fetches, Nat.zero_add] at headroom
      refine ⟨trivial, (held, ledger'), ?_, sim, rfl, headroom⟩
      simp only [pooledMeaning, Meaning.sum, moved, Option.map_some]

/-- A run that keeps the pin discipline is one on the pool. -/
theorem Cached.run {program : TreeProg Q α} {pooled : PooledState σ} {state after : RunState σ} {value : α} {spare : Nat}
    (cached : Cached pooled state (program.cost fetches (treeMeaning callbacks) state + spare))
    (always : program.Always (treeMeaning callbacks) PinsKept state)
    (ran : program.run (treeMeaning callbacks) state = some (value, after)) :
    (∃ pooled', program.run (pooledMeaning callbacks) pooled = some (value, pooled') ∧ Cached pooled' after spare) ∧
      program.Always (pooledMeaning callbacks) PointersKept pooled :=
  affords_cached.run (fun le cached => cached.fewer le) cached (.inl le_rfl) always ran

end Programs

/-! ## Opening and closing -/

section Opening

variable {Q σ : Type} {callbacks : Callbacks Q σ}

/-- `b_tree_close` and `b_tree_init`; the memory of the new pool has any contents. -/
def reopened (state : PooledState σ) (pages : Slot → IndexPage) : PooledState σ :=
  (⟨BufferPool.initBufferPool state.1.pool.closeBufferPool.file.disk pages, fun _ => none⟩, state.2)

theorem Cached.reopened {pooled : PooledState σ} {state : RunState σ} {calls fewer : Nat}
    (cached : Cached pooled state calls) (idle : state.1.pins = 0) (pages : Slot → IndexPage) (few : fewer < 2 ^ 64 - 2) :
    Cached (reopened pooled pages) state fewer := by
  obtain ⟨⟨map, pins⟩, ledger⟩ := state
  obtain rfl : pins = 0 := idle
  exact ⟨cached.sim.reopened pages, cached.ledger, headroom_init _ pages few⟩

theorem run_bTreeInit_used {state : RunState σ} (used : state.1.map.length ≠ 0) :
    (bTreeInit : TreeProg Q Unit).run (treeMeaning callbacks) state = some ((), state) := by
  have length : (fileLength : TreeProg Q Int).run (treeMeaning callbacks) state = some (state.1.map.length, state) := rfl
  rw [bTreeInit, run_bind, length, Option.bind_some, if_pos used]
  rfl

theorem within_bTreeInit : (bTreeInit : TreeProg Q Unit).Within fetches 1 := by
  refine within_fileLength.after fun length => ?_
  split
  · trivial
  · exact within_getPage.paid fun _ => within_loadCtrl.after fun _ => within_storeCtrl.after fun _ => within_release

/-- An index that stands is opened without a change. -/
theorem IndexHolds.run_bTreeInit_opened {K : Type} [LinearOrder K] {degree : Nat} {ask : Q → K} {key : RID → K}
    {contents : K → Option RID} {state : RunState σ} (holds : IndexHolds degree key contents state)
    (lawful : callbacks.Lawful ask key) :
    (bTreeInit : TreeProg Q Unit).run (treeMeaning callbacks) state = some ((), state) ∧
      (bTreeInit : TreeProg Q Unit).Always (treeMeaning callbacks) TreeGuard state := by
  obtain ⟨word, world, stands, accounts, -⟩ := holds
  obtain ⟨⟨map, pins⟩, ledger⟩ := state
  obtain rfl : pins = 0 := stands.pins
  have spec : (bTreeInit : TreeProg Q Unit).wp (treeLogic ask) (fun _ (_ : TreeState K) => True) (⟨map, 0⟩, world) :=
    stands.wp_bTreeInit trivial
  refine ⟨run_bTreeInit_used ?_, (run_of_wp_tree lawful accounts spec).2⟩
  cases stands with
  | tree tree left sized rests => exact rests.lays.choose_spec.positive.ne'
  | nothing free pins lays first sound => exact lays.positive.ne'

end Opening

/-! ## Runs on a pool -/

/--
The states that operations reach on the pool of an index, from `b_tree_init` on an empty file,
with the number of the operations and the rows that they describe. The index may be closed and
opened again between operations.
-/
inductive PooledReaches {K Q σ : Type} [LinearOrder K] (degree : Nat) (callbacks : Callbacks Q σ) (key : RID → K) :
    Nat → (K → Option RID) → PooledState σ → Prop where
  | init {caller : σ} {pages : Slot → IndexPage} {after : PooledState σ}
      (ran : (bTreeInit : TreeProg Q Unit).run (pooledMeaning callbacks)
        (⟨BufferPool.initBufferPool [] pages, fun _ => none⟩, ⟨caller, 0, 0⟩) = some ((), after)) :
      PooledReaches degree callbacks key 0 (fun _ => none) after
  | insert {operations : Nat} {contents : K → Option RID} {state after : PooledState σ} {rid result : RID}
      (before : PooledReaches degree callbacks key operations contents state) (absent : contents (key rid) = none)
      (ran : (bTreeInsert degree rid).run (pooledMeaning callbacks) state = some (result, after)) :
      PooledReaches degree callbacks key (operations + 1) (Function.update contents (key rid) (some rid)) after
  | delete {operations : Nat} {contents : K → Option RID} {state after : PooledState σ} {rid : RID}
      (before : PooledReaches degree callbacks key operations contents state) (present : contents (key rid) ≠ none)
      (ran : (bTreeDelete degree rid).run (pooledMeaning callbacks) state = some ((), after)) :
      PooledReaches degree callbacks key (operations + 1) (Function.update contents (key rid) none) after
  | search {operations : Nat} {contents : K → Option RID} {state after : PooledState σ} {pointer : Q} {result : RID}
      (before : PooledReaches degree callbacks key operations contents state)
      (ran : (bTreeSearch degree pointer).run (pooledMeaning callbacks) state = some (result, after)) :
      PooledReaches degree callbacks key (operations + 1) contents after
  | reopen {operations : Nat} {contents : K → Option RID} {state after : PooledState σ} {pages : Slot → IndexPage}
      (before : PooledReaches degree callbacks key operations contents state)
      (ran : (bTreeInit : TreeProg Q Unit).run (pooledMeaning callbacks) (reopened state pages) = some ((), after)) :
      PooledReaches degree callbacks key operations contents after

section Runs

variable {K Q σ : Type} [LinearOrder K] {degree operations : Nat} {callbacks : Callbacks Q σ} {ask : Q → K} {key : RID → K}
  {contents : K → Option RID} {pooled : PooledState σ}

/-- Of the `2 ^ 60` fetches that a pool is granted, each operation takes at most `2 ^ 9`. -/
def allowance (operations : Nat) : Nat := 2 ^ 60 - 2 ^ 9 * operations

/-- The index on a pool, after so many operations. -/
structure PooledHolds (degree : Nat) (key : RID → K) (operations : Nat) (contents : K → Option RID)
    (pooled : PooledState σ) : Prop where
  index : ∃ state, IndexHolds degree key contents state ∧ Cached pooled state (allowance operations)
  rows : ∃ rows : Finset RID, rows.card ≤ operations ∧ ∀ rid, contents (key rid) = some rid → rid ∈ rows

theorem levels_le {count : Nat} (positive : 1 ≤ degree) (few : count ≤ operations) (bound : operations < 2 ^ 50) :
    6 * levels degree count + 2 ≤ 2 ^ 9 := by
  have small : Nat.log (degree + 1) count ≤ 49 := by
    have wide : Nat.log (degree + 1) count ≤ Nat.log 2 (2 ^ 50 - 1) :=
      (Nat.log_anti_left (by decide) (Nat.succ_le_succ positive)).trans (Nat.log_mono_right (by omega))
    have last : Nat.log 2 (2 ^ 50 - 1) = 49 := by
      rw [Nat.log_eq_iff (.inl (by decide))]
      constructor <;> decide
    exact wide.trans last.le
  rw [levels]
  omega

/-- One operation on the page map is one on the pool. -/
theorem PooledHolds.step {α : Type} {limited program : TreeProg Q α} {state after : RunState σ} {value : α} {bound : Nat}
    {contents' : K → Option RID} (cached : Cached pooled state (allowance operations)) (few : operations < 2 ^ 50)
    (shallow : Shallow callbacks limited program bound state) (small : bound ≤ 2 ^ 9)
    (always : program.Always (treeMeaning callbacks) TreeGuard state)
    (ran : program.run (treeMeaning callbacks) state = some (value, after)) (holds : IndexHolds degree key contents' after)
    (rows : ∃ rows : Finset RID, rows.card ≤ operations + 1 ∧ ∀ rid, contents' (key rid) = some rid → rid ∈ rows) :
    (∃ pooled', program.run (pooledMeaning callbacks) pooled = some (value, pooled') ∧
      PooledHolds degree key (operations + 1) contents' pooled') ∧
        program.Always (pooledMeaning callbacks) PointersKept pooled := by
  have enough : program.cost fetches (treeMeaning callbacks) state + allowance (operations + 1) ≤ allowance operations := by
    have cost := shallow.2
    unfold allowance
    omega
  have granted : Cached pooled state (program.cost fetches (treeMeaning callbacks) state + allowance (operations + 1)) :=
    cached.fewer enough
  obtain ⟨⟨pooled', goes, cached'⟩, kept⟩ := granted.run (always.imp fun _ _ _ guard => guard.1) ran
  exact ⟨⟨pooled', goes, ⟨after, holds, cached'⟩, rows⟩, kept⟩

theorem run_bTreeInit_pooled (lawful : callbacks.Lawful ask key) (caller : σ) (pages : Slot → IndexPage) :
    ∃ after, (bTreeInit : TreeProg Q Unit).run (pooledMeaning callbacks)
      (⟨BufferPool.initBufferPool [] pages, fun _ => none⟩, ⟨caller, 0, 0⟩) = some ((), after) ∧
        PooledHolds degree key 0 (fun _ => none) after := by
  obtain ⟨⟨opened, ran, holds⟩, always⟩ := run_bTreeInit lawful caller
  have granted : Cached (⟨BufferPool.initBufferPool [] pages, fun _ => none⟩, ⟨caller, 0, 0⟩) (unopened caller)
      ((bTreeInit : TreeProg Q Unit).cost fetches (treeMeaning callbacks) (unopened caller) + allowance 0) := by
    have cost : (bTreeInit : TreeProg Q Unit).cost fetches (treeMeaning callbacks) (unopened caller) ≤ 1 :=
      within_bTreeInit.cost_le _
    refine ⟨sim_empty pages, rfl, headroom_init _ pages ?_⟩
    unfold allowance
    omega
  obtain ⟨⟨pooled, goes, cached⟩, -⟩ := granted.run (always.imp fun _ _ _ guard => guard.1) ran
  exact ⟨pooled, goes, ⟨opened, holds, cached⟩, ∅, Nat.zero_le _, nofun⟩

theorem PooledHolds.search (holds : PooledHolds degree key operations contents pooled) (positive : 1 ≤ degree)
    (lawful : callbacks.Lawful ask key) (few : operations < 2 ^ 50) (pointer : Q) :
    (∃ pooled', (bTreeSearch degree pointer).run (pooledMeaning callbacks) pooled =
      some ((contents (ask pointer)).getD failedRid, pooled') ∧ PooledHolds degree key (operations + 1) contents pooled') ∧
        (bTreeSearch degree pointer).Always (pooledMeaning callbacks) PointersKept pooled := by
  obtain ⟨⟨state, index, cached⟩, rows, count, stored⟩ := holds
  obtain ⟨⟨after, ran, index'⟩, always⟩ := @run_bTreeSearch _ _ _ _ _ _ _ _ _ _ pointer lawful index
  obtain ⟨shallow, -, -⟩ := index.shallow positive lawful stored
  have small := levels_le positive count few
  exact PooledHolds.step cached few (shallow pointer) (by omega) always ran index'
    ⟨rows, count.trans (Nat.le_succ _), stored⟩

theorem PooledHolds.insert {rid : RID} (holds : PooledHolds degree key operations contents pooled) (positive : 1 ≤ degree)
    (lawful : callbacks.Lawful ask key) (few : operations < 2 ^ 50) (absent : contents (key rid) = none) :
    (∃ pooled', (bTreeInsert degree rid : TreeProg Q RID).run (pooledMeaning callbacks) pooled = some (rid, pooled') ∧
      PooledHolds degree key (operations + 1) (Function.update contents (key rid) (some rid)) pooled') ∧
        (bTreeInsert degree rid : TreeProg Q RID).Always (pooledMeaning callbacks) PointersKept pooled := by
  classical
  obtain ⟨⟨state, index, cached⟩, rows, count, stored⟩ := holds
  obtain ⟨⟨after, ran, index'⟩, always⟩ := run_bTreeInsert positive lawful index absent
  obtain ⟨-, shallow, -⟩ := index.shallow positive lawful stored
  have small := levels_le positive count few
  refine PooledHolds.step cached few (shallow rid absent) small always ran index'
    ⟨Insert.insert rid rows, (Finset.card_insert_le ..).trans (Nat.succ_le_succ count), fun other found => ?_⟩
  by_cases same : key other = key rid
  · rw [same, Function.update_self, Option.some.injEq] at found
    exact found ▸ Finset.mem_insert_self rid rows
  · rw [Function.update_of_ne same] at found
    exact Finset.mem_insert_of_mem (stored other found)

theorem PooledHolds.delete {rid : RID} (holds : PooledHolds degree key operations contents pooled) (positive : 1 ≤ degree)
    (lawful : callbacks.Lawful ask key) (few : operations < 2 ^ 50) (present : contents (key rid) ≠ none) :
    (∃ pooled', (bTreeDelete degree rid : TreeProg Q Unit).run (pooledMeaning callbacks) pooled = some ((), pooled') ∧
      PooledHolds degree key (operations + 1) (Function.update contents (key rid) none) pooled') ∧
        (bTreeDelete degree rid : TreeProg Q Unit).Always (pooledMeaning callbacks) PointersKept pooled := by
  obtain ⟨⟨state, index, cached⟩, rows, count, stored⟩ := holds
  obtain ⟨⟨after, ran, index'⟩, always⟩ := run_bTreeDelete positive lawful index present
  obtain ⟨-, -, shallow⟩ := index.shallow positive lawful stored
  have small := levels_le positive count few
  refine PooledHolds.step cached few (shallow rid present) small always ran index'
    ⟨rows, count.trans (Nat.le_succ _), fun other found => ?_⟩
  by_cases same : key other = key rid
  · rw [same, Function.update_self] at found
    cases found
  · rw [Function.update_of_ne same] at found
    exact stored other found

theorem PooledHolds.reopen (holds : PooledHolds degree key operations contents pooled) (lawful : callbacks.Lawful ask key)
    (pages : Slot → IndexPage) : ∃ pooled', (bTreeInit : TreeProg Q Unit).run (pooledMeaning callbacks)
      (reopened pooled pages) = some ((), pooled') ∧ PooledHolds degree key operations contents pooled' := by
  obtain ⟨⟨state, index, cached⟩, rows⟩ := holds
  obtain ⟨ran, always⟩ := index.run_bTreeInit_opened lawful
  have granted : Cached (reopened pooled pages) state
      ((bTreeInit : TreeProg Q Unit).cost fetches (treeMeaning callbacks) state + allowance operations) := by
    have cost : (bTreeInit : TreeProg Q Unit).cost fetches (treeMeaning callbacks) state ≤ 1 := within_bTreeInit.cost_le _
    refine cached.reopened index.pins pages ?_
    unfold allowance
    omega
  obtain ⟨⟨pooled', goes, cached'⟩, -⟩ := granted.run (always.imp fun _ _ _ guard => guard.1) ran
  exact ⟨pooled', goes, ⟨state, index, cached'⟩, rows⟩

theorem PooledReaches.holds (positive : 1 ≤ degree) (lawful : callbacks.Lawful ask key) (few : operations < 2 ^ 50)
    (reached : PooledReaches degree callbacks key operations contents pooled) :
    PooledHolds degree key operations contents pooled := by
  induction reached with
  | @init caller pages after ran =>
      obtain ⟨pooled', same, holds⟩ := run_bTreeInit_pooled lawful caller pages
      rw [ran] at same
      cases same
      exact holds
  | insert before absent ran ih =>
      have fewer := Nat.lt_of_succ_lt few
      obtain ⟨⟨pooled', same, holds⟩, -⟩ := (ih fewer).insert positive lawful fewer absent
      rw [ran] at same
      cases same
      exact holds
  | delete before present ran ih =>
      have fewer := Nat.lt_of_succ_lt few
      obtain ⟨⟨pooled', same, holds⟩, -⟩ := (ih fewer).delete positive lawful fewer present
      rw [ran] at same
      cases same
      exact holds
  | @search _ _ _ _ pointer _ before ran ih =>
      have fewer := Nat.lt_of_succ_lt few
      obtain ⟨⟨pooled', same, holds⟩, -⟩ := (ih fewer).search positive lawful fewer pointer
      rw [ran] at same
      cases same
      exact holds
  | @reopen _ _ _ _ pages before ran ih =>
      obtain ⟨pooled', same, holds⟩ := (ih few).reopen lawful pages
      rw [ran] at same
      cases same
      exact holds

/-- A session on the pool leads from a state reached to a state reached. -/
theorem PooledReaches.session {results : List RID} {after : PooledState σ}
    (reached : PooledReaches degree callbacks key operations contents pooled) (commands : List (Command Q))
    (allowed : Allowed key contents commands)
    (ran : (session degree commands).run (pooledMeaning callbacks) pooled = some (results, after)) :
    PooledReaches degree callbacks key (operations + commands.length) (outcome key contents commands) after := by
  induction commands generalizing operations contents pooled results with
  | nil =>
      cases ran
      exact reached
  | cons command commands ih =>
      rw [List.length_cons, Nat.add_comm commands.length, ← Nat.add_assoc]
      cases command with
      | insert rid =>
          rw [Index.session, run_bind] at ran
          obtain ⟨⟨result, middle⟩, inserted, rest⟩ := Option.bind_eq_some_iff.mp ran
          exact ih (reached.insert allowed.1 inserted) allowed.2 rest
      | delete rid =>
          rw [Index.session, run_bind] at ran
          obtain ⟨⟨⟨⟩, middle⟩, deleted, rest⟩ := Option.bind_eq_some_iff.mp ran
          exact ih (reached.delete allowed.1 deleted) allowed.2 rest
      | search pointer =>
          rw [Index.session, run_bind] at ran
          obtain ⟨⟨result, middle⟩, searched, more⟩ := Option.bind_eq_some_iff.mp ran
          rw [run_bind] at more
          obtain ⟨⟨others, final⟩, rest, last⟩ := Option.bind_eq_some_iff.mp more
          cases last
          exact ih (reached.search searched) allowed rest

/-- A call on the pool is answered, and uses only pointers into slots that are pinned and hold the page. -/
def Served {α : Type} (callbacks : Callbacks Q σ) (program : TreeProg Q α) (answer : α) (pooled : PooledState σ) : Prop :=
  (∃ after, program.run (pooledMeaning callbacks) pooled = some (answer, after)) ∧
    program.Always (pooledMeaning callbacks) PointersKept pooled

/--
The index on its pool of eight slots is a finite map, also after it has been closed and opened
again: in every state reached with fewer than `2 ^ 50` operations no slot is referenced, and
every operation is served as the contents say.
-/
theorem index_on_pool (positive : 1 ≤ degree) (lawful : callbacks.Lawful ask key) (few : operations < 2 ^ 50)
    (reached : PooledReaches degree callbacks key operations contents pooled) :
    (∀ slot, pooled.1.pool.ref slot = 0) ∧
      (∀ pointer, Served callbacks (bTreeSearch degree pointer) ((contents (ask pointer)).getD failedRid) pooled) ∧
      (∀ rid, contents (key rid) = none → Served callbacks (bTreeInsert degree rid) rid pooled) ∧
      (∀ rid, contents (key rid) ≠ none → Served callbacks (bTreeDelete degree rid) () pooled) ∧
      ∀ pages, ∃ after, (bTreeInit : TreeProg Q Unit).run (pooledMeaning callbacks) (reopened pooled pages) =
        some ((), after) := by
  have holds := reached.holds positive lawful few
  refine ⟨fun slot => ?_, fun pointer => ?_, fun rid absent => ?_, fun rid present => ?_, fun pages => ?_⟩
  · obtain ⟨⟨⟨⟨map, pins⟩, ledger⟩, index, cached⟩, -⟩ := holds
    obtain rfl : pins = 0 := index.pins
    exact cached.sim.settled.idle slot
  · obtain ⟨⟨after, ran, -⟩, kept⟩ := holds.search positive lawful few pointer
    exact ⟨⟨after, ran⟩, kept⟩
  · obtain ⟨⟨after, ran, -⟩, kept⟩ := holds.insert positive lawful few absent
    exact ⟨⟨after, ran⟩, kept⟩
  · obtain ⟨⟨after, ran, -⟩, kept⟩ := holds.delete positive lawful few present
    exact ⟨⟨after, ran⟩, kept⟩
  · obtain ⟨after, ran, -⟩ := holds.reopen lawful pages
    exact ⟨after, ran⟩

/-- The session that makes `grown`, on a pool: eleven pages in eight slots. -/
theorem grown_pooled : ∃ pooled, PooledReaches 2 testCallbacks RID.blockAddr 17 grownContents pooled ∧
    pooled.1.pool.file.length = 11 * pageSize := by
  have allowed : Allowed RID.blockAddr (fun _ => none) grownCommands := by decide +kernel
  have granted : Cached (⟨BufferPool.initBufferPool [] fun _ => emptyPage, fun _ => none⟩, ⟨(), 0, 0⟩) (unopened ())
      ((newSession grownCommands).cost fetches (treeMeaning testCallbacks) (unopened ()) + 0) := by
    have cost : (newSession grownCommands).cost fetches (treeMeaning testCallbacks) (unopened ()) ≤ 2 ^ 9 := by decide +kernel
    exact ⟨sim_empty _, rfl, headroom_init _ _ (by omega)⟩
  obtain ⟨⟨pooled, goes, cached⟩, -⟩ := granted.run (always_newSession allowed) (run_newSession allowed)
  rw [run_bind] at goes
  obtain ⟨⟨⟨⟩, opened⟩, first, rest⟩ := Option.bind_eq_some_iff.mp goes
  refine ⟨pooled, PooledReaches.session (.init first) _ allowed rest, ?_⟩
  rw [cached.sim.tracks.length]
  have length : (stateAfter grownCommands).1.map.length = 11 * pageSize := by decide +kernel
  exact length

/--
An index of more pages than the pool has slots: a page has been evicted, and the calls are served,
before the index is closed and opened again and after that.
-/
theorem index_on_pool_grown : ∃ pooled again, PooledReaches 2 testCallbacks RID.blockAddr 17 grownContents pooled ∧
    pooled.1.pool.file.length = 11 * pageSize ∧
      (∃ place : Fin 11, ∀ slot, pooled.1.pool.addrs slot ≠ place * pageSize) ∧
      Served testCallbacks (bTreeSearch 2 13) ⟨13, 0⟩ pooled ∧ Served testCallbacks (bTreeInsert 2 ⟨17, 0⟩) ⟨17, 0⟩ pooled ∧
      Served testCallbacks (bTreeDelete 2 ⟨6, 0⟩) () pooled ∧
      (bTreeInit : TreeProg Int Unit).run (pooledMeaning testCallbacks) (reopened pooled fun _ => emptyPage) =
        some ((), again) ∧ Served testCallbacks (bTreeSearch 2 13) ⟨13, 0⟩ again := by
  obtain ⟨pooled, reached, length⟩ := grown_pooled
  have found : (grownContents 13).getD failedRid = ⟨13, 0⟩ := by decide +kernel
  obtain ⟨-, search, insert, delete, reopens⟩ := index_on_pool (by decide) testCallbacks_lawful (by decide) reached
  obtain ⟨again, ran⟩ := reopens fun _ => emptyPage
  obtain ⟨-, search', -⟩ := index_on_pool (by decide) testCallbacks_lawful (by decide) (reached.reopen ran)
  exact ⟨pooled, again, reached, length, pooled.1.pool.exists_evicted (by decide), found ▸ search 13, insert ⟨17, 0⟩ grownContents_absent,
    delete ⟨6, 0⟩ grownContents_present, ran, found ▸ search' 13⟩

end Runs

end MyJQL.Index
