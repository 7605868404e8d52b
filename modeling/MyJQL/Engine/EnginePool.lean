import MyJQL.Engine.EngineRuns
import MyJQL.Engine.Evaluation
import MyJQL.Storage.BufferPoolRuns
import MyJQL.Storage.PoolPrograms

/-!
# The engine on its buffer pools

Every call of the engine comes down to operations on the pages of `bp_idx` and of the two tables.
They are run here on the pools of eight slots of the index and of the data files, with evictions,
and across closing and opening; the free-space maps stay page maps. The only thing that can go
wrong is a hit counter, which wraps after `2 ^ 64` requests.
-/

namespace MyJQL.Engine

open Library Library.Prog Storage Storage.Table Strings
open Storage.HashMap (FsmPage)

/-! ## Pages -/

/-- Operations on the pages of `bp_idx` (left) and of the two tables (right). -/
abbrev EnginePageOp : Type → Type := SumOp (PageOp Index.IndexPage) (SumOp TablePageOp TablePageOp)

/-- The pool of the data file of a table, and its free-space map. -/
abbrev TablePool : Type := Held Block × PageMap FsmPage

/-- The pools of the engine. -/
abbrev EnginePools : Type := Held Index.IndexPage × (TablePool × TablePool)

/-- The page maps of the engine, with the pages that are pinned. -/
abbrev EnginePins : Type := Pinned Index.IndexPage × ((Pinned Block × PageMap FsmPage) × (Pinned Block × PageMap FsmPage))

section Pages

variable {α : Type}

/-- A call on a table is what `table.c` does for it. -/
def unfolded : ∀ β : Type, EngineOp β → Prog EnginePageOp β
  | _, .left effect => perform (.left effect)
  | _, .right (.left call) => onRight (onLeft (Table.call _ call))
  | _, .right (.right call) => onRight (onRight (Table.call _ call))

/-- A program of the engine, page operation by page operation. -/
def paged (program : EngineProg α) : Prog EnginePageOp α := program.interp unfolded

def tablePins : Meaning TablePageOp (Pinned Block × PageMap FsmPage) := (pinnedMeaning Block).sum (mapMeaning FsmPage)

def tablePool : Meaning TablePageOp TablePool := (poolMeaning Block).sum (mapMeaning FsmPage)

def enginePins : Meaning EnginePageOp EnginePins := (pinnedMeaning Index.IndexPage).sum (tablePins.sum tablePins)

def enginePools : Meaning EnginePageOp EnginePools := (poolMeaning Index.IndexPage).sum (tablePool.sum tablePool)

def Unguarded : ∀ β : Type, PageOp FsmPage β → PageMap FsmPage → Prop := fun _ _ _ => True

/-- The pin discipline of the three pools. -/
def PinsKept : ∀ β : Type, EnginePageOp β → EnginePins → Prop :=
  SumOp.Guard (PinGuard Index.IndexPage)
    (SumOp.Guard (SumOp.Guard (PinGuard Block) Unguarded) (SumOp.Guard (PinGuard Block) Unguarded))

/-- A pointer into a pool is used while its slot is pinned and holds the page. -/
def PointersKept : ∀ β : Type, EnginePageOp β → EnginePools → Prop :=
  SumOp.Guard (PointerGuard Index.IndexPage)
    (SumOp.Guard (SumOp.Guard (PointerGuard Block) Unguarded) (SumOp.Guard (PointerGuard Block) Unguarded))

/-- Requests to the pool of a table. -/
def tableRequests : ∀ β : Type, TablePageOp β → Nat := SumOp.weight (fun _ effect => effect.requests) fun _ _ => 0

/-- Calls of `get_page` on one of the three pools. -/
def requested : ∀ β : Type, EnginePageOp β → Nat :=
  SumOp.weight (fun _ effect => effect.requests) (SumOp.weight tableRequests tableRequests)

end Pages

/-! ## From the page maps to the pools -/

section Pools

variable {α : Type} {pools : EnginePools} {pins : EnginePins}

def TableCached (calls : Nat) (pool : TablePool) (pins : Pinned Block × PageMap FsmPage) : Prop :=
  (Sim pool.1 pins.1 ∧ Headroom pool.1.pool calls) ∧ pool.2 = pins.2

/-- The pools cache the pages, and can still be asked so many times. -/
def Cached (calls : Nat) (pools : EnginePools) (pins : EnginePins) : Prop :=
  (Sim pools.1 pins.1 ∧ Headroom pools.1.pool calls) ∧ TableCached calls pools.2.1 pins.2.1 ∧ TableCached calls pools.2.2 pins.2.2

theorem TableCached.fewer {few many : Nat} {pool : TablePool} {pins : Pinned Block × PageMap FsmPage} (le : few ≤ many)
    (cached : TableCached many pool pins) : TableCached few pool pins :=
  ⟨⟨cached.1.1, cached.1.2.mono le⟩, cached.2⟩

theorem Cached.fewer {few many : Nat} (le : few ≤ many) (cached : Cached many pools pins) : Cached few pools pins :=
  ⟨⟨cached.1.1, cached.1.2.mono le⟩, cached.2.1.fewer le, cached.2.2.fewer le⟩

theorem affords_table : Affords tableRequests tablePins (SumOp.Guard (PinGuard Block) Unguarded) tablePool
    (SumOp.Guard (PointerGuard Block) Unguarded) TableCached :=
  affords_pool.sum (affords_same _ _) (fun le cached => ⟨cached.1, cached.2.mono le⟩) fun _ same => same

theorem affords_engine : Affords requested enginePins PinsKept enginePools PointersKept Cached :=
  affords_pool.sum (affords_table.sum affords_table (fun le => .fewer le) (fun le => .fewer le))
    (fun le cached => ⟨cached.1, cached.2.mono le⟩) fun le cached => ⟨cached.1.fewer le, cached.2.fewer le⟩

end Pools

/-! ## From the state of the engine to the page maps -/

section Pins

/-- The page maps, with no page pinned. -/
def idlePins (maps : EngineMaps) : EnginePins := (⟨maps.1, 0⟩, (idle maps.2.1, idle maps.2.2))

/-- The pages hold the heaps of the tables. -/
def HoldsPins (state : Pinned Index.IndexPage × Heaps) (pins : EnginePins) : Prop :=
  state.1 = pins.1 ∧ HoldsIdle state.2.1 pins.2.1 ∧ HoldsIdle state.2.2 pins.2.2

def enginePinsLogic : Logic EnginePageOp EnginePins :=
  (pinnedLogic Index.IndexPage True).sum (pinnedTableLogic.sum pinnedTableLogic)

/-- What the specifications ask of a page operation is what the pools need. -/
theorem pins_simulate : Logic.Simulates enginePinsLogic (Logic.ofMeaning enginePins PinsKept) Eq := by
  rintro β effect post pins _ rfl holds
  cases effect with
  | left effect =>
      obtain ⟨guard, result, after, step, ended⟩ := holds
      refine ⟨guard trivial, result, (after, pins.2), ?_, _, rfl, ended⟩
      simp only [enginePins, Meaning.sum, step, Option.map_some]
  | right effect =>
      cases effect with
      | left effect =>
          cases effect with
          | left effect =>
              obtain ⟨guard, result, after, step, ended⟩ := holds
              refine ⟨guard trivial, result, (pins.1, (after, pins.2.1.2), pins.2.2), ?_, _, rfl, ended⟩
              simp only [enginePins, tablePins, Meaning.sum, step, Option.map_some]
          | right effect =>
              obtain ⟨-, result, after, step, ended⟩ := holds
              refine ⟨trivial, result, (pins.1, (pins.2.1.1, after), pins.2.2), ?_, _, rfl, ended⟩
              simp only [enginePins, tablePins, Meaning.sum, step, Option.map_some]
      | right effect =>
          cases effect with
          | left effect =>
              obtain ⟨guard, result, after, step, ended⟩ := holds
              refine ⟨guard trivial, result, (pins.1, pins.2.1, (after, pins.2.2.2)), ?_, _, rfl, ended⟩
              simp only [enginePins, tablePins, Meaning.sum, step, Option.map_some]
          | right effect =>
              obtain ⟨-, result, after, step, ended⟩ := holds
              refine ⟨trivial, result, (pins.1, pins.2.1, (pins.2.2.1, after)), ?_, _, rfl, ended⟩
              simp only [enginePins, tablePins, Meaning.sum, step, Option.map_some]

/-- The calls on the tables, page operation by page operation. -/
theorem engine_simulates_pins : Logic.Simulates pinnedEngineLogic (enginePinsLogic.pull unfolded) HoldsPins := by
  rintro β effect post ⟨index, heaps⟩ ⟨_, recs, strs⟩ ⟨rfl, recHolds, strHolds⟩ holds
  cases effect with
  | left effect =>
      refine (pinnedLogic Index.IndexPage True).mono (fun result after ended => ?_) holds
      exact ⟨(after, heaps), ⟨rfl, recHolds, strHolds⟩, ended⟩
  | right effect =>
      cases effect with
      | left call =>
          have table := heap_simulates_idle call _ heaps.1 recs recHolds holds
          refine (wp_onRight ..).mpr ((wp_onLeft ..).mpr (wp_mono ?_ table))
          rintro result after ⟨heap, holds', ended⟩
          exact ⟨(index, heap, heaps.2), ⟨rfl, holds', strHolds⟩, ended⟩
      | right call =>
          have table := heap_simulates_idle call _ heaps.2 strs strHolds holds
          refine (wp_onRight ..).mpr ((wp_onRight ..).mpr (wp_mono ?_ table))
          rintro result after ⟨heap, holds', ended⟩
          exact ⟨(index, heaps.1, heap), ⟨rfl, recHolds, holds'⟩, ended⟩

end Pins

/-! ## Calls -/

/-- `myjql_init`, once the pools are open. -/
def initPages : Prog EnginePageOp Unit := do
  paged (onIdx Index.bTreeInit)
  onRight (onLeft Table.tableInit)
  onRight (onRight Table.tableInit)

/-- The operations on pages that a command makes, with its replies. -/
def Command.pages : Command → Prog EnginePageOp (List (Nat × List UInt8))
  | .set key value => do
      paged (myjqlSet key value)
      return []
  | .del key => do
      paged (myjqlDel key)
      return []
  | .get key maxSize => do
      let result ← paged (myjqlGet key maxSize)
      return [result]
  | .reopen => do
      initPages
      return []

/-- The operations of commands one after another. -/
def sessionPages : List Command → Prog EnginePageOp Unit
  | [] => return
  | command :: commands => do
      let _ ← command.pages
      sessionPages commands

/-- `myjql_init`, and commands one after another. -/
def newSession (commands : List Command) : Prog EnginePageOp Unit := do
  initPages
  sessionPages commands

section Calls

variable {contents : List UInt8 → Option (List UInt8)} {maps : EngineMaps}

/-- The page maps with no page pinned, after a call. -/
def Idles (holds : EngineMaps → Prop) (pins : EnginePins) : Prop := ∃ maps, holds maps ∧ pins = idlePins maps

theorem Serves.paged {α : Type} {program : EngineProg α} {post : α → EngineState → Prop} {state : EngineState}
    (related : HoldsState state maps) (serves : Serves program post state) :
    (paged program).wp enginePinsLogic (fun value => Idles fun maps => ∃ state, HoldsState state maps ∧ post value state)
      (idlePins maps) := by
  obtain ⟨map, heaps⟩ := state
  obtain ⟨_, maps⟩ := maps
  obtain ⟨rfl, recHolds, strHolds⟩ := related
  have start : HoldsPins (⟨map, 0⟩, heaps) (idlePins (map, maps)) := ⟨rfl, ⟨rfl, recHolds⟩, rfl, strHolds⟩
  refine (wp_interp ..).mpr (wp_mono ?_ (wp_simulates engine_simulates_pins start serves))
  rintro value ⟨⟨index, pins⟩, ⟨⟨recs, recPins⟩, recFsm⟩, ⟨strs, strPins⟩, strFsm⟩
    ⟨state', ⟨same, ⟨recFree, rec'⟩, strFree, str'⟩, free, ended⟩
  obtain rfl : recPins = 0 := recFree
  obtain rfl : strPins = 0 := strFree
  obtain rfl : pins = 0 := (congrArg Pinned.pins same).symm.trans free
  exact ⟨(index, (recs, recFsm), (strs, strFsm)), ⟨_, ⟨congrArg Pinned.map same, rec', str'⟩, ended⟩, rfl⟩

/-- `b_tree_init` on an empty file. -/
theorem wp_openIndex (tables : TablesMaps) : (paged (onIdx Index.bTreeInit)).wp enginePinsLogic
    (fun _ pins => pins = idlePins (openedIndex, tables)) (idlePins (PageMap.empty, tables)) := by
  have fetched : (0 : Int) ∈ (0 : Int) ::ₘ 0 := Multiset.mem_cons_self _ _
  have closed : ¬ (PageMap.empty : PageMap Index.IndexPage).length ≠ 0 := not_not.mpr rfl
  refine (wp_interp ..).mpr ((wp_interp ..).mpr ?_)
  unfold Index.bTreeInit Index.loadCtrl Index.storeCtrl
  rw [wp_bind]
  refine rule_fileLength ?_
  simp only [wp_ret]
  rw [if_neg closed, wp_bind]
  refine rule_getPage_append rfl le_rfl le_rfl (fun _ => by decide) (fun _ => le_rfl) ?_
  simp only [wp_ret, wp_bind]
  refine rule_load (fun _ => fetched) ?_
  simp only [wp_ret, PageMap.append_page_self]
  refine rule_store (fun _ => fetched) (rule_release (fun _ => fetched) ?_)
  rw [released_only]
  rfl

/-- `table_init` of both tables. -/
theorem wp_tableInits {index : PageMap Index.IndexPage} {recs strs : TableMaps} {first second : TableMaps → Prop}
    (recInit : tableInit.wp pinnedTableLogic (Settles fun _ => first) (idle recs))
    (strInit : tableInit.wp pinnedTableLogic (Settles fun _ => second) (idle strs)) :
    (do
      onRight (onLeft Table.tableInit)
      onRight (onRight Table.tableInit) : Prog EnginePageOp Unit).wp enginePinsLogic
      (fun _ => Idles fun maps => maps.1 = index ∧ first maps.2.1 ∧ second maps.2.2) (idlePins (index, recs, strs)) := by
  unfold enginePinsLogic
  rw [wp_bind, wp_onRight, wp_onLeft]
  refine wp_mono ?_ recInit
  rintro _ ⟨⟨recs, recPins⟩, recFsm⟩ ⟨recFree, recHolds⟩
  obtain rfl : recPins = 0 := recFree
  rw [wp_onRight, wp_onRight]
  refine wp_mono ?_ strInit
  rintro _ ⟨⟨strs, strPins⟩, strFsm⟩ ⟨strFree, strHolds⟩
  obtain rfl : strPins = 0 := strFree
  exact ⟨(index, (recs, recFsm), (strs, strFsm)), ⟨rfl, recHolds, strHolds⟩, rfl⟩

theorem wp_initPages_new : initPages.wp enginePinsLogic (fun _ => Idles (FilesHold fun _ => none)) (idlePins noFiles) := by
  have table : tableInit.wp pinnedTableLogic (Settles fun _ => HoldsHeap fun _ => none) (idle noPages) :=
    idle_tableInit fun after holds => ⟨_, holds, heapOf_nil⟩
  unfold initPages
  rw [wp_bind]
  refine wp_mono ?_ (wp_openIndex (noPages, noPages))
  rintro _ _ rfl
  refine wp_mono ?_ (wp_tableInits table table)
  rintro _ _ ⟨maps, ⟨same, recHolds, strHolds⟩, rfl⟩
  refine ⟨maps, ⟨(openedIndex, fun _ => none, fun _ => none), ⟨same.symm, recHolds, strHolds⟩, 0, indexed_openedIndex, ?_⟩, rfl⟩
  intro key value
  exact iff_of_false nofun fun found => absurd found.choose_spec.1 (Multiset.notMem_zero _)

theorem FilesHold.wp_initPages (holds : FilesHold contents maps) :
    initPages.wp enginePinsLogic (fun _ => Idles (FilesHold contents)) (idlePins maps) := by
  obtain ⟨⟨map, heaps⟩, related, stored, ⟨word, world, seps, stands, items, tends⟩, contains⟩ := holds
  have opens : Serves (onIdx Index.bTreeInit) (fun _ state => Keeps stored state) (map, heaps) := by
    refine serves_onIdx tends rfl (stands.wp_bTreeInit ⟨rfl, fun seps' heaps' tends' => ?_⟩)
    exact ⟨word, world, seps', stands, items, tends'⟩
  have again : ∀ {heap : Heap} {table : TableMaps}, HoldsHeap heap table →
      tableInit.wp pinnedTableLogic (Settles fun _ => HoldsHeap heap) (idle table) :=
    fun ⟨items, holds, same⟩ => holds.idle_tableInit ⟨items, holds, same⟩
  unfold initPages
  rw [wp_bind]
  refine wp_mono ?_ (opens.paged related)
  rintro _ _ ⟨⟨index, tables⟩, ⟨state, ⟨same, recHolds, strHolds⟩, keeps⟩, rfl⟩
  refine wp_mono ?_ (wp_tableInits (again recHolds) (again strHolds))
  rintro _ _ ⟨maps, ⟨rfl, recHolds', strHolds'⟩, rfl⟩
  exact ⟨maps, ⟨state, ⟨same, recHolds', strHolds'⟩, stored, keeps, contains⟩, rfl⟩

/-- Every command runs on the pages as the map from keys to values says. -/
theorem FilesHold.wp_pages {command : Command} (holds : FilesHold contents maps) (fits : command.Fits) :
    command.pages.wp enginePinsLogic (fun replies pins => replies = command.replies contents ∧
      Idles (FilesHold (command.after contents)) pins) (idlePins maps) := by
  cases command with
  | reopen =>
      refine (wp_bind ..).mpr (wp_mono ?_ holds.wp_initPages)
      exact fun _ pins holds' => ⟨rfl, holds'⟩
  | set key value =>
      obtain ⟨state, related, holds⟩ := holds
      have spec : Serves (myjqlSet key value) (fun _ => EngineHolds (Function.update contents key (some value))) state :=
        serves_myjqlSet holds fits.1 fits.2 fun _ holds' => holds'
      refine (wp_bind ..).mpr (wp_mono ?_ (spec.paged related))
      rintro _ pins ⟨maps, ⟨state, related', holds'⟩, rfl⟩
      exact ⟨rfl, maps, ⟨state, related', holds'⟩, rfl⟩
  | del key =>
      obtain ⟨state, related, holds⟩ := holds
      have spec : Serves (myjqlDel key) (fun _ => EngineHolds (Function.update contents key none)) state :=
        serves_myjqlDel holds fun _ holds' => holds'
      refine (wp_bind ..).mpr (wp_mono ?_ (spec.paged related))
      rintro _ pins ⟨maps, ⟨state, related', holds'⟩, rfl⟩
      exact ⟨rfl, maps, ⟨state, related', holds'⟩, rfl⟩
  | get key maxSize =>
      obtain ⟨state, related, holds⟩ := holds
      have spec : Serves (myjqlGet key maxSize) (fun result state' =>
          result = reply (contents key) maxSize ∧ EngineHolds contents state') state :=
        serves_myjqlGet holds fun state' holds' => ⟨rfl, holds'⟩
      refine (wp_bind ..).mpr (wp_mono ?_ (spec.paged related))
      rintro _ pins ⟨maps, ⟨state, related', rfl, holds'⟩, rfl⟩
      exact ⟨rfl, maps, ⟨state, related', holds'⟩, rfl⟩

end Calls

/-! ## Runs on the pools -/

/-- What the slots of the three pools contain before they are used. -/
abbrev Slots : Type := (Slot → Index.IndexPage) × (Slot → Block) × (Slot → Block)

/-- `init_buffer_pool` on a file. -/
def openPool {P : Type} (disk : List P) (pages : Slot → P) : Held P := ⟨BufferPool.initBufferPool disk pages, fun _ => none⟩

/-- `close_buffer_pool`, and `init_buffer_pool` on the file it leaves. -/
def reopenPool {P : Type} [PageType P] (held : Held P) (pages : Slot → P) : Held P :=
  openPool held.pool.closeBufferPool.file.disk pages

/-- The pools of empty files. -/
def newPools (slots : Slots) : EnginePools :=
  (openPool [] slots.1, (openPool [] slots.2.1, PageMap.empty), (openPool [] slots.2.2, PageMap.empty))

/-- The pools before a command: `myjql_close` comes before a `myjql_init`. -/
def Command.opens (slots : Slots) : Command → EnginePools → EnginePools
  | .reopen, pools => (reopenPool pools.1 slots.1, (reopenPool pools.2.1.1 slots.2.1, pools.2.1.2),
      (reopenPool pools.2.2.1 slots.2.2, pools.2.2.2))
  | _, pools => pools

/--
The states that commands reach on the pools, from `myjql_init` on empty files, with the map that
the commands describe and the number of requests for pages that have been made.
-/
inductive PoolsReach : Nat → (List UInt8 → Option (List UInt8)) → EnginePools → Prop where
  | init {slots : Slots} {after : EnginePools} (ran : initPages.run enginePools (newPools slots) = some ((), after)) :
      PoolsReach (initPages.cost requested enginePools (newPools slots)) (fun _ => none) after
  | call {requests : Nat} {contents : List UInt8 → Option (List UInt8)} {pools after : EnginePools} {command : Command}
      {slots : Slots} {replies : List (Nat × List UInt8)} (before : PoolsReach requests contents pools) (fits : command.Fits)
      (ran : command.pages.run enginePools (command.opens slots pools) = some (replies, after)) :
      PoolsReach (requests + command.pages.cost requested enginePools (command.opens slots pools)) (command.after contents) after

section Runs

variable {requests : Nat} {contents : List UInt8 → Option (List UInt8)} {pools : EnginePools} {maps : EngineMaps}

/-- The pools cache what the files hold, after so many requests. -/
def PoolsHold (requests : Nat) (contents : List UInt8 → Option (List UInt8)) (pools : EnginePools) : Prop :=
  ∃ maps, FilesHold contents maps ∧ Cached (2 ^ 64 - 3 - requests) pools (idlePins maps)

/-- A program that is specified on the page maps runs on the pools, as long as no counter wraps. -/
theorem Cached.run {α : Type} {program : Prog EnginePageOp α} {post : α → EnginePins → Prop} {pins : EnginePins}
    (cached : Cached (2 ^ 64 - 3 - requests) pools pins)
    (few : requests + program.cost requested enginePools pools < 2 ^ 64 - 2) (holds : program.wp enginePinsLogic post pins) :
    (∃ value after pins', program.run enginePools pools = some (value, after) ∧
      Cached (2 ^ 64 - 3 - (requests + program.cost requested enginePools pools)) after pins' ∧ post value pins') ∧
      program.Always enginePools PointersKept pools := by
  obtain ⟨⟨value, _, ran, pins', rfl, ended⟩, always⟩ := run_of_wp (wp_simulates pins_simulate rfl holds)
  have split : 2 ^ 64 - 3 - requests = program.cost requested enginePools pools +
      (2 ^ 64 - 3 - (requests + program.cost requested enginePools pools)) := by
    omega
  rw [split] at cached
  obtain ⟨⟨after, goes, cached'⟩, kept⟩ :=
    affords_engine.run (fun le => .fewer le) cached (.inr le_rfl) always ran
  exact ⟨⟨value, after, pins', goes, cached', ended⟩, kept⟩

theorem Cached.opens (cached : Cached (2 ^ 64 - 3 - requests) pools (idlePins maps)) (slots : Slots) (command : Command) :
    Cached (2 ^ 64 - 3 - requests) (command.opens slots pools) (idlePins maps) := by
  cases command with
  | reopen =>
      have room : 2 ^ 64 - 3 - requests < 2 ^ 64 - 2 := by omega
      obtain ⟨⟨index, -⟩, ⟨⟨recs, -⟩, recFsm⟩, ⟨strs, -⟩, strFsm⟩ := cached
      exact ⟨⟨index.reopened _, headroom_init _ _ room⟩, ⟨⟨recs.reopened _, headroom_init _ _ room⟩, recFsm⟩,
        ⟨strs.reopened _, headroom_init _ _ room⟩, strFsm⟩
  | set key value => exact cached
  | del key => exact cached
  | get key maxSize => exact cached

theorem cached_new (slots : Slots) : Cached (2 ^ 64 - 3 - 0) (newPools slots) (idlePins noFiles) := by
  have room : 2 ^ 64 - 3 - 0 < 2 ^ 64 - 2 := by omega
  exact ⟨⟨sim_empty _, headroom_init _ _ room⟩, ⟨⟨sim_empty _, headroom_init _ _ room⟩, rfl⟩,
    ⟨sim_empty _, headroom_init _ _ room⟩, rfl⟩

theorem run_initPages {slots : Slots} (few : initPages.cost requested enginePools (newPools slots) < 2 ^ 64 - 2) :
    ∃ after, initPages.run enginePools (newPools slots) = some ((), after) ∧
      PoolsHold (initPages.cost requested enginePools (newPools slots)) (fun _ => none) after := by
  obtain ⟨⟨_, after, _, ran, cached, maps, holds, rfl⟩, -⟩ := (cached_new slots).run (by omega) wp_initPages_new
  rw [Nat.zero_add] at cached
  exact ⟨after, ran, maps, holds, cached⟩

theorem PoolsHold.run {command : Command} {slots : Slots} (holds : PoolsHold requests contents pools) (fits : command.Fits)
    (few : requests + command.pages.cost requested enginePools (command.opens slots pools) < 2 ^ 64 - 2) :
    (∃ after, command.pages.run enginePools (command.opens slots pools) = some (command.replies contents, after) ∧
      PoolsHold (requests + command.pages.cost requested enginePools (command.opens slots pools)) (command.after contents) after) ∧
        command.pages.Always enginePools PointersKept (command.opens slots pools) := by
  obtain ⟨maps, files, cached⟩ := holds
  obtain ⟨⟨_, after, _, ran, cached', rfl, maps', files', rfl⟩, kept⟩ :=
    (cached.opens slots command).run few (files.wp_pages fits)
  exact ⟨⟨after, ran, maps', files', cached'⟩, kept⟩

theorem PoolsReach.holds (reached : PoolsReach requests contents pools) (few : requests < 2 ^ 64 - 2) :
    PoolsHold requests contents pools := by
  induction reached with
  | init ran =>
      obtain ⟨after, same, holds⟩ := run_initPages few
      rw [ran] at same
      cases same
      exact holds
  | call before fits ran ih =>
      obtain ⟨⟨after, same, holds⟩, -⟩ := (ih (by omega)).run fits few
      rw [ran] at same
      cases same
      exact holds

/--
The engine on its buffer pools is a map from keys to values, across closing and opening: as long
as fewer than `2 ^ 64 - 2` requests for pages have been made, no slot of the three pools is
referenced between commands, every command answers as the map says, and pointers are used only
into slots that are pinned and hold the page.
-/
theorem engine_on_pools (reached : PoolsReach requests contents pools) (few : requests < 2 ^ 64 - 2) :
    (∀ slot, pools.1.pool.ref slot = 0 ∧ pools.2.1.1.pool.ref slot = 0 ∧ pools.2.2.1.pool.ref slot = 0) ∧
      ∀ (command : Command) (slots : Slots), command.Fits →
        requests + command.pages.cost requested enginePools (command.opens slots pools) < 2 ^ 64 - 2 →
          (∃ after, command.pages.run enginePools (command.opens slots pools) = some (command.replies contents, after)) ∧
            command.pages.Always enginePools PointersKept (command.opens slots pools) := by
  have holds := reached.holds few
  constructor
  · obtain ⟨maps, -, ⟨index, -⟩, ⟨⟨recs, -⟩, -⟩, ⟨strs, -⟩, -⟩ := holds
    exact fun slot => ⟨index.settled.idle slot, recs.settled.idle slot, strs.settled.idle slot⟩
  · intro command slots fits enough
    obtain ⟨⟨after, ran, -⟩, kept⟩ := holds.run fits enough
    exact ⟨⟨after, ran⟩, kept⟩

/-- Slots that contain zeros. -/
def cleared : Slots := (fun _ => emptyPage, fun _ => emptyPage, fun _ => emptyPage)

/-! ## Sessions whose requests are counted on the page maps -/

/-- A program requests as many pages of the pools as it does of the page maps. -/
theorem Cached.run_counted {α : Type} {program : Prog EnginePageOp α} {post : α → EnginePins → Prop} {pins : EnginePins}
    (cached : Cached (2 ^ 64 - 3 - requests) pools pins)
    (few : requests + program.cost requested enginePins pins < 2 ^ 64 - 2) (holds : program.wp enginePinsLogic post pins) :
    program.cost requested enginePools pools = program.cost requested enginePins pins ∧
      ∃ value after pins', program.run enginePins pins = some (value, pins') ∧
        program.run enginePools pools = some (value, after) ∧
        Cached (2 ^ 64 - 3 - (requests + program.cost requested enginePins pins)) after pins' ∧ post value pins' := by
  obtain ⟨⟨value, _, ran, pins', rfl, ended⟩, always⟩ := run_of_wp (wp_simulates pins_simulate rfl holds)
  refine ⟨affords_engine.cost_eq cached (by omega) always ran, ?_⟩
  have split : 2 ^ 64 - 3 - requests = program.cost requested enginePins pins +
      (2 ^ 64 - 3 - (requests + program.cost requested enginePins pins)) := by
    omega
  rw [split] at cached
  obtain ⟨⟨after, goes, cached'⟩, -⟩ := affords_engine.run (fun le => .fewer le) cached (.inl le_rfl) always ran
  exact ⟨value, after, pins', ran, goes, cached', ended⟩

/-- What commands leave of the map from keys to values. -/
def afterAll (contents : List UInt8 → Option (List UInt8)) (commands : List Command) : List UInt8 → Option (List UInt8) :=
  commands.foldl (fun contents command => command.after contents) contents

/-- A session on the pools, with the requests that it makes of the page maps. -/
theorem PoolsReach.session (slots : Slots) (commands : List Command) (reached : PoolsReach requests contents pools)
    (holds : FilesHold contents maps) (cached : Cached (2 ^ 64 - 3 - requests) pools (idlePins maps))
    (fits : ∀ command ∈ commands, command.Fits)
    (few : requests + (sessionPages commands).cost requested enginePins (idlePins maps) < 2 ^ 64 - 2) :
    ∃ maps' after, (sessionPages commands).run enginePins (idlePins maps) = some ((), idlePins maps') ∧
      FilesHold (afterAll contents commands) maps' ∧
      PoolsReach (requests + (sessionPages commands).cost requested enginePins (idlePins maps)) (afterAll contents commands) after ∧
      Cached (2 ^ 64 - 3 - (requests + (sessionPages commands).cost requested enginePins (idlePins maps))) after
        (idlePins maps') := by
  induction commands generalizing requests contents pools maps with
  | nil => exact ⟨maps, pools, rfl, holds, reached, cached⟩
  | cons command commands ih =>
      obtain ⟨here, later⟩ := List.forall_mem_cons.mp fits
      have spec := holds.wp_pages here
      obtain ⟨⟨_, _, first, -⟩, -⟩ := run_of_wp (wp_simulates pins_simulate rfl spec)
      rw [sessionPages, cost_bind _ first] at few ⊢
      obtain ⟨same, _, between, _, ran, goes, cached', rfl, middle, holds', rfl⟩ :=
        (cached.opens slots command).run_counted (by omega) spec
      cases first.symm.trans ran
      rw [← Nat.add_assoc] at few ⊢
      obtain ⟨maps', after, rest, ended⟩ := ih (same ▸ reached.call here goes) holds' cached' later few
      refine ⟨maps', after, ?_, ended⟩
      rw [run_bind, ran]
      exact rest

/-- A session from `myjql_init` on empty files. -/
theorem reach_session (slots : Slots) (commands : List Command) (fits : ∀ command ∈ commands, command.Fits)
    (few : (newSession commands).cost requested enginePins (idlePins noFiles) < 2 ^ 64 - 2) :
    ∃ maps pools, (newSession commands).run enginePins (idlePins noFiles) = some ((), idlePins maps) ∧
      FilesHold (afterAll (fun _ => none) commands) maps ∧
      PoolsReach ((newSession commands).cost requested enginePins (idlePins noFiles))
        (afterAll (fun _ => none) commands) pools ∧
      Cached (2 ^ 64 - 3 - (newSession commands).cost requested enginePins (idlePins noFiles)) pools
        (idlePins maps) := by
  obtain ⟨⟨_, _, first, -⟩, -⟩ := run_of_wp (wp_simulates pins_simulate rfl wp_initPages_new)
  rw [newSession, cost_bind _ first] at few ⊢
  obtain ⟨same, _, opened, _, ran, goes, cached, maps, holds, rfl⟩ :=
    (cached_new slots).run_counted (by omega) wp_initPages_new
  cases first.symm.trans ran
  rw [Nat.zero_add] at cached
  obtain ⟨maps', pools, rest, ended⟩ := PoolsReach.session slots commands (same ▸ .init goes) holds cached fits few
  refine ⟨maps', pools, ?_, ended⟩
  rw [run_bind, ran]
  exact rest

/-- An evaluation on the page maps shows what a session and one more command request of the pools. -/
theorem reach_evaluated (slots : Slots) {commands : List Command} {last : Command} {blocks : Int} {requests more : Nat}
    (fits : ∀ command ∈ commands, command.Fits) (lastFits : last.Fits)
    (tested : ((newSession commands).evaluate requested enginePins 0 (idlePins noFiles)).any (fun result =>
      decide (result.2.1.2.2.1.map.length = blocks) && decide (result.2.2 = requests) &&
        (last.pages.evaluate requested enginePins 0 result.2.1).any fun result => decide (result.2.2 = more)) = true)
    (few : requests + more < 2 ^ 64 - 2) :
    ∃ pools, PoolsReach requests (afterAll (fun _ => none) commands) pools ∧ pools.2.2.1.pool.file.length = blocks ∧
      requests + last.pages.cost requested enginePools (last.opens slots pools) < 2 ^ 64 - 2 := by
  obtain ⟨_, pins, ran, shown⟩ := exists_of_evaluate tested
  simp only [Bool.and_eq_true, decide_eq_true_eq, Nat.zero_add] at shown
  obtain ⟨⟨length, rfl⟩, read⟩ := shown
  obtain ⟨_, _, -, price⟩ := exists_of_evaluate read
  simp only [decide_eq_true_eq, Nat.zero_add] at price
  subst price
  obtain ⟨maps, pools, ran', holds, reached, cached⟩ := reach_session slots commands fits (by omega)
  cases ran.symm.trans ran'
  obtain ⟨same, -⟩ := (cached.opens slots last).run_counted few (holds.wp_pages lastFits)
  rw [← same] at few
  exact ⟨pools, reached, cached.2.2.1.1.tracks.length.trans length, few⟩

/-- A value of twenty-four chunks. -/
def longValue : List UInt8 := List.replicate 480 7

def longCommands : List Command := [.set [1] longValue, .reopen, .get [1] 480]

theorem longCommands_fit : ∀ command ∈ longCommands, command.Fits := by
  intro command member
  simp only [longCommands, List.mem_cons, List.not_mem_nil, or_false] at member
  rcases member with rfl | rfl | rfl
  · exact ⟨by decide, by decide +kernel⟩
  · trivial
  · trivial

/--
A value that fills more blocks than the pool has slots: it has been read after the engine was closed
and opened again, a block has been evicted, and the value is read once more.
-/
theorem engine_on_pools_evicting : ∃ pools, PoolsReach 60 (Function.update (fun _ => none) [1] (some longValue)) pools ∧
    pools.2.2.1.pool.file.length = 9 * pageSize ∧
      (∃ place : Fin 9, ∀ slot, pools.2.2.1.pool.addrs slot ≠ place * pageSize) ∧
        (∃ after, (Command.get [1] 480).pages.run enginePools pools = some ([(480, longValue)], after)) ∧
          (Command.get [1] 480).pages.Always enginePools PointersKept pools := by
  obtain ⟨pools, reached, length, few⟩ := @reach_evaluated cleared longCommands (.get [1] 480) (9 * pageSize) 60 29
    longCommands_fit trivial (by decide +kernel) (by decide)
  have stored : afterAll (fun _ => none) longCommands = Function.update (fun _ => none) [1] (some longValue) := rfl
  rw [stored] at reached
  obtain ⟨-, serves⟩ := engine_on_pools reached (by decide)
  obtain ⟨⟨after, got⟩, kept⟩ := serves (.get [1] 480) cleared trivial few
  have whole : longValue.length = 480 := List.length_replicate
  rw [Command.replies, Function.update_self, reply, loaded, whole, Nat.min_self, List.take_of_length_le whole.le,
    if_neg (lt_irrefl _), List.append_nil] at got
  exact ⟨pools, reached, length, pools.2.2.1.pool.exists_evicted (by decide), ⟨after, got⟩, kept⟩

end Runs

end MyJQL.Engine
