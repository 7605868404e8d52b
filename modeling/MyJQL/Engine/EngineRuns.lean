import MyJQL.Engine.EngineSpec
import MyJQL.Index.TreePages

/-!
# Runs of the engine

Sessions of calls from `myjql_init` on empty files, the five pools read as page maps. In every
state reached the engine is the map from keys to values that the calls describe, and every
live item of the two tables has one owner in that map or among the separators of the index.
-/

namespace MyJQL.Engine

open Library Library.Prog Storage Storage.Table Strings

/-! ## The page maps -/

/-- The page maps hold the state. -/
def HoldsState (state : EngineState) (maps : EngineMaps) : Prop := state.1 = maps.1 ∧ HoldsHeaps state.2 maps.2

theorem engine_simulates_pages :
    Logic.Simulates engineLogic (Logic.ofMeaning engineMeaning fun _ _ _ => True) HoldsState := by
  rintro β effect post ⟨map, heaps⟩ ⟨_, maps⟩ ⟨rfl, holds⟩ asked
  cases effect with
  | left effect =>
      obtain ⟨-, result, after, step, ended⟩ := asked
      refine ⟨trivial, result, (after, maps), ?_, (after, heaps), ⟨rfl, holds⟩, ended⟩
      simp only [engineMeaning, Meaning.sum, step, Option.map_some]
  | right effect =>
      obtain ⟨-, result, after, step, heaps', holds', ended⟩ :=
        tables_simulate (fun _ _ _ => True) (fun _ _ _ => True) (fun _ _ _ _ _ _ => trivial)
          (fun _ _ _ _ _ _ => trivial) effect _ heaps maps holds asked
      refine ⟨trivial, result, (map, after), ?_, (map, heaps'), ⟨rfl, holds'⟩, ended⟩
      simp only [engineMeaning, Meaning.sum, step, Option.map_some]

/-- A weakest precondition over the state gives a run on the pages. -/
theorem run_of_wp_engine {α : Type} {program : EngineProg α} {post : α → EngineState → Prop} {state : EngineState}
    {maps : EngineMaps} (related : HoldsState state maps) (holds : program.wp engineLogic post state) :
    ∃ value after, program.run engineMeaning maps = some (value, after) ∧
      ∃ state', HoldsState state' after ∧ post value state' :=
  (run_of_wp (wp_simulates engine_simulates_pages related holds)).1

/-- The files hold this map from keys to values. -/
def FilesHold (contents : List UInt8 → Option (List UInt8)) (maps : EngineMaps) : Prop :=
  ∃ state, HoldsState state maps ∧ EngineHolds contents state

/-! ## Opening -/

/-- The index file that `b_tree_init` makes. -/
def openedIndex : PageMap Index.IndexPage := (PageMap.empty.append 0).store 0 (.ctrl ⟨-1, -1⟩)

theorem indexed_openedIndex : Indexed 0 0 0 (openedIndex, fun _ => none, fun _ => none) := by
  refine ⟨[], ⟨fun _ => [], ∅, 0⟩, 0, ?_, rfl, rfl, fun rid => ?_, rfl, ?_, ?_, Memory.empty⟩
  · refine .nothing [] rfl ?_ (.inl ⟨rfl, rfl⟩) (.nil rfl)
    exact Index.lays_control rfl (PageMap.store_page_self _ _ _)
  · exact iff_of_false (Set.notMem_empty rid) (Multiset.notMem_zero rid)
  · exact fun entry member => absurd member (Multiset.notMem_zero entry)
  · exact fun entry member => absurd member (Multiset.notMem_zero entry)

theorem run_bTreeInit_noFiles :
    (onIdx Index.bTreeInit).run engineMeaning noFiles = some ((), (openedIndex, noFiles.2)) := rfl

/-- `myjql_init` on empty files. -/
theorem run_myjqlInit : ∃ opened, myjqlInit noFiles = some opened ∧ FilesHold (fun _ => none) opened := by
  obtain ⟨table, ran, holds⟩ := run_tableInit
  have empty : HoldsHeap (fun _ => none) table := ⟨_, holds, heapOf_nil⟩
  refine ⟨(openedIndex, table, table), ?_, (openedIndex, fun _ => none, fun _ => none), ⟨rfl, empty, empty⟩, 0, ?_, ?_⟩
  · have tables : noFiles.2 = (noPages, noPages) := rfl
    rw [myjqlInit, run_bTreeInit_noFiles, tables]
    simp only [Option.bind_eq_bind, Option.bind_some, ran]
    rfl
  · exact indexed_openedIndex
  · intro key value
    exact iff_of_false (fun bound => nomatch bound) fun found => absurd found.choose_spec.1 (Multiset.notMem_zero _)

section Calls

variable {contents : List UInt8 → Option (List UInt8)} {maps : EngineMaps} {key value : List UInt8}

/-- `myjql_init` on the files that a session has left. -/
theorem run_myjqlInit_again (holds : FilesHold contents maps) :
    ∃ reopened, myjqlInit maps = some reopened ∧ FilesHold contents reopened := by
  obtain ⟨⟨map, heaps⟩, related, stored, ⟨word, world, seps, stands, items, tends⟩, contains⟩ := holds
  have opens : Serves (onIdx Index.bTreeInit) (fun _ state => Keeps stored state) (map, heaps) := by
    refine serves_onIdx tends rfl (stands.wp_bTreeInit ⟨rfl, fun seps' heaps' tends' => ?_⟩)
    exact ⟨word, world, seps', stands, items, tends'⟩
  obtain ⟨_, opened, ran, state', ⟨same, ⟨recItems, recHolds, recHeap⟩, ⟨strItems, strHolds, strHeap⟩⟩, keeps⟩ :=
    run_of_wp_engine related opens.wp
  refine ⟨opened, ?_, state', ⟨same, ⟨recItems, recHolds, recHeap⟩, ⟨strItems, strHolds, strHeap⟩⟩, stored, keeps, contains⟩
  simp only [myjqlInit, ran, Option.bind_eq_bind, Option.bind_some, run_tableInit_again recHolds,
    run_tableInit_again strHolds]
  rfl

theorem run_myjqlGet (holds : FilesHold contents maps) (key : List UInt8) (maxSize : Nat) :
    ∃ after, (myjqlGet key maxSize).run engineMeaning maps = some (reply (contents key) maxSize, after) ∧
      FilesHold contents after := by
  obtain ⟨state, related, holds⟩ := holds
  have spec : Serves (myjqlGet key maxSize) (fun result state' =>
      result = reply (contents key) maxSize ∧ EngineHolds contents state') state :=
    serves_myjqlGet holds fun state' holds' => ⟨rfl, holds'⟩
  obtain ⟨_, after, ran, state', related', rfl, holds'⟩ := run_of_wp_engine related spec.wp
  exact ⟨after, ran, state', related', holds'⟩

theorem run_myjqlSet (holds : FilesHold contents maps) (keyBounds : 1 ≤ key.length ∧ key.length ≤ 655360)
    (valueBounds : 1 ≤ value.length ∧ value.length ≤ 655360) :
    ∃ after, (myjqlSet key value).run engineMeaning maps = some ((), after) ∧
      FilesHold (Function.update contents key (some value)) after := by
  obtain ⟨state, related, holds⟩ := holds
  have spec : Serves (myjqlSet key value) (fun _ state' =>
      EngineHolds (Function.update contents key (some value)) state') state :=
    serves_myjqlSet holds keyBounds valueBounds fun state' holds' => holds'
  obtain ⟨_, after, ran, state', related', holds'⟩ := run_of_wp_engine related spec.wp
  exact ⟨after, ran, state', related', holds'⟩

theorem run_myjqlDel (holds : FilesHold contents maps) (key : List UInt8) :
    ∃ after, (myjqlDel key).run engineMeaning maps = some ((), after) ∧
      FilesHold (Function.update contents key none) after := by
  obtain ⟨state, related, holds⟩ := holds
  have spec : Serves (myjqlDel key) (fun _ state' =>
      EngineHolds (Function.update contents key none) state') state :=
    serves_myjqlDel holds fun state' holds' => holds'
  obtain ⟨_, after, ran, state', related', holds'⟩ := run_of_wp_engine related spec.wp
  exact ⟨after, ran, state', related', holds'⟩

end Calls

/-! ## Sessions -/

namespace Command

/-- The keys and values that are set have 1 to 655360 bytes. -/
def Fits : Command → Prop
  | .set key value => (1 ≤ key.length ∧ key.length ≤ 655360) ∧ 1 ≤ value.length ∧ value.length ≤ 655360
  | _ => True

/-- The map from keys to values after the call. -/
def after (contents : List UInt8 → Option (List UInt8)) : Command → List UInt8 → Option (List UInt8)
  | .set key value => Function.update contents key (some value)
  | .del key => Function.update contents key none
  | .get _ _ => contents
  | .reopen => contents

/-- What the call answers. -/
def replies (contents : List UInt8 → Option (List UInt8)) : Command → List (Nat × List UInt8)
  | .get key maxSize => [reply (contents key) maxSize]
  | _ => []

end Command

/-- What the calls answer, from a map on. -/
def answers : (List UInt8 → Option (List UInt8)) → List Command → List (Nat × List UInt8)
  | _, [] => []
  | contents, command :: commands => command.replies contents ++ answers (command.after contents) commands

/-- The map after the calls: what the last `myjql_set` or `myjql_del` of a key has left. -/
def latest (commands : List Command) : List UInt8 → Option (List UInt8) :=
  commands.foldl (fun contents command => command.after contents) fun _ => none

section Sessions

variable {contents : List UInt8 → Option (List UInt8)} {maps : EngineMaps}

theorem run_command {command : Command} (holds : FilesHold contents maps) (fits : command.Fits) :
    ∃ after, command.run maps = some (command.replies contents, after) ∧ FilesHold (command.after contents) after := by
  cases command with
  | set key value =>
      obtain ⟨after, ran, holds'⟩ := run_myjqlSet holds fits.1 fits.2
      exact ⟨after, by rw [Command.run, ran]; rfl, holds'⟩
  | del key =>
      obtain ⟨after, ran, holds'⟩ := run_myjqlDel holds key
      exact ⟨after, by rw [Command.run, ran]; rfl, holds'⟩
  | get key maxSize =>
      obtain ⟨after, ran, holds'⟩ := run_myjqlGet holds key maxSize
      exact ⟨after, by rw [Command.run, ran]; rfl, holds'⟩
  | reopen =>
      obtain ⟨after, ran, holds'⟩ := run_myjqlInit_again holds
      exact ⟨after, by rw [Command.run, myjqlClose, ran]; rfl, holds'⟩

theorem run_session (commands : List Command) (holds : FilesHold contents maps)
    (fits : ∀ command ∈ commands, command.Fits) :
    ∃ after, session commands maps = some (answers contents commands, after) ∧
      FilesHold (commands.foldl (fun contents command => command.after contents) contents) after := by
  induction commands generalizing contents maps with
  | nil => exact ⟨maps, rfl, holds⟩
  | cons command commands ih =>
      obtain ⟨middle, ran, holds'⟩ := run_command holds (fits command List.mem_cons_self)
      obtain ⟨after, rest, holds''⟩ := ih holds' fun other member => fits other (List.mem_cons_of_mem _ member)
      refine ⟨after, ?_, holds''⟩
      rw [session, ran]
      simp only [Option.bind_eq_bind, Option.bind_some, rest]
      rfl

/-- A session from `myjql_init` on empty files. -/
theorem run_opened (commands : List Command) (fits : ∀ command ∈ commands, command.Fits) :
    ∃ opened after, myjqlInit noFiles = some opened ∧
      session commands opened = some (answers (fun _ => none) commands, after) ∧ FilesHold (latest commands) after := by
  obtain ⟨opened, ran, holds⟩ := run_myjqlInit
  obtain ⟨after, rest, holds'⟩ := run_session commands holds fits
  exact ⟨opened, after, ran, rest, holds'⟩

/-- The values that are stored are those that were set. -/
theorem FilesHold.small (holds : FilesHold contents maps) {key value : List UInt8} (bound : contents key = some value) :
    value.length ≤ 655360 := by
  obtain ⟨state, -, stored, -, contains⟩ := holds
  obtain ⟨pair, -, -, rfl⟩ := (contains key value).mp bound
  exact pair.small

/-- `(size_t)-1` is the answer for a key that is not stored, and for no other. -/
theorem reply_eq_noSize_iff {stored : Option (List UInt8)} (small : ∀ value ∈ stored, value.length ≤ 655360)
    (maxSize : Nat) : (reply stored maxSize).1 = noSize ↔ stored = none := by
  cases stored with
  | none => exact iff_of_true rfl rfl
  | some value =>
      have bound : min value.length maxSize ≤ 655360 := (min_le_left _ _).trans (small value rfl)
      refine iff_of_false (fun same => ?_) (Option.some_ne_none value)
      change min value.length maxSize = 2 ^ 64 - 1 at same
      omega

/-- The first bytes that are written are those of the value. -/
theorem take_loaded (value : List UInt8) (maxSize : Nat) :
    (loaded value maxSize).take (min value.length maxSize) = value.take maxSize := by
  have length : (value.take maxSize).length = min value.length maxSize := by
    rw [List.length_take, min_comm]
  unfold loaded
  exact List.take_left' length

/--
The engine is a map from keys to values over whole runs. After every session of calls from
`myjql_init` on empty files, in which the files may be closed and opened again, `myjql_get`
returns `(size_t)-1` exactly when the last `myjql_set` or `myjql_del` of the key was a
`myjql_del` or there was none, and otherwise writes the first `min(|v|, max_size)` bytes of
the value `v` that was set last and returns that count.
-/
theorem engine_is_map (commands : List Command) (fits : ∀ command ∈ commands, command.Fits) :
    ∃ opened after, myjqlInit noFiles = some opened ∧
      session commands opened = some (answers (fun _ => none) commands, after) ∧
      ∀ key maxSize, ∃ result final, (myjqlGet key maxSize).run engineMeaning after = some (result, final) ∧
        (result.1 = noSize ↔ latest commands key = none) ∧
        ∀ value, latest commands key = some value →
          result.1 = min value.length maxSize ∧ result.2.take result.1 = value.take maxSize := by
  obtain ⟨opened, after, ran, rest, holds⟩ := run_opened commands fits
  refine ⟨opened, after, ran, rest, fun key maxSize => ?_⟩
  obtain ⟨final, got, -⟩ := run_myjqlGet holds key maxSize
  refine ⟨_, final, got, reply_eq_noSize_iff (fun value bound => holds.small bound) maxSize, ?_⟩
  intro value bound
  rw [bound]
  exact ⟨rfl, take_loaded value maxSize⟩

/-- A session that updates a key, deletes another and opens the files again. -/
def smallSession : List Command :=
  [.set [1] [10, 11], .set [2] [20], .set [1] [12, 13, 14], .del [2], .reopen]

theorem smallSession_fits : ∀ command ∈ smallSession, command.Fits := by
  simp [smallSession, Command.Fits]

theorem engine_is_map_small :
    ∃ opened after, myjqlInit noFiles = some opened ∧
      session smallSession opened = some ([], after) ∧
      (∃ result final, (myjqlGet [1] 2).run engineMeaning after = some (result, final) ∧
        result.1 = 2 ∧ result.2.take 2 = [12, 13]) ∧
      ∃ result final, (myjqlGet [2] 2).run engineMeaning after = some (result, final) ∧ result.1 = noSize := by
  obtain ⟨opened, after, ran, rest, gets⟩ := engine_is_map smallSession smallSession_fits
  obtain ⟨result1, final1, got1, -, replied⟩ := gets [1] 2
  obtain ⟨result2, final2, got2, missing, -⟩ := gets [2] 2
  obtain ⟨count, bytes⟩ := replied [12, 13, 14] (by decide)
  rw [count] at bytes
  exact ⟨opened, after, ran, rest, ⟨result1, final1, got1, count, bytes⟩, result2, final2, got2, missing.mpr (by decide)⟩

end Sessions

/-! ## The account of the files -/

/--
Who owns the items of the two tables. `stored` are the pairs whose records stand in the leaves
of the index, and `seps` the records that stand in its other nodes.
-/
structure Account (maps : EngineMaps) (stored : Multiset Stored) (seps : Multiset Entry) (heaps : Heaps) : Prop where
  tables : HoldsHeaps heaps maps.2
  index : ∃ root head nodes, maps.1.page 0 = .ctrl ⟨root, head⟩ ∧ Index.ShowsNodes degree maps.1 root nodes ∧
    Index.rowsOf nodes = stored.map (fun pair => pair.entry.rid) ∧ Index.separatorsOf nodes = seps.map Entry.rid
  records : Owns heaps.1 (stored.map (fun pair => pair.entry.rid) + seps.map Entry.rid)
  strings : Owns heaps.2 (stored.bind (fun pair => pair.entry.key.cells + pair.data.cells) +
    seps.bind fun entry => entry.key.cells)
  pairs : ∀ pair ∈ stored, heaps.1 pair.entry.rid = some (Record.make pair.entry.key.rid pair.data.rid) ∧
    pair.entry.key.At heaps.2 ∧ pair.data.At heaps.2
  copies : ∀ entry ∈ seps, heaps.1 entry.rid = some (Record.make entry.key.rid nullRid) ∧ entry.key.At heaps.2

section Account

variable {contents : List UInt8 → Option (List UInt8)} {maps : EngineMaps} {stored : Multiset Stored} {seps : Multiset Entry}
  {heaps : Heaps}

theorem Account.of_memory (tables : HoldsHeaps heaps maps.2)
    (index : ∃ root head nodes, maps.1.page 0 = .ctrl ⟨root, head⟩ ∧ Index.ShowsNodes degree maps.1 root nodes ∧
      Index.rowsOf nodes = stored.map (fun pair => pair.entry.rid) ∧ Index.separatorsOf nodes = seps.map Entry.rid)
    (memory : Memory (stored.map Stored.entry + seps) (stored.map Stored.data) heaps)
    (valueless : ∀ entry ∈ seps, entry.value = nullRid) : Account maps stored seps heaps := by
  refine ⟨tables, index, ?_, ?_, ?_, ?_⟩
  · have records := memory.records
    rw [Multiset.map_add, Multiset.map_map] at records
    exact records
  · refine memory.strings.owns.congr ?_
    simp only [Multiset.map_add, Multiset.add_bind, Multiset.bind_map, Multiset.map_map, Multiset.bind_add, Function.comp_apply]
    abel
  · intro pair member
    have here : pair.entry ∈ stored.map Stored.entry + seps := Multiset.mem_add.mpr (.inl (Multiset.mem_map_of_mem _ member))
    refine ⟨?_, memory.key here, memory.textAt (Multiset.mem_map_of_mem _ member)⟩
    rw [← pair.linked]
    exact (memory.placed _ here).record
  · intro entry member
    have here : entry ∈ stored.map Stored.entry + seps := Multiset.mem_add.mpr (.inr member)
    refine ⟨?_, memory.key here⟩
    rw [← valueless entry member]
    exact (memory.placed _ here).record

/-- An engine that stores nothing. -/
theorem Account.nothing (account : Account maps 0 seps heaps) : seps = 0 ∧ heaps = (fun _ => none, fun _ => none) := by
  obtain ⟨root, head, nodes, -, shows, rows, separators⟩ := account.index
  rw [shows.separators_eq_zero (by decide) rows] at separators
  obtain rfl : seps = 0 := Multiset.map_eq_zero.mp separators.symm
  exact ⟨rfl, Prod.ext account.records.eq_none account.strings.eq_none⟩

/-- The account of the files, for what they hold. -/
theorem FilesHold.account (holds : FilesHold contents maps) :
    ∃ stored seps heaps, Account maps stored seps heaps ∧ Contains contents stored ∧ (stored.map Stored.key).Nodup := by
  obtain ⟨⟨map, heaps⟩, ⟨rfl, tables⟩, stored, keeps, contains⟩ := holds
  have distinct := keeps.distinct
  obtain ⟨word, world, seps, stands, items, tends⟩ := keeps
  obtain ⟨root, nodes, free, lays, shows, separators, rows⟩ := stands.shows
  obtain ⟨head, content, -⟩ := lays.ctrl
  have owed : world.owed = word.seps := stands.sound.owed.trans (zero_add _)
  have memory := tends.memory
  rw [zero_add] at memory
  refine ⟨stored, seps, heaps, .of_memory tables ⟨root, head, nodes, content, shows, ?_, ?_⟩ memory tends.valueless,
    contains, distinct⟩
  · rw [rows, items, Multiset.map_map]
    rfl
  · rw [separators, ← owed]
    exact tends.owed

/--
Storage is accounted for exactly. After every session the live items of `tbl_rec` are one record
for each stored key, which stands in one slot of a leaf, and one for each separator slot of the
non-leaf nodes; the live items of `tbl_str` are the chunks of the keys and of the values of the
former and the chunks of the keys of the latter; no item has two owners. When every key has been
deleted, no item is live.
-/
theorem storage_is_accounted (commands : List Command) (fits : ∀ command ∈ commands, command.Fits) :
    ∃ opened results after, myjqlInit noFiles = some opened ∧ session commands opened = some (results, after) ∧
      ∃ stored seps heaps, Account after stored seps heaps ∧ Contains (latest commands) stored ∧
        (stored.map Stored.key).Nodup ∧
        ((∀ key, latest commands key = none) → ∀ rid, heaps.1 rid = none ∧ heaps.2 rid = none) := by
  obtain ⟨opened, after, ran, rest, holds⟩ := run_opened commands fits
  obtain ⟨stored, seps, heaps, account, contains, distinct⟩ := holds.account
  refine ⟨opened, _, after, ran, rest, stored, seps, heaps, account, contains, distinct, fun empty rid => ?_⟩
  obtain rfl : stored = 0 := by
    refine Multiset.eq_zero_of_forall_notMem fun pair member => ?_
    have bound := contains.of_mem member
    rw [empty pair.key] at bound
    cases bound
  obtain ⟨-, rfl⟩ := account.nothing
  exact ⟨rfl, rfl⟩

/-- The separators of an engine that stores more keys than one leaf can have. -/
theorem Account.separators (account : Account maps stored seps heaps) (many : 2 * degree < stored.card) : seps ≠ 0 := by
  rintro rfl
  obtain ⟨root, head, nodes, -, shows, rows, separators⟩ := account.index
  rw [← Multiset.card_map (fun pair : Stored => pair.entry.rid), ← rows] at many
  exact shows.separators_ne_zero many separators

/-- Five keys are set, the first of them twice. -/
def fiveSets : List Command := [.set [1] [10], .set [2] [20], .set [3] [30], .set [1] [11, 12], .set [4] [40], .set [5] [50]]

/-- All of them are deleted. -/
def fiveDels : List Command := [.del [3], .del [1], .del [5], .del [2], .del [4]]

theorem fiveSets_fit : ∀ command ∈ fiveSets, command.Fits := by
  simp [fiveSets, Command.Fits]

theorem fiveSets_deleted (key : List UInt8) : latest (fiveSets ++ fiveDels) key = none := by
  simp only [latest, fiveSets, fiveDels, List.cons_append, List.nil_append, List.foldl_cons, List.foldl_nil, Command.after,
    Function.update_apply]
  grind

/-- Five keys need a separator, a sixth record; when they have been deleted nothing is live. -/
theorem storage_is_accounted_deleted :
    (∃ opened results after, myjqlInit noFiles = some opened ∧ session fiveSets opened = some (results, after) ∧
      ∃ stored seps heaps, Account after stored seps heaps ∧ Contains (latest fiveSets) stored ∧
        5 ≤ stored.card ∧ seps ≠ 0) ∧
      ∃ opened results after, myjqlInit noFiles = some opened ∧
        session (fiveSets ++ fiveDels) opened = some (results, after) ∧
          ∃ heaps, HoldsHeaps heaps after.2 ∧ ∀ rid, heaps.1 rid = none ∧ heaps.2 rid = none := by
  constructor
  · obtain ⟨opened, results, after, ran, rest, stored, seps, heaps, account, contains, -⟩ :=
      storage_is_accounted fiveSets fiveSets_fit
    have many : 5 ≤ stored.card := by
      have keys : ({[1], [2], [3], [4], [5]} : Multiset (List UInt8)) ≤ stored.map Stored.key := by
        refine (Multiset.le_iff_subset (by decide)).mpr fun key member => ?_
        have present : ∃ value, latest fiveSets key = some value := by
          simp only [Multiset.insert_eq_cons, Multiset.mem_cons, Multiset.mem_singleton] at member
          rcases member with rfl | rfl | rfl | rfl | rfl
          all_goals exact ⟨_, rfl⟩
        obtain ⟨value, found⟩ := present
        obtain ⟨pair, here, rfl, -⟩ := (contains key value).mp found
        exact Multiset.mem_map_of_mem _ here
      have count := Multiset.card_le_card keys
      rw [Multiset.card_map] at count
      exact count
    exact ⟨opened, results, after, ran, rest, stored, seps, heaps, account, contains, many, account.separators many⟩
  · obtain ⟨opened, results, after, ran, rest, stored, seps, heaps, account, -, -, nothing⟩ :=
      storage_is_accounted (fiveSets ++ fiveDels) fun command member =>
        (List.mem_append.mp member).elim (fiveSets_fit command) fun dels => by
          simp only [fiveDels, List.mem_cons, List.not_mem_nil, or_false] at dels
          rcases dels with rfl | rfl | rfl | rfl | rfl
          all_goals trivial
    exact ⟨opened, results, after, ran, rest, heaps, account.tables, nothing fiveSets_deleted⟩

end Account

end MyJQL.Engine
