import MyJQL.Engine.MyJql
import MyJQL.Library.Ownership

/-!
# The account of the tables

Every live item of `tbl_rec` is the record of an entry, and every live item of `tbl_str` is a
chunk of the key of an entry or of another string, such as a value. The handlers of the index
keep this account: `insert_handler` opens an entry, and `delete_handler` closes one.
-/

namespace MyJQL.Engine

open Library Library.Prog Storage Storage.Table Strings

/-- A string in `tbl_str`. -/
structure Text where
  rid : RID
  bytes : List UInt8
  chunks : List Chunk

/-- The items of the string. -/
def Text.cells (text : Text) : Multiset RID := rids text.chunks

abbrev Text.At (strs : Heap) (text : Text) : Prop := StringAt strs text.rid text.bytes text.chunks

/-- A record in `tbl_rec`, with the string of its key. -/
structure Entry where
  rid : RID
  key : Text
  value : RID

structure Entry.At (recs : Heap) (entry : Entry) : Prop where
  record : recs entry.rid = some (Record.make entry.key.rid entry.value)
  nonempty : entry.key.bytes ≠ []

/-- `tbl_str` holds these strings and nothing else. -/
structure Spells (texts : Multiset Text) (strs : Heap) : Prop where
  spelled : ∀ text ∈ texts, text.At strs
  owns : Owns strs (texts.bind Text.cells)

/-- `tbl_rec` holds the records of the entries, and `tbl_str` their keys and these texts. -/
structure Memory (entries : Multiset Entry) (texts : Multiset Text) (heaps : Heaps) : Prop where
  placed : ∀ entry ∈ entries, entry.At heaps.1
  records : Owns heaps.1 (entries.map Entry.rid)
  strings : Spells (entries.map Entry.key + texts) heaps.2

section Memory

variable {heaps : Heaps} {entries entries' : Multiset Entry} {entry : Entry} {texts texts' : Multiset Text} {text : Text}
  {strs strs' : Heap} {rid : RID}

/-! ## Strings -/

/-- Another string is written. -/
theorem Spells.write (spells : Spells texts strs) (placed : text.At strs') (added : Added strs strs' (rids text.chunks)) :
    Spells (text ::ₘ texts) strs' := by
  constructor
  · intro other member
    rcases Multiset.mem_cons.mp member with rfl | old
    · exact placed
    · refine (spells.spelled other old).congr fun cell here => added.2 cell fun new => ?_
      exact (spells.spelled other old).live here (added.1 cell new)
  · rw [Multiset.cons_bind]
    exact spells.owns.add (Multiset.coe_nodup.mpr placed.distinct) added.1 (fun cell member => placed.live member) added.2

/-- A string is deleted. -/
theorem Spells.erase (spells : Spells (text ::ₘ texts) strs) : Spells texts (without strs (rids text.chunks)) := by
  have owns := spells.owns
  rw [Multiset.cons_bind] at owns
  constructor
  · intro other member
    refine (spells.spelled other (Multiset.mem_cons_of_mem member)).congr fun cell here => if_neg fun gone => ?_
    have apart : Disjoint text.cells (texts.bind Text.cells) := (Multiset.nodup_add.mp owns.once).2.2
    exact Multiset.disjoint_left.mp apart gone (Multiset.mem_bind.mpr ⟨other, member, here⟩)
  · exact owns.remove (fun cell member => if_pos member) fun cell absent => if_neg absent

/-! ## Entries -/

theorem Memory.empty : Memory 0 0 (fun _ => none, fun _ => none) := by
  refine ⟨fun _ member => ?_, .empty, fun _ member => ?_, .empty⟩
  · exact absurd member (Multiset.notMem_zero _)
  · exact absurd member (Multiset.notMem_zero _)

theorem Memory.regroup (memory : Memory entries texts heaps) (same : entries = entries') (same' : texts = texts') :
    Memory entries' texts' heaps := same ▸ same' ▸ memory

theorem Memory.key (memory : Memory entries texts heaps) (member : entry ∈ entries) : entry.key.At heaps.2 :=
  memory.strings.spelled _ (Multiset.mem_add.mpr (.inl (Multiset.mem_map_of_mem _ member)))

theorem Memory.textAt (memory : Memory entries texts heaps) (member : text ∈ texts) : text.At heaps.2 :=
  memory.strings.spelled _ (Multiset.mem_add.mpr (.inr member))

theorem Memory.keyAt (memory : Memory entries texts heaps) (member : entry ∈ entries) :
    KeyAt heaps entry.rid entry.key.bytes :=
  ⟨(memory.placed entry member).nonempty, _, _, _, (memory.placed entry member).record, memory.key member⟩

/-- A RID that is not live is no entry's. -/
theorem Memory.fresh_ne (memory : Memory entries texts heaps) (fresh : heaps.1 rid = none) (member : entry ∈ entries) :
    entry.rid ≠ rid := by
  rintro rfl
  exact memory.records.fresh fresh (Multiset.mem_map_of_mem _ member)

theorem Memory.write (memory : Memory entries texts heaps) (text : Text) (placed : text.At strs)
    (added : Added heaps.2 strs (rids text.chunks)) : Memory entries (text ::ₘ texts) (heaps.1, strs) := by
  refine ⟨memory.placed, memory.records, ?_⟩
  rw [Multiset.add_cons]
  exact memory.strings.write placed added

theorem Memory.erase (memory : Memory entries (text ::ₘ texts) heaps) :
    Memory entries texts (heaps.1, without heaps.2 (rids text.chunks)) := by
  refine ⟨memory.placed, memory.records, ?_⟩
  have strings := memory.strings
  rw [Multiset.add_cons] at strings
  exact strings.erase

/-- A string becomes the key of a new record. -/
theorem Memory.enter (memory : Memory entries (text ::ₘ texts) heaps) (nonempty : text.bytes ≠ [])
    (fresh : heaps.1 rid = none) (value : RID) : Memory (⟨rid, text, value⟩ ::ₘ entries) texts
      (Function.update heaps.1 rid (some (Record.make text.rid value)), heaps.2) := by
  refine ⟨fun entry member => ?_, ?_, ?_⟩
  · rcases Multiset.mem_cons.mp member with rfl | old
    · exact ⟨Function.update_self .., nonempty⟩
    · obtain ⟨record, nonempty'⟩ := memory.placed entry old
      exact ⟨(Function.update_of_ne (memory.fresh_ne fresh old) _ _).trans record, nonempty'⟩
  · rw [Multiset.map_cons]
    exact memory.records.store fresh
  · have strings := memory.strings
    rw [Multiset.add_cons, ← Multiset.cons_add] at strings
    rw [Multiset.map_cons]
    exact strings

/-- A record is deleted, and not its key. -/
theorem Memory.leave (memory : Memory (entry ::ₘ entries) texts heaps) :
    Memory entries (entry.key ::ₘ texts) (Function.update heaps.1 entry.rid none, heaps.2) := by
  have records := memory.records
  rw [Multiset.map_cons] at records
  refine ⟨fun other member => ?_, records.free, ?_⟩
  · obtain ⟨record, nonempty⟩ := memory.placed other (Multiset.mem_cons_of_mem member)
    refine ⟨(Function.update_of_ne ?_ _ _).trans record, nonempty⟩
    intro same
    exact (Multiset.nodup_cons.mp records.once).1 (same ▸ Multiset.mem_map_of_mem _ member)
  · have strings := memory.strings
    rw [Multiset.map_cons, Multiset.cons_add, ← Multiset.add_cons] at strings
    exact strings

end Memory

/-! ## The world of the index -/

/-- The state of the engine: the pages of the index, and the heaps of the two tables. -/
abbrev EngineState : Type := PageMap Index.IndexPage × Heaps

def engineLogic : Logic EngineOp EngineState := (mapLogic Index.IndexPage).sum tablesLogic

/-- The index under the pin discipline, beside the heaps of the tables. -/
def pinnedEngineLogic : Logic EngineOp (Pinned Index.IndexPage × Heaps) :=
  (pinnedLogic Index.IndexPage True).sum tablesLogic

/-- No page of the index is pinned, before and after. -/
def Serves {α : Type} (program : EngineProg α) (post : α → EngineState → Prop) (state : EngineState) : Prop :=
  program.wp pinnedEngineLogic (fun result after => after.1.pins = 0 ∧ post result (after.1.map, after.2)) (⟨state.1, 0⟩, state.2)

section Serves

variable {α β : Type} {program : EngineProg α} {next : α → EngineProg β} {state : EngineState}

theorem Serves.bind {post : β → EngineState → Prop}
    (holds : Serves program (fun value after => Serves (next value) post after) state) : Serves (program >>= next) post state := by
  refine (wp_bind ..).mpr (wp_mono ?_ holds)
  rintro value ⟨⟨map, pins⟩, heaps⟩ ⟨free, later⟩
  obtain rfl : pins = 0 := free
  exact later

theorem serves_pure {post : α → EngineState → Prop} {value : α} (ended : post value state) :
    Serves (Pure.pure value) post state := ⟨rfl, ended⟩

theorem serves_some {post : α → EngineState → Prop} {value : α} (ended : post value state) :
    Serves (ofOption (some value)) post state := ⟨rfl, ended⟩

/-- A specification that keeps the pins is one without them. -/
theorem Serves.wp {post : α → EngineState → Prop} (holds : Serves program post state) : program.wp engineLogic post state := by
  refine wp_mono ?_ (wp_simulates (Logic.Simulates.sum (pinned_simulates Index.IndexPage True) (Logic.Simulates.refl _))
    ⟨rfl, rfl⟩ holds)
  rintro result ⟨map, heaps⟩ ⟨⟨pinned, _⟩, ⟨rfl, rfl⟩, -, ended⟩
  exact ended

end Serves

/--
What the index knows is what the tables hold: it is lent the rows, and the separators it
owes are the other entries.
-/
structure Tends (rows seps : Multiset Entry) (texts : Multiset Text) (state : Index.TreeState (List Int))
    (state' : EngineState) : Prop where
  pages : state'.1 = state.1.map
  held : ∀ rid, rid ∈ state.2.held ↔ rid ∈ rows.map Entry.rid
  owed : state.2.owed = seps.map Entry.rid
  valueless : ∀ entry ∈ seps, entry.value = nullRid
  keys : ∀ entry ∈ rows + seps, state.2.key entry.rid = keyOf entry.key.bytes
  memory : Memory (rows + seps) texts state'.2

/-- The separators change while the index works. -/
def Tended (rows : Multiset Entry) (texts : Multiset Text) (state : Index.TreeState (List Int)) (state' : EngineState) :
    Prop := ∃ seps, Tends rows seps texts state state'

section Simulation

variable {rows seps : Multiset Entry} {texts : Multiset Text} {state : Index.TreeState (List Int)}
  {state' : EngineState} {entry : Entry} {rid : RID}

/-- A RID that the index knows is that of an entry. -/
theorem Tends.known (tends : Tends rows seps texts state state') (known : state.2.Knows rid) :
    ∃ entry ∈ rows + seps, entry.rid = rid := by
  rcases known with held | owed
  · obtain ⟨entry, member, same⟩ := Multiset.mem_map.mp ((tends.held rid).mp held)
    exact ⟨entry, Multiset.mem_add.mpr (.inl member), same⟩
  · rw [tends.owed] at owed
    obtain ⟨entry, member, same⟩ := Multiset.mem_map.mp owed
    exact ⟨entry, Multiset.mem_add.mpr (.inr member), same⟩

theorem signOf_agrees (first second : List Int) : Index.Agrees (signOf first second) first second :=
  ⟨signOf_neg_iff first second, signOf_eq_zero_iff first second⟩

/-- `insert_handler` makes a separator with a key of its own. -/
theorem Tends.wp_insertHandler (tends : Tends rows seps texts state state') (member : entry ∈ rows + seps)
    {post : RID → Heaps → Prop}
    (ended : ∀ copy heaps, (∀ known, state.2.Knows known → known ≠ copy.rid) →
      Tends rows (copy ::ₘ seps) texts (state.1, ⟨Function.update state.2.key copy.rid (state.2.key entry.rid),
        state.2.held, copy.rid ::ₘ state.2.owed⟩) (state'.1, heaps) → post copy.rid heaps) :
    (insertHandler entry.rid).wp tablesLogic post state'.2 := by
  obtain ⟨record, nonempty⟩ := tends.memory.placed entry member
  refine Engine.wp_insertHandler record (tends.memory.key member) nonempty ?_
  intro copyRid copy copies strs fresh _ _ copied added
  have apart : ∀ other ∈ rows + seps, other.rid ≠ copyRid := fun other here => tends.memory.fresh_ne fresh here
  have written := tends.memory.write ⟨copy, entry.key.bytes, copies⟩ copied added
  have memory := written.enter nonempty fresh nullRid
  rw [← Multiset.add_cons] at memory
  refine ended ⟨copyRid, ⟨copy, entry.key.bytes, copies⟩, nullRid⟩ _ ?_ ⟨tends.pages, tends.held, ?_, ?_, ?_, memory⟩
  · intro known knows
    obtain ⟨other, here, rfl⟩ := tends.known knows
    exact apart other here
  · rw [Multiset.map_cons, tends.owed]
  · intro other here
    rcases Multiset.mem_cons.mp here with rfl | old
    · rfl
    · exact tends.valueless other old
  · intro other here
    rw [Multiset.add_cons, Multiset.mem_cons] at here
    rcases here with rfl | old
    · exact (Function.update_self ..).trans (tends.keys entry member)
    · exact (Function.update_of_ne (apart other old) _ _).trans (tends.keys other old)

/-- `delete_handler` takes out a separator and its key. -/
theorem Tends.wp_deleteHandler (tends : Tends rows (entry ::ₘ seps) texts state state') {post : Unit → Heaps → Prop}
    (ended : ∀ heaps, Tends rows seps texts (state.1, ⟨state.2.key, state.2.held, state.2.owed.erase entry.rid⟩)
      (state'.1, heaps) → post () heaps) : (deleteHandler entry.rid).wp tablesLogic post state'.2 := by
  have memory := tends.memory
  rw [Multiset.add_cons] at memory
  have member := Multiset.mem_cons_self entry (rows + seps)
  have noValue : StringAt state'.2.2 entry.value [] [] := by
    rw [tends.valueless entry (Multiset.mem_cons_self _ _)]
    exact ⟨trivial, rfl, rfl, List.nodup_nil⟩
  refine Engine.wp_deleteHandler (memory.placed entry member).record (memory.key member) noValue
    (fun _ here => absurd here List.not_mem_nil) ?_
  have nothing : without (without state'.2.2 (rids entry.key.chunks)) (rids []) =
      without state'.2.2 (rids entry.key.chunks) := without_nil
  rw [nothing]
  refine ended _ ⟨tends.pages, tends.held, ?_, ?_, ?_, memory.leave.erase⟩
  · change state.2.owed.erase entry.rid = seps.map Entry.rid
    rw [tends.owed, Multiset.map_cons, Multiset.erase_cons_head]
  · exact fun other here => tends.valueless other (Multiset.mem_cons_of_mem here)
  · intro other here
    refine tends.keys other ?_
    rw [Multiset.add_cons]
    exact Multiset.mem_cons_of_mem here

/-- The engine's comparators and handlers are what the index was promised. -/
theorem engine_simulates :
    Logic.Simulates (Index.treeLogic keyOf) (pinnedEngineLogic.pull callbacks)
      fun state state' => state.1 = state'.1 ∧ Tended rows texts state (state'.1.map, state'.2) := by
  rintro β effect post ⟨pages, world⟩ ⟨_, heaps⟩ ⟨rfl, seps, tends⟩ holds
  cases effect with
  | left effect =>
      obtain ⟨-, step⟩ := holds
      refine (pinnedLogic Index.IndexPage True).mono (fun result pages' ended => ?_) step
      exact ⟨(pages', world), ⟨rfl, seps, rfl, tends.held, tends.owed, tends.valueless, tends.keys, tends.memory⟩, ended⟩
  | right effect =>
      cases effect with
      | rowRowCmp rid1 rid2 =>
          obtain ⟨known1, known2, ended⟩ := holds
          obtain ⟨entry1, member1, rfl⟩ := tends.known known1
          obtain ⟨entry2, member2, rfl⟩ := tends.known known2
          refine (wp_onRight ..).mpr (wp_rowRowCmp (tends.memory.keyAt member1) (tends.memory.keyAt member2)
            ⟨_, ⟨rfl, seps, tends⟩, ended _ ?_⟩)
          rw [tends.keys entry1 member1, tends.keys entry2 member2]
          exact signOf_agrees _ _
      | ptrRowCmp key rid =>
          obtain ⟨known, ended⟩ := holds
          obtain ⟨entry, member, rfl⟩ := tends.known known
          refine (wp_onRight ..).mpr (wp_ptrRowCmp (tends.memory.keyAt member) ⟨_, ⟨rfl, seps, tends⟩, ended _ ?_⟩)
          rw [tends.keys entry member]
          exact signOf_agrees _ _
      | insertHandler rid =>
          obtain ⟨known, ended⟩ := holds
          obtain ⟨entry, member, rfl⟩ := tends.known known
          refine (wp_onRight ..).mpr (tends.wp_insertHandler member fun copy heaps apart tends' => ?_)
          refine ⟨_, ⟨rfl, _, tends'⟩, ended _ _ (fun other knows => ?_) (Function.update_self ..)⟩
          exact Function.update_of_ne (apart other knows) _ _
      | deleteHandler rid =>
          obtain ⟨⟨owed, -⟩, ended⟩ := holds
          have here := owed
          rw [tends.owed] at here
          obtain ⟨entry, member, rfl⟩ := Multiset.mem_map.mp here
          obtain ⟨seps, rfl⟩ := Multiset.exists_cons_of_mem member
          refine (wp_onRight ..).mpr (tends.wp_deleteHandler fun heaps tends' => ?_)
          exact ⟨_, ⟨rfl, seps, tends'⟩, ended _ fun _ _ => rfl⟩

/-- A specification of the index is one of the engine's call on it. -/
theorem serves_onIdx {α : Type} {program : Index.TreeProg (List UInt8) α} {post : α → EngineState → Prop}
    (tends : Tends rows seps texts state state') (free : state.1.pins = 0)
    (holds : program.wp (Index.treeLogic keyOf) (fun result final => final.1.pins = 0 ∧ ∀ seps heaps,
      Tends rows seps texts final (final.1.map, heaps) → post result (final.1.map, heaps)) state) :
    Serves (onIdx program) post state' := by
  obtain ⟨⟨map, pins⟩, world⟩ := state
  obtain ⟨_, heaps⟩ := state'
  obtain rfl : pins = 0 := free
  obtain rfl : _ = map := tends.pages
  refine (wp_interp ..).mpr (wp_mono ?_ (wp_simulates engine_simulates ⟨rfl, seps, tends⟩ holds))
  rintro result ⟨pages, heaps⟩ ⟨⟨_, world⟩, ⟨rfl, seps, tends⟩, unpinned, ended⟩
  exact ⟨unpinned, ended seps heaps tends⟩

end Simulation

end MyJQL.Engine
