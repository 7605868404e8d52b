import MyJQL.Engine.Memory

/-!
# Specifications of the engine

The index holds the rows, the tables hold the rows and the separators, and between the calls
of an operation there may be an entry that the index does not hold and strings that no record
names. Every call has one rule; the operations are put together from these.
-/

namespace MyJQL.Engine

open Library Library.Prog Storage Storage.Table Strings

/-- The index holds `rows`; the `spare` entries and the `texts` are in the tables only. -/
def Indexed (rows spare : Multiset Entry) (texts : Multiset Text) (state : EngineState) : Prop :=
  ∃ word world seps, Index.Stands degree word (⟨state.1, 0⟩, world) ∧ word.items = rows.map Entry.rid ∧
    Tends (spare + rows) seps texts (⟨state.1, 0⟩, world) state

section Rules

variable {rows rows' spare spare' : Multiset Entry} {texts texts' : Multiset Text} {entry : Entry} {text : Text}
  {state : EngineState} {map : PageMap Index.IndexPage} {heaps : Heaps} {key data : List UInt8} {value : RID}

/-! ## The index -/

/-- The row of a RID that the index holds; the pages of the index stay as they are. -/
theorem Indexed.serves_search {post : RID → EngineState → Prop} (indexed : Indexed rows spare texts state)
    (found : ∀ entry ∈ rows, entry.key.bytes = key → ∀ heaps, Indexed rows spare texts (state.1, heaps) →
      post entry.rid (state.1, heaps))
    (absent : (∀ entry ∈ rows, entry.key.bytes ≠ key) → ∀ heaps, Indexed rows spare texts (state.1, heaps) →
      post Index.failedRid (state.1, heaps)) :
    Serves (onIdx (Index.bTreeSearch degree key)) post state := by
  obtain ⟨word, world, seps, stands, items, tends⟩ := indexed
  refine serves_onIdx tends rfl (Index.wp_bTreeSearch stands fun result answers => ⟨rfl, fun seps' heaps' tends' => ?_⟩)
  have indexed' : Indexed rows spare texts (state.1, heaps') := ⟨word, world, seps', stands, items, tends'⟩
  have keys : ∀ entry ∈ rows, world.key entry.rid = keyOf entry.key.bytes := fun entry member =>
    tends.keys entry (Multiset.mem_add.mpr (.inl (Multiset.mem_add.mpr (.inr member))))
  rw [items] at answers
  rcases answers with ⟨member, same⟩ | ⟨missing, rfl⟩
  · obtain ⟨entry, here, rfl⟩ := Multiset.mem_map.mp member
    rw [keys entry here] at same
    exact found entry here (keyOf_injective same) _ indexed'
  · refine absent (fun entry here same => ?_) _ indexed'
    refine missing entry.rid (Multiset.mem_map_of_mem _ here) ?_
    rw [keys entry here, same]

theorem Indexed.serves_insert {post : RID → EngineState → Prop} (indexed : Indexed rows (entry ::ₘ spare) texts state)
    (absent : ∀ row ∈ rows, row.key.bytes ≠ entry.key.bytes)
    (ended : ∀ state', Indexed (entry ::ₘ rows) spare texts state' → post entry.rid state') :
    Serves (onIdx (Index.bTreeInsert degree entry.rid)) post state := by
  obtain ⟨word, world, seps, stands, items, tends⟩ := indexed
  have here : entry ∈ entry ::ₘ spare + rows := Multiset.mem_add.mpr (.inl (Multiset.mem_cons_self _ _))
  have held : entry.rid ∈ world.held := (tends.held _).mpr (Multiset.mem_map_of_mem _ here)
  have keys : ∀ other ∈ entry ::ₘ spare + rows, world.key other.rid = keyOf other.key.bytes := fun other member =>
    tends.keys other (Multiset.mem_add.mpr (.inl member))
  refine serves_onIdx tends rfl (Index.wp_bTreeInsert (by decide) stands held ?_ ?_)
  · rw [items]
    intro row member same
    obtain ⟨other, old, rfl⟩ := Multiset.mem_map.mp member
    rw [keys other (Multiset.mem_add.mpr (.inr old)), keys entry here] at same
    exact absent other old (keyOf_injective same)
  · rintro word' ⟨⟨map, pins⟩, world'⟩ items' stands' -
    obtain rfl : pins = 0 := stands'.pins
    refine ⟨rfl, fun seps' heaps' tends' => ?_⟩
    rw [Multiset.cons_add, ← Multiset.add_cons] at tends'
    refine ended _ ⟨word', world', seps', stands', ?_, tends'⟩
    rw [items', items, Multiset.map_cons]

/-- The rows have different keys. -/
theorem Indexed.distinct (indexed : Indexed rows spare texts state) :
    (rows.map fun row => row.key.bytes).Nodup := by
  obtain ⟨word, world, seps, stands, items, tends⟩ := indexed
  have keys := stands.sound.sorted.nodup_keys
  rw [items, Multiset.map_map] at keys
  have same : rows.map (world.key ∘ Entry.rid) = rows.map (keyOf ∘ fun row => row.key.bytes) :=
    Multiset.map_congr rfl fun row member =>
      tends.keys row (Multiset.mem_add.mpr (.inl (Multiset.mem_add.mpr (.inr member))))
  refine Multiset.Nodup.of_map keyOf ?_
  rw [Multiset.map_map, ← same]
  exact keys

theorem Indexed.serves_delete {post : Unit → EngineState → Prop} (indexed : Indexed (entry ::ₘ rows) spare texts state)
    (ended : ∀ state', Indexed rows (entry ::ₘ spare) texts state' → post () state') :
    Serves (onIdx (Index.bTreeDelete degree entry.rid)) post state := by
  obtain ⟨word, world, seps, stands, items, tends⟩ := indexed
  have here : entry ∈ spare + entry ::ₘ rows := Multiset.mem_add.mpr (.inr (Multiset.mem_cons_self _ _))
  have held : entry.rid ∈ world.held := (tends.held _).mpr (Multiset.mem_map_of_mem _ here)
  have present : entry.rid ∈ word.items := by
    rw [items, Multiset.map_cons]
    exact Multiset.mem_cons_self _ _
  refine serves_onIdx tends rfl (Index.wp_bTreeDelete (by decide) stands held present rfl ?_)
  rintro word' ⟨⟨map, pins⟩, world'⟩ ⟨row, same, loses⟩ stands' -
  obtain rfl : pins = 0 := stands'.pins
  refine ⟨rfl, fun seps' heaps' tends' => ?_⟩
  have old : row ∈ word.items := by
    rw [loses]
    exact Multiset.mem_cons_self _ _
  obtain rfl : row = entry.rid :=
    Multiset.inj_on_of_nodup_map stands.sound.sorted.nodup_keys row old entry.rid present same
  rw [Multiset.add_cons, ← Multiset.cons_add] at tends'
  refine ended _ ⟨word', world', seps', stands', ?_, tends'⟩
  rw [items, Multiset.map_cons] at loses
  exact ((Multiset.cons_inj_right _).mp loses).symm

/-! ## The tables -/

theorem serves_onTblRec {α : Type} {program : ItemProg α} {post : α → EngineState → Prop}
    (holds : program.wp heapLogic (fun result heap => post result (map, heap, heaps.2)) heaps.1) :
    Serves (onTblRec program) post (map, heaps) := by
  unfold Serves onTblRec onRec pinnedEngineLogic tablesLogic
  rw [wp_onRight, wp_onLeft]
  exact wp_mono (fun result heap ended => ⟨rfl, ended⟩) holds

theorem serves_onTblStr {α : Type} {program : ItemProg α} {post : α → EngineState → Prop}
    (holds : program.wp heapLogic (fun result heap => post result (map, heaps.1, heap)) heaps.2) :
    Serves (onTblStr program) post (map, heaps) := by
  unfold Serves onTblStr onStr pinnedEngineLogic tablesLogic
  rw [wp_onRight, wp_onRight]
  exact wp_mono (fun result heap ended => ⟨rfl, ended⟩) holds

/-- The tables change, and not their entries. -/
theorem Indexed.remember {heaps' : Heaps} (indexed : Indexed rows spare texts (map, heaps))
    (memory : ∀ entries, Memory entries texts heaps → Memory entries texts' heaps') :
    Indexed rows spare texts' (map, heaps') := by
  obtain ⟨word, world, seps, stands, items, tends⟩ := indexed
  exact ⟨word, world, seps, stands, items, tends.pages, tends.held, tends.owed, tends.valueless, tends.keys,
    memory _ tends.memory⟩

theorem Indexed.entryAt (indexed : Indexed rows spare texts (map, heaps)) (member : entry ∈ spare + rows) :
    entry.At heaps.1 := by
  obtain ⟨word, world, seps, stands, items, tends⟩ := indexed
  exact tends.memory.placed entry (Multiset.mem_add.mpr (.inl member))

theorem Indexed.textAt (indexed : Indexed rows spare texts (map, heaps)) (member : text ∈ texts) : text.At heaps.2 := by
  obtain ⟨word, world, seps, stands, items, tends⟩ := indexed
  exact tends.memory.textAt member

theorem Indexed.serves_write {post : RID → EngineState → Prop} (indexed : Indexed rows spare texts state)
    (nonempty : 1 ≤ data.length) (small : data.length ≤ 655360)
    (ended : ∀ text state', text.bytes = data → Indexed rows spare (text ::ₘ texts) state' → post text.rid state') :
    Serves (onTblStr (writeString data data.length)) post state := by
  refine serves_onTblStr (wp_writeString nonempty small fun rid chunks strs string added => ?_)
  exact ended ⟨rid, data, chunks⟩ _ rfl (indexed.remember fun entries memory => memory.write _ string added)

theorem Indexed.serves_erase {post : Unit → EngineState → Prop} (indexed : Indexed rows spare (text ::ₘ texts) state)
    (ended : ∀ state', Indexed rows spare texts state' → post () state') :
    Serves (onTblStr (deleteString text.rid)) post state := by
  refine serves_onTblStr (wp_deleteString (indexed.textAt (Multiset.mem_cons_self _ _)) ?_)
  exact ended _ (indexed.remember fun entries memory => memory.erase)

theorem Indexed.serves_readRecord {post : Record → EngineState → Prop} (indexed : Indexed rows spare texts state)
    (member : entry ∈ spare + rows) (ended : post (Record.make entry.key.rid entry.value) state) :
    Serves (onTblRec (readRecord entry.rid)) post state :=
  serves_onTblRec (Engine.wp_readRecord (indexed.entryAt member).record ended)

/-- A record with a string for its key is written; the index does not hold it yet. -/
theorem Indexed.serves_enter {post : RID → EngineState → Prop} (indexed : Indexed rows spare (text ::ₘ texts) state)
    (nonempty : text.bytes ≠ [])
    (ended : ∀ entry state', entry.key = text → entry.value = value → 0 ≤ entry.rid.blockAddr →
      Indexed rows (entry ::ₘ spare) texts state' → post entry.rid state') :
    Serves (onTblRec (writeRecord (Record.make text.rid value))) post state := by
  refine serves_onTblRec (Engine.wp_writeRecord fun rid fresh addr _ => ?_)
  refine ended ⟨rid, text, value⟩ _ rfl rfl addr ?_
  obtain ⟨word, world, seps, stands, items, tends⟩ := indexed
  have apart : ∀ other ∈ spare + rows + seps, other.rid ≠ rid := fun other here => tends.memory.fresh_ne fresh here
  have memory := tends.memory.enter nonempty fresh value
  refine ⟨word, ⟨Function.update world.key rid (keyOf text.bytes), {other | other = rid ∨ other ∈ world.held}, world.owed⟩,
    seps, ?_, items, tends.pages, ?_, tends.owed, tends.valueless, ?_, ?_⟩
  · refine stands.congr ?_ ?_ rfl
    · intro mark member
      obtain ⟨other, here, same⟩ := tends.known (stands.sound.knows member)
      rw [← same]
      exact Function.update_of_ne (apart other here) _ _
    · exact fun row member => .inr (stands.sound.held row member)
  · intro other
    rw [Multiset.cons_add, Multiset.map_cons, Multiset.mem_cons]
    exact or_congr_right (tends.held other)
  · intro other here
    rw [Multiset.cons_add, Multiset.cons_add, Multiset.mem_cons] at here
    rcases here with rfl | old
    · exact Function.update_self ..
    · exact (Function.update_of_ne (apart other old) _ _).trans (tends.keys other old)
  · rw [Multiset.cons_add, Multiset.cons_add]
    exact memory

/-- A record that the index does not hold is deleted, and not its key. -/
theorem Indexed.leave (indexed : Indexed rows (entry ::ₘ spare) texts (map, heaps)) :
    Indexed rows spare (entry.key ::ₘ texts) (map, Function.update heaps.1 entry.rid none, heaps.2) := by
  obtain ⟨word, world, seps, stands, items, tends⟩ := indexed
  have memory := tends.memory
  rw [Multiset.cons_add, Multiset.cons_add] at memory
  have once := memory.records.once
  rw [Multiset.map_cons, Multiset.nodup_cons] at once
  have apart : ∀ rid ∈ (spare + rows).map Entry.rid, rid ≠ entry.rid := by
    rintro rid member rfl
    refine once.1 ?_
    rw [Multiset.map_add]
    exact Multiset.mem_add.mpr (.inl member)
  refine ⟨word, ⟨world.key, {other | other ≠ entry.rid ∧ other ∈ world.held}, world.owed⟩, seps, ?_, items, tends.pages,
    ?_, tends.owed, tends.valueless, ?_, memory.leave⟩
  · refine stands.congr (fun _ _ => rfl) (fun row member => ⟨?_, stands.sound.held row member⟩) rfl
    refine apart row ?_
    rw [items] at member
    rw [Multiset.map_add]
    exact Multiset.mem_add.mpr (.inr member)
  · intro other
    have old := tends.held other
    rw [Multiset.cons_add, Multiset.map_cons, Multiset.mem_cons] at old
    constructor
    · exact fun ⟨different, held⟩ => (old.mp held).resolve_left different
    · exact fun member => ⟨apart other member, old.mpr (.inr member)⟩
  · intro other here
    refine tends.keys other ?_
    rw [Multiset.cons_add, Multiset.cons_add]
    exact Multiset.mem_cons_of_mem here

theorem Indexed.serves_leave {post : Unit → EngineState → Prop} (indexed : Indexed rows (entry ::ₘ spare) texts state)
    (ended : ∀ state', Indexed rows spare (entry.key ::ₘ texts) state' → post () state') :
    Serves (onTblRec (deleteRecord entry.rid)) post state := by
  have member : entry ∈ entry ::ₘ spare + rows := Multiset.mem_add.mpr (.inl (Multiset.mem_cons_self _ _))
  refine serves_onTblRec (heapRule_delete ?_ (ended _ indexed.leave))
  rw [(indexed.entryAt member).record]
  exact Option.some_ne_none _

/-- The rest of `myjql_del`: a record that the index does not hold is deleted with its strings. -/
theorem Indexed.serves_drop {post : Unit → EngineState → Prop}
    (indexed : Indexed rows (entry ::ₘ spare) (text ::ₘ texts) state) (linked : entry.value = text.rid)
    (ended : ∀ state', Indexed rows spare texts state' → post () state') :
    Serves (do
      let tableRecord ← onTblRec (readRecord entry.rid)
      let keyRid ← ofOption (Record.key tableRecord)
      onTblStr (deleteString keyRid)
      let valueRid ← ofOption (Record.value tableRecord)
      onTblStr (deleteString valueRid)
      onTblRec (deleteRecord entry.rid) : EngineProg Unit) post state := by
  obtain ⟨map, heaps⟩ := state
  have member : entry ∈ entry ::ₘ spare + rows := Multiset.mem_add.mpr (.inl (Multiset.mem_cons_self _ _))
  have dropped := indexed.leave
  have erased := dropped.remember fun entries memory => memory.erase
  have whole := erased.remember fun entries memory => memory.erase
  have key := dropped.textAt (Multiset.mem_cons_self _ _)
  have value := erased.textAt (Multiset.mem_cons_self _ _)
  refine .bind (indexed.serves_readRecord member ?_)
  rw [Record.key_make, Record.value_make]
  refine .bind (serves_some (.bind (serves_onTblStr (wp_deleteString key ?_))))
  rw [linked]
  refine .bind (serves_some (.bind (serves_onTblStr (wp_deleteString value ?_))))
  refine serves_onTblRec (heapRule_delete ?_ (ended _ whole))
  rw [(indexed.entryAt member).record]
  exact Option.some_ne_none _

end Rules

/-! ## What is stored -/

/-- A stored pair: the record of the key, and the string of the value. -/
structure Stored where
  entry : Entry
  data : Text
  linked : entry.value = data.rid
  proper : 0 ≤ entry.rid.blockAddr
  nonempty : data.bytes ≠ []
  small : data.bytes.length ≤ 655360

namespace Stored

def key (pair : Stored) : List UInt8 := pair.entry.key.bytes

def value (pair : Stored) : List UInt8 := pair.data.bytes

end Stored

/-- The pairs of a map from keys to values. -/
def Contains (contents : List UInt8 → Option (List UInt8)) (stored : Multiset Stored) : Prop :=
  ∀ key value, contents key = some value ↔ ∃ pair ∈ stored, pair.key = key ∧ pair.value = value

section Contents

variable {contents : List UInt8 → Option (List UInt8)} {stored : Multiset Stored} {pair : Stored} {key : List UInt8}

theorem Contains.of_mem (contains : Contains contents stored) (member : pair ∈ stored) :
    contents pair.key = some pair.value := (contains _ _).mpr ⟨pair, member, rfl, rfl⟩

theorem Contains.none (contains : Contains contents stored) (absent : ∀ pair ∈ stored, pair.key ≠ key) :
    contents key = none := by
  rw [Option.eq_none_iff_forall_ne_some]
  intro value bound
  obtain ⟨pair, member, same, -⟩ := (contains key value).mp bound
  exact absent pair member same

theorem Contains.insert (contains : Contains contents stored) (absent : ∀ other ∈ stored, other.key ≠ pair.key) :
    Contains (Function.update contents pair.key (some pair.value)) (pair ::ₘ stored) := by
  intro key value
  simp only [Multiset.mem_cons, exists_eq_or_imp]
  by_cases same : key = pair.key
  · subst same
    rw [Function.update_self, Option.some.injEq]
    constructor
    · exact fun bound => .inl ⟨rfl, bound⟩
    · rintro (⟨-, bound⟩ | ⟨other, member, same, -⟩)
      · exact bound
      · exact absurd same (absent other member)
  · rw [Function.update_of_ne same, contains key value]
    constructor
    · exact .inr
    · rintro (⟨same', -⟩ | found)
      · exact absurd same'.symm same
      · exact found

theorem Contains.remove (contains : Contains contents (pair ::ₘ stored)) (absent : ∀ other ∈ stored, other.key ≠ pair.key) :
    Contains (Function.update contents pair.key .none) stored := by
  intro key value
  by_cases same : key = pair.key
  · subst same
    rw [Function.update_self]
    constructor
    · exact fun bound => nomatch bound
    · rintro ⟨other, member, same, -⟩
      exact absurd same (absent other member)
  · rw [Function.update_of_ne same, contains key value]
    simp only [Multiset.mem_cons, exists_eq_or_imp]
    constructor
    · rintro (⟨same', -⟩ | found)
      · exact absurd same'.symm same
      · exact found
    · exact .inr

end Contents

/-- The pairs are in the index and in the tables, and nothing else is. -/
def Keeps (stored : Multiset Stored) (state : EngineState) : Prop :=
  Indexed (stored.map Stored.entry) 0 (stored.map Stored.data) state

/-- The engine between two calls. -/
def EngineHolds (contents : List UInt8 → Option (List UInt8)) (state : EngineState) : Prop :=
  ∃ stored, Keeps stored state ∧ Contains contents stored

section Operations

variable {contents : List UInt8 → Option (List UInt8)} {stored : Multiset Stored} {pair : Stored} {state : EngineState}
  {key value : List UInt8}

theorem Keeps.distinct (keeps : Keeps stored state) : (stored.map Stored.key).Nodup := by
  have distinct := Indexed.distinct keeps
  rw [Multiset.map_map] at distinct
  exact distinct

theorem Keeps.others (keeps : Keeps (pair ::ₘ stored) state) : ∀ other ∈ stored, other.key ≠ pair.key := by
  have distinct := keeps.distinct
  rw [Multiset.map_cons, Multiset.nodup_cons] at distinct
  intro other member same
  exact distinct.1 (same ▸ Multiset.mem_map_of_mem _ member)

/-- The pair that a search finds stands first. -/
theorem Keeps.serves_search {post : RID → EngineState → Prop} (keeps : Keeps stored state)
    (found : ∀ pair rest, stored = pair ::ₘ rest → pair.key = key → ∀ heaps, Keeps (pair ::ₘ rest) (state.1, heaps) →
      post pair.entry.rid (state.1, heaps))
    (absent : (∀ pair ∈ stored, pair.key ≠ key) → ∀ heaps, Keeps stored (state.1, heaps) →
      post Index.failedRid (state.1, heaps)) :
    Serves (onIdx (Index.bTreeSearch degree key)) post state := by
  refine Indexed.serves_search keeps ?_ ?_
  · intro entry member same heaps keeps'
    obtain ⟨pair, here, rfl⟩ := Multiset.mem_map.mp member
    obtain ⟨rest, rfl⟩ := Multiset.exists_cons_of_mem here
    exact found pair rest rfl same heaps keeps'
  · exact fun missing => absent fun pair member => missing pair.entry (Multiset.mem_map_of_mem _ member)

/-- A RID that is stored is not that of a failed search. -/
theorem Stored.found (pair : Stored) : ¬ (pair.entry.rid.blockAddr = -1 ∧ pair.entry.rid.idx = 0) := by
  have proper := pair.proper
  omega

/-- What `myjql_get` returns and writes. -/
def reply : Option (List UInt8) → Nat → Nat × List UInt8
  | none, _ => (noSize, [])
  | some value, maxSize => (min value.length maxSize, loaded value maxSize)

theorem serves_myjqlGet {post : Nat × List UInt8 → EngineState → Prop} {maxSize : Nat} (holds : EngineHolds contents state)
    (ended : ∀ heaps, EngineHolds contents (state.1, heaps) → post (reply (contents key) maxSize) (state.1, heaps)) :
    Serves (myjqlGet key maxSize) post state := by
  obtain ⟨stored, keeps, contains⟩ := holds
  unfold myjqlGet
  refine .bind (keeps.serves_search ?_ ?_)
  · rintro pair rest rfl rfl heaps keeps'
    have result : reply (contents pair.key) maxSize = (min pair.value.length maxSize, loaded pair.value maxSize) := by
      rw [contains.of_mem (Multiset.mem_cons_self _ _)]
      rfl
    have member : pair.entry ∈ 0 + (pair ::ₘ rest).map Stored.entry := by
      rw [zero_add]
      exact Multiset.mem_map_of_mem _ (Multiset.mem_cons_self _ _)
    have string : pair.data.At heaps.2 := Indexed.textAt keeps' (Multiset.mem_map_of_mem _ (Multiset.mem_cons_self _ _))
    rw [if_neg pair.found]
    refine .bind (Indexed.serves_readRecord keeps' member ?_)
    rw [Record.value_make, pair.linked]
    refine .bind (serves_some (.bind (serves_onTblStr (wp_readString string pair.nonempty fun record _ _ _ cursor => ?_))))
    refine serves_onTblStr (wp_loadString maxSize string cursor ?_)
    rw [result] at ended
    exact ended _ ⟨_, keeps', contains⟩
  · intro absent heaps keeps'
    rw [contains.none absent] at ended
    rw [if_pos ⟨rfl, rfl⟩]
    exact serves_pure (ended heaps ⟨stored, keeps', contains⟩)

theorem Keeps.serves_insertKey {post : Unit → EngineState → Prop} (keeps : Keeps stored state)
    (absent : ∀ pair ∈ stored, pair.key ≠ key) (keyBounds : 1 ≤ key.length ∧ key.length ≤ 655360)
    (valueBounds : 1 ≤ value.length ∧ value.length ≤ 655360)
    (ended : ∀ pair state', pair.key = key → pair.value = value → Keeps (pair ::ₘ stored) state' → post () state') :
    Serves (insertKey key value) post state := by
  unfold insertKey
  refine .bind (Indexed.serves_write keeps keyBounds.1 keyBounds.2 fun keyText state1 keyBytes indexed1 => ?_)
  refine .bind (indexed1.serves_write valueBounds.1 valueBounds.2 fun valueText state2 valueBytes indexed2 => ?_)
  rw [Multiset.cons_swap] at indexed2
  have keyNonempty : keyText.bytes ≠ [] := keyBytes ▸ List.ne_nil_of_length_pos keyBounds.1
  have valueNonempty : valueText.bytes ≠ [] := valueBytes ▸ List.ne_nil_of_length_pos valueBounds.1
  refine .bind (indexed2.serves_enter keyNonempty ?_)
  rintro entry state3 rfl linked proper indexed3
  refine .bind (indexed3.serves_insert ?_ ?_)
  · intro row member same
    obtain ⟨pair, here, rfl⟩ := Multiset.mem_map.mp member
    exact absent pair here (same.trans keyBytes)
  · intro state4 indexed4
    refine serves_pure (ended ⟨entry, valueText, linked, proper, valueNonempty, valueBytes ▸ valueBounds.2⟩ state4 keyBytes
      valueBytes ?_)
    unfold Keeps
    rw [Multiset.map_cons, Multiset.map_cons]
    exact indexed4

/-- The key string of the pair stays; its record and its value are replaced. -/
theorem Keeps.serves_updateKey {post : Unit → EngineState → Prop} (keeps : Keeps (pair ::ₘ stored) state)
    (bounds : 1 ≤ value.length ∧ value.length ≤ 655360)
    (ended : ∀ pair' state', pair'.key = pair.key → pair'.value = value → Keeps (pair' ::ₘ stored) state' →
      post () state') :
    Serves (updateKey pair.entry.rid value) post state := by
  have others := keeps.others
  unfold Keeps at keeps
  rw [Multiset.map_cons, Multiset.map_cons] at keeps
  have member : pair.entry ∈ 0 + pair.entry ::ₘ stored.map Stored.entry :=
    Multiset.mem_add.mpr (.inr (Multiset.mem_cons_self _ _))
  have keyNonempty : pair.entry.key.bytes ≠ [] := (keeps.entryAt member).nonempty
  unfold updateKey
  refine .bind (keeps.serves_readRecord member ?_)
  rw [Record.value_make, pair.linked]
  refine .bind (serves_some (.bind (keeps.serves_erase fun state1 indexed1 => ?_)))
  refine .bind (indexed1.serves_write bounds.1 bounds.2 fun valueText state2 valueBytes indexed2 => ?_)
  have valueNonempty : valueText.bytes ≠ [] := valueBytes ▸ List.ne_nil_of_length_pos bounds.1
  refine .bind (indexed2.serves_delete fun state3 indexed3 => ?_)
  refine .bind (indexed3.serves_leave fun state4 indexed4 => ?_)
  rw [Record.setValue_make]
  refine .bind (indexed4.serves_enter keyNonempty ?_)
  rintro entry state5 sameKey linked proper indexed5
  refine .bind (indexed5.serves_insert ?_ ?_)
  · intro row here same
    obtain ⟨other, old, rfl⟩ := Multiset.mem_map.mp here
    rw [sameKey] at same
    exact others other old same
  · intro state6 indexed6
    refine serves_pure (ended ⟨entry, valueText, linked, proper, valueNonempty, valueBytes ▸ bounds.2⟩ state6
      (congrArg Text.bytes sameKey) valueBytes ?_)
    unfold Keeps
    rw [Multiset.map_cons, Multiset.map_cons]
    exact indexed6

theorem serves_myjqlSet {post : Unit → EngineState → Prop} (holds : EngineHolds contents state)
    (keyBounds : 1 ≤ key.length ∧ key.length ≤ 655360) (valueBounds : 1 ≤ value.length ∧ value.length ≤ 655360)
    (ended : ∀ state', EngineHolds (Function.update contents key (some value)) state' → post () state') :
    Serves (myjqlSet key value) post state := by
  obtain ⟨stored, keeps, contains⟩ := holds
  unfold myjqlSet
  refine .bind (keeps.serves_search ?_ ?_)
  · rintro pair rest rfl rfl state' keeps'
    rw [if_neg pair.found]
    refine keeps'.serves_updateKey valueBounds ?_
    rintro pair' state'' sameKey rfl keeps''
    have removed := contains.remove keeps'.others
    have inserted := removed.insert (sameKey ▸ keeps'.others)
    rw [sameKey, Function.update_idem] at inserted
    exact ended state'' ⟨_, keeps'', inserted⟩
  · intro absent state' keeps'
    rw [if_pos ⟨rfl, rfl⟩]
    refine keeps'.serves_insertKey absent keyBounds valueBounds ?_
    rintro pair state'' rfl rfl keeps''
    exact ended state'' ⟨_, keeps'', contains.insert absent⟩

theorem serves_myjqlDel {post : Unit → EngineState → Prop} (holds : EngineHolds contents state)
    (ended : ∀ state', EngineHolds (Function.update contents key none) state' → post () state') :
    Serves (myjqlDel key) post state := by
  obtain ⟨stored, keeps, contains⟩ := holds
  unfold myjqlDel
  refine .bind (keeps.serves_search ?_ ?_)
  · rintro pair rest rfl rfl state' keeps'
    have others := keeps'.others
    unfold Keeps at keeps'
    rw [Multiset.map_cons, Multiset.map_cons] at keeps'
    rw [if_neg pair.found]
    refine .bind (keeps'.serves_delete fun state1 indexed1 => ?_)
    exact indexed1.serves_drop pair.linked fun state2 indexed2 => ended state2 ⟨rest, indexed2, contains.remove others⟩
  · intro absent heaps keeps'
    have unchanged : Function.update contents key none = contents := by
      rw [← contains.none absent, Function.update_eq_self]
    rw [unchanged] at ended
    rw [if_pos ⟨rfl, rfl⟩]
    exact serves_pure (ended _ ⟨stored, keeps', contains⟩)

end Operations

end MyJQL.Engine
