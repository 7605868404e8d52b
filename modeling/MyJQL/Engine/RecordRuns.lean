import MyJQL.Engine.RecordSpec

/-!
# Comparators on the pages

The comparators run on the pages of `tbl_rec` and `tbl_str`, and are all the same
total order: that of the strings by character value.
-/

namespace MyJQL.Engine

open Library Library.Prog Storage Storage.Table Strings

/-- The page maps of `tbl_rec` and `tbl_str`. -/
abbrev TablesMaps : Type := TableMaps × TableMaps

/-- The page-map meaning of the calls on the two tables. -/
def tablesMeaning : Meaning TablesOp TablesMaps := callMeaning.sum callMeaning

/-- The pages hold the two heaps. -/
def HoldsHeaps (heaps : Heaps) (maps : TablesMaps) : Prop :=
  HoldsHeap heaps.1 maps.1 ∧ HoldsHeap heaps.2 maps.2

theorem tables_simulate (guard : ∀ β : Type, TableOp β → TableMaps → Prop)
    (guard' : ∀ β : Type, TableOp β → TableMaps → Prop)
    (guarded : ∀ {β : Type} (effect : TableOp β) (post : β → Heap → Prop) (heap : Heap)
      (maps : TableMaps), HoldsHeap heap maps → heapLogic.rule β effect post heap →
        guard β effect maps)
    (guarded' : ∀ {β : Type} (effect : TableOp β) (post : β → Heap → Prop) (heap : Heap)
      (maps : TableMaps), HoldsHeap heap maps → heapLogic.rule β effect post heap →
        guard' β effect maps) :
    Logic.Simulates tablesLogic (Logic.ofMeaning tablesMeaning (SumOp.Guard guard guard'))
      HoldsHeaps := by
  intro β effect post heaps maps related holds
  have parts := Logic.Simulates.sum (heap_simulates_pages guard guarded)
    (heap_simulates_pages guard' guarded') effect post heaps maps related holds
  have whole := Logic.sum_ofMeaning callMeaning callMeaning guard guard' effect _ maps maps rfl parts
  refine Logic.mono _ ?_ whole
  rintro result after ⟨middle, rfl, final, finalRelated, ended⟩
  exact ⟨final, finalRelated, ended⟩

section Pages

variable {heaps : Heaps} {maps : TablesMaps}

/-- A weakest precondition over the two heaps gives a run on the pages. -/
theorem run_of_wp_tables {α : Type} {program : TablesProg α} {post : α → Heaps → Prop}
    (related : HoldsHeaps heaps maps) (holds : program.wp tablesLogic post heaps) :
    ∃ value after, program.run tablesMeaning maps = some (value, after) ∧
      ∃ heaps', HoldsHeaps heaps' after ∧ post value heaps' := by
  have pages := wp_simulates (tables_simulate (fun _ _ _ => True) (fun _ _ _ => True)
    (fun _ _ _ _ _ _ => trivial) (fun _ _ _ _ _ _ => trivial)) related holds
  exact (run_of_wp pages).1

/-- A call that returns a value and leaves the heaps as they are. -/
theorem run_of_wp_reading {α : Type} {program : TablesProg α} {value : α}
    (related : HoldsHeaps heaps maps)
    (holds : program.wp tablesLogic (fun result after => result = value ∧ after = heaps) heaps) :
    ∃ after, program.run tablesMeaning maps = some (value, after) ∧ HoldsHeaps heaps after := by
  obtain ⟨result, after, ran, final, finalHolds, rfl, rfl⟩ := run_of_wp_tables related holds
  exact ⟨after, ran, finalHolds⟩

end Pages

/-- `compare_string_record` on two strings that have just been read. -/
def compareStrings (key1 key2 : RID) : ItemProg Int := do
  let record1 ← readString key1
  let record2 ← readString key2
  compareStringRecord record1 record2

theorem wp_compareStrings {heap : Heap} {post : Int → Heap → Prop} {key1 key2 : RID}
    {s t : List UInt8} {chunks1 chunks2 : List Chunk} (string1 : StringAt heap key1 s chunks1)
    (string2 : StringAt heap key2 t chunks2) (nonempty1 : s ≠ []) (nonempty2 : t ≠ [])
    (ended : post (signOf (keyOf s) (keyOf t)) heap) :
    (compareStrings key1 key2).wp heapLogic post heap := by
  unfold compareStrings
  simp only [wp_bind]
  refine wp_readString string1 nonempty1 fun record1 size1 sized1 proper1 cursor1 => ?_
  refine wp_readString string2 nonempty2 fun record2 size2 sized2 proper2 cursor2 => ?_
  exact wp_compareStringRecord string1 cursor1 cursor2 sized1 proper1 sized2 proper2 ended

/-! ## Strings stored by `write_string` -/

theorem run_writeRecord {heap : Heap} {maps : TableMaps} (related : HoldsHeap heap maps)
    (key value : RID) : ∃ rid after, heap rid = none ∧
      (writeRecord (Record.make key value)).run callMeaning maps = some (rid, after) ∧
      HoldsHeap (Function.update heap rid (some (Record.make key value))) after := by
  have spec : (writeRecord (Record.make key value)).wp heapLogic (fun rid final => heap rid = none ∧
      final = Function.update heap rid (some (Record.make key value))) heap :=
    wp_writeRecord fun rid fresh _ _ => ⟨fresh, rfl⟩
  obtain ⟨rid, after, ran, final, afterHolds, fresh, rfl⟩ := run_of_wp_heap related spec
  exact ⟨rid, after, fresh, ran, afterHolds⟩

/-- A chain that was there before others were added is still there. -/
theorem StringAt.of_added {heap heap' : Heap} {rid : RID} {text : List UInt8}
    {chunks others : List Chunk} (string : StringAt heap rid text chunks)
    (added : Added heap heap' (rids others)) : StringAt heap' rid text chunks := by
  refine string.congr fun other member => added.2 other fun new => ?_
  exact string.live member (added.1 other new)

/-! ## A total order -/

section Order

variable {K : Type} [LinearOrder K] (a b c : K)

theorem signOf_eq_zero_iff : signOf a b = 0 ↔ a = b := by
  unfold signOf
  rcases lt_trichotomy a b with less | rfl | greater
  · rw [if_pos less]
    exact iff_of_false (by decide) less.ne
  · rw [if_neg (lt_irrefl a), if_neg (lt_irrefl a)]
    exact iff_of_true rfl rfl
  · rw [if_neg (not_lt_of_gt greater), if_pos greater]
    exact iff_of_false (by decide) greater.ne'

theorem signOf_neg_iff : signOf a b < 0 ↔ a < b := by
  unfold signOf
  by_cases less : a < b
  · rw [if_pos less]
    exact iff_of_true (by decide) less
  · rw [if_neg less]
    refine iff_of_false ?_ less
    split <;> decide

theorem signOf_swap : signOf b a = -signOf a b := by
  unfold signOf
  rcases lt_trichotomy a b with less | rfl | greater
  · rw [if_neg (not_lt_of_gt less), if_pos less, if_pos less]
    rfl
  · rw [if_neg (lt_irrefl a), if_neg (lt_irrefl a)]
    rfl
  · rw [if_pos greater, if_neg (not_lt_of_gt greater), if_pos greater]

theorem signOf_le_zero_iff : signOf a b ≤ 0 ↔ a ≤ b := by
  have swapped := signOf_neg_iff b a
  rw [signOf_swap a b] at swapped
  rw [← not_lt, ← not_lt, ← swapped]
  omega

end Order

/--
The three comparators are one total order. For records whose keys are stored as
chains, each returns the sign of the comparison of the two strings by character value,
a proper prefix being smaller; that sign is zero exactly for equal strings, antisymmetric
and transitive.
-/
theorem comparators_are_one_order {heaps : Heaps} {maps : TablesMaps} {rid1 rid2 key1 key2 value1
    value2 : RID} {s t : List UInt8} {chunks1 chunks2 : List Chunk}
    (related : HoldsHeaps heaps maps) (nonempty1 : s ≠ []) (nonempty2 : t ≠ [])
    (live1 : heaps.1 rid1 = some (Record.make key1 value1))
    (live2 : heaps.1 rid2 = some (Record.make key2 value2))
    (string1 : StringAt heaps.2 key1 s chunks1) (string2 : StringAt heaps.2 key2 t chunks2) :
    (∃ after, (rowRowCmp rid1 rid2).run tablesMeaning maps =
      some (signOf (keyOf s) (keyOf t), after) ∧ HoldsHeaps heaps after) ∧
    (∃ after, (onStr (compareStrings key1 key2)).run tablesMeaning maps =
      some (signOf (keyOf s) (keyOf t), after) ∧ HoldsHeaps heaps after) ∧
    (∃ after, (ptrRowCmp s rid2).run tablesMeaning maps =
      some (signOf (keyOf s) (keyOf t), after) ∧ HoldsHeaps heaps after) ∧
    (signOf (keyOf s) (keyOf t) = 0 ↔ s = t) ∧
    signOf (keyOf t) (keyOf s) = -signOf (keyOf s) (keyOf t) ∧
    ∀ u : List UInt8, signOf (keyOf s) (keyOf t) ≤ 0 → signOf (keyOf t) (keyOf u) ≤ 0 →
      signOf (keyOf s) (keyOf u) ≤ 0 := by
  have keyAt1 : KeyAt heaps rid1 s := ⟨nonempty1, key1, value1, chunks1, live1, string1⟩
  have keyAt2 : KeyAt heaps rid2 t := ⟨nonempty2, key2, value2, chunks2, live2, string2⟩
  refine ⟨?_, ?_, ?_, ?_, signOf_swap _ _, ?_⟩
  · exact run_of_wp_reading related (wp_rowRowCmp keyAt1 keyAt2 ⟨rfl, rfl⟩)
  · apply run_of_wp_reading related
    unfold onStr tablesLogic
    rw [wp_onRight]
    exact wp_compareStrings string1 string2 nonempty1 nonempty2 ⟨rfl, rfl⟩
  · exact run_of_wp_reading related (wp_ptrRowCmp keyAt2 ⟨rfl, rfl⟩)
  · rw [signOf_eq_zero_iff]
    exact keyOf_injective.eq_iff
  · intro u first second
    rw [signOf_le_zero_iff] at *
    exact first.trans second

/-- A string that ends with its second chunk, and one that goes on in a third, as the keys of two records. -/
theorem comparators_order_prefix : ∃ maps rid1 rid2 key1 key2 after,
    (rowRowCmp rid1 rid2).run tablesMeaning maps = some (-1, after) ∧
    (∃ after', (onStr (compareStrings key1 key2)).run tablesMeaning maps = some (-1, after')) ∧
    ∃ after', (ptrRowCmp (longText.take 40) rid2).run tablesMeaning maps = some (-1, after') := by
  obtain ⟨initial, -, holds⟩ := run_tableInit
  have related : HoldsHeap (fun _ => none) initial := ⟨_, holds, heapOf_nil⟩
  obtain ⟨key1, strMaps1, strs1, chunks1, -, strHolds1, string1, -⟩ :=
    @run_writeString _ _ (longText.take 40) related (by decide) (by decide)
  obtain ⟨key2, strMaps2, strs2, chunks2, -, strHolds2, string2, added⟩ :=
    @run_writeString _ _ longText strHolds1 (by decide) (by decide)
  obtain ⟨rid1, recMaps1, -, -, recHolds1⟩ := run_writeRecord related key1 nullRid
  obtain ⟨rid2, recMaps2, fresh, -, recHolds2⟩ := run_writeRecord recHolds1 key2 nullRid
  have different : rid1 ≠ rid2 := by
    rintro rfl
    rw [Function.update_self] at fresh
    cases fresh
  have both : HoldsHeaps (Function.update (Function.update (fun _ => none) rid1
      (some (Record.make key1 nullRid))) rid2 (some (Record.make key2 nullRid)), strs2)
      (recMaps2, strMaps2) := ⟨recHolds2, strHolds2⟩
  obtain ⟨⟨after, rowRow, -⟩, ⟨after', strings, -⟩, ⟨after'', ptrRow, -⟩, -⟩ :=
    comparators_are_one_order both (by decide) (by decide)
      ((Function.update_of_ne different _ _).trans (Function.update_self ..))
      (Function.update_self ..) (StringAt.of_added string1 added) string2
  exact ⟨(recMaps2, strMaps2), rid1, rid2, key1, key2, after, rowRow, ⟨after', strings⟩, after'', ptrRow⟩

/-! ## Separator copies -/

/-- What `insert_handler` leaves behind: one new record, and new chunks for the copy of its key. -/
structure Copied (heaps heaps' : Heaps) (copyRid copy : RID) (text : List UInt8) (copies : List Chunk) :
    Prop where
  fresh : heaps.1 copyRid = none
  record : heaps'.1 copyRid = some (Record.make copy nullRid)
  key : StringAt heaps'.2 copy text copies
  chunks : ∀ rid ∈ rids copies, heaps.2 rid = none
  records : ∀ rid ≠ copyRid, heaps'.1 rid = heaps.1 rid
  strings : ∀ rid ∉ rids copies, heaps'.2 rid = heaps.2 rid

/-- Taking out the copy restores the heaps. -/
theorem Copied.wp_deleteHandler {heaps heaps' : Heaps} {copyRid copy : RID} {text : List UInt8}
    {copies : List Chunk} (copied : Copied heaps heaps' copyRid copy text copies) :
    (deleteHandler copyRid).wp tablesLogic (fun _ after => after = heaps) heaps' := by
  have noValue : StringAt heaps'.2 nullRid [] [] := ⟨trivial, rfl, rfl, List.nodup_nil⟩
  refine Engine.wp_deleteHandler copied.record copied.key noValue (fun _ member => absurd member List.not_mem_nil) ?_
  refine Prod.ext ?_ ?_
  · funext rid
    by_cases same : rid = copyRid
    · subst same
      exact (Function.update_self ..).trans copied.fresh.symm
    · exact (Function.update_of_ne same _ _).trans (copied.records rid same)
  · have nothing : without (without heaps'.2 (rids copies)) (rids []) = without heaps'.2 (rids copies) :=
      without_nil
    refine nothing.trans ?_
    funext rid
    by_cases member : rid ∈ rids copies
    · exact (if_pos member).trans (copied.chunks rid member).symm
    · exact (if_neg member).trans (copied.strings rid member)

/--
Separator copies are faithful and independent. `insert_handler` returns a new record without a
value, whose key chain spells the key in new chunks, and every item that was there is as it
was; `delete_handler` on the copy takes out that record and those chunks and nothing else.
-/
theorem separator_copies {heaps : Heaps} {maps : TablesMaps} {rid key value : RID} {text : List UInt8}
    {chunks : List Chunk} (related : HoldsHeaps heaps maps) (live : heaps.1 rid = some (Record.make key value))
    (string : StringAt heaps.2 key text chunks) (nonempty : text ≠ []) :
    ∃ copyRid after heaps' copy copies, (insertHandler rid).run tablesMeaning maps = some (copyRid, after) ∧
      HoldsHeaps heaps' after ∧ Copied heaps heaps' copyRid copy text copies ∧
      ∃ final, (deleteHandler copyRid).run tablesMeaning after = some ((), final) ∧ HoldsHeaps heaps final := by
  have spec : (insertHandler rid).wp tablesLogic
      (fun copyRid heaps' => ∃ copy copies, Copied heaps heaps' copyRid copy text copies) heaps := by
    refine wp_insertHandler live string nonempty fun copyRid copy copies strs fresh _ _ copied added => ?_
    exact ⟨copy, copies, fresh, Function.update_self .., copied, added.1,
      fun other different => Function.update_of_ne different _ _, fun other absent => added.2 other absent⟩
  obtain ⟨copyRid, after, ran, heaps', afterHolds, copy, copies, copied⟩ := run_of_wp_tables related spec
  obtain ⟨_, final, ranBack, restored, finalHolds, same⟩ := run_of_wp_tables afterHolds copied.wp_deleteHandler
  subst same
  exact ⟨copyRid, after, heaps', copy, copies, ran, afterHolds, copied, final, ranBack, finalHolds⟩

/-- The separator of a key of three chunks. -/
theorem separator_copies_three_chunks : ∃ heaps maps rid copyRid after heaps' copy copies, HoldsHeaps heaps maps ∧
    (insertHandler rid).run tablesMeaning maps = some (copyRid, after) ∧ HoldsHeaps heaps' after ∧
    Copied heaps heaps' copyRid copy longText copies ∧ 2 < copies.length ∧
    ∃ final, (deleteHandler copyRid).run tablesMeaning after = some ((), final) ∧ HoldsHeaps heaps final := by
  obtain ⟨initial, -, holds⟩ := run_tableInit
  have related : HoldsHeap (fun _ => none) initial := ⟨_, holds, heapOf_nil⟩
  obtain ⟨key, strMaps, strs, chunks, -, strHolds, string, -⟩ :=
    @run_writeString _ _ longText related (by decide) (by decide)
  obtain ⟨rid, recMaps, -, -, recHolds⟩ := run_writeRecord related key nullRid
  have both : HoldsHeaps (Function.update (fun _ => none) rid (some (Record.make key nullRid)), strs)
      (recMaps, strMaps) := ⟨recHolds, strHolds⟩
  have live : Function.update (fun _ => none : Heap) rid (some (Record.make key nullRid)) rid =
      some (Record.make key nullRid) := Function.update_self ..
  obtain ⟨copyRid, after, heaps', copy, copies, ran, afterHolds, copied, back⟩ :=
    separator_copies both live string (by decide)
  have many := copied.key.length_le_chunks
  have length : longText.length = 41 := by decide
  rw [length, strChunkMaxLen] at many
  exact ⟨_, (recMaps, strMaps), rid, copyRid, after, heaps', copy, copies, both, ran, afterHolds, copied, by omega, back⟩

end MyJQL.Engine
