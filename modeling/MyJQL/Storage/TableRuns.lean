import MyJQL.Storage.TableSpec

/-!
# Runs of a table

Calls on a table from `table_init` on empty files, the pools read as page maps.
Every state reached holds the heap of byte strings that the calls describe, with
the free-space map in step with the blocks.
-/

namespace MyJQL.Storage.Table

open Library Library.Prog HashMap Block

/--
The states that calls reach from `table_init` on empty files, with the heap that
the calls describe: an insertion binds the RID it returned, a deletion unbinds its
RID, a read binds nothing. Items have 1 to 118 bytes; only live RIDs are read or
deleted.
-/
inductive Reaches : TableMaps → Heap → Prop where
  | init {maps : TableMaps} (ran : tableInit.run tablePages noPages = some ((), maps)) :
      Reaches maps fun _ => none
  | insert {maps after : TableMaps} {heap : Heap} {src : List Cell} {rid : RID}
      (before : Reaches maps heap) (nonempty : 1 ≤ src.length) (small : src.length ≤ 118)
      (ran : (tableInsert src).run tablePages maps = some (rid, after)) :
      Reaches after (Function.update heap rid (some src))
  | read {maps after : TableMaps} {heap : Heap} {rid : RID} {content : List Cell}
      (before : Reaches maps heap) (live : heap rid ≠ none)
      (ran : (tableRead rid).run tablePages maps = some (content, after)) : Reaches after heap
  | delete {maps after : TableMaps} {heap : Heap} {rid : RID} (before : Reaches maps heap)
      (live : heap rid ≠ none) (ran : (tableDelete rid).run tablePages maps = some ((), after)) :
      Reaches after (Function.update heap rid none)

/-- A weakest precondition over the two page maps gives a run. -/
theorem run_of_wp_table {α : Type} {program : TableProg α} {post : α → TableMaps → Prop}
    {maps : TableMaps} (holds : program.wp tableLogic post maps) :
    ∃ value after, program.run tablePages maps = some (value, after) ∧ post value after := by
  obtain ⟨⟨value, after, ran, state, rfl, ended⟩, -⟩ :=
    run_of_wp (wp_simulates (Logic.sum_ofMeaning _ _ _ _) rfl holds)
  exact ⟨value, state, ran, ended⟩

section Calls

variable {maps : TableMaps} {items : Int → List Item} {rid : RID} {content src : List Cell}

theorem run_tableInit :
    ∃ maps, tableInit.run tablePages noPages = some ((), maps) ∧ TableHolds maps fun _ => [] := by
  have spec : tableInit.wp tableLogic (fun _ maps => TableHolds maps fun _ => []) noPages :=
    wp_tableInit fun _ holds => holds
  obtain ⟨_, maps, ran, holds⟩ := run_of_wp_table spec
  exact ⟨maps, ran, holds⟩

/-- A table that is opened again is as it was. -/
theorem run_tableInit_again (holds : TableHolds maps items) : tableInit.run tablePages maps = some ((), maps) := by
  have spec : tableInit.wp tableLogic (fun _ after => after = maps) maps := holds.wp_tableInit rfl
  obtain ⟨_, after, ran, rfl⟩ := run_of_wp_table spec
  exact ran

theorem run_tableRead (holds : TableHolds maps items) (live : heapOf items rid = some content) :
    (tableRead rid).run tablePages maps = some (content, maps) := by
  have spec : (tableRead rid).wp tableLogic (fun result after => result = content ∧ after = maps) maps :=
    wp_tableRead holds live ⟨rfl, rfl⟩
  obtain ⟨result, after, ran, rfl, rfl⟩ := run_of_wp_table spec
  exact ran

theorem run_tableInsert (holds : TableHolds maps items) (nonempty : 1 ≤ src.length)
    (small : src.length ≤ 118) :
    ∃ rid after items', (tableInsert src).run tablePages maps = some (rid, after) ∧
      Inserted maps items src rid after items' := by
  have spec : (tableInsert src).wp tableLogic
      (fun rid after => ∃ items', Inserted maps items src rid after items') maps :=
    wp_tableInsert holds (List.ne_nil_of_length_pos nonempty) small
      fun rid after items' inserted => ⟨items', inserted⟩
  obtain ⟨rid, after, ran, items', inserted⟩ := run_of_wp_table spec
  exact ⟨rid, after, items', ran, inserted⟩

theorem run_tableDelete (holds : TableHolds maps items) (live : heapOf items rid = some content) :
    ∃ after items', (tableDelete rid).run tablePages maps = some ((), after) ∧
      TableHolds after items' ∧ heapOf items' = Function.update (heapOf items) rid none := by
  have spec : (tableDelete rid).wp tableLogic (fun _ after => ∃ items',
      TableHolds after items' ∧ heapOf items' = Function.update (heapOf items) rid none) maps :=
    wp_tableDelete holds live fun after items' afterHolds heap => ⟨items', afterHolds, heap⟩
  obtain ⟨_, after, ran, items', afterHolds, heap⟩ := run_of_wp_table spec
  exact ⟨after, items', ran, afterHolds, heap⟩

end Calls

variable {maps : TableMaps} {heap : Heap}

/-- The blocks of every state reached make up the heap of the calls. -/
theorem Reaches.holds (reached : Reaches maps heap) :
    ∃ items, TableHolds maps items ∧ heapOf items = heap := by
  induction reached with
  | init ran =>
      obtain ⟨maps, same, holds⟩ := run_tableInit
      rw [ran] at same
      cases same
      exact ⟨_, holds, heapOf_nil⟩
  | insert before nonempty small ran ih =>
      obtain ⟨items, holds, rfl⟩ := ih
      obtain ⟨rid, after, items', same, inserted⟩ := run_tableInsert holds nonempty small
      rw [ran] at same
      cases same
      exact ⟨items', inserted.holds, inserted.heap⟩
  | read before live ran ih =>
      obtain ⟨items, holds, rfl⟩ := ih
      obtain ⟨content, bound⟩ := Option.ne_none_iff_exists'.mp live
      have same := run_tableRead holds bound
      rw [ran] at same
      cases same
      exact ⟨items, holds, rfl⟩
  | delete before live ran ih =>
      obtain ⟨items, holds, rfl⟩ := ih
      obtain ⟨content, bound⟩ := Option.ne_none_iff_exists'.mp live
      obtain ⟨after, items', same, afterHolds, final⟩ := run_tableDelete holds bound
      rw [ran] at same
      cases same
      exact ⟨items', afterHolds, final⟩

/-- Every live RID is read back in a state reached, and the read changes nothing. -/
theorem Reaches.reads (reached : Reaches maps heap) {rid : RID} {content : List Cell}
    (live : heap rid = some content) :
    (tableRead rid).run tablePages maps = some (content, maps) := by
  obtain ⟨items, holds, rfl⟩ := reached.holds
  exact run_tableRead holds live

/--
A table is a heap of byte strings with stable RIDs. In every state reached from an
empty table a live RID is read back as the bytes inserted under it; an insertion
ends with a RID that was not live; and neither an insertion nor a deletion changes
what any other live RID is read back as.
-/
theorem table_is_heap :
    (∃ maps, tableInit.run tablePages noPages = some ((), maps)) ∧
      ∀ maps heap, Reaches maps heap →
        (∀ rid content, heap rid = some content →
          (tableRead rid).run tablePages maps = some (content, maps)) ∧
        (∀ src : List Cell, 1 ≤ src.length → src.length ≤ 118 →
          ∃ rid after, (tableInsert src).run tablePages maps = some (rid, after) ∧
            heap rid = none ∧ Reaches after (Function.update heap rid (some src)) ∧
            (tableRead rid).run tablePages after = some (src, after) ∧
            ∀ other content, heap other = some content →
              (tableRead other).run tablePages after = some (content, after)) ∧
        ∀ rid, heap rid ≠ none →
          ∃ after, (tableDelete rid).run tablePages maps = some ((), after) ∧
            Reaches after (Function.update heap rid none) ∧
            ∀ other content, other ≠ rid → heap other = some content →
              (tableRead other).run tablePages after = some (content, after) := by
  obtain ⟨initial, initialised, -⟩ := run_tableInit
  refine ⟨⟨initial, initialised⟩, fun maps heap reached => ⟨fun rid content => reached.reads, ?_, ?_⟩⟩
  · intro src nonempty small
    obtain ⟨items, holds, same⟩ := reached.holds
    obtain ⟨rid, after, items', ran, inserted⟩ := run_tableInsert holds nonempty small
    have fresh : heap rid = none := same ▸ inserted.fresh
    have final : Reaches after (Function.update heap rid (some src)) :=
      .insert reached nonempty small ran
    refine ⟨rid, after, ran, fresh, final, final.reads (Function.update_self ..), ?_⟩
    intro other content live
    have different : other ≠ rid := by
      rintro rfl
      rw [fresh] at live
      cases live
    refine final.reads ?_
    rw [Function.update_of_ne different]
    exact live
  · intro rid live
    obtain ⟨items, holds, same⟩ := reached.holds
    obtain ⟨content, bound⟩ := Option.ne_none_iff_exists'.mp live
    obtain ⟨after, items', ran, -, -⟩ := run_tableDelete holds (same ▸ bound)
    have final : Reaches after (Function.update heap rid none) := .delete reached live ran
    refine ⟨after, ran, final, ?_⟩
    intro other content different otherLive
    refine final.reads ?_
    rw [Function.update_of_ne different]
    exact otherLive

/-- Two items are inserted and the first is deleted: the second is still read back. -/
theorem table_keeps_second_item : ∃ maps first second after,
    Reaches maps (Function.update (Function.update (fun _ => none) first (some [.byte 7])) second
      (some [.byte 8])) ∧
    (tableDelete first).run tablePages maps = some ((), after) ∧
    (tableRead second).run tablePages after = some ([.byte 8], after) := by
  obtain ⟨⟨initial, initialised⟩, calls⟩ := table_is_heap
  obtain ⟨-, insertFirst, -⟩ := calls initial _ (.init initialised)
  obtain ⟨first, middle, -, -, reached, -, -⟩ := insertFirst [.byte 7] (by decide) (by decide)
  obtain ⟨-, insertSecond, -⟩ := calls middle _ reached
  obtain ⟨second, maps, -, fresh, reached', -, -⟩ := insertSecond [.byte 8] (by decide) (by decide)
  have different : second ≠ first := by
    rintro rfl
    rw [Function.update_self] at fresh
    cases fresh
  obtain ⟨-, -, deletes⟩ := calls maps _ reached'
  obtain ⟨after, ran, -, others⟩ := deletes first (by
    rw [Function.update_of_ne different.symm, Function.update_self]
    exact Option.some_ne_none _)
  exact ⟨maps, first, second, after, reached', ran,
    others second _ different (Function.update_self ..)⟩

/--
The free-space map stays in step with the blocks and placement is best fit. In
every state reached from an empty table the chains of the free-space map hold
every data block once, in the bucket of its free space; and an insertion appends a
block exactly when no block has room, and otherwise takes a block whose free space
is the least of those that fit.
-/
theorem table_places_best_fit :
    (∃ maps, tableInit.run tablePages noPages = some ((), maps)) ∧
      ∀ maps heap, Reaches maps heap →
        (∃ pairs, Holds nDirectoryBlocks maps.2 pairs ∧ ∀ (size : Nat) (addr : Int),
          (size, addr) ∈ pairs ↔ maps.1.InFile addr ∧
            (size : Int) = (maps.1.page addr).tailPtr - (maps.1.page addr).headPtr) ∧
        (∀ src : List Cell, 1 ≤ src.length → src.length ≤ 118 →
          ∃ rid after, (tableInsert src).run tablePages maps = some (rid, after) ∧
            Reaches after (Function.update heap rid (some src)) ∧
            Placement maps src.length rid after) ∧
        ∀ rid, heap rid ≠ none →
          ∃ after, (tableDelete rid).run tablePages maps = some ((), after) ∧
            Reaches after (Function.update heap rid none) := by
  obtain ⟨initial, initialised, -⟩ := run_tableInit
  refine ⟨⟨initial, initialised⟩, fun maps heap reached => ?_⟩
  obtain ⟨items, holds, same⟩ := reached.holds
  refine ⟨holds.indexed, ?_, ?_⟩
  · intro src nonempty small
    obtain ⟨rid, after, items', ran, inserted⟩ := run_tableInsert holds nonempty small
    exact ⟨rid, after, ran, .insert reached nonempty small ran, inserted.placed⟩
  · intro rid live
    obtain ⟨content, bound⟩ := Option.ne_none_iff_exists'.mp live
    obtain ⟨after, items', ran, -, -⟩ := run_tableDelete holds (same ▸ bound)
    exact ⟨after, ran, .delete reached live ran⟩

/-- The lengths and the free space of the blocks after an item of 60 bytes and one of 80. -/
theorem two_blocks_made : ((do
    tableInit
    let _ ← tableInsert (List.replicate 60 (.byte 7))
    let _ ← tableInsert (List.replicate 80 (.byte 8)) : TableProg Unit).run tablePages noPages).map
      (fun result => (result.2.1.length, freeSpace (result.2.1.page 0), freeSpace (result.2.1.page pageSize))) =
        some (2 * pageSize, 58, 38) := by
  decide +kernel

/-- Two blocks have room for a byte, and it is put into the one with less space. -/
theorem table_takes_tighter_block : ∃ maps heap rid after,
    Reaches maps heap ∧ maps.1.length = 2 * pageSize ∧
    freeSpace (maps.1.page 0) = 58 ∧ freeSpace (maps.1.page pageSize) = 38 ∧
    (∃ pairs, Holds nDirectoryBlocks maps.2 pairs ∧ (58, 0) ∈ pairs ∧ (38, pageSize) ∈ pairs) ∧
    (tableInsert [.byte 9]).run tablePages maps = some (rid, after) ∧
    after.1.length = maps.1.length ∧ rid.blockAddr = pageSize := by
  obtain ⟨⟨initial, initialised⟩, calls⟩ := table_places_best_fit
  obtain ⟨-, inserts, -⟩ := calls initial _ (.init initialised)
  obtain ⟨first, middle, ran, reached, -⟩ := inserts (List.replicate 60 (.byte 7)) (by decide) (by decide)
  obtain ⟨-, inserts, -⟩ := calls middle _ reached
  obtain ⟨second, maps, ran', reached', -⟩ := inserts (List.replicate 80 (.byte 8)) (by decide) (by decide)
  have made := two_blocks_made
  simp only [run_bind, initialised, ran, ran', Option.bind_some, run_pure, Option.map_some, Option.some.injEq,
    Prod.mk.injEq] at made
  obtain ⟨length, zero, one⟩ := made
  obtain ⟨⟨pairs, holds, inStep⟩, inserts, -⟩ := calls maps _ reached'
  obtain ⟨rid, after, ran'', -, placed⟩ := inserts [.byte 9] (by decide) (by decide)
  have blocks : ∀ addr, maps.1.InFile addr ↔ addr = 0 ∨ addr = pageSize := by
    intro addr
    simp only [PageMap.InFile, length, pageSize]
    omega
  have same : after.1.length ≠ maps.1.length + pageSize := by
    intro grown
    have small := placed.appends.mp grown 0 ((blocks 0).mpr (.inl rfl))
    rw [zero] at small
    exact absurd small (by decide)
  obtain ⟨kept, inside, -, least⟩ := placed.reused same
  refine ⟨maps, _, rid, after, reached', length, zero, one, ⟨pairs, holds, ?_, ?_⟩, ran'', kept, ?_⟩
  · exact (inStep 58 0).mpr ⟨(blocks 0).mpr (.inl rfl), zero.symm⟩
  · exact (inStep 38 pageSize).mpr ⟨(blocks pageSize).mpr (.inr rfl), one.symm⟩
  · refine ((blocks _).mp inside).resolve_left fun first => ?_
    have tighter := least pageSize ((blocks pageSize).mpr (.inr rfl)) (by rw [one]; decide)
    rw [first, zero, one] at tighter
    exact absurd tighter (by decide)

end MyJQL.Storage.Table
