import MyJQL.Strings.StringSpec

/-!
# Strings in a table

The string routines on the pages of a table: what is written is read back, and
deleting it restores the table's items. `write_string` does this for 1 to 655360
bytes and for no other length.
-/

namespace MyJQL.Strings

open Library Library.Prog Storage Storage.Table

/-- A loop that calls `next_char` while `has_next_char` holds, with the characters it sees. -/
def iterateChars : Nat → StringRecord → ItemProg (List UInt8)
  | 0, _ => .fail
  | rounds + 1, record => do
      let more ← ofOption (hasNextChar record)
      if more then
        let (char, record') ← nextChar record
        let rest ← iterateChars rounds record'
        return char :: rest
      else return []

/-- The routines that read the string at a RID. -/
def readAndLoad (rid : RID) (maxSize : Nat) : ItemProg (Nat × List UInt8) := do
  let record ← readString rid
  loadString record maxSize

def readAndIterate (rid : RID) (rounds : Nat) : ItemProg (List UInt8) := do
  let record ← readString rid
  iterateChars rounds record

section Pages

variable {heap : Heap} {maps : TableMaps} {rid : RID} {data text : List UInt8} {chunks : List Chunk}

/-- A weakest precondition over the heap gives a run on the pages. -/
theorem run_of_wp_heap {α : Type} {program : ItemProg α} {post : α → Heap → Prop}
    (related : HoldsHeap heap maps) (holds : program.wp heapLogic post heap) :
    ∃ value after, program.run callMeaning maps = some (value, after) ∧
      ∃ heap', HoldsHeap heap' after ∧ post value heap' := by
  have pages := wp_simulates (heap_simulates_pages (fun _ _ _ => True) fun _ _ _ _ _ _ => trivial)
    related holds
  exact (run_of_wp pages).1

theorem wp_iterateChars {post : List UInt8 → Heap → Prop} {record : StringRecord} (rounds : Nat)
    (cursor : Cursor heap record text) (enough : text.length < rounds) (ended : post text heap) :
    (iterateChars rounds record).wp heapLogic post heap := by
  induction rounds generalizing record text post with
  | zero => exact absurd enough (Nat.not_lt_zero _)
  | succ rounds ih =>
      unfold iterateChars
      simp only [wp_bind, hasNextChar_eq cursor, wp_ofOption_some]
      cases text with
      | nil =>
          rw [if_neg (by simp)]
          exact ended
      | cons char rest =>
          rw [if_pos (by simp)]
          simp only [wp_bind, wp_pure]
          refine wp_nextChar cursor fun record' cursor' => ?_
          exact ih cursor' (Nat.lt_of_succ_lt_succ enough) ended

theorem run_readAndLoad (related : HoldsHeap heap maps) (string : StringAt heap rid text chunks)
    (nonempty : text ≠ []) (maxSize : Nat) :
    ∃ after, (readAndLoad rid maxSize).run callMeaning maps =
      some ((min text.length maxSize, loaded text maxSize), after) ∧ HoldsHeap heap after := by
  have spec : (readAndLoad rid maxSize).wp heapLogic (fun result final =>
      result = (min text.length maxSize, loaded text maxSize) ∧ final = heap) heap := by
    unfold readAndLoad
    simp only [wp_bind]
    refine wp_readString string nonempty fun record _ _ _ cursor => ?_
    exact wp_loadString maxSize string cursor ⟨rfl, rfl⟩
  obtain ⟨result, after, ran, final, afterHolds, rfl, rfl⟩ := run_of_wp_heap related spec
  exact ⟨after, ran, afterHolds⟩

theorem run_readAndIterate (related : HoldsHeap heap maps) (string : StringAt heap rid text chunks)
    (nonempty : text ≠ []) {rounds : Nat} (enough : text.length < rounds) :
    ∃ after, (readAndIterate rid rounds).run callMeaning maps = some (text, after) ∧
      HoldsHeap heap after := by
  have spec : (readAndIterate rid rounds).wp heapLogic (fun result final =>
      result = text ∧ final = heap) heap := by
    unfold readAndIterate
    simp only [wp_bind]
    refine wp_readString string nonempty fun record _ _ _ cursor => ?_
    exact wp_iterateChars rounds cursor enough ⟨rfl, rfl⟩
  obtain ⟨result, after, ran, final, afterHolds, rfl, rfl⟩ := run_of_wp_heap related spec
  exact ⟨after, ran, afterHolds⟩

theorem run_deleteString (related : HoldsHeap heap maps) (string : StringAt heap rid text chunks) :
    ∃ after, (deleteString rid).run callMeaning maps = some ((), after) ∧
      HoldsHeap (without heap (rids chunks)) after := by
  have spec : (deleteString rid).wp heapLogic (fun _ final =>
      final = without heap (rids chunks)) heap := wp_deleteString string rfl
  obtain ⟨_, after, ran, final, afterHolds, rfl⟩ := run_of_wp_heap related spec
  exact ⟨after, ran, afterHolds⟩

theorem run_writeString (related : HoldsHeap heap maps) (nonempty : 1 ≤ data.length)
    (small : data.length ≤ 655360) :
    ∃ rid after heap' chunks, (writeString data data.length).run callMeaning maps = some (rid, after) ∧
      HoldsHeap heap' after ∧ StringAt heap' rid data chunks ∧ Added heap heap' (rids chunks) := by
  have spec : (writeString data data.length).wp heapLogic (fun rid final => ∃ chunks,
      StringAt final rid data chunks ∧ Added heap final (rids chunks)) heap :=
    wp_writeString nonempty small fun rid chunks final string added => ⟨chunks, string, added⟩
  obtain ⟨rid, after, ran, final, afterHolds, chunks, string, added⟩ := run_of_wp_heap related spec
  exact ⟨rid, after, final, chunks, ran, afterHolds, string, added⟩

/-- Taking the new chunks out again gives back the old heap. -/
theorem Added.without_eq {heap' : Heap} (added : Added heap heap' (rids chunks)) :
    without heap' (rids chunks) = heap := by
  funext other
  unfold without
  by_cases new : other ∈ rids chunks
  · rw [if_pos new, added.1 other new]
  · rw [if_neg new, added.2 other new]

end Pages

/--
Round trip of a string of 1 to 655360 bytes, in any state of a table. The chunks
are new items and spell the string. In any later state where they do, loading gives
the first `max_size` bytes, iterating gives the string, and deleting takes out
exactly its chunks; right after the writing that restores the items there were.
-/
theorem string_round_trip {heap : Heap} {maps : TableMaps} {data : List UInt8}
    (related : HoldsHeap heap maps) (nonempty : 1 ≤ data.length) (small : data.length ≤ 655360) :
    ∃ rid after heap' chunks,
      (writeString data data.length).run callMeaning maps = some (rid, after) ∧
      HoldsHeap heap' after ∧ StringAt heap' rid data chunks ∧ Added heap heap' (rids chunks) ∧
      (∃ final, (deleteString rid).run callMeaning after = some ((), final) ∧ HoldsHeap heap final) ∧
      ∀ later laterMaps, HoldsHeap later laterMaps → StringAt later rid data chunks →
        (∀ maxSize, ∃ final, (readAndLoad rid maxSize).run callMeaning laterMaps =
          some ((min data.length maxSize, data.take maxSize ++
            if min data.length maxSize < maxSize then [0] else []), final) ∧ HoldsHeap later final) ∧
        (∀ rounds, data.length < rounds → ∃ final,
          (readAndIterate rid rounds).run callMeaning laterMaps = some (data, final) ∧
            HoldsHeap later final) ∧
        ∃ final, (deleteString rid).run callMeaning laterMaps = some ((), final) ∧
          HoldsHeap (without later (rids chunks)) final := by
  have proper : data ≠ [] := List.ne_nil_of_length_pos nonempty
  obtain ⟨rid, after, heap', chunks, ran, afterHolds, string, added⟩ :=
    run_writeString related nonempty small
  refine ⟨rid, after, heap', chunks, ran, afterHolds, string, added, ?_, ?_⟩
  · obtain ⟨final, deleted, finalHolds⟩ := run_deleteString afterHolds string
    rw [added.without_eq] at finalHolds
    exact ⟨final, deleted, finalHolds⟩
  · intro later laterMaps laterHolds laterString
    refine ⟨fun maxSize => ?_, fun rounds enough => ?_, run_deleteString laterHolds laterString⟩
    · obtain ⟨final, loadedRun, finalHolds⟩ := run_readAndLoad laterHolds laterString proper maxSize
      have below : (min data.length maxSize < maxSize) = (data.length < maxSize) := by
        rw [min_lt_iff, eq_iff_iff]
        simp only [lt_irrefl, or_false]
      simp only [below]
      exact ⟨final, loadedRun, finalHolds⟩
    · exact run_readAndIterate laterHolds laterString proper enough

/-- A string of 41 characters. -/
def longText : List UInt8 := List.replicate 40 97 ++ [98]

/-- A string of three chunks in a new table, cut inside the second one, read whole, and deleted. -/
theorem string_round_trip_three_chunks : ∃ maps rid after heap' chunks, HoldsHeap (fun _ => none) maps ∧
    (writeString longText longText.length).run callMeaning maps = some (rid, after) ∧
    StringAt heap' rid longText chunks ∧ 2 < chunks.length ∧
    (∃ final, (readAndLoad rid 30).run callMeaning after = some ((30, List.replicate 30 97), final)) ∧
    (∃ final, (readAndIterate rid 50).run callMeaning after = some (longText, final)) ∧
    ∃ final, (deleteString rid).run callMeaning after = some ((), final) ∧ HoldsHeap (fun _ => none) final := by
  obtain ⟨maps, -, holds⟩ := run_tableInit
  have related : HoldsHeap (fun _ => none) maps := ⟨_, holds, heapOf_nil⟩
  obtain ⟨rid, after, heap', chunks, ran, afterHolds, string, -, deleted, reads⟩ :=
    @string_round_trip _ _ longText related (by decide) (by decide)
  obtain ⟨loads, iterates, -⟩ := reads heap' after afterHolds string
  obtain ⟨loadedMaps, loadedRun, -⟩ := loads 30
  obtain ⟨iterated, iteratedRun, -⟩ := iterates 50 (by decide)
  have many := string.length_le_chunks
  have length : longText.length = 41 := by decide
  rw [length, strChunkMaxLen] at many
  exact ⟨maps, rid, after, heap', chunks, related, ran, string, by omega, ⟨loadedMaps, loadedRun⟩,
    ⟨iterated, iteratedRun⟩, deleted⟩

/-! ## Lengths -/

/--
`write_string` stores exactly the bytes it is given: it reads inside the buffer only,
its new chunks spell the buffer, and the chunk count survives its conversion to `short`.
-/
def WritesExactly (heap : Heap) (maps : TableMaps) (data : List UInt8) : Prop :=
  toShort (chunkCount data.length) = chunkCount data.length ∧
    ∃ rid after heap' chunks, (writeString data data.length).run callMeaning maps = some (rid, after) ∧
      HoldsHeap heap' after ∧ Added heap heap' (rids chunks) ∧ StringAt heap' rid data chunks ∧
      (chunks.map fun chunk => chunk.bytes.length).sum = data.length

/-- An empty string reads twenty bytes before its buffer. -/
theorem run_writeString_nil (maps : TableMaps) : (writeString [] 0).run callMeaning maps = none := by
  unfold writeString
  rfl

/--
`write_string` stores exactly what it is given for the lengths 1 to 655360 and for
no others.
-/
theorem writes_exactly_iff {heap : Heap} {maps : TableMaps} {data : List UInt8}
    (related : HoldsHeap heap maps) (offT : data.length < 2 ^ 63) :
    WritesExactly heap maps data ↔ 1 ≤ data.length ∧ data.length ≤ 655360 := by
  have short : (data.length : Int) < 2 ^ 64 := by omega
  constructor
  · rintro ⟨unchanged, rid, after, heap', chunks, ran, -⟩
    have nonempty : 1 ≤ data.length := by
      by_contra empty
      obtain rfl : data = [] := List.eq_nil_of_length_eq_zero (by omega)
      have failed := run_writeString_nil maps
      rw [List.length_nil] at ran
      exact absurd (ran.symm.trans failed) (Option.some_ne_none _)
    obtain ⟨extra, -, positive, bound, count, split, countEq⟩ := extraLen_eq nonempty short
    rw [countEq] at unchanged
    have fits := (toShort_eq_iff (Int.natCast_nonneg count)).mp unchanged
    simp only [strChunkMaxLen] at split bound
    omega
  · rintro ⟨nonempty, small⟩
    obtain ⟨extra, -, positive, -, count, split, countEq⟩ := extraLen_eq nonempty short
    have sum := chunkSum_eq small positive split countEq
    unfold chunkSum at sum
    obtain ⟨rid, after, heap', chunks, ran, afterHolds, string, added⟩ :=
      run_writeString related nonempty small
    refine ⟨sum.trans countEq.symm, rid, after, heap', chunks, ran, afterHolds, added, string, ?_⟩
    rw [← string.spells, spelled, List.length_flatMap]

/-- A string that ends inside its third chunk. -/
theorem writes_exactly_three_chunks : ∃ maps, HoldsHeap (fun _ => none) maps ∧
    WritesExactly (fun _ => none) maps longText := by
  obtain ⟨maps, -, holds⟩ := run_tableInit
  have related : HoldsHeap (fun _ => none) maps := ⟨_, holds, heapOf_nil⟩
  have small : longText.length < 2 ^ 63 := by decide
  exact ⟨maps, related, (writes_exactly_iff related small).mpr ⟨by decide, by decide⟩⟩

/-- The empty string in a new table. -/
theorem empty_string_not_written : ∃ maps, HoldsHeap (fun _ => none) maps ∧
    (writeString [] 0).run callMeaning maps = none ∧ ¬ WritesExactly (fun _ => none) maps [] := by
  obtain ⟨maps, -, holds⟩ := run_tableInit
  refine ⟨maps, ⟨_, holds, heapOf_nil⟩, run_writeString_nil maps, ?_⟩
  rintro ⟨-, rid, after, heap', chunks, ran, -⟩
  exact absurd (ran.symm.trans (run_writeString_nil maps)) (Option.some_ne_none _)

end MyJQL.Strings
