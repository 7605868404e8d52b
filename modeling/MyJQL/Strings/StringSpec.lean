import MyJQL.Strings.ChunkSpec

/-!
# Specifications of the string routines

Reading, comparing, writing and deleting a string, over the heap of a table.
-/

namespace MyJQL.Strings

open Library Library.Prog Storage Storage.Table

/-! ## The order of strings -/

/-- The character values of a string. -/
def keyOf (text : List UInt8) : List Int := text.map charValue

/-- The sign of the comparison in an order. -/
def signOf {K : Type} [LinearOrder K] (first second : K) : Int :=
  if first < second then -1 else if second < first then 1 else 0

theorem signOf_congr {K L : Type} [LinearOrder K] [LinearOrder L] {first second : K}
    {first' second' : L} (less : first < second ↔ first' < second')
    (greater : second < first ↔ second' < first') : signOf first second = signOf first' second' := by
  unfold signOf
  by_cases below : first < second
  · rw [if_pos below, if_pos (less.mp below)]
  · rw [if_neg below, if_neg (mt less.mpr below)]
    by_cases above : second < first
    · rw [if_pos above, if_pos (greater.mp above)]
    · rw [if_neg above, if_neg (mt greater.mpr above)]

section Order

variable {a b : UInt8} {s t : List UInt8}

theorem charValue_injective : Function.Injective charValue := by
  intro a b same
  have aSmall := UInt8.toNat_lt a
  have bSmall := UInt8.toNat_lt b
  unfold charValue at same
  apply UInt8.toNat_inj.mp
  split at same <;> split at same <;> omega

theorem keyOf_injective : Function.Injective keyOf := List.map_injective_iff.mpr charValue_injective

theorem signOf_cons_of_ne (different : a ≠ b) :
    signOf (keyOf (a :: s)) (keyOf (b :: t)) = if charValue a > charValue b then 1 else -1 := by
  have values : charValue a ≠ charValue b := fun same => different (charValue_injective same)
  unfold signOf keyOf
  simp only [List.map_cons, List.cons_lt_cons_iff]
  by_cases greater : charValue a > charValue b
  · have notLess : ¬ (charValue a < charValue b ∨
        charValue a = charValue b ∧ s.map charValue < t.map charValue) := by
      rintro (less | ⟨same, -⟩)
      · omega
      · exact values same
    rw [if_neg notLess, if_pos (Or.inl greater), if_pos greater]
  · have less : charValue a < charValue b := by omega
    rw [if_pos (Or.inl less), if_neg greater]

theorem keyOf_cons_lt_iff : keyOf (a :: s) < keyOf (a :: t) ↔ keyOf s < keyOf t := by
  unfold keyOf
  simp only [List.map_cons, List.cons_lt_cons_iff, lt_irrefl, true_and, false_or]

theorem signOf_cons_self : signOf (keyOf (a :: s)) (keyOf (a :: t)) = signOf (keyOf s) (keyOf t) :=
  signOf_congr keyOf_cons_lt_iff keyOf_cons_lt_iff

theorem keyOf_nil_lt (b : UInt8) (t : List UInt8) : keyOf [] < keyOf (b :: t) :=
  List.nil_lt_cons (charValue b) (t.map charValue)

theorem signOf_nil_cons : signOf (keyOf []) (keyOf (b :: t)) = -1 := if_pos (keyOf_nil_lt b t)

theorem signOf_cons_nil : signOf (keyOf (a :: s)) (keyOf []) = 1 := by
  have less := keyOf_nil_lt a s
  unfold signOf
  rw [if_neg (not_lt_of_gt less), if_pos less]

theorem signOf_self {K : Type} [LinearOrder K] (key : K) : signOf key key = 0 := by
  unfold signOf
  rw [if_neg (lt_irrefl key), if_neg (lt_irrefl key)]

end Order

section Reading

variable {heap : Heap} {first second record : StringRecord} {s t text : List UInt8}

theorem wp_compareChars {post : Int → Heap → Prop} (rounds : Nat) (firstCursor : Cursor heap first s)
    (secondCursor : Cursor heap second t) (enough : s.length < rounds)
    (ended : post (signOf (keyOf s) (keyOf t)) heap) :
    (compareChars rounds first second).wp heapLogic post heap := by
  induction rounds generalizing first second s t with
  | zero => exact absurd enough (Nat.not_lt_zero _)
  | succ rounds ih =>
      unfold compareChars
      simp only [wp_bind, hasNextChar_eq firstCursor, hasNextChar_eq secondCursor, wp_ofOption_some]
      cases s with
      | nil =>
          cases t with
          | nil => simpa [signOf_self] using ended
          | cons b t => simpa [signOf_nil_cons] using ended
      | cons a s =>
          cases t with
          | nil => simpa [signOf_cons_nil] using ended
          | cons b t =>
              rw [if_pos (by simp)]
              simp only [wp_bind]
              refine wp_nextChar firstCursor fun first' firstCursor' => ?_
              refine wp_nextChar secondCursor fun second' secondCursor' => ?_
              by_cases same : a = b
              · subst same
                rw [if_neg (not_not.mpr rfl)]
                refine ih firstCursor' secondCursor' (Nat.lt_of_succ_lt_succ enough) ?_
                rw [signOf_cons_self] at ended
                exact ended
              · rw [if_pos same]
                rw [signOf_cons_of_ne same] at ended
                exact ended

/-- The bytes `load_string` writes: at most `maxSize` characters, and a zero if there is room. -/
def loaded (text : List UInt8) (maxSize : Nat) : List UInt8 :=
  text.take maxSize ++ if text.length < maxSize then [0] else []

theorem wp_loadChars {post : Nat × List UInt8 → Heap → Prop} {maxSize size : Nat} {dest : List UInt8}
    (rounds : Nat) (cursor : Cursor heap record text) (enough : text.length < rounds)
    (within : size ≤ maxSize)
    (ended : post (size + min text.length (maxSize - size), dest ++ loaded text (maxSize - size)) heap) :
    (loadChars maxSize rounds size record dest).wp heapLogic post heap := by
  induction rounds generalizing record text size dest with
  | zero => exact absurd enough (Nat.not_lt_zero _)
  | succ rounds ih =>
      unfold loadChars
      simp only [wp_bind, hasNextChar_eq cursor, wp_ofOption_some]
      cases text with
      | nil =>
          rw [if_neg (by simp)]
          by_cases room : size < maxSize
          · have positive : 0 < maxSize - size := by omega
            rw [if_pos room]
            simpa [loaded, positive] using ended
          · have full : maxSize - size = 0 := by omega
            rw [if_neg room]
            simpa [loaded, full] using ended
      | cons char rest =>
          by_cases room : size < maxSize
          · rw [if_pos ⟨by simp, room⟩]
            simp only [wp_bind]
            refine wp_nextChar cursor fun record' cursor' => ?_
            refine ih cursor' (Nat.lt_of_succ_lt_succ enough) room ?_
            obtain ⟨left, split⟩ : ∃ left, maxSize - size = left + 1 := ⟨maxSize - size - 1, by omega⟩
            have left_eq : maxSize - (size + 1) = left := by omega
            have count : size + min (char :: rest).length (maxSize - size) =
                size + 1 + min rest.length left := by
              rw [split, List.length_cons]
              omega
            have bytes : dest ++ loaded (char :: rest) (maxSize - size) =
                dest ++ [char] ++ loaded rest left := by
              simp only [split, loaded, List.take_succ_cons, List.length_cons, Nat.add_lt_add_iff_right,
                List.append_assoc, List.cons_append, List.nil_append]
            rw [count, bytes] at ended
            rw [left_eq]
            exact ended
          · have full : maxSize - size = 0 := by omega
            rw [if_neg fun both => room both.2, if_neg room]
            simpa [loaded, full] using ended

variable {rid other : RID} {chunks chunks' : List Chunk}

/-- `read_string` and then `load_string`. -/
theorem wp_loadString {post : Nat × List UInt8 → Heap → Prop} (maxSize : Nat)
    (string : StringAt heap rid text chunks) (cursor : Cursor heap record text)
    (ended : post (min text.length maxSize, loaded text maxSize) heap) :
    (loadString record maxSize).wp heapLogic post heap := by
  unfold loadString
  simp only [wp_bind, wp_perform]
  refine heapRule_dataLength fun length fits => ?_
  have bound := string.length_le fits
  refine wp_loadChars _ cursor (by omega) (Nat.zero_le _) ?_
  simpa using ended

theorem wp_compareStringRecord {post : Int → Heap → Prop} {firstSize secondSize : Int}
    (string : StringAt heap rid s chunks) (firstCursor : Cursor heap first s)
    (secondCursor : Cursor heap second t)
    (firstSized : getStrChunkSize first.chunk = some firstSize) (firstProper : firstSize ≠ 0)
    (secondSized : getStrChunkSize second.chunk = some secondSize) (secondProper : secondSize ≠ 0)
    (ended : post (signOf (keyOf s) (keyOf t)) heap) :
    (compareStringRecord first second).wp heapLogic post heap := by
  unfold compareStringRecord
  simp only [wp_bind, firstSized, secondSized, wp_ofOption_some]
  rw [if_neg firstProper, if_neg secondProper]
  simp only [wp_bind, wp_perform]
  refine heapRule_dataLength fun length fits => ?_
  have bound := string.length_le fits
  exact wp_compareChars _ firstCursor secondCursor (by omega) ended

end Reading

/-! ## Deleting -/

section Deleting

variable {heap : Heap} {rid : RID} {text : List UInt8} {chunks : List Chunk}

/-- The heap without the items of these RIDs. -/
def without (heap : Heap) (gone : List RID) : Heap := fun rid => if rid ∈ gone then none else heap rid

theorem without_nil : without heap [] = heap := by
  funext other
  exact if_neg List.not_mem_nil

theorem without_cons {gone : List RID} :
    without (Function.update heap rid none) gone = without heap (rid :: gone) := by
  funext other
  unfold without
  by_cases same : other = rid
  · subst same
    rw [if_pos List.mem_cons_self, Function.update_self, ite_self]
  · rw [Function.update_of_ne same]
    simp only [List.mem_cons, same, false_or]

theorem wp_deleteChunks {post : Unit → Heap → Prop} (rounds : Nat) (chain : Chain heap chunks)
    (distinct : (rids chunks).Nodup) (enough : chunks.length < rounds)
    (ended : post () (without heap (rids chunks))) :
    (deleteChunks rounds (headRid chunks)).wp heapLogic post heap := by
  induction rounds generalizing heap chunks with
  | zero => exact absurd enough (Nat.not_lt_zero _)
  | succ rounds ih =>
      unfold deleteChunks
      cases chunks with
      | nil =>
          rw [if_pos (by rfl)]
          rw [rids, List.map_nil, without_nil] at ended
          exact ended
      | cons chunk rest =>
          obtain ⟨proper, bounds, -, stored, tail⟩ := chain
          have notNull : (headRid (chunk :: rest)).idx ≠ -1 := by
            change chunk.rid.idx ≠ -1
            omega
          rw [rids, List.map_cons, List.nodup_cons] at distinct
          rw [if_neg notNull]
          simp only [wp_bind, wp_perform]
          refine wp_readInto stored ?_ ?_
          · rw [length_chunkCells, uninitialised, List.length_replicate]
            simp only [strChunkMaxSize, strChunkData, strChunkMaxLen] at *
            omega
          · refine heapRule_delete ?_ ?_
            · change heap chunk.rid ≠ none
              rw [stored]
              exact Option.some_ne_none _
            · rw [getStrChunkRid_eq]
              simp only [wp_ofOption_some]
              refine ih (tail.congr ?_) distinct.2 (Nat.lt_of_succ_lt_succ enough) ?_
              · intro other member
                refine Function.update_of_ne ?_ _ _
                rintro rfl
                exact distinct.1 member
              · rw [without_cons]
                exact ended

theorem wp_deleteString {post : Unit → Heap → Prop} (string : StringAt heap rid text chunks)
    (ended : post () (without heap (rids chunks))) :
    (deleteString rid).wp heapLogic post heap := by
  unfold deleteString
  simp only [wp_bind, wp_perform]
  refine heapRule_dataLength fun length fits => ?_
  have bound := string.length_le fits
  rw [← string.head]
  exact wp_deleteChunks _ string.chain string.distinct (by omega) ended

end Deleting

/-! ## Writing -/

section Writing

variable {heap heap' : Heap} {rid : RID} {data text : List UInt8} {chunks : List Chunk}

/-- The new heap has the items of these RIDs besides the old ones, none of which it changes. -/
def Added (heap heap' : Heap) (new : List RID) : Prop :=
  (∀ rid ∈ new, heap rid = none) ∧ ∀ rid ∉ new, heap' rid = heap rid

/-- The copying loop, `done` characters having been copied. -/
theorem copyData_eq (data : List UInt8) (start : Int) {front : List Cell}
    (size : front.length = strChunkData) (new : List UInt8) : ∀ (done : List UInt8) (rest : List Cell), new.length ≤ rest.length →
      (∀ index (inside : index < new.length),
        dataAt data (start + (done.length + index : Nat)) = some new[index]) →
      copyData data start new.length done.length (front ++ (done.map Cell.byte ++ rest)) =
        some (front ++ ((done ++ new).map Cell.byte ++ rest.drop new.length)) := by
  induction new with
  | nil =>
      intro done rest _ _
      rw [List.append_nil, List.length_nil, List.drop_zero]
      rfl
  | cons value new ih =>
      intro done rest room read
      obtain ⟨old, rest, rfl⟩ := List.exists_cons_of_length_pos (Nat.zero_lt_of_lt room)
      have readFirst := read 0 (Nat.succ_pos _)
      rw [Nat.add_zero] at readFirst
      have place : setStrChunkData (front ++ (done.map Cell.byte ++ old :: rest)) done.length value =
          some (front ++ ((done ++ [value]).map Cell.byte ++ rest)) := by
        have inside : strChunkData + done.length <
            (front ++ (done.map Cell.byte ++ old :: rest)).length := by
          simp only [List.length_append, List.length_map, List.length_cons, size]
          omega
        rw [setStrChunkData, if_pos inside, List.set_append_right _ _ (by omega)]
        congr 2
        have index : strChunkData + done.length - front.length = (done.map Cell.byte).length := by
          rw [List.length_map]
          omega
        rw [index, List.set_append_right _ _ le_rfl, Nat.sub_self, List.set_cons_zero, List.map_append,
          List.append_assoc]
        rfl
      rw [List.length_cons, copyData, readFirst]
      simp only [Option.bind_eq_bind, Option.bind_some, place, List.getElem_cons_zero]
      have count : done.length + 1 = (done ++ [value]).length := by
        rw [List.length_append, List.length_singleton]
      rw [count, ih (done ++ [value]) rest (Nat.le_of_succ_le_succ room) ?_]
      · rw [List.append_assoc, List.singleton_append, List.drop_succ_cons]
      · intro index inside
        have later := read (index + 1) (Nat.succ_lt_succ inside)
        rw [List.getElem_cons_succ] at later
        rw [← later, ← count]
        congr 2
        push_cast
        omega

/-- A chunk filled with the characters of the buffer from `start` on. -/
theorem copyData_newChunk (rid : RID) (data : List UInt8) (start : Nat) (new : List UInt8)
    (fits : new.length ≤ strChunkMaxLen) (here : (data.drop start).take new.length = new) :
    ∃ tail, copyData data start new.length 0 (newChunk rid new.length) =
      some (chunkCells rid new ++ tail) ∧
        (chunkCells rid new ++ tail).length = strChunkMaxSize := by
  have shape : newChunk rid new.length = (ridCells rid ++ shortCells new.length) ++
      (([] : List UInt8).map Cell.byte ++ uninitialised strChunkMaxLen) := by
    rfl
  have front : (ridCells rid ++ shortCells new.length).length = strChunkData := by
    rw [List.length_append, length_ridCells]
    rfl
  have room : new.length ≤ (uninitialised strChunkMaxLen).length := by
    rw [uninitialised, List.length_replicate]
    exact fits
  refine ⟨(uninitialised strChunkMaxLen).drop new.length, ?_, ?_⟩
  · have copied := copyData_eq data start front new [] _ room ?_
    · rw [shape]
      rw [List.length_nil] at copied
      rw [copied, List.nil_append, chunkCells, List.append_assoc, List.append_assoc, List.append_assoc]
    · intro index inside
      have nonneg : (0 : Int) ≤ start + (([] : List UInt8).length + index : Nat) := by omega
      have place : ((start : Int) + (([] : List UInt8).length + index : Nat)).toNat = start + index := by
        simp only [List.length_nil]
        omega
      have entry : ((data.drop start).take new.length)[index]? = some new[index] := by
        rw [here]
        exact List.getElem?_eq_getElem inside
      rw [dataAt, if_pos nonneg, place]
      rw [List.getElem?_take_of_lt inside, List.getElem?_drop] at entry
      exact entry
  · rw [List.length_append, length_chunkCells, List.length_drop, uninitialised, List.length_replicate]
    simp only [strChunkMaxSize, strChunkData, strChunkMaxLen] at *
    omega

/-- A chunk put in front of a chain. -/
theorem StringAt.cons (new : List UInt8) (string : StringAt heap' rid text chunks)
    (added : Added heap heap' (rids chunks)) (bounds : 1 ≤ new.length ∧ new.length ≤ strChunkMaxLen)
    (full : chunks ≠ [] → new.length = strChunkMaxLen) {fresh : RID} (absent : heap' fresh = none)
    (proper : 0 ≤ fresh.blockAddr ∧ 0 ≤ fresh.idx) :
    StringAt (Function.update heap' fresh (some (chunkCells rid new))) fresh (new ++ text)
      (⟨fresh, new⟩ :: chunks) ∧
    Added heap (Function.update heap' fresh (some (chunkCells rid new)))
      (rids (⟨fresh, new⟩ :: chunks)) := by
  have unlisted : fresh ∉ rids chunks := fun member => string.live member absent
  have kept : ∀ other ∈ rids chunks,
      Function.update heap' fresh (some (chunkCells rid new)) other = heap' other := by
    intro other member
    refine Function.update_of_ne ?_ _ _
    rintro rfl
    exact unlisted member
  refine ⟨⟨⟨proper, bounds, full, ?_, string.chain.congr kept⟩, rfl, ?_, ?_⟩, ?_, ?_⟩
  · rw [Function.update_self, string.head]
  · rw [← string.spells]
    rfl
  · exact List.nodup_cons.mpr ⟨unlisted, string.distinct⟩
  · intro other member
    rcases List.mem_cons.mp member with rfl | later
    · rw [← added.2 _ unlisted]
      exact absent
    · exact added.1 other later
  · intro other absentOther
    have notFresh : other ≠ fresh := fun same => absentOther (same ▸ List.mem_cons_self)
    rw [Function.update_of_ne notFresh]
    exact added.2 other fun member => absentOther (List.mem_cons_of_mem _ member)

/-- The loop over the chunks before the last, with the chain of the characters after them. -/
theorem wp_writeChunks {post : RID → Heap → Prop} (count : Nat)
    (inside : count * strChunkMaxLen ≤ data.length)
    (string : StringAt heap' rid (data.drop (count * strChunkMaxLen)) chunks)
    (added : Added heap heap' (rids chunks))
    (ended : ∀ rid chunks final, StringAt final rid data chunks → Added heap final (rids chunks) →
      post rid final) :
    (writeChunks data count rid).wp heapLogic post heap' := by
  induction count generalizing rid chunks heap' with
  | zero =>
      rw [Nat.zero_mul, List.drop_zero] at string
      exact ended rid chunks heap' string added
  | succ count ih =>
      have split : (count + 1) * strChunkMaxLen = count * strChunkMaxLen + strChunkMaxLen := by
        rw [Nat.add_mul, Nat.one_mul]
      have length : ((data.drop (count * strChunkMaxLen)).take strChunkMaxLen).length =
          strChunkMaxLen := by
        rw [List.length_take, List.length_drop]
        omega
      obtain ⟨tail, copied, size⟩ := copyData_newChunk rid data (count * strChunkMaxLen)
        ((data.drop (count * strChunkMaxLen)).take strChunkMaxLen) (le_of_eq length) (by rw [length])
      obtain rfl : tail = [] := by
        rw [List.length_append, length_chunkCells, length] at size
        apply List.eq_nil_of_length_eq_zero
        simp only [strChunkMaxSize, strChunkData, strChunkMaxLen] at size
        omega
      rw [length] at copied
      unfold writeChunks
      simp only [wp_bind, wp_perform, copied, wp_ofOption_some]
      rw [List.append_nil, length_chunkCells, length] at size
      rw [List.append_nil]
      refine heapRule_insert ?_ ?_ ?_
      · rw [length_chunkCells, length, size]
        decide
      · rw [length_chunkCells, length, size]
        decide
      · intro fresh absent addr idx
        obtain ⟨string', added'⟩ := string.cons
          ((data.drop (count * strChunkMaxLen)).take strChunkMaxLen) added (by rw [length]; decide) (fun _ => length) absent ⟨addr, idx⟩
        refine ih (by omega) ?_ added'
        have text : (data.drop (count * strChunkMaxLen)).take strChunkMaxLen ++
            data.drop ((count + 1) * strChunkMaxLen) = data.drop (count * strChunkMaxLen) := by
          rw [split, ← List.drop_drop]
          exact List.take_append_drop _ _
        rw [text] at string'
        exact string'

/-! ### The length of the last chunk -/

theorem toSizeT_of_lt {value : Int} (nonneg : 0 ≤ value) (small : value < 2 ^ 64) :
    toSizeT value = value := Int.emod_eq_of_lt nonneg small

theorem toShort_eq_iff {value : Int} (nonneg : 0 ≤ value) : toShort value = value ↔ value < 2 ^ 15 := by
  unfold toShort
  omega

theorem extraLen_natCast {size : Nat} (small : (size : Int) < 2 ^ 64) : extraLen size =
    if size % 20 = 0 then (20 : Int) else ((size % 20 : Nat) : Int) := by
  have rest : toShort (toSizeT size % strChunkMaxLen) = ((size % 20 : Nat) : Int) := by
    rw [toSizeT_of_lt (Int.natCast_nonneg size) small]
    have below : size % 20 < 20 := Nat.mod_lt _ (by decide)
    exact (toShort_eq_iff (Int.natCast_nonneg (size % 20))).mpr (by omega)
  unfold extraLen
  simp only [rest]
  by_cases divides : size % 20 = 0
  · rw [if_pos divides, if_pos (Int.natCast_eq_zero.mpr divides)]
    rfl
  · rw [if_neg divides, if_neg (Int.natCast_ne_zero.mpr divides)]

theorem chunkCount_natCast {size extra count : Nat} (small : (size : Int) < 2 ^ 64)
    (extraEq : extraLen size = extra) (split : size = count * 20 + extra) :
    chunkCount size = count := by
  have start : (size : Int) - extra = ((count * 20 : Nat) : Int) := by omega
  have bound : ((count * 20 : Nat) : Int) < 2 ^ 64 := by omega
  unfold chunkCount
  rw [extraEq, start, toSizeT_of_lt (Int.natCast_nonneg _) bound]
  simp only [strChunkMaxLen]
  omega

/-- The string is cut into full chunks and a last one of 1 to 20 bytes. -/
theorem extraLen_eq {size : Nat} (positive : 1 ≤ size) (small : (size : Int) < 2 ^ 64) :
    ∃ extra : Nat, extraLen size = extra ∧ 1 ≤ extra ∧ extra ≤ strChunkMaxLen ∧
      ∃ count : Nat, size = count * strChunkMaxLen + extra ∧ chunkCount size = count := by
  have value := extraLen_natCast small
  by_cases divides : size % 20 = 0
  · rw [if_pos divides] at value
    have split : size = (size / 20 - 1) * 20 + 20 := by omega
    exact ⟨20, value, by decide, le_rfl, size / 20 - 1, split, chunkCount_natCast small value split⟩
  · rw [if_neg divides] at value
    have split : size = size / 20 * 20 + size % 20 := by omega
    exact ⟨size % 20, value, by omega, (Nat.mod_lt _ (by decide)).le, size / 20, split,
      chunkCount_natCast small value split⟩

theorem chunkSum_eq {size extra count : Nat} (small : size ≤ 655360) (positive : 1 ≤ extra)
    (split : size = count * strChunkMaxLen + extra) (countEq : chunkCount size = count) :
    chunkSum size = count := by
  unfold chunkSum
  rw [countEq]
  refine (toShort_eq_iff (Int.natCast_nonneg count)).mpr ?_
  simp only [strChunkMaxLen] at split
  omega

/-- `write_string` of a string cut into `count` full chunks and a last one of `extra` bytes. -/
theorem wp_writeString_cut {post : RID → Heap → Prop} {extra count : Nat} (positive : 1 ≤ extra)
    (bound : extra ≤ strChunkMaxLen) (split : data.length = count * strChunkMaxLen + extra)
    (extraEq : extraLen data.length = extra) (sum : chunkSum data.length = count)
    (ended : ∀ rid chunks final, StringAt final rid data chunks → Added heap final (rids chunks) →
      post rid final) :
    (writeString data data.length).wp heapLogic post heap := by
  have start : (data.length : Int) - (extra : Int) = (count * strChunkMaxLen : Nat) := by omega
  have length : (data.drop (count * strChunkMaxLen)).length = extra := by
    rw [List.length_drop]
    omega
  have filled := copyData_newChunk nullRid data (count * strChunkMaxLen)
    (data.drop (count * strChunkMaxLen)) (length.trans_le bound) List.take_length
  rw [length] at filled
  unfold writeString
  simp only [extraEq, start, sum, Int.toNat_natCast, wp_bind, wp_perform]
  cases filled with
  | intro tail filled =>
      have item : (chunkCells nullRid (data.drop (count * strChunkMaxLen)) ++ tail).take
          (calcStrChunkSize extra).toNat =
            chunkCells nullRid (data.drop (count * strChunkMaxLen)) := by
        apply List.take_left'
        rw [length_chunkCells, length]
        unfold calcStrChunkSize
        simp only [strChunkData]
        omega
      rw [filled.1]
      simp only [wp_ofOption_some, item]
      refine heapRule_insert ?_ ?_ ?_
      · rw [length_chunkCells, length]
        simp only [strChunkData]
        omega
      · rw [length_chunkCells, length]
        simp only [strChunkData, strChunkMaxLen] at *
        omega
      · intro fresh absent addr idx
        have empty : StringAt heap nullRid [] [] := ⟨trivial, rfl, rfl, List.nodup_nil⟩
        have unchanged : Added heap heap (rids []) :=
          ⟨fun _ member => absurd member List.not_mem_nil, fun _ _ => rfl⟩
        have bounds : 1 ≤ (data.drop (count * strChunkMaxLen)).length ∧
            (data.drop (count * strChunkMaxLen)).length ≤ strChunkMaxLen := by
          rw [length]
          exact ⟨positive, bound⟩
        have placed := empty.cons (data.drop (count * strChunkMaxLen)) unchanged bounds
          (fun proper => absurd rfl proper) absent ⟨addr, idx⟩
        rw [List.append_nil] at placed
        exact wp_writeChunks count (by omega) placed.1 placed.2 ended

/-- `write_string` of a string of 1 to 655360 bytes adds exactly the chunks of a chain that spells it. -/
theorem wp_writeString {post : RID → Heap → Prop} (nonempty : 1 ≤ data.length)
    (small : data.length ≤ 655360)
    (ended : ∀ rid chunks final, StringAt final rid data chunks → Added heap final (rids chunks) →
      post rid final) :
    (writeString data data.length).wp heapLogic post heap := by
  have short : (data.length : Int) < 2 ^ 64 := by omega
  obtain ⟨extra, extraEq, positive, bound, count, split, countEq⟩ := extraLen_eq nonempty short
  exact wp_writeString_cut positive bound split extraEq (chunkSum_eq small positive split countEq) ended

end Writing

end MyJQL.Strings
