import MyJQL.Engine.Records

/-!
# Specifications of the comparators and the handlers

The heaps of `tbl_rec` and `tbl_str` together: a record names the chain of its key
and the chain of its value.
-/

namespace MyJQL.Engine

open Library Library.Prog Storage Storage.Table Strings

/-- The heaps of `tbl_rec` and `tbl_str`. -/
abbrev Heaps : Type := Heap × Heap

def tablesLogic : Logic TablesOp Heaps := heapLogic.sum heapLogic

/-- The key of the record is this non-empty string. -/
def KeyAt (heaps : Heaps) (rid : RID) (text : List UInt8) : Prop :=
  text ≠ [] ∧ ∃ key value chunks, heaps.1 rid = some (Record.make key value) ∧
    StringAt heaps.2 key text chunks

/-! ## Records -/

section Records

variable {heap : Heap} {rid key value other : RID}

@[simp]
theorem Record.length_make (key value : RID) : (Record.make key value).length = recordSize := by
  rw [Record.make, List.length_append, length_ridCells, length_ridCells]
  rfl

@[simp]
theorem Record.key_make (key value : RID) : Record.key (Record.make key value) = some key := by
  have front : List.take ridSize (Record.make key value) = ridCells key :=
    List.take_left' (length_ridCells key)
  rw [Record.key, front, ridOfCells_ridCells]

@[simp]
theorem Record.value_make (key value : RID) : Record.value (Record.make key value) = some value := by
  have back : List.drop ridSize (Record.make key value) = ridCells value :=
    List.drop_left' (length_ridCells key)
  have all : List.take ridSize (ridCells value) = ridCells value :=
    List.take_of_length_le (le_of_eq (length_ridCells value))
  rw [Record.value, back, all, ridOfCells_ridCells]

@[simp]
theorem Record.setValue_make (key value other : RID) :
    Record.setValue (Record.make key value) other = Record.make key other := by
  have front : List.take ridSize (Record.make key value) = ridCells key :=
    List.take_left' (length_ridCells key)
  rw [Record.setValue, front, Record.make]

theorem wp_readRecord {post : Record → Heap → Prop} (live : heap rid = some (Record.make key value))
    (ended : post (Record.make key value) heap) : (readRecord rid).wp heapLogic post heap := by
  unfold readRecord
  refine wp_readInto live ?_ ?_
  · rw [Record.length_make, uninitialised, List.length_replicate]
  · have nothing : (uninitialised recordSize).drop (Record.make key value).length = [] := by
      rw [Record.length_make, uninitialised, List.drop_replicate]
      rfl
    rw [nothing, List.append_nil]
    exact ended

theorem wp_writeRecord {post : RID → Heap → Prop} (ended : ∀ rid : RID, heap rid = none →
      0 ≤ rid.blockAddr → 0 ≤ rid.idx → post rid (Function.update heap rid (some (Record.make key value)))) :
    (writeRecord (Record.make key value)).wp heapLogic post heap := by
  have whole : List.take recordSize (Record.make key value) = Record.make key value :=
    List.take_of_length_le (le_of_eq (Record.length_make key value))
  unfold writeRecord
  rw [whole, wp_perform]
  refine heapRule_insert ?_ ?_ ended
  · rw [Record.length_make]
    decide
  · rw [Record.length_make]
    decide

end Records

/-! ## Comparators -/

section Comparators

variable {heaps : Heaps} {rid rid1 rid2 : RID} {text s t key : List UInt8}

theorem wp_readKey {post : StringRecord → Heaps → Prop} (keyAt : KeyAt heaps rid text)
    (ended : ∀ record size key chunks, StringAt heaps.2 key text chunks →
      getStrChunkSize record.chunk = some size → size ≠ 0 → Cursor heaps.2 record text →
      post record heaps) :
    (readKey rid).wp tablesLogic post heaps := by
  obtain ⟨nonempty, key, value, chunks, live, string⟩ := keyAt
  unfold readKey tablesLogic
  simp only [onRec, onStr, wp_bind, wp_onLeft, wp_onRight]
  refine wp_readRecord live ?_
  rw [Record.key_make]
  simp only [wp_ofOption_some]
  refine wp_readString string nonempty fun record size sized proper cursor => ?_
  exact ended record size key chunks string sized proper cursor

theorem wp_rowRowCmp {post : Int → Heaps → Prop} (first : KeyAt heaps rid1 s)
    (second : KeyAt heaps rid2 t) (ended : post (signOf (keyOf s) (keyOf t)) heaps) :
    (rowRowCmp rid1 rid2).wp tablesLogic post heaps := by
  unfold rowRowCmp
  simp only [wp_bind]
  refine wp_readKey first fun record1 size1 key1 chunks1 string1 sized1 proper1 cursor1 => ?_
  refine wp_readKey second fun record2 size2 key2 chunks2 string2 sized2 proper2 cursor2 => ?_
  rw [sized1, sized2]
  simp only [wp_ofOption_some]
  rw [if_neg proper1]
  simp only [wp_ofOption_some, wp_bind]
  rw [if_neg proper2]
  unfold tablesLogic
  simp only [onStr, wp_bind, wp_onRight, wp_perform]
  refine heapRule_dataLength fun length fits => ?_
  have bound := string1.length_le fits
  exact wp_compareChars _ cursor1 cursor2 (by omega) ended

theorem wp_ptrRowChars {heap : Heap} {post : Int → Heap → Prop} {record : StringRecord}
    (cursor : Cursor heap record t) (ended : post (signOf (keyOf key) (keyOf t)) heap) :
    (ptrRowChars key record).wp heapLogic post heap := by
  induction key generalizing record t with
  | nil =>
      unfold ptrRowChars
      simp only [wp_bind, hasNextChar_eq cursor, wp_ofOption_some]
      cases t with
      | nil => simpa [signOf_self] using ended
      | cons b t => simpa [signOf_nil_cons] using ended
  | cons a key ih =>
      unfold ptrRowChars
      simp only [wp_bind, hasNextChar_eq cursor, wp_ofOption_some]
      cases t with
      | nil => simpa [signOf_cons_nil] using ended
      | cons b t =>
          rw [if_pos (by simp)]
          simp only [wp_bind]
          refine wp_nextChar cursor fun record' cursor' => ?_
          by_cases same : a = b
          · subst same
            rw [if_neg (not_not.mpr rfl)]
            rw [signOf_cons_self] at ended
            exact ih cursor' ended
          · rw [if_pos same]
            rw [signOf_cons_of_ne same] at ended
            exact ended

theorem wp_ptrRowCmp {post : Int → Heaps → Prop} (second : KeyAt heaps rid t)
    (ended : post (signOf (keyOf key) (keyOf t)) heaps) :
    (ptrRowCmp key rid).wp tablesLogic post heaps := by
  unfold ptrRowCmp
  simp only [wp_bind]
  refine wp_readKey second fun record size _ _ _ sized proper cursor => ?_
  rw [sized]
  simp only [wp_ofOption_some]
  rw [if_neg proper]
  unfold tablesLogic
  simp only [onStr, wp_onRight]
  exact wp_ptrRowChars cursor ended

end Comparators

/-! ## Handlers -/

section Handlers

variable {heap heap' : Heap} {rid copy : RID} {text : List UInt8} {chunks done copies : List Chunk}

/-- The first loop of `insert_handler` pushes the chunks of the chain. -/
theorem wp_collectChunks {post : List RID → Heap → Prop} (rounds : Nat) (chain : Chain heap chunks)
    (nonempty : chunks ≠ []) (enough : chunks.length ≤ rounds) (front : List RID)
    (ended : post ((rids chunks).reverse ++ front) heap) :
    (collectChunks rounds (headRid chunks) front).wp heapLogic post heap := by
  induction chunks generalizing rounds front with
  | nil => exact absurd rfl nonempty
  | cons chunk rest ih =>
      obtain ⟨rounds, rfl⟩ : ∃ less, rounds = less + 1 := ⟨rounds - 1, by simp at enough; omega⟩
      obtain ⟨proper, bounds, -, stored, tail⟩ := chain
      have notNull : (headRid (chunk :: rest)).blockAddr ≠ -1 := by
        change chunk.rid.blockAddr ≠ -1
        omega
      unfold collectChunks
      rw [if_neg notNull]
      simp only [wp_bind]
      refine wp_readInto stored ?_ ?_
      · rw [length_chunkCells, uninitialised, List.length_replicate]
        simp only [strChunkMaxSize, strChunkData, strChunkMaxLen] at *
        omega
      rw [getStrChunkRid_eq]
      simp only [wp_ofOption_some]
      cases rest with
      | nil =>
          rw [if_pos (by rfl)]
          exact ended
      | cons next others =>
          have more : (headRid (next :: others)).blockAddr ≠ -1 := by
            have nextProper := tail.1
            change next.rid.blockAddr ≠ -1
            omega
          rw [if_neg more]
          refine ih rounds tail (List.cons_ne_nil _ _) (Nat.le_of_succ_le_succ enough) _ ?_
          simp only [rids, List.map_cons, List.reverse_cons, List.append_assoc, List.cons_append,
            List.nil_append] at ended ⊢
          exact ended

/-- The copy of one chunk is stored in front of the copies of the chunks after it. -/
theorem rule_storeCopy {post : RID → Heap → Prop} {current : Chunk}
    (chain : Chain heap (current :: done)) (copied : StringAt heap' copy (spelled done) copies)
    (same : copies.map Chunk.bytes = done.map Chunk.bytes) (added : Added heap heap' (rids copies))
    (ended : ∀ rid copies' final, StringAt final rid (spelled (current :: done)) copies' →
      Added heap final (rids copies') →
      copies'.map Chunk.bytes = (current :: done).map Chunk.bytes → post rid final) :
    heapLogic.rule _ (.insert (chunkCells copy current.bytes)) post heap' := by
  obtain ⟨-, bounds, full, -⟩ := chain
  have filled : copies ≠ [] → current.bytes.length = strChunkMaxLen := by
    intro nonempty
    refine full fun empty => nonempty ?_
    rw [empty] at same
    exact List.map_eq_nil_iff.mp same
  refine heapRule_insert ?_ ?_ ?_
  · rw [length_chunkCells]
    simp only [strChunkData]
    omega
  · rw [length_chunkCells]
    simp only [strChunkData, strChunkMaxLen] at *
    omega
  · intro fresh absent addr idx
    obtain ⟨string, added'⟩ := copied.cons current.bytes added bounds filled absent ⟨addr, idx⟩
    refine ended _ _ _ string added' ?_
    rw [List.map_cons, List.map_cons, same]

/--
The second loop of `insert_handler`. The chunks in `done` have been copied to
`copies`; `newChunk` is the copy of `current`, not yet stored; `before` stands in
front of it, nearest first.
-/
theorem wp_copyChunks {post : RID → Heap → Prop} {before : List Chunk} {current : Chunk}
    {newChunk : StringChunk} {size : Int}
    (chain : Chain heap (before.reverse ++ current :: done))
    (copied : StringAt heap' copy (spelled done) copies)
    (same : copies.map Chunk.bytes = done.map Chunk.bytes)
    (added : Added heap heap' (rids copies))
    (length : newChunk.length = strChunkMaxSize)
    (item : newChunk.take size.toNat = chunkCells copy current.bytes)
    (ended : ∀ rid copies final,
      StringAt final rid (spelled (before.reverse ++ current :: done)) copies →
      Added heap final (rids copies) →
      copies.map Chunk.bytes = (before.reverse ++ current :: done).map Chunk.bytes → post rid final) :
    (copyChunks (before.map Chunk.rid) newChunk size).wp heapLogic post heap' := by
  induction before generalizing current newChunk size done copies heap' copy with
  | nil =>
      unfold copyChunks
      simp only [List.map_nil, wp_perform, item]
      exact rule_storeCopy chain copied same added ended
  | cons previous before ih =>
      rw [List.reverse_cons, List.append_assoc, List.singleton_append] at chain ended
      obtain ⟨-, -, full, stored, tail⟩ := chain.suffix
      have size32 : (chunkCells (headRid (current :: done)) previous.bytes).length = strChunkMaxSize := by
        rw [length_chunkCells, full (List.cons_ne_nil _ _)]
        rfl
      unfold copyChunks
      simp only [List.map_cons, wp_bind, wp_perform, item]
      refine rule_storeCopy tail copied same added fun fresh copies' heap'' string added' sameBytes => ?_
      have old : previous.rid ∉ rids copies' := by
        intro member
        rw [added'.1 _ member] at stored
        cases stored
      have stored' : heap'' previous.rid =
          some (chunkCells (headRid (current :: done)) previous.bytes) := by
        rw [added'.2 _ old]
        exact stored
      refine wp_readInto stored' (le_of_eq (size32.trans length.symm)) ?_
      have nothing : newChunk.drop (chunkCells (headRid (current :: done)) previous.bytes).length = [] :=
        List.drop_of_length_le (le_of_eq (length.trans size32.symm))
      rw [nothing, setStrChunkRid_eq, List.append_nil]
      refine ih chain string sameBytes added' ?_ ?_ ended
      · rw [length_chunkCells] at size32 ⊢
        exact size32
      · apply List.take_of_length_le
        rw [length_chunkCells] at size32 ⊢
        rw [size32]
        rfl

/-- The copy of a key is a new chain with the same text. -/
theorem wp_copyString {post : RID → Heap → Prop} (string : StringAt heap rid text chunks)
    (nonempty : text ≠ [])
    (ended : ∀ copy copies final, StringAt final copy text copies → Added heap final (rids copies) →
      post copy final) :
    (copyString rid).wp heapLogic post heap := by
  have chain := string.chain
  have spells := string.spells
  have proper : chunks ≠ [] := by
    rintro rfl
    exact nonempty spells.symm
  obtain ⟨before, last, split⟩ : ∃ before last, chunks = before ++ [last] :=
    ⟨chunks.dropLast, chunks.getLast proper, (List.dropLast_append_getLast proper).symm⟩
  unfold copyString
  simp only [wp_bind, wp_perform]
  refine heapRule_dataLength fun length fits => ?_
  have bound := string.length_le fits
  rw [← string.head]
  refine wp_collectChunks _ chain proper (by omega) [] ?_
  have pushed : (rids chunks).reverse ++ [] = last.rid :: before.reverse.map Chunk.rid := by
    rw [split, rids, List.map_append, List.reverse_append, List.append_nil, List.map_reverse]
    rfl
  rw [pushed]
  rw [split] at chain spells
  obtain ⟨-, bounds, -, stored, -⟩ := chain.suffix
  simp only [wp_bind]
  refine wp_readInto stored ?_ ?_
  · rw [length_chunkCells, uninitialised, List.length_replicate]
    simp only [strChunkMaxSize, strChunkData, strChunkMaxLen] at *
    omega
  rw [getStrChunkSize_eq bounds.2]
  simp only [wp_ofOption_some]
  have reversed : before.reverse.reverse ++ last :: [] = before ++ [last] := by
    rw [List.reverse_reverse]
  have empty : StringAt heap nullRid (spelled []) [] := ⟨trivial, rfl, rfl, List.nodup_nil⟩
  have unchanged : Added heap heap (rids []) :=
    ⟨fun _ member => absurd member List.not_mem_nil, fun _ _ => rfl⟩
  refine wp_copyChunks (reversed ▸ chain) empty rfl unchanged ?_ ?_ ?_
  · rw [List.length_append, List.length_drop, length_chunkCells, uninitialised, List.length_replicate]
    simp only [strChunkMaxSize, strChunkData, strChunkMaxLen] at *
    omega
  · apply List.take_left'
    rw [length_chunkCells]
    unfold calcStrChunkSize
    simp only [strChunkData]
    omega
  · intro copy copies final copied added _
    rw [reversed, spells] at copied
    exact ended copy copies final copied added

variable {heaps : Heaps} {key value : RID} {valueText : List UInt8} {valueChunks : List Chunk}

/-- `insert_handler` adds one record and one chain: a copy of the key and no value. -/
theorem wp_insertHandler {post : RID → Heaps → Prop}
    (live : heaps.1 rid = some (Record.make key value)) (string : StringAt heaps.2 key text chunks)
    (nonempty : text ≠ [])
    (ended : ∀ (copyRid copy : RID) copies strs, heaps.1 copyRid = none → 0 ≤ copyRid.blockAddr →
      0 ≤ copyRid.idx → StringAt strs copy text copies → Added heaps.2 strs (rids copies) →
      post copyRid (Function.update heaps.1 copyRid (some (Record.make copy nullRid)), strs)) :
    (insertHandler rid).wp tablesLogic post heaps := by
  unfold insertHandler tablesLogic
  simp only [onRec, onStr, wp_bind, wp_onLeft, wp_onRight]
  refine wp_readRecord live ?_
  rw [Record.key_make]
  simp only [wp_ofOption_some]
  refine wp_copyString string nonempty fun copy copies strs copied added => ?_
  refine wp_writeRecord fun copyRid fresh addr idx => ?_
  exact ended copyRid copy copies strs fresh addr idx copied added

/-- `delete_handler` takes out the record and the two chains it names. -/
theorem wp_deleteHandler {post : Unit → Heaps → Prop}
    (live : heaps.1 rid = some (Record.make key value)) (string : StringAt heaps.2 key text chunks)
    (valueString : StringAt heaps.2 value valueText valueChunks)
    (apart : ∀ rid ∈ rids valueChunks, rid ∉ rids chunks)
    (ended : post () (Function.update heaps.1 rid none,
      without (without heaps.2 (rids chunks)) (rids valueChunks))) :
    (deleteHandler rid).wp tablesLogic post heaps := by
  unfold deleteHandler tablesLogic
  simp only [onRec, onStr, wp_bind, wp_onLeft, wp_onRight]
  refine wp_readRecord live ?_
  rw [Record.key_make, Record.value_make]
  simp only [wp_ofOption_some]
  refine wp_deleteString string ?_
  have kept : StringAt (without heaps.2 (rids chunks)) value valueText valueChunks :=
    valueString.congr fun other member => if_neg (apart other member)
  refine wp_deleteString kept ?_
  unfold deleteRecord
  refine heapRule_delete ?_ ended
  rw [live]
  exact Option.some_ne_none _

end Handlers

end MyJQL.Engine
