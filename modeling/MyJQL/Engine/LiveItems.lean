import MyJQL.Engine.EngineRuns
import MyJQL.Library.Contract

/-!
# Items of their kind

`tbl_rec` is for records and `tbl_str` for chunks. Whatever the tables answer, as long as it is
of its kind, the engine inserts nothing else; so every item that it reads or deletes in a run
is live at that moment and of its kind.
-/

namespace MyJQL.Engine

open Library Library.Prog Storage Storage.Table Strings

/-- An item that `write_record` has written. -/
structure IsRecord (item : List Cell) : Prop where
  size : item.length = recordSize
  fields : ∃ key value, item = Record.make key value

/-- An item that has been written as a chunk: a RID, a length, and that many characters at least. -/
structure IsChunk (item : List Cell) : Prop where
  size : item.length ≤ strChunkMaxSize
  fields : ∃ next, ∃ len : Nat, ∃ data, item = ridCells next ++ (shortCells len ++ data) ∧ len ≤ data.length

/-- What is inserted is of the kind, and so is what is read. -/
def itemContract (kind : List Cell → Prop) : Contract TableOp where
  asked
    | _, .insert src => kind src
    | _, _ => True
  expected
    | _, .read _, item => kind item
    | _, _, _ => True

/-- A contract that lets a program read. -/
class Readable (contract : Contract TableOp) : Prop where
  read : ∀ rid, contract.asked _ (.read rid)
  dataLength : contract.asked _ .dataLength

instance (kind : List Cell → Prop) : Readable (itemContract kind) := ⟨fun _ => trivial, trivial⟩

/-! ## Programs that only read -/

section Reading

variable {contract : Contract TableOp} [Readable contract] {rid : RID} {dest : List Cell}
  {record first second : StringRecord}

theorem meets_readInto : (readInto rid dest).Meets contract fun result =>
    ∃ item, contract.expected _ (.read rid) item ∧ item.length ≤ dest.length ∧ result = item ++ dest.drop item.length := by
  refine (meets_perform (Readable.read rid) fun item told => told).bind fun item told => ?_
  split
  · exact ⟨item, told, ‹_›, rfl⟩
  · trivial

theorem meets_readString : (readString rid).Meets contract fun _ => True :=
  meets_readInto.bind fun _ _ => trivial

theorem meets_nextChar : (nextChar record).Meets contract fun _ => True := by
  refine meets_option.bind fun size _ => ?_
  split
  · exact meets_option.bind fun _ _ => trivial
  · refine meets_option.bind fun next _ => ?_
    split
    · trivial
    · refine meets_readInto.bind fun chunk _ => ?_
      exact meets_option.bind fun _ _ => trivial

theorem meets_compareChars (rounds : Nat) :
    (compareChars rounds first second).Meets contract fun _ => True := by
  induction rounds generalizing first second with
  | zero => trivial
  | succ rounds ih =>
      refine meets_option.bind fun firstMore _ => meets_option.bind fun secondMore _ => ?_
      split
      · refine meets_nextChar.bind fun ⟨a, first'⟩ _ => meets_nextChar.bind fun ⟨b, second'⟩ _ => ?_
        change Meets _ (if a ≠ b then _ else _) _
        split
        · trivial
        · exact ih
      · split
        · trivial
        · split <;> trivial

theorem meets_ptrRowChars (key : List UInt8) :
    (ptrRowChars key record).Meets contract fun _ => True := by
  induction key generalizing record with
  | nil =>
      refine meets_option.bind fun more _ => ?_
      split <;> trivial
  | cons a key ih =>
      refine meets_option.bind fun more _ => ?_
      split
      · refine meets_nextChar.bind fun ⟨b, record'⟩ _ => ?_
        change Meets _ (if a ≠ b then _ else _) _
        split
        · trivial
        · exact ih
      · trivial

theorem meets_loadChars (maxSize rounds size : Nat) (written : List UInt8) :
    (loadChars maxSize rounds size record written).Meets contract fun _ => True := by
  induction rounds generalizing size record written with
  | zero => trivial
  | succ rounds ih =>
      refine meets_option.bind fun more _ => ?_
      split
      · exact meets_nextChar.bind fun char _ => ih _ _
      · split <;> trivial

theorem meets_dataLength : (perform .dataLength : ItemProg Int).Meets contract fun _ => True :=
  meets_perform Readable.dataLength fun _ _ => trivial

theorem meets_loadString (maxSize : Nat) : (loadString record maxSize).Meets contract fun _ => True :=
  meets_dataLength.bind fun _ _ => meets_loadChars _ _ _ _

theorem meets_collectChunks (rounds : Nat) (front : List RID) :
    (collectChunks rounds rid front).Meets contract fun _ => True := by
  induction rounds generalizing rid front with
  | zero => trivial
  | succ rounds ih =>
      unfold collectChunks
      split
      · trivial
      · refine meets_readInto.bind fun tmp _ => meets_option.bind fun next _ => ?_
        split
        · trivial
        · exact ih _

end Reading

/-! ## Programs that insert nothing -/

section Deleting

variable {kind : List Cell → Prop} {rid : RID}

theorem meets_deleteChunks (rounds : Nat) : (deleteChunks rounds rid).Meets (itemContract kind) fun _ => True := by
  induction rounds generalizing rid with
  | zero => trivial
  | succ rounds ih =>
      unfold deleteChunks
      split
      · trivial
      · refine meets_readInto.bind fun chunk _ => ?_
        refine (meets_perform trivial fun _ _ => trivial).bind fun _ _ => ?_
        exact meets_option.bind fun next _ => ih

theorem meets_deleteString : (deleteString rid).Meets (itemContract kind) fun _ => True :=
  meets_dataLength.bind fun _ _ => meets_deleteChunks _

end Deleting

/-! ## Records -/

section Records

variable {rid key value : RID} {record : Record}

theorem isRecord_make (key value : RID) : IsRecord (Record.make key value) := ⟨Record.length_make key value, key, value, rfl⟩

theorem meets_readRecord : (readRecord rid).Meets (itemContract IsRecord) IsRecord := by
  refine meets_readInto.mono ?_
  rintro result ⟨item, is, -, rfl⟩
  have nothing : (uninitialised recordSize).drop item.length = [] := by
    rw [is.size, uninitialised, List.drop_replicate]
    rfl
  rw [nothing, List.append_nil]
  exact is

theorem meets_writeRecord (is : IsRecord record) : (writeRecord record).Meets (itemContract IsRecord) fun _ => True := by
  refine meets_perform ?_ fun _ _ => trivial
  change IsRecord (List.take recordSize record)
  rw [List.take_of_length_le is.size.le]
  exact is

theorem meets_deleteRecord : (deleteRecord rid).Meets (itemContract IsRecord) fun _ => True :=
  meets_perform trivial fun _ _ => trivial

theorem IsRecord.setValue (is : IsRecord record) (value : RID) : IsRecord (Record.setValue record value) := by
  obtain ⟨-, key, old, rfl⟩ := is
  rw [Record.setValue_make]
  exact isRecord_make key value

end Records

/-! ## Chunks -/

section Chunks

variable {next rid : RID} {len : Nat} {data rest front item dest : List Cell} {chunk : StringChunk} {size : Int}
  {bytes text : List UInt8}

theorem isChunk_cells (next : RID) (enough : len ≤ data.length) (fits : data.length ≤ strChunkMaxLen) :
    IsChunk (ridCells next ++ (shortCells len ++ data)) := by
  refine ⟨?_, next, len, data, rfl, enough⟩
  rw [List.length_append, List.length_append, length_ridCells]
  change 10 + (2 + data.length) ≤ 32
  simp only [strChunkMaxLen] at fits
  omega

/-- A variable of type `StringChunk` with a link and a length. -/
inductive IsFilled : StringChunk → Nat → Prop where
  | intro (next : RID) (len : Nat) (data : List Cell) (enough : len ≤ data.length) (size : data.length = strChunkMaxLen) :
      IsFilled (ridCells next ++ (shortCells len ++ data)) len

theorem IsFilled.take (filled : IsFilled chunk len) : IsChunk (chunk.take (calcStrChunkSize len).toNat) := by
  obtain ⟨next, len, data, enough, size⟩ := filled
  have length : (ridCells next ++ shortCells len).length = strChunkData := by
    rw [List.length_append, length_ridCells]
    rfl
  have count : (calcStrChunkSize len).toNat = (ridCells next ++ shortCells len).length + len := by
    rw [length, calcStrChunkSize]
    omega
  rw [← List.append_assoc, count, List.take_length_add_append, List.append_assoc]
  refine isChunk_cells next ?_ ?_
  · rw [List.length_take]
    exact le_min le_rfl enough
  · rw [List.length_take, ← size]
    exact min_le_right _ _

theorem IsFilled.isChunk (filled : IsFilled chunk len) : IsChunk chunk := by
  obtain ⟨next, len, data, enough, size⟩ := filled
  exact isChunk_cells next enough size.le

theorem IsFilled.setRid (filled : IsFilled chunk len) (rid : RID) : IsFilled (setStrChunkRid chunk rid) len := by
  obtain ⟨next, len, data, enough, size⟩ := filled
  rw [setStrChunkRid, List.drop_left' (length_ridCells next)]
  exact .intro rid len data enough size

theorem IsFilled.getSize (filled : IsFilled chunk len) : getStrChunkSize chunk = some (len : Int) := by
  obtain ⟨next, len, data, enough, size⟩ := filled
  rw [getStrChunkSize, List.drop_left' (length_ridCells next)]
  refine shortOfCells_shortCells (Int.natCast_nonneg len) ?_
  simp only [strChunkMaxLen] at size
  omega

/-- A chunk is read over a variable. -/
theorem IsChunk.filled (is : IsChunk item) (size : dest.length = strChunkMaxSize) :
    ∃ len, IsFilled (item ++ dest.drop item.length) len := by
  obtain ⟨small, next, len, data, rfl, enough⟩ := is
  refine ⟨len, ?_⟩
  rw [List.append_assoc, List.append_assoc]
  have length : (ridCells next ++ (shortCells len ++ data)).length = strChunkData + data.length := by
    rw [← List.append_assoc, List.length_append, List.length_append, length_ridCells]
    rfl
  rw [length] at small ⊢
  refine .intro next len _ ?_ ?_
  · rw [List.length_append]
    omega
  · rw [List.length_append, List.length_drop, size]
    simp only [strChunkMaxSize, strChunkData, strChunkMaxLen] at *
    omega

theorem IsFilled.length (filled : IsFilled chunk len) : chunk.length = strChunkMaxSize := by
  obtain ⟨next, len, data, enough, size⟩ := filled
  rw [List.length_append, List.length_append, length_ridCells, size]
  rfl

theorem meets_readChunk (size : dest.length = strChunkMaxSize) :
    (readInto rid dest).Meets (itemContract IsChunk) fun chunk => ∃ len, IsFilled chunk len := by
  refine meets_readInto.mono ?_
  rintro result ⟨item, is, -, rfl⟩
  exact is.filled size

theorem meets_copyChunks (before : List RID) (filled : IsFilled chunk len) (is : IsChunk (chunk.take size.toNat)) :
    (copyChunks before chunk size).Meets (itemContract IsChunk) fun _ => True := by
  induction before generalizing chunk len size with
  | nil => exact meets_perform is fun _ _ => trivial
  | cons front before ih =>
      refine (meets_perform is fun _ _ => trivial).bind fun nxtChunk _ => ?_
      refine (meets_readChunk filled.length).bind fun chunk' ⟨len', filled'⟩ => ?_
      have linked := filled'.setRid nxtChunk
      refine ih linked ?_
      rw [Int.toNat_natCast, List.take_of_length_le linked.length.le]
      exact linked.isChunk

theorem meets_copyString : (copyString rid).Meets (itemContract IsChunk) fun _ => True := by
  refine meets_dataLength.bind fun length _ => (meets_collectChunks _ []).bind fun front _ => ?_
  cases front with
  | nil => trivial
  | cons front rest =>
      refine (meets_readChunk List.length_replicate).bind fun chunk ⟨len, filled⟩ => ?_
      rw [filled.getSize]
      exact meets_copyChunks rest filled filled.take

/-! ### Writing -/

/-- The copying loop leaves the link and the length of the chunk alone. -/
theorem copyData_front {bytes : List UInt8} {start : Int} {count index : Nat} {result : StringChunk}
    (length : front.length = strChunkData) (copied : copyData bytes start count index (front ++ rest) = some result) :
    ∃ rest', result = front ++ rest' ∧ rest'.length = rest.length := by
  induction count generalizing index rest with
  | zero =>
      cases copied
      exact ⟨rest, rfl, rfl⟩
  | succ count ih =>
      obtain ⟨value, -, step⟩ := Option.bind_eq_some_iff.mp copied
      obtain ⟨written, wrote, later⟩ := Option.bind_eq_some_iff.mp step
      unfold setStrChunkData at wrote
      split at wrote
      · cases wrote
        rw [List.set_append_right _ _ (by omega)] at later
        obtain ⟨rest', rfl, same⟩ := ih later
        exact ⟨rest', rfl, same.trans (List.length_set ..)⟩
      · cases wrote

theorem isFilled_newChunk (len : Nat) {bytes : List UInt8} {start : Int} {count : Nat} {result : StringChunk}
    (fits : len ≤ strChunkMaxLen) (copied : copyData bytes start count 0 (newChunk rid len) = some result) :
    IsFilled result len := by
  have shape : newChunk rid len = (ridCells rid ++ shortCells len) ++ uninitialised strChunkMaxLen := by
    rfl
  rw [shape] at copied
  have length : (ridCells rid ++ shortCells len).length = strChunkData := by
    rw [List.length_append, length_ridCells]
    rfl
  obtain ⟨rest, rfl, same⟩ := copyData_front length copied
  have size : rest.length = strChunkMaxLen := same.trans List.length_replicate
  rw [List.append_assoc]
  exact .intro rid len rest (size ▸ fits) size

theorem meets_writeChunks (count : Nat) :
    (writeChunks bytes count rid).Meets (itemContract IsChunk) fun _ => True := by
  induction count generalizing rid with
  | zero => trivial
  | succ count ih =>
      refine (meets_ofOption fun chunk copied => isFilled_newChunk strChunkMaxLen le_rfl copied).bind fun chunk filled => ?_
      exact (meets_perform filled.isChunk fun _ _ => trivial).bind fun rid' _ => ih

theorem meets_writeString (nonempty : 1 ≤ bytes.length) (small : bytes.length ≤ 655360) :
    (writeString bytes bytes.length).Meets (itemContract IsChunk) fun _ => True := by
  have short : (bytes.length : Int) < 2 ^ 64 := by omega
  obtain ⟨extra, extraEq, -, bound, -⟩ := extraLen_eq nonempty short
  have filled : ∀ start tail, copyData bytes start (extra : Int).toNat 0 (newChunk nullRid extra) = some tail →
      IsFilled tail extra := by
    intro start tail copied
    exact isFilled_newChunk extra bound copied
  unfold writeString
  simp only [extraEq]
  refine (meets_ofOption (filled _)).bind fun tail filled => ?_
  refine (meets_perform filled.take fun _ _ => trivial).bind fun rid _ => ?_
  generalize (chunkSum bytes.length).toNat = count
  exact meets_writeChunks count

end Chunks

/-! ## The engine -/

/-- Records in `tbl_rec`, chunks in `tbl_str`. -/
def tablesContract : Contract TablesOp := (itemContract IsRecord).sum (itemContract IsChunk)

def engineContract : Contract EngineOp := Contract.any.sum tablesContract

section Engine

variable {rid rid1 rid2 : RID} {key value : List UInt8}

section Comparators

variable {recs strs : Contract TableOp} [Readable recs] [Readable strs]

theorem meets_readKey : (readKey rid).Meets (recs.sum strs) fun _ => True := by
  refine meets_readInto.onLeft.bind fun record _ => ?_
  exact meets_option.bind fun key _ => meets_readString.onRight

theorem meets_rowRowCmp : (rowRowCmp rid1 rid2).Meets (recs.sum strs) fun _ => True := by
  refine meets_readKey.bind fun first _ => meets_readKey.bind fun second _ => ?_
  refine meets_option.bind fun size1 _ => ?_
  split
  · trivial
  · refine meets_option.bind fun size2 _ => ?_
    split
    · trivial
    · exact meets_dataLength.onRight.bind fun length _ => (meets_compareChars _).onRight

theorem meets_ptrRowCmp : (ptrRowCmp key rid).Meets (recs.sum strs) fun _ => True := by
  refine meets_readKey.bind fun record _ => meets_option.bind fun size _ => ?_
  split
  · trivial
  · exact (meets_ptrRowChars key).onRight

end Comparators

theorem meets_insertHandler : (insertHandler rid).Meets tablesContract fun _ => True := by
  refine meets_readRecord.onLeft.bind fun record _ => meets_option.bind fun key _ => ?_
  exact meets_copyString.onRight.bind fun copy _ => (meets_writeRecord (isRecord_make copy nullRid)).onLeft

theorem meets_deleteHandler : (deleteHandler rid).Meets tablesContract fun _ => True := by
  refine meets_readRecord.onLeft.bind fun record _ => meets_option.bind fun key _ => ?_
  refine meets_deleteString.onRight.bind fun _ _ => meets_option.bind fun value _ => ?_
  exact meets_deleteString.onRight.bind fun _ _ => meets_deleteRecord.onLeft

/-- Whatever the index does with the functions that it is passed, they keep the contract. -/
theorem meets_onIdx {α : Type} (program : Index.TreeProg (List UInt8) α) :
    (onIdx program).Meets engineContract fun _ => True := by
  refine Meets.interp (fun β effect _ => ?_) (meets_any program)
  cases effect with
  | left effect => exact meets_perform trivial fun _ _ => trivial
  | right effect =>
      cases effect with
      | rowRowCmp rid1 rid2 => exact meets_rowRowCmp.onRight
      | ptrRowCmp key rid => exact meets_ptrRowCmp.onRight
      | insertHandler rid => exact meets_insertHandler.onRight
      | deleteHandler rid => exact meets_deleteHandler.onRight

theorem meets_onTblRec {α : Type} {program : ItemProg α} {kind : α → Prop} (meets : program.Meets (itemContract IsRecord) kind) :
    (onTblRec program).Meets engineContract kind := meets.onLeft.onRight

theorem meets_onTblStr {α : Type} {program : ItemProg α} {kind : α → Prop} (meets : program.Meets (itemContract IsChunk) kind) :
    (onTblStr program).Meets engineContract kind := meets.onRight.onRight

theorem meets_myjqlGet (maxSize : Nat) : (myjqlGet key maxSize).Meets engineContract fun _ => True := by
  refine (meets_onIdx _).bind fun bpResult _ => ?_
  split
  · trivial
  · refine (meets_onTblRec meets_readRecord).bind fun record _ => meets_option.bind fun value _ => ?_
    exact (meets_onTblStr meets_readString).bind fun stringRecord _ => meets_onTblStr (meets_loadString maxSize)

theorem meets_myjqlSet (keyBounds : 1 ≤ key.length ∧ key.length ≤ 655360)
    (valueBounds : 1 ≤ value.length ∧ value.length ≤ 655360) : (myjqlSet key value).Meets engineContract fun _ => True := by
  have writesKey := meets_onTblStr (meets_writeString keyBounds.1 keyBounds.2)
  have writesValue := meets_onTblStr (meets_writeString valueBounds.1 valueBounds.2)
  refine (meets_onIdx _).bind fun bpResult _ => ?_
  split
  · refine writesKey.bind fun keyRid _ => writesValue.bind fun valueRid _ => ?_
    refine (meets_onTblRec (meets_writeRecord (isRecord_make keyRid valueRid))).bind fun recordRid _ => ?_
    exact (meets_onIdx _).bind fun _ _ => trivial
  · refine (meets_onTblRec meets_readRecord).bind fun record is => meets_option.bind fun oldValueRid _ => ?_
    refine (meets_onTblStr meets_deleteString).bind fun _ _ => writesValue.bind fun newValueRid _ => ?_
    refine (meets_onIdx _).bind fun _ _ => (meets_onTblRec meets_deleteRecord).bind fun _ _ => ?_
    refine (meets_onTblRec (meets_writeRecord (is.setValue newValueRid))).bind fun newBpResult _ => ?_
    exact (meets_onIdx _).bind fun _ _ => trivial

theorem meets_myjqlDel : (myjqlDel key).Meets engineContract fun _ => True := by
  refine (meets_onIdx _).bind fun bpResult _ => ?_
  split
  · trivial
  · refine (meets_onIdx _).bind fun _ _ => (meets_onTblRec meets_readRecord).bind fun record _ => ?_
    refine meets_option.bind fun keyRid _ => (meets_onTblStr meets_deleteString).bind fun _ _ => ?_
    refine meets_option.bind fun valueRid _ => (meets_onTblStr meets_deleteString).bind fun _ _ => ?_
    exact meets_onTblRec meets_deleteRecord

end Engine

/-! ## Guards -/

/-- What is read or deleted is live and of the kind, and what is inserted is of the kind. -/
def HeapGuard (kind : List Cell → Prop) : ∀ β : Type, TableOp β → Heap → Prop
  | _, .read rid, heap => ∃ item, heap rid = some item ∧ kind item
  | _, .delete rid, heap => ∃ item, heap rid = some item ∧ kind item
  | _, .insert src, _ => kind src
  | _, .dataLength, _ => True

/-- Every live item is of the kind. -/
def AllOf (kind : List Cell → Prop) (heap : Heap) : Prop := ∀ rid item, heap rid = some item → kind item

theorem AllOf.insert {kind : List Cell → Prop} {heap : Heap} {rid : RID} {src : List Cell} (all : AllOf kind heap)
    (is : kind src) : AllOf kind (Function.update heap rid (some src)) := by
  intro other item live
  by_cases same : other = rid
  · subst same
    rw [Function.update_self] at live
    cases live
    exact is
  · rw [Function.update_of_ne same] at live
    exact all other item live

theorem AllOf.delete {kind : List Cell → Prop} {heap : Heap} {rid : RID} (all : AllOf kind heap) :
    AllOf kind (Function.update heap rid none) := by
  intro other item live
  by_cases same : other = rid
  · subst same
    rw [Function.update_self] at live
    cases live
  · rw [Function.update_of_ne same] at live
    exact all other item live

/-- A table into which only items of a kind are inserted. -/
theorem heapLogic_honours (kind : List Cell → Prop) :
    heapLogic.Honours (itemContract kind) (AllOf kind) (HeapGuard kind) := by
  intro β effect post heap all asked holds
  cases effect with
  | read rid =>
      obtain ⟨item, live, ended⟩ := holds
      exact ⟨⟨item, live, all rid item live⟩, item, live, ended, all, all rid item live⟩
  | insert src =>
      obtain ⟨nonempty, small, ended⟩ := holds
      exact ⟨asked, nonempty, small, fun rid fresh addr idx => ⟨ended rid fresh addr idx, all.insert asked, trivial⟩⟩
  | delete rid =>
      obtain ⟨live, ended⟩ := holds
      obtain ⟨item, bound⟩ := Option.ne_none_iff_exists'.mp live
      exact ⟨⟨item, bound, all rid item bound⟩, live, ended, all.delete, trivial⟩
  | dataLength => exact ⟨trivial, fun length fits => ⟨holds length fits, all, trivial⟩⟩

/-- The guards of the two tables. -/
def StateGuard : ∀ β : Type, EngineOp β → EngineState → Prop :=
  SumOp.Guard (fun _ _ _ => True) (SumOp.Guard (HeapGuard IsRecord) (HeapGuard IsChunk))

/-- Every live item of a table is of its kind. -/
def Kinds (state : EngineState) : Prop := True ∧ AllOf IsRecord state.2.1 ∧ AllOf IsChunk state.2.2

theorem engineLogic_honours : engineLogic.Honours engineContract Kinds StateGuard :=
  Logic.Honours.sum (Logic.Honours.any _)
    (Logic.Honours.sum (heapLogic_honours IsRecord) (heapLogic_honours IsChunk))

/-- A live chunk is of the kind. -/
theorem isChunk_of_chain {heap : Heap} {chunks : List Chunk} {rid : RID} (chain : Chain heap chunks)
    (member : rid ∈ rids chunks) : ∃ item, heap rid = some item ∧ IsChunk item := by
  induction chunks with
  | nil => exact absurd member List.not_mem_nil
  | cons chunk rest ih =>
      obtain ⟨-, bounds, -, stored, tail⟩ := chain
      rcases List.mem_cons.mp member with rfl | later
      · have length : (chunk.bytes.map Cell.byte).length = chunk.bytes.length := List.length_map ..
        exact ⟨_, stored, isChunk_cells _ length.ge (length.trans_le bounds.2)⟩
      · exact ih tail later

theorem EngineHolds.kinds {contents : List UInt8 → Option (List UInt8)} {state : EngineState}
    (holds : EngineHolds contents state) : Kinds state := by
  obtain ⟨stored, ⟨word, world, seps, -, -, tends⟩, -⟩ := holds
  have memory := tends.memory
  refine ⟨trivial, fun rid item live => ?_, fun rid item live => ?_⟩
  · have owned := (memory.records.live rid).mp (by rw [live]; exact Option.some_ne_none item)
    obtain ⟨entry, member, rfl⟩ := Multiset.mem_map.mp owned
    rw [(memory.placed entry member).record] at live
    cases live
    exact isRecord_make _ _
  · have owned := (memory.strings.owns.live rid).mp (by rw [live]; exact Option.some_ne_none item)
    obtain ⟨text, member, here⟩ := Multiset.mem_bind.mp owned
    obtain ⟨found, bound, is⟩ := isChunk_of_chain (memory.strings.spelled text member).chain here
    rw [live] at bound
    cases bound
    exact is

/-! ## Runs -/

/-- The RID is live, its item is of the kind, and `get_item` finds it in neither of its error branches. -/
def LiveItem (kind : List Cell → Prop) (rid : RID) (maps : TableMaps) : Prop :=
  ∃ heap item offset, HoldsHeap heap maps ∧ heap rid = some item ∧ kind item ∧
    (maps.1.page rid.blockAddr).getItem rid.idx = some (some offset)

/-- A call on a table whose items are of a kind. -/
def ItemGuard (kind : List Cell → Prop) : ∀ β : Type, TableOp β → TableMaps → Prop
  | _, .read rid, maps => LiveItem kind rid maps
  | _, .delete rid, maps => LiveItem kind rid maps
  | _, .insert src, _ => kind src
  | _, .dataLength, _ => True

/-- The items of `tbl_rec` are records, those of `tbl_str` chunks. -/
def ItemsKept : ∀ β : Type, EngineOp β → EngineMaps → Prop :=
  SumOp.Guard (fun _ _ _ => True) (SumOp.Guard (ItemGuard IsRecord) (ItemGuard IsChunk))

section Runs

variable {kind : List Cell → Prop} {rid : RID} {heap : Heap} {item : List Cell} {table : TableMaps}
  {contents : List UInt8 → Option (List UInt8)} {maps : EngineMaps}

theorem LiveItem.of_heap (holds : HoldsHeap heap table) (live : ∃ item, heap rid = some item ∧ kind item) :
    LiveItem kind rid table := by
  obtain ⟨items, tableHolds, rfl⟩ := holds
  obtain ⟨item, bound, is⟩ := live
  obtain ⟨inside, nonneg, member⟩ := tableHolds.live bound
  obtain ⟨_, _, _, offset, got, -⟩ := (tableHolds.blocks _ inside).getItem member
  rw [Int.toNat_of_nonneg nonneg] at got
  exact ⟨_, item, offset, ⟨items, tableHolds, rfl⟩, bound, is, got⟩

theorem ItemGuard.of_heap {β : Type} {op : TableOp β} (holds : HoldsHeap heap table) (guard : HeapGuard kind β op heap) :
    ItemGuard kind β op table := by
  cases op with
  | read rid => exact LiveItem.of_heap holds guard
  | insert src => exact guard
  | delete rid => exact LiveItem.of_heap holds guard
  | dataLength => trivial

theorem ItemsKept.of_state {β : Type} {op : EngineOp β} {state : EngineState} (holds : HoldsState state maps)
    (guard : StateGuard β op state) : ItemsKept β op maps := by
  cases op with
  | left effect => trivial
  | right effect =>
      cases effect with
      | left effect => exact ItemGuard.of_heap holds.2.1 guard
      | right effect => exact ItemGuard.of_heap holds.2.2 guard

/-- A call that is correct and meets the contract keeps the guards on the pages. -/
theorem always_of_wp {α : Type} {program : EngineProg α} {post : α → EngineState → Prop} {state : EngineState}
    (related : HoldsState state maps) (kinds : Kinds state) (meets : program.Meets engineContract fun _ => True)
    (holds : program.wp engineLogic post state) : program.Always engineMeaning ItemsKept maps := by
  have guarded := meets.wp_guarded engineLogic_honours kinds holds
  obtain ⟨-, always⟩ := run_of_wp (wp_simulates engine_simulates_pages.guarded related guarded)
  refine always.imp ?_
  rintro β op before ⟨state', related', guard⟩
  exact .of_state related' guard

/-- The guard in front of every call on the tables, in one command. -/
def Command.Always (guard : ∀ β : Type, EngineOp β → EngineMaps → Prop) : Command → EngineMaps → Prop
  | .set key value, maps => (myjqlSet key value).Always engineMeaning guard maps
  | .del key, maps => (myjqlDel key).Always engineMeaning guard maps
  | .get key maxSize, maps => (myjqlGet key maxSize).Always engineMeaning guard maps
  | .reopen, _ => True

/-- The guard in front of every call on the tables, in a session. -/
def SessionAlways (guard : ∀ β : Type, EngineOp β → EngineMaps → Prop) : List Command → EngineMaps → Prop
  | [], _ => True
  | command :: commands, maps => command.Always guard maps ∧
      ∀ results after, command.run maps = some (results, after) → SessionAlways guard commands after

theorem FilesHold.always {command : Command} (holds : FilesHold contents maps) (fits : command.Fits) :
    command.Always ItemsKept maps := by
  obtain ⟨state, related, holds⟩ := holds
  cases command with
  | set key value =>
      have spec : Serves (myjqlSet key value) (fun _ _ => True) state :=
        serves_myjqlSet holds fits.1 fits.2 fun _ _ => trivial
      exact always_of_wp related holds.kinds (meets_myjqlSet fits.1 fits.2) spec.wp
  | del key =>
      have spec : Serves (myjqlDel key) (fun _ _ => True) state := serves_myjqlDel holds fun _ _ => trivial
      exact always_of_wp related holds.kinds meets_myjqlDel spec.wp
  | get key maxSize =>
      have spec : Serves (myjqlGet key maxSize) (fun _ _ => True) state := serves_myjqlGet holds fun _ _ => trivial
      exact always_of_wp related holds.kinds (meets_myjqlGet maxSize) spec.wp
  | reopen => trivial

theorem FilesHold.sessionAlways (commands : List Command) (holds : FilesHold contents maps)
    (fits : ∀ command ∈ commands, command.Fits) : SessionAlways ItemsKept commands maps := by
  induction commands generalizing contents maps with
  | nil => trivial
  | cons command commands ih =>
      refine ⟨holds.always (fits command List.mem_cons_self), fun results after ran => ?_⟩
      obtain ⟨after', ran', holds'⟩ := run_command holds (fits command List.mem_cons_self)
      rw [ran] at ran'
      cases ran'
      exact ih holds' fun other member => fits other (List.mem_cons_of_mem _ member)

/--
No dead or wrongly typed RID is ever used. In every session each item that is read or deleted,
at any point inside a call, is live at that moment: in `tbl_rec` it is a record of 20 bytes, in
`tbl_str` a chunk of at most 32, and nothing else is ever inserted into the two tables. The
session returns, so no read copies more than its destination holds.
-/
theorem items_are_live (commands : List Command) (fits : ∀ command ∈ commands, command.Fits) :
    ∃ opened results after, myjqlInit noFiles = some opened ∧ session commands opened = some (results, after) ∧
      SessionAlways ItemsKept commands opened := by
  obtain ⟨opened, ran, holds⟩ := run_myjqlInit
  obtain ⟨after, rest, -⟩ := run_session commands holds fits
  exact ⟨opened, _, after, ran, rest, holds.sessionAlways commands fits⟩

theorem items_are_live_small : ∃ opened results after, myjqlInit noFiles = some opened ∧
    session smallSession opened = some (results, after) ∧ SessionAlways ItemsKept smallSession opened :=
  items_are_live smallSession smallSession_fits

end Runs

end MyJQL.Engine
