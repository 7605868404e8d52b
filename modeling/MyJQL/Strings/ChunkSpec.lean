import MyJQL.Strings.Str

/-!
# Chains of chunks

`Chain` says how a heap spells a string: every chunk but the last holds twenty
characters and names its successor, and the last ends with `(-1, -1)`. A
`StringRecord` is a cursor into a chain.
-/

namespace MyJQL.Strings

open Library Library.Prog Storage Storage.Table

structure Chunk where
  rid : RID
  bytes : List UInt8

/-- The RID that names a chain. -/
def headRid : List Chunk → RID
  | [] => nullRid
  | chunk :: _ => chunk.rid

/-- The characters along a chain. -/
def spelled (chunks : List Chunk) : List UInt8 := chunks.flatMap Chunk.bytes

/-- The item of a chunk. -/
def chunkCells (next : RID) (bytes : List UInt8) : List Cell :=
  ridCells next ++ (shortCells bytes.length ++ bytes.map Cell.byte)

def Chain (heap : Heap) : List Chunk → Prop
  | [] => True
  | chunk :: rest => (0 ≤ chunk.rid.blockAddr ∧ 0 ≤ chunk.rid.idx) ∧
      (1 ≤ chunk.bytes.length ∧ chunk.bytes.length ≤ strChunkMaxLen) ∧
      (rest ≠ [] → chunk.bytes.length = strChunkMaxLen) ∧
      heap chunk.rid = some (chunkCells (headRid rest) chunk.bytes) ∧ Chain heap rest

/-- The RIDs of the chunks of a chain. -/
def rids (chunks : List Chunk) : List RID := chunks.map Chunk.rid

/-- The chunks from `rid` on spell `text`. -/
structure StringAt (heap : Heap) (rid : RID) (text : List UInt8) (chunks : List Chunk) : Prop where
  chain : Chain heap chunks
  head : headRid chunks = rid
  spells : spelled chunks = text
  distinct : (rids chunks).Nodup

/-! ## Bytes of a chunk -/

section Cells

variable {next rid : RID} {bytes : List UInt8} {tail : List Cell}

@[simp]
theorem length_ridCells (rid : RID) : (ridCells rid).length = ridSize := by
  rw [ridCells, List.length_map, List.length_finRange]

theorem ridOfCells_ridCells (rid : RID) : ridOfCells (ridCells rid) = some rid := by
  have shape : ∃ part rest, ridCells rid = Cell.rid rid part :: rest := ⟨_, _, rfl⟩
  obtain ⟨part, rest, shape⟩ := shape
  rw [shape, ridOfCells, if_pos shape.symm]

theorem shortOfCells_shortCells {value : Int} (nonneg : 0 ≤ value) (small : value < 2 ^ 15) :
    shortOfCells (shortCells value) = some value := by
  unfold shortOfCells shortCells toShort
  simp only [UInt8.toNat_ofNat', Option.some.injEq]
  omega

@[simp]
theorem length_chunkCells (next : RID) (bytes : List UInt8) :
    (chunkCells next bytes).length = strChunkData + bytes.length := by
  simp only [chunkCells, List.length_append, length_ridCells, shortCells, List.length_cons,
    List.length_nil, List.length_map, ridSize, strChunkData]
  omega

theorem getStrChunkRid_eq : getStrChunkRid (chunkCells next bytes ++ tail) = some next := by
  have front : (chunkCells next bytes ++ tail).take ridSize = ridCells next := by
    rw [chunkCells, List.append_assoc]
    exact List.take_left' (length_ridCells next)
  rw [getStrChunkRid, front, ridOfCells_ridCells]

theorem getStrChunkSize_eq (small : bytes.length ≤ strChunkMaxLen) :
    getStrChunkSize (chunkCells next bytes ++ tail) = some (bytes.length : Int) := by
  have front : ((chunkCells next bytes ++ tail).drop ridSize).take 2 = shortCells bytes.length := by
    rw [chunkCells, List.append_assoc, List.drop_left' (length_ridCells next), List.append_assoc]
    rfl
  rw [getStrChunkSize, front]
  apply shortOfCells_shortCells
  · exact Int.natCast_nonneg _
  · simp only [strChunkMaxLen] at small
    omega

theorem getStrChunkData_eq {index : Nat} (inside : index < bytes.length) :
    getStrChunkData (chunkCells next bytes ++ tail) index = some bytes[index] := by
  have cell : (chunkCells next bytes ++ tail)[strChunkData + index]? = some (.byte bytes[index]) := by
    rw [List.getElem?_append_left (by rw [length_chunkCells]; omega), chunkCells,
      List.getElem?_append_right (by rw [length_ridCells]; simp only [strChunkData, ridSize]; omega),
      List.getElem?_append_right (by simp only [length_ridCells, shortCells, List.length_cons,
        List.length_nil, strChunkData, ridSize]; omega)]
    have place : strChunkData + index - (ridCells next).length - (shortCells bytes.length).length =
        index := by
      simp only [length_ridCells, shortCells, List.length_cons, List.length_nil, strChunkData, ridSize]
      omega
    rw [place, List.getElem?_map, List.getElem?_eq_getElem inside, Option.map_some]
  rw [getStrChunkData, if_pos (Int.natCast_nonneg index), Int.toNat_natCast, cell]

/-- Only the link of the chunk changes. -/
theorem setStrChunkRid_eq {other : RID} :
    setStrChunkRid (chunkCells next bytes ++ tail) other = chunkCells other bytes ++ tail := by
  unfold setStrChunkRid chunkCells
  rw [List.append_assoc, List.drop_left' (length_ridCells next), List.append_assoc, List.append_assoc,
    List.append_assoc]

end Cells

/-! ## Chains -/

section Chains

variable {heap heap' : Heap} {chunks : List Chunk} {rid : RID} {text : List UInt8}

theorem Chain.live (chain : Chain heap chunks) (member : rid ∈ rids chunks) :
    ∃ next bytes, heap rid = some (chunkCells next bytes) := by
  induction chunks with
  | nil => exact absurd member List.not_mem_nil
  | cons chunk rest ih =>
      obtain ⟨-, -, -, stored, tail⟩ := chain
      rcases List.mem_cons.mp member with rfl | later
      · exact ⟨_, _, stored⟩
      · exact ih tail later

/-- Only the items of the chunks matter. -/
theorem Chain.congr (chain : Chain heap chunks) (same : ∀ rid ∈ rids chunks, heap' rid = heap rid) :
    Chain heap' chunks := by
  induction chunks with
  | nil => trivial
  | cons chunk rest ih =>
      obtain ⟨proper, bounds, full, stored, tail⟩ := chain
      refine ⟨proper, bounds, full, ?_, ih tail fun rid member => same rid (List.mem_cons_of_mem _ member)⟩
      rw [same chunk.rid List.mem_cons_self]
      exact stored

theorem Chain.suffix {before after : List Chunk} (chain : Chain heap (before ++ after)) :
    Chain heap after := by
  induction before with
  | nil => exact chain
  | cons chunk before ih => exact ih chain.2.2.2.2

theorem StringAt.congr (string : StringAt heap rid text chunks)
    (same : ∀ rid ∈ rids chunks, heap' rid = heap rid) : StringAt heap' rid text chunks :=
  ⟨string.chain.congr same, string.head, string.spells, string.distinct⟩

theorem StringAt.live (string : StringAt heap rid text chunks) {other : RID}
    (member : other ∈ rids chunks) : heap other ≠ none := by
  obtain ⟨next, bytes, stored⟩ := string.chain.live member
  rw [stored]
  exact Option.some_ne_none _

/-- The characters of a chain take bytes of the file. -/
theorem Chain.length_spelled_le (chain : Chain heap chunks) :
    (spelled chunks).length + chunks.length ≤
      ((rids chunks).map fun rid => ((heap rid).getD []).length).sum := by
  induction chunks with
  | nil => exact le_rfl
  | cons chunk rest ih =>
      obtain ⟨-, -, -, stored, tail⟩ := chain
      have later := ih tail
      simp only [spelled, rids, List.flatMap_cons, List.length_append, List.map_cons, List.sum_cons,
        stored, Option.getD_some, length_chunkCells, List.length_cons, strChunkData] at later ⊢
      omega

/-- No chunk holds more than twenty characters. -/
theorem StringAt.length_le_chunks (string : StringAt heap rid text chunks) :
    text.length ≤ strChunkMaxLen * chunks.length := by
  have bounded : ∀ {chunks : List Chunk}, Chain heap chunks → (spelled chunks).length ≤ strChunkMaxLen * chunks.length := by
    intro chunks chain
    induction chunks with
    | nil => exact le_rfl
    | cons chunk rest ih =>
        obtain ⟨-, few, -, -, tail⟩ := chain
        have later := ih tail
        simp only [spelled, List.flatMap_cons, List.length_append, List.length_cons, Nat.mul_succ] at later ⊢
        omega
  rw [← string.spells]
  exact bounded string.chain

theorem StringAt.length_le {length : Int} (string : StringAt heap rid text chunks)
    (fits : Fits heap length) : text.length + chunks.length ≤ length.toNat := by
  have total := fits (rids chunks) string.distinct fun other member => string.live member
  have bytes := string.chain.length_spelled_le
  rw [string.spells] at bytes
  omega

end Chains

/-! ## Cursors -/

section Cursors

variable {heap : Heap} {chunks : List Chunk} {rid : RID} {text rest : List UInt8}
  {record : StringRecord} {char : UInt8}

/-- The record stands before the characters `remaining`. -/
def Cursor (heap : Heap) (record : StringRecord) (remaining : List UInt8) : Prop :=
  ∃ (bytes : List UInt8) (later : List Chunk) (tail : List Cell) (index : Nat),
    record.chunk = chunkCells (headRid later) bytes ++ tail ∧
    record.chunk.length = strChunkMaxSize ∧ record.idx = index ∧ index ≤ bytes.length ∧
    Chain heap later ∧ remaining = bytes.drop index ++ spelled later

theorem wp_readInto {post : List Cell → Heap → Prop} {item dest : List Cell}
    (live : heap rid = some item) (small : item.length ≤ dest.length)
    (ended : post (item ++ dest.drop item.length) heap) :
    (readInto rid dest).wp heapLogic post heap := by
  unfold readInto
  simp only [wp_bind, wp_perform]
  refine heapRule_read live ?_
  rw [if_pos small]
  exact ended

/-- A chunk read into a 32-byte variable, before its first character. -/
theorem cursor_of_chain {chunk : Chunk} {later : List Chunk} (dest : List Cell)
    (chain : Chain heap (chunk :: later)) (size : dest.length = strChunkMaxSize) :
    Cursor heap ⟨chunkCells (headRid later) chunk.bytes ++
      dest.drop (chunkCells (headRid later) chunk.bytes).length, 0⟩ (spelled (chunk :: later)) := by
  obtain ⟨-, bounds, -, -, tail⟩ := chain
  refine ⟨chunk.bytes, later, _, 0, rfl, ?_, rfl, Nat.zero_le _, tail, ?_⟩
  · rw [List.length_append, List.length_drop, length_chunkCells, size]
    simp only [strChunkMaxSize, strChunkData, strChunkMaxLen] at *
    omega
  · rfl

theorem wp_readString {post : StringRecord → Heap → Prop} (string : StringAt heap rid text chunks)
    (nonempty : text ≠ [])
    (ended : ∀ record size, getStrChunkSize record.chunk = some size → size ≠ 0 →
      Cursor heap record text → post record heap) :
    (readString rid).wp heapLogic post heap := by
  obtain ⟨chain, rfl, rfl, -⟩ := string
  cases chunks with
  | nil => exact absurd rfl nonempty
  | cons chunk later =>
      have cursor := cursor_of_chain (uninitialised strChunkMaxSize) chain List.length_replicate
      obtain ⟨-, bounds, -, stored, -⟩ := chain
      unfold readString
      simp only [wp_bind]
      refine wp_readInto stored ?_ ?_
      · rw [length_chunkCells, uninitialised, List.length_replicate]
        simp only [strChunkMaxSize, strChunkData, strChunkMaxLen] at *
        omega
      · refine ended _ chunk.bytes.length (getStrChunkSize_eq bounds.2) ?_ cursor
        omega

theorem hasNextChar_eq {remaining : List UInt8} (cursor : Cursor heap record remaining) :
    hasNextChar record = some (decide (remaining ≠ [])) := by
  obtain ⟨bytes, later, tail, index, chunk, length, idx, inside, chain, rfl⟩ := cursor
  have small : bytes.length ≤ strChunkMaxLen := by
    rw [chunk, List.length_append, length_chunkCells] at length
    simp only [strChunkMaxSize, strChunkData, strChunkMaxLen] at *
    omega
  unfold hasNextChar
  rw [chunk, getStrChunkSize_eq small, getStrChunkRid_eq, idx]
  simp only [Option.bind_eq_bind, Option.bind_some]
  by_cases last : index = bytes.length
  · subst last
    rw [if_neg (not_not.mpr rfl), List.drop_length, List.nil_append]
    cases later with
    | nil => rfl
    | cons next others =>
        obtain ⟨proper, bounds, -⟩ := chain
        have nonempty : spelled (next :: others) ≠ [] := by
          intro empty
          rw [spelled, List.flatMap_cons, List.append_eq_nil_iff] at empty
          rw [empty.1] at bounds
          exact absurd bounds.1 (by decide)
        have notNull : (headRid (next :: others)).idx ≠ -1 := by
          change next.rid.idx ≠ -1
          omega
        rw [if_neg notNull, decide_eq_true nonempty]
        rfl
  · have nonempty : bytes.drop index ++ spelled later ≠ [] := by
      intro empty
      have none := (List.append_eq_nil_iff.mp empty).1
      have bound := List.drop_eq_nil_iff.mp none
      omega
    have different : (bytes.length : Int) ≠ index := by omega
    rw [if_pos different, decide_eq_true nonempty]
    rfl

theorem wp_nextChar {post : UInt8 × StringRecord → Heap → Prop}
    (cursor : Cursor heap record (char :: rest))
    (ended : ∀ record', Cursor heap record' rest → post (char, record') heap) :
    (nextChar record).wp heapLogic post heap := by
  obtain ⟨bytes, later, tail, index, chunk, length, idx, inside, chain, remaining⟩ := cursor
  have small : bytes.length ≤ strChunkMaxLen := by
    rw [chunk, List.length_append, length_chunkCells] at length
    simp only [strChunkMaxSize, strChunkData, strChunkMaxLen] at *
    omega
  unfold nextChar
  simp only [chunk, getStrChunkSize_eq small, getStrChunkRid_eq, idx, wp_bind, wp_ofOption_some]
  by_cases last : index = bytes.length
  · subst last
    rw [if_neg (not_not.mpr rfl)]
    rw [List.drop_length, List.nil_append] at remaining
    cases later with
    | nil => cases remaining
    | cons next others =>
        obtain ⟨proper, bounds, -, stored, chain'⟩ := chain
        obtain ⟨first, others', split⟩ : ∃ first others', next.bytes = first :: others' :=
          List.exists_cons_of_length_pos bounds.1
        have size : (chunkCells (headRid (next :: others)) bytes ++ tail).length = strChunkMaxSize :=
          chunk ▸ length
        rw [spelled, List.flatMap_cons, split, List.cons_append] at remaining
        obtain ⟨rfl, rfl⟩ := List.cons.inj remaining
        have notNull : (headRid (next :: others)).idx ≠ -1 := by
          change next.rid.idx ≠ -1
          omega
        simp only [wp_bind, wp_ofOption_some]
        rw [if_neg notNull]
        simp only [wp_bind]
        refine wp_readInto stored ?_ ?_
        · rw [length_chunkCells, size]
          simp only [strChunkMaxSize, strChunkData, strChunkMaxLen] at *
          omega
        · have firstChar : getStrChunkData (chunkCells (headRid others) next.bytes ++
              (chunkCells (headRid (next :: others)) bytes ++ tail).drop
                (chunkCells (headRid others) next.bytes).length) 0 = some char := by
            rw [split]
            exact getStrChunkData_eq (Nat.succ_pos _)
          rw [firstChar]
          refine ended _ ⟨next.bytes, others, _, 1, rfl, ?_, rfl, bounds.1, chain', ?_⟩
          · rw [List.length_append, List.length_drop, length_chunkCells, size]
            simp only [strChunkMaxSize, strChunkData, strChunkMaxLen] at *
            omega
          · rw [split]
            rfl
  · have below : index < bytes.length := by omega
    have different : (bytes.length : Int) ≠ index := by omega
    rw [List.drop_eq_getElem_cons below, List.cons_append] at remaining
    obtain ⟨rfl, rfl⟩ := List.cons.inj remaining
    rw [if_pos different]
    simp only [wp_bind, getStrChunkData_eq below, wp_ofOption_some]
    refine ended _ ⟨bytes, later, tail, index + 1, rfl, chunk ▸ length, ?_, below, chain, rfl⟩
    push_cast
    rfl

end Cursors

end MyJQL.Strings
