import MyJQL.Engine.RecordRuns
import MyJQL.Index.TreeSpec

/-!
# The engine (`myjql.c`)

The engine keeps five files: the index, and the data and the free-space map of `tbl_rec`
and of `tbl_str`. A key is a record in `tbl_rec` that the index holds in a leaf; the
strings of the record are chains in `tbl_str`. The pools are read as page maps, so that
`myjql_close` leaves the files as the maps are.
-/

namespace MyJQL.Engine

open Library Library.Prog Storage Strings

/-- Page operations on `bp_idx` (left) and calls on the two tables (right). -/
abbrev EngineOp : Type → Type := SumOp (PageOp Index.IndexPage) TablesOp

abbrev EngineProg (α : Type) := Prog EngineOp α

/-- `DEGREE`, where `size_t` and `off_t` take 8 bytes each. -/
abbrev degree : Nat := (pageSize.toNat - 8 - 8 - 1 - 8) / 2 / (8 + ridSize)

/-- The functions that the engine passes to the index. -/
def callbacks : ∀ β : Type, Index.TreeOp (List UInt8) β → EngineProg β
  | _, .left effect => perform (.left effect)
  | _, .right (.rowRowCmp rid1 rid2) => onRight (rowRowCmp rid1 rid2)
  | _, .right (.ptrRowCmp key rid) => onRight (ptrRowCmp key rid)
  | _, .right (.insertHandler rid) => onRight (insertHandler rid)
  | _, .right (.deleteHandler rid) => onRight (deleteHandler rid)

/-- A call on the index. -/
def onIdx {α : Type} (program : Index.TreeProg (List UInt8) α) : EngineProg α := program.interp callbacks

def onTblRec {α : Type} (program : ItemProg α) : EngineProg α := onRight (onRec program)

def onTblStr {α : Type} (program : ItemProg α) : EngineProg α := onRight (onStr program)

/-! ## The operations -/

/-- `(size_t)-1`. -/
def noSize : Nat := 2 ^ 64 - 1

/-- `myjql_get` of a key of `key.length` bytes: the count it returns and the bytes it writes to `value`. -/
def myjqlGet (key : List UInt8) (maxSize : Nat) : EngineProg (Nat × List UInt8) := do
  let bpResult ← onIdx (Index.bTreeSearch degree key)
  if bpResult.blockAddr = -1 ∧ bpResult.idx = 0 then return (noSize, [])
  let tableRecord ← onTblRec (readRecord bpResult)
  let value ← ofOption (Record.value tableRecord)
  let stringRecord ← onTblStr (readString value)
  onTblStr (loadString stringRecord maxSize)

/-- The part of `myjql_set` for a key that is not found. -/
def insertKey (key value : List UInt8) : EngineProg Unit := do
  let keyRid ← onTblStr (writeString key key.length)
  let valueRid ← onTblStr (writeString value value.length)
  let recordRid ← onTblRec (writeRecord (Record.make keyRid valueRid))
  let _ ← onIdx (Index.bTreeInsert degree recordRid)

/-- The part of `myjql_set` for a key that exists: its record is replaced, and the key string kept. -/
def updateKey (bpResult : RID) (value : List UInt8) : EngineProg Unit := do
  let record ← onTblRec (readRecord bpResult)
  let oldValueRid ← ofOption (Record.value record)
  onTblStr (deleteString oldValueRid)
  let newValueRid ← onTblStr (writeString value value.length)
  onIdx (Index.bTreeDelete degree bpResult)
  onTblRec (deleteRecord bpResult)
  let newBpResult ← onTblRec (writeRecord (Record.setValue record newValueRid))
  let _ ← onIdx (Index.bTreeInsert degree newBpResult)

def myjqlSet (key value : List UInt8) : EngineProg Unit := do
  let bpResult ← onIdx (Index.bTreeSearch degree key)
  if bpResult.blockAddr = -1 ∧ bpResult.idx = 0 then insertKey key value
  else updateKey bpResult value

def myjqlDel (key : List UInt8) : EngineProg Unit := do
  let bpResult ← onIdx (Index.bTreeSearch degree key)
  if bpResult.blockAddr = -1 ∧ bpResult.idx = 0 then return
  onIdx (Index.bTreeDelete degree bpResult)
  let tableRecord ← onTblRec (readRecord bpResult)
  let keyRid ← ofOption (Record.key tableRecord)
  onTblStr (deleteString keyRid)
  let valueRid ← ofOption (Record.value tableRecord)
  onTblStr (deleteString valueRid)
  onTblRec (deleteRecord bpResult)

/-! ## The files -/

/-- The page maps of `bp_idx` and of the two tables. -/
abbrev EngineMaps : Type := PageMap Index.IndexPage × TablesMaps

/-- No file exists. -/
def noFiles : EngineMaps := (PageMap.empty, Table.noPages, Table.noPages)

/-- The page-map meaning of the operations. -/
def engineMeaning : Meaning EngineOp EngineMaps := (mapMeaning Index.IndexPage).sum tablesMeaning

/-- `myjql_init`. -/
def myjqlInit (maps : EngineMaps) : Option EngineMaps := do
  let (_, opened) ← (onIdx Index.bTreeInit).run engineMeaning maps
  let (_, tblRec) ← Table.tableInit.run Table.tablePages opened.2.1
  let (_, tblStr) ← Table.tableInit.run Table.tablePages opened.2.2
  return (opened.1, tblRec, tblStr)

/-- `myjql_close` writes the pools back: the files are what the page maps say. -/
def myjqlClose (maps : EngineMaps) : EngineMaps := maps

/-! ## Sessions -/

inductive Command where
  | set (key value : List UInt8)
  | del (key : List UInt8)
  | get (key : List UInt8) (maxSize : Nat)
  | reopen

/-- One call, with what a `myjql_get` returns. -/
def Command.run : Command → EngineMaps → Option (List (Nat × List UInt8) × EngineMaps)
  | .set key value, maps => ((myjqlSet key value).run engineMeaning maps).map fun result => ([], result.2)
  | .del key, maps => ((myjqlDel key).run engineMeaning maps).map fun result => ([], result.2)
  | .get key maxSize, maps =>
      ((myjqlGet key maxSize).run engineMeaning maps).map fun result => ([result.1], result.2)
  | .reopen, maps => (myjqlInit (myjqlClose maps)).map fun reopened => ([], reopened)

/-- The calls of a session, with the results of every `myjql_get`. -/
def session : List Command → EngineMaps → Option (List (Nat × List UInt8) × EngineMaps)
  | [], maps => some ([], maps)
  | command :: commands, maps => do
      let (result, after) ← command.run maps
      let (results, final) ← session commands after
      return (result ++ results, final)

end MyJQL.Engine
