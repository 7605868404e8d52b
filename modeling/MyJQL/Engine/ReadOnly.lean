import MyJQL.Engine.LiveItems

/-!
# Calls that write nothing

`myjql_get`, and `myjql_del` of a key that is not stored, search the index and read the tables.
A search calls no handler and changes no page of the index, and a read changes no page of a
table; so the files are what the other calls of a session have made them.
-/

namespace MyJQL.Engine

open Library Library.Prog Storage Storage.Table Strings

/-! ## What a reader asks for -/

section Search

variable {Q : Type} {degree rounds pos count : Nat} {addr : Int} {key : Q}

/-- Any operation on pages, and comparisons. -/
def NoHandlers : ∀ β : Type, Index.TreeOp Q β → Prop
  | _, .left _ => True
  | _, .right (.rowRowCmp _ _) => True
  | _, .right (.ptrRowCmp _ _) => True
  | _, _ => False

theorem meets_pageOp {α : Type} {effect : PageOp Index.IndexPage α} :
    (perform (.left effect) : Index.TreeProg Q α).Meets (.only NoHandlers) fun _ => True :=
  meets_perform trivial fun _ _ => trivial

theorem meets_keyEquals (row : RID) : (Index.keyEquals key row).Meets (.only NoHandlers) fun _ => True :=
  ⟨trivial, fun _ _ => trivial⟩

theorem meets_keyBefore (row : RID) : (Index.keyBefore key row).Meets (.only NoHandlers) fun _ => True :=
  ⟨trivial, fun _ _ => trivial⟩

theorem meets_readNode : (Index.readNode addr : Index.TreeProg Q Index.BNode).Meets (.only NoHandlers) fun _ => True :=
  meets_pageOp.bind fun _ _ => meets_option

theorem meets_getNode : (Index.getNode addr : Index.TreeProg Q Index.BNode).Meets (.only NoHandlers) fun _ => True :=
  meets_pageOp.bind fun _ _ => meets_readNode

theorem meets_loadCtrl : (Index.loadCtrl : Index.TreeProg Q Index.BCtrlBlock).Meets (.only NoHandlers) fun _ => True :=
  meets_pageOp.bind fun _ _ => meets_option

theorem meets_scanRows {test : RID → Index.TreeProg Q Bool} (tests : ∀ row, (test row).Meets (.only NoHandlers) fun _ => True) :
    (Index.scanRows degree test addr pos count).Meets (.only NoHandlers) fun _ => True := by
  induction count generalizing pos with
  | zero => trivial
  | succ count ih =>
      refine meets_readNode.bind fun _ _ => meets_option.bind fun row _ => (tests row).bind fun found _ => ?_
      cases found with
      | true => trivial
      | false => exact ih

theorem meets_searchEntry : (Index.searchEntry degree rounds addr key).Meets (.only NoHandlers) fun _ => True := by
  induction rounds generalizing addr with
  | zero => trivial
  | succ rounds ih =>
      refine meets_getNode.bind fun node _ => ?_
      split
      · refine (meets_scanRows meets_keyEquals).bind fun counter _ => meets_readNode.bind fun node _ => ?_
        split
        · exact meets_option.bind fun result _ => meets_pageOp.bind fun _ _ => trivial
        · exact meets_pageOp.bind fun _ _ => trivial
      · refine (meets_scanRows meets_keyBefore).bind fun prtChild _ => ?_
        exact meets_readNode.bind fun _ _ => meets_option.bind fun addrChild _ => meets_pageOp.bind fun _ _ => ih

theorem meets_bTreeSearch : (Index.bTreeSearch degree key).Meets (.only NoHandlers) fun _ => True := by
  refine meets_pageOp.bind fun _ _ => meets_loadCtrl.bind fun ctrl _ => meets_pageOp.bind fun _ _ => ?_
  split
  · trivial
  · exact meets_pageOp.bind fun length _ => meets_searchEntry

theorem meets_bTreeInit : (Index.bTreeInit : Index.TreeProg Q Unit).Meets (.only NoHandlers) fun _ => True := by
  refine meets_pageOp.bind fun length _ => ?_
  split
  · trivial
  · refine meets_pageOp.bind fun _ _ => meets_loadCtrl.bind fun ctrl _ => ?_
    exact meets_pageOp.bind fun _ _ => meets_pageOp

end Search

/-- Calls that read a table. -/
def TableReads : ∀ β : Type, TableOp β → Prop
  | _, .read _ => True
  | _, .dataLength => True
  | _, _ => False

instance : Readable (.only TableReads) := ⟨fun _ => trivial, trivial⟩

/-- The tables are only read. -/
def readerContract : Contract EngineOp := Contract.any.sum ((Contract.only TableReads).sum (.only TableReads))

section Readers

variable {key : List UInt8} {maxSize : Nat}

theorem meets_onIdx_reader {α : Type} {program : Index.TreeProg (List UInt8) α} {kind : α → Prop}
    (meets : program.Meets (.only NoHandlers) kind) : (onIdx program).Meets readerContract kind := by
  refine meets.interp fun β effect asked => ?_
  cases effect with
  | left effect => exact meets_perform trivial fun _ _ => trivial
  | right effect =>
      cases effect with
      | rowRowCmp rid1 rid2 => exact meets_rowRowCmp.onRight
      | ptrRowCmp key rid => exact meets_ptrRowCmp.onRight
      | insertHandler rid => exact asked.elim
      | deleteHandler rid => exact asked.elim

theorem meets_myjqlGet_reader : (myjqlGet key maxSize).Meets readerContract fun _ => True := by
  refine (meets_onIdx_reader meets_bTreeSearch).bind fun bpResult _ => ?_
  split
  · trivial
  · have record : (onTblRec (readRecord bpResult)).Meets readerContract fun _ => True :=
      (meets_readInto.mono fun _ _ => trivial).onLeft.onRight
    refine record.bind fun tableRecord _ => meets_option.bind fun value _ => ?_
    have text : (onTblStr (readString value)).Meets readerContract fun _ => True := meets_readString.onRight.onRight
    exact text.bind fun stringRecord _ => (meets_loadString maxSize).onRight.onRight

end Readers

/-! ## Reading the files -/

/-- Calls of the engine that leave the tables alone. -/
def TablesRead : ∀ β : Type, EngineOp β → EngineState → Prop :=
  SumOp.Guard (fun _ _ _ => True) (SumOp.Guard (fun β op _ => TableReads β op) fun β op _ => TableReads β op)

theorem engineLogic_reader : engineLogic.Honours readerContract (fun _ => True ∧ True ∧ True) TablesRead :=
  Logic.Honours.sum (Logic.Honours.any _) (Logic.Honours.sum (Logic.Honours.only _ _) (Logic.Honours.only _ _))

section Files

variable {α : Type} {program : EngineProg α} {contents : List UInt8 → Option (List UInt8)} {state : EngineState}
  {maps : EngineMaps} {heap : Heap} {table after : TableMaps}

/-- A read changes no page of the table. -/
theorem call_reads {β : Type} {op : TableOp β} {post : β → Heap → Prop} {result : β} (reads : TableReads β op)
    (holds : HoldsHeap heap table) (asked : heapLogic.rule β op post heap)
    (ran : callMeaning β op table = some (result, after)) : after = table := by
  cases op with
  | read rid =>
      obtain ⟨items, tableHolds, rfl⟩ := holds
      obtain ⟨content, live, -⟩ := asked
      rw [callMeaning, call, run_tableRead tableHolds live] at ran
      cases ran
      rfl
  | dataLength =>
      cases ran
      rfl
  | insert src => exact reads.elim
  | delete rid => exact reads.elim

theorem reader_simulates (tables : TablesMaps) :
    Logic.Simulates (engineLogic.guarded TablesRead) (Logic.ofMeaning engineMeaning fun _ _ _ => True)
      fun state maps => HoldsState state maps ∧ maps.2 = tables := by
  rintro β effect post ⟨map, heaps⟩ ⟨_, tables⟩ ⟨⟨rfl, holds⟩, rfl⟩ ⟨reads, asked⟩
  obtain ⟨-, result, after, ran, state', holds', ended⟩ :=
    engine_simulates_pages effect post (map, heaps) (map, tables) ⟨rfl, holds⟩ asked
  refine ⟨trivial, result, after, ran, state', ⟨holds', ?_⟩, ended⟩
  cases effect with
  | left effect => exact (Meaning.sum_left ran).2
  | right effect =>
      obtain ⟨step, -⟩ := Meaning.sum_right ran
      cases effect with
      | left effect =>
          obtain ⟨called, same⟩ := Meaning.sum_left step
          exact Prod.ext (call_reads reads holds.1 asked called) same
      | right effect =>
          obtain ⟨called, same⟩ := Meaning.sum_right step
          exact Prod.ext same (call_reads reads holds.2 asked called)

/-- What only reads, and leaves the pages of the index as they are, leaves the files as they are. -/
theorem run_reader {post : α → Prop} (related : HoldsState state maps) (meets : program.Meets readerContract fun _ => True)
    (holds : program.wp engineLogic (fun result after => post result ∧ after.1 = state.1) state) :
    ∃ result, program.run engineMeaning maps = some (result, maps) ∧ post result := by
  have guarded := meets.wp_guarded engineLogic_reader ⟨trivial, trivial, trivial⟩ holds
  obtain ⟨result, after, ran, state', ⟨⟨same, -⟩, kept⟩, ⟨ended, unchanged⟩, -⟩ :=
    (run_of_wp (wp_simulates (reader_simulates maps.2) ⟨related, rfl⟩ guarded)).1
  have final : after = maps := Prod.ext (same.symm.trans (unchanged.trans related.1)) kept
  rw [final] at ran
  exact ⟨result, ran, ended⟩

theorem run_myjqlGet_same (holds : FilesHold contents maps) (key : List UInt8) (maxSize : Nat) :
    (myjqlGet key maxSize).run engineMeaning maps = some (reply (contents key) maxSize, maps) := by
  obtain ⟨state, related, holds⟩ := holds
  have spec : Serves (myjqlGet key maxSize) (fun result after =>
      result = reply (contents key) maxSize ∧ after.1 = state.1) state :=
    serves_myjqlGet holds fun heaps holds' => ⟨rfl, rfl⟩
  obtain ⟨result, ran, rfl⟩ := run_reader related meets_myjqlGet_reader spec.wp
  exact ran

/-- `myjql_del` of a key that is not stored. -/
theorem run_myjqlDel_absent (holds : FilesHold contents maps) {key : List UInt8} (absent : contents key = none) :
    (myjqlDel key).run engineMeaning maps = some ((), maps) := by
  obtain ⟨state, related, stored, keeps, contains⟩ := holds
  have spec : Serves (onIdx (Index.bTreeSearch degree key)) (fun result after =>
      result = Index.failedRid ∧ after.1 = state.1) state := by
    refine keeps.serves_search ?_ fun _ heaps keeps' => ⟨rfl, rfl⟩
    rintro pair rest rfl rfl heaps keeps'
    rw [contains.of_mem (Multiset.mem_cons_self _ _)] at absent
    cases absent
  obtain ⟨result, ran, rfl⟩ := run_reader related (meets_onIdx_reader meets_bTreeSearch) spec.wp
  rw [myjqlDel, run_bind, ran]
  rfl

/-- The files are opened again. -/
theorem run_myjqlInit_same (holds : FilesHold contents maps) : myjqlInit maps = some maps := by
  obtain ⟨⟨map, heaps⟩, related, stored, ⟨word, world, seps, stands, items, tends⟩, contains⟩ := holds
  have spec : Serves (onIdx Index.bTreeInit) (fun _ after => True ∧ after.1 = map) (map, heaps) :=
    serves_onIdx tends rfl (stands.wp_bTreeInit ⟨rfl, fun seps' heaps' tends' => ⟨trivial, rfl⟩⟩)
  obtain ⟨result, ran, -⟩ := run_reader related (meets_onIdx_reader meets_bTreeInit) spec.wp
  obtain ⟨-, ⟨recItems, recHolds, -⟩, ⟨strItems, strHolds, -⟩⟩ := related
  simp only [myjqlInit, ran, Option.bind_eq_bind, Option.bind_some, run_tableInit_again recHolds,
    run_tableInit_again strHolds]
  rfl

end Files

/-! ## Sessions -/

/-- Whether the call writes, when the keys and values are these. -/
def Command.writes (contents : List UInt8 → Option (List UInt8)) : Command → Bool
  | .set _ _ => true
  | .del key => (contents key).isSome
  | .get _ _ => false
  | .reopen => false

/-- The calls of a session that write. -/
def writers : (List UInt8 → Option (List UInt8)) → List Command → List Command
  | _, [] => []
  | contents, command :: commands =>
      if command.writes contents then command :: writers (command.after contents) commands
      else writers contents commands

section Sessions

variable {contents : List UInt8 → Option (List UInt8)} {maps after : EngineMaps} {command : Command}
  {commands : List Command} {results : List (Nat × List UInt8)}

/-- A call that does not write changes neither the files nor what they hold. -/
theorem run_reading (holds : FilesHold contents maps) (reads : command.writes contents = false) :
    command.run maps = some (command.replies contents, maps) ∧ command.after contents = contents := by
  cases command with
  | set key value => cases reads
  | del key =>
      have absent : contents key = none := Option.isNone_iff_eq_none.mp (Option.isSome_eq_false_iff.mp reads)
      refine ⟨?_, ?_⟩
      · rw [Command.run, run_myjqlDel_absent holds absent]
        rfl
      · rw [Command.after, ← absent, Function.update_eq_self]
  | get key maxSize =>
      refine ⟨?_, rfl⟩
      rw [Command.run, run_myjqlGet_same holds]
      rfl
  | reopen =>
      refine ⟨?_, rfl⟩
      rw [Command.run, myjqlClose, run_myjqlInit_same holds]
      rfl

/-- A call that writes answers nothing. -/
theorem replies_writer (writes : command.writes contents = true) : command.replies contents = [] := by
  cases command with
  | set key value => rfl
  | del key => rfl
  | get key maxSize => cases writes
  | reopen => cases writes

/-- The calls that write leave the files that the session leaves. -/
theorem run_writers (holds : FilesHold contents maps) (fits : ∀ command ∈ commands, command.Fits)
    (ran : session commands maps = some (results, after)) : session (writers contents commands) maps = some ([], after) := by
  induction commands generalizing contents maps results with
  | nil =>
      cases ran
      rfl
  | cons command commands ih =>
      have rest : ∀ other ∈ commands, other.Fits := fun other member => fits other (List.mem_cons_of_mem _ member)
      obtain ⟨middle, first, holds'⟩ := run_command holds (fits command List.mem_cons_self)
      obtain ⟨final, later, -⟩ := run_session commands holds' rest
      simp only [session, first, Option.bind_eq_bind, Option.bind_some, later] at ran
      cases ran
      have tail := ih holds' rest later
      rw [writers]
      split
      · rename_i writes
        simp only [session, first, Option.bind_eq_bind, Option.bind_some, tail, replies_writer writes]
        rfl
      · rename_i reads
        obtain ⟨same, kept⟩ := run_reading holds (Bool.eq_false_of_not_eq_true reads)
        rw [same] at first
        cases first
        rw [kept] at tail
        exact tail

end Sessions

end MyJQL.Engine
