import MyJQL.Storage.HashMapCost

/-!
# The free-space map on the buffer pool

The operations of `hash_map.c` run on the eight slots of the pool beside the
flat page map. `hash_table_init` asks for page 1 of an empty file before page 0,
outside what the pool promises, so its run is followed slot by slot; the other
operations keep the pin discipline, but for one branch of the lower bound that
releases a page twice.
-/

namespace MyJQL.Storage.HashMap

open Library Library.Prog BufferPool

/-! ## Initialisation -/

section Init

variable {pages : Slot → FsmPage} {file : FileInfo FsmPage} {addr other : Int} {page : FsmPage}
  {ref : UInt64}

/-- A pool that has used slot 0 only. -/
def onePool (pages : Slot → FsmPage) (file : FileInfo FsmPage) (addr : Int) (page : FsmPage)
    (ref : UInt64) : BufferPool FsmPage where
  file := file
  pages := Function.update pages 0 page
  addrs := Function.update (fun _ => -1) 0 addr
  cnt := Function.update (fun _ => unusedCnt) 0 1
  ref := Function.update (fun _ => 0) 0 ref

theorem onePool_addrs_self : (onePool pages file addr page ref).addrs 0 = addr := by
  simp only [onePool, Function.update_self]

theorem onePool_addrs_of_ne {slot : Slot} (away : slot ≠ 0) :
    (onePool pages file addr page ref).addrs slot = -1 := by
  simp only [onePool, Function.update_of_ne away]

theorem onePool_findSlot_self : (onePool pages file addr page ref).findSlot addr = some 0 := by
  have first : List.finRange cachePage = 0 :: (List.finRange cachePage).tail := rfl
  unfold findSlot
  rw [first, List.find?_cons_of_pos]
  exact decide_eq_true onePool_addrs_self

theorem onePool_findSlot_none (different : other ≠ addr) (valid : other ≠ -1) :
    (onePool pages file addr page ref).findSlot other = none := by
  refine findSlot_eq_none_iff.mpr fun slot => ?_
  by_cases here : slot = 0
  · rw [here, onePool_addrs_self]
    exact different.symm
  · rw [onePool_addrs_of_ne here]
    exact valid.symm

theorem onePool_install {file' : FileInfo FsmPage} {page' : FsmPage} {length : Int} :
    BufferPool.install { onePool pages file addr page ref with file := file' } 0 other page' length =
      onePool pages { file' with length := length } other page' 1 := by
  simp only [BufferPool.install, onePool, Function.update_idem]
  congr 1
  funext slot
  by_cases here : slot = 0
  · rw [here, Function.update_self, Function.update_self]
  · simp only [Function.update_of_ne here, ne_eq, not_true_eq_false, if_false]

/-- A miss takes slot 0 again: its count is below that of the slots never used. -/
theorem onePool_miss (different : other ≠ addr) (valid : other ≠ -1) {written : FileInfo FsmPage}
    (wrote : (FileInfo.writePage page file addr).2 = written) :
    (onePool pages file addr page 0).getPage other =
      match written.readPage other with
      | .ok found => some (0, onePool pages written other found 1)
      | .error code =>
          if code = .addrOutOfRange ∧ 0 ≤ other then
            some (0, onePool pages { written with length := other + pageSize } other emptyPage 1)
          else none := by
  have chosen : (onePool pages file addr page 0).chooseTarget = some 0 := rfl
  have back : (onePool pages file addr page 0).writeBack 0 =
      { onePool pages file addr page 0 with file := written } := by
    have used : (onePool pages file addr page 0).cnt 0 ≠ unusedCnt :=
      (by decide : (1 : UInt64) ≠ unusedCnt)
    unfold writeBack
    rw [if_pos used, ← wrote]
    rfl
  simp only [BufferPool.getPage, onePool_findSlot_none different valid, chosen, BufferPool.miss, back,
    onePool_install, Option.bind_eq_bind, Option.bind_some]
  cases written.readPage other with
  | ok found => rfl
  | error code =>
      by_cases appended : code = .addrOutOfRange ∧ 0 ≤ other
      · simp only [if_pos appended, Option.bind_some]
        rfl
      · simp only [if_neg appended, Option.bind_none]

theorem onePool_release :
    (onePool pages file addr page 1).release addr = onePool pages file addr page 0 := by
  simp only [BufferPool.release, onePool_findSlot_self]
  simp only [onePool, Function.update_self, Function.update_idem]
  rfl

theorem onePool_writeSlot {page' : FsmPage} :
    (onePool pages file addr page ref).writeSlot 0 page' = onePool pages file addr page' ref := by
  simp only [BufferPool.writeSlot, onePool, Function.update_idem]

/-- The file after `written` directory blocks have left slot 0; page 0 is a hole in it. -/
def initDisk : Nat → List FsmPage
  | 0 => []
  | written + 1 => emptyPage :: List.replicate (written + 1) ⟨fun _ => -1⟩

theorem writeDisk_initDisk (written : Nat) :
    FileInfo.writeDisk (initDisk written) (written + 1) ⟨fun _ => -1⟩ = initDisk (written + 1) := by
  cases written with
  | zero => rfl
  | succ written =>
      have total : (initDisk (written + 1)).length = written + 2 := by
        simp only [initDisk, List.length_cons, List.length_replicate]
      unfold FileInfo.writeDisk
      rw [if_neg (by omega), total, Nat.sub_self, List.replicate_zero, List.append_nil]
      simp only [initDisk, List.cons_append, ← List.replicate_succ']

/-- The pool after directory block `written + 1`. -/
def initPool (pages : Slot → FsmPage) (written : Nat) : BufferPool FsmPage :=
  onePool pages ⟨initDisk written, (written + 2) * pageSize⟩ ((written + 1) * pageSize)
    ⟨fun _ => -1⟩ 0

theorem initPool_written (written : Nat) :
    (FileInfo.writePage (⟨fun _ => -1⟩ : FsmPage) ⟨initDisk written, (written + 2) * pageSize⟩
      ((written + 1) * pageSize)).2 = ⟨initDisk (written + 1), (written + 2) * pageSize⟩ := by
  have index : (((written : Int) + 1) * pageSize / pageSize).toNat = written + 1 := by
    simp only [pageSize]
    omega
  rw [FileInfo.writePage_inFile]
  · simp only [index, writeDisk_initDisk]
  · exact Int.mul_emod_left _ _
  · simp only [pageSize]
    omega
  · simp only [pageSize]
    omega

theorem onePool_ref : (onePool pages file addr page 1).ref 0 ≠ 0 :=
  (by decide : (1 : UInt64) ≠ 0)

/-- One round of the loop of `hash_table_init`, once the page is in slot 0. -/
theorem wp_initDirectory_round {post : Unit → Held FsmPage → Prop} {count first : Nat}
    {held : Held FsmPage}
    (got : held.pool.getPage ((first : Int) * pageSize) =
      some (0, onePool pages file ((first : Int) * pageSize) emptyPage 1))
    (next : ∀ ptr, (initDirectory (first + 1) count).wp (poolLogic FsmPage) post
      ⟨onePool pages file ((first : Int) * pageSize) ⟨fun _ => -1⟩ 0, ptr⟩) :
    (initDirectory first (count + 1)).wp (poolLogic FsmPage) post held := by
  rw [initDirectory]
  simp only [getPage, store, release, wp_bind, wp_perform]
  refine poolRule_getPage got ?_
  refine poolRule_store (Function.update_self ..) onePool_addrs_self onePool_ref ?_
  refine poolRule_release ?_
  simp only [onePool_writeSlot, onePool_release]
  exact next _

theorem wp_initDirectory_later {post : Unit → Held FsmPage → Prop} (count : Nat) :
    ∀ (written : Nat) (ptr : Int → Option Slot),
      (∀ ptr', post () ⟨initPool pages (written + count), ptr'⟩) →
      (initDirectory (written + 2) count).wp (poolLogic FsmPage) post
        ⟨initPool pages written, ptr⟩ := by
  induction count with
  | zero => exact fun written ptr ended => ended ptr
  | succ count ih =>
      intro written ptr ended
      have longer : ((written + 2 : Nat) : Int) * pageSize + pageSize =
          ((written + 1 : Nat) + 2) * pageSize := by
        simp only [pageSize]
        omega
      have got : (initPool pages written).getPage (((written + 2 : Nat) : Int) * pageSize) =
          some (0, onePool pages ⟨initDisk (written + 1), ((written + 1 : Nat) + 2) * pageSize⟩
            (((written + 2 : Nat) : Int) * pageSize) emptyPage 1) := by
        have nonneg : 0 ≤ ((written + 2 : Nat) : Int) * pageSize := by
          simp only [pageSize]
          omega
        unfold initPool
        rw [onePool_miss ?_ (by omega) (initPool_written written),
          FileInfo.readPage_past (Int.mul_emod_left _ _)]
        · change (if FileIOResult.addrOutOfRange = .addrOutOfRange ∧ _ then some _ else none) = _
          rw [if_pos ⟨rfl, nonneg⟩, longer]
        · simp only [pageSize]
          omega
        · simp only [pageSize]
          omega
      refine wp_initDirectory_round got fun ptr' => ?_
      have same : onePool pages ⟨initDisk (written + 1), ((written + 1 : Nat) + 2) * pageSize⟩
          (((written + 2 : Nat) : Int) * pageSize) ⟨fun _ => -1⟩ 0 = initPool pages (written + 1) := by
        unfold initPool
        congr 1
      rw [same]
      refine ih (written + 1) ptr' fun ptr'' => ?_
      rw [Nat.add_right_comm, Nat.add_assoc]
      exact ended ptr''

theorem opened_getPage_first : (initBufferPool [] pages).getPage ((1 : Nat) * pageSize) =
    some (0, onePool pages ⟨initDisk 0, ((0 : Nat) + 2) * pageSize⟩ ((1 : Nat) * pageSize)
      emptyPage 1) := by
  have found : (initBufferPool [] pages).findSlot ((1 : Nat) * pageSize) = none := rfl
  have chosen : (initBufferPool [] pages).chooseTarget = some 0 := rfl
  have missed : (initBufferPool [] pages).miss 0 ((1 : Nat) * pageSize) =
      some (onePool pages ⟨initDisk 0, ((0 : Nat) + 2) * pageSize⟩ ((1 : Nat) * pageSize)
        emptyPage 1) := rfl
  simp only [BufferPool.getPage, found, chosen, missed, Option.bind_eq_bind, Option.bind_some]
  rfl

/-- Page 0 is read back from the hole that the write of page 1 left. -/
theorem initPool_getPage_ctrl (written : Nat) : (initPool pages written).getPage 0 =
    some (0, onePool pages ⟨initDisk (written + 1), (written + 2) * pageSize⟩ 0 emptyPage 1) := by
  have read : FileInfo.readPage (⟨initDisk (written + 1), (written + 2) * pageSize⟩ :
      FileInfo FsmPage) 0 = .ok emptyPage := by
    refine FileInfo.readPage_inFile (by decide) le_rfl ?_ rfl
    simp only [pageSize]
    omega
  unfold initPool
  rw [onePool_miss ?_ (by decide) (initPool_written written), read]
  simp only [pageSize]
  omega

/-- An assignment through the pointer to slot 0. -/
theorem wp_modify_onePool {post : Unit → Held FsmPage → Prop} {change : FsmPage → FsmPage}
    {ptr : Int → Option Slot} (pointer : ptr addr = some 0)
    (holds : post () ⟨onePool pages file addr (change page) 1, ptr⟩) :
    (modify addr change).wp (poolLogic FsmPage) post ⟨onePool pages file addr page 1, ptr⟩ := by
  unfold modify
  simp only [load, store, wp_bind, wp_perform]
  refine poolRule_load pointer onePool_addrs_self onePool_ref ?_
  refine poolRule_store pointer onePool_addrs_self onePool_ref ?_
  have current : (onePool pages file addr page 1).pages 0 = page := by
    simp only [onePool, Function.update_self]
  rw [onePool_writeSlot, current]
  exact holds

theorem wp_hashTableInit_pool (written : Nat) (pages : Slot → FsmPage) :
    (hashTableInit (written + 1)).wp (poolLogic FsmPage) (fun _ held =>
      held.pool = onePool pages ⟨initDisk (written + 1), (written + 2) * pageSize⟩ 0
        (initialCtrl (written + 1)) 0) ⟨initBufferPool [] pages, fun _ => none⟩ := by
  unfold hashTableInit
  simp only [fileLength, wp_bind, wp_perform]
  refine ⟨trivial, 0, _, rfl, ?_⟩
  simp only [ne_eq, not_true_eq_false, if_false, getPage, load, release, setFileLength, wp_bind,
    wp_perform]
  refine wp_initDirectory_round opened_getPage_first fun ptr => ?_
  have first : onePool pages ⟨initDisk 0, ((0 : Nat) + 2) * pageSize⟩ ((1 : Nat) * pageSize)
      ⟨fun _ => -1⟩ 0 = initPool pages 0 := rfl
  rw [first]
  refine wp_initDirectory_later written 0 ptr fun ptr' => ?_
  rw [Nat.zero_add]
  refine poolRule_getPage (initPool_getPage_ctrl written) ?_
  have pointer : Function.update ptr' 0 (some (0 : Slot)) 0 = some 0 := Function.update_self ..
  refine wp_modify_onePool pointer (wp_modify_onePool pointer (wp_modify_onePool pointer ?_))
  refine poolRule_load pointer onePool_addrs_self onePool_ref ?_
  refine ⟨trivial, (), _, rfl, poolRule_release ?_⟩
  change (onePool pages ⟨initDisk (written + 1), (initialCtrl (written + 1)).maxSize⟩ 0
    (initialCtrl (written + 1)) 1).release 0 = _
  have length : (initialCtrl (written + 1)).maxSize = ((written : Int) + 2) * pageSize := by
    rw [show (initialCtrl (written + 1)).maxSize = pageSize * ((written + 1 : Nat) + 1) from
      set_word_self _ _ _]
    push_cast
    ring
  rw [onePool_release, length]

/-- The pool that `hash_table_init` leaves caches the pages it leaves. -/
theorem sim_initial {written : Nat} {map : PageMap FsmPage} {ptr : Int → Option Slot}
    (initial : Initial (written + 1) map) :
    Sim ⟨onePool pages ⟨initDisk (written + 1), (written + 2) * pageSize⟩ 0
      (initialCtrl (written + 1)) 0, ptr⟩ ⟨map, 0⟩ := by
  have length : ((written : Int) + 2) * pageSize = map.length := by
    rw [initial.length]
    push_cast
    ring
  have used : ∀ slot : Slot, (onePool pages ⟨initDisk (written + 1), (written + 2) * pageSize⟩ 0
      (initialCtrl (written + 1)) 0).addrs slot ≠ -1 → slot = 0 := by
    intro slot address
    by_contra away
    exact address (onePool_addrs_of_ne away)
  refine ⟨⟨length, ?_, ?_, ?_, ?_, ?_, ?_, ?_, ?_⟩, ?_, fun addr member => ?_⟩
  · rw [← length]
    simp only [pageSize]
    omega
  · rw [← length]
    exact Int.mul_emod_left _ _
  · rw [← length]
    simp only [onePool, initDisk, List.length_cons, List.length_replicate, pageSize]
    omega
  · intro slot
    by_cases here : slot = 0
    · rw [here, onePool_addrs_self]
      exact ⟨fun wrong => absurd wrong (by decide : (1 : UInt64) ≠ unusedCnt),
        fun wrong => absurd wrong (by decide)⟩
    · rw [onePool_addrs_of_ne here]
      simp only [onePool, Function.update_of_ne here]
  · intro slot address
    rw [used slot address, onePool_addrs_self]
    refine ⟨by decide, le_rfl, ?_⟩
    rw [← length]
    simp only [pageSize]
    omega
  · intro slot address
    rw [used slot address, onePool_addrs_self, initial.ctrl]
    simp only [onePool, Function.update_self]
  · intro slot other address same
    rw [used slot address, used other (same ▸ address)]
  · rintro addr ⟨aligned, nonneg, below⟩ kept
    have nonzero : addr ≠ 0 := by
      rintro rfl
      exact kept ⟨0, onePool_addrs_self⟩
    rw [← length] at below
    simp only [pageSize] at aligned below
    obtain ⟨index, place⟩ : ∃ index : Nat, addr = ((index + 1 : Nat) : Int) * pageSize := by
      refine ⟨(addr / pageSize).toNat - 1, ?_⟩
      simp only [pageSize]
      omega
    have small : index < written + 1 := by
      simp only [pageSize] at place
      omega
    have position : (addr / pageSize).toNat = index + 1 := by
      simp only [pageSize] at place ⊢
      omega
    rw [position, place, initial.directory (index + 1) (Nat.le_add_left 1 index) (by omega)]
    simp only [onePool, initDisk, List.getElem?_cons_succ, List.getElem?_replicate, if_pos small]
  · intro slot
    by_cases here : slot = 0
    · rw [here]
      rfl
    · simp only [onePool, Function.update_of_ne here]
      rfl
  · exact absurd member (Multiset.notMem_zero addr)

end Init

/-! ## Runs -/

/--
Runs of the operations on the pool and, beside it, on the flat page map. Every
call satisfies `condition` in the state before it.
-/
inductive PoolReaches (blocks : Nat)
    (condition : Held FsmPage → PageMap FsmPage → Finset (Nat × Int) → FsmOp → Prop) :
    Held FsmPage → PageMap FsmPage → Finset (Nat × Int) → Prop where
  | init {held : Held FsmPage} {map : PageMap FsmPage} (pages : Slot → FsmPage)
      (ran : (hashTableInit blocks).run (poolMeaning FsmPage)
        ⟨initBufferPool [] pages, fun _ => none⟩ = some ((), held))
      (mapRan : (hashTableInit blocks).run (mapMeaning FsmPage) PageMap.empty = some ((), map)) :
      PoolReaches blocks condition held map ∅
  | step {held held' : Held FsmPage} {map map' : PageMap FsmPage} {pairs : Finset (Nat × Int)}
      {op : FsmOp} {answer answer' : Option Int} (before : PoolReaches blocks condition held map pairs)
      (allowed : op.Allowed blocks pairs) (safe : condition held map pairs op)
      (ran : op.program.run (poolMeaning FsmPage) held = some (answer, held'))
      (mapRan : op.program.run (mapMeaning FsmPage) map = some (answer', map')) :
      PoolReaches blocks condition held' map' (op.after pairs answer')

/-- No page is released twice by the call, and its hits do not exhaust a counter. -/
def Balanced (blocks : Nat) (held : Held FsmPage) (map : PageMap FsmPage)
    (pairs : Finset (Nat × Int)) (op : FsmOp) : Prop :=
  ¬ DoubleRelease blocks map pairs op ∧ Headroom held.pool (requests op.program map)

variable {blocks : Nat} {held : Held FsmPage} {map : PageMap FsmPage} {pairs : Finset (Nat × Int)}
  {op : FsmOp}

/-- Room in the counters for as many hits as the file and the directory allow is enough. -/
theorem balanced_of_room (holds : Holds blocks map pairs) (allowed : op.Allowed blocks pairs)
    (clean : ¬ DoubleRelease blocks map pairs op)
    (room : Headroom held.pool (map.length.toNat + dirBlockSize * blocks + 7)) : Balanced blocks held map pairs op :=
  ⟨clean, room.mono (requests_program_le holds allowed)⟩

/-- `hash_table_init` on the pool and on the page map. -/
theorem run_hashTableInit_pool (positive : 1 ≤ blocks) (pages : Slot → FsmPage) :
    ∃ held map, (hashTableInit blocks).run (poolMeaning FsmPage)
        ⟨initBufferPool [] pages, fun _ => none⟩ = some ((), held) ∧
      (hashTableInit blocks).Always (poolMeaning FsmPage) (PointerGuard FsmPage)
        ⟨initBufferPool [] pages, fun _ => none⟩ ∧
      (hashTableInit blocks).run (mapMeaning FsmPage) PageMap.empty = some ((), map) ∧
      Sim held ⟨map, 0⟩ ∧ Holds blocks map ∅ ∧ ∀ slot, held.pool.cnt slot ≠ unusedCnt →
        held.pool.cnt slot = 1 := by
  obtain ⟨written, rfl⟩ : ∃ written, blocks = written + 1 := ⟨blocks - 1, by omega⟩
  obtain ⟨⟨value, held, ran, shape⟩, always⟩ := run_of_wp (wp_hashTableInit_pool written pages)
  obtain ⟨map, mapRan, initial, holds⟩ := run_hashTableInit (written + 1)
  obtain ⟨pool, ptr⟩ := held
  obtain rfl : pool = _ := shape
  refine ⟨_, map, ran, always, mapRan, sim_initial initial, holds, fun slot used => ?_⟩
  by_cases here : slot = 0
  · rw [here]
    simp only [onePool, Function.update_self]
  · simp only [onePool, Function.update_of_ne here, ne_eq, not_true_eq_false] at used

/-- One call on the pool and on the page map. -/
theorem run_program_pool (spare : Nat) (sim : Sim held ⟨map, 0⟩) (holds : Holds blocks map pairs)
    (allowed : op.Allowed blocks pairs) (clean : ¬ DoubleRelease blocks map pairs op)
    (headroom : Headroom held.pool (requests op.program map + spare)) :
    ∃ answer held' map', op.program.run (poolMeaning FsmPage) held = some (answer, held') ∧
      op.program.Always (poolMeaning FsmPage) (PointerGuard FsmPage) held ∧
      op.program.run (mapMeaning FsmPage) map = some (answer, map') ∧
      Sim held' ⟨map', 0⟩ ∧ Headroom held'.pool spare ∧
      Holds blocks map' (op.after pairs answer) := by
  obtain ⟨⟨answer, after, pinnedRan, noPins, holds', -⟩, guarded⟩ :=
    run_of_wp (wp_program holds allowed fun _ : True => clean)
  have determined : op.program.wp (pinnedLogic FsmPage True)
      (fun value final => value = answer ∧ final = after) ⟨map, 0⟩ :=
    wp_of_run pinnedRan guarded ⟨rfl, rfl⟩
  obtain ⟨⟨answer', map', mapRan, state', rfl, rfl, rfl⟩, -⟩ :=
    run_of_wp (wp_simulates (pinned_simulates FsmPage True) rfl determined)
  obtain ⟨⟨answer'', held', ran, final, sim', room, rfl, rfl⟩, always⟩ :=
    run_of_wp (wp_pool sim headroom determined)
  refine ⟨answer'', held', _, ran, always, mapRan, ?_, room, holds'⟩
  rw [← noPins]
  exact sim'

theorem PoolReaches.sim (positive : 1 ≤ blocks)
    (reached : PoolReaches blocks (Balanced blocks) held map pairs) :
    Sim held ⟨map, 0⟩ ∧ Holds blocks map pairs := by
  induction reached with
  | init pages ran mapRan =>
      obtain ⟨held, map, ran', -, mapRan', sim, holds, -⟩ := run_hashTableInit_pool positive pages
      rw [ran] at ran'
      rw [mapRan] at mapRan'
      cases ran'
      cases mapRan'
      exact ⟨sim, holds⟩
  | step before allowed safe ran mapRan ih =>
      obtain ⟨sim, holds⟩ := ih
      obtain ⟨answer, held', map', ran', -, mapRan', sim', -, holds'⟩ :=
        run_program_pool 0 sim holds allowed safe.1 safe.2
      rw [ran] at ran'
      rw [mapRan] at mapRan'
      cases ran'
      cases mapRan'
      exact ⟨sim', holds'⟩

/--
The free-space map on the buffer pool: along every run of balanced calls the
pool is idle between calls and holds the pages of the flat map, and every
further balanced call gives the same answer on both, using pointers only into
slots that are pinned and still hold the page.
-/
theorem fsm_on_pool (positive : 1 ≤ blocks) (pages : Slot → FsmPage) :
    (∃ held map, (hashTableInit blocks).run (poolMeaning FsmPage)
        ⟨initBufferPool [] pages, fun _ => none⟩ = some ((), held) ∧
      (hashTableInit blocks).Always (poolMeaning FsmPage) (PointerGuard FsmPage)
        ⟨initBufferPool [] pages, fun _ => none⟩ ∧
      (hashTableInit blocks).run (mapMeaning FsmPage) PageMap.empty = some ((), map)) ∧
    ∀ held map pairs, PoolReaches blocks (Balanced blocks) held map pairs →
      Settled held.pool map ∧
      ∀ op : FsmOp, op.Allowed blocks pairs → Balanced blocks held map pairs op →
        ∃ answer held' map', op.program.run (poolMeaning FsmPage) held = some (answer, held') ∧
          op.program.run (mapMeaning FsmPage) map = some (answer, map') ∧
          op.program.Always (poolMeaning FsmPage) (PointerGuard FsmPage) held ∧
          PoolReaches blocks (Balanced blocks) held' map' (op.after pairs answer) := by
  obtain ⟨opened, initial, ran, always, mapRan, -⟩ := run_hashTableInit_pool positive pages
  refine ⟨⟨opened, initial, ran, always, mapRan⟩, fun held map pairs reached => ?_⟩
  obtain ⟨sim, holds⟩ := reached.sim positive
  refine ⟨sim.settled, fun op allowed safe => ?_⟩
  obtain ⟨answer, held', map', ran', always', mapRan', -⟩ :=
    run_program_pool 0 sim holds allowed safe.1 safe.2
  exact ⟨answer, held', map', ran', mapRan', always', .step reached allowed safe ran' mapRan'⟩

/-! ## One directory block -/

/-- The pages that matter to the scan after one insertion of size 0, by evaluation. -/
theorem firstInsert_pages {map map' : PageMap FsmPage} {answer : Option Int}
    (ran : (hashTableInit 1).run (mapMeaning FsmPage) PageMap.empty = some ((), map))
    (ran' : (FsmOp.insert 0 0).program.run (mapMeaning FsmPage) map = some (answer, map')) :
    map'.length = 3 * pageSize ∧ (map'.page 0).nDirectoryBlocks = 1 ∧
      (map'.page pageSize).directory 15 = -1 ∧ (map'.page (2 * pageSize)).directory 0 = -1 := by
  have evaluated : ((hashTableInit 1).run (mapMeaning FsmPage) PageMap.empty).bind (fun first =>
      ((FsmOp.insert 0 0).program.run (mapMeaning FsmPage) first.2).map fun second =>
        (second.2.length, (second.2.page 0).nDirectoryBlocks,
          (second.2.page pageSize).directory 15, (second.2.page (2 * pageSize)).directory 0)) =
      some (3 * pageSize, 1, -1, -1) := by
    decide +kernel
  rw [ran, Option.bind_some, ran', Option.map_some] at evaluated
  simpa only [Option.some.injEq, Prod.mk.injEq] using evaluated

/-- With one directory block and nothing of size 15, the scan ends on the page past the directory. -/
theorem wp_popLowerBound_overrun (sim : Sim held ⟨map, 0⟩)
    (headroom : Headroom held.pool 3) (length : map.length = 3 * pageSize)
    (directories : (map.page 0).nDirectoryBlocks = 1)
    (unused : (map.page pageSize).directory 15 = -1)
    (past : (map.page (2 * pageSize)).directory 0 = -1) :
    (FsmOp.popLowerBound 15).program.wp (poolLogic FsmPage)
      (fun _ final => ∃ slot, final.pool.ref slot ≠ 0) held := by
  have inside : ∀ index : Nat, index < 3 → map.InFile (index * pageSize) := by
    intro index small
    refine ⟨Int.mul_emod_left _ _, ?_, ?_⟩ <;> simp only [pageSize] at * <;> omega
  have dir : dirAddrOf 15 = pageSize := rfl
  simp only [FsmOp.program, hashTablePopLowerBound, dir, getPage, load, release, wp_bind, wp_perform]
  refine sim.rule_getPage headroom (inside 0 (by decide)) (by decide) fun held sim headroom => ?_
  refine sim.rule_load headroom (Multiset.mem_cons_self 0 0) fun held sim headroom => ?_
  refine sim.rule_release headroom (Multiset.mem_cons_self 0 0) fun held sim headroom => ?_
  rw [Multiset.erase_cons_head] at sim
  rw [directories]
  refine sim.rule_getPage headroom (inside 1 (by decide)) (by decide) fun held sim headroom => ?_
  -- position 15 is unused, and the scan steps to the page past the directory
  change (scanDirectory 1 (15 + 1 + 1) pageSize 15).wp _ _ held
  rw [scanDirectory]
  simp only [load, release, getPage, wp_bind, wp_perform]
  refine sim.rule_load headroom (Multiset.mem_cons_self pageSize 0) fun held sim headroom => ?_
  rw [if_neg (not_not.mpr unused), if_neg (by decide)]
  refine sim.rule_release headroom (Multiset.mem_cons_self pageSize 0) fun held sim headroom => ?_
  rw [Multiset.erase_cons_head] at sim
  change (poolLogic FsmPage).rule _ (.getPage (2 * pageSize)) (fun _ after =>
    (scanDirectory 1 (15 + 1) (2 * pageSize) 0).wp _ _ after) held
  refine sim.rule_getPage headroom (inside 2 (by decide)) (by decide) fun held sim headroom => ?_
  -- its first word reads `-1`: it is released here, and once more at the end
  rw [scanDirectory]
  simp only [load, release, wp_bind, wp_perform]
  refine sim.rule_load headroom (Multiset.mem_cons_self (2 * pageSize) 0) fun held sim headroom => ?_
  rw [if_neg (not_not.mpr past), if_pos (by decide)]
  exact sim.wp_double_release

/-- A fresh pool has the headroom for many calls. -/
theorem headroom_initial {calls : Nat} (few : calls < 2 ^ 63)
    (ones : ∀ slot, held.pool.cnt slot ≠ unusedCnt → held.pool.cnt slot = 1) :
    Headroom held.pool calls := by
  refine ⟨fun slot used => ?_, by omega⟩
  rw [ones slot used, UInt64.toNat_one]
  omega

/-- The file before and after an insertion, by evaluation. -/
theorem found_lengths {map map' : PageMap FsmPage} {answer : Option Int}
    (ran : (hashTableInit 8).run (mapMeaning FsmPage) PageMap.empty = some ((), map))
    (ran' : (FsmOp.insert 120 0).program.run (mapMeaning FsmPage) map = some (answer, map')) :
    map.length = 9 * pageSize ∧ map'.length = 10 * pageSize := by
  have evaluated : ((hashTableInit 8).run (mapMeaning FsmPage) PageMap.empty).bind (fun first =>
      ((FsmOp.insert 120 0).program.run (mapMeaning FsmPage) first.2).map fun second =>
        (first.2.length, second.2.length)) = some (9 * pageSize, 10 * pageSize) := by
    decide +kernel
  rw [ran, Option.bind_some, ran', Option.map_some] at evaluated
  simpa only [Option.some.injEq, Prod.mk.injEq] using evaluated

/--
The ten pages of a map with eight directory blocks do not fit into the eight slots; a lower
bound that is not past the largest size finds the block on both.
-/
theorem fsm_on_pool_finds_larger : ∃ held map held' map',
    PoolReaches 8 (Balanced 8) held map {(120, 0)} ∧ map.length = 10 * pageSize ∧
      (FsmOp.popLowerBound 100).program.run (poolMeaning FsmPage) held = some (some 0, held') ∧
      (FsmOp.popLowerBound 100).program.run (mapMeaning FsmPage) map = some (some 0, map') ∧
      PoolReaches 8 (Balanced 8) held' map' ∅ ∧ Settled held'.pool map' := by
  obtain ⟨-, calls⟩ := fsm_on_pool (by decide : 1 ≤ 8) fun _ => emptyPage
  obtain ⟨held, map, ran, -, mapRan, sim, holds, ones⟩ :=
    run_hashTableInit_pool (by decide : 1 ≤ 8) fun _ => emptyPage
  have allowed : (FsmOp.insert 120 0).Allowed 8 ∅ := ⟨⟨by decide, by decide⟩, by simp⟩
  obtain ⟨answer, map', mapRan', -, -⟩ := run_program holds allowed
  obtain ⟨shorter, length⟩ := found_lengths mapRan mapRan'
  have few : requests (FsmOp.insert 120 0).program map + (map'.length.toNat + dirBlockSize * 8 + 7) < 2 ^ 63 := by
    have bound := requests_program_le holds allowed
    rw [shorter] at bound
    rw [length]
    exact (Nat.add_le_add_right bound _).trans_lt (by decide)
  obtain ⟨answer', held', map'', ran', -, same, -, room, holds'⟩ := run_program_pool _ sim holds allowed not_false
    (headroom_initial few ones)
  rw [mapRan'] at same
  cases same
  have stored : PoolReaches 8 (Balanced 8) held' map' {(120, 0)} := by
    have balanced := balanced_of_room holds allowed not_false (headroom_initial (by rw [shorter]; decide) ones)
    exact .step (.init _ ran mapRan) allowed balanced ran' mapRan'
  obtain ⟨-, further⟩ := calls held' map' _ stored
  have least : FsmOp.leastSize {(120, 0)} 100 = (120 : Nat) := by decide
  obtain ⟨found, held'', map'', ran'', mapRan'', -, final⟩ := further (.popLowerBound 100) ⟨by decide, by decide⟩
    (balanced_of_room holds' ⟨by decide, by decide⟩ (fun double => absurd (least.symm.trans double.1) (by decide)) room)
  obtain ⟨found', map₂, again, -, answers⟩ :=
    @run_program 8 map' {(120, 0)} (.popLowerBound 100) holds' ⟨by decide, by decide⟩
  rw [mapRan''] at again
  cases again
  simp only [FsmOp.Answers, least] at answers
  obtain ⟨addr, rfl, member⟩ := answers
  obtain rfl : addr = 0 := by simpa using member
  have emptied : FsmOp.after {(120, 0)} (.popLowerBound 100) (some 0) = ∅ := by
    simp only [FsmOp.after, least, Option.getD_some]
    exact Finset.erase_singleton _
  rw [emptied] at final
  exact ⟨held', map', held'', map'', stored, length, ran'', mapRan'', final, (calls held'' map'' ∅ final).1⟩

/--
With one directory block: after an insertion of size 0, a request for size 15
finds nothing and releases the bucket page past the directory twice.
-/
theorem double_release_leaves_reference : ∃ held map pairs,
    PoolReaches 1 (fun _ _ _ _ => True) held map pairs ∧ ¬ Settled held.pool map := by
  obtain ⟨held, map, ran, -, mapRan, sim, holds, ones⟩ :=
    run_hashTableInit_pool (le_refl 1) fun _ => emptyPage
  have allowed : (FsmOp.insert 0 0).Allowed 1 ∅ := ⟨⟨by decide, by decide⟩, by simp⟩
  have headroom : Headroom held.pool (requests (FsmOp.insert 0 0).program map + 3) := by
    refine headroom_initial ?_ ones
    exact (Nat.add_le_add_right (requests_le within_insert map) 3).trans_lt (by decide)
  obtain ⟨answer, held', map', ran', -, mapRan', sim', room, holds'⟩ :=
    run_program_pool 3 sim holds allowed not_false headroom
  obtain ⟨length, directories, unused, past⟩ := firstInsert_pages mapRan mapRan'
  obtain ⟨⟨found, held'', ran'', slot, reference⟩, -⟩ :=
    run_of_wp (wp_popLowerBound_overrun sim' room length directories unused past)
  have asked : (FsmOp.popLowerBound 15).Allowed 1 (FsmOp.after ∅ (.insert 0 0) answer) :=
    ⟨by decide, by decide⟩
  obtain ⟨found', map'', mapRan'', -⟩ := run_program holds' asked
  refine ⟨held'', map'', _, .step (.step (.init _ ran mapRan) allowed trivial ran' mapRan') asked
    trivial ran'' mapRan'', fun settled => ?_⟩
  exact reference (settled.idle slot)

end MyJQL.Storage.HashMap
