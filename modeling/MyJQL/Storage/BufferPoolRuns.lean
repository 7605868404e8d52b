import MyJQL.Storage.BufferPoolSim

/-!
# Runs of the buffer pool

`PoolRun` follows a pool from `init_buffer_pool` through `get_page`, writes
through the pointers of pinned pages and `release`, beside the flat store that
the same steps denote. `Refines` is what a pool owes the store in every state.
It holds along all runs in which no hit wraps a counter, and a run of `2 ^ 64`
hits is exhibited that loses a page.
-/

namespace MyJQL.Storage

open Library BufferPool

/-- Two stores with the same pages. -/
def SameStore {P : Type} (first second : PageMap P) : Prop :=
  first.length = second.length ∧ ∀ addr, second.InFile addr → first.page addr = second.page addr

/-- The pool answers as the store does, now and after it is closed and opened again. -/
structure Refines {P : Type} [PageType P] (held : Held P) (state : Pinned P) : Prop where
  length : held.pool.file.length = state.map.length
  content : ∀ addr ∈ state.pins, ∃ slot, held.ptr addr = some slot ∧
    held.pool.addrs slot = addr ∧ held.pool.pages slot = state.map.page addr
  distinct : ∀ slot other, 0 ≤ held.pool.addrs slot →
    held.pool.addrs slot = held.pool.addrs other → slot = other
  closed : held.pool.closeBufferPool.file.disk = state.map.filePages
  reopened : SameStore (storeOf held.pool.closeBufferPool.file.disk) state.map

/-- Runs of a pool and of the store, whose steps satisfy `allowed`. -/
inductive PoolRun (P : Type) [PageType P] (allowed : ∀ β : Type, PageOp P β → BufferPool P → Prop)
    (disk : List P) : Held P → Pinned P → Prop where
  | opened (pages : Slot → P) :
      PoolRun P allowed disk ⟨initBufferPool disk pages, fun _ => none⟩ ⟨storeOf disk, 0⟩
  | step {β : Type} {held held' : Held P} {state state' : Pinned P} (effect : PageOp P β)
      (answer : β) (before : PoolRun P allowed disk held state)
      (permitted : Permitted P β effect held state.pins) (safe : allowed β effect held.pool)
      (ran : poolMeaning P β effect held = some (answer, held'))
      (denoted : pinnedMeaning P β effect state = some (answer, state')) :
      PoolRun P allowed disk held' state'

section Closing

variable {P : Type} [PageType P]

/-- The pool while it is being closed, with the slots still to be written. -/
structure Closing (pool : BufferPool P) (map : PageMap P) (rest : List Slot) : Prop where
  length : pool.file.length = map.length
  bounded : pool.file.disk.length * pageSize ≤ map.length
  slots : ∀ slot ∈ rest, pool.addrs slot = -1 ∨
    (map.InFile (pool.addrs slot) ∧ pool.pages slot = map.page (pool.addrs slot))
  stored : Stored pool.file.disk map fun addr => ∃ slot ∈ rest, pool.addrs slot = addr

theorem Closing.closeSlot {pool : BufferPool P} {map : PageMap P} {slot : Slot} {rest : List Slot}
    (closing : Closing pool map (slot :: rest)) (aligned : map.length % pageSize = 0)
    (later : slot ∉ rest) : Closing (pool.closeSlot slot) map rest := by
  have apart : ∀ other ∈ rest, Function.update pool.addrs slot 0 other = pool.addrs other := by
    intro other member
    refine Function.update_of_ne ?_ ..
    rintro rfl
    exact later member
  have slots : ∀ other ∈ rest, (pool.closeSlot slot).addrs other = -1 ∨
      (map.InFile ((pool.closeSlot slot).addrs other) ∧
        (pool.closeSlot slot).pages other = map.page ((pool.closeSlot slot).addrs other)) := by
    intro other member
    simp only [BufferPool.closeSlot, apart other member]
    exact closing.slots other (List.mem_cons_of_mem slot member)
  rcases closing.slots slot List.mem_cons_self with fresh | ⟨inside, content⟩
  · have file : (pool.closeSlot slot).file = pool.file := by
      simp only [BufferPool.closeSlot, fresh, FileInfo.writePage_unused]
    refine ⟨by rw [file, closing.length], by rw [file]; exact closing.bounded, slots, ?_⟩
    rw [file]
    intro addr addrInside kept
    refine closing.stored addr addrInside ?_
    rintro ⟨other, member, same⟩
    rcases List.mem_cons.mp member with rfl | inRest
    · obtain ⟨-, nonneg, -⟩ := addrInside
      omega
    · exact kept ⟨other, inRest, (apart other inRest).trans same⟩
  · obtain ⟨addrAligned, nonneg, below⟩ := inside
    have file : (pool.closeSlot slot).file =
        ⟨FileInfo.writeDisk pool.file.disk (pool.addrs slot / pageSize).toNat
          (map.page (pool.addrs slot)), pool.file.length⟩ := by
      simp only [BufferPool.closeSlot, content]
      exact FileInfo.writePage_inFile addrAligned nonneg (closing.length.symm ▸ below)
    refine ⟨by rw [file, closing.length], ?_, slots, ?_⟩
    · have bounded := closing.bounded
      rw [file, FileInfo.length_writeDisk]
      simp only [pageSize] at *
      omega
    · rw [file]
      refine Stored.write ?_ ⟨addrAligned, nonneg, below⟩
      intro addr addrInside kept
      refine closing.stored addr addrInside ?_
      rintro ⟨other, member, same⟩
      rcases List.mem_cons.mp member with rfl | inRest
      · exact kept (Or.inl same.symm)
      · exact kept (Or.inr ⟨other, inRest, (apart other inRest).trans same⟩)

theorem Closing.foldl {map : PageMap P} (aligned : map.length % pageSize = 0) (rest : List Slot) :
    ∀ pool : BufferPool P, rest.Nodup → Closing pool map rest →
      Closing (rest.foldl BufferPool.closeSlot pool) map [] := by
  induction rest with
  | nil => exact fun pool _ closing => closing
  | cons slot rest ih =>
      intro pool distinct closing
      obtain ⟨later, restDistinct⟩ := List.nodup_cons.mp distinct
      exact ih (pool.closeSlot slot) restDistinct (closing.closeSlot aligned later)

/-- Closing the pool leaves exactly the store's pages in the file. -/
theorem Tracks.close {pool : BufferPool P} {map : PageMap P} (tracks : Tracks pool map) :
    pool.closeBufferPool.file.disk = map.filePages := by
  have start : Closing pool map (List.finRange cachePage) := by
    refine ⟨tracks.length, tracks.bounded, ?_, ?_⟩
    · intro slot _
      by_cases fresh : pool.addrs slot = -1
      · exact Or.inl fresh
      · exact Or.inr ⟨tracks.inFile slot fresh, tracks.cached slot fresh⟩
    · intro addr inside kept
      refine tracks.stored addr inside ?_
      rintro ⟨slot, same⟩
      exact kept ⟨slot, List.mem_finRange slot, same⟩
  have done := Closing.foldl tracks.aligned _ pool (List.nodup_finRange cachePage) start
  refine Stored.eq_filePages ?_ tracks.nonneg done.bounded tracks.aligned
  intro addr inside _
  refine done.stored addr inside ?_
  rintro ⟨slot, member, -⟩
  exact absurd member List.not_mem_nil

end Closing

/-! ## Pools with one slot in use -/

/-- A page that is not zero. -/
def markedPage : Page := fun _ => 1

/-- Page 0 in slot 0, never written back, with its counters. -/
def firstPage (page : Page) (cnt ref : UInt64) : BufferPool Page where
  file := ⟨[], pageSize⟩
  pages := Function.update (fun _ => emptyPage) 0 page
  addrs := Function.update (fun _ => -1) 0 0
  cnt := Function.update (fun _ => unusedCnt) 0 cnt
  ref := Function.update (fun _ => 0) 0 ref

/-- The pointer to page 0. -/
def firstPtr : Int → Option Slot := Function.update (fun _ => none) 0 (some 0)

/-- The store with one page. -/
def firstStore (page : Page) : PageMap Page where
  length := pageSize
  page := Function.update (storeOf []).page 0 page

theorem firstPage_getPage (page : Page) (cnt : UInt64) :
    (firstPage page cnt 0).getPage 0 = some (0, firstPage page (cnt + 1) 1) := by
  have found : (firstPage page cnt 0).findSlot 0 = some 0 := rfl
  unfold BufferPool.getPage
  rw [found]
  simp only [BufferPool.hit, firstPage, Function.update_self, Function.update_idem]
  rfl

theorem firstPage_release (page : Page) (cnt : UInt64) :
    (firstPage page cnt 1).release 0 = firstPage page cnt 0 := by
  have found : (firstPage page cnt 1).findSlot 0 = some 0 := rfl
  unfold BufferPool.release
  rw [found]
  simp only [firstPage, Function.update_self, Function.update_idem]
  rfl

theorem opened_getPage : (initBufferPool ([] : List Page) fun _ => emptyPage).getPage 0 =
    some (0, firstPage emptyPage 1 1) := by
  have found : (initBufferPool ([] : List Page) fun _ => emptyPage).findSlot 0 = none := rfl
  have chosen : (initBufferPool ([] : List Page) fun _ => emptyPage).chooseTarget = some 0 := rfl
  have missed : (initBufferPool ([] : List Page) fun _ => emptyPage).miss 0 0 =
      some (firstPage emptyPage 1 1) := rfl
  simp only [BufferPool.getPage, found, chosen, missed, Option.bind_eq_bind, Option.bind_some]
  rfl

/-- Slot 0 in use for a page of a file of two pages. -/
def oneOfTwo (disk : List Page) (page : Page) (addr : Int) (ref : UInt64) : BufferPool Page where
  file := ⟨disk, 2 * pageSize⟩
  pages := Function.update (fun _ => emptyPage) 0 page
  addrs := Function.update (fun _ => -1) 0 addr
  cnt := Function.update (fun _ => unusedCnt) 0 1
  ref := Function.update (fun _ => 0) 0 ref

/-- Slot 0 is taken over in a pool whose other slots were never used. -/
theorem install_first {pool : BufferPool Page} {count : UInt64} (counts : pool.cnt = Function.update (fun _ => unusedCnt) 0 count)
    (addr : Int) (page : Page) (length : Int) : pool.install 0 addr page length =
      ⟨⟨pool.file.disk, length⟩, Function.update pool.pages 0 page, Function.update pool.addrs 0 addr,
        Function.update (fun _ => unusedCnt) 0 1, Function.update pool.ref 0 1⟩ := by
  have reset : Function.update (fun slot => if pool.cnt slot ≠ unusedCnt then 0 else pool.cnt slot) 0 1 =
      Function.update (fun _ => unusedCnt) 0 1 := by
    funext slot
    by_cases first : slot = 0
    · subst first
      rw [Function.update_self, Function.update_self]
    · rw [Function.update_of_ne first, Function.update_of_ne first, counts, Function.update_of_ne first,
        if_neg (not_not.mpr rfl)]
  unfold BufferPool.install
  rw [reset]

/-- A page in use is written back when another takes over its slot. -/
theorem firstPage_evicted (page : Page) :
    (firstPage page 2 0).getPage pageSize = some (0, oneOfTwo [page] emptyPage pageSize 1) := by
  have found : (firstPage page 2 0).findSlot pageSize = none := rfl
  have chosen : (firstPage page 2 0).chooseTarget = some 0 := rfl
  have written : (firstPage page 2 0).writeBack 0 = { firstPage page 2 0 with file := ⟨[page], pageSize⟩ } := rfl
  have missed : (firstPage page 2 0).miss 0 pageSize = some (oneOfTwo [page] emptyPage pageSize 1) := by
    have read : (FileInfo.mk [page] pageSize).readPage pageSize = .error .addrOutOfRange := rfl
    simp only [BufferPool.miss, written, read]
    rw [install_first rfl]
    simp only [firstPage, oneOfTwo, Function.update_idem]
    rfl
  simp only [BufferPool.getPage, found, chosen, missed, Option.bind_eq_bind, Option.bind_some]
  rfl

theorem oneOfTwo_release (disk : List Page) (page : Page) :
    (oneOfTwo disk page pageSize 1).release pageSize = oneOfTwo disk page pageSize 0 := by
  have found : (oneOfTwo disk page pageSize 1).findSlot pageSize = some 0 := rfl
  unfold BufferPool.release
  rw [found]
  simp only [oneOfTwo, Function.update_self, Function.update_idem]
  rfl

/-- A page that has been written back is read again. -/
theorem oneOfTwo_getPage (page : Page) : (oneOfTwo [page] emptyPage pageSize 0).getPage 0 =
    some (0, oneOfTwo [page, emptyPage] page 0 1) := by
  have found : (oneOfTwo [page] emptyPage pageSize 0).findSlot 0 = none := rfl
  have chosen : (oneOfTwo [page] emptyPage pageSize 0).chooseTarget = some 0 := rfl
  have written : (oneOfTwo [page] emptyPage pageSize 0).writeBack 0 =
      { oneOfTwo [page] emptyPage pageSize 0 with file := ⟨[page, emptyPage], 2 * pageSize⟩ } := rfl
  have missed : (oneOfTwo [page] emptyPage pageSize 0).miss 0 0 = some (oneOfTwo [page, emptyPage] page 0 1) := by
    have read : (FileInfo.mk [page, emptyPage] (2 * pageSize)).readPage 0 = .ok page := rfl
    simp only [BufferPool.miss, written, read]
    rw [install_first rfl]
    simp only [oneOfTwo, Function.update_idem]
  simp only [BufferPool.getPage, found, chosen, missed, Option.bind_eq_bind, Option.bind_some]
  rfl

/-! ## Runs -/

section Runs

variable {P : Type} [PageType P] {disk : List P} {held : Held P} {state : Pinned P}

theorem Sim.refines (sim : Sim held state) : Refines held state := by
  have tracks := sim.tracks
  have closed := tracks.close
  refine ⟨tracks.length, ?_, ?_, closed, ?_⟩
  · intro addr member
    obtain ⟨inside, slot, pointer, here⟩ := sim.pointed addr member
    have used : held.pool.addrs slot ≠ -1 := by
      have nonneg := inside.2.1
      omega
    exact ⟨slot, pointer, here, here ▸ tracks.cached slot used⟩
  · intro slot other nonneg same
    exact tracks.distinct slot other (by omega) same
  · rw [closed]
    exact storeOf_filePages state.map tracks.nonneg tracks.aligned

omit [PageType P] in
/-- Maps with the same pages are not told apart. -/
theorem Sim.same_store {first second : PageMap P} (sim : Sim held ⟨first, 0⟩) (same : SameStore first second) :
    Sim held ⟨second, 0⟩ := by
  obtain ⟨length, pages⟩ := same
  have inFile {addr : Int} : first.InFile addr ↔ second.InFile addr := by
    unfold PageMap.InFile
    rw [length]
  obtain ⟨tracks, counted, -⟩ := sim
  refine ⟨⟨tracks.length.trans length, length ▸ tracks.nonneg, length ▸ tracks.aligned, length ▸ tracks.bounded,
    tracks.unused, fun slot used => inFile.mp (tracks.inFile slot used), fun slot used => ?_, tracks.distinct, ?_⟩,
    counted, fun addr member => absurd member (Multiset.notMem_zero addr)⟩
  · rw [tracks.cached slot used]
    exact pages _ (inFile.mp (tracks.inFile slot used))
  · intro addr inside away
    rw [tracks.stored addr (inFile.mpr inside) away]
    exact congrArg some (pages addr inside)

/-- A pool that is opened on an empty file. -/
theorem sim_empty (pages : Slot → P) : Sim ⟨initBufferPool [] pages, fun _ => none⟩ ⟨PageMap.empty, 0⟩ := by
  refine (sim_init [] pages).same_store ⟨rfl, fun addr inside => ?_⟩
  obtain ⟨-, nonneg, below⟩ := inside
  exact absurd (nonneg.trans_lt below) (lt_irrefl 0)

/-- A pool that is opened on the file that an idle pool has left. -/
theorem Sim.reopened {map : PageMap P} (sim : Sim held ⟨map, 0⟩) (pages : Slot → P) :
    Sim ⟨initBufferPool held.pool.closeBufferPool.file.disk pages, fun _ => none⟩ ⟨map, 0⟩ :=
  (sim_init _ pages).same_store sim.refines.reopened

theorem PoolRun.sim (run : PoolRun P (CounterRoom P) disk held state) : Sim held state := by
  induction run with
  | opened pages => exact sim_init disk pages
  | step effect answer before permitted safe ran denoted ih =>
      obtain ⟨answer, held', state', ran', denoted', after, -⟩ := ih.step permitted safe
      rw [ran] at ran'
      rw [denoted] at denoted'
      cases ran'
      cases denoted'
      exact after

/--
The pool refines the flat store along every run in which no hit wraps a counter:
every state agrees with the store, every further step is answered as the store
answers it, and no step takes the slot of a pinned page.
-/
theorem pool_refines_store (run : PoolRun P (CounterRoom P) disk held state) :
    Refines held state ∧
      ∀ (β : Type) (effect : PageOp P β), Permitted P β effect held state.pins →
        CounterRoom P β effect held.pool →
          ∃ answer held' state', poolMeaning P β effect held = some (answer, held') ∧
            pinnedMeaning P β effect state = some (answer, state') ∧
            PoolRun P (CounterRoom P) disk held' state' ∧
            ∀ addr ∈ state.pins, ∀ slot, held.pool.addrs slot = addr →
              held'.pool.addrs slot = addr := by
  refine ⟨run.sim.refines, fun β effect permitted safe => ?_⟩
  obtain ⟨answer, held', state', ran, denoted, -, kept⟩ := run.sim.step permitted safe
  refine ⟨answer, held', state', ran, denoted, .step effect answer run permitted safe ran denoted, ?_⟩
  intro addr pinned slot here
  rw [kept slot ?_, here]
  intro free
  have none := run.sim.counted slot
  rw [free, here] at none
  exact Multiset.count_eq_zero.mp none.symm pinned

end Runs

/--
A page is written, released and hit, loses its slot to a second page, and is read again from
the file to which it was written back.
-/
theorem pool_rereads_evicted_page : ∃ held state, PoolRun Page (CounterRoom Page) [] held state ∧
    held.pool = oneOfTwo [markedPage, emptyPage] markedPage 0 1 ∧ state.map.page 0 = markedPage ∧
      (∃ slot, held.ptr 0 = some slot ∧ held.pool.pages slot = markedPage) ∧
        held.pool.closeBufferPool.file.disk = [markedPage, emptyPage] := by
  have opened : PoolRun Page (CounterRoom Page) [] _ _ := .opened fun _ => emptyPage
  have got : PoolRun Page (CounterRoom Page) [] ⟨firstPage emptyPage 1 1, firstPtr⟩ ⟨firstStore emptyPage, {0}⟩ := by
    refine .step (.getPage 0) () opened ⟨by decide, by decide, by decide, .inr ⟨0, rfl⟩⟩ (by unfold CounterRoom; decide) ?_ rfl
    simp only [poolMeaning, opened_getPage, Option.map_some]
    rfl
  have written : PoolRun Page (CounterRoom Page) [] ⟨firstPage markedPage 1 1, firstPtr⟩ ⟨firstStore markedPage, {0}⟩ := by
    refine .step (.store 0 markedPage) () got (Multiset.mem_singleton_self 0) trivial ?_ ?_
    · simp only [poolMeaning, firstPtr, Function.update_self, Option.map_some, BufferPool.writeSlot, firstPage,
        Function.update_idem]
    · simp only [pinnedMeaning, PageMap.store, firstStore, Function.update_idem]
  have released : PoolRun Page (CounterRoom Page) [] ⟨firstPage markedPage 1 0, firstPtr⟩ ⟨firstStore markedPage, 0⟩ := by
    refine .step (.release 0) () written (Multiset.mem_singleton_self 0) trivial ?_ rfl
    simp only [poolMeaning, firstPage_release]
  have hit : PoolRun Page (CounterRoom Page) [] ⟨firstPage markedPage 2 1, firstPtr⟩ ⟨firstStore markedPage, {0}⟩ := by
    refine .step (.getPage 0) () released ⟨by decide, by decide, by decide, .inl ⟨0, rfl⟩⟩ (by unfold CounterRoom; decide) ?_ rfl
    simp only [poolMeaning, firstPage_getPage, Option.map_some, firstPtr, Function.update_idem]
    rfl
  have again : PoolRun Page (CounterRoom Page) [] ⟨firstPage markedPage 2 0, firstPtr⟩ ⟨firstStore markedPage, 0⟩ := by
    refine .step (.release 0) () hit (Multiset.mem_singleton_self 0) trivial ?_ rfl
    simp only [poolMeaning, firstPage_release]
  have evicted : PoolRun Page (CounterRoom Page) []
      ⟨oneOfTwo [markedPage] emptyPage pageSize 1, Function.update firstPtr pageSize (some 0)⟩
      ⟨(firstStore markedPage).append pageSize, {pageSize}⟩ := by
    refine .step (.getPage pageSize) () again ⟨by decide, by decide, by decide, .inr ⟨0, rfl⟩⟩
      (by unfold CounterRoom; decide) ?_ rfl
    simp only [poolMeaning, firstPage_evicted, Option.map_some]
  have left : PoolRun Page (CounterRoom Page) []
      ⟨oneOfTwo [markedPage] emptyPage pageSize 0, Function.update firstPtr pageSize (some 0)⟩
      ⟨(firstStore markedPage).append pageSize, 0⟩ := by
    refine .step (.release pageSize) () evicted (Multiset.mem_singleton_self _) trivial ?_ rfl
    simp only [poolMeaning, oneOfTwo_release]
  have reread : PoolRun Page (CounterRoom Page) []
      ⟨oneOfTwo [markedPage, emptyPage] markedPage 0 1,
        Function.update (Function.update firstPtr pageSize (some 0)) 0 (some 0)⟩
      ⟨(firstStore markedPage).append pageSize, {0}⟩ := by
    refine .step (.getPage 0) () left ⟨by decide, by decide, by decide, .inr ⟨0, rfl⟩⟩
      (by unfold CounterRoom; decide) ?_ rfl
    simp only [poolMeaning, oneOfTwo_getPage, Option.map_some]
  obtain ⟨refines, -⟩ := pool_refines_store reread
  refine ⟨_, _, reread, rfl, rfl, ?_, refines.closed.trans rfl⟩
  obtain ⟨slot, pointer, -, content⟩ := refines.content 0 (Multiset.mem_singleton_self 0)
  exact ⟨slot, pointer, content.trans rfl⟩

/-! ## A wrapped counter -/

/-- Page 0 written once and hit any number of times. -/
theorem reaches_firstPage (hits : Nat) :
    PoolRun Page (fun _ _ _ => True) []
      ⟨firstPage markedPage (UInt64.ofNat (hits + 1)) 0, firstPtr⟩ ⟨firstStore markedPage, 0⟩ := by
  induction hits with
  | zero =>
      have got : PoolRun Page (fun _ _ _ => True) [] ⟨firstPage emptyPage 1 1, firstPtr⟩
          ⟨firstStore emptyPage, {0}⟩ := by
        refine .step (.getPage 0) () (.opened fun _ => emptyPage)
          ⟨by decide, by decide, by decide, Or.inr ⟨0, rfl⟩⟩ trivial ?_ ?_
        · simp only [poolMeaning, opened_getPage, Option.map_some]
          rfl
        · rfl
      have written : PoolRun Page (fun _ _ _ => True) [] ⟨firstPage markedPage 1 1, firstPtr⟩
          ⟨firstStore markedPage, {0}⟩ := by
        refine .step (.store 0 markedPage) () got (Multiset.mem_singleton_self 0) trivial ?_ ?_
        · simp only [poolMeaning, firstPtr, Function.update_self, Option.map_some,
            BufferPool.writeSlot, firstPage, Function.update_idem]
        · simp only [pinnedMeaning, PageMap.store, firstStore, Function.update_idem]
      refine .step (.release 0) () written (Multiset.mem_singleton_self 0) trivial ?_ rfl
      simp only [poolMeaning, firstPage_release]
      rfl
  | succ hits ih =>
      have got : PoolRun Page (fun _ _ _ => True) []
          ⟨firstPage markedPage (UInt64.ofNat (hits + 1) + 1) 1, firstPtr⟩
          ⟨firstStore markedPage, {0}⟩ := by
        refine .step (.getPage 0) () ih
          ⟨by decide, by decide, (by decide : (0 : Int) ≤ pageSize), Or.inl ⟨0, rfl⟩⟩ trivial ?_ rfl
        simp only [poolMeaning, firstPage_getPage, Option.map_some, firstPtr, Function.update_idem]
      refine .step (.release 0) () got (Multiset.mem_singleton_self 0) trivial ?_ rfl
      simp only [poolMeaning, firstPage_release, UInt64.ofNat_add]
      rfl

/-- Slot 0 taken over by page 128 without a write-back. -/
def lostPage : BufferPool Page where
  file := ⟨[], 2 * pageSize⟩
  pages := Function.update (fun _ => emptyPage) 0 emptyPage
  addrs := Function.update (fun _ => -1) 0 pageSize
  cnt := Function.update (fun _ => unusedCnt) 0 1
  ref := Function.update (fun _ => 0) 0 1

theorem firstPage_wrapped (page : Page) :
    (firstPage page unusedCnt 0).getPage pageSize = some (0, lostPage) := by
  have found : (firstPage page unusedCnt 0).findSlot pageSize = none := rfl
  have chosen : (firstPage page unusedCnt 0).chooseTarget = some 0 := rfl
  have kept : (firstPage page unusedCnt 0).writeBack 0 = firstPage page unusedCnt 0 := rfl
  have counts : Function.update (fun _ : Slot => unusedCnt) 0 unusedCnt = fun _ => unusedCnt :=
    Function.update_eq_self 0 _
  have missed : (firstPage page unusedCnt 0).miss 0 pageSize = some lostPage := by
    have read : (firstPage page unusedCnt 0).file.readPage pageSize = .error .addrOutOfRange := rfl
    simp only [BufferPool.miss, kept, read]
    simp only [BufferPool.install, firstPage, lostPage, counts, Function.update_idem]
    rfl
  simp only [BufferPool.getPage, found, chosen, missed, Option.bind_eq_bind, Option.bind_some]
  rfl

/--
Page 0 is written and then hit `2 ^ 64 - 2` times, so that its count is the
value of an unused slot; the next miss takes the slot over and the page is lost.
-/
theorem wrapped_count_loses_page : ∃ held state,
    PoolRun Page (fun _ _ _ => True) [] held state ∧ ¬ Refines held state := by
  have wrapped := reaches_firstPage (2 ^ 64 - 2)
  have count : UInt64.ofNat (2 ^ 64 - 2 + 1) = unusedCnt := by decide
  rw [count] at wrapped
  refine ⟨⟨lostPage, Function.update firstPtr pageSize (some 0)⟩,
    ⟨(firstStore markedPage).append pageSize, {pageSize}⟩, ?_, ?_⟩
  · refine .step (.getPage pageSize) () wrapped
      ⟨by decide, by decide, le_rfl, Or.inr ⟨0, rfl⟩⟩ trivial ?_ rfl
    simp only [poolMeaning, firstPage_wrapped, Option.map_some]
  · intro refines
    have written : lostPage.closeBufferPool.file.disk = [emptyPage, emptyPage] := rfl
    have owed : ((firstStore markedPage).append pageSize).filePages = [markedPage, emptyPage] := rfl
    have same := refines.closed
    simp only [written, owed, List.cons.injEq] at same
    exact absurd (congrFun same.1 0) (by decide)

end MyJQL.Storage
