import MyJQL.Storage.BufferPool

/-!
# The buffer pool follows the page store

A page's truth lies in the slot that holds it, and on disk otherwise. `Tracks`
says this of a pool and a page map, `Sim` adds the pins: the reference count of
a slot is the number of `get_page` calls on its page not yet released.

Both counters of a slot are `size_t`. A hit that wraps `cnt` onto the value `-1`
makes the slot look unused, and a hit that wraps `ref` makes it look free;
`CounterRoom` excludes these two hits, and every other step keeps `Sim`.
-/

namespace MyJQL.Storage

open Library BufferPool

variable {P : Type} [PageType P]

/-! ## Pages on disk -/

/-- The pages of a file, read as a store. -/
def storeOf (disk : List P) : PageMap P where
  length := disk.length * pageSize
  page addr := disk.getD (addr / pageSize).toNat emptyPage

/-- The pages of a store, in file order. -/
def PageMap.filePages (map : PageMap P) : List P :=
  (List.range (map.length / pageSize).toNat).map fun index : Nat => map.page (index * pageSize)

/-- The disk holds the store's page at every address but the excepted ones. -/
def Stored (disk : List P) (map : PageMap P) (excepted : Int → Prop) : Prop :=
  ∀ addr, map.InFile addr → ¬ excepted addr →
    disk[(addr / pageSize).toNat]? = some (map.page addr)

namespace FileInfo

variable {disk : List P} {index other : Nat} {page : P}

theorem writeDisk_self : (writeDisk disk index page)[index]? = some page := by
  unfold writeDisk
  by_cases inside : index < disk.length
  · rw [if_pos inside, List.getElem?_set_self inside]
  · have total : (disk ++ List.replicate (index - disk.length) emptyPage).length = index := by
      rw [List.length_append, List.length_replicate]
      omega
    rw [if_neg inside, List.getElem?_append_right (le_of_eq total), total, Nat.sub_self]
    rfl

theorem writeDisk_of_ne {old : P} (different : other ≠ index) (present : disk[other]? = some old) :
    (writeDisk disk index page)[other]? = some old := by
  have below : other < disk.length := (List.getElem?_eq_some_iff.mp present).1
  unfold writeDisk
  by_cases inside : index < disk.length
  · rw [if_pos inside, List.getElem?_set_ne different.symm, present]
  · rw [if_neg inside, List.append_assoc, List.getElem?_append_left below, present]

theorem length_writeDisk : (writeDisk disk index page).length = max disk.length (index + 1) := by
  unfold writeDisk
  by_cases inside : index < disk.length
  · rw [if_pos inside, List.length_set]
    omega
  · rw [if_neg inside]
    simp only [List.length_append, List.length_replicate, List.length_singleton]
    omega

theorem writePage_unused (file : FileInfo P) : (writePage page file (-1)).2 = file := rfl

theorem writePage_inFile {file : FileInfo P} {addr : Int} (aligned : addr % pageSize = 0)
    (nonneg : 0 ≤ addr) (below : addr < file.length) :
    (writePage page file addr).2 =
      { file with disk := writeDisk file.disk (addr / pageSize).toNat page } := by
  unfold writePage
  rw [if_neg (not_not.mpr aligned), if_neg (by omega), if_neg (by omega)]

omit [PageType P] in
theorem readPage_inFile {file : FileInfo P} {addr : Int} (aligned : addr % pageSize = 0)
    (nonneg : 0 ≤ addr) (below : addr < file.length)
    (present : file.disk[(addr / pageSize).toNat]? = some page) :
    file.readPage addr = .ok page := by
  unfold readPage
  rw [if_neg (not_not.mpr aligned), if_neg (by omega), present]

omit [PageType P] in
theorem readPage_past {file : FileInfo P} {addr : Int} (aligned : addr % pageSize = 0)
    (past : file.length ≤ addr) : file.readPage addr = .error .addrOutOfRange := by
  unfold readPage
  rw [if_neg (not_not.mpr aligned), if_pos (Or.inr past)]

end FileInfo

/-- Writing the page of an excepted address. -/
theorem Stored.write {disk : List P} {map : PageMap P} {excepted : Int → Prop} {addr : Int}
    (stored : Stored disk map fun other => other = addr ∨ excepted other) (inside : map.InFile addr) :
    Stored (FileInfo.writeDisk disk (addr / pageSize).toNat (map.page addr)) map excepted := by
  intro other otherInside kept
  by_cases same : other = addr
  · subst same
    exact FileInfo.writeDisk_self
  · have indices : (other / pageSize).toNat ≠ (addr / pageSize).toNat := by
      obtain ⟨aligned, nonneg, -⟩ := inside
      obtain ⟨otherAligned, otherNonneg, -⟩ := otherInside
      simp only [pageSize] at *
      omega
    refine FileInfo.writeDisk_of_ne indices (stored other otherInside ?_)
    rintro (equal | excluded)
    · exact same equal
    · exact kept excluded

theorem storeOf_filePages (map : PageMap P) (nonneg : 0 ≤ map.length)
    (aligned : map.length % pageSize = 0) :
    (storeOf map.filePages).length = map.length ∧
      ∀ addr, map.InFile addr → (storeOf map.filePages).page addr = map.page addr := by
  constructor
  · simp only [storeOf, PageMap.filePages, List.length_map, List.length_range, pageSize] at *
    omega
  · intro addr inside
    obtain ⟨addrAligned, addrNonneg, below⟩ := inside
    have index : (addr / pageSize).toNat < (map.length / pageSize).toNat := by
      simp only [pageSize] at *
      omega
    have back : ((addr / pageSize).toNat : Int) * pageSize = addr := by
      simp only [pageSize] at *
      omega
    simp only [storeOf, PageMap.filePages, List.getD_eq_getElem?_getD, List.getElem?_map,
      List.getElem?_range index, Option.map_some, Option.getD_some, back]

omit [PageType P] in
/-- A disk no longer than the file, with every page stored, is the list of the pages. -/
theorem Stored.eq_filePages {disk : List P} {map : PageMap P}
    (stored : Stored disk map fun _ => False) (nonneg : 0 ≤ map.length)
    (bounded : disk.length * pageSize ≤ map.length) (aligned : map.length % pageSize = 0) :
    disk = map.filePages := by
  refine List.ext_getElem? fun index => ?_
  unfold PageMap.filePages
  by_cases inside : index < (map.length / pageSize).toNat
  · have inFile : map.InFile (index * pageSize) := by
      refine ⟨?_, ?_, ?_⟩ <;> simp only [pageSize] at * <;> omega
    have back : ((index : Int) * pageSize / pageSize).toNat = index := by
      simp only [pageSize]
      omega
    have present := stored _ inFile not_false
    rw [back] at present
    rw [present, List.getElem?_map, List.getElem?_range inside, Option.map_some]
  · have short : disk.length ≤ index := by
      simp only [pageSize] at *
      omega
    rw [List.getElem?_eq_none short, List.getElem?_eq_none]
    rw [List.length_map, List.length_range]
    omega

/-! ## The relation -/

/-- The pool caches this page map. -/
structure Tracks (pool : BufferPool P) (map : PageMap P) : Prop where
  length : pool.file.length = map.length
  nonneg : 0 ≤ map.length
  aligned : map.length % pageSize = 0
  bounded : pool.file.disk.length * pageSize ≤ map.length
  unused : ∀ slot, pool.cnt slot = unusedCnt ↔ pool.addrs slot = -1
  inFile : ∀ slot, pool.addrs slot ≠ -1 → map.InFile (pool.addrs slot)
  cached : ∀ slot, pool.addrs slot ≠ -1 → pool.pages slot = map.page (pool.addrs slot)
  distinct : ∀ slot other, pool.addrs slot ≠ -1 → pool.addrs slot = pool.addrs other → slot = other
  stored : Stored pool.file.disk map fun addr => ∃ slot, pool.addrs slot = addr

/-- The pool caches the map, its references are the pins, and pointers lead to their pages. -/
structure Sim (held : Held P) (state : Pinned P) : Prop where
  tracks : Tracks held.pool state.map
  counted : ∀ slot, (held.pool.ref slot).toNat = state.pins.count (held.pool.addrs slot)
  pointed : ∀ addr ∈ state.pins, state.map.InFile addr ∧
    ∃ slot, held.ptr addr = some slot ∧ held.pool.addrs slot = addr

/-- The hits that wrap a counter are excluded. -/
def CounterRoom (P : Type) : ∀ β : Type, PageOp P β → BufferPool P → Prop
  | _, .getPage addr, pool => ∀ slot, pool.addrs slot = addr →
      pool.cnt slot ≠ unusedCnt - 1 ∧ pool.ref slot ≠ unusedCnt
  | _, _, _ => True

/-! ## Slots -/

section Slots

omit [PageType P]

variable {pool : BufferPool P} {map : PageMap P} {slot target : Slot} {addr : Int}

theorem addrs_of_findSlot (found : pool.findSlot addr = some slot) : pool.addrs slot = addr := by
  have holds := List.find?_some found
  exact of_decide_eq_true holds

theorem findSlot_eq_none_iff : pool.findSlot addr = none ↔ ∀ slot, pool.addrs slot ≠ addr := by
  unfold findSlot
  rw [List.find?_eq_none]
  simp only [decide_eq_true_eq]
  constructor
  · intro absent slot
    exact absent slot (List.mem_finRange slot)
  · intro absent slot _
    exact absent slot

theorem Tracks.findSlot_eq (tracks : Tracks pool map) (used : pool.addrs slot ≠ -1) :
    pool.findSlot (pool.addrs slot) = some slot := by
  cases found : pool.findSlot (pool.addrs slot) with
  | none => exact absurd rfl (findSlot_eq_none_iff.mp found slot)
  | some other => rw [tracks.distinct slot other used (addrs_of_findSlot found).symm]

theorem ref_release (found : pool.findSlot addr = some slot) :
    (pool.release addr).ref slot = pool.ref slot - 1 := by
  unfold BufferPool.release
  rw [found]
  exact Function.update_self ..

theorem foldl_target_mem (pool : BufferPool P) (rest : List Slot) : ∀ first : Slot,
    rest.foldl (fun target slot => if pool.cnt target > pool.cnt slot then slot else target) first ∈
      first :: rest := by
  induction rest with
  | nil => exact fun first => List.mem_singleton_self first
  | cons slot rest ih =>
      intro first
      rw [List.foldl_cons]
      by_cases larger : pool.cnt first > pool.cnt slot
      · rw [if_pos larger]
        exact List.mem_cons_of_mem _ (ih slot)
      · rw [if_neg larger]
        rcases List.mem_cons.mp (ih first) with same | later
        · rw [same]
          exact List.mem_cons_self
        · exact List.mem_cons_of_mem _ (List.mem_cons_of_mem _ later)

/-- A free slot is found as soon as there is one. -/
theorem exists_chooseTarget (free : pool.ref slot = 0) :
    ∃ target, pool.chooseTarget = some target ∧ pool.ref target = 0 := by
  have member : slot ∈ pool.changeable :=
    List.mem_filter.mpr ⟨List.mem_finRange slot, decide_eq_true free⟩
  unfold chooseTarget
  cases candidates : pool.changeable with
  | nil =>
      rw [candidates] at member
      exact absurd member List.not_mem_nil
  | cons first rest =>
      refine ⟨_, rfl, ?_⟩
      have chosen := foldl_target_mem pool rest first
      rw [← candidates] at chosen
      exact of_decide_eq_true (List.mem_filter.mp chosen).2

end Slots

/-! ## Misses -/

section Misses

variable {pool : BufferPool P} {map map' : PageMap P} {target : Slot} {addr : Int}

/-- After the write-back the victim's page is on disk. -/
theorem Tracks.stored_writeBack (tracks : Tracks pool map) (target : Slot) :
    Stored (pool.writeBack target).file.disk map
      (fun addr => ∃ slot, slot ≠ target ∧ pool.addrs slot = addr) ∧
      (pool.writeBack target).file.length = map.length ∧
      (pool.writeBack target).file.disk.length * pageSize ≤ map.length := by
  unfold writeBack
  by_cases used : pool.cnt target = unusedCnt
  · have fresh := (tracks.unused target).mp used
    rw [if_neg (not_not.mpr used)]
    refine ⟨?_, tracks.length, tracks.bounded⟩
    intro addr inside kept
    refine tracks.stored addr inside ?_
    rintro ⟨slot, same⟩
    by_cases here : slot = target
    · rw [here, fresh] at same
      obtain ⟨-, nonneg, -⟩ := inside
      omega
    · exact kept ⟨slot, here, same⟩
  · have held : pool.addrs target ≠ -1 := fun fresh => used ((tracks.unused target).mpr fresh)
    have inside := tracks.inFile target held
    obtain ⟨aligned, nonneg, below⟩ := inside
    rw [if_pos used, FileInfo.writePage_inFile aligned nonneg (by rw [tracks.length]; exact below),
      tracks.cached target held]
    refine ⟨Stored.write ?_ ⟨aligned, nonneg, below⟩, tracks.length, ?_⟩
    · intro other otherInside kept
      refine tracks.stored other otherInside ?_
      rintro ⟨slot, same⟩
      by_cases here : slot = target
      · exact kept (Or.inl (by rw [← same, here]))
      · exact kept (Or.inr ⟨slot, here, same⟩)
    · have bounded := tracks.bounded
      have edge := tracks.aligned
      rw [FileInfo.length_writeDisk]
      simp only [pageSize] at *
      omega

theorem writeBack_kept (pool : BufferPool P) (target : Slot) :
    (pool.writeBack target).pages = pool.pages ∧ (pool.writeBack target).addrs = pool.addrs ∧
      (pool.writeBack target).cnt = pool.cnt ∧ (pool.writeBack target).ref = pool.ref := by
  unfold writeBack
  by_cases used : pool.cnt target = unusedCnt
  · rw [if_neg (not_not.mpr used)]
    exact ⟨rfl, rfl, rfl, rfl⟩
  · rw [if_pos used]
    exact ⟨rfl, rfl, rfl, rfl⟩

/-- What a map may become when the page at `addr` is brought in. -/
structure Brings (map : PageMap P) (addr : Int) (after : PageMap P) : Prop where
  kept : ∀ other, map.InFile other → after.InFile other ∧ after.page other = map.page other
  inside : after.InFile addr
  only : ∀ other, after.InFile other → map.InFile other ∨ other = addr
  length_le : map.length ≤ after.length
  aligned : after.length % pageSize = 0

/-- The victim's slot taken over by another page. -/
theorem Tracks.install (tracks : Tracks pool map) (absent : ∀ slot, pool.addrs slot ≠ addr)
    (brings : Brings map addr map') :
    Tracks ((pool.writeBack target).install target addr (map'.page addr) map'.length) map' := by
  obtain ⟨stored, -, bounded⟩ := tracks.stored_writeBack target
  obtain ⟨pages, addrs, cnt, -⟩ := writeBack_kept pool target
  have positive : addr ≠ -1 := by
    have nonneg := brings.inside.2.1
    omega
  unfold BufferPool.install
  rw [pages, addrs, cnt]
  refine ⟨rfl, le_trans tracks.nonneg brings.length_le, brings.aligned,
    le_trans bounded brings.length_le, ?_, ?_, ?_, ?_, ?_⟩
  · intro slot
    by_cases here : slot = target
    · subst here
      simp only [Function.update_self]
      exact ⟨fun wrong => absurd wrong (by decide), fun wrong => absurd wrong positive⟩
    · simp only [Function.update_of_ne here, ← tracks.unused slot]
      by_cases used : pool.cnt slot = unusedCnt
      · rw [if_neg (not_not.mpr used)]
      · rw [if_pos used]
        exact ⟨fun wrong => absurd wrong (by decide), fun wrong => absurd wrong used⟩
  · intro slot used
    by_cases here : slot = target
    · subst here
      simp only [Function.update_self]
      exact brings.inside
    · simp only [Function.update_of_ne here] at used ⊢
      exact (brings.kept _ (tracks.inFile slot used)).1
  · intro slot used
    by_cases here : slot = target
    · subst here
      simp only [Function.update_self]
    · simp only [Function.update_of_ne here] at used ⊢
      rw [tracks.cached slot used, (brings.kept _ (tracks.inFile slot used)).2]
  · intro slot other used same
    by_cases here : slot = target
    · by_cases there : other = target
      · rw [here, there]
      · simp only [here, Function.update_self, Function.update_of_ne there] at same
        exact absurd same.symm (absent other)
    · by_cases there : other = target
      · simp only [there, Function.update_self, Function.update_of_ne here] at same
        exact absurd same (absent slot)
      · simp only [Function.update_of_ne here, Function.update_of_ne there] at used same
        exact tracks.distinct slot other used same
  · intro other otherInside kept
    have notHere : other ≠ addr := by
      rintro rfl
      exact kept ⟨target, Function.update_self ..⟩
    have before := (brings.only other otherInside).resolve_right notHere
    rw [(brings.kept other before).2]
    refine stored other before ?_
    rintro ⟨slot, away, same⟩
    exact kept ⟨slot, (Function.update_of_ne away ..).trans same⟩

/-- A miss brings the page in, from disk or as a new page at the end of the file. -/
theorem Tracks.miss_eq (tracks : Tracks pool map) (target : Slot) (aligned : addr % pageSize = 0)
    (nonneg : 0 ≤ addr) (reach : addr ≤ map.length) (absent : ∀ slot, pool.addrs slot ≠ addr) :
    ∃ map', map.getPage addr = some map' ∧ Brings map addr map' ∧
      pool.miss target addr =
        some ((pool.writeBack target).install target addr (map'.page addr) map'.length) := by
  obtain ⟨stored, length, -⟩ := tracks.stored_writeBack target
  by_cases below : addr < map.length
  · have inside : map.InFile addr := ⟨aligned, nonneg, below⟩
    have present := stored addr inside (by
      rintro ⟨slot, -, same⟩
      exact absent slot same)
    refine ⟨map, PageMap.getPage_of_inFile inside, ⟨fun _ old => ⟨old, rfl⟩, inside,
      fun _ old => Or.inl old, le_rfl, tracks.aligned⟩, ?_⟩
    have read := FileInfo.readPage_inFile aligned nonneg (length.symm ▸ below) present
    simp only [BufferPool.miss, read, length]
  · have edge : addr = map.length := by omega
    have brings : Brings map addr (map.append addr) := by
      refine ⟨?_, ⟨aligned, nonneg, ?_⟩, ?_, ?_, ?_⟩
      · intro other old
        obtain ⟨otherAligned, otherNonneg, otherBelow⟩ := old
        refine ⟨⟨otherAligned, otherNonneg, ?_⟩, map.append_page_of_ne (by omega)⟩
        simp only [PageMap.append_length, pageSize]
        omega
      · simp only [PageMap.append_length, pageSize]
        omega
      · rintro other ⟨otherAligned, otherNonneg, otherBelow⟩
        have limit := tracks.aligned
        by_cases old : other < map.length
        · exact Or.inl ⟨otherAligned, otherNonneg, old⟩
        · refine Or.inr ?_
          simp only [PageMap.append_length, pageSize] at *
          omega
      · simp only [PageMap.append_length, pageSize]
        omega
      · simp only [PageMap.append_length, pageSize] at *
        omega
    refine ⟨map.append addr, PageMap.getPage_of_append aligned nonneg (le_of_eq edge.symm), brings, ?_⟩
    have read := FileInfo.readPage_past aligned (length.le.trans (le_of_eq edge.symm))
    simp only [BufferPool.miss, read, nonneg, and_self, if_true, PageMap.append_page_self,
      PageMap.append_length]

end Misses

/-! ## Steps -/

section Steps

variable {held : Held P} {state : Pinned P} {addr : Int}

/-- A pinned page keeps its slot. -/
def KeepsPinned (before after : BufferPool P) : Prop :=
  ∀ slot, before.ref slot ≠ 0 → after.addrs slot = before.addrs slot

omit [PageType P] in
theorem Sim.hit {slot : Slot} (sim : Sim held state) (here : held.pool.addrs slot = addr)
    (nonneg : 0 ≤ addr) (cntRoom : held.pool.cnt slot ≠ unusedCnt - 1)
    (refRoom : held.pool.ref slot ≠ unusedCnt) :
    Sim ⟨held.pool.hit slot, Function.update held.ptr addr (some slot)⟩
      ⟨state.map, addr ::ₘ state.pins⟩ := by
  have tracks := sim.tracks
  have used : held.pool.addrs slot ≠ -1 := by omega
  refine ⟨⟨tracks.length, tracks.nonneg, tracks.aligned, tracks.bounded, ?_, tracks.inFile,
    tracks.cached, tracks.distinct, tracks.stored⟩, ?_, ?_⟩
  · intro other
    by_cases same : other = slot
    · subst same
      simp only [BufferPool.hit, Function.update_self]
      constructor
      · intro wrapped
        exact absurd (by grind : held.pool.cnt other = unusedCnt - 1) cntRoom
      · intro fresh
        exact absurd fresh used
    · simp only [BufferPool.hit, Function.update_of_ne same]
      exact tracks.unused other
  · intro other
    have before := sim.counted other
    by_cases same : other = slot
    · subst same
      have room : (held.pool.ref other).toNat ≠ 2 ^ 64 - 1 := by
        intro full
        exact refRoom (UInt64.toNat_inj.mp full)
      have small := (held.pool.ref other).toNat_lt
      simp only [BufferPool.hit, Function.update_self, here, Multiset.count_cons_self,
        UInt64.toNat_add, UInt64.toNat_one] at before ⊢
      omega
    · have apart : held.pool.addrs other ≠ addr := by
        intro equal
        exact same (tracks.distinct slot other used (here.trans equal.symm)).symm
      simp only [BufferPool.hit, Function.update_of_ne same, Multiset.count_cons_of_ne apart]
      exact before
  · intro other member
    by_cases same : other = addr
    · subst same
      exact ⟨here ▸ tracks.inFile slot used, slot, Function.update_self .., here⟩
    · obtain ⟨inside, place, pointer, holds⟩ :=
        sim.pointed other ((Multiset.mem_cons.mp member).resolve_left same)
      exact ⟨inside, place, (Function.update_of_ne same ..).trans pointer, holds⟩

theorem Sim.install {map' : PageMap P} {target : Slot} (sim : Sim held state)
    (absent : ∀ slot, held.pool.addrs slot ≠ addr) (free : held.pool.ref target = 0)
    (brings : Brings state.map addr map') :
    Sim ⟨(held.pool.writeBack target).install target addr (map'.page addr) map'.length,
      Function.update held.ptr addr (some target)⟩ ⟨map', addr ::ₘ state.pins⟩ := by
  obtain ⟨-, addrs, -, ref⟩ := writeBack_kept held.pool target
  have notPinned : addr ∉ state.pins := by
    intro member
    obtain ⟨-, slot, -, holds⟩ := sim.pointed addr member
    exact absent slot holds
  refine ⟨sim.tracks.install absent brings, ?_, ?_⟩
  · intro slot
    by_cases here : slot = target
    · subst here
      simp only [BufferPool.install, Function.update_self, Multiset.count_cons_self,
        Multiset.count_eq_zero_of_notMem notPinned, UInt64.toNat_one]
    · simp only [BufferPool.install, Function.update_of_ne here, addrs, ref,
        Multiset.count_cons_of_ne (absent slot)]
      exact sim.counted slot
  · intro other member
    by_cases same : other = addr
    · subst same
      exact ⟨brings.inside, target, Function.update_self .., Function.update_self ..⟩
    · have pinned := (Multiset.mem_cons.mp member).resolve_left same
      obtain ⟨inside, slot, pointer, holds⟩ := sim.pointed other pinned
      have away : slot ≠ target := by
        rintro rfl
        have none := sim.counted slot
        rw [free, holds] at none
        exact Multiset.count_eq_zero.mp none.symm pinned
      refine ⟨(brings.kept other inside).1, slot, ?_, ?_⟩
      · exact (Function.update_of_ne same ..).trans pointer
      · simp only [BufferPool.install, Function.update_of_ne away, addrs, holds]

/-- `get_page` on the pool does what it does on the store. -/
theorem Sim.getPage (sim : Sim held state) (aligned : addr % pageSize = 0) (nonneg : 0 ≤ addr)
    (reach : addr ≤ state.map.length)
    (room : (∃ slot, held.pool.addrs slot = addr) ∨ ∃ slot, held.pool.ref slot = 0)
    (counters : CounterRoom P _ (.getPage addr) held.pool) :
    ∃ slot pool' map', held.pool.getPage addr = some (slot, pool') ∧
      state.map.getPage addr = some map' ∧
      Sim ⟨pool', Function.update held.ptr addr (some slot)⟩ ⟨map', addr ::ₘ state.pins⟩ ∧
      KeepsPinned held.pool pool' := by
  unfold BufferPool.getPage
  cases found : held.pool.findSlot addr with
  | some slot =>
      have here := addrs_of_findSlot found
      have used : held.pool.addrs slot ≠ -1 := by omega
      have inside : state.map.InFile addr := here ▸ sim.tracks.inFile slot used
      obtain ⟨cntRoom, refRoom⟩ := counters slot here
      exact ⟨slot, _, state.map, rfl, PageMap.getPage_of_inFile inside,
        sim.hit here nonneg cntRoom refRoom, fun _ _ => rfl⟩
  | none =>
      have absent := findSlot_eq_none_iff.mp found
      obtain ⟨spare, free⟩ := room.resolve_left fun ⟨slot, here⟩ => absent slot here
      obtain ⟨target, chosen, targetFree⟩ := exists_chooseTarget free
      obtain ⟨map', got, brings, missed⟩ :=
        sim.tracks.miss_eq target aligned nonneg reach absent
      refine ⟨target, _, map', ?_, got, sim.install absent targetFree brings, ?_⟩
      · simp only [chosen, missed, Option.bind_eq_bind, Option.bind_some]
        rfl
      · intro slot pinned
        have away : slot ≠ target := by
          rintro rfl
          exact pinned targetFree
        obtain ⟨-, addrs, -, -⟩ := writeBack_kept held.pool target
        simp only [BufferPool.install, Function.update_of_ne away, addrs]

omit [PageType P] in
theorem Sim.release (sim : Sim held state) (pinned : addr ∈ state.pins) :
    Sim ⟨held.pool.release addr, held.ptr⟩ ⟨state.map, state.pins.erase addr⟩ ∧
      KeepsPinned held.pool (held.pool.release addr) := by
  have tracks := sim.tracks
  obtain ⟨inside, slot, -, here⟩ := sim.pointed addr pinned
  have used : held.pool.addrs slot ≠ -1 := by
    have nonneg := inside.2.1
    omega
  have found : held.pool.findSlot addr = some slot := here ▸ tracks.findSlot_eq used
  unfold BufferPool.release
  rw [found]
  refine ⟨⟨⟨tracks.length, tracks.nonneg, tracks.aligned, tracks.bounded, tracks.unused,
    tracks.inFile, tracks.cached, tracks.distinct, tracks.stored⟩, ?_, ?_⟩, fun _ _ => rfl⟩
  · intro other
    have before := sim.counted other
    by_cases same : other = slot
    · subst same
      have positive : 1 ≤ (held.pool.ref other).toNat := by
        rw [before, here]
        exact Multiset.one_le_count_iff_mem.mpr pinned
      have small := (held.pool.ref other).toNat_lt
      simp only [Function.update_self, here, Multiset.count_erase_self, UInt64.toNat_sub,
        UInt64.toNat_one] at before ⊢
      omega
    · have apart : held.pool.addrs other ≠ addr := by
        intro equal
        exact same (tracks.distinct slot other used (here.trans equal.symm)).symm
      simp only [Function.update_of_ne same, Multiset.count_erase_of_ne apart]
      exact before
  · intro other member
    exact sim.pointed other (Multiset.mem_of_mem_erase member)

omit [PageType P] in
theorem Sim.store {page : P} {slot : Slot} (sim : Sim held state) (pinned : addr ∈ state.pins)
    (pointer : held.ptr addr = some slot) :
    Sim ⟨held.pool.writeSlot slot page, held.ptr⟩ ⟨state.map.store addr page, state.pins⟩ := by
  have tracks := sim.tracks
  obtain ⟨inside, place, same, here⟩ := sim.pointed addr pinned
  obtain rfl : place = slot := Option.some.inj (same.symm.trans pointer)
  have used : held.pool.addrs place ≠ -1 := by
    have nonneg := inside.2.1
    omega
  refine ⟨⟨tracks.length, tracks.nonneg, tracks.aligned, tracks.bounded, tracks.unused,
    tracks.inFile, ?_, tracks.distinct, ?_⟩, sim.counted, sim.pointed⟩
  · intro other otherUsed
    simp only [BufferPool.writeSlot] at otherUsed ⊢
    by_cases equal : other = place
    · rw [equal, Function.update_self, here, PageMap.store_page_self]
    · have apart : held.pool.addrs other ≠ addr := by
        intro collide
        exact equal (tracks.distinct place other used (here.trans collide.symm)).symm
      rw [Function.update_of_ne equal, PageMap.store_page_of_ne _ _ apart, tracks.cached other otherUsed]
  · intro other otherInside kept
    have apart : other ≠ addr := by
      rintro rfl
      exact kept ⟨place, here⟩
    rw [PageMap.store_page_of_ne _ _ apart]
    exact tracks.stored other otherInside kept

/-- What the callers of the pool owe at each step. -/
def Permitted (P : Type) : ∀ β : Type, PageOp P β → Held P → Multiset Int → Prop
  | _, .getPage addr, held, _ => addr % pageSize = 0 ∧ 0 ≤ addr ∧ addr ≤ held.pool.file.length ∧
      ((∃ slot, held.pool.addrs slot = addr) ∨ ∃ slot, held.pool.ref slot = 0)
  | _, .release addr, _, pins => addr ∈ pins
  | _, .load addr, _, pins => addr ∈ pins
  | _, .store addr _, _, pins => addr ∈ pins
  | _, .fileLength, _, _ => True
  | _, .setFileLength _, _, _ => False

/-- One step of the pool is the same step of the store. -/
theorem Sim.step {β : Type} {effect : PageOp P β} (sim : Sim held state)
    (permitted : Permitted P β effect held state.pins) (room : CounterRoom P β effect held.pool) :
    ∃ result held' state', poolMeaning P β effect held = some (result, held') ∧
      pinnedMeaning P β effect state = some (result, state') ∧ Sim held' state' ∧
      KeepsPinned held.pool held'.pool := by
  cases effect with
  | getPage addr =>
      obtain ⟨aligned, nonneg, reach, free⟩ := permitted
      obtain ⟨slot, pool', map', got, mapGot, after, kept⟩ :=
        sim.getPage aligned nonneg (sim.tracks.length ▸ reach) free room
      refine ⟨(), _, _, ?_, ?_, after, kept⟩
      · simp only [poolMeaning, got, Option.map_some]
      · simp only [pinnedMeaning, mapGot, Option.map_some]
  | release addr =>
      obtain ⟨after, kept⟩ := sim.release permitted
      exact ⟨(), _, _, rfl, rfl, after, kept⟩
  | load addr =>
      obtain ⟨inside, slot, pointer, here⟩ := sim.pointed addr permitted
      have used : held.pool.addrs slot ≠ -1 := by
        have nonneg := inside.2.1
        omega
      refine ⟨state.map.page addr, held, state, ?_, rfl, sim, fun _ _ => rfl⟩
      simp only [poolMeaning, pointer, Option.map_some, sim.tracks.cached slot used, here]
  | store addr page =>
      obtain ⟨-, slot, pointer, -⟩ := sim.pointed addr permitted
      refine ⟨(), _, _, ?_, rfl, sim.store permitted pointer, fun _ _ => rfl⟩
      simp only [poolMeaning, pointer, Option.map_some]
  | fileLength =>
      refine ⟨state.map.length, held, state, ?_, rfl, sim, fun _ _ => rfl⟩
      simp only [poolMeaning, sim.tracks.length]
  | setFileLength length => exact absurd permitted not_false

omit [PageType P] in
/-- While fewer pages are pinned than there are slots, some slot is free. -/
theorem Sim.exists_free (sim : Sim held state) (room : state.pins.card < cachePage) :
    ∃ slot, held.pool.ref slot = 0 := by
  by_contra none
  push Not at none
  have pinned : ∀ slot, held.pool.addrs slot ∈ state.pins := by
    intro slot
    refine Multiset.count_ne_zero.mp ?_
    rw [← sim.counted slot]
    intro zero
    exact none slot (UInt64.toNat_inj.mp zero)
  have injective : Function.Injective held.pool.addrs := by
    intro slot other same
    refine sim.tracks.distinct slot other ?_ same
    have nonneg := (sim.pointed _ (pinned slot)).1.2.1
    omega
  have total : (Finset.univ.image held.pool.addrs).card = cachePage := by
    rw [Finset.card_image_of_injective _ injective, Finset.card_univ, Fintype.card_fin]
  have subset : Finset.univ.image held.pool.addrs ⊆ state.pins.toFinset := by
    intro addr member
    obtain ⟨slot, -, rfl⟩ := Finset.mem_image.mp member
    exact Multiset.mem_toFinset.mpr (pinned slot)
  have bound := (Finset.card_le_card subset).trans (Multiset.toFinset_card_le state.pins)
  omega

/-- An opened pool caches the pages of its file. -/
theorem sim_init (disk : List P) (pages : Slot → P) :
    Sim ⟨initBufferPool disk pages, fun _ => none⟩ ⟨storeOf disk, 0⟩ := by
  refine ⟨⟨rfl, ?_, ?_, le_rfl, fun _ => iff_of_true rfl rfl, ?_, ?_, ?_, ?_⟩, fun _ => rfl, ?_⟩
  · exact Int.mul_nonneg (Int.natCast_nonneg _) (by decide)
  · exact Int.mul_emod_left _ _
  · exact fun slot used => absurd rfl used
  · exact fun slot used => absurd rfl used
  · exact fun slot other used _ => absurd rfl used
  · rintro addr ⟨aligned, nonneg, below⟩ -
    have index : (addr / pageSize).toNat < disk.length := by
      simp only [storeOf, pageSize] at *
      omega
    simp only [initBufferPool, FileInfo.openFile, storeOf, List.getD_eq_getElem?_getD]
    rw [List.getElem?_eq_getElem index, Option.getD_some]
  · intro addr member
    exact absurd member (Multiset.notMem_zero addr)

end Steps

end MyJQL.Storage
