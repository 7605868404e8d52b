import MyJQL.Storage.BufferPoolRuns

/-!
# Misses of the buffer pool

Which slot a miss takes, and what `get_page` does with an address it cannot serve. The
choice of the slot is written out here with the array `changeable_page` and the test for
`NULL`; it is the choice of `getPage`.
-/

namespace MyJQL.Storage

open Library

namespace BufferPool

variable {P : Type}

/-- `changeable_page[index]`: the free slots in order, and zeros behind them. -/
def changeablePage (pool : BufferPool P) (index : Nat) : Slot := (pool.changeable[index]?).getD 0

/-- `for (i = index; i != sum; i++)`, where `left` more entries of the array can be read. -/
def scanChangeable (pool : BufferPool P) (sum : Nat) : Nat → Nat → Slot → Option Slot
  | 0, index, target => if index = sum then some target else none
  | left + 1, index, target =>
      if index = sum then some target
      else
        let slot := pool.changeablePage index
        scanChangeable pool sum left (index + 1) (if pool.cnt target > pool.cnt slot then slot else target)

/-- The slot that `get_page` takes over on a miss. -/
def selectTarget (pool : BufferPool P) : Option Slot :=
  pool.scanChangeable pool.changeable.length (cachePage - 1) 1 (pool.changeablePage 0)

/-- `get_page` with its `NULL`, which is `none` inside. -/
def getPageOrNull [PageType P] (pool : BufferPool P) (addr : Int) : Option (Option Slot × BufferPool P) :=
  match pool.findSlot addr with
  | some slot => some (some slot, pool.hit slot)
  | none => do
      let target ← pool.selectTarget
      if ((target : Nat) : Int) = -1 then return (none, pool)
      let after ← pool.miss target addr
      return (some target, after)

section Selection

variable {pool : BufferPool P}

theorem length_changeable (pool : BufferPool P) : pool.changeable.length ≤ cachePage := by
  have bound := List.length_filter_le (fun slot => decide (pool.ref slot = 0)) (List.finRange cachePage)
  rwa [List.length_finRange] at bound

/-- The rest of the scan is a fold over the rest of the free slots. -/
theorem scanChangeable_eq (left index : Nat) (target : Slot) (start : index ≤ pool.changeable.length)
    (enough : pool.changeable.length ≤ index + left) :
    pool.scanChangeable pool.changeable.length left index target =
      some ((pool.changeable.drop index).foldl
        (fun target slot => if pool.cnt target > pool.cnt slot then slot else target) target) := by
  induction left generalizing index target with
  | zero =>
      have done : index = pool.changeable.length := by omega
      rw [scanChangeable, if_pos done, done, List.drop_length, List.foldl_nil]
  | succ left ih =>
      by_cases done : index = pool.changeable.length
      · rw [scanChangeable, if_pos done, done, List.drop_length, List.foldl_nil]
      · have inside : index < pool.changeable.length := by omega
        have entry : pool.changeablePage index = pool.changeable[index] := by
          rw [changeablePage, List.getElem?_eq_getElem inside, Option.getD_some]
        rw [scanChangeable, if_neg done, ih _ _ inside (by omega), List.drop_eq_getElem_cons inside,
          List.foldl_cons, entry]

/-- Behind the number of free slots the scan runs off the array. -/
theorem scanChangeable_none (sum left index : Nat) (target : Slot) (past : sum < index) :
    pool.scanChangeable sum left index target = none := by
  induction left generalizing index target with
  | zero => exact if_neg (by omega)
  | succ left ih =>
      rw [scanChangeable, if_neg (by omega)]
      exact ih _ _ (by omega)

theorem selectTarget_eq (pool : BufferPool P) : pool.selectTarget = pool.chooseTarget := by
  have bound := length_changeable pool
  unfold selectTarget chooseTarget
  cases candidates : pool.changeable with
  | nil =>
      rw [List.length_nil]
      exact scanChangeable_none 0 _ 1 _ Nat.zero_lt_one
  | cons first rest =>
      have start : 1 ≤ pool.changeable.length := by
        rw [candidates, List.length_cons]
        omega
      have entry : pool.changeablePage 0 = first := by
        rw [changeablePage, candidates, List.getElem?_cons_zero, Option.getD_some]
      rw [← candidates, scanChangeable_eq (cachePage - 1) 1 _ start (by omega), entry, candidates]
      rfl

/-- `get_page` never returns `NULL`. -/
theorem getPageOrNull_eq [PageType P] (pool : BufferPool P) (addr : Int) :
    pool.getPageOrNull addr = (pool.getPage addr).map fun result => (some result.1, result.2) := by
  unfold getPageOrNull getPage
  rw [selectTarget_eq]
  cases pool.findSlot addr with
  | some slot => rfl
  | none =>
      cases pool.chooseTarget with
      | none => rfl
      | some target =>
          have proper : ((target : Nat) : Int) ≠ -1 := by omega
          simp only [Option.bind_eq_bind, Option.bind_some, if_neg proper]
          cases pool.miss target addr <;> rfl

end Selection

/-! ## Addresses that cannot be served -/

section Failure

variable [PageType P] {pool : BufferPool P} {addr : Int}

/-- No slot is free for the page, or it is not the address of a page. -/
def Unservable (pool : BufferPool P) (addr : Int) : Prop :=
  (pool.findSlot addr = none ∧ ∀ slot, pool.ref slot ≠ 0) ∨ addr < 0 ∨ addr % pageSize ≠ 0

/-- `get_page` returns `NULL` and leaves the pool as it is. -/
def FailsCleanly (pool : BufferPool P) (addr : Int) : Prop :=
  ∃ after, pool.getPageOrNull addr = some (none, after) ∧ after.addrs = pool.addrs ∧ after.ref = pool.ref ∧
    after.cnt = pool.cnt ∧ after.file.length = pool.file.length ∧
    ∀ slot, pool.addrs slot ≠ -1 → after.pages slot = pool.pages slot

omit [PageType P] in
theorem chooseTarget_eq_none (busy : ∀ slot, pool.ref slot ≠ 0) : pool.chooseTarget = none := by
  have empty : pool.changeable = [] :=
    List.filter_eq_nil_iff.mpr fun slot _ => by simpa using busy slot
  rw [chooseTarget, empty]

/-- A page that is not in the file is read for a non-negative page address only. -/
theorem miss_eq_none {target : Slot} (unservable : addr < 0 ∨ addr % pageSize ≠ 0) :
    pool.miss target addr = none := by
  have failed : ∃ code, (pool.writeBack target).file.readPage addr = .error code ∧
      ¬ (code = .addrOutOfRange ∧ 0 ≤ addr) := by
    unfold FileInfo.readPage
    by_cases aligned : addr % pageSize = 0
    · have negative : addr < 0 := unservable.resolve_right (not_not.mpr aligned)
      rw [if_neg (not_not.mpr aligned), if_pos (.inl negative)]
      exact ⟨_, rfl, fun reach => absurd reach.2 (not_le.mpr negative)⟩
    · rw [if_pos aligned]
      exact ⟨_, rfl, fun reach => absurd reach.1 (by decide)⟩
  obtain ⟨code, read, other⟩ := failed
  unfold miss
  simp only [read, if_neg other]

/--
`get_page` never fails cleanly. For an address it cannot serve it runs off its array of
candidates, or off the end of the function without a result; an address that a slot happens
to hold, as a slot never used holds `-1`, is served from that slot.
-/
theorem get_page_never_fails_cleanly (unservable : Unservable pool addr) :
    ¬ FailsCleanly pool addr ∧ (pool.findSlot addr = none → pool.getPageOrNull addr = none) := by
  constructor
  · rintro ⟨after, returned, -⟩
    rw [getPageOrNull_eq] at returned
    cases got : pool.getPage addr with
    | none =>
        rw [got] at returned
        cases returned
    | some result =>
        rw [got] at returned
        cases returned
  · intro absent
    have failed : pool.getPage addr = none := by
      unfold getPage
      rw [absent]
      rcases unservable with ⟨-, busy⟩ | wrong
      · simp only [chooseTarget_eq_none busy, Option.bind_eq_bind, Option.bind_none]
      · cases pool.chooseTarget with
        | none => rfl
        | some target => simp only [Option.bind_eq_bind, Option.bind_some, miss_eq_none wrong, Option.bind_none]
    rw [getPageOrNull_eq, failed, Option.map_none]

/-- An address inside a page, asked of a new pool. -/
theorem get_page_inside_a_page : ¬ FailsCleanly (initBufferPool ([] : List Page) fun _ => emptyPage) 1 :=
  (get_page_never_fails_cleanly (.inr (.inr (by decide)))).1

/-- The null link, asked of a new pool: the first slot is returned, as if the page were there. -/
theorem get_page_null_link : Unservable (initBufferPool ([] : List Page) fun _ => emptyPage) (-1) ∧
    ¬ FailsCleanly (initBufferPool ([] : List Page) fun _ => emptyPage) (-1) := by
  refine ⟨.inr (.inl (by decide)), ?_⟩
  rintro ⟨after, returned, -⟩
  have found : (initBufferPool ([] : List Page) fun _ => emptyPage).findSlot (-1) = some 0 := rfl
  rw [getPageOrNull, found] at returned
  cases returned

end Failure

/-! ## Filling the slots -/

/-- The pages a pool caches. -/
def cachedPages (pool : BufferPool P) : Finset Int :=
  (Finset.univ.filter fun slot => pool.addrs slot ≠ -1).image pool.addrs

/-- While some slot was never used, the miss comes when every slot in use is pinned. -/
def Fills (pool : BufferPool P) (addr : Int) : Prop :=
  (∀ slot, pool.addrs slot ≠ addr) → (∃ slot, pool.addrs slot = -1) →
    ∀ slot, pool.addrs slot ≠ -1 → pool.ref slot ≠ 0

/-- Runs of `get_page` and of the `release` calls that match them, with the addresses asked
for so far and the pins still open. -/
inductive CacheRun [PageType P] (allowed : BufferPool P → Int → Prop) (disk : List P) :
    BufferPool P → Finset Int → Multiset Int → Prop where
  | opened (pages : Slot → P) : CacheRun allowed disk (initBufferPool disk pages) ∅ 0
  | getPage {pool after : BufferPool P} {requested : Finset Int} {pins : Multiset Int} {addr : Int}
      {slot : Slot} (before : CacheRun allowed disk pool requested pins) (aligned : addr % pageSize = 0)
      (nonneg : 0 ≤ addr) (admitted : allowed pool addr) (got : pool.getPage addr = some (slot, after)) :
      CacheRun allowed disk after (insert addr requested) (addr ::ₘ pins)
  | release {pool : BufferPool P} {requested : Finset Int} {pins : Multiset Int} {addr : Int}
      (before : CacheRun allowed disk pool requested pins) (pinned : addr ∈ pins) :
      CacheRun allowed disk (pool.release addr) requested (pins.erase addr)

/-- The slots are taken in order, and no page asked for is lost before the last one is. -/
structure Filling (pool : BufferPool P) (requested : Finset Int) (pins : Multiset Int) : Prop where
  fresh : ∀ slot, pool.addrs slot = -1 → pool.cnt slot = unusedCnt ∧ pool.ref slot = 0
  ordered : ∀ slot other, slot < other → pool.addrs other ≠ -1 → pool.addrs slot ≠ -1
  distinct : ∀ slot other, pool.addrs slot ≠ -1 → pool.addrs slot = pool.addrs other → slot = other
  asked : ∀ slot, pool.addrs slot ≠ -1 → pool.addrs slot ∈ requested
  kept : (∃ slot, pool.addrs slot = -1) → ∀ addr ∈ requested, ∃ slot, pool.addrs slot = addr
  valid : ∀ addr ∈ requested, 0 ≤ addr
  owed : ∀ addr ∈ pins, addr ∈ requested

section Cache

variable {pool after : BufferPool P} {requested : Finset Int} {pins : Multiset Int} {addr : Int}
  {slot target : Slot}

theorem mem_cachedPages : addr ∈ pool.cachedPages ↔ ∃ slot, pool.addrs slot ≠ -1 ∧ pool.addrs slot = addr := by
  unfold cachedPages
  rw [Finset.mem_image]
  constructor
  · rintro ⟨slot, member, same⟩
    exact ⟨slot, (Finset.mem_filter.mp member).2, same⟩
  · rintro ⟨slot, used, same⟩
    exact ⟨slot, Finset.mem_filter.mpr ⟨Finset.mem_univ slot, used⟩, same⟩

/-- The scan leaves its first candidate only for a smaller count. -/
theorem foldl_target_first (pool : BufferPool P) (rest : List Slot) : ∀ first : Slot,
    let target := rest.foldl (fun target slot =>
      if pool.cnt target > pool.cnt slot then slot else target) first
    target = first ∨ pool.cnt target < pool.cnt first := by
  induction rest with
  | nil => exact fun first => Or.inl rfl
  | cons slot rest ih =>
      intro first
      rw [List.foldl_cons]
      by_cases less : pool.cnt first > pool.cnt slot
      · rw [if_pos less]
        rcases ih slot with same | smaller
        · exact Or.inr (same.symm ▸ less)
        · exact Or.inr (UInt64.lt_trans smaller less)
      · rw [if_neg less]
        exact ih first

/-- A slot never used is taken only when no free slot comes before it. -/
theorem chooseTarget_first (chosen : pool.chooseTarget = some target)
    (unused : pool.cnt target = unusedCnt) (free : pool.ref slot = 0) : target ≤ slot := by
  have member : slot ∈ pool.changeable :=
    List.mem_filter.mpr ⟨List.mem_finRange slot, decide_eq_true free⟩
  have sorted : pool.changeable.Pairwise (· ≤ ·) := (List.pairwise_le_finRange cachePage).filter _
  unfold chooseTarget at chosen
  cases candidates : pool.changeable with
  | nil =>
      rw [candidates] at member
      exact absurd member List.not_mem_nil
  | cons first rest =>
      rw [candidates] at chosen sorted member
      cases chosen
      rcases foldl_target_first pool rest first with same | smaller
      · rw [same]
        rcases List.mem_cons.mp member with here | later
        · exact le_of_eq here.symm
        · exact (List.pairwise_cons.mp sorted).1 slot later
      · rw [unused] at smaller
        have bound := (pool.cnt first).toNat_lt
        have above := UInt64.lt_iff_toNat_lt.mp smaller
        have largest : unusedCnt.toNat = 2 ^ 64 - 1 := rfl
        omega

/-- Which slot a miss takes over, while some slot was never used. -/
theorem Filling.chooses (filling : Filling pool requested pins) (absent : ∀ slot, pool.addrs slot ≠ addr)
    (spare : ∃ slot, pool.addrs slot = -1) :
    ∃ target, pool.chooseTarget = some target ∧ (pool.addrs target = -1 ↔ Fills pool addr) := by
  obtain ⟨unused, never⟩ := spare
  obtain ⟨target, chosen, targetFree⟩ := exists_chooseTarget (filling.fresh unused never).2
  refine ⟨target, chosen, ?_, ?_⟩
  · intro targetNever _ _ slot used free
    have first := chooseTarget_first chosen (filling.fresh target targetNever).1 free
    rcases lt_or_eq_of_le first with before | same
    · exact filling.ordered target slot before used targetNever
    · exact used (same ▸ targetNever)
  · intro fills
    by_contra used
    exact fills absent ⟨unused, never⟩ target used targetFree

/-- What a miss does to the slots. -/
theorem miss_installs [PageType P] (missed : pool.miss target addr = some after) :
    after.addrs = Function.update pool.addrs target addr ∧
      after.cnt = Function.update (fun slot => if pool.cnt slot ≠ unusedCnt then 0 else pool.cnt slot) target 1 ∧
      after.ref = Function.update pool.ref target 1 := by
  obtain ⟨-, addrs, cnt, ref⟩ := writeBack_kept pool target
  unfold miss at missed
  simp only at missed
  split at missed
  · cases missed
    exact ⟨by simp only [install, addrs], by simp only [install, cnt], by simp only [install, ref]⟩
  · split at missed
    · cases missed
      exact ⟨by simp only [install, addrs], by simp only [install, cnt], by simp only [install, ref]⟩
    · cases missed

/-- A hit leaves the slots with their pages. -/
theorem Filling.hit (filling : Filling pool requested pins) (nonneg : 0 ≤ addr)
    (found : pool.findSlot addr = some slot) :
    Filling (pool.hit slot) (insert addr requested) (addr ::ₘ pins) := by
  have here := addrs_of_findSlot found
  have used : pool.addrs slot ≠ -1 := by omega
  have known : insert addr requested = requested :=
    Finset.insert_eq_self.mpr (here ▸ filling.asked slot used)
  rw [known]
  refine ⟨?_, filling.ordered, filling.distinct, filling.asked, filling.kept, filling.valid, ?_⟩
  · intro other never
    have away : other ≠ slot := by
      rintro rfl
      exact used never
    have fresh := filling.fresh other never
    exact ⟨(Function.update_of_ne away ..).trans fresh.1, (Function.update_of_ne away ..).trans fresh.2⟩
  · intro other member
    rcases Multiset.mem_cons.mp member with rfl | before
    · exact here ▸ filling.asked slot used
    · exact filling.owed other before

/-- A miss that takes a slot never used adds its page to the others. -/
theorem Filling.miss [PageType P] (filling : Filling pool requested pins) (nonneg : 0 ≤ addr)
    (absent : ∀ slot, pool.addrs slot ≠ addr) (chosen : pool.chooseTarget = some target)
    (first : (∃ slot, pool.addrs slot = -1) → pool.addrs target = -1)
    (missed : pool.miss target addr = some after) :
    Filling after (insert addr requested) (addr ::ₘ pins) := by
  obtain ⟨addrs, cnt, ref⟩ := miss_installs missed
  have proper : addr ≠ -1 := by omega
  have taken : after.addrs target = addr := by rw [addrs, Function.update_self]
  have others : ∀ slot, slot ≠ target → after.addrs slot = pool.addrs slot := by
    intro slot away
    rw [addrs, Function.update_of_ne away]
  have still : ∀ slot, after.addrs slot = -1 → slot ≠ target ∧ pool.addrs slot = -1 := by
    intro slot never
    have away : slot ≠ target := by
      rintro rfl
      exact proper (taken.symm.trans never)
    exact ⟨away, (others slot away).symm.trans never⟩
  constructor
  · intro slot never
    obtain ⟨away, before⟩ := still slot never
    obtain ⟨count, free⟩ := filling.fresh slot before
    refine ⟨?_, ?_⟩
    · rw [cnt, Function.update_of_ne away, if_neg (not_not.mpr count), count]
    · rw [ref, Function.update_of_ne away, free]
  · intro slot other before used never
    obtain ⟨away, slotNever⟩ := still slot never
    by_cases here : other = target
    · -- the slot taken is the first one never used
      have unused := first ⟨slot, slotNever⟩
      have least := chooseTarget_first chosen (filling.fresh target unused).1 (filling.fresh slot slotNever).2
      rw [here] at before
      exact absurd before (not_lt.mpr least)
    · rw [others other here] at used
      exact filling.ordered slot other before used slotNever
  · intro slot other used same
    by_cases atSlot : slot = target
    · by_cases atOther : other = target
      · exact atSlot.trans atOther.symm
      · rw [atSlot, taken, others other atOther] at same
        exact absurd same.symm (absent other)
    · by_cases atOther : other = target
      · rw [atOther, taken, others slot atSlot] at same
        exact absurd same (absent slot)
      · rw [others slot atSlot] at used same
        rw [others other atOther] at same
        exact filling.distinct slot other used same
  · intro slot used
    by_cases here : slot = target
    · rw [here, taken]
      exact Finset.mem_insert_self addr requested
    · rw [others slot here] at used ⊢
      exact Finset.mem_insert_of_mem (filling.asked slot used)
  · rintro ⟨slot, never⟩ page member
    obtain ⟨-, slotNever⟩ := still slot never
    rcases Finset.mem_insert.mp member with rfl | before
    · exact ⟨target, taken⟩
    · obtain ⟨holder, holds⟩ := filling.kept ⟨slot, slotNever⟩ page before
      have away : holder ≠ target := by
        rintro rfl
        have valid := filling.valid page before
        have unused := first ⟨slot, slotNever⟩
        omega
      exact ⟨holder, (others holder away).trans holds⟩
  · intro page member
    rcases Finset.mem_insert.mp member with rfl | before
    · exact nonneg
    · exact filling.valid page before
  · intro page member
    rcases Multiset.mem_cons.mp member with rfl | before
    · exact Finset.mem_insert_self page requested
    · exact Finset.mem_insert_of_mem (filling.owed page before)

/-- `release` keeps every page in its slot. -/
theorem Filling.release (filling : Filling pool requested pins) (pinned : addr ∈ pins) :
    Filling (pool.release addr) requested (pins.erase addr) := by
  have rest : ∀ page ∈ pins.erase addr, page ∈ requested :=
    fun page member => filling.owed page (Multiset.mem_of_mem_erase member)
  have nonneg := filling.valid addr (filling.owed addr pinned)
  unfold BufferPool.release
  cases found : pool.findSlot addr with
  | none => exact { filling with owed := rest }
  | some slot =>
      have here := addrs_of_findSlot found
      refine ⟨?_, filling.ordered, filling.distinct, filling.asked, filling.kept, filling.valid, rest⟩
      intro other never
      have away : other ≠ slot := by
        rintro rfl
        simp only [here] at never
        omega
      exact ⟨(filling.fresh other never).1, (Function.update_of_ne away ..).trans (filling.fresh other never).2⟩

theorem CacheRun.filling [PageType P] {disk : List P} (run : CacheRun Fills disk pool requested pins) :
    Filling pool requested pins := by
  induction run with
  | opened pages =>
      constructor
      · exact fun slot _ => ⟨rfl, rfl⟩
      · exact fun slot other _ used => absurd rfl used
      · exact fun slot other used => absurd rfl used
      · exact fun slot used => absurd rfl used
      · exact fun _ addr member => absurd member (Finset.notMem_empty addr)
      · exact fun addr member => absurd member (Finset.notMem_empty addr)
      · exact fun addr member => absurd member (Multiset.notMem_zero addr)
  | @getPage pool after requested pins addr slot before aligned nonneg admitted got filling =>
      unfold BufferPool.getPage at got
      cases found : pool.findSlot addr with
      | some hitSlot =>
          rw [found] at got
          cases got
          exact filling.hit nonneg found
      | none =>
          have absent := findSlot_eq_none_iff.mp found
          rw [found] at got
          cases chosen : pool.chooseTarget with
          | none =>
              rw [chosen] at got
              cases got
          | some target =>
              simp only [chosen, Option.bind_eq_bind, Option.bind_some] at got
              cases missed : pool.miss target addr with
              | none =>
                  rw [missed] at got
                  cases got
              | some installed =>
                  rw [missed] at got
                  cases got
                  refine filling.miss nonneg absent chosen ?_ missed
                  intro spare
                  obtain ⟨other, chosenOther, unused⟩ := filling.chooses absent spare
                  rw [chosen] at chosenOther
                  cases chosenOther
                  exact unused.mpr admitted
  | release before pinned filling => exact filling.release pinned

/-- The pages held are as many as were asked for, up to the number of slots. -/
theorem Filling.card (filling : Filling pool requested pins) :
    pool.cachedPages.card = min requested.card cachePage := by
  have subset : pool.cachedPages ⊆ requested := by
    intro addr member
    obtain ⟨slot, used, here⟩ := mem_cachedPages.mp member
    exact here ▸ filling.asked slot used
  by_cases spare : ∃ slot, pool.addrs slot = -1
  · have same : pool.cachedPages = requested := by
      refine Finset.Subset.antisymm subset ?_
      intro addr member
      obtain ⟨slot, here⟩ := filling.kept spare addr member
      have valid := filling.valid addr member
      exact mem_cachedPages.mpr ⟨slot, by omega, here⟩
    have bound : pool.cachedPages.card ≤ cachePage := by
      refine le_trans Finset.card_image_le (le_trans (Finset.card_filter_le _ _) ?_)
      exact le_of_eq (Finset.card_fin cachePage)
    rw [same] at bound ⊢
    exact (min_eq_left bound).symm
  · have used : ∀ slot, pool.addrs slot ≠ -1 := not_exists.mp spare
    have full : pool.cachedPages.card = cachePage := by
      unfold cachedPages
      rw [Finset.filter_true_of_mem fun slot _ => used slot, Finset.card_image_of_injective, Finset.card_fin]
      intro slot other same
      exact filling.distinct slot other (used slot) same
    rw [full, min_eq_right]
    exact full ▸ Finset.card_le_card subset

/-- The first pages of a new file, fetched one after the other and not released. -/
def filledPool (count : Nat) : BufferPool Page where
  file := ⟨[], count * pageSize⟩
  pages _ := emptyPage
  addrs slot := if slot.val < count then slot.val * pageSize else -1
  cnt slot := if slot.val + 1 < count then 0 else if slot.val + 1 = count then 1 else unusedCnt
  ref slot := if slot.val < count then 1 else 0

/-- The next page goes to the next slot. -/
theorem filledPool_install : ∀ slot : Slot, (filledPool slot.val).install slot (slot.val * pageSize) emptyPage
    (slot.val * pageSize + pageSize) = filledPool (slot.val + 1) := by
  have addrs : ∀ slot other : Slot, Function.update (filledPool slot.val).addrs slot (slot.val * pageSize) other =
      (filledPool (slot.val + 1)).addrs other := by decide
  have cnt : ∀ slot other : Slot, Function.update (fun other => if (filledPool slot.val).cnt other ≠ unusedCnt then 0
      else (filledPool slot.val).cnt other) slot 1 other = (filledPool (slot.val + 1)).cnt other := by decide
  have ref : ∀ slot other : Slot, Function.update (filledPool slot.val).ref slot 1 other =
      (filledPool (slot.val + 1)).ref other := by decide
  have length : ∀ slot : Slot, (slot.val * pageSize + pageSize : Int) = (slot.val + 1 : Nat) * pageSize := by decide
  intro slot
  have pages : Function.update (fun _ : Slot => (emptyPage : Page)) slot emptyPage = fun _ => emptyPage :=
    Function.update_eq_self slot _
  unfold BufferPool.install
  rw [funext (addrs slot), funext (cnt slot), funext (ref slot), length]
  simp only [filledPool, pages]

theorem filledPool_getPage (slot : Slot) : (filledPool slot.val).getPage (slot.val * pageSize) =
    some (slot, filledPool (slot.val + 1)) := by
  have found : ∀ slot : Slot, (filledPool slot.val).findSlot (slot.val * pageSize) = none := by decide
  have chosen : ∀ slot : Slot, (filledPool slot.val).chooseTarget = some slot := by decide
  have unused : ∀ slot : Slot, (filledPool slot.val).cnt slot = unusedCnt := by decide
  have kept : (filledPool slot.val).writeBack slot = filledPool slot.val := by
    rw [BufferPool.writeBack, if_neg (not_not.mpr (unused slot))]
  have read : (filledPool slot.val).file.readPage (slot.val * pageSize) = .error .addrOutOfRange := by
    rw [FileInfo.readPage, if_neg (not_not.mpr (Int.mul_emod_left ..)), if_pos (.inr le_rfl)]
  have nonneg : (0 : Int) ≤ slot.val * pageSize := Int.mul_nonneg (Int.natCast_nonneg _) (by decide)
  have missed : (filledPool slot.val).miss slot (slot.val * pageSize) = some (filledPool (slot.val + 1)) := by
    simp only [BufferPool.miss, kept, read]
    rw [if_pos ⟨trivial, nonneg⟩, filledPool_install]
  simp only [BufferPool.getPage, found, chosen, missed, Option.bind_eq_bind, Option.bind_some]
  rfl

/-- Every page fetched so far is pinned, so that each miss meets the condition. -/
theorem filledPool_reached (count : Nat) (few : count ≤ cachePage) :
    CacheRun Fills ([] : List Page) (filledPool count) ((Finset.range count).image fun place : Nat => (place : Int) * pageSize)
      ((Multiset.range count).map fun place : Nat => (place : Int) * pageSize) := by
  induction count with
  | zero => exact .opened fun _ => emptyPage
  | succ count ih =>
      have run := ih (Nat.le_of_succ_le few)
      have pinned : ∀ slot other : Slot, (filledPool slot.val).addrs other ≠ -1 → (filledPool slot.val).ref other ≠ 0 := by
        decide
      have next := CacheRun.getPage run (Int.mul_emod_left ..) (Int.mul_nonneg (Int.natCast_nonneg _) (by decide))
        (fun _ _ => pinned ⟨count, few⟩) (filledPool_getPage ⟨count, few⟩)
      rw [Finset.range_add_one, Finset.image_insert, Multiset.range_succ, Multiset.map_cons]
      exact next

/--
The pool uses all its slots before it evicts, in every run whose misses come, while some slot
was never used, when every slot in use is pinned. Any other miss evicts a page: an unused slot
counts as the most used one.
-/
theorem cache_fills_first [PageType P] {disk : List P} (run : CacheRun Fills disk pool requested pins) :
    pool.cachedPages ⊆ requested ∧ pool.cachedPages.card = min requested.card cachePage ∧
      ∀ addr, (∀ slot, pool.addrs slot ≠ addr) → (∃ slot, pool.addrs slot = -1) →
        ∃ target, pool.chooseTarget = some target ∧ (pool.addrs target = -1 ↔ Fills pool addr) := by
  refine ⟨?_, run.filling.card, fun addr absent spare => run.filling.chooses absent spare⟩
  intro addr member
  obtain ⟨slot, used, here⟩ := mem_cachedPages.mp member
  exact here ▸ run.filling.asked slot used

/-- Eight pages are fetched, the first of them is released, and a ninth takes its slot. -/
theorem cache_fills_eight_of_nine : ∃ pool requested pins, CacheRun Fills ([] : List Page) pool requested pins ∧
    requested.card = 9 ∧ pool.cachedPages ⊆ requested ∧ pool.cachedPages.card = 8 ∧
      (∀ slot : Slot, slot ≠ 0 → pool.addrs slot = slot.val * pageSize) ∧ pool.addrs 0 = 8 * pageSize := by
  have first : (0 : Int) ∈ (Multiset.range 8).map fun place : Nat => (place : Int) * pageSize := by decide
  have released := (filledPool_reached 8 le_rfl).release first
  have found : ((filledPool 8).release 0).findSlot (8 * pageSize) = none := by decide
  have chosen : ((filledPool 8).release 0).chooseTarget = some 0 := by decide
  obtain ⟨after, missed⟩ : ∃ after, ((filledPool 8).release 0).miss 0 (8 * pageSize) = some after := ⟨_, rfl⟩
  have served : ((filledPool 8).release 0).getPage (8 * pageSize) = some (0, after) := by
    simp only [BufferPool.getPage, found, chosen, missed, Option.bind_eq_bind, Option.bind_some]
    rfl
  have used : ∀ slot, ((filledPool 8).release 0).addrs slot ≠ -1 := by decide
  have fills : Fills ((filledPool 8).release 0) (8 * pageSize) :=
    fun _ spare => spare.elim fun slot unused => absurd unused (used slot)
  have last := CacheRun.getPage released (by decide) (by decide) fills served
  obtain ⟨inside, card, -⟩ := cache_fills_first last
  have addrs := (miss_installs missed).1
  refine ⟨_, _, _, last, by decide, inside, card.trans (by decide), ?_, ?_⟩
  · intro slot other
    rw [addrs, Function.update_of_ne other]
    revert slot
    decide
  · rw [addrs, Function.update_self]

/-- Page 0 released, then page 128 asked for: seven slots were never used, and page 0 is evicted. -/
theorem cache_evicts_early : ∃ pool, CacheRun (fun _ _ => True) ([] : List Page) pool {pageSize, 0} {pageSize} ∧
    (∃ slot, pool.addrs slot = -1) ∧ 0 ∉ pool.cachedPages ∧
      pool.cachedPages.card ≠ min ({pageSize, 0} : Finset Int).card cachePage := by
  have opened : CacheRun (fun _ _ => True) ([] : List Page) _ _ _ := .opened fun _ => emptyPage
  have got : CacheRun (fun _ _ => True) ([] : List Page) (firstPage emptyPage 1 1) {0} {0} :=
    .getPage opened (by decide) (le_refl 0) trivial opened_getPage
  have released := CacheRun.release got (Multiset.mem_singleton_self 0)
  rw [firstPage_release] at released
  have found : (firstPage emptyPage 1 0).findSlot pageSize = none := rfl
  have chosen : (firstPage emptyPage 1 0).chooseTarget = some 0 := rfl
  have missed : (firstPage emptyPage 1 0).miss 0 pageSize =
      some (((firstPage emptyPage 1 0).writeBack 0).install 0 pageSize emptyPage (2 * pageSize)) := rfl
  have served : (firstPage emptyPage 1 0).getPage pageSize =
      some (0, ((firstPage emptyPage 1 0).writeBack 0).install 0 pageSize emptyPage (2 * pageSize)) := by
    simp only [BufferPool.getPage, found, chosen, missed, Option.bind_eq_bind, Option.bind_some]
    rfl
  have last := CacheRun.getPage released (by decide) (by decide) trivial served
  have addrs := (miss_installs missed).1
  have cached : ∀ addr, addr ∈ (((firstPage emptyPage 1 0).writeBack 0).install 0 pageSize emptyPage
      (2 * pageSize)).cachedPages ↔ addr = pageSize := by
    intro addr
    rw [mem_cachedPages, addrs]
    constructor
    · rintro ⟨slot, used, here⟩
      by_cases first : slot = 0
      · rw [first, Function.update_self] at here
        exact here.symm
      · rw [Function.update_of_ne first] at used
        have never : (firstPage emptyPage 1 0).addrs slot = -1 := by
          unfold firstPage
          dsimp only
          rw [Function.update_of_ne first]
        exact absurd never used
    · rintro rfl
      exact ⟨0, by decide, Function.update_self ..⟩
  have only : (((firstPage emptyPage 1 0).writeBack 0).install 0 pageSize emptyPage
      (2 * pageSize)).cachedPages = {pageSize} := by
    ext addr
    rw [cached, Finset.mem_singleton]
  refine ⟨_, last, ⟨1, rfl⟩, ?_, ?_⟩
  · rw [cached]
    decide
  · rw [only]
    decide

end Cache

end BufferPool

end MyJQL.Storage
