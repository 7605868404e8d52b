import MyJQL.Library.Cost
import MyJQL.Storage.BufferPoolSim

/-!
# Programs on the buffer pool

A program that keeps the pin discipline on the page map runs on the pool with
the same answers, as long as its `get_page` calls do not exhaust the counters of
the slots. Pointers are then used only while their slot still holds the page.
-/

namespace MyJQL.Storage

open Library BufferPool

variable {P : Type} [PageType P] {α : Type}

/-- The content of a page of the pool: of its slot, or of the file when no slot holds it. -/
def BufferPool.logicalPage (pool : BufferPool P) (addr : Int) : Option P :=
  match pool.findSlot addr with
  | some slot => some (pool.pages slot)
  | none => pool.file.disk[(addr / pageSize).toNat]?

omit [PageType P] in
/-- Of more pages than there are slots one at least is in no slot. -/
theorem BufferPool.exists_evicted {count : Nat} (pool : BufferPool P) (more : cachePage < count) :
    ∃ place : Fin count, ∀ slot, pool.addrs slot ≠ place * pageSize := by
  by_contra all
  push Not at all
  choose slot cached using all
  have fewer : Fintype.card Slot < Fintype.card (Fin count) := by
    rw [Fintype.card_fin, Fintype.card_fin]
    exact more
  obtain ⟨first, second, different, same⟩ := Fintype.exists_ne_map_eq_of_card_lt slot fewer
  have equal := (cached first).symm.trans (same ▸ cached second)
  exact different (Fin.ext (Int.ofNat.inj (Int.eq_of_mul_eq_mul_right (by decide) equal)))

/-- No page is pinned, and the contents of the pool are those of the page map. -/
structure Settled (pool : BufferPool P) (map : PageMap P) : Prop where
  idle : ∀ slot, pool.ref slot = 0
  length : pool.file.length = map.length
  pages : ∀ addr, map.InFile addr → pool.logicalPage addr = some (map.page addr)

omit [PageType P] in
theorem Tracks.logicalPage {pool : BufferPool P} {map : PageMap P} {addr : Int}
    (tracks : Tracks pool map) (inside : map.InFile addr) :
    pool.logicalPage addr = some (map.page addr) := by
  unfold BufferPool.logicalPage
  cases found : pool.findSlot addr with
  | some slot =>
      have here := addrs_of_findSlot found
      have used : pool.addrs slot ≠ -1 := by
        have nonneg := inside.2.1
        omega
      simp only [tracks.cached slot used, here]
  | none =>
      refine tracks.stored addr inside ?_
      rintro ⟨slot, same⟩
      exact findSlot_eq_none_iff.mp found slot same

omit [PageType P] in
theorem Sim.settled {held : Held P} {map : PageMap P} (sim : Sim held ⟨map, 0⟩) :
    Settled held.pool map := by
  refine ⟨fun slot => ?_, sim.tracks.length, fun addr inside => sim.tracks.logicalPage inside⟩
  have none := sim.counted slot
  rw [Multiset.count_zero] at none
  exact UInt64.toNat_inj.mp none

/-- A pointer is used while its slot is pinned and holds the page. -/
def PointerGuard (P : Type) : ∀ β : Type, PageOp P β → Held P → Prop
  | _, .load addr, held => ∃ slot, held.ptr addr = some slot ∧ held.pool.addrs slot = addr ∧
      held.pool.ref slot ≠ 0
  | _, .store addr _, held => ∃ slot, held.ptr addr = some slot ∧ held.pool.addrs slot = addr ∧
      held.pool.ref slot ≠ 0
  | _, _, _ => True

def poolLogic (P : Type) [PageType P] : Logic (PageOp P) (Held P) :=
  Logic.ofMeaning (poolMeaning P) (PointerGuard P)

section Rules

variable {held : Held P} {addr : Int} {slot : Slot} {pool' : BufferPool P}

theorem poolRule_getPage {post : Unit → Held P → Prop}
    (got : held.pool.getPage addr = some (slot, pool'))
    (holds : post () ⟨pool', Function.update held.ptr addr (some slot)⟩) :
    (poolLogic P).rule _ (.getPage addr) post held := by
  refine ⟨trivial, (), ⟨pool', Function.update held.ptr addr (some slot)⟩, ?_, holds⟩
  simp only [poolMeaning, got, Option.map_some]

theorem poolRule_release {post : Unit → Held P → Prop}
    (holds : post () ⟨held.pool.release addr, held.ptr⟩) :
    (poolLogic P).rule _ (.release addr) post held :=
  ⟨trivial, (), _, rfl, holds⟩

theorem poolRule_load {post : P → Held P → Prop} (pointer : held.ptr addr = some slot)
    (here : held.pool.addrs slot = addr) (pinned : held.pool.ref slot ≠ 0)
    (holds : post (held.pool.pages slot) held) :
    (poolLogic P).rule _ (.load addr) post held := by
  refine ⟨⟨slot, pointer, here, pinned⟩, held.pool.pages slot, held, ?_, holds⟩
  simp only [poolMeaning, pointer, Option.map_some]

theorem poolRule_store {post : Unit → Held P → Prop} {page : P} (pointer : held.ptr addr = some slot)
    (here : held.pool.addrs slot = addr) (pinned : held.pool.ref slot ≠ 0)
    (holds : post () ⟨held.pool.writeSlot slot page, held.ptr⟩) :
    (poolLogic P).rule _ (.store addr page) post held := by
  refine ⟨⟨slot, pointer, here, pinned⟩, (), ⟨held.pool.writeSlot slot page, held.ptr⟩, ?_, holds⟩
  simp only [poolMeaning, pointer, Option.map_some]

end Rules

/-- The number of `get_page` calls among one effect. -/
def PageOp.requests : ∀ {β : Type}, PageOp P β → Nat
  | _, .getPage _ => 1
  | _, .release _ => 0
  | _, .load _ => 0
  | _, .store _ _ => 0
  | _, .fileLength => 0
  | _, .setFileLength _ => 0

/-- The number of `get_page` calls a program makes on the page map. -/
def requests : Prog (PageOp P) α → PageMap P → Nat
  | .pure _, _ => 0
  | .fail, _ => 0
  | .op effect next, map => effect.requests +
      match mapMeaning P _ effect map with
      | some (result, after) => requests (next result) after
      | none => 0

/-- They are what a run on the page map costs. -/
theorem requests_eq_cost (program : Prog (PageOp P) α) (map : PageMap P) :
    requests program map = program.cost (fun _ effect => effect.requests) (mapMeaning P) map := by
  induction program generalizing map with
  | pure value => rfl
  | fail => rfl
  | op effect next ih =>
      rw [requests, Prog.cost]
      cases mapMeaning P _ effect map with
      | none => rfl
      | some result => exact congrArg _ (ih result.1 result.2)

theorem requests_le {program : Prog (PageOp P) α} {bound : Nat}
    (within : program.Within (fun _ effect => effect.requests) bound) (map : PageMap P) :
    requests program map ≤ bound := by
  rw [requests_eq_cost]
  exact within.cost_le map

theorem requests_bind {β : Type} {program : Prog (PageOp P) α} {next : α → Prog (PageOp P) β} {map after : PageMap P}
    {value : α} (ran : program.run (mapMeaning P) map = some (value, after)) :
    requests (program >>= next) map = requests program map + requests (next value) after := by
  simp only [requests_eq_cost]
  exact Prog.cost_bind _ ran

theorem requests_bind_pure {β : Type} (program : Prog (PageOp P) α) (result : α → β) (map : PageMap P) :
    requests (program >>= fun value => Prog.pure (result value)) map = requests program map := by
  induction program generalizing map with
  | pure value => rfl
  | fail => rfl
  | op effect next ih =>
      change requests (.op effect fun told => next told >>= fun value => Prog.pure (result value)) map = _
      rw [requests, requests]
      cases mapMeaning P _ effect map with
      | none => rfl
      | some told => exact congrArg _ (ih told.1 told.2)

/-- The counters stay below the unused value for this many hits. -/
structure Headroom (pool : BufferPool P) (calls : Nat) : Prop where
  counts : ∀ slot, pool.cnt slot ≠ unusedCnt → (pool.cnt slot).toNat + calls < 2 ^ 64 - 1
  calls : calls < 2 ^ 64 - 2

section Headroom

variable {pool after : BufferPool P} {slot : Slot} {calls : Nat} {addr : Int}

omit [PageType P] in
theorem Headroom.mono {fewer : Nat} (headroom : Headroom pool calls) (le : fewer ≤ calls) : Headroom pool fewer :=
  ⟨fun slot used => lt_of_le_of_lt (Nat.add_le_add_left le _) (headroom.counts slot used), le.trans_lt headroom.calls⟩

omit [PageType P] in
theorem headroom_init (disk : List P) (pages : Slot → P) (few : calls < 2 ^ 64 - 2) :
    Headroom (initBufferPool disk pages) calls :=
  ⟨fun _ used => absurd rfl used, few⟩

omit [PageType P] in
theorem Headroom.counterRoom (headroom : Headroom pool (calls + 1)) {slot : Slot}
    (used : pool.cnt slot ≠ unusedCnt) : pool.cnt slot ≠ unusedCnt - 1 := by
  have small := headroom.counts slot used
  intro full
  rw [full] at small
  have value : (unusedCnt - 1 : UInt64).toNat = 2 ^ 64 - 2 := by decide
  omega

theorem Headroom.getPage (headroom : Headroom pool (calls + 1))
    (got : pool.getPage addr = some (slot, after)) : Headroom after calls := by
  have fewer : calls < 2 ^ 64 - 2 := by
    have bound := headroom.calls
    omega
  refine ⟨?_, fewer⟩
  intro other used
  unfold BufferPool.getPage at got
  cases found : pool.findSlot addr with
  | some place =>
      rw [found] at got
      cases got
      simp only [BufferPool.hit] at used ⊢
      by_cases same : other = slot
      · subst same
        rw [Function.update_self] at used ⊢
        by_cases fresh : pool.cnt other = unusedCnt
        · have wrapped : (pool.cnt other + 1).toNat = 0 := by
            rw [fresh]
            decide
          omega
        · have small := headroom.counts other fresh
          rw [UInt64.toNat_add, UInt64.toNat_one, Nat.mod_eq_of_lt (by omega)]
          omega
      · rw [Function.update_of_ne same] at used ⊢
        have small := headroom.counts other used
        omega
  | none =>
      rw [found] at got
      obtain ⟨target, chosen, missed⟩ := Option.bind_eq_some_iff.mp got
      obtain ⟨final, installed, same⟩ := Option.bind_eq_some_iff.mp missed
      cases same
      have shape : ∃ page length, after = (pool.writeBack slot).install slot addr page length := by
        unfold BufferPool.miss at installed
        cases read : (pool.writeBack slot).file.readPage addr with
        | ok page =>
            simp only [read, Option.some.injEq] at installed
            exact ⟨page, _, installed.symm⟩
        | error code =>
            simp only [read] at installed
            by_cases appended : code = .addrOutOfRange ∧ 0 ≤ addr
            · rw [if_pos appended, Option.some.injEq] at installed
              exact ⟨emptyPage, _, installed.symm⟩
            · rw [if_neg appended] at installed
              cases installed
      obtain ⟨page, length, rfl⟩ := shape
      obtain ⟨-, -, cnt, -⟩ := writeBack_kept pool slot
      simp only [BufferPool.install, cnt] at used ⊢
      by_cases same : other = slot
      · subst same
        rw [Function.update_self, UInt64.toNat_one]
        omega
      · rw [Function.update_of_ne same] at used ⊢
        by_cases fresh : pool.cnt other = unusedCnt
        · rw [if_neg (not_not.mpr fresh)] at used
          exact absurd fresh used
        · rw [if_pos fresh, UInt64.toNat_zero]
          omega

end Headroom

section Simulation

variable {held held' : Held P} {state after : Pinned P} {β : Type} {effect : PageOp P β} {result : β}

/-- The pin discipline is what the pool asks of its callers. -/
theorem Sim.permitted (sim : Sim held state) (guard : PinGuard P β effect state)
    (step : pinnedMeaning P β effect state = some (result, after)) :
    Permitted P β effect held state.pins := by
  cases effect with
  | getPage addr =>
      obtain ⟨room, reach⟩ := guard
      have position : addr % pageSize = 0 ∧ 0 ≤ addr := by
        by_contra bad
        simp only [pinnedMeaning, PageMap.getPage, if_neg bad] at step
        cases step
      exact ⟨position.1, position.2, sim.tracks.length ▸ reach, Or.inr (sim.exists_free room)⟩
  | release addr => exact guard
  | load addr => exact guard
  | store addr page => exact guard
  | fileLength => trivial
  | setFileLength length => exact guard

omit [PageType P] in
theorem Sim.pointerGuard (sim : Sim held state) (guard : PinGuard P β effect state) :
    PointerGuard P β effect held := by
  have pinned : ∀ addr ∈ state.pins, ∃ slot, held.ptr addr = some slot ∧
      held.pool.addrs slot = addr ∧ held.pool.ref slot ≠ 0 := by
    intro addr member
    obtain ⟨-, slot, pointer, here⟩ := sim.pointed addr member
    refine ⟨slot, pointer, here, fun free => ?_⟩
    have none := sim.counted slot
    rw [free, here] at none
    exact Multiset.count_eq_zero.mp none.symm member
  cases effect with
  | getPage addr => trivial
  | release addr => trivial
  | load addr => exact pinned addr guard
  | store addr page => exact pinned addr guard
  | fileLength => trivial
  | setFileLength length => trivial

/-- Within the headroom no hit wraps a counter. -/
theorem Sim.counterRoom {calls : Nat} (sim : Sim held state) (guard : PinGuard P β effect state)
    (step : pinnedMeaning P β effect state = some (result, after))
    (headroom : Headroom held.pool (effect.requests + calls)) :
    CounterRoom P β effect held.pool := by
  cases effect with
  | getPage addr =>
      intro slot here
      obtain ⟨-, nonneg, -⟩ := sim.permitted guard step
      have used : held.pool.cnt slot ≠ unusedCnt := by
        intro fresh
        have unused := (sim.tracks.unused slot).mp fresh
        omega
      have room : Headroom held.pool (calls + 1) := by
        rw [Nat.add_comm]
        exact headroom
      refine ⟨room.counterRoom used, fun full => ?_⟩
      have few := sim.counted slot
      have card := Multiset.count_le_card (held.pool.addrs slot) state.pins
      have slots := guard.1
      rw [full] at few
      have value : unusedCnt.toNat = 2 ^ 64 - 1 := by decide
      simp only [cachePage] at slots
      omega
  | release addr => trivial
  | load addr => trivial
  | store addr page => trivial
  | fileLength => trivial
  | setFileLength length => trivial

theorem Headroom.step {calls : Nat} (headroom : Headroom held.pool (effect.requests + calls))
    (ran : poolMeaning P β effect held = some (result, held')) : Headroom held'.pool calls := by
  cases effect with
  | getPage addr =>
      simp only [poolMeaning, Option.map_eq_some_iff] at ran
      obtain ⟨⟨slot, pool'⟩, got, same⟩ := ran
      cases same
      rw [PageOp.requests, Nat.add_comm] at headroom
      exact headroom.getPage got
  | release addr =>
      cases ran
      rw [PageOp.requests, Nat.zero_add] at headroom
      have cnt : (held.pool.release addr).cnt = held.pool.cnt := by
        unfold BufferPool.release
        cases held.pool.findSlot addr with
        | none => rfl
        | some slot => rfl
      refine ⟨?_, headroom.calls⟩
      simp only [cnt]
      exact headroom.counts
  | load addr =>
      simp only [poolMeaning, Option.map_eq_some_iff] at ran
      obtain ⟨slot, -, same⟩ := ran
      cases same
      rw [PageOp.requests, Nat.zero_add] at headroom
      exact headroom
  | store addr page =>
      simp only [poolMeaning, Option.map_eq_some_iff] at ran
      obtain ⟨slot, -, same⟩ := ran
      cases same
      rw [PageOp.requests, Nat.zero_add] at headroom
      exact ⟨headroom.counts, headroom.calls⟩
  | fileLength =>
      cases ran
      rw [PageOp.requests, Nat.zero_add] at headroom
      exact headroom
  | setFileLength length =>
      cases ran
      rw [PageOp.requests, Nat.zero_add] at headroom
      exact ⟨headroom.counts, headroom.calls⟩

/-- One disciplined effect of a program on the pool. -/
theorem Sim.rule {calls : Nat} {post : β → Held P → Prop} (sim : Sim held state)
    (headroom : Headroom held.pool (effect.requests + calls)) (guard : PinGuard P β effect state)
    (step : pinnedMeaning P β effect state = some (result, after))
    (next : ∀ held', Sim held' after → Headroom held'.pool calls → post result held') :
    (poolLogic P).rule β effect post held := by
  obtain ⟨answer, held', state', ran, denoted, sim', -⟩ :=
    sim.step (sim.permitted guard step) (sim.counterRoom guard step headroom)
  rw [step] at denoted
  cases denoted
  exact ⟨sim.pointerGuard guard, result, held', ran, next held' sim' (headroom.step ran)⟩

/-- Within its headroom the pool does what a disciplined program does on the page map. -/
theorem affords_pool : Affords (fun _ effect => effect.requests) (pinnedMeaning P) (PinGuard P) (poolMeaning P) (PointerGuard P)
    fun calls held state => Sim held state ∧ Headroom held.pool calls := by
  rintro β effect spare held state after result ⟨sim, headroom⟩ guard step
  have ruled : (poolLogic P).rule β effect (fun answer held' => answer = result ∧ Sim held' after ∧
      Headroom held'.pool spare) held :=
    sim.rule headroom guard step fun held' sim' room => ⟨rfl, sim', room⟩
  obtain ⟨pointer, _, held', ran, rfl, sim', room⟩ := ruled
  exact ⟨pointer, held', ran, sim', room⟩

/-- A specification in the pinned logic holds on the pool. -/
theorem wp_pool {program : Prog (PageOp P) α} {post : α → Pinned P → Prop} {spare : Nat}
    (sim : Sim held state) (headroom : Headroom held.pool (requests program state.map + spare))
    (holds : program.wp (pinnedLogic P True) post state) :
    program.wp (poolLogic P) (fun value held' => ∃ state', Sim held' state' ∧
      Headroom held'.pool spare ∧ post value state') held := by
  induction program generalizing held state with
  | pure value =>
      rw [requests, Nat.zero_add] at headroom
      exact ⟨state, sim, headroom, holds⟩
  | fail => exact holds
  | op effect next ih =>
      obtain ⟨guarded, result, after, step, inner⟩ := holds
      simp only [requests, mapMeaning_of_pinned step, Nat.add_assoc] at headroom
      refine sim.rule headroom (guarded trivial) step ?_
      intro held' sim' room
      exact ih result sim' room inner

end Simulation

section Discipline

variable {held : Held P} {map : PageMap P} {pins : Multiset Int} {calls : Nat} {addr : Int}

theorem Sim.rule_getPage {post : Unit → Held P → Prop} (sim : Sim held ⟨map, pins⟩)
    (headroom : Headroom held.pool (calls + 1)) (inside : map.InFile addr)
    (room : pins.card < cachePage)
    (next : ∀ held', Sim held' ⟨map, addr ::ₘ pins⟩ → Headroom held'.pool calls → post () held') :
    (poolLogic P).rule _ (.getPage addr) post held := by
  have split : Headroom held.pool (PageOp.requests (.getPage addr : PageOp P Unit) + calls) := by
    rw [PageOp.requests, Nat.add_comm]
    exact headroom
  refine sim.rule split ⟨room, le_of_lt inside.2.2⟩ ?_ next
  simp only [pinnedMeaning, PageMap.getPage_of_inFile inside, Option.map_some]

theorem Sim.rule_release {post : Unit → Held P → Prop} (sim : Sim held ⟨map, pins⟩)
    (headroom : Headroom held.pool calls) (pinned : addr ∈ pins)
    (next : ∀ held', Sim held' ⟨map, pins.erase addr⟩ → Headroom held'.pool calls → post () held') :
    (poolLogic P).rule _ (.release addr) post held := by
  have split : Headroom held.pool (PageOp.requests (.release addr : PageOp P Unit) + calls) := by
    rw [PageOp.requests, Nat.zero_add]
    exact headroom
  exact sim.rule split pinned rfl next

theorem Sim.rule_load {post : P → Held P → Prop} (sim : Sim held ⟨map, pins⟩)
    (headroom : Headroom held.pool calls) (pinned : addr ∈ pins)
    (next : ∀ held', Sim held' ⟨map, pins⟩ → Headroom held'.pool calls →
      post (map.page addr) held') :
    (poolLogic P).rule _ (.load addr) post held := by
  have split : Headroom held.pool (PageOp.requests (.load addr : PageOp P P) + calls) := by
    rw [PageOp.requests, Nat.zero_add]
    exact headroom
  exact sim.rule split pinned rfl next

/-- A page released once too often: its slot is left with a reference count of `-1`. -/
theorem Sim.wp_double_release (sim : Sim held ⟨map, {addr}⟩) :
    (poolLogic P).rule _ (.release addr) (fun _ after =>
      (poolLogic P).rule _ (.release addr) (fun _ final =>
        ∃ slot, final.pool.ref slot ≠ 0) after) held := by
  obtain ⟨inside, slot, pointer, here⟩ := sim.pointed addr (Multiset.mem_singleton_self addr)
  obtain ⟨released, kept⟩ := sim.release (Multiset.mem_singleton_self addr)
  have pinned : held.pool.ref slot ≠ 0 := by
    intro free
    have none := sim.counted slot
    rw [free, here, Multiset.count_singleton_self] at none
    exact absurd none (by decide)
  have stays : (held.pool.release addr).addrs slot = addr := (kept slot pinned).trans here
  have found : (held.pool.release addr).findSlot addr = some slot := by
    have used : (held.pool.release addr).addrs slot ≠ -1 := by
      have nonneg := inside.2.1
      omega
    have search := released.tracks.findSlot_eq used
    rwa [stays] at search
  have zero : (held.pool.release addr).ref slot = 0 := by
    have none := released.counted slot
    rw [Multiset.erase_singleton, Multiset.count_zero] at none
    exact UInt64.toNat_inj.mp none
  refine poolRule_release (poolRule_release ⟨slot, ?_⟩)
  rw [ref_release found, zero]
  decide

end Discipline

end MyJQL.Storage
