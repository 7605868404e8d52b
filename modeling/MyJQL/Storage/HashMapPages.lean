import MyJQL.Storage.HashMapRuns

/-!
# Pages of the free-space map

Here a history may store the same pair several times, so it denotes a multiset of
pairs. In every state reached, the bucket pages below `max_size` are shared out
between the chains and the free list.
-/

namespace MyJQL.Storage.HashMap

open Library Library.Prog

/-- The addresses paired with a size, with multiplicity. -/
def bagIn (pairs : Multiset (Nat × Int)) (size : Nat) : Multiset Int :=
  (pairs.filter fun pair => pair.1 = size).map Prod.snd

namespace FsmOp

/-- Sizes are in range and popped pairs are present; a pair may be stored again. -/
def Permitted (blocks : Nat) (pairs : Multiset (Nat × Int)) : FsmOp → Prop
  | .insert size _ => InRange blocks size
  | .pop size addr => InRange blocks size ∧ (size, addr) ∈ pairs
  | .popLowerBound size => InRange blocks size

/-- The multiset after the call, from the multiset before and the answer. -/
def remaining (pairs : Multiset (Nat × Int)) : FsmOp → Option Int → Multiset (Nat × Int)
  | .insert size addr, _ => (size, addr) ::ₘ pairs
  | .pop size addr, _ => pairs.erase (size, addr)
  | .popLowerBound size, answer =>
      match leastSize pairs.toFinset size with
      | ⊤ => pairs
      | (found : Nat) => pairs.erase (found, answer.getD 0)

end FsmOp

/-- Runs of the three operations from `hash_table_init`, with the multiset they store. -/
inductive Stores (blocks : Nat) : PageMap FsmPage → Multiset (Nat × Int) → Prop where
  | init {map : PageMap FsmPage}
      (ran : (hashTableInit blocks).run (mapMeaning FsmPage) PageMap.empty = some ((), map)) :
      Stores blocks map 0
  | step {map map' : PageMap FsmPage} {pairs : Multiset (Nat × Int)} {op : FsmOp}
      {answer : Option Int} (before : Stores blocks map pairs)
      (permitted : op.Permitted blocks pairs)
      (ran : op.program.run (mapMeaning FsmPage) map = some (answer, map')) :
      Stores blocks map' (op.remaining pairs answer)

/--
The bucket pages are shared out: `chain` lists the pages of every directory entry
and `free` those of the free list, by following the links up to `-1`.
-/
structure Conserved (blocks : Nat) (map : PageMap FsmPage) (chain : Nat → List Int)
    (free : List Int) : Prop where
  directories : (map.page 0).nDirectoryBlocks = blocks
  maxAligned : (map.page 0).maxSize % pageSize = 0
  chainLinked : ∀ size < dirBlockSize * blocks,
    Linked (-1) (fun addr => (map.page addr).next) (entry map size) (chain size)
  freeLinked : Linked (-1) (fun addr => (map.page addr).next) (map.page 0).freeBlockHead free
  chainNodup : ∀ size < dirBlockSize * blocks, (chain size).Nodup
  freeNodup : free.Nodup
  shared : ∀ addr, addr % pageSize = 0 → (blocks + 1) * pageSize ≤ addr →
    addr < (map.page 0).maxSize →
      (addr ∈ free ∧ ∀ size < dirBlockSize * blocks, addr ∉ chain size) ∨
        (addr ∉ free ∧ ∃! size, size < dirBlockSize * blocks ∧ addr ∈ chain size)
  chainItems : ∀ size < dirBlockSize * blocks, ∀ addr ∈ chain size,
    1 ≤ (map.page addr).nItems ∧ (map.page addr).nItems ≤ 14
  freeItems : ∀ addr ∈ free, (map.page addr).nItems = 0
  referenced : ∀ addr, (addr ∈ free ∨ ∃ size < dirBlockSize * blocks, addr ∈ chain size) →
    addr % pageSize = 0 ∧ (blocks + 1) * pageSize ≤ addr ∧ addr < (map.page 0).maxSize

variable {blocks : Nat} {map : PageMap FsmPage} {pairs : Multiset (Nat × Int)} {op : FsmOp}

theorem Shape.conserved {chain : Nat → List Int} {free : List Int}
    (shape : Shape blocks map chain free) : Conserved blocks map chain free where
  directories := shape.directories
  maxAligned := shape.maxAligned
  chainLinked := shape.chainLinked
  freeLinked := shape.freeLinked
  chainNodup _ small := chain_nodup shape.distinct small
  freeNodup := free_nodup shape.distinct
  shared := by
    intro addr aligned above below
    have member := (shape.mem_owned addr).mpr ⟨aligned, above, below⟩
    by_cases isFree : addr ∈ free
    · refine Or.inl ⟨isFree, fun size small inChain => ?_⟩
      exact not_free_of_chain shape.distinct small inChain isFree
    · obtain ⟨size, small, inChain⟩ := (mem_owned_iff.mp member).resolve_left isFree
      refine Or.inr ⟨isFree, size, ⟨small, inChain⟩, ?_⟩
      rintro other ⟨otherSmall, inOther⟩
      by_contra different
      exact not_chain_of_chain shape.distinct small otherSmall different inChain inOther
  chainItems := shape.chainItems
  freeItems := shape.freeItems
  referenced addr member := (shape.mem_owned addr).mp (mem_owned_iff.mpr member)

/-! ## Bags of a multiset of pairs -/

section Bags

variable {size : Nat} {addr : Int}

theorem mem_bagIn : addr ∈ bagIn pairs size ↔ (size, addr) ∈ pairs := by
  unfold bagIn
  rw [Multiset.mem_map]
  constructor
  · rintro ⟨⟨other, value⟩, member, rfl⟩
    obtain ⟨inside, rfl⟩ := Multiset.mem_filter.mp member
    exact inside
  · intro member
    exact ⟨(size, addr), Multiset.mem_filter.mpr ⟨member, rfl⟩, rfl⟩

theorem bagIn_eq_zero {other : Nat} : bagIn pairs other = 0 ↔ bagOf pairs.toFinset other = 0 := by
  rw [bagOf_eq_zero, Multiset.eq_zero_iff_forall_notMem]
  simp only [mem_bagIn, Multiset.mem_toFinset]

theorem bagIn_zero : bagIn 0 = fun _ => 0 := rfl

theorem bagIn_cons :
    bagIn ((size, addr) ::ₘ pairs) =
      Function.update (bagIn pairs) size (addr ::ₘ bagIn pairs size) := by
  funext other
  unfold bagIn
  by_cases same : other = size
  · subst same
    rw [Function.update_self,
      Multiset.filter_cons_of_pos (p := fun pair : Nat × Int => pair.1 = other) _ rfl,
      Multiset.map_cons]
  · rw [Function.update_of_ne same, Multiset.filter_cons_of_neg _ fun equal => same equal.symm]

theorem bagIn_erase (present : (size, addr) ∈ pairs) :
    bagIn (pairs.erase (size, addr)) =
      Function.update (bagIn pairs) size ((bagIn pairs size).erase addr) := by
  obtain ⟨rest, rfl⟩ := Multiset.exists_cons_of_mem present
  rw [Multiset.erase_cons_head, bagIn_cons, Function.update_self, Multiset.erase_cons_head,
    Function.update_idem, Function.update_eq_self]

end Bags

/-! ## One call -/

/-- The chains hold exactly the pairs of the multiset. -/
def Stored (blocks : Nat) (map : PageMap FsmPage) (pairs : Multiset (Nat × Int)) : Prop :=
  Represents blocks map (bagIn pairs) ∧ ∀ pair ∈ pairs, FsmOp.InRange blocks pair.1

theorem wp_program_stored (stored : Stored blocks map pairs) (permitted : op.Permitted blocks pairs) :
    op.program.wp (pinnedLogic FsmPage False) (fun answer final =>
      Stored blocks final.map (op.remaining pairs answer)) ⟨map, 0⟩ := by
  obtain ⟨represented, ranges⟩ := stored
  cases op with
  | insert size addr =>
      simp only [FsmOp.program, wp_bind, wp_pure]
      refine wp_mono ?_ (wp_hashTableInsert represented permitted.1)
      rintro - final ⟨-, finalRepresents⟩
      constructor
      · rw [FsmOp.remaining, bagIn_cons]
        exact finalRepresents
      · intro pair member
        rcases Multiset.mem_cons.mp member with rfl | old
        · exact permitted
        · exact ranges pair old
  | pop size addr =>
      obtain ⟨range, present⟩ := permitted
      simp only [FsmOp.program, wp_bind, wp_pure]
      refine wp_mono ?_ (wp_hashTablePop represented range.1 (mem_bagIn.mpr present))
      rintro - final ⟨-, finalRepresents⟩
      constructor
      · rw [FsmOp.remaining, bagIn_erase present]
        exact finalRepresents
      · exact fun pair member => ranges pair (Multiset.mem_of_mem_erase member)
  | popLowerBound size =>
      have outside : ∀ other, bagIn pairs other ≠ 0 → FsmOp.InRange blocks other := by
        intro other nonempty
        obtain ⟨addr, member⟩ := Multiset.exists_mem_of_ne_zero nonempty
        exact ranges _ (mem_bagIn.mp member)
      simp only [FsmOp.program, wp_bind, wp_pure]
      refine wp_mono ?_ (wp_hashTablePopLowerBound represented permitted.1
        (fun other nonempty => (outside other nonempty).2) False.elim)
      rintro addr final ⟨-, ⟨found, above, -, skipped, stored, finalRepresents⟩ |
        ⟨none, rfl, finalRepresents⟩⟩
      · have present := mem_bagIn.mp stored
        have least : FsmOp.leastSize pairs.toFinset size = found :=
          leastSize_eq_coe above (fun other low below => bagIn_eq_zero.mp (skipped other low below))
            (Multiset.mem_toFinset.mpr present)
        have afterEq : FsmOp.remaining pairs (.popLowerBound size) (some addr) =
            pairs.erase (found, addr) := by
          simp only [FsmOp.remaining, least]
          rfl
        rw [afterEq]
        constructor
        · rw [bagIn_erase present]
          exact finalRepresents
        · exact fun pair member => ranges pair (Multiset.mem_of_mem_erase member)
      · have least : FsmOp.leastSize pairs.toFinset size = ⊤ := by
          refine leastSize_eq_top fun other low => bagIn_eq_zero.mp ?_
          by_contra nonempty
          exact nonempty (none other low (outside other nonempty).1)
        simp only [FsmOp.remaining, least]
        exact ⟨finalRepresents, ranges⟩

theorem run_program_stored (stored : Stored blocks map pairs)
    (permitted : op.Permitted blocks pairs) :
    ∃ answer map', op.program.run (mapMeaning FsmPage) map = some (answer, map') ∧
      Stored blocks map' (op.remaining pairs answer) := by
  obtain ⟨⟨answer, map', ran, state, rfl, final⟩, -⟩ :=
    run_of_wp (wp_simulates (pinned_simulates FsmPage False) rfl (wp_program_stored stored permitted))
  exact ⟨answer, _, ran, final⟩

theorem Stores.stored (reached : Stores blocks map pairs) : Stored blocks map pairs := by
  induction reached with
  | init ran =>
      obtain ⟨map, same, -, holds⟩ := run_hashTableInit blocks
      rw [ran] at same
      cases same
      refine ⟨?_, fun pair member => absurd member (Multiset.notMem_zero pair)⟩
      rw [bagIn_zero, ← bagOf_empty]
      exact holds.1
  | step before permitted ran ih =>
      obtain ⟨answer, map', same, stored⟩ := run_program_stored ih permitted
      rw [ran] at same
      cases same
      exact stored

/--
Page conservation: in every state reached, the control block keeps the number of
directory blocks and the pages up to `max_size` lie once each on a chain or on the
free list; every further call ends in such a state.
-/
theorem fsm_conserves_pages (blocks : Nat) :
    (∃ map, (hashTableInit blocks).run (mapMeaning FsmPage) PageMap.empty = some ((), map)) ∧
      ∀ map pairs, Stores blocks map pairs → (∃ chain free, Conserved blocks map chain free) ∧
        ∀ op : FsmOp, op.Permitted blocks pairs →
          ∃ answer map', op.program.run (mapMeaning FsmPage) map = some (answer, map') ∧
            Stores blocks map' (op.remaining pairs answer) := by
  obtain ⟨initial, initialised, -, -⟩ := run_hashTableInit blocks
  refine ⟨⟨initial, initialised⟩, fun map pairs reached => ⟨?_, fun op permitted => ?_⟩⟩
  · obtain ⟨⟨chain, free, shape, -⟩, -⟩ := reached.stored
    exact ⟨chain, free, shape.conserved⟩
  · obtain ⟨answer, map', ran, -⟩ := run_program_stored reached.stored permitted
    exact ⟨answer, map', ran, .step reached permitted ran⟩

/-- A pair stored twice and popped once. -/
theorem fsm_conserves_repeated_pair : ∃ map chain free, Stores 1 map {(3, 0)} ∧
    Conserved 1 map chain free := by
  obtain ⟨⟨initial, initialised⟩, calls⟩ := fsm_conserves_pages 1
  have range : FsmOp.InRange 1 3 := ⟨by decide, by decide⟩
  obtain ⟨-, stepInitial⟩ := calls initial 0 (.init initialised)
  obtain ⟨_, once, -, reachedOnce⟩ := stepInitial (.insert 3 0) range
  obtain ⟨-, stepOnce⟩ := calls once _ reachedOnce
  obtain ⟨_, twice, -, reachedTwice⟩ := stepOnce (.insert 3 0) range
  obtain ⟨-, stepTwice⟩ := calls twice _ reachedTwice
  have present : ((3, 0) : Nat × Int) ∈ (3, 0) ::ₘ (3, 0) ::ₘ 0 := Multiset.mem_cons_self _ _
  obtain ⟨_, map, -, reached⟩ := stepTwice (.pop 3 0) ⟨range, present⟩
  have single : FsmOp.remaining (FsmOp.remaining (FsmOp.remaining 0 (.insert 3 0) none)
      (.insert 3 0) none) (.pop 3 0) none = {(3, 0)} := by decide
  have reached' : Stores 1 map {(3, 0)} := single ▸ reached
  obtain ⟨⟨chain, free, conserved⟩, -⟩ := calls map _ reached'
  exact ⟨map, chain, free, reached', conserved⟩

end MyJQL.Storage.HashMap
