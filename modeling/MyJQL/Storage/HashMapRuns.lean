import MyJQL.Storage.HashMapSpec

/-!
# Runs of the free-space map

The abstract free-space map is a finite set of pairs of a size and an address.
`Reaches` follows whole runs of the three operations on the page map, from
`hash_table_init` on an empty file, together with the set the history denotes.
-/

namespace MyJQL.Storage.HashMap

open Library Library.Prog

/-- The operations on the free-space map, after initialisation. -/
inductive FsmOp where
  | insert (size : Nat) (addr : Int)
  | pop (size : Nat) (addr : Int)
  | popLowerBound (size : Nat)
  deriving DecidableEq, Repr

namespace FsmOp

/-- The call; only the lower bound returns a value. -/
def program : FsmOp → FsmProg (Option Int)
  | .insert size addr => do
      hashTableInsert size addr
      return none
  | .pop size addr => do
      hashTablePop size addr
      return none
  | .popLowerBound size => do
      let addr ← hashTablePopLowerBound size
      return some addr

/-- A `short` below the directory size. -/
def InRange (blocks size : Nat) : Prop := size < dirBlockSize * blocks ∧ size < 2 ^ 15

/-- What a caller owes: addresses are inserted once, and popped pairs are present. -/
def Allowed (blocks : Nat) (pairs : Finset (Nat × Int)) : FsmOp → Prop
  | .insert size addr => InRange blocks size ∧ ∀ other, (other, addr) ∉ pairs
  | .pop size addr => InRange blocks size ∧ (size, addr) ∈ pairs
  | .popLowerBound size => InRange blocks size

/-- The smallest size present that is at least `size`. -/
def leastSize (pairs : Finset (Nat × Int)) (size : Nat) : WithTop Nat :=
  ((pairs.filter fun pair => size ≤ pair.1).image Prod.fst).min

/-- The set after the call, from the set before and the answer. -/
def after (pairs : Finset (Nat × Int)) : FsmOp → Option Int → Finset (Nat × Int)
  | .insert size addr, _ => Insert.insert (size, addr) pairs
  | .pop size addr, _ => pairs.erase (size, addr)
  | .popLowerBound size, answer =>
      match leastSize pairs size with
      | ⊤ => pairs
      | (found : Nat) => pairs.erase (found, answer.getD 0)

/-- The answer a call owes: the lower bound returns an address of the least size that fits. -/
def Answers (pairs : Finset (Nat × Int)) : FsmOp → Option Int → Prop
  | .insert _ _, answer => answer = none
  | .pop _ _, answer => answer = none
  | .popLowerBound size, answer =>
      match leastSize pairs size with
      | ⊤ => answer = some (-1)
      | (found : Nat) => ∃ addr, answer = some addr ∧ (found, addr) ∈ pairs

end FsmOp

/-- The addresses paired with a size. -/
def bagOf (pairs : Finset (Nat × Int)) (size : Nat) : Multiset Int :=
  (pairs.filter fun pair => pair.1 = size).val.map Prod.snd

/-- The bucket chains on the pages hold exactly these pairs. -/
def Holds (blocks : Nat) (map : PageMap FsmPage) (pairs : Finset (Nat × Int)) : Prop :=
  Represents blocks map (bagOf pairs) ∧ ∀ pair ∈ pairs, FsmOp.InRange blocks pair.1

/-- Runs on the page map, with the set of pairs their history denotes. -/
inductive Reaches (blocks : Nat) : PageMap FsmPage → Finset (Nat × Int) → Prop where
  | init {map : PageMap FsmPage}
      (ran : (hashTableInit blocks).run (mapMeaning FsmPage) PageMap.empty = some ((), map)) :
      Reaches blocks map ∅
  | step {map map' : PageMap FsmPage} {pairs : Finset (Nat × Int)} {op : FsmOp}
      {answer : Option Int} (before : Reaches blocks map pairs) (allowed : op.Allowed blocks pairs)
      (ran : op.program.run (mapMeaning FsmPage) map = some (answer, map')) :
      Reaches blocks map' (op.after pairs answer)

/-! ## Bags of a set of pairs -/

section Bags

variable {pairs : Finset (Nat × Int)} {size : Nat} {addr : Int}

theorem mem_bagOf : addr ∈ bagOf pairs size ↔ (size, addr) ∈ pairs := by
  unfold bagOf
  rw [Multiset.mem_map]
  constructor
  · rintro ⟨⟨other, value⟩, member, rfl⟩
    obtain ⟨inside, rfl⟩ := Finset.mem_filter.mp member
    exact inside
  · intro member
    exact ⟨(size, addr), Finset.mem_filter.mpr ⟨member, rfl⟩, rfl⟩

theorem bagOf_eq_zero : bagOf pairs size = 0 ↔ ∀ addr, (size, addr) ∉ pairs := by
  rw [Multiset.eq_zero_iff_forall_notMem]
  simp only [mem_bagOf]

theorem bagOf_empty : bagOf ∅ = fun _ => 0 := rfl

theorem bagOf_insert (absent : (size, addr) ∉ pairs) :
    bagOf (insert (size, addr) pairs) =
      Function.update (bagOf pairs) size (addr ::ₘ bagOf pairs size) := by
  funext other
  unfold bagOf
  by_cases same : other = size
  · subst same
    rw [Function.update_self, Finset.filter_insert, if_pos rfl, Finset.insert_val_of_notMem,
      Multiset.map_cons]
    exact fun member => absent (Finset.mem_of_mem_filter _ member)
  · rw [Function.update_of_ne same, Finset.filter_insert, if_neg fun equal => same equal.symm]

theorem bagOf_erase (present : (size, addr) ∈ pairs) :
    bagOf (pairs.erase (size, addr)) =
      Function.update (bagOf pairs) size ((bagOf pairs size).erase addr) := by
  have restored := bagOf_insert (Finset.notMem_erase (size, addr) pairs)
  rw [Finset.insert_erase present] at restored
  funext other
  by_cases same : other = size
  · subst same
    rw [Function.update_self, restored, Function.update_self, Multiset.erase_cons_head]
  · rw [Function.update_of_ne same, restored, Function.update_of_ne same]

theorem leastSize_eq_top (none : ∀ other, size ≤ other → bagOf pairs other = 0) :
    FsmOp.leastSize pairs size = ⊤ := by
  unfold FsmOp.leastSize
  rw [Finset.min_eq_top, Finset.image_eq_empty, Finset.filter_eq_empty_iff]
  intro pair member above
  exact bagOf_eq_zero.mp (none pair.1 above) pair.2 member

theorem leastSize_eq_coe {found : Nat} (above : size ≤ found)
    (skipped : ∀ other, size ≤ other → other < found → bagOf pairs other = 0)
    (present : (found, addr) ∈ pairs) : FsmOp.leastSize pairs size = found := by
  unfold FsmOp.leastSize
  refine le_antisymm (Finset.min_le (Finset.mem_image.mpr ⟨(found, addr),
    Finset.mem_filter.mpr ⟨present, above⟩, rfl⟩)) ?_
  refine Finset.le_min fun other member => ?_
  obtain ⟨pair, inside, rfl⟩ := Finset.mem_image.mp member
  obtain ⟨pairMember, low⟩ := Finset.mem_filter.mp inside
  refine WithTop.coe_le_coe.mpr ?_
  by_contra small
  exact bagOf_eq_zero.mp (skipped pair.1 low (not_le.mp small)) pair.2 pairMember

/-- No size that fits. -/
theorem lt_of_leastSize_eq_top (top : FsmOp.leastSize pairs size = ⊤) {pair : Nat × Int}
    (member : pair ∈ pairs) : pair.1 < size := by
  unfold FsmOp.leastSize at top
  rw [Finset.min_eq_top, Finset.image_eq_empty, Finset.filter_eq_empty_iff] at top
  exact not_le.mp (top member)

/-- The least size fits and is below the others that fit. -/
theorem of_leastSize_eq_coe {found : Nat} (least : FsmOp.leastSize pairs size = found) :
    size ≤ found ∧ ∀ pair ∈ pairs, size ≤ pair.1 → found ≤ pair.1 := by
  unfold FsmOp.leastSize at least
  constructor
  · obtain ⟨pair, member, rfl⟩ := Finset.mem_image.mp (Finset.mem_of_min least)
    exact (Finset.mem_filter.mp member).2
  · intro pair member fits
    have inside : pair.1 ∈ (pairs.filter fun pair => size ≤ pair.1).image Prod.fst :=
      Finset.mem_image.mpr ⟨pair, Finset.mem_filter.mpr ⟨member, fits⟩, rfl⟩
    have below := Finset.min_le inside
    rw [least] at below
    exact WithTop.coe_le_coe.mp below

end Bags

/-! ## One call -/

variable {blocks : Nat} {map : PageMap FsmPage} {pairs : Finset (Nat × Int)} {op : FsmOp}
  {strict : Prop}

/--
The branch of `hash_table_pop_lower_bound` that releases a page twice: nothing
fits, and the page one position past the directory reads `-1`.
-/
def DoubleRelease (blocks : Nat) (map : PageMap FsmPage) (pairs : Finset (Nat × Int)) :
    FsmOp → Prop
  | .popLowerBound size => FsmOp.leastSize pairs size = ⊤ ∧
      entry (overrunMap blocks map) (dirBlockSize * blocks) = -1
  | _ => False

/-- The sizes present are a `short` each. -/
theorem Holds.shorts (holds : Holds blocks map pairs) {size : Nat} (present : bagOf pairs size ≠ 0) : size < 2 ^ 15 := by
  obtain ⟨addr, member⟩ := Multiset.exists_mem_of_ne_zero present
  exact (holds.2 _ (mem_bagOf.mp member)).2

theorem wp_program (holds : Holds blocks map pairs) (allowed : op.Allowed blocks pairs)
    (clean : strict → ¬ DoubleRelease blocks map pairs op) :
    op.program.wp (pinnedLogic FsmPage strict) (fun answer final =>
      final.pins = 0 ∧ Holds blocks final.map (op.after pairs answer) ∧ op.Answers pairs answer)
      ⟨map, 0⟩ := by
  obtain ⟨represented, ranges⟩ := id holds
  cases op with
  | insert size addr =>
      obtain ⟨range, absent⟩ := allowed
      simp only [FsmOp.program, wp_bind, wp_pure]
      refine wp_mono ?_ (wp_hashTableInsert represented range.1)
      rintro - final ⟨noPins, final_represents⟩
      refine ⟨noPins, ⟨?_, ?_⟩, rfl⟩
      · rw [FsmOp.after, bagOf_insert (absent size)]
        exact final_represents
      · intro pair member
        rcases Finset.mem_insert.mp member with rfl | old
        · exact range
        · exact ranges pair old
  | pop size addr =>
      obtain ⟨range, present⟩ := allowed
      simp only [FsmOp.program, wp_bind, wp_pure]
      refine wp_mono ?_ (wp_hashTablePop represented range.1 (mem_bagOf.mpr present))
      rintro - final ⟨noPins, final_represents⟩
      refine ⟨noPins, ⟨?_, ?_⟩, rfl⟩
      · rw [FsmOp.after, bagOf_erase present]
        exact final_represents
      · intro pair member
        exact ranges pair (Finset.mem_of_mem_erase member)
  | popLowerBound size =>
      have outside : ∀ other, dirBlockSize * blocks ≤ other → bagOf pairs other = 0 := by
        intro other above
        refine bagOf_eq_zero.mpr fun addr member => ?_
        exact absurd (ranges _ member).1 (not_lt.mpr above)
      have fits : strict → (∃ other, size ≤ other ∧ other < dirBlockSize * blocks ∧
          bagOf pairs other ≠ 0) ∨ entry (overrunMap blocks map) (dirBlockSize * blocks) ≠ -1 := by
        intro asked
        by_contra bad
        push Not at bad
        refine clean asked ⟨leastSize_eq_top fun other low => ?_, bad.2⟩
        rcases Nat.lt_or_ge other (dirBlockSize * blocks) with inside | above
        · exact bad.1 other low inside
        · exact outside other above
      simp only [FsmOp.program, wp_bind, wp_pure]
      refine wp_mono ?_ (wp_hashTablePopLowerBound represented allowed.1 (fun _ => holds.shorts) fits)
      rintro addr final ⟨noPins, ⟨found, above, -, skipped, stored, final_represents⟩ |
        ⟨none, rfl, final_represents⟩⟩
      · have present := mem_bagOf.mp stored
        have least := leastSize_eq_coe above skipped present
        have afterEq : FsmOp.after pairs (.popLowerBound size) (some addr) =
            pairs.erase (found, addr) := by
          simp only [FsmOp.after, least]
          rfl
        refine ⟨noPins, ⟨?_, ?_⟩, ?_⟩
        · rw [afterEq, bagOf_erase present]
          exact final_represents
        · intro pair member
          rw [afterEq] at member
          exact ranges pair (Finset.mem_of_mem_erase member)
        · simp only [FsmOp.Answers, least]
          exact ⟨addr, rfl, present⟩
      · have least : FsmOp.leastSize pairs size = ⊤ := by
          refine leastSize_eq_top fun other low => ?_
          rcases Nat.lt_or_ge other (dirBlockSize * blocks) with inside | above
          · exact none other low inside
          · exact outside other above
        refine ⟨noPins, ⟨?_, ?_⟩, ?_⟩
        · simp only [FsmOp.after, least]
          exact final_represents
        · simp only [FsmOp.after, least]
          exact ranges
        · simp only [FsmOp.Answers, least]

/-- One call in the logic of the page map. -/
theorem wp_program_map (holds : Holds blocks map pairs) (allowed : op.Allowed blocks pairs) :
    op.program.wp (mapLogic FsmPage) (fun answer after =>
      Holds blocks after (op.after pairs answer) ∧ op.Answers pairs answer) map := by
  have pinned := wp_program holds allowed False.elim
  refine wp_mono ?_ (wp_simulates (pinned_simulates FsmPage False) rfl pinned)
  rintro answer after ⟨state, rfl, -, final, answers⟩
  exact ⟨final, answers⟩

/-- One call on the page map. -/
theorem run_program (holds : Holds blocks map pairs) (allowed : op.Allowed blocks pairs) :
    ∃ answer map', op.program.run (mapMeaning FsmPage) map = some (answer, map') ∧
      Holds blocks map' (op.after pairs answer) ∧ op.Answers pairs answer := by
  obtain ⟨⟨answer, map', ran, final, answers⟩, -⟩ := run_of_wp (wp_program_map holds allowed)
  exact ⟨answer, map', ran, final, answers⟩

theorem wp_hashTableInit_map (blocks : Nat) :
    (hashTableInit blocks).wp (mapLogic FsmPage) (fun _ map =>
      Initial blocks map ∧ Holds blocks map ∅) PageMap.empty := by
  refine wp_mono ?_ (wp_simulates (pinned_simulates FsmPage False) rfl (wp_hashTableInit blocks))
  rintro value after ⟨state, rfl, -, initial, represented⟩
  refine ⟨initial, ?_, ?_⟩
  · rw [bagOf_empty]
    exact represented
  · intro pair member
    exact absurd member (Finset.notMem_empty pair)

theorem run_hashTableInit (blocks : Nat) :
    ∃ map, (hashTableInit blocks).run (mapMeaning FsmPage) PageMap.empty = some ((), map) ∧
      Initial blocks map ∧ Holds blocks map ∅ := by
  obtain ⟨⟨value, map, ran, initial, holds⟩, -⟩ := run_of_wp (wp_hashTableInit_map blocks)
  exact ⟨map, ran, initial, holds⟩

theorem Reaches.holds (reached : Reaches blocks map pairs) : Holds blocks map pairs := by
  induction reached with
  | init ran =>
      obtain ⟨map, same, -, holds⟩ := run_hashTableInit blocks
      rw [ran] at same
      cases same
      exact holds
  | step before allowed ran ih =>
      obtain ⟨answer, map', same, holds, -⟩ := run_program ih allowed
      rw [ran] at same
      cases same
      exact holds

/--
The free-space map is a set of pairs with lower-bound extraction: along every
run the chains hold exactly the pairs of the history, and every further call
ends and answers as the set does.
-/
theorem fsm_implements_pairs (blocks : Nat) :
    (∃ map, (hashTableInit blocks).run (mapMeaning FsmPage) PageMap.empty = some ((), map)) ∧
      ∀ map pairs, Reaches blocks map pairs → Holds blocks map pairs ∧
        ∀ op : FsmOp, op.Allowed blocks pairs →
          ∃ answer map', op.program.run (mapMeaning FsmPage) map = some (answer, map') ∧
            op.Answers pairs answer ∧ Reaches blocks map' (op.after pairs answer) := by
  obtain ⟨initial, initialised, -, -⟩ := run_hashTableInit blocks
  refine ⟨⟨initial, initialised⟩, fun map pairs reached => ⟨reached.holds, fun op allowed => ?_⟩⟩
  obtain ⟨answer, map', ran, -, answers⟩ := run_program reached.holds allowed
  exact ⟨answer, map', ran, answers, .step reached allowed ran⟩

/-- With one directory page: a pair of size 3 is found by a request for size 2. -/
theorem fsm_finds_larger_size : ∃ map map', Reaches 1 map {(3, 0)} ∧
    (FsmOp.popLowerBound 2).program.run (mapMeaning FsmPage) map = some (some 0, map') ∧
      Reaches 1 map' ∅ := by
  obtain ⟨⟨initial, initialised⟩, calls⟩ := fsm_implements_pairs 1
  obtain ⟨-, stepInitial⟩ := calls initial ∅ (.init initialised)
  obtain ⟨answer, map, -, -, reached⟩ := stepInitial (.insert 3 0) ⟨⟨by decide, by decide⟩, by simp⟩
  obtain ⟨-, stepMap⟩ := calls map {(3, 0)} reached
  obtain ⟨answer', map', ran, answers, final⟩ := stepMap (.popLowerBound 2) ⟨by decide, by decide⟩
  have least : FsmOp.leastSize {(3, 0)} 2 = (3 : Nat) := by decide
  simp only [FsmOp.Answers, least] at answers
  obtain ⟨addr, rfl, member⟩ := answers
  obtain rfl : addr = 0 := by simpa using member
  refine ⟨map, map', reached, ran, ?_⟩
  have emptied : FsmOp.after {(3, 0)} (.popLowerBound 2) (some 0) = ∅ := by
    simp only [FsmOp.after, least, Option.getD_some]
    exact Finset.erase_singleton _
  rw [emptied] at final
  exact final

end MyJQL.Storage.HashMap
