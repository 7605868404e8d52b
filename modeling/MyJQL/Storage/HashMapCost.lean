import MyJQL.Storage.HashMapRuns
import MyJQL.Storage.PoolPrograms

/-!
# How many pages the free-space map asks for

An insertion asks for three pages at most, and a removal for one page in every round of its walk.
The lower bound scans the directory before it removes a pair. All this is bounded by the length
of the file and the number of positions in the directory.
-/

namespace MyJQL.Storage.HashMap

open Library Library.Prog

/-! ## Along every path -/

section Paths

variable {size blocks rounds counter : Nat} {addr other cntAddr preAddr : Int} {page : FsmPage} {change : FsmPage → FsmPage}

/-- Calls of `get_page`. -/
abbrev asks : ∀ β : Type, PageOp FsmPage β → Nat := fun _ effect => effect.requests

theorem within_getPage : (getPage addr).Within asks 1 := within_perform le_rfl

theorem within_release : (release addr).Within asks 0 := within_perform le_rfl

theorem within_load : (load addr).Within asks 0 := within_perform le_rfl

theorem within_store : (store addr page).Within asks 0 := within_perform le_rfl

theorem within_modify : (modify addr change).Within asks 0 := within_load.after fun _ => within_store

theorem within_hashTableInsert : (hashTableInsert size addr).Within asks 4 := by
  unfold hashTableInsert
  refine within_getPage.paid fun _ => within_load.after fun dirBlock => ?_
  extract_lets cntAddr
  split
  · refine within_getPage.paid fun _ => within_load.after fun ctrl => ?_
    split
    · exact within_getPage.paid fun _ => within_modify.after fun _ => within_load.after fun _ =>
        within_modify.after fun _ => within_modify.after fun _ => within_release.after fun _ =>
          within_release.after fun _ => within_release.mono (Nat.zero_le _)
    · exact within_modify.after fun _ => within_getPage.paid fun _ => within_modify.after fun _ =>
        within_modify.after fun _ => within_release.after fun _ => within_release.after fun _ =>
          within_release.mono (Nat.zero_le _)
  · refine within_getPage.paid fun _ => within_load.after fun cntBlock => ?_
    split
    · exact within_ofOption.after fun _ => within_store.after fun _ => within_release.after fun _ =>
        within_release.mono (Nat.zero_le _)
    · exact within_getPage.paid fun _ => within_load.after fun _ => within_getPage.paid fun _ =>
        within_modify.after fun _ => within_modify.after fun _ => within_modify.after fun _ =>
          within_release.after fun _ => within_release.after fun _ => within_release.after fun _ => within_release

theorem within_insert : (FsmOp.insert size addr).program.Within asks 4 := within_hashTableInsert.before fun _ => trivial

/-- A walk asks for a page in every round, and for two more where it ends. -/
theorem within_hashTablePopLoop : (hashTablePopLoop size addr rounds cntAddr preAddr).Within asks (rounds + 2) := by
  induction rounds generalizing cntAddr preAddr with
  | zero => trivial
  | succ rounds ih =>
      rw [hashTablePopLoop, Nat.add_right_comm]
      refine within_getPage.paid fun _ => within_load.after fun cntBlock => within_ofOption.after fun target => ?_
      cases target with
      | none => exact within_release.after fun _ => ih
      | some target =>
          refine Within.mono ?_ (Nat.le_add_left 2 rounds)
          dsimp only
          split
          · exact within_ofOption.after fun _ => within_store.after fun _ => within_release.mono (Nat.zero_le _)
          split
          · exact within_getPage.paid fun _ => within_modify.after fun _ => within_getPage.paid fun _ =>
              within_load.after fun _ => within_modify.after fun _ => within_modify.after fun _ =>
                within_release.after fun _ => within_release.after fun _ => within_release
          · exact within_getPage.paid fun _ => within_modify.after fun _ => within_getPage.paid fun _ =>
              within_load.after fun _ => within_modify.after fun _ => within_modify.after fun _ =>
                within_release.after fun _ => within_release.after fun _ => within_release

theorem within_scanDirectory : (scanDirectory blocks rounds addr counter).Within asks rounds := by
  induction rounds generalizing addr counter with
  | zero => trivial
  | succ rounds ih =>
      rw [scanDirectory]
      refine within_load.after fun dirBlock => ?_
      split
      · trivial
      split
      · exact within_release.after fun _ => trivial
      · exact within_release.after fun _ => within_getPage.paid fun _ => ih

end Paths

/-! ## On the pages of a map -/

section Pages

variable {blocks size : Nat} {addr : Int} {map : PageMap FsmPage} {bag : Nat → Multiset Int} {pairs : Finset (Nat × Int)}
  {op : FsmOp}

theorem requests_getPage {α : Type} {next : Unit → FsmProg α} (inside : map.InFile addr) :
    requests (getPage addr >>= next) map = 1 + requests (next ()) map := by
  have ran : (getPage addr).run (mapMeaning FsmPage) map = some ((), map) := by
    rw [getPage, run_perform, mapMeaning, PageMap.getPage_of_inFile inside]
    rfl
  have one : requests (getPage addr) map = 1 := by
    rw [requests_eq_cost, getPage, perform, Prog.cost, mapMeaning, PageMap.getPage_of_inFile inside]
    rfl
  rw [requests_bind ran, one]

theorem requests_load {α : Type} {next : FsmPage → FsmProg α} :
    requests (load addr >>= next) map = requests (next (map.page addr)) map := Nat.zero_add _

theorem requests_release {α : Type} {next : Unit → FsmProg α} :
    requests (release addr >>= next) map = requests (next ()) map := Nat.zero_add _

theorem requests_fileLength {α : Type} {next : Int → FsmProg α} :
    requests (fileLength >>= next) map = requests (next map.length) map := Nat.zero_add _

theorem requests_hashTablePop (represented : Represents blocks map bag) (small : size < dirBlockSize * blocks) :
    requests (hashTablePop size addr) map ≤ map.length.toNat + 3 := by
  obtain ⟨chain, free, shape, -⟩ := represented
  rw [hashTablePop, requests_getPage (shape.dir_inFile small), requests_load, requests_release, requests_fileLength]
  exact (Nat.add_le_add_left (requests_le within_hashTablePopLoop map) 1).trans (by omega)

theorem requests_hashTablePopLowerBound (represented : Represents blocks map bag) (small : size < dirBlockSize * blocks)
    (shorts : ∀ other, bag other ≠ 0 → other < 2 ^ 15) :
    requests (hashTablePopLowerBound size) map ≤ map.length.toNat + dirBlockSize * blocks + 7 := by
  obtain ⟨chain, free, shape, bags⟩ := id represented
  rw [hashTablePopLowerBound, requests_getPage shape.ctrl_inFile, requests_load, requests_release,
    requests_getPage (shape.dir_inFile small), shape.directories, Int.toNat_natCast]
  have rounds : dirBlockSize * blocks + 1 ≤ blocks * dirBlockSize + 1 + size := by
    rw [Nat.mul_comm]
    omega
  obtain ⟨⟨stop, after, ran, pinned, rfl, ended⟩, -⟩ := run_of_wp (wp_simulates (pinned_simulates FsmPage False) rfl
    (wp_scanDirectory shape _ size small rounds))
  have scan : requests (scanDirectory blocks (blocks * dirBlockSize + 1) (dirAddrOf size) (size % dirBlockSize)) map ≤
      dirBlockSize * blocks + 1 := Nat.mul_comm blocks dirBlockSize ▸ requests_le within_scanDirectory map
  rcases ended with ⟨found, above, below, used, skipped, rfl, rfl⟩ | ⟨skipped, rfl, mapped, -⟩
  · rw [requests_bind ran]
    dsimp only
    obtain ⟨member, stored⟩ := shape.front bags below used
    have short : found < 2 ^ 15 := by
      refine shorts found fun none => ?_
      rw [none] at stored
      exact absurd stored (Multiset.notMem_zero _)
    have read : (map.page (dirAddrOf found)).directory (found % dirBlockSize) = entry map found := rfl
    rw [scanPosition_dirAddrOf, if_pos (by rw [Nat.mul_comm]; omega), requests_load, read,
      requests_getPage (shape.inFile member), requests_load, requests_release, requests_release, throughShort_eq short]
    have pop := (requests_bind_pure (hashTablePop found ((map.page (entry map found)).table 0))
      (fun _ => (map.page (entry map found)).table 0) map).trans_le (requests_hashTablePop represented below)
    have rest := Nat.add_le_add scan (Nat.add_le_add_left pop 1)
    exact (Nat.add_le_add_left (Nat.add_le_add_left rest 1) 1).trans (by omega)
  · rw [requests_bind ran]
    dsimp only
    rw [if_neg (not_not.mpr (scanPosition_overrun blocks)), requests_release]
    exact (Nat.add_le_add_left (Nat.add_le_add_left (Nat.add_le_add_right scan 0) 1) 1).trans (by omega)

/-- The pages an operation asks for, bounded by what the map is before it. -/
theorem requests_program_le (holds : Holds blocks map pairs) (allowed : op.Allowed blocks pairs) :
    requests op.program map ≤ map.length.toNat + dirBlockSize * blocks + 7 := by
  cases op with
  | insert size addr =>
      exact (requests_le within_insert map).trans (by omega)
  | pop size addr =>
      have same : requests (FsmOp.pop size addr).program map = requests (hashTablePop size addr) map :=
        requests_bind_pure _ _ map
      exact (same.trans_le (requests_hashTablePop holds.1 allowed.1.1)).trans (by omega)
  | popLowerBound size =>
      exact (requests_bind_pure (hashTablePopLowerBound size) some map).trans_le
        (requests_hashTablePopLowerBound holds.1 allowed.1 fun _ => holds.shorts)

end Pages

end MyJQL.Storage.HashMap
