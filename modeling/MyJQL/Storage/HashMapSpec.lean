import MyJQL.Storage.HashMapItems

/-!
# Specifications of the free-space map

`Represents` reads the pages as a multiset of addresses for every size. Each
operation is specified in the pinned logic from a state without pins: it ends,
leaves no pin, and changes one of the multisets by one address.
-/

namespace MyJQL.Storage.HashMap

open Library Library.Prog

/-- The pages hold, for every size, the addresses `bag size`. -/
def Represents (blocks : Nat) (map : PageMap FsmPage) (bag : Nat → Multiset Int) : Prop :=
  ∃ chain free, Shape blocks map chain free ∧
    ∀ size < dirBlockSize * blocks, (contents map chain size : Multiset Int) = bag size

section Rules

variable {strict : Prop} {map : PageMap FsmPage} {pins : Multiset Int} {addr : Int}

theorem wp_modify {change : FsmPage → FsmPage} {post : Unit → Pinned FsmPage → Prop}
    (pinned : strict → addr ∈ pins)
    (holds : post () ⟨map.store addr (change (map.page addr)), pins⟩) :
    (modify addr change).wp (pinnedLogic FsmPage strict) post ⟨map, pins⟩ := by
  unfold modify
  rw [wp_bind]
  exact rule_load pinned (rule_store pinned holds)

end Rules

variable {blocks size : Nat} {addr value : Int} {map : PageMap FsmPage} {bag : Nat → Multiset Int}
  {strict : Prop}

/-- A block in front of a chain adds its entries to the bag of that size. -/
theorem represents_prepend (addr : Int) {map map' : PageMap FsmPage} {chain : Nat → List Int}
    {free free' : List Int} (shape : Shape blocks map chain free)
    (small : size < dirBlockSize * blocks)
    (bags : ∀ size < dirBlockSize * blocks, (contents map chain size : Multiset Int) = bag size)
    (shape' : Shape blocks map' (Function.update chain size (addr :: chain size)) free')
    (single : items (map'.page addr) = [value])
    (kept : ∀ cell, cell ≠ 0 → cell ≠ dirAddrOf size → cell ≠ addr → map'.page cell = map.page cell) :
    Represents blocks map' (Function.update bag size (value ::ₘ bag size)) := by
  refine ⟨_, _, shape', ?_⟩
  have absent : ∀ other < dirBlockSize * blocks, addr ∉ chain other := by
    intro other otherSmall member
    by_cases same : other = size
    · have nodup := chain_nodup shape'.distinct small
      rw [Function.update_self] at nodup
      exact (List.nodup_cons.mp nodup).1 (same ▸ member)
    · refine not_chain_of_chain shape'.distinct small otherSmall same (?_ : addr ∈ _) ?_
      · rw [Function.update_self]
        exact List.mem_cons_self
      · rwa [Function.update_of_ne same]
  have chainKept : ∀ other < dirBlockSize * blocks, ∀ cell ∈ chain other,
      items (map'.page cell) = items (map.page cell) := by
    intro other otherSmall cell member
    have isOwned := mem_owned_of_chain free otherSmall member
    rw [kept cell (shape.ne_ctrl isOwned) (shape.ne_dir isOwned small)
      fun equal => absent other otherSmall (equal ▸ member)]
  intro other otherSmall
  by_cases same : other = size
  · subst same
    rw [Function.update_self, ← bags other small]
    simp only [contents, Function.update_self, List.flatMap_cons, single]
    rw [List.singleton_append, Multiset.cons_coe]
    exact congrArg _ (congrArg _ (List.flatMap_congr (chainKept other small)))
  · rw [Function.update_of_ne same, ← bags other otherSmall]
    simp only [contents, Function.update_of_ne same]
    exact congrArg _ (List.flatMap_congr (chainKept other otherSmall))

/-- New entries in one block of a chain. -/
theorem represents_rewrite {chain : Nat → List Int} {free : List Int} {page : FsmPage}
    {changed : Multiset Int} (shape : Shape blocks map chain free)
    (small : size < dirBlockSize * blocks)
    (bags : ∀ size < dirBlockSize * blocks, (contents map chain size : Multiset Int) = bag size)
    (member : addr ∈ chain size) (sameNext : page.next = (map.page addr).next)
    (count : 1 ≤ page.nItems ∧ page.nItems ≤ blockSize)
    (exchange : ∀ rest : Multiset Int, ↑(items (map.page addr)) + rest = bag size →
      ↑(items page) + rest = changed) :
    Represents blocks (map.store addr page) (Function.update bag size changed) := by
  refine ⟨chain, free, shape.rewrite small member sameNext count, ?_⟩
  intro other otherSmall
  by_cases same : other = size
  · subst same
    obtain ⟨before, after, place⟩ := List.append_of_mem member
    have nodup := chain_nodup shape.distinct small
    rw [place] at nodup
    have absent : addr ∉ before ++ after := by
      exact (List.nodup_cons.mp (List.perm_middle.nodup_iff.mp nodup)).1
    have kept : (before ++ after).flatMap (fun cell => items ((map.store addr page).page cell)) =
        (before ++ after).flatMap (fun cell => items (map.page cell)) := by
      refine List.flatMap_congr fun cell cellMember => ?_
      have different : cell ≠ addr := by
        rintro rfl
        exact absent cellMember
      rw [map.store_page_of_ne page different]
    rw [Function.update_self, contents_split place, kept, PageMap.store_page_self]
    refine exchange _ ?_
    rw [← bags other small, contents_split place]
  · rw [Function.update_of_ne same, ← bags other otherSmall]
    refine congrArg _ (contents_congr fun cell cellMember => ?_)
    have different : cell ≠ addr := by
      rintro rfl
      exact not_chain_of_chain shape.distinct small otherSmall same member cellMember
    rw [map.store_page_of_ne page different]

theorem wp_hashTableInsert (represented : Represents blocks map bag)
    (small : size < dirBlockSize * blocks) :
    (hashTableInsert size addr).wp (pinnedLogic FsmPage strict) (fun _ after =>
      after.pins = 0 ∧ Represents blocks after.map
        (Function.update bag size (addr ::ₘ bag size))) ⟨map, 0⟩ := by
  obtain ⟨chain, free, shape, bags⟩ := represented
  unfold hashTableInsert
  simp only [getPage, load, release, store, wp_bind, wp_perform]
  refine rule_getPage (shape.dir_inFile small) (by simp) ?_
  refine rule_load (by simp) ?_
  have dirNe := Shape.dir_ne_ctrl size
  by_cases unused : (map.page (dirAddrOf size)).directory (size % dirBlockSize) = -1
  · rw [if_pos unused]
    simp only [wp_bind, wp_perform]
    refine rule_getPage shape.ctrl_inFile (by simp) ?_
    refine rule_load (by simp) ?_
    by_cases available : (map.page 0).freeBlockHead ≠ -1
    · rw [if_pos available]
      simp only [wp_bind, wp_perform]
      obtain ⟨free', first, -⟩ := shape.freeLinked.exists_cons available
      have member : (map.page 0).freeBlockHead ∈ owned blocks chain free :=
        mem_owned_of_free (first ▸ List.mem_cons_self)
      have apart := shape.ne_dir member small
      have proper := shape.ne_ctrl member
      generalize (map.page 0).freeBlockHead = freeAddr at *
      refine rule_getPage (shape.inFile member) (by simp [cachePage]) ?_
      refine wp_modify (by simp) ?_
      refine rule_load (by simp) ?_
      refine wp_modify (by simp) ?_
      refine wp_modify (by simp) ?_
      refine rule_release (by simp) (rule_release (by simp) (rule_release ?_ ⟨?_, ?_⟩))
      · simp [Multiset.erase_cons_tail, dirNe.symm]
      · simp [Multiset.erase_cons_tail, dirNe.symm]
      refine represents_prepend freeAddr shape small bags
        (shape.prependFree small first ?_ ?_ ?_ ?_ ?_ rfl) ?_ ?_
      · simp [PageMap.store_page, proper.symm, dirNe.symm, apart]
      · simp [PageMap.store_page, apart.symm, dirNe]
      · simpa [entry, FsmPage.next, set_word_of_ne] using unused.symm
      · simp [FsmPage.nItems, set_word_of_ne]
      · intro other notCtrl notDir notFree
        simp [PageMap.store_page, notCtrl, notDir, notFree]
      · rw [items_single (by simp [FsmPage.nItems, set_word_of_ne])]
        simp [FsmPage.table]
      · intro other notCtrl notDir notFree
        simp [PageMap.store_page, notCtrl, notDir, notFree]
    · rw [if_neg available]
      simp only [wp_bind, wp_perform]
      have maxAligned := shape.maxAligned
      have maxAbove := shape.maxAbove
      have maxNonneg : 0 ≤ (map.page 0).maxSize := by
        simp only [pageSize] at maxAbove
        omega
      have proper := shape.max_ne_ctrl
      have apart := shape.max_ne_dir small
      refine wp_modify (by simp) ?_
      refine rule_getPage_touched maxAligned maxNonneg (by simp [cachePage])
        (fun _ => shape.maxBelow) ?_
      intro touched isTouched
      refine wp_modify (by simp) ?_
      refine wp_modify (by simp) ?_
      refine rule_release (by simp) (rule_release ?_ (rule_release ?_ ⟨?_, ?_⟩))
      · simp [Multiset.erase_cons_tail, apart]
      · simp [Multiset.erase_cons_tail, apart, dirNe.symm]
      · simp [Multiset.erase_cons_tail, apart, dirNe.symm]
      have keptPage : ∀ other, other ≠ (map.page 0).maxSize → touched.page other =
          (map.store (dirAddrOf size) ((map.page (dirAddrOf size)).set (size % dirBlockSize)
            (map.page 0).maxSize)).page other := isTouched.kept
      have inside := isTouched.inside.2.2
      refine represents_prepend (map.page 0).maxSize shape small bags
        (shape.prependFresh small rfl ?_ ?_ ?_ ?_ ?_ ?_ ?_) ?_ ?_
      · simp [PageMap.store_page, proper.symm, keptPage, dirNe.symm]
      · simp [PageMap.store_page, apart.symm, dirNe, keptPage]
      · simpa [PageMap.store_page, proper, entry, FsmPage.next, set_word_of_ne] using unused.symm
      · simp [PageMap.store_page, proper, FsmPage.nItems, set_word_of_ne]
      · intro other notCtrl notDir notFree
        simp [PageMap.store_page, notCtrl, notDir, notFree, keptPage]
      · simp only [PageMap.store_length, pageSize] at inside maxAligned ⊢
        have lengthAligned := isTouched.aligned shape.lengthAligned
        simp only [pageSize] at lengthAligned
        omega
      · exact isTouched.aligned shape.lengthAligned
      · rw [items_single (by simp [PageMap.store_page, proper, FsmPage.nItems, set_word_of_ne])]
        simp [PageMap.store_page, proper, FsmPage.table, set_word_of_ne]
      · intro other notCtrl notDir notFree
        simp [PageMap.store_page, notCtrl, notDir, notFree, keptPage]
  · rw [if_neg unused]
    simp only [wp_bind, wp_perform]
    have link : (map.page (dirAddrOf size)).directory (size % dirBlockSize) = entry map size := rfl
    rw [link] at unused ⊢
    obtain ⟨rest, head, -⟩ := (shape.chainLinked size small).exists_cons unused
    generalize entry map size = cntAddr at *
    have inChain : cntAddr ∈ chain size := head ▸ List.mem_cons_self
    have member := mem_owned_of_chain free small inChain
    have proper := shape.ne_ctrl member
    have apart := shape.ne_dir member small
    have count := shape.chainItems size small cntAddr inChain
    refine rule_getPage (shape.inFile member) (by simp [cachePage]) ?_
    refine rule_load (by simp) ?_
    by_cases room : (map.page cntAddr).nItems ≠ blockSize
    · rw [if_pos room]
      simp only [wp_bind, wp_perform]
      simp only [blockSize] at room count
      rw [setTable, if_pos (by simp only [blockSize]; omega), wp_ofOption_some]
      refine rule_store (by simp) (rule_release ?_ (rule_release ?_ ⟨?_, ?_⟩))
      · simp
      · simp [Multiset.erase_cons_tail, apart]
      · simp [Multiset.erase_cons_tail, apart]
      refine represents_rewrite shape small bags inChain ?_ ?_ ?_
      · simp [FsmPage.next, set_word_of_ne]
      · simp only [FsmPage.nItems, set_word_self, blockSize] at room count ⊢
        rw [set_word_of_ne _ _ (by omega)]
        omega
      · intro remainder split
        have counted : ((map.page cntAddr).set ((map.page cntAddr).nItems.toNat + 2) addr).nItems =
            (map.page cntAddr).nItems := set_word_of_ne _ _ (by omega)
        rw [counted, items_push _ _ (by omega), ← split, ← Multiset.coe_add, add_right_comm,
          Multiset.coe_singleton, add_comm, Multiset.singleton_add]
    · rw [if_neg room]
      simp only [wp_bind, wp_perform]
      have maxAligned := shape.maxAligned
      have maxAbove := shape.maxAbove
      have maxNonneg : 0 ≤ (map.page 0).maxSize := by
        simp only [pageSize] at maxAbove
        omega
      have maxProper := shape.max_ne_ctrl
      have maxApart := shape.max_ne_dir small
      have maxFresh : (map.page 0).maxSize ≠ cntAddr := by
        rintro equal
        exact shape.max_not_mem (equal ▸ member)
      refine rule_getPage shape.ctrl_inFile (by simp [cachePage]) ?_
      refine rule_load (by simp) ?_
      refine rule_getPage_touched maxAligned maxNonneg (by simp [cachePage])
        (fun _ => shape.maxBelow) ?_
      intro touched isTouched
      refine wp_modify (by simp) ?_
      refine wp_modify (by simp) ?_
      refine wp_modify (by simp) ?_
      refine rule_release ?_ (rule_release ?_ (rule_release ?_ (rule_release ?_ ⟨?_, ?_⟩)))
      · simp
      · simp [Multiset.erase_cons_tail, maxFresh]
      · simp [Multiset.erase_cons_tail, maxFresh, proper.symm]
      · simp [Multiset.erase_cons_tail, maxFresh, proper.symm]
      · simp [Multiset.erase_cons_tail, maxFresh, proper.symm]
      have keptPage : ∀ other, other ≠ (map.page 0).maxSize → touched.page other = map.page other :=
        isTouched.kept
      have inside := isTouched.inside.2.2
      refine represents_prepend (map.page 0).maxSize shape small bags
        (shape.prependFresh small rfl ?_ ?_ ?_ ?_ ?_ ?_ ?_) ?_ ?_
      · simp [PageMap.store_page, maxProper.symm, keptPage, dirNe.symm]
      · simp [PageMap.store_page, maxApart.symm, dirNe, keptPage]
      · simpa [PageMap.store_page, maxProper, maxApart, entry, FsmPage.next, set_word_of_ne]
          using link.symm
      · simp [PageMap.store_page, maxProper, maxApart, FsmPage.nItems, set_word_of_ne]
      · intro other notCtrl notDir notFree
        simp [PageMap.store_page, notCtrl, notDir, notFree, keptPage]
      · simp only [PageMap.store_length, pageSize] at inside maxAligned ⊢
        have lengthAligned := isTouched.aligned shape.lengthAligned
        simp only [pageSize] at lengthAligned
        omega
      · exact isTouched.aligned shape.lengthAligned
      · rw [items_single (by simp [PageMap.store_page, maxProper, maxApart, FsmPage.nItems, set_word_of_ne])]
        simp [PageMap.store_page, maxProper, maxApart, FsmPage.table]
      · intro other notCtrl notDir notFree
        simp [PageMap.store_page, notCtrl, notDir, notFree, keptPage]

/-- A block with the single entry `value` leaves its chain. -/
theorem represents_unlink {map map' : PageMap FsmPage} {chain : Nat → List Int} {free : List Int}
    {before after : List Int} (shape : Shape blocks map chain free)
    (small : size < dirBlockSize * blocks)
    (bags : ∀ size < dirBlockSize * blocks, (contents map chain size : Multiset Int) = bag size)
    (place : chain size = before ++ addr :: after) (single : items (map.page addr) = [value])
    (shape' : Shape blocks map' (Function.update chain size (before ++ after)) (addr :: free))
    (kept : ∀ cell ∈ owned blocks chain free, cell ≠ addr →
      items (map'.page cell) = items (map.page cell)) :
    Represents blocks map' (Function.update bag size ((bag size).erase value)) := by
  refine ⟨_, _, shape', ?_⟩
  have member : addr ∈ chain size := by
    rw [place]
    exact List.mem_append_right _ List.mem_cons_self
  have nodup := chain_nodup shape.distinct small
  rw [place] at nodup
  have absent : addr ∉ before ++ after :=
    (List.nodup_cons.mp (List.perm_middle.nodup_iff.mp nodup)).1
  intro other otherSmall
  by_cases same : other = size
  · subst same
    rw [Function.update_self, ← bags other small, contents_split place, single]
    simp only [contents, Function.update_self]
    rw [Multiset.coe_singleton, Multiset.singleton_add, Multiset.erase_cons_head]
    refine congrArg _ (List.flatMap_congr fun cell cellMember => ?_)
    refine kept cell (mem_owned_of_chain free small ?_) ?_
    · rw [place]
      rcases List.mem_append.mp cellMember with inBefore | inAfter
      · exact List.mem_append_left _ inBefore
      · exact List.mem_append_right _ (List.mem_cons_of_mem _ inAfter)
    · rintro rfl
      exact absent cellMember
  · rw [Function.update_of_ne same, ← bags other otherSmall]
    simp only [contents, Function.update_of_ne same]
    refine congrArg _ (List.flatMap_congr fun cell cellMember => ?_)
    refine kept cell (mem_owned_of_chain free otherSmall cellMember) ?_
    rintro rfl
    exact not_chain_of_chain shape.distinct small otherSmall same member cellMember

theorem wp_hashTablePopLoop {chain : Nat → List Int} {free : List Int}
    (shape : Shape blocks map chain free) (small : size < dirBlockSize * blocks)
    (bags : ∀ size < dirBlockSize * blocks, (contents map chain size : Multiset Int) = bag size)
    (present : addr ∈ bag size) (rounds : Nat) :
    ∀ (before after : List Int) (cntAddr preAddr : Int),
      chain size = before ++ cntAddr :: after → (∀ cell ∈ before, addr ∉ items (map.page cell)) →
      ((before = [] ∧ preAddr = cntAddr) ∨ ∃ start, before = start ++ [preAddr]) →
      after.length < rounds →
      (hashTablePopLoop size addr rounds cntAddr preAddr).wp (pinnedLogic FsmPage strict)
        (fun _ final => final.pins = 0 ∧ Represents blocks final.map
          (Function.update bag size ((bag size).erase addr))) ⟨map, 0⟩ := by
  induction rounds with
  | zero =>
      intro before after cntAddr preAddr _ _ _ enough
      exact absurd enough (Nat.not_lt_zero _)
  | succ rounds ih =>
      intro before after cntAddr preAddr place missed previous enough
      have inChain : cntAddr ∈ chain size := by
        rw [place]
        exact List.mem_append_right _ List.mem_cons_self
      have member := mem_owned_of_chain free small inChain
      have proper := shape.ne_ctrl member
      have apart := shape.ne_dir member small
      have count := shape.chainItems size small cntAddr inChain
      have dirNe := Shape.dir_ne_ctrl size
      have linked := shape.chainLinked size small
      rw [place] at linked
      have nodup := chain_nodup shape.distinct small
      rw [place] at nodup
      rw [hashTablePopLoop]
      simp only [getPage, load, release, store, wp_bind, wp_perform]
      refine rule_getPage (shape.inFile member) (by simp) ?_
      refine rule_load (by simp) ?_
      simp only [blockSize] at count
      have inRange : 0 ≤ (map.page cntAddr).nItems ∧ (map.page cntAddr).nItems ≤ blockSize := by
        simp only [blockSize]
        omega
      rcases findTarget_spec addr inRange with ⟨found, absent⟩ | ⟨target, found, bound, here⟩
      · -- not in this block: the walk goes on, and cannot be at the end of the chain
        simp only [found, wp_ofOption_some, wp_bind, wp_perform]
        refine rule_release (by simp) ?_
        have behind := linked.suffix.2
        have stored : addr ∈ contents map chain size := by
          rw [← Multiset.mem_coe, bags size small]
          exact present
        cases after with
        | nil =>
            obtain ⟨cell, cellMember, inCell⟩ := List.mem_flatMap.mp stored
            rw [place] at cellMember
            rcases List.mem_append.mp cellMember with inBefore | last
            · exact absurd inCell (missed cell inBefore)
            · rw [List.mem_singleton.mp last] at inCell
              exact absurd inCell absent
        | cons following rest =>
            have next : (map.page cntAddr).next = following := behind.1
            have pins : ((cntAddr ::ₘ 0 : Multiset Int).erase cntAddr) = 0 := by simp
            rw [next, pins]
            refine ih (before ++ [cntAddr]) rest following cntAddr ?_ ?_ (Or.inr ⟨before, rfl⟩) ?_
            · rw [place, List.append_assoc, List.singleton_append]
            · intro cell cellMember
              rcases List.mem_append.mp cellMember with inBefore | last
              · exact missed cell inBefore
              · rw [List.mem_singleton.mp last]
                exact absent
            · rw [List.length_cons] at enough
              omega
      · simp only [found, wp_ofOption_some]
        by_cases several : (map.page cntAddr).nItems > 1
        · rw [if_pos several]
          simp only [wp_bind, wp_perform]
          rw [setTable, if_pos (by simp only [blockSize]; omega), wp_ofOption_some]
          refine rule_store (by simp) (rule_release (by simp) ⟨by simp, ?_⟩)
          change Represents blocks (map.store cntAddr (popped (map.page cntAddr) target)) _
          refine represents_rewrite shape small bags inChain (popped_next _ _) ?_ ?_
          · rw [popped_nItems]
            simp only [blockSize]
            omega
          · intro rest split
            rw [← split, coe_items_popped bound here, Multiset.cons_add, Multiset.erase_cons_head]
        · rw [if_neg several]
          have one : (map.page cntAddr).nItems = 1 := by omega
          have single : items (map.page cntAddr) = [addr] := by
            have first : target = 0 := by omega
            rw [items_single one, ← first, here]
          have afterKept : ∀ cell ∈ after, cell ∈ owned blocks chain free ∧ cell ≠ cntAddr ∧
              cell ∉ before := by
            intro cell cellMember
            have inSize : cell ∈ chain size := by
              rw [place]
              exact List.mem_append_right _ (List.mem_cons_of_mem _ cellMember)
            refine ⟨mem_owned_of_chain free small inSize, ?_, ?_⟩
            · rintro rfl
              exact (List.nodup_cons.mp (List.nodup_append.mp nodup).2.1).1 cellMember
            · intro inBefore
              exact List.disjoint_of_nodup_append nodup inBefore (List.mem_cons_of_mem _ cellMember)
          rcases previous with ⟨first, same⟩ | ⟨start, last⟩
          · -- the first block of the chain: the directory entry bypasses it
            subst first same
            rw [if_pos rfl]
            simp only [wp_bind, wp_perform]
            refine rule_getPage (shape.dir_inFile small) (by simp [cachePage]) ?_
            refine wp_modify (by simp) ?_
            refine rule_getPage shape.ctrl_inFile (by simp [cachePage]) ?_
            refine rule_load (by simp) ?_
            refine wp_modify (by simp) ?_
            refine wp_modify (by simp) ?_
            refine rule_release (by simp) (rule_release ?_ (rule_release ?_ ⟨?_, ?_⟩))
            · simp [Multiset.erase_cons_tail, dirNe.symm]
            · simp [Multiset.erase_cons_tail, dirNe.symm, proper.symm]
            · simp [Multiset.erase_cons_tail, dirNe.symm, proper.symm]
            have bypassed : (((map.store (dirAddrOf size) ((map.page (dirAddrOf size)).set
                (size % dirBlockSize) (map.page preAddr).next)).store preAddr
                  ((((map.page preAddr).set 1 0).set 2 0).set 0 (map.page 0).freeBlockHead)).store 0
                    ((map.page 0).set 0 preAddr)).page (dirAddrOf size) =
                (map.page (dirAddrOf size)).set (size % dirBlockSize) (map.page preAddr).next := by
              simp [PageMap.store_page, dirNe, apart.symm]
            simp only [PageMap.store_page, dirNe.symm, proper.symm, apart, if_false]
            refine represents_unlink shape small bags place single
              (shape.unlink small place ?_ ?_ ?_ ?_ ?_ ?_ (by simp) rfl) ?_
            · simp
            · simp [PageMap.store_page, proper, FsmPage.next, FsmPage.freeBlockHead]
            · simp [PageMap.store_page, proper, FsmPage.nItems, set_word_of_ne]
            · intro other otherSmall different
              refine entry_of_ne bypassed (fun elsewhere => ?_) different
              simp [PageMap.store_page, Shape.dir_ne_ctrl, elsewhere,
                (shape.ne_dir member otherSmall).symm]
            · rw [entry_self bypassed]
              refine linked.2.congr fun cell cellMember => ?_
              obtain ⟨isOwned, different, -⟩ := afterKept cell cellMember
              simp [PageMap.store_page, shape.ne_ctrl isOwned, shape.ne_dir isOwned small, different]
            · intro cell isOwned _ different
              simp [PageMap.store_page, shape.ne_ctrl isOwned, shape.ne_dir isOwned small, different]
            · intro cell isOwned different
              simp [PageMap.store_page, shape.ne_ctrl isOwned, shape.ne_dir isOwned small, different]
          · -- a later block: its predecessor bypasses it
            have inStart : preAddr ∈ before := by
              rw [last]
              exact List.mem_append_right _ List.mem_cons_self
            have preChain : preAddr ∈ chain size := by
              rw [place]
              exact List.mem_append_left _ inStart
            have different : preAddr ≠ cntAddr := by
              rintro rfl
              exact List.disjoint_of_nodup_append nodup inStart List.mem_cons_self
            have preMember := mem_owned_of_chain free small preChain
            have preProper := shape.ne_ctrl preMember
            rw [if_neg different]
            simp only [wp_bind, wp_perform]
            refine rule_getPage (shape.inFile preMember) (by simp [cachePage]) ?_
            refine wp_modify (by simp) ?_
            refine rule_getPage shape.ctrl_inFile (by simp [cachePage]) ?_
            refine rule_load (by simp) ?_
            refine wp_modify (by simp) ?_
            refine wp_modify (by simp) ?_
            refine rule_release (by simp) (rule_release ?_ (rule_release ?_ ⟨?_, ?_⟩))
            · simp [Multiset.erase_cons_tail, preProper.symm]
            · simp [Multiset.erase_cons_tail, preProper.symm, proper.symm]
            · simp [Multiset.erase_cons_tail, preProper.symm, proper.symm]
            simp only [PageMap.store_page, preProper.symm, proper.symm, different.symm, if_false]
            have untouched : ∀ cell, cell ≠ 0 → cell ≠ cntAddr → cell ≠ preAddr →
                (((map.store preAddr ((map.page preAddr).set 0 (map.page cntAddr).next)).store cntAddr
                  ((((map.page cntAddr).set 1 0).set 2 0).set 0 (map.page 0).freeBlockHead)).store 0
                    ((map.page 0).set 0 cntAddr)).page cell = map.page cell := by
              intro cell notCtrl notCnt notPre
              simp [PageMap.store_page, notCtrl, notCnt, notPre]
            have rewired : (((map.store preAddr ((map.page preAddr).set 0 (map.page cntAddr).next)).store
                cntAddr ((((map.page cntAddr).set 1 0).set 2 0).set 0 (map.page 0).freeBlockHead)).store 0
                  ((map.page 0).set 0 cntAddr)).page preAddr =
                (map.page preAddr).set 0 (map.page cntAddr).next := by
              simp [PageMap.store_page, preProper, different]
            have startOwned : ∀ cell ∈ before, cell ∈ owned blocks chain free ∧ cell ≠ cntAddr := by
              intro cell inBefore
              refine ⟨mem_owned_of_chain free small (by rw [place]; exact List.mem_append_left _ inBefore), ?_⟩
              rintro rfl
              exact List.disjoint_of_nodup_append nodup inBefore List.mem_cons_self
            have sameItems : ∀ cell ∈ owned blocks chain free, cell ≠ cntAddr →
                items ((((map.store preAddr ((map.page preAddr).set 0 (map.page cntAddr).next)).store cntAddr
                  ((((map.page cntAddr).set 1 0).set 2 0).set 0 (map.page 0).freeBlockHead)).store 0
                    ((map.page 0).set 0 cntAddr)).page cell) = items (map.page cell) := by
              intro cell isOwned notCnt
              by_cases equal : cell = preAddr
              · rw [equal, rewired, items_set_next]
              · rw [untouched cell (shape.ne_ctrl isOwned) notCnt equal]
            refine represents_unlink shape small bags place single
              (shape.unlink small place ?_ ?_ ?_ ?_ ?_ ?_ ?_ rfl) sameItems
            · simp
            · simp [PageMap.store_page, proper, FsmPage.next, FsmPage.freeBlockHead]
            · simp [PageMap.store_page, proper, FsmPage.nItems, set_word_of_ne]
            · intro other otherSmall _
              unfold entry
              rw [untouched _ (Shape.dir_ne_ctrl other) (shape.ne_dir member otherSmall).symm
                (shape.ne_dir preMember otherSmall).symm]
            · have entrySame : ∀ other < dirBlockSize * blocks, entry
                  (((map.store preAddr ((map.page preAddr).set 0 (map.page cntAddr).next)).store cntAddr
                    ((((map.page cntAddr).set 1 0).set 2 0).set 0 (map.page 0).freeBlockHead)).store 0
                      ((map.page 0).set 0 cntAddr)) other = entry map other := by
                intro other otherSmall
                unfold entry
                rw [untouched _ (Shape.dir_ne_ctrl other) (shape.ne_dir member otherSmall).symm
                  (shape.ne_dir preMember otherSmall).symm]
              rw [entrySame size small, last, List.append_assoc, List.singleton_append]
              rw [last, List.append_assoc, List.singleton_append] at linked
              rw [last] at nodup startOwned
              have startNodup := (List.nodup_append.mp nodup).1
              have preFresh : preAddr ∉ start := fun inside =>
                List.disjoint_of_nodup_append startNodup inside List.mem_cons_self
              refine Linked.relink preFresh ?_ ?_ linked
              · intro cell inside
                obtain ⟨isOwned, notCnt⟩ := startOwned cell (List.mem_append_left _ inside)
                rw [untouched cell (shape.ne_ctrl isOwned) notCnt]
                rintro rfl
                exact preFresh inside
              · rw [rewired]
                change Linked _ _ (((map.page preAddr).set 0 _).word 0) _
                rw [set_word_self]
                refine linked.suffix.2.2.congr fun cell cellMember => ?_
                obtain ⟨isOwned, notCnt, notBefore⟩ := afterKept cell cellMember
                rw [untouched cell (shape.ne_ctrl isOwned) notCnt]
                rintro rfl
                exact notBefore inStart
            · intro cell isOwned notBefore notCnt
              refine untouched cell (shape.ne_ctrl isOwned) notCnt ?_
              rintro rfl
              exact notBefore inStart
            · intro cell inBefore
              obtain ⟨isOwned, notCnt⟩ := startOwned cell inBefore
              by_cases equal : cell = preAddr
              · rw [equal, rewired]
                exact set_word_of_ne _ _ (by decide)
              · rw [untouched cell (shape.ne_ctrl isOwned) notCnt equal]

theorem wp_hashTablePop (represented : Represents blocks map bag)
    (small : size < dirBlockSize * blocks) (present : addr ∈ bag size) :
    (hashTablePop size addr).wp (pinnedLogic FsmPage strict) (fun _ after =>
      after.pins = 0 ∧ Represents blocks after.map
        (Function.update bag size ((bag size).erase addr))) ⟨map, 0⟩ := by
  obtain ⟨chain, free, shape, bags⟩ := represented
  have chainNonempty : chain size ≠ [] := by
    intro empty
    have none := bags size small
    rw [contents, empty, List.flatMap_nil] at none
    rw [← none] at present
    exact absurd present (Multiset.notMem_zero addr)
  have entryProper : entry map size ≠ -1 := fun null =>
    chainNonempty ((shape.chain_eq_nil_iff small).mpr null)
  obtain ⟨after, place, -⟩ := (shape.chainLinked size small).exists_cons entryProper
  have enough : after.length < map.length.toNat := by
    have short := length_le_of_nodup_of_mem_range
      (chain_nodup shape.distinct small) (fun cell member =>
        (shape.inFile (mem_owned_of_chain free small member)).2)
    rw [place, List.length_cons] at short
    omega
  unfold hashTablePop
  simp only [getPage, load, release, fileLength, wp_bind, wp_perform]
  refine rule_getPage (shape.dir_inFile small) (by simp) ?_
  refine rule_load (by simp) ?_
  refine rule_release (by simp) ?_
  refine rule_fileLength ?_
  rw [Multiset.erase_cons_head]
  exact wp_hashTablePopLoop shape small bags present map.length.toNat [] after _ _ place (by simp)
    (Or.inl ⟨rfl, rfl⟩) enough

/-! ## The lower bound -/

/-- The page one position past the directory. -/
def overrun (blocks : Nat) : Int := dirAddrOf (dirBlockSize * blocks)

/-- The map after the scan has fetched that page. -/
def overrunMap (blocks : Nat) (map : PageMap FsmPage) : PageMap FsmPage :=
  if overrun blocks < map.length then map else map.append (overrun blocks)

theorem overrun_eq (blocks : Nat) : overrun blocks = (blocks + 1) * pageSize := by
  simp only [overrun, dirAddrOf, dirBlockSize, pageSize]
  omega

theorem represents_overrunMap (represented : Represents blocks map bag) :
    Represents blocks (overrunMap blocks map) bag := by
  unfold overrunMap
  by_cases inside : overrun blocks < map.length
  · rw [if_pos inside]
    exact represented
  · rw [if_neg inside]
    obtain ⟨chain, free, shape, bags⟩ := represented
    have above := shape.maxAbove
    have below := shape.maxBelow
    have edge := overrun_eq blocks
    have kept : ∀ other < (map.page 0).maxSize,
        (map.append (overrun blocks)).page other = map.page other := by
      intro other low
      exact map.append_page_of_ne (by omega)
    refine ⟨chain, free, shape.grow kept ?_ ?_, ?_⟩
    · simp only [PageMap.append_length, pageSize] at *
      omega
    · simp only [PageMap.append_length, pageSize] at *
      omega
    · intro size small
      rw [← bags size small]
      refine congrArg _ (contents_congr fun cell member => ?_)
      rw [kept cell ((shape.mem_owned cell).mp (mem_owned_of_chain free small member)).2.2]

theorem scanPosition_dirAddrOf (position : Nat) :
    scanPosition (dirAddrOf position) (position % dirBlockSize) = position := by
  simp only [scanPosition, dirAddrOf, dirBlockSize, pageSize]
  omega

theorem scanPosition_overrun (blocks : Nat) : scanPosition (overrun blocks) 0 = blocks * dirBlockSize := by
  have whole := scanPosition_dirAddrOf (dirBlockSize * blocks)
  rw [Nat.mul_mod_right] at whole
  rw [Nat.mul_comm]
  exact whole

/-- One step of the scan moves to the next directory position. -/
theorem scan_advance (position : Nat) :
    (if position % dirBlockSize + 1 = dirBlockSize then (dirAddrOf position + pageSize, 0)
      else (dirAddrOf position, position % dirBlockSize + 1)) =
      (dirAddrOf (position + 1), (position + 1) % dirBlockSize) := by
  simp only [dirAddrOf, dirBlockSize, pageSize]
  split
  · refine Prod.ext ?_ ?_ <;> dsimp only <;> omega
  · refine Prod.ext ?_ ?_ <;> dsimp only <;> omega

/-- One round of the scan, in terms of directory positions. -/
theorem wp_scanDirectory_round {rounds position : Nat} {pins : Multiset Int}
    {post : Int × Nat → Pinned FsmPage → Prop} (pinned : strict → dirAddrOf position ∈ pins)
    (used : entry map position ≠ -1 →
      post (dirAddrOf position, position % dirBlockSize) ⟨map, pins⟩)
    (past : entry map position = -1 → dirBlockSize * blocks ≤ position →
      post (dirAddrOf position, position % dirBlockSize) ⟨map, pins.erase (dirAddrOf position)⟩)
    (next : entry map position = -1 → position < dirBlockSize * blocks →
      (pinnedLogic FsmPage strict).rule _ (.getPage (dirAddrOf (position + 1))) (fun _ after =>
        (scanDirectory blocks rounds (dirAddrOf (position + 1)) ((position + 1) % dirBlockSize)).wp
          (pinnedLogic FsmPage strict) post after) ⟨map, pins.erase (dirAddrOf position)⟩) :
    (scanDirectory blocks (rounds + 1) (dirAddrOf position) (position % dirBlockSize)).wp
      (pinnedLogic FsmPage strict) post ⟨map, pins⟩ := by
  rw [scanDirectory]
  simp only [scan_advance, scanPosition_dirAddrOf, load, release, getPage, wp_bind, wp_perform]
  refine rule_load pinned ?_
  have read : (map.page (dirAddrOf position)).directory (position % dirBlockSize) =
      entry map position := rfl
  rw [read]
  by_cases null : entry map position = -1
  · rw [if_neg (not_not.mpr null)]
    by_cases above : position ≥ blocks * dirBlockSize
    · rw [if_pos above]
      exact rule_release pinned (past null (by rwa [Nat.mul_comm]))
    · rw [if_neg above]
      refine rule_release pinned (next null ?_)
      rw [Nat.mul_comm]
      exact not_le.mp above
  · rw [if_pos null]
    exact used null

/-- Where the scan from `position` stops, and with which pins. -/
def ScanEnd (blocks position : Nat) (map : PageMap FsmPage) (stop : Int × Nat)
    (after : Pinned FsmPage) : Prop :=
  (∃ found, position ≤ found ∧ found < dirBlockSize * blocks ∧ entry map found ≠ -1 ∧
    (∀ size, position ≤ size → size < found → entry map size = -1) ∧
    stop = (dirAddrOf found, found % dirBlockSize) ∧ after = ⟨map, {dirAddrOf found}⟩) ∨
  ((∀ size, position ≤ size → size < dirBlockSize * blocks → entry map size = -1) ∧
    stop = (overrun blocks, 0) ∧ after.map = overrunMap blocks map ∧
    after.pins = if entry after.map (dirBlockSize * blocks) ≠ -1 then {overrun blocks} else 0)

theorem wp_scanDirectory {chain : Nat → List Int} {free : List Int}
    (shape : Shape blocks map chain free) (rounds : Nat) :
    ∀ position < dirBlockSize * blocks, dirBlockSize * blocks + 1 ≤ rounds + position →
      (scanDirectory blocks rounds (dirAddrOf position) (position % dirBlockSize)).wp
        (pinnedLogic FsmPage strict) (ScanEnd blocks position map) ⟨map, {dirAddrOf position}⟩ := by
  induction rounds with
  | zero =>
      intro position small enough
      omega
  | succ rounds ih =>
      intro position small enough
      refine wp_scanDirectory_round (by simp) ?_ ?_ ?_
      · intro used
        refine Or.inl ⟨position, le_rfl, small, used, ?_, rfl, rfl⟩
        intro size above below
        omega
      · intro _ past
        omega
      · intro null _
        rw [Multiset.erase_singleton]
        rcases Nat.lt_or_ge (position + 1) (dirBlockSize * blocks) with inside | edge
        · refine rule_getPage (shape.dir_inFile inside) (by simp) ?_
          refine wp_mono ?_ (ih (position + 1) inside (by omega))
          have unused : ∀ size, position ≤ size → size < position + 1 → entry map size = -1 := by
            intro size above below
            rw [show size = position by omega]
            exact null
          rintro stop after (⟨found, above, below, used, skipped, stopped, same⟩ | ⟨skipped, rest⟩)
          · refine Or.inl ⟨found, by omega, below, used, ?_, stopped, same⟩
            intro size low high
            rcases Nat.lt_or_ge size (position + 1) with here | later
            · exact unused size low here
            · exact skipped size later high
          · refine Or.inr ⟨?_, rest⟩
            intro size low high
            rcases Nat.lt_or_ge size (position + 1) with here | later
            · exact unused size low here
            · exact skipped size later high
        · -- the scan fetches the page past the directory and ends there
          have last : position + 1 = dirBlockSize * blocks := by omega
          rw [last]
          obtain ⟨rounds, rfl⟩ : ∃ fewer, rounds = fewer + 1 := ⟨rounds - 1, by omega⟩
          have skipped : ∀ size, position ≤ size → size < dirBlockSize * blocks →
              entry map size = -1 := by
            intro size low high
            rw [show size = position by omega]
            exact null
          have counter : dirBlockSize * blocks % dirBlockSize = 0 := Nat.mul_mod_right _ _
          have stopping : (scanDirectory blocks (rounds + 1) (dirAddrOf (dirBlockSize * blocks))
              (dirBlockSize * blocks % dirBlockSize)).wp (pinnedLogic FsmPage strict)
                (ScanEnd blocks position map) ⟨overrunMap blocks map, {overrun blocks}⟩ := by
            refine wp_scanDirectory_round (by simp [overrun]) ?_ ?_ ?_
            · intro used
              exact Or.inr ⟨skipped, by rw [counter]; rfl, rfl, by rw [if_pos used]⟩
            · intro unused _
              refine Or.inr ⟨skipped, by rw [counter]; rfl, rfl, ?_⟩
              rw [if_neg (not_not.mpr unused)]
              exact Multiset.erase_singleton _
            · intro _ impossible
              exact absurd impossible (lt_irrefl _)
          by_cases inside : overrun blocks < map.length
          · rw [overrunMap, if_pos inside] at stopping
            exact rule_getPage ⟨dirAddrOf_aligned _, le_trans (by decide) (dirAddrOf_pos _), inside⟩
              (by simp) stopping
          · rw [overrunMap, if_neg inside] at stopping
            have reach : overrun blocks ≤ map.length := by
              rw [overrun_eq]
              exact le_trans shape.maxAbove shape.maxBelow
            exact rule_getPage_append (dirAddrOf_aligned _) (le_trans (by decide) (dirAddrOf_pos _))
              (not_lt.mp inside) (by simp) (fun _ => reach) stopping

theorem throughShort_eq {value : Nat} (short : value < 2 ^ 15) : throughShort value = value := by
  unfold throughShort
  rw [if_pos (by omega)]
  omega

/-- A directory entry in use stands for a block, whose first address is in the bag. -/
theorem Shape.front {chain : Nat → List Int} {free : List Int} {found : Nat} (shape : Shape blocks map chain free)
    (bags : ∀ size < dirBlockSize * blocks, (contents map chain size : Multiset Int) = bag size)
    (below : found < dirBlockSize * blocks) (used : entry map found ≠ -1) :
    entry map found ∈ owned blocks chain free ∧ (map.page (entry map found)).table 0 ∈ bag found := by
  obtain ⟨rest, head, -⟩ := (shape.chainLinked found below).exists_cons used
  have inChain : entry map found ∈ chain found := head ▸ List.mem_cons_self
  have count := shape.chainItems found below _ inChain
  refine ⟨mem_owned_of_chain free below inChain, ?_⟩
  rw [← bags found below, Multiset.mem_coe]
  exact List.mem_flatMap.mpr ⟨_, inChain, mem_items.mpr ⟨0, by omega, rfl⟩⟩

/-- What `hash_table_pop_lower_bound` answers and does to the bags. -/
def LowerBoundPost (blocks size : Nat) (bag : Nat → Multiset Int) (addr : Int)
    (after : PageMap FsmPage) : Prop :=
  (∃ found, size ≤ found ∧ found < dirBlockSize * blocks ∧
    (∀ other, size ≤ other → other < found → bag other = 0) ∧ addr ∈ bag found ∧
    Represents blocks after (Function.update bag found ((bag found).erase addr))) ∨
  ((∀ other, size ≤ other → other < dirBlockSize * blocks → bag other = 0) ∧ addr = -1 ∧
    Represents blocks after bag)

/--
The released page is released again when nothing is found and the page past the
directory reads `-1`; `clean` excludes that branch where the pin discipline is
asked for.
-/
theorem wp_hashTablePopLowerBound (represented : Represents blocks map bag)
    (small : size < dirBlockSize * blocks) (shorts : ∀ other, bag other ≠ 0 → other < 2 ^ 15)
    (clean : strict → (∃ other, size ≤ other ∧ other < dirBlockSize * blocks ∧ bag other ≠ 0) ∨
      entry (overrunMap blocks map) (dirBlockSize * blocks) ≠ -1) :
    (hashTablePopLowerBound size).wp (pinnedLogic FsmPage strict) (fun addr after =>
      after.pins = 0 ∧ LowerBoundPost blocks size bag addr after.map) ⟨map, 0⟩ := by
  obtain ⟨chain, free, shape, bags⟩ := represented
  have represented : Represents blocks map bag := ⟨chain, free, shape, bags⟩
  have bag_eq_zero : ∀ other < dirBlockSize * blocks, entry map other = -1 → bag other = 0 := by
    intro other otherSmall null
    rw [← bags other otherSmall, contents, (shape.chain_eq_nil_iff otherSmall).mpr null]
    rfl
  unfold hashTablePopLowerBound
  simp only [getPage, load, release, wp_bind, wp_perform]
  refine rule_getPage shape.ctrl_inFile (by simp) ?_
  refine rule_load (by simp) ?_
  refine rule_release (by simp) ?_
  rw [Multiset.erase_cons_head, shape.directories, Int.toNat_natCast]
  refine rule_getPage (shape.dir_inFile small) (by simp) ?_
  have rounds : dirBlockSize * blocks + 1 ≤ blocks * dirBlockSize + 1 + size := by
    rw [Nat.mul_comm]
    omega
  refine wp_mono ?_ (wp_scanDirectory shape _ size small rounds)
  rintro stop after (⟨found, above, below, used, skipped, rfl, rfl⟩ | ⟨skipped, rfl, mapped, pinned⟩)
  · have position := scanPosition_dirAddrOf found
    rw [position, if_pos (by rw [Nat.mul_comm]; omega)]
    simp only [wp_bind, wp_perform, wp_pure]
    refine rule_load (by simp) ?_
    have read : (map.page (dirAddrOf found)).directory (found % dirBlockSize) = entry map found := rfl
    rw [read]
    obtain ⟨member, stored⟩ := shape.front bags below used
    have apart := shape.ne_dir member below
    have short : found < 2 ^ 15 := by
      refine shorts found ?_
      intro none
      rw [none] at stored
      exact absurd stored (Multiset.notMem_zero _)
    refine rule_getPage (shape.inFile member) (by simp) ?_
    refine rule_load (by simp) ?_
    refine rule_release (by simp) ?_
    refine rule_release (by simp [Multiset.erase_cons_tail, apart]) ?_
    rw [Multiset.erase_cons_tail _ apart, Multiset.erase_singleton, Multiset.erase_cons_head,
      throughShort_eq short]
    refine wp_mono ?_ (wp_hashTablePop represented below stored)
    rintro - final ⟨noPins, final_represents⟩
    refine ⟨noPins, Or.inl ⟨found, above, below, ?_, stored, final_represents⟩⟩
    intro other low high
    exact bag_eq_zero other (by omega) (skipped other low high)
  · rw [scanPosition_overrun, if_neg (not_not.mpr rfl)]
    obtain ⟨afterMap, afterPins⟩ := after
    simp only at mapped pinned
    subst mapped
    simp only [wp_bind, wp_perform, wp_pure]
    refine rule_release ?_ ⟨?_, Or.inr ⟨?_, rfl, represents_overrunMap represented⟩⟩
    · intro asked
      rcases clean asked with ⟨other, low, high, stored⟩ | used
      · exact absurd (bag_eq_zero other high (skipped other low high)) stored
      · rw [pinned, if_pos used]
        exact Multiset.mem_singleton_self _
    · rw [pinned]
      split
      · exact Multiset.erase_singleton _
      · exact Multiset.erase_zero _
    · exact fun other low high => bag_eq_zero other high (skipped other low high)

/-! ## Initialisation -/

/-- The directory blocks from `first` on, `count` of them, are filled with `-1`. -/
structure DirectoryFilled (map after : PageMap FsmPage) (first count : Nat) : Prop where
  filled : ∀ index, first ≤ index → index < first + count →
    after.page (index * pageSize) = ⟨fun _ => -1⟩
  kept : ∀ addr, (∀ index, first ≤ index → index < first + count → addr ≠ (index : Int) * pageSize) →
    after.page addr = map.page addr
  length_le : map.length ≤ after.length

theorem wp_initDirectory {post : Unit → Pinned FsmPage → Prop} (count : Nat) :
    ∀ (first : Nat) (map : PageMap FsmPage),
      (∀ after, DirectoryFilled map after first count → post () ⟨after, 0⟩) →
      (initDirectory first count).wp (pinnedLogic FsmPage False) post ⟨map, 0⟩ := by
  induction count with
  | zero =>
      intro first map ended
      rw [initDirectory, wp_pure]
      refine ended map ⟨?_, fun _ _ => rfl, le_rfl⟩
      intro index low high
      omega
  | succ count ih =>
      intro first map ended
      rw [initDirectory]
      simp only [getPage, release, store, wp_bind, wp_perform]
      have aligned : (first : Int) * pageSize % pageSize = 0 := by
        simp only [pageSize]
        omega
      have nonneg : 0 ≤ (first : Int) * pageSize := by
        simp only [pageSize]
        omega
      refine rule_getPage_touched aligned nonneg False.elim False.elim ?_
      intro touched isTouched
      refine rule_store (by simp) (rule_release (by simp) ?_)
      rw [Multiset.erase_cons_head]
      refine ih (first + 1) _ fun after filled => ended after ⟨?_, ?_, ?_⟩
      · intro index low high
        rcases Nat.lt_or_ge first index with later | here
        · exact filled.filled index later (by omega)
        · rw [show index = first by omega, filled.kept]
          · exact PageMap.store_page_self _ _ _
          · intro other above _ same
            simp only [pageSize] at same
            omega
      · intro addr elsewhere
        have apart := elsewhere first le_rfl (by omega)
        rw [filled.kept addr fun index low high => elsewhere index (by omega) (by omega),
          PageMap.store_page_of_ne _ _ apart, isTouched.kept addr apart]
      · exact le_trans isTouched.length_le filled.length_le

/-- The control block that `hash_table_init` leaves. -/
def initialCtrl (blocks : Nat) : FsmPage :=
  (((emptyPage : FsmPage).set 0 (-1)).set 1 blocks).set 2 (pageSize * (blocks + 1))

/-- The pages that `hash_table_init` leaves. -/
structure Initial (blocks : Nat) (map : PageMap FsmPage) : Prop where
  length : map.length = pageSize * (blocks + 1)
  ctrl : map.page 0 = initialCtrl blocks
  directory : ∀ index : Nat, 1 ≤ index → index ≤ blocks →
    map.page (index * pageSize) = ⟨fun _ => -1⟩

theorem wp_hashTableInit (blocks : Nat) :
    (hashTableInit blocks).wp (pinnedLogic FsmPage False) (fun _ after =>
      after.pins = 0 ∧ Initial blocks after.map ∧ Represents blocks after.map fun _ => 0)
      ⟨PageMap.empty, 0⟩ := by
  unfold hashTableInit
  simp only [fileLength, wp_bind, wp_perform]
  refine rule_fileLength ?_
  rw [if_neg (by simp [PageMap.empty])]
  simp only [getPage, load, release, setFileLength, wp_bind, wp_perform]
  refine wp_initDirectory blocks 1 _ fun filledMap filled => ?_
  refine rule_getPage_touched (by decide) le_rfl False.elim False.elim ?_
  intro touched isTouched
  refine wp_modify (by simp) (wp_modify (by simp) (wp_modify (by simp) ?_))
  refine rule_load (by simp) (rule_setFileLength not_false (rule_release (by simp) ⟨by simp, ?_⟩))
  simp only [PageMap.store_page_self]
  have blank : touched.page 0 = emptyPage := by
    refine isTouched.content ?_
    rw [filled.kept 0 fun index low _ => ?_]
    · rfl
    · simp only [pageSize]
      omega
  have maxSize : ((((touched.page 0).set 0 (-1)).set 1 blocks).set 2
      (pageSize * (blocks + 1))).maxSize = pageSize * (blocks + 1) := set_word_self _ _ _
  rw [maxSize]
  refine ⟨⟨rfl, ?_, ?_⟩, fun _ => [], [], ?_, fun _ _ => rfl⟩
  · rw [PageMap.store_page_self, blank]
    rfl
  · intro index low high
    have apart : (index : Int) * pageSize ≠ 0 := by
      simp only [pageSize]
      omega
    rw [PageMap.store_page_of_ne _ _ apart, PageMap.store_page_of_ne _ _ apart,
      PageMap.store_page_of_ne _ _ apart, isTouched.kept _ apart]
    exact filled.filled index low (by omega)
  have nothing : owned blocks (fun _ => []) [] = 0 := by
    unfold owned
    simp
  refine ⟨?_, ?_, ?_, ?_, ?_, ?_, ?_, ?_, ?_, ?_, ?_⟩
  · exact (set_word_of_ne _ _ (by decide)).trans (set_word_self _ _ _)
  · exact (set_word_of_ne _ _ (by decide)).trans ((set_word_of_ne _ _ (by decide)).trans
      (set_word_self _ _ _))
  · intro size small
    have bound := dirAddrOf_lt small
    have quotient : size / dirBlockSize < blocks := Nat.div_lt_of_lt_mul small
    change (_ : FsmPage).directory _ = -1
    rw [PageMap.store_page_of_ne _ _ (Shape.dir_ne_ctrl size),
      PageMap.store_page_of_ne _ _ (Shape.dir_ne_ctrl size),
      PageMap.store_page_of_ne _ _ (Shape.dir_ne_ctrl size), isTouched.kept _ (Shape.dir_ne_ctrl size)]
    have page := filled.filled (size / dirBlockSize + 1) (Nat.le_add_left _ _) (by omega)
    rw [show dirAddrOf size = ((size / dirBlockSize + 1 : Nat) : Int) * pageSize from rfl, page]
    rfl
  · rw [nothing]
    exact Multiset.nodup_zero
  · intro addr
    rw [nothing, PageMap.store_page_self, maxSize]
    simp only [Multiset.notMem_zero, pageSize, false_iff]
    omega
  · intro size _ cell member
    exact absurd member List.not_mem_nil
  · intro cell member
    exact absurd member List.not_mem_nil
  · rw [PageMap.store_page_self, maxSize]
    exact Int.mul_emod_right _ _
  · rw [PageMap.store_page_self, maxSize]
    exact le_of_eq (Int.mul_comm _ _)
  · rw [PageMap.store_page_self, maxSize]
  · exact Int.mul_emod_right _ _

end MyJQL.Storage.HashMap
