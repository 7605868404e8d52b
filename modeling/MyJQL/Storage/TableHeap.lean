import MyJQL.Storage.TableRuns

/-!
# Tables as heaps

`TableOp` is the interface the strings and the records are written against. Its
heap reading forgets the pages: an insertion picks any RID that is not live. The
pages of a table simulate it, so a proof about the heap is a proof about the pages.
-/

namespace MyJQL.Storage

open Library Library.Prog

/-- The calls on a table, and the length of its data file. -/
inductive TableOp : Type → Type where
  | read (rid : RID) : TableOp (List Cell)
  | insert (src : List Cell) : TableOp RID
  | delete (rid : RID) : TableOp Unit
  | dataLength : TableOp Int

namespace Table

/-- The call as a program over the two pools. -/
def call : ∀ β : Type, TableOp β → TableProg β
  | _, .read rid => tableRead rid
  | _, .insert src => tableInsert src
  | _, .delete rid => tableDelete rid
  | _, .dataLength => onData .fileLength

/-- The page-map meaning of the calls on a table. -/
def callMeaning : Meaning TableOp TableMaps := fun β op maps => (call β op).run tablePages maps

/-- Distinct live items take distinct bytes of a file of this length. -/
def Fits (heap : Heap) (length : Int) : Prop :=
  ∀ rids : List RID, rids.Nodup → (∀ rid ∈ rids, heap rid ≠ none) →
    (((rids.map fun rid => ((heap rid).getD []).length).sum : Nat) : Int) ≤ length

/-- The heap reading of the calls. -/
def heapLogic : Logic TableOp Heap where
  rule
    | _, .read rid, post, heap => ∃ content, heap rid = some content ∧ post content heap
    | _, .insert src, post, heap => 1 ≤ src.length ∧ src.length ≤ 118 ∧
        ∀ rid : RID, heap rid = none → 0 ≤ rid.blockAddr → 0 ≤ rid.idx →
          post rid (Function.update heap rid (some src))
    | _, .delete rid, post, heap => heap rid ≠ none ∧ post () (Function.update heap rid none)
    | _, .dataLength, post, heap => ∀ length, Fits heap length → post length heap
  mono {_ effect _ _ _} imp holds := by
    cases effect with
    | read rid =>
        obtain ⟨content, live, ended⟩ := holds
        exact ⟨content, live, imp _ _ ended⟩
    | insert src =>
        obtain ⟨nonempty, small, ended⟩ := holds
        exact ⟨nonempty, small, fun rid fresh addr idx => imp _ _ (ended rid fresh addr idx)⟩
    | delete rid => exact ⟨holds.1, imp _ _ holds.2⟩
    | dataLength => exact fun length fits => imp _ _ (holds length fits)

section HeapRules

variable {heap : Heap} {rid : RID} {content src : List Cell}

theorem heapRule_read {post : List Cell → Heap → Prop} (live : heap rid = some content)
    (ended : post content heap) : heapLogic.rule _ (.read rid) post heap :=
  ⟨content, live, ended⟩

theorem heapRule_insert {post : RID → Heap → Prop} (nonempty : 1 ≤ src.length)
    (small : src.length ≤ 118) (ended : ∀ rid : RID, heap rid = none → 0 ≤ rid.blockAddr →
      0 ≤ rid.idx → post rid (Function.update heap rid (some src))) :
    heapLogic.rule _ (.insert src) post heap :=
  ⟨nonempty, small, ended⟩

theorem heapRule_delete {post : Unit → Heap → Prop} (live : heap rid ≠ none)
    (ended : post () (Function.update heap rid none)) : heapLogic.rule _ (.delete rid) post heap :=
  ⟨live, ended⟩

theorem heapRule_dataLength {post : Int → Heap → Prop}
    (ended : ∀ length, Fits heap length → post length heap) :
    heapLogic.rule _ .dataLength post heap := ended

end HeapRules

/-- The pages of a table hold a heap. -/
def HoldsHeap (heap : Heap) (maps : TableMaps) : Prop :=
  ∃ items, TableHolds maps items ∧ heapOf items = heap

/-! ## Bytes in use -/

section Bytes

variable {maps : TableMaps} {items : Int → List Block.Item}

/-- Items of one block named by distinct indices take no more bytes than the block has. -/
theorem sum_lookup_le {list : List Block.Item} (distinct : (list.map Prod.fst).Nodup)
    (indices : Finset Nat) (live : ∀ idx ∈ indices, list.lookup idx ≠ none) :
    ∑ idx ∈ indices, ((list.lookup idx).getD []).length ≤ (Block.itemCells list).length := by
  have subset : indices ⊆ (list.map Prod.fst).toFinset := by
    intro idx member
    obtain ⟨content, found⟩ := Option.ne_none_iff_exists'.mp (live idx member)
    have inside := (lookup_eq_some_iff_mem distinct).mp found
    exact List.mem_toFinset.mpr (List.mem_map.mpr ⟨_, inside, rfl⟩)
  refine (Finset.sum_le_sum_of_subset subset).trans (le_of_eq ?_)
  rw [List.sum_toFinset _ distinct, Block.itemCells, List.length_flatMap, List.map_map]
  congr 1
  apply List.map_congr_left
  intro item member
  have found : list.lookup item.1 = some item.2 := (lookup_eq_some_iff_mem distinct).mpr member
  simp only [Function.comp_apply, found, Option.getD_some]

/-- The items of a block take at most a page. -/
theorem TableHolds.sum_block_le (holds : TableHolds maps items) (addr : Int) (rids : Finset RID)
    (here : ∀ rid ∈ rids, rid.blockAddr = addr) (live : ∀ rid ∈ rids, heapOf items rid ≠ none) :
    ∑ rid ∈ rids, ((heapOf items rid).getD []).length ≤ 128 := by
  rcases rids.eq_empty_or_nonempty with rfl | ⟨first, firstMember⟩
  · exact Nat.zero_le _
  have found : ∀ rid ∈ rids, maps.1.InFile addr ∧ 0 ≤ rid.idx ∧
      (items addr).lookup rid.idx.toNat = heapOf items rid := by
    intro rid member
    obtain ⟨content, bound⟩ := Option.ne_none_iff_exists'.mp (live rid member)
    obtain ⟨inside, nonneg, -⟩ := holds.live bound
    rw [here rid member] at inside
    refine ⟨inside, nonneg, ?_⟩
    rw [heapOf, if_pos nonneg, here rid member]
  have block := holds.blocks addr (found first firstMember).1
  have injective : Set.InjOn (fun rid : RID => rid.idx.toNat) rids := by
    intro left leftMember right rightMember same
    have leftNonneg := (found left leftMember).2.1
    have rightNonneg := (found right rightMember).2.1
    have leftHere := here left leftMember
    have rightHere := here right rightMember
    obtain ⟨leftAddr, leftIdx⟩ := left
    obtain ⟨rightAddr, rightIdx⟩ := right
    simp only [RID.mk.injEq] at *
    omega
  have renamed : ∑ rid ∈ rids, ((heapOf items rid).getD []).length =
      ∑ idx ∈ rids.image (fun rid => rid.idx.toNat), (((items addr).lookup idx).getD []).length := by
    rw [Finset.sum_image injective]
    apply Finset.sum_congr rfl
    intro rid member
    rw [(found rid member).2.2]
  rw [renamed]
  refine (sum_lookup_le block.distinct _ ?_).trans ?_
  · intro idx member
    obtain ⟨rid, ridMember, rfl⟩ := Finset.mem_image.mp member
    rw [(found rid ridMember).2.2]
    exact live rid ridMember
  · have nonneg := block.nonneg
    have head := block.head
    have tail := block.tail
    have room := block.room
    simp only [Block.dataOffset, Block.itemIdSize, Block.blockBytes] at *
    omega

theorem TableHolds.fits (holds : TableHolds maps items) : Fits (heapOf items) maps.1.length := by
  intro rids distinct live
  have nonneg := holds.nonneg
  have aligned := holds.aligned
  have blocks : rids.toFinset.image RID.blockAddr ⊆
      (Finset.range (maps.1.length / pageSize).toNat).image fun block : Nat => (block : Int) * pageSize := by
    intro addr member
    obtain ⟨rid, ridMember, rfl⟩ := Finset.mem_image.mp member
    obtain ⟨content, bound⟩ := Option.ne_none_iff_exists'.mp (live rid (List.mem_toFinset.mp ridMember))
    obtain ⟨ridAligned, ridNonneg, below⟩ := (holds.live bound).1
    refine Finset.mem_image.mpr ⟨(rid.blockAddr / pageSize).toNat, Finset.mem_range.mpr ?_, ?_⟩
    · simp only [pageSize] at *
      omega
    · simp only [pageSize] at *
      omega
  have count : (rids.toFinset.image RID.blockAddr).card ≤ (maps.1.length / pageSize).toNat :=
    (Finset.card_le_card blocks).trans (Finset.card_image_le.trans (le_of_eq (Finset.card_range _)))
  have total : ∑ rid ∈ rids.toFinset, ((heapOf items rid).getD []).length ≤
      (rids.toFinset.image RID.blockAddr).card * 128 := by
    rw [← Finset.sum_fiberwise_of_maps_to (g := RID.blockAddr)
      (fun rid member => Finset.mem_image_of_mem _ member)]
    refine Finset.sum_le_card_nsmul _ _ _ fun addr _ => ?_
    refine holds.sum_block_le addr _ (fun rid member => (Finset.mem_filter.mp member).2) ?_
    intro rid member
    exact live rid (List.mem_toFinset.mp (Finset.mem_filter.mp member).1)
  rw [List.sum_toFinset _ distinct] at total
  simp only [pageSize] at *
  omega

end Bytes

/-! ## The pages simulate the heap -/

/-- Between calls no block is pinned, and the pages hold the heap. -/
def HoldsIdle (heap : Heap) (state : Pinned Block × PageMap HashMap.FsmPage) : Prop :=
  state.1.pins = 0 ∧ HoldsHeap heap (state.1.map, state.2)

theorem heap_simulates_idle :
    Logic.Simulates heapLogic (pinnedTableLogic.pull call) HoldsIdle := by
  rintro β effect post heap ⟨⟨data, pins⟩, fsm⟩ ⟨free, items, holds, rfl⟩ asked
  obtain rfl : pins = 0 := free
  have settled : ∀ {result : β} {after : Pinned Block × PageMap HashMap.FsmPage}, Settles (fun result after =>
      ∃ heap', HoldsHeap heap' after ∧ post result heap') result after →
        ∃ heap', HoldsIdle heap' after ∧ post result heap' :=
    fun ⟨free, heap', related, ended⟩ => ⟨heap', ⟨free, related⟩, ended⟩
  refine wp_mono (fun result after => settled) ?_
  cases effect with
  | read rid =>
      obtain ⟨content, live, ended⟩ := asked
      exact idle_tableRead holds live ⟨_, ⟨items, holds, rfl⟩, ended⟩
  | insert src =>
      obtain ⟨nonempty, small, ended⟩ := asked
      refine idle_tableInsert holds (List.ne_nil_of_length_pos nonempty) small ?_
      intro rid after items' inserted
      exact ⟨_, ⟨items', inserted.holds, inserted.heap⟩,
        ended rid inserted.fresh inserted.nonneg.1 inserted.nonneg.2⟩
  | delete rid =>
      obtain ⟨live, ended⟩ := asked
      obtain ⟨content, bound⟩ := Option.ne_none_iff_exists'.mp live
      refine idle_tableDelete holds bound ?_
      intro after items' afterHolds final
      exact ⟨_, ⟨items', afterHolds, final⟩, ended⟩
  | dataLength =>
      have fits := asked _ holds.fits
      simp only [call, onData, pinnedTableLogic, wp_onLeft, wp_perform]
      exact rule_fileLength ⟨rfl, _, ⟨items, holds, rfl⟩, fits⟩

theorem heap_simulates :
    Logic.Simulates heapLogic (tableLogic.pull call) HoldsHeap := by
  intro β effect post heap maps related asked
  refine wp_of_idle (wp_mono ?_ (heap_simulates_idle effect post heap (idle maps) ⟨rfl, related⟩ asked))
  rintro result after ⟨heap', ⟨free, related'⟩, ended⟩
  exact ⟨free, heap', related', ended⟩

/-- Every call on a table that the heap allows runs on its pages. -/
theorem heap_simulates_pages (guard : ∀ β : Type, TableOp β → TableMaps → Prop)
    (guarded : ∀ {β : Type} (effect : TableOp β) (post : β → Heap → Prop) (heap : Heap)
      (maps : TableMaps), HoldsHeap heap maps → heapLogic.rule β effect post heap →
        guard β effect maps) :
    Logic.Simulates heapLogic (Logic.ofMeaning callMeaning guard) HoldsHeap := by
  intro β effect post heap maps related asked
  obtain ⟨result, after, ran, ended⟩ := run_of_wp_table (heap_simulates effect post heap maps related asked)
  exact ⟨guarded effect post heap maps related asked, result, after, ran, ended⟩

end Table

end MyJQL.Storage
