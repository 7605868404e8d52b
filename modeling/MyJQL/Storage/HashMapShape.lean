import MyJQL.Library.Linked
import MyJQL.Storage.HashMap

/-!
# The shape of the free-space map

`Shape` says how the pages spell one chain of bucket blocks for every directory
entry and one list of free blocks, each bucket page belonging to exactly one of
them. The edits below are the ways `hash_map.c` changes the pages: a block is
put in front of a chain, its entries are rewritten, or it moves to the free list.
-/

namespace MyJQL.Storage.HashMap

open Library

/-- The directory entry of a size. -/
def entry (map : PageMap FsmPage) (size : Nat) : Int :=
  (map.page (dirAddrOf size)).directory (size % dirBlockSize)

/-- The addresses stored in a bucket block. -/
def items (page : FsmPage) : List Int :=
  (List.range page.nItems.toNat).map page.table

/-- The addresses stored along the chain of a size. -/
def contents (map : PageMap FsmPage) (chain : Nat → List Int) (size : Nat) : List Int :=
  (chain size).flatMap fun addr => items (map.page addr)

/-- All the bucket pages, with multiplicity. -/
def owned (blocks : Nat) (chain : Nat → List Int) (free : List Int) : Multiset Int :=
  (free : Multiset Int) + ∑ size ∈ Finset.range (dirBlockSize * blocks), (chain size : Multiset Int)

structure Shape (blocks : Nat) (map : PageMap FsmPage) (chain : Nat → List Int)
    (free : List Int) : Prop where
  directories : (map.page 0).nDirectoryBlocks = blocks
  freeLinked : Linked (-1) (fun addr => (map.page addr).next) (map.page 0).freeBlockHead free
  chainLinked : ∀ size < dirBlockSize * blocks,
    Linked (-1) (fun addr => (map.page addr).next) (entry map size) (chain size)
  distinct : (owned blocks chain free).Nodup
  mem_owned : ∀ addr, addr ∈ owned blocks chain free ↔
    addr % pageSize = 0 ∧ (blocks + 1) * pageSize ≤ addr ∧ addr < (map.page 0).maxSize
  chainItems : ∀ size < dirBlockSize * blocks, ∀ addr ∈ chain size,
    1 ≤ (map.page addr).nItems ∧ (map.page addr).nItems ≤ blockSize
  freeItems : ∀ addr ∈ free, (map.page addr).nItems = 0
  maxAligned : (map.page 0).maxSize % pageSize = 0
  maxAbove : (blocks + 1) * pageSize ≤ (map.page 0).maxSize
  maxBelow : (map.page 0).maxSize ≤ map.length
  lengthAligned : map.length % pageSize = 0

/-! ## Addresses -/

theorem dirAddrOf_aligned (size : Nat) : dirAddrOf size % pageSize = 0 := by
  simp only [dirAddrOf, pageSize, dirBlockSize]
  omega

theorem dirAddrOf_pos (size : Nat) : pageSize ≤ dirAddrOf size := by
  simp only [dirAddrOf, pageSize, dirBlockSize]
  omega

theorem dirAddrOf_lt {blocks size : Nat} (small : size < dirBlockSize * blocks) :
    dirAddrOf size < (blocks + 1) * pageSize := by
  simp only [dirAddrOf, pageSize, dirBlockSize] at small ⊢
  omega

@[simp]
theorem set_word_self (page : FsmPage) (index : Nat) (value : Int) :
    (page.set index value).word index = value := Function.update_self ..

theorem set_word_of_ne (page : FsmPage) {index other : Nat} (value : Int) (different : other ≠ index) :
    (page.set index value).word other = page.word other := Function.update_of_ne different ..

/-- Rewriting one directory entry leaves the entries of the other sizes. -/
theorem entry_of_ne {map map' : PageMap FsmPage} {size other : Nat} {value : Int}
    (written : map'.page (dirAddrOf size) =
      (map.page (dirAddrOf size)).set (size % dirBlockSize) value)
    (kept : dirAddrOf other ≠ dirAddrOf size →
      map'.page (dirAddrOf other) = map.page (dirAddrOf other))
    (different : other ≠ size) : entry map' other = entry map other := by
  unfold entry
  by_cases same : dirAddrOf other = dirAddrOf size
  · have remainder : other % dirBlockSize ≠ size % dirBlockSize := by
      simp only [dirAddrOf, pageSize, dirBlockSize] at same ⊢
      omega
    rw [same, written]
    exact set_word_of_ne _ _ remainder
  · rw [kept same]

theorem entry_self {map map' : PageMap FsmPage} {size : Nat} {value : Int}
    (written : map'.page (dirAddrOf size) =
      (map.page (dirAddrOf size)).set (size % dirBlockSize) value) :
    entry map' size = value := by
  unfold entry
  rw [written]
  exact set_word_self _ _ _

/-! ## Ownership -/

section Owned

variable {blocks size : Nat} {chain : Nat → List Int} {free : List Int} {addr : Int}

/-- Replacing one chain and the free list, the other chains being a common remainder. -/
theorem owned_split (chain : Nat → List Int) (free : List Int)
    (small : size < dirBlockSize * blocks) :
    ∃ rest : Multiset Int, (∀ cells free' : List Int,
      owned blocks (Function.update chain size cells) free' = ↑free' + (↑cells + rest)) ∧
      owned blocks chain free = ↑free + (↑(chain size) + rest) := by
  have member : size ∈ Finset.range (dirBlockSize * blocks) := Finset.mem_range.mpr small
  refine ⟨∑ other ∈ (Finset.range (dirBlockSize * blocks)).erase size, (chain other : Multiset Int),
    ?_, ?_⟩
  · intro cells free'
    unfold owned
    rw [← Finset.add_sum_erase _ _ member, Function.update_self]
    congr 2
    apply Finset.sum_congr rfl
    intro other otherMember
    rw [Function.update_of_ne (Finset.ne_of_mem_erase otherMember)]
  · unfold owned
    rw [← Finset.add_sum_erase _ _ member]

theorem mem_owned_of_chain (free : List Int) (small : size < dirBlockSize * blocks)
    (member : addr ∈ chain size) :
    addr ∈ owned blocks chain free := by
  unfold owned
  rw [Multiset.mem_add, Multiset.mem_sum]
  exact Or.inr ⟨size, Finset.mem_range.mpr small, member⟩

theorem mem_owned_of_free (member : addr ∈ free) : addr ∈ owned blocks chain free := by
  unfold owned
  exact Multiset.mem_add.mpr (Or.inl member)

theorem mem_owned_iff : addr ∈ owned blocks chain free ↔
    addr ∈ free ∨ ∃ size < dirBlockSize * blocks, addr ∈ chain size := by
  unfold owned
  rw [Multiset.mem_add, Multiset.mem_sum]
  simp only [Multiset.mem_coe, Finset.mem_range]

variable (distinct : (owned blocks chain free).Nodup)
include distinct

theorem chain_nodup (small : size < dirBlockSize * blocks) : (chain size).Nodup := by
  obtain ⟨rest, -, split⟩ := owned_split chain free small
  rw [split] at distinct
  have inner := (Multiset.nodup_add.mp distinct).2.1
  exact Multiset.coe_nodup.mp (Multiset.nodup_add.mp inner).1

theorem free_nodup : free.Nodup :=
  Multiset.coe_nodup.mp (Multiset.nodup_add.mp distinct).1

theorem not_free_of_chain (small : size < dirBlockSize * blocks) (member : addr ∈ chain size) :
    addr ∉ free := by
  obtain ⟨rest, -, split⟩ := owned_split chain free small
  rw [split] at distinct
  intro freeMember
  exact Multiset.disjoint_left.mp (Multiset.nodup_add.mp distinct).2.2 freeMember
    (Multiset.mem_add.mpr (Or.inl member))

theorem not_chain_of_chain {other : Nat} (small : size < dirBlockSize * blocks)
    (otherSmall : other < dirBlockSize * blocks) (different : other ≠ size)
    (member : addr ∈ chain size) : addr ∉ chain other := by
  have sizeMember : size ∈ Finset.range (dirBlockSize * blocks) := Finset.mem_range.mpr small
  have otherMember : other ∈ (Finset.range (dirBlockSize * blocks)).erase size :=
    Finset.mem_erase.mpr ⟨different, Finset.mem_range.mpr otherSmall⟩
  have chains := (Multiset.nodup_add.mp distinct).2.1
  rw [← Finset.add_sum_erase _ _ sizeMember] at chains
  intro inOther
  exact Multiset.disjoint_left.mp (Multiset.nodup_add.mp chains).2.2 member
    (Multiset.mem_sum.mpr ⟨other, otherMember, inOther⟩)

end Owned

namespace Shape

variable {blocks size : Nat} {map map' : PageMap FsmPage} {chain : Nat → List Int}
  {free : List Int} {addr : Int} {page : FsmPage}

theorem inFile (shape : Shape blocks map chain free) (member : addr ∈ owned blocks chain free) :
    map.InFile addr := by
  obtain ⟨aligned, above, below⟩ := (shape.mem_owned addr).mp member
  have bound := shape.maxBelow
  simp only [PageMap.InFile, pageSize] at *
  omega

theorem ctrl_inFile (shape : Shape blocks map chain free) : map.InFile 0 := by
  have above := shape.maxAbove
  have below := shape.maxBelow
  simp only [PageMap.InFile, pageSize] at *
  omega

theorem dir_inFile (shape : Shape blocks map chain free) (small : size < dirBlockSize * blocks) :
    map.InFile (dirAddrOf size) := by
  have above := shape.maxAbove
  have below := shape.maxBelow
  have aligned := dirAddrOf_aligned size
  have positive := dirAddrOf_pos size
  have bound := dirAddrOf_lt small
  simp only [PageMap.InFile, pageSize] at *
  omega

theorem ne_ctrl (shape : Shape blocks map chain free) (member : addr ∈ owned blocks chain free) :
    addr ≠ 0 := by
  obtain ⟨-, above, -⟩ := (shape.mem_owned addr).mp member
  simp only [pageSize] at above
  omega

theorem ne_dir (shape : Shape blocks map chain free) (member : addr ∈ owned blocks chain free)
    (small : size < dirBlockSize * blocks) : addr ≠ dirAddrOf size := by
  obtain ⟨-, above, -⟩ := (shape.mem_owned addr).mp member
  have bound := dirAddrOf_lt small
  simp only [pageSize] at above bound
  omega

theorem ne_null (shape : Shape blocks map chain free) (member : addr ∈ owned blocks chain free) :
    addr ≠ -1 := by
  obtain ⟨-, above, -⟩ := (shape.mem_owned addr).mp member
  simp only [pageSize] at above
  omega

theorem dir_ne_ctrl (size : Nat) : dirAddrOf size ≠ 0 := by
  have positive := dirAddrOf_pos size
  simp only [pageSize] at positive
  omega

theorem max_ne_ctrl (shape : Shape blocks map chain free) : (map.page 0).maxSize ≠ 0 := by
  have above := shape.maxAbove
  simp only [pageSize] at above
  omega

theorem max_ne_dir (shape : Shape blocks map chain free) (small : size < dirBlockSize * blocks) :
    (map.page 0).maxSize ≠ dirAddrOf size := by
  have above := shape.maxAbove
  have bound := dirAddrOf_lt small
  omega

theorem max_not_mem (shape : Shape blocks map chain free) :
    (map.page 0).maxSize ∉ owned blocks chain free := by
  intro member
  exact lt_irrefl _ ((shape.mem_owned _).mp member).2.2

theorem chain_eq_nil_iff (shape : Shape blocks map chain free) (small : size < dirBlockSize * blocks) :
    chain size = [] ↔ entry map size = -1 :=
  (shape.chainLinked size small).eq_nil_iff
    fun _ member => shape.ne_null (mem_owned_of_chain _ small member)

/-- Appending a page past all the blocks changes nothing. -/
theorem grow (shape : Shape blocks map chain free)
    (kept : ∀ other < (map.page 0).maxSize, map'.page other = map.page other)
    (longer : map.length ≤ map'.length) (lengthAligned : map'.length % pageSize = 0) :
    Shape blocks map' chain free := by
  have above := shape.maxAbove
  have ctrlKept : map'.page 0 = map.page 0 := by
    refine kept 0 ?_
    simp only [pageSize] at above
    omega
  have cellKept : ∀ cell ∈ owned blocks chain free, map'.page cell = map.page cell :=
    fun cell member => kept cell ((shape.mem_owned cell).mp member).2.2
  refine ⟨?_, ?_, ?_, shape.distinct, ?_, ?_, ?_, ?_, ?_, ?_, lengthAligned⟩
  · rw [ctrlKept]
    exact shape.directories
  · rw [ctrlKept]
    exact shape.freeLinked.congr fun cell member => by rw [cellKept cell (mem_owned_of_free member)]
  · intro size small
    have entryKept : entry map' size = entry map size := by
      unfold entry
      rw [kept _ (lt_of_lt_of_le (dirAddrOf_lt small) above)]
    rw [entryKept]
    exact (shape.chainLinked size small).congr fun cell member => by
      rw [cellKept cell (mem_owned_of_chain _ small member)]
  · rw [ctrlKept]
    exact shape.mem_owned
  · intro size small cell member
    rw [cellKept cell (mem_owned_of_chain _ small member)]
    exact shape.chainItems size small cell member
  · intro cell member
    rw [cellKept cell (mem_owned_of_free member)]
    exact shape.freeItems cell member
  · rw [ctrlKept]
    exact shape.maxAligned
  · rw [ctrlKept]
    exact shape.maxAbove
  · rw [ctrlKept]
    exact le_trans shape.maxBelow longer

/-- New entries in a block, its link kept. -/
theorem rewrite (shape : Shape blocks map chain free) (small : size < dirBlockSize * blocks)
    (member : addr ∈ chain size) (sameNext : page.next = (map.page addr).next)
    (count : 1 ≤ page.nItems ∧ page.nItems ≤ blockSize) :
    Shape blocks (map.store addr page) chain free := by
  have isOwned := mem_owned_of_chain free small member
  have ctrlKept : (map.store addr page).page 0 = map.page 0 :=
    map.store_page_of_ne page (shape.ne_ctrl isOwned).symm
  have nextKept : ∀ other, ((map.store addr page).page other).next = (map.page other).next := by
    intro other
    by_cases same : other = addr
    · rw [same, PageMap.store_page_self, sameNext]
    · rw [map.store_page_of_ne page same]
  refine ⟨?_, ?_, ?_, shape.distinct, ?_, ?_, ?_, ?_, ?_, ?_, shape.lengthAligned⟩
  · rw [ctrlKept]
    exact shape.directories
  · rw [ctrlKept]
    exact shape.freeLinked.congr fun other _ => nextKept other
  · intro other otherSmall
    have kept : entry (map.store addr page) other = entry map other := by
      unfold entry
      rw [map.store_page_of_ne page (shape.ne_dir isOwned otherSmall).symm]
    rw [kept]
    exact (shape.chainLinked other otherSmall).congr fun cell _ => nextKept cell
  · rw [ctrlKept]
    exact shape.mem_owned
  · intro other otherSmall cell cellMember
    by_cases same : cell = addr
    · rw [same, PageMap.store_page_self]
      exact count
    · rw [map.store_page_of_ne page same]
      exact shape.chainItems other otherSmall cell cellMember
  · intro cell cellMember
    have different : cell ≠ addr := by
      intro same
      exact not_free_of_chain shape.distinct small member (same ▸ cellMember)
    rw [map.store_page_of_ne page different]
    exact shape.freeItems cell cellMember
  · rw [ctrlKept]
    exact shape.maxAligned
  · rw [ctrlKept]
    exact shape.maxAbove
  · rw [ctrlKept]
    exact shape.maxBelow

/-- Replacing the chain of one size and the free list, all other chains kept. -/
theorem replace (shape : Shape blocks map chain free) {cells free' : List Int}
    (directories : (map'.page 0).nDirectoryBlocks = blocks)
    (freeLinked : Linked (-1) (fun addr => (map'.page addr).next) (map'.page 0).freeBlockHead free')
    (cellsLinked : Linked (-1) (fun addr => (map'.page addr).next) (entry map' size) cells)
    (entries : ∀ other < dirBlockSize * blocks, other ≠ size → entry map' other = entry map other)
    (kept : ∀ other < dirBlockSize * blocks, other ≠ size →
      ∀ cell ∈ chain other, map'.page cell = map.page cell)
    (distinct : (owned blocks (Function.update chain size cells) free').Nodup)
    (mem_owned : ∀ addr, addr ∈ owned blocks (Function.update chain size cells) free' ↔
      addr % pageSize = 0 ∧ (blocks + 1) * pageSize ≤ addr ∧ addr < (map'.page 0).maxSize)
    (cellItems : ∀ cell ∈ cells,
      1 ≤ (map'.page cell).nItems ∧ (map'.page cell).nItems ≤ blockSize)
    (freeItems : ∀ cell ∈ free', (map'.page cell).nItems = 0)
    (maxSize : (map'.page 0).maxSize % pageSize = 0 ∧ (map.page 0).maxSize ≤ (map'.page 0).maxSize ∧
      (map'.page 0).maxSize ≤ map'.length)
    (lengthAligned : map'.length % pageSize = 0) :
    Shape blocks map' (Function.update chain size cells) free' := by
  refine ⟨directories, freeLinked, ?_, distinct, mem_owned, ?_, freeItems, maxSize.1,
    le_trans shape.maxAbove maxSize.2.1, maxSize.2.2, lengthAligned⟩
  · intro other otherSmall
    by_cases same : other = size
    · rw [same, Function.update_self]
      exact cellsLinked
    · rw [Function.update_of_ne same, entries other otherSmall same]
      refine (shape.chainLinked other otherSmall).congr fun cell member => ?_
      rw [kept other otherSmall same cell member]
  · intro other otherSmall cell member
    by_cases same : other = size
    · rw [same, Function.update_self] at member
      exact cellItems cell member
    · rw [Function.update_of_ne same] at member
      rw [kept other otherSmall same cell member]
      exact shape.chainItems other otherSmall cell member

/-- The first free block becomes the first block of a chain. -/
theorem prependFree (shape : Shape blocks map chain free) (small : size < dirBlockSize * blocks)
    {free' : List Int} (first : free = addr :: free')
    (ctrl : map'.page 0 = (map.page 0).set 0 (map.page addr).next)
    (dir : map'.page (dirAddrOf size) = (map.page (dirAddrOf size)).set (size % dirBlockSize) addr)
    (link : (map'.page addr).next = entry map size) (count : (map'.page addr).nItems = 1)
    (kept : ∀ other, other ≠ 0 → other ≠ dirAddrOf size → other ≠ addr →
      map'.page other = map.page other)
    (length : map'.length = map.length) :
    Shape blocks map' (Function.update chain size (addr :: chain size)) free' := by
  subst first
  obtain ⟨rest, update, before⟩ :=
    owned_split chain (addr :: free') small
  have same : owned blocks (Function.update chain size (addr :: chain size)) free' =
      owned blocks chain (addr :: free') := by
    rw [update, before, ← Multiset.cons_coe, ← Multiset.cons_coe, Multiset.cons_add,
      Multiset.cons_add, Multiset.add_cons]
  have freeNodup := free_nodup shape.distinct
  have cellKept : ∀ cell ∈ owned blocks chain (addr :: free'), cell ≠ addr →
      map'.page cell = map.page cell := fun cell member different =>
    kept cell (shape.ne_ctrl member) (shape.ne_dir member small) different
  have chainKept : ∀ other < dirBlockSize * blocks, ∀ cell ∈ chain other,
      map'.page cell = map.page cell := by
    intro other otherSmall cell member
    refine cellKept cell (mem_owned_of_chain _ otherSmall member) ?_
    intro equal
    exact not_free_of_chain shape.distinct otherSmall member (by rw [equal]; exact List.mem_cons_self)
  have freeKept : ∀ cell ∈ free', map'.page cell = map.page cell := by
    intro cell member
    refine cellKept cell (mem_owned_of_free (List.mem_cons_of_mem _ member)) ?_
    rintro rfl
    exact (List.nodup_cons.mp freeNodup).1 member
  have ctrlSame : (map'.page 0).maxSize = (map.page 0).maxSize := by
    rw [ctrl]
    exact set_word_of_ne _ _ (by decide)
  refine shape.replace ?_ ?_ ?_ ?_ (fun other otherSmall _ => chainKept other otherSmall)
    (same ▸ shape.distinct) ?_ ?_ ?_ ?_ (length ▸ shape.lengthAligned)
  · rw [ctrl]
    exact (set_word_of_ne _ _ (by decide)).trans shape.directories
  · have head : (map'.page 0).freeBlockHead = (map.page addr).next := by
      rw [ctrl]
      exact set_word_self _ _ _
    rw [head]
    exact shape.freeLinked.2.congr fun cell member => by rw [freeKept cell member]
  · refine ⟨entry_self dir, ?_⟩
    change Linked _ _ (map'.page addr).next _
    rw [link]
    exact (shape.chainLinked size small).congr fun cell member => by
      rw [chainKept size small cell member]
  · intro other otherSmall different
    exact entry_of_ne dir (fun apart => kept _ (dir_ne_ctrl other) apart
      (shape.ne_dir (mem_owned_of_free List.mem_cons_self) otherSmall).symm) different
  · rw [same, ctrlSame]
    exact shape.mem_owned
  · intro cell member
    rcases List.mem_cons.mp member with equal | member
    · rw [equal, count]
      decide
    · rw [chainKept size small cell member]
      exact shape.chainItems size small cell member
  · intro cell member
    rw [freeKept cell member]
    exact shape.freeItems cell (List.mem_cons_of_mem _ member)
  · rw [ctrlSame, length]
    exact ⟨shape.maxAligned, le_rfl, shape.maxBelow⟩

/-- A page from the end of the file becomes the first block of a chain. -/
theorem prependFresh (shape : Shape blocks map chain free) (small : size < dirBlockSize * blocks)
    (fresh : addr = (map.page 0).maxSize)
    (ctrl : map'.page 0 = (map.page 0).set 2 (addr + pageSize))
    (dir : map'.page (dirAddrOf size) = (map.page (dirAddrOf size)).set (size % dirBlockSize) addr)
    (link : (map'.page addr).next = entry map size) (count : (map'.page addr).nItems = 1)
    (kept : ∀ other, other ≠ 0 → other ≠ dirAddrOf size → other ≠ addr →
      map'.page other = map.page other)
    (length : addr + pageSize ≤ map'.length) (lengthAligned : map'.length % pageSize = 0) :
    Shape blocks map' (Function.update chain size (addr :: chain size)) free := by
  obtain ⟨rest, update, before⟩ := owned_split chain free small
  have grown : owned blocks (Function.update chain size (addr :: chain size)) free =
      addr ::ₘ owned blocks chain free := by
    rw [update, before, ← Multiset.cons_coe, Multiset.cons_add, Multiset.add_cons]
  have absent : addr ∉ owned blocks chain free := by
    intro member
    have below := ((shape.mem_owned addr).mp member).2.2
    omega
  have cellKept : ∀ cell ∈ owned blocks chain free, map'.page cell = map.page cell :=
    fun cell member => kept cell (shape.ne_ctrl member) (shape.ne_dir member small)
      fun same => absent (same ▸ member)
  have maxSize : (map'.page 0).maxSize = addr + pageSize := by
    rw [ctrl]
    exact set_word_self _ _ _
  have aligned := shape.maxAligned
  have above := shape.maxAbove
  refine shape.replace ?_ ?_ ?_ ?_
    (fun other otherSmall _ cell member => cellKept cell (mem_owned_of_chain _ otherSmall member))
    ?_ ?_ ?_ ?_ ?_ lengthAligned
  · rw [ctrl]
    exact (set_word_of_ne _ _ (by decide)).trans shape.directories
  · have head : (map'.page 0).freeBlockHead = (map.page 0).freeBlockHead := by
      rw [ctrl]
      exact set_word_of_ne _ _ (by decide)
    rw [head]
    exact shape.freeLinked.congr fun cell member => by
      rw [cellKept cell (mem_owned_of_free member)]
  · refine ⟨entry_self dir, ?_⟩
    change Linked _ _ (map'.page addr).next _
    rw [link]
    exact (shape.chainLinked size small).congr fun cell member => by
      rw [cellKept cell (mem_owned_of_chain _ small member)]
  · intro other otherSmall different
    refine entry_of_ne dir (fun apart => kept _ (dir_ne_ctrl other) apart ?_) different
    have bound := dirAddrOf_lt otherSmall
    omega
  · rw [grown]
    exact Multiset.nodup_cons.mpr ⟨absent, shape.distinct⟩
  · intro other
    rw [grown, Multiset.mem_cons, shape.mem_owned, maxSize, ← fresh]
    rw [← fresh] at aligned above
    simp only [pageSize] at aligned above ⊢
    omega
  · intro cell member
    rcases List.mem_cons.mp member with equal | member
    · rw [equal, count]
      decide
    · rw [cellKept cell (mem_owned_of_chain _ small member)]
      exact shape.chainItems size small cell member
  · intro cell member
    rw [cellKept cell (mem_owned_of_free member)]
    exact shape.freeItems cell member
  · rw [maxSize, ← fresh]
    rw [← fresh] at aligned
    simp only [pageSize] at aligned length ⊢
    omega

/--
A block leaves its chain for the free list. `link` and `entries` describe the
two ways of bypassing it, through the directory or through its predecessor.
-/
theorem unlink (shape : Shape blocks map chain free) (small : size < dirBlockSize * blocks)
    {before after : List Int} (place : chain size = before ++ addr :: after)
    (ctrl : map'.page 0 = (map.page 0).set 0 addr)
    (link : (map'.page addr).next = (map.page 0).freeBlockHead)
    (count : (map'.page addr).nItems = 0)
    (entries : ∀ other < dirBlockSize * blocks, other ≠ size → entry map' other = entry map other)
    (bypass : Linked (-1) (fun cell => (map'.page cell).next) (entry map' size) (before ++ after))
    (kept : ∀ cell ∈ owned blocks chain free, cell ∉ before → cell ≠ addr →
      map'.page cell = map.page cell)
    (sameItems : ∀ cell ∈ before, (map'.page cell).nItems = (map.page cell).nItems)
    (length : map'.length = map.length) :
    Shape blocks map' (Function.update chain size (before ++ after)) (addr :: free) := by
  obtain ⟨rest, update, split⟩ := owned_split chain free small
  have member : addr ∈ chain size := by
    rw [place]
    exact List.mem_append_right _ List.mem_cons_self
  have same : owned blocks (Function.update chain size (before ++ after)) (addr :: free) =
      owned blocks chain free := by
    rw [update, split, place, ← Multiset.coe_add, ← Multiset.coe_add, ← Multiset.cons_coe,
      ← Multiset.cons_coe, Multiset.cons_add, Multiset.add_cons, Multiset.cons_add,
      Multiset.add_cons]
  have beforeMember : ∀ cell ∈ before, cell ∈ chain size := by
    intro cell cellMember
    rw [place]
    exact List.mem_append_left _ cellMember
  have freeKept : ∀ cell ∈ free, map'.page cell = map.page cell := by
    intro cell cellMember
    refine kept cell (mem_owned_of_free cellMember) ?_ ?_
    · intro inBefore
      exact not_free_of_chain shape.distinct small (beforeMember cell inBefore) cellMember
    · rintro rfl
      exact not_free_of_chain shape.distinct small member cellMember
  have chainNodup := chain_nodup shape.distinct small
  rw [place] at chainNodup
  have ctrlSame : (map'.page 0).maxSize = (map.page 0).maxSize := by
    rw [ctrl]
    exact set_word_of_ne _ _ (by decide)
  refine shape.replace ?_ ?_ bypass entries ?_ (same ▸ shape.distinct) ?_ ?_ ?_ ?_
    (length ▸ shape.lengthAligned)
  · rw [ctrl]
    exact (set_word_of_ne _ _ (by decide)).trans shape.directories
  · refine ⟨by rw [ctrl]; exact set_word_self _ _ _, ?_⟩
    change Linked _ _ (map'.page addr).next _
    rw [link]
    exact shape.freeLinked.congr fun cell cellMember => by rw [freeKept cell cellMember]
  · intro other otherSmall different cell cellMember
    have elsewhere := not_chain_of_chain shape.distinct otherSmall small different.symm cellMember
    refine kept cell (mem_owned_of_chain _ otherSmall cellMember) ?_ ?_
    · exact fun inBefore => elsewhere (beforeMember cell inBefore)
    · rintro rfl
      exact elsewhere member
  · rw [same, ctrlSame]
    exact shape.mem_owned
  · intro cell cellMember
    rcases List.mem_append.mp cellMember with inBefore | inAfter
    · rw [sameItems cell inBefore]
      exact shape.chainItems size small cell (beforeMember cell inBefore)
    · have inChain : cell ∈ chain size := by
        rw [place]
        exact List.mem_append_right _ (List.mem_cons_of_mem _ inAfter)
      have apart := List.disjoint_of_nodup_append chainNodup
      have cellKept : map'.page cell = map.page cell := by
        refine kept cell (mem_owned_of_chain _ small inChain) ?_ ?_
        · exact fun inBefore => apart inBefore (List.mem_cons_of_mem _ inAfter)
        · rintro rfl
          exact (List.nodup_cons.mp (List.nodup_append.mp chainNodup).2.1).1 inAfter
      rw [cellKept]
      exact shape.chainItems size small cell inChain
  · intro cell cellMember
    rcases List.mem_cons.mp cellMember with rfl | inFree
    · exact count
    · rw [freeKept cell inFree]
      exact shape.freeItems cell inFree
  · rw [ctrlSame, length]
    exact ⟨shape.maxAligned, le_rfl, shape.maxBelow⟩

end Shape

end MyJQL.Storage.HashMap
