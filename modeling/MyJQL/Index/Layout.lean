import MyJQL.Index.NodeSpec
import MyJQL.Library.Linked
import MyJQL.Library.SearchTree

/-!
# The pages of an index file

A layout says what the pages of an index file are: page 0 is the control block, and every
other page is a node, a page that has been taken and not yet written, or an element of
the free list, exactly one of these and once.
-/

namespace MyJQL.Index

open Library Storage

/-- A node page: its address, its entries and the addresses of its children. -/
abbrev NodeDesc : Type := Node Int RID

structure Layout where
  root : Int
  nodes : Multiset NodeDesc
  taken : Multiset Int
  free : List Int

/-- The pages other than the control block. -/
def Layout.pages (layout : Layout) : Multiset Int :=
  layout.nodes.map Node.addr + layout.taken + layout.free

/-- The node is stored at its address. -/
def StoredAt (map : PageMap IndexPage) (desc : NodeDesc) : Prop :=
  ∃ node, map.page desc.addr = .node node ∧ NodeIs node desc.leaf desc.rows desc.kids

/-- The field `next` of a node page. -/
def nextOf (map : PageMap IndexPage) (addr : Int) : Int :=
  match map.page addr with
  | .node node => node.next
  | _ => -1

structure Lays (map : PageMap IndexPage) (layout : Layout) : Prop where
  ctrl : ∃ head, map.page 0 = .ctrl ⟨layout.root, head⟩ ∧ Linked (-1) (nextOf map) head layout.free
  stored : ∀ desc ∈ layout.nodes, StoredAt map desc
  opened : ∀ addr ∈ layout.taken, ∃ node, (map.page addr).asNode = some node
  freed : ∀ addr ∈ layout.free, ∃ node, map.page addr = .node node
  distinct : layout.pages.Nodup
  covers : ∀ addr, addr ∈ layout.pages ↔ map.InFile addr ∧ addr ≠ 0
  whole : map.length % pageSize = 0
  positive : 0 < map.length

/-- The third group of nodes comes first. -/
theorem add_third (first second third rest : Multiset NodeDesc) :
    first + (second + (third + rest)) = third + (first + (second + rest)) := by
  abel

namespace Lays

variable {map : PageMap IndexPage} {root root' head addr : Int} {nodes : Multiset NodeDesc}
  {taken : Multiset Int} {free : List Int} {desc : NodeDesc} {node : BNode} {leaf : Bool}
  {rows : List RID} {kids : List Int}

theorem regroup {nodes' : Multiset NodeDesc} (lays : Lays map ⟨root, nodes, taken, free⟩) (same : nodes = nodes') :
    Lays map ⟨root, nodes', taken, free⟩ := same ▸ lays

theorem ctrl_inFile {layout : Layout} (lays : Lays map layout) : map.InFile 0 :=
  ⟨rfl, le_rfl, lays.positive⟩

theorem node_inFile {layout : Layout} (lays : Lays map layout) (member : desc ∈ layout.nodes) :
    map.InFile desc.addr ∧ desc.addr ≠ 0 := by
  apply (lays.covers desc.addr).mp
  have here : desc.addr ∈ layout.nodes.map Node.addr := Multiset.mem_map_of_mem _ member
  exact Multiset.mem_add.mpr (.inl (Multiset.mem_add.mpr (.inl here)))

theorem taken_inFile {layout : Layout} (lays : Lays map layout) (member : addr ∈ layout.taken) :
    map.InFile addr ∧ addr ≠ 0 := by
  apply (lays.covers addr).mp
  exact Multiset.mem_add.mpr (.inl (Multiset.mem_add.mpr (.inr member)))

theorem free_inFile {layout : Layout} (lays : Lays map layout) (member : addr ∈ layout.free) :
    map.InFile addr ∧ addr ≠ 0 := by
  apply (lays.covers addr).mp
  exact Multiset.mem_add.mpr (.inr member)

/-- There are fewer nodes than bytes in the file. -/
theorem card_nodes_le {layout : Layout} (lays : Lays map layout) : layout.nodes.card ≤ map.length.toNat := by
  have distinct : (layout.nodes.map Node.addr).Nodup := by
    refine Multiset.nodup_of_le ?_ lays.distinct
    rw [Layout.pages, add_assoc]
    exact Multiset.le_add_right _ _
  have inside : (layout.nodes.map Node.addr).toFinset ⊆ Finset.Ico 0 map.length := by
    intro addr member
    obtain ⟨desc, here, rfl⟩ := Multiset.mem_map.mp (Multiset.mem_toFinset.mp member)
    obtain ⟨-, nonneg, below⟩ := (lays.node_inFile here).1
    exact Finset.mem_Ico.mpr ⟨nonneg, below⟩
  have few := Finset.card_le_card inside
  rw [Multiset.toFinset_card_of_nodup distinct, Multiset.card_map, Int.card_Ico, sub_zero] at few
  exact few

theorem mem_front {nodes : Multiset NodeDesc} : desc ∈ {desc} + nodes :=
  Multiset.mem_add.mpr (.inl (Multiset.mem_singleton_self _))

theorem mem_second {first : NodeDesc} {nodes : Multiset NodeDesc} : desc ∈ {first} + ({desc} + nodes) :=
  Multiset.mem_add.mpr (.inr mem_front)

theorem mem_third {first second : NodeDesc} {nodes : Multiset NodeDesc} :
    desc ∈ {first} + ({second} + ({desc} + nodes)) :=
  Multiset.mem_add.mpr (.inr mem_second)

/-- Two nodes of a layout have different addresses. -/
theorem apart {others : Multiset NodeDesc} {first second : NodeDesc}
    (lays : Lays map ⟨root, nodes + others, taken, free⟩) (member : first ∈ nodes) (member' : second ∈ others) :
    first.addr ≠ second.addr := by
  intro same
  have distinct := lays.distinct
  simp only [Layout.pages, Multiset.map_add] at distinct
  rw [add_assoc, Multiset.nodup_add, Multiset.nodup_add] at distinct
  refine Multiset.disjoint_left.mp distinct.1.2.2 (Multiset.mem_map_of_mem _ member) ?_
  rw [same]
  exact Multiset.mem_map_of_mem _ member'

/-- A page outside the list of free pages is not the one the list runs through. -/
theorem nextOf_store {page : IndexPage} {other : Int} (different : other ≠ addr) :
    nextOf (map.store addr page) other = nextOf map other := by
  unfold nextOf
  rw [PageMap.store_page_of_ne _ _ different]

theorem storedAt_store {page : IndexPage} (different : desc.addr ≠ addr) (stored : StoredAt map desc) :
    StoredAt (map.store addr page) desc := by
  obtain ⟨node, content, is⟩ := stored
  exact ⟨node, (PageMap.store_page_of_ne _ _ different).trans content, is⟩

/-- The control block is written: another root, and a head of the same free list. -/
theorem store_root (lays : Lays map ⟨root, nodes, taken, free⟩)
    (content : map.page 0 = .ctrl ⟨root, head⟩) :
    Lays (map.store 0 (.ctrl ⟨root', head⟩)) ⟨root', nodes, taken, free⟩ where
  ctrl := by
    obtain ⟨first, same, linked⟩ := lays.ctrl
    rw [content] at same
    cases same
    refine ⟨head, PageMap.store_page_self _ _ _, ?_⟩
    exact linked.congr fun cell member => nextOf_store (lays.free_inFile member).2
  stored desc member := storedAt_store (lays.node_inFile member).2 (lays.stored desc member)
  opened addr member := by
    rw [PageMap.store_page_of_ne _ _ (lays.taken_inFile member).2]
    exact lays.opened addr member
  freed addr member := by
    obtain ⟨node, content⟩ := lays.freed addr member
    exact ⟨node, (PageMap.store_page_of_ne _ _ (lays.free_inFile member).2).trans content⟩
  distinct := lays.distinct
  covers := lays.covers
  whole := lays.whole
  positive := lays.positive

/-- A page that has been taken is in no other part of the layout. -/
theorem taken_fresh (lays : Lays map ⟨root, nodes, {addr} + taken, free⟩) :
    addr ≠ 0 ∧ (∀ desc ∈ nodes, desc.addr ≠ addr) ∧ ∀ other ∈ free, other ≠ addr := by
  have split : Layout.pages ⟨root, nodes, {addr} + taken, free⟩ =
      addr ::ₘ (nodes.map Node.addr + taken + free) := by
    simp only [Layout.pages, ← Multiset.singleton_add]
    abel
  have distinct := lays.distinct
  rw [split, Multiset.nodup_cons] at distinct
  refine ⟨(lays.taken_inFile (Multiset.mem_add.mpr (.inl (Multiset.mem_singleton_self _)))).2, ?_, ?_⟩
  · rintro desc member rfl
    have here : desc.addr ∈ nodes.map Node.addr := Multiset.mem_map_of_mem _ member
    exact distinct.1 (Multiset.mem_add.mpr (.inl (Multiset.mem_add.mpr (.inl here))))
  · rintro other member rfl
    exact distinct.1 (Multiset.mem_add.mpr (.inr member))

/-- A page that has been taken may be written. -/
theorem store_taken (lays : Lays map ⟨root, nodes, {addr} + taken, free⟩) (node : BNode) :
    Lays (map.store addr (.node node)) ⟨root, nodes, {addr} + taken, free⟩ := by
  obtain ⟨notZero, notNode, notFree⟩ := lays.taken_fresh
  refine ⟨?_, ?_, ?_, ?_, lays.distinct, lays.covers, lays.whole, lays.positive⟩
  · obtain ⟨head, content, linked⟩ := lays.ctrl
    refine ⟨head, (PageMap.store_page_of_ne _ _ notZero.symm).trans content, ?_⟩
    exact linked.congr fun cell member => nextOf_store (notFree cell member)
  · exact fun desc member => storedAt_store (notNode desc member) (lays.stored desc member)
  · intro other member
    by_cases same : other = addr
    · rw [same, PageMap.store_page_self]
      exact ⟨node, rfl⟩
    · rw [PageMap.store_page_of_ne _ _ same]
      exact lays.opened other member
  · intro other member
    obtain ⟨node, content⟩ := lays.freed other member
    exact ⟨node, (PageMap.store_page_of_ne _ _ (notFree other member)).trans content⟩

/-- A page that has been taken and written is a node. -/
theorem tie (lays : Lays map ⟨root, nodes, {addr} + taken, free⟩) (content : map.page addr = .node node)
    (is : NodeIs node leaf rows kids) :
    Lays map ⟨root, {⟨addr, leaf, rows, kids⟩} + nodes, taken, free⟩ := by
  have pages : Layout.pages ⟨root, {⟨addr, leaf, rows, kids⟩} + nodes, taken, free⟩ =
      Layout.pages ⟨root, nodes, {addr} + taken, free⟩ := by
    simp only [Layout.pages, Multiset.map_add, Multiset.map_singleton]
    abel
  have opened := fun other member => lays.opened other (Multiset.mem_add.mpr (.inr member))
  refine ⟨lays.ctrl, ?_, opened, lays.freed, pages ▸ lays.distinct, pages ▸ lays.covers, lays.whole, lays.positive⟩
  intro desc member
  rcases Multiset.mem_add.mp member with here | other
  · rw [Multiset.mem_singleton] at here
    subst here
    exact ⟨node, content, is⟩
  · exact lays.stored desc other

/-- A node is given up: its page may be written again. -/
theorem untie (lays : Lays map ⟨root, {desc} + nodes, taken, free⟩) :
    Lays map ⟨root, nodes, {desc.addr} + taken, free⟩ := by
  have pages : Layout.pages ⟨root, nodes, {desc.addr} + taken, free⟩ =
      Layout.pages ⟨root, {desc} + nodes, taken, free⟩ := by
    simp only [Layout.pages, Multiset.map_add, Multiset.map_singleton]
    abel
  refine ⟨lays.ctrl, ?_, ?_, lays.freed, pages ▸ lays.distinct, pages ▸ lays.covers, lays.whole, lays.positive⟩
  · exact fun other member => lays.stored other (Multiset.mem_add.mpr (.inr member))
  · intro other member
    rcases Multiset.mem_add.mp member with here | old
    · obtain ⟨node, content, -⟩ := lays.stored desc (Multiset.mem_add.mpr (.inl (Multiset.mem_singleton_self _)))
      rw [Multiset.mem_singleton.mp here, content]
      exact ⟨node, rfl⟩
    · exact lays.opened other old

/-- The first page of the free list is taken. -/
theorem take_free (lays : Lays map ⟨root, nodes, taken, addr :: free⟩) :
    map.page 0 = .ctrl ⟨root, addr⟩ ∧
      Lays (map.store 0 (.ctrl ⟨root, nextOf map addr⟩)) ⟨root, nodes, {addr} + taken, free⟩ := by
  obtain ⟨head, content, rfl, linked⟩ := lays.ctrl
  have pages : Layout.pages ⟨root, nodes, {head} + taken, free⟩ =
      Layout.pages ⟨root, nodes, taken, head :: free⟩ := by
    simp only [Layout.pages, ← Multiset.cons_coe, ← Multiset.singleton_add]
    abel
  refine ⟨content, ?_, ?_, ?_, ?_, pages ▸ lays.distinct, pages ▸ lays.covers, lays.whole, lays.positive⟩
  · refine ⟨_, PageMap.store_page_self _ _ _, ?_⟩
    exact linked.congr fun cell member => nextOf_store (lays.free_inFile (List.mem_cons_of_mem _ member)).2
  · exact fun desc member => storedAt_store (lays.node_inFile member).2 (lays.stored desc member)
  · intro other member
    rcases Multiset.mem_add.mp member with here | old
    · obtain ⟨node, stored⟩ := lays.freed head List.mem_cons_self
      rw [Multiset.mem_singleton.mp here, PageMap.store_page_of_ne _ _ (lays.free_inFile List.mem_cons_self).2, stored]
      exact ⟨node, rfl⟩
    · rw [PageMap.store_page_of_ne _ _ (lays.taken_inFile old).2]
      exact lays.opened other old
  · intro other member
    obtain ⟨node, content⟩ := lays.freed other (List.mem_cons_of_mem _ member)
    have notZero := (lays.free_inFile (List.mem_cons_of_mem _ member)).2
    exact ⟨node, (PageMap.store_page_of_ne _ _ notZero).trans content⟩

/-- A page is appended when the free list is empty. -/
theorem take_new (lays : Lays map ⟨root, nodes, taken, []⟩) :
    map.page 0 = .ctrl ⟨root, -1⟩ ∧
      Lays (map.append map.length) ⟨root, nodes, {map.length} + taken, []⟩ := by
  obtain ⟨head, content, rfl⟩ := lays.ctrl
  have outside : map.length ∉ Layout.pages ⟨root, nodes, taken, []⟩ := by
    intro member
    exact lt_irrefl _ ((lays.covers _).mp member).1.2.2
  have pages : Layout.pages ⟨root, nodes, {map.length} + taken, []⟩ =
      map.length ::ₘ Layout.pages ⟨root, nodes, taken, []⟩ := by
    simp only [Layout.pages, ← Multiset.singleton_add]
    abel
  have positive := lays.positive
  have whole := lays.whole
  refine ⟨content, ⟨-1, ?_, rfl⟩, ?_, ?_, fun _ member => absurd member List.not_mem_nil, ?_, ?_, ?_, ?_⟩
  · exact (PageMap.append_page_of_ne _ positive.ne).trans content
  · intro desc member
    obtain ⟨node, content, is⟩ := lays.stored desc member
    have below : desc.addr ≠ map.length := (lays.node_inFile member).1.2.2.ne
    exact ⟨node, (PageMap.append_page_of_ne _ below).trans content, is⟩
  · intro other member
    rcases Multiset.mem_add.mp member with here | old
    · rw [Multiset.mem_singleton.mp here, PageMap.append_page_self]
      exact ⟨zeroNode, rfl⟩
    · rw [PageMap.append_page_of_ne _ (lays.taken_inFile old).1.2.2.ne]
      exact lays.opened other old
  · rw [pages, Multiset.nodup_cons]
    exact ⟨outside, lays.distinct⟩
  · intro other
    rw [pages, Multiset.mem_cons, lays.covers other]
    simp only [PageMap.InFile, PageMap.append_length, pageSize] at *
    omega
  · simp only [PageMap.append_length, pageSize] at *
    omega
  · simp only [PageMap.append_length, pageSize]
    omega

/-- A page that has been given up, and whose `next` is the free list, is put in front of it. -/
theorem give (lays : Lays map ⟨root, nodes, {addr} + taken, free⟩) (control : map.page 0 = .ctrl ⟨root, head⟩)
    (content : map.page addr = .node node) (next : node.next = head) :
    Lays (map.store 0 (.ctrl ⟨root, addr⟩)) ⟨root, nodes, taken, addr :: free⟩ := by
  have pages : Layout.pages ⟨root, nodes, taken, addr :: free⟩ =
      Layout.pages ⟨root, nodes, {addr} + taken, free⟩ := by
    simp only [Layout.pages, ← Multiset.cons_coe, ← Multiset.singleton_add]
    abel
  obtain ⟨notZero, -, -⟩ := lays.taken_fresh
  refine ⟨?_, ?_, ?_, ?_, pages ▸ lays.distinct, pages ▸ lays.covers, lays.whole, lays.positive⟩
  · obtain ⟨first, same, linked⟩ := lays.ctrl
    rw [control] at same
    cases same
    refine ⟨addr, PageMap.store_page_self _ _ _, rfl, ?_⟩
    have after : nextOf (map.store 0 (.ctrl ⟨root, addr⟩)) addr = head := by
      rw [nextOf_store notZero, nextOf, content]
      exact next
    rw [after]
    exact linked.congr fun cell member => nextOf_store (lays.free_inFile member).2
  · exact fun desc member => storedAt_store (lays.node_inFile member).2 (lays.stored desc member)
  · intro other member
    have taken' : other ∈ {addr} + taken := Multiset.mem_add.mpr (.inr member)
    rw [PageMap.store_page_of_ne _ _ (lays.taken_inFile taken').2]
    exact lays.opened other taken'
  · intro other member
    cases member with
    | head => exact ⟨node, (PageMap.store_page_of_ne _ _ notZero).trans content⟩
    | tail _ member =>
        obtain ⟨node, content⟩ := lays.freed other member
        exact ⟨node, (PageMap.store_page_of_ne _ _ (lays.free_inFile member).2).trans content⟩

end Lays

end MyJQL.Index
