import MyJQL.Index.TreeRuns

/-!
# The pages of an index in a run

What the pages of the file say in every state reached: the tree that starts at `root_node`
and its shape, the separators that its nodes own, and which page is a node or free.
-/

namespace MyJQL.Index

open Library Library.Prog Storage

/-- The pages hold this tree, from the page at `root` on. -/
structure Shows {height : Nat} (map : PageMap IndexPage) (root : Int) (tree : Tree Int RID height) : Prop where
  top : tree.addr = root
  stored : ∀ desc ∈ tree.nodes, StoredAt map desc

/-- The nodes of the index: none, or those of the tree that starts at `root`. -/
inductive ShowsNodes (degree : Nat) (map : PageMap IndexPage) : Int → Multiset NodeDesc → Prop where
  | nothing : ShowsNodes degree map (-1) 0
  | tree {root : Int} {height : Nat} (tree : Tree Int RID height) (proper : root ≠ -1) (shows : Shows map root tree)
      (sized : tree.Sized degree 1) : ShowsNodes degree map root tree.nodes

/-- What stands in `row_ptr[0..n)` of the leaves. -/
def rowsOf (nodes : Multiset NodeDesc) : Multiset RID :=
  (nodes.filter fun desc => desc.leaf = true).bind fun desc => (desc.rows : Multiset RID)

/-- What stands in `row_ptr[0..n)` of the non-leaf nodes. -/
def separatorsOf (nodes : Multiset NodeDesc) : Multiset RID :=
  (nodes.filter fun desc => desc.leaf = false).bind fun desc => (desc.rows : Multiset RID)

/-- An index without rows has no separators. -/
theorem ShowsNodes.separators_eq_zero {degree : Nat} {map : PageMap IndexPage} {root : Int} {nodes : Multiset NodeDesc}
    (positive : 1 ≤ degree) (shows : ShowsNodes degree map root nodes) (empty : rowsOf nodes = 0) :
    separatorsOf nodes = 0 := by
  cases shows with
  | nothing => rfl
  | tree tree proper shows sized =>
      have some := tree.items_pos positive sized le_rfl
      rw [← tree.items_nodes sized] at some
      exact absurd (congrArg Multiset.card empty) some.ne'

/-- More rows than one leaf can have need a separator. -/
theorem ShowsNodes.separators_ne_zero {degree : Nat} {map : PageMap IndexPage} {root : Int} {nodes : Multiset NodeDesc}
    (shows : ShowsNodes degree map root nodes) (many : 2 * degree < (rowsOf nodes).card) : separatorsOf nodes ≠ 0 := by
  cases shows with
  | nothing => exact absurd many (Nat.not_lt_zero _)
  | @tree _ height tree proper shows sized =>
      have items : rowsOf tree.nodes = tree.word.items := tree.items_nodes sized
      have seps : separatorsOf tree.nodes = tree.word.seps := tree.seps_nodes sized
      rw [items] at many
      rw [seps]
      cases height with
      | zero =>
          obtain ⟨addr, rows, rfl⟩ := tree.exists_leaf
          rw [Tree.word_leaf, Word.items_rows, Multiset.coe_card] at many
          exact absurd sized.2 (not_le.mpr many)
      | succ height =>
          obtain ⟨addr, seps, kids, rfl⟩ := tree.exists_inner
          obtain ⟨⟨least, -⟩, count, -⟩ := Tree.sized_inner.mp sized
          rw [Tree.word_inner, seps_interleave count, ← Multiset.card_pos, Multiset.card_add, Multiset.coe_card]
          exact Nat.add_pos_left least _

section Pages

variable {K Q σ : Type} [LinearOrder K] {degree : Nat} {callbacks : Callbacks Q σ} {ask : Q → K} {key : RID → K}
  {contents : K → Option RID} {state : RunState σ} {word : Word RID} {final : TreeState K}

/-- The control block and the nodes of an index that stands. -/
theorem Stands.shows (stands : Stands degree word final) :
    ∃ root nodes free, Lays final.1.map ⟨root, nodes, 0, free⟩ ∧ ShowsNodes degree final.1.map root nodes ∧
      separatorsOf nodes = word.seps ∧ rowsOf nodes = word.items := by
  cases stands with
  | nothing free pins lays first sound => exact ⟨-1, 0, free, lays, .nothing, rfl, rfl⟩
  | tree tree left sized rests =>
      obtain ⟨-, ⟨free, lays⟩, -⟩ := rests
      obtain ⟨top, member, same⟩ := tree.root_mem_nodes
      have proper : tree.addr ≠ -1 := by
        have nonneg := (lays.node_inFile member).1.2.1
        omega
      exact ⟨tree.addr, tree.nodes, free, lays, .tree tree proper ⟨rfl, lays.stored⟩ sized, tree.seps_nodes sized,
        tree.items_nodes sized⟩

/--
The shape of the tree in every state reached: it is empty, or its leaves are at one depth, its
nodes have between `DEGREE` and `2 * DEGREE` entries, the root at least one, and its keys are
ordered within the nodes and around every separator.
-/
theorem tree_keeps_shape (positive : 1 ≤ degree) (lawful : callbacks.Lawful ask key)
    (reached : Reaches degree callbacks key contents state) :
    ∃ root head, state.1.map.page 0 = .ctrl ⟨root, head⟩ ∧
      (root = -1 ∨ ∃ (height : Nat) (tree : Tree Int RID height),
        Shows state.1.map root tree ∧ tree.Sized degree 1 ∧ tree.Ordered key) := by
  obtain ⟨word, world, stands, accounts, -⟩ := reached.holds positive lawful
  have sorted := stands.sound.sorted
  rw [accounts.key] at sorted
  cases stands with
  | nothing free pins lays first sound =>
      obtain ⟨head, content, -⟩ := lays.ctrl
      exact ⟨-1, head, content, .inl rfl⟩
  | tree tree left sized rests =>
      obtain ⟨-, ⟨free, lays⟩, -⟩ := rests
      obtain ⟨head, content, -⟩ := lays.ctrl
      exact ⟨tree.addr, head, content, .inr ⟨_, tree, ⟨rfl, lays.stored⟩, sized, tree.ordered_of_sorted sized sorted⟩⟩

theorem ctrlOf_eq {state : RunState Unit} {root head : Int} (content : state.1.map.page 0 = .ctrl ⟨root, head⟩) :
    ctrlOf state = some (root, head) := by
  rw [ctrlOf, content]
  rfl

/-- A tree of three levels, in which nodes have been split, merged and refilled. -/
theorem tree_keeps_shape_grown : Reaches 2 testCallbacks RID.blockAddr grownContents grown ∧
    [9, 3, 8].map (fun place => nodeRows grown (place * pageSize)) =
      [some (false, [⟨9, -1⟩]), some (false, [⟨5, -1⟩, ⟨7, -1⟩]), some (false, [⟨11, -1⟩, ⟨13, -1⟩])] ∧
      ∃ (height : Nat) (tree : Tree Int RID height),
        Shows grown.1.map (9 * pageSize) tree ∧ tree.Sized 2 1 ∧ tree.Ordered RID.blockAddr := by
  obtain ⟨root, head, content, shape⟩ := tree_keeps_shape (by decide) testCallbacks_lawful grown_reached
  obtain ⟨rfl, rfl⟩ := Prod.mk.inj (Option.some.inj ((ctrlOf_eq content).symm.trans grown_ctrl))
  exact ⟨grown_reached, grown_inner, shape.resolve_left (by decide)⟩

/--
The separators are what the handlers made and did not take back: in every state reached the
non-leaf nodes hold what `insert_handler` has returned less what `delete_handler` was given,
and an operation gives `delete_handler` only what is owed to it, out of a non-leaf node.
-/
theorem separators_are_owed (positive : 1 ≤ degree) (lawful : callbacks.Lawful ask key)
    (reached : Reaches degree callbacks key contents state) :
    (∃ root head nodes, state.1.map.page 0 = .ctrl ⟨root, head⟩ ∧ ShowsNodes degree state.1.map root nodes ∧
      state.2.freed ≤ state.2.made ∧ separatorsOf nodes = state.2.made - state.2.freed) ∧
      (∀ rid, contents (key rid) = none → (bTreeInsert degree rid).Always (treeMeaning callbacks) HandlersKept state) ∧
      ∀ rid, contents (key rid) ≠ none → (bTreeDelete degree rid).Always (treeMeaning callbacks) HandlersKept state := by
  have holds := reached.holds positive lawful
  refine ⟨?_, ?_, ?_⟩
  · obtain ⟨word, world, stands, accounts, -⟩ := holds
    obtain ⟨root, nodes, free, lays, shows, separators, -⟩ := stands.shows
    obtain ⟨head, content, -⟩ := lays.ctrl
    have owed : world.owed = word.seps := stands.sound.owed.trans (zero_add _)
    have made : state.2.made = state.2.freed + word.seps := owed ▸ accounts.owed
    refine ⟨root, head, nodes, content, shows, ?_, ?_⟩
    · rw [made]
      exact Multiset.le_add_right _ _
    · rw [separators, made, add_tsub_cancel_left]
  · intro rid absent
    exact (run_bTreeInsert positive lawful holds absent).2.imp fun _ _ _ guard => guard.2.2
  · intro rid present
    exact (run_bTreeDelete positive lawful holds present).2.imp fun _ _ _ guard => guard.2.2

/--
Of six separators made one has been deleted; the insertion makes another one, and the deletion
deletes one.
-/
theorem separators_are_owed_grown : Reaches 2 testCallbacks RID.blockAddr grownContents grown ∧
    (∃ nodes, ShowsNodes 2 grown.1.map (9 * pageSize) nodes ∧ grown.2.freed ≤ grown.2.made ∧
      separatorsOf nodes = grown.2.made - grown.2.freed ∧ (separatorsOf nodes).card = 5) ∧
      ((bTreeInsert 2 ⟨17, 0⟩).Always (treeMeaning testCallbacks) HandlersKept grown ∧
        ((bTreeInsert 2 ⟨17, 0⟩).run (treeMeaning testCallbacks) grown).map
          (fun result => (ctrlOf result.2, copiesOf result.2)) = some (some (9 * pageSize, -1), 7, 1)) ∧
      (bTreeDelete 2 ⟨6, 0⟩).Always (treeMeaning testCallbacks) HandlersKept grown ∧
        ((bTreeDelete 2 ⟨6, 0⟩).run (treeMeaning testCallbacks) grown).map
          (fun result => (ctrlOf result.2, copiesOf result.2)) = some (some (3 * pageSize, 9 * pageSize), 6, 2) := by
  obtain ⟨⟨root, head, nodes, content, shows, less, same⟩, insert, delete⟩ :=
    separators_are_owed (by decide) testCallbacks_lawful grown_reached
  obtain ⟨rfl, rfl⟩ := Prod.mk.inj (Option.some.inj ((ctrlOf_eq content).symm.trans grown_ctrl))
  obtain ⟨made, freed⟩ := grown_copies
  have card : (separatorsOf nodes).card = 5 := by
    rw [same, Multiset.card_sub less, made, freed]
  exact ⟨grown_reached, ⟨nodes, shows, less, same, card⟩, ⟨insert ⟨17, 0⟩ grownContents_absent, grown_insert⟩,
    delete ⟨6, 0⟩ grownContents_present, grown_delete⟩

end Pages

/-! ## Paths to a node -/

/-- The path of child pointers from one page to another, through pages of the file. -/
inductive Leads (map : PageMap IndexPage) : Int → List Nat → Int → Prop where
  | here {addr : Int} (inside : map.InFile addr) : Leads map addr [] addr
  | child {addr target : Int} {node : BNode} {index : Nat} {path : List Nat} (inside : map.InFile addr)
      (content : map.page addr = .node node) (inner : node.leaf = false) (bound : index ≤ node.n)
      (rest : Leads map (node.child index) path target) : Leads map addr (index :: path) target

section Paths

variable {map : PageMap IndexPage} {height : Nat} {degree low : Nat} {kids : List (Tree Int RID height)}
  {target : Int} {path path' : List Nat}

/-- The nodes of a child are among those of all children. -/
theorem kid_nodes {kid : Tree Int RID height} (member : kid ∈ kids) : kid.nodes ≤ Tree.nodesOf kids := by
  obtain ⟨before, after, rfl⟩ := List.append_of_mem member
  rw [Tree.nodesOf_append, Tree.nodesOf_cons]
  exact le_trans (Multiset.le_add_right _ _) (Multiset.le_add_left _ _)

/-- A page of two children of one node is one of the same child. -/
theorem kid_unique {first second : Tree Int RID height} {index index' : Nat}
    (distinct : ((Tree.nodesOf kids).map Node.addr).Nodup) (found : kids[index]? = some first)
    (found' : kids[index']? = some second) (member : target ∈ first.nodes.map Node.addr)
    (member' : target ∈ second.nodes.map Node.addr) : index = index' := by
  induction kids generalizing index index' with
  | nil => cases found
  | cons kid kids ih =>
      rw [Tree.nodesOf_cons, Multiset.map_add, Multiset.nodup_add] at distinct
      have inRest : ∀ {other : Tree Int RID height} {place : Nat}, kids[place]? = some other →
          target ∈ other.nodes.map Node.addr → target ∈ (Tree.nodesOf kids).map Node.addr := by
        intro other place here there
        exact Multiset.mem_of_le (Multiset.map_le_map (kid_nodes (List.mem_of_getElem? here))) there
      cases index with
      | zero =>
          cases found
          cases index' with
          | zero => rfl
          | succ index' => exact absurd (inRest found' member') (Multiset.disjoint_left.mp distinct.2.2 member)
      | succ index =>
          cases index' with
          | zero =>
              cases found'
              exact absurd (inRest found member) (Multiset.disjoint_left.mp distinct.2.2 member')
          | succ index' => exact congrArg Nat.succ (ih distinct.2.1 found found')

/-- No path goes on from a leaf. -/
theorem Leads.of_leaf {addr : Int} {rows : List RID} {kids : List Int} (stored : StoredAt map ⟨addr, true, rows, kids⟩)
    (leads : Leads map addr path target) : path = [] ∧ target = addr := by
  obtain ⟨node, content, is⟩ := stored
  cases leads with
  | here inside => exact ⟨rfl, rfl⟩
  | child inside content' inner bound rest =>
      rw [content] at content'
      cases content'
      exact absurd (is.kind.symm.trans inner) Bool.noConfusion

/-- A path from a non-leaf node goes on from one of its children. -/
theorem Leads.of_inner {addr : Int} {seps : List RID} {index : Nat} (count : kids.length = seps.length + 1)
    (stored : StoredAt map ⟨addr, false, seps, kids.map Tree.addr⟩) (leads : Leads map addr (index :: path) target) :
    ∃ kid, kids[index]? = some kid ∧ Leads map kid.addr path target := by
  obtain ⟨node, content, is⟩ := stored
  cases leads with
  | child inside content' inner bound rest =>
      rw [content] at content'
      cases content'
      have short : index < kids.length := by
        rw [count, ← is.count]
        exact Nat.lt_succ_of_le bound
      refine ⟨kids[index], List.getElem?_eq_getElem short, ?_⟩
      have child := is.kids index (by rw [List.length_map]; exact short)
      rw [List.getElem?_map, List.getElem?_eq_getElem short] at child
      rw [Option.some.inj child]
      exact rest

/-- A child is entered at its position. -/
theorem Leads.to_kid {addr : Int} {seps : List RID} {index : Nat} {kid : Tree Int RID height} (inside : map.InFile addr)
    (count : kids.length = seps.length + 1) (stored : StoredAt map ⟨addr, false, seps, kids.map Tree.addr⟩)
    (here : kids[index]? = some kid) (leads : Leads map kid.addr path target) : Leads map addr (index :: path) target := by
  obtain ⟨node, content, is⟩ := stored
  obtain ⟨short, same⟩ := List.getElem?_eq_some_iff.mp here
  have child := is.kids index (by rw [List.length_map]; exact short)
  rw [List.getElem?_map, here] at child
  refine .child inside content is.kind ?_ ?_
  · rw [is.count]
    exact Nat.le_of_lt_succ (Nat.lt_of_lt_of_eq short count)
  · rw [← Option.some.inj child]
    exact leads

/-- The pages to which a path leads are those of the tree. -/
theorem Leads.mem (tree : Tree Int RID height) (sized : tree.Sized degree low)
    (stored : ∀ desc ∈ tree.nodes, StoredAt map desc) (leads : Leads map tree.addr path target) :
    target ∈ tree.nodes.map Node.addr := by
  induction height generalizing low path with
  | zero =>
      obtain ⟨addr, rows, rfl⟩ := tree.exists_leaf
      obtain ⟨-, rfl⟩ := leads.of_leaf (stored _ (Multiset.mem_singleton_self _))
      exact Multiset.mem_map_of_mem Node.addr (Multiset.mem_singleton_self _)
  | succ height ih =>
      obtain ⟨addr, seps, kids, rfl⟩ := tree.exists_inner
      obtain ⟨-, count, sizedKids⟩ := Tree.sized_inner.mp sized
      rw [Tree.nodes_inner] at stored ⊢
      have top : ⟨addr, false, seps, kids.map Tree.addr⟩ ∈
          ({⟨addr, false, seps, kids.map Tree.addr⟩} + Tree.nodesOf kids : Multiset NodeDesc) :=
        Multiset.mem_add.mpr (.inl (Multiset.mem_singleton_self _))
      cases path with
      | nil =>
          cases leads
          exact Multiset.mem_map_of_mem Node.addr top
      | cons index path =>
          obtain ⟨kid, here, rest⟩ := leads.of_inner count (stored _ top)
          have member := List.mem_of_getElem? here
          have inTree : kid.nodes ⊆ {⟨addr, false, seps, kids.map Tree.addr⟩} + Tree.nodesOf kids :=
            fun desc there => Multiset.mem_add.mpr (.inr (Multiset.mem_of_le (kid_nodes member) there))
          have found := ih kid (sizedKids kid member) (fun desc there => stored desc (inTree there)) rest
          exact Multiset.map_subset_map inTree found

/-- A path leads to every page of a tree. -/
theorem exists_path (tree : Tree Int RID height) (sized : tree.Sized degree low)
    (stored : ∀ desc ∈ tree.nodes, StoredAt map desc) (inside : ∀ desc ∈ tree.nodes, map.InFile desc.addr) :
    ∀ desc ∈ tree.nodes, ∃ path, Leads map tree.addr path desc.addr := by
  induction height generalizing low with
  | zero =>
      obtain ⟨addr, rows, rfl⟩ := tree.exists_leaf
      intro desc member
      have within := inside desc member
      rw [Tree.nodes_leaf, Multiset.mem_singleton] at member
      subst member
      exact ⟨[], .here within⟩
  | succ height ih =>
      obtain ⟨addr, seps, kids, rfl⟩ := tree.exists_inner
      obtain ⟨-, count, sizedKids⟩ := Tree.sized_inner.mp sized
      rw [Tree.nodes_inner] at stored inside ⊢
      have top : ⟨addr, false, seps, kids.map Tree.addr⟩ ∈
          ({⟨addr, false, seps, kids.map Tree.addr⟩} + Tree.nodesOf kids : Multiset NodeDesc) :=
        Multiset.mem_add.mpr (.inl (Multiset.mem_singleton_self _))
      intro desc member
      rcases Multiset.mem_add.mp member with here | below
      · rw [Multiset.mem_singleton] at here
        subst here
        exact ⟨[], .here (inside _ top)⟩
      · obtain ⟨kid, member, there⟩ := Tree.mem_nodesOf.mp below
        obtain ⟨index, short, same⟩ := List.mem_iff_getElem.mp member
        have inTree : kid.nodes ⊆ {⟨addr, false, seps, kids.map Tree.addr⟩} + Tree.nodesOf kids :=
          fun desc there => Multiset.mem_add.mpr (.inr (Multiset.mem_of_le (kid_nodes member) there))
        obtain ⟨path, leads⟩ := ih kid (sizedKids kid member) (fun desc there => stored desc (inTree there))
          (fun desc there => inside desc (inTree there)) desc there
        have here : kids[index]? = some kid := by rw [List.getElem?_eq_getElem short, same]
        exact ⟨index :: path, Leads.to_kid (inside _ top) count (stored _ top) here leads⟩

/-- Where the pages of a tree are distinct, one path leads to each. -/
theorem Leads.unique (tree : Tree Int RID height) (sized : tree.Sized degree low)
    (stored : ∀ desc ∈ tree.nodes, StoredAt map desc) (distinct : (tree.nodes.map Node.addr).Nodup)
    (leads : Leads map tree.addr path target) (leads' : Leads map tree.addr path' target) : path = path' := by
  induction height generalizing low path path' with
  | zero =>
      obtain ⟨addr, rows, rfl⟩ := tree.exists_leaf
      obtain ⟨rfl, -⟩ := leads.of_leaf (stored _ (Multiset.mem_singleton_self _))
      obtain ⟨rfl, -⟩ := leads'.of_leaf (stored _ (Multiset.mem_singleton_self _))
      rfl
  | succ height ih =>
      obtain ⟨addr, seps, kids, rfl⟩ := tree.exists_inner
      obtain ⟨-, count, sizedKids⟩ := Tree.sized_inner.mp sized
      rw [Tree.nodes_inner] at stored distinct
      have top : ⟨addr, false, seps, kids.map Tree.addr⟩ ∈
          ({⟨addr, false, seps, kids.map Tree.addr⟩} + Tree.nodesOf kids : Multiset NodeDesc) :=
        Multiset.mem_add.mpr (.inl (Multiset.mem_singleton_self _))
      rw [Multiset.map_add, Multiset.nodup_add, Multiset.map_singleton] at distinct
      obtain ⟨-, distinctKids, apart⟩ := distinct
      have kidStored : ∀ kid ∈ kids, ∀ desc ∈ kid.nodes, StoredAt map desc := fun kid member desc there =>
        stored desc (Multiset.mem_add.mpr (.inr (Multiset.mem_of_le (kid_nodes member) there)))
      have below : ∀ {index : Nat} {rest : List Nat}, Leads map addr (index :: rest) target →
          ∃ kid, kids[index]? = some kid ∧ Leads map kid.addr rest target ∧ target ∈ kid.nodes.map Node.addr := by
        intro index rest leads
        obtain ⟨kid, here, further⟩ := leads.of_inner count (stored _ top)
        have member := List.mem_of_getElem? here
        exact ⟨kid, here, further, further.mem kid (sizedKids kid member) (kidStored kid member)⟩
      have notTop : ∀ {index : Nat} {rest : List Nat}, Leads map addr (index :: rest) target → target ≠ addr := by
        rintro index rest leads rfl
        obtain ⟨kid, here, -, found⟩ := below leads
        have there := Multiset.mem_of_le (Multiset.map_le_map (kid_nodes (List.mem_of_getElem? here))) found
        exact Multiset.disjoint_left.mp apart (Multiset.mem_singleton_self _) there
      cases path with
      | nil =>
          cases leads
          cases path' with
          | nil => rfl
          | cons index' path' => exact absurd rfl (notTop leads')
      | cons index path =>
          cases path' with
          | nil =>
              cases leads'
              exact absurd rfl (notTop leads)
          | cons index' path' =>
              obtain ⟨kid, here, rest, found⟩ := below leads
              obtain ⟨kid', here', rest', found'⟩ := below leads'
              obtain rfl := kid_unique distinctKids here here' found found'
              rw [here] at here'
              cases here'
              have member := List.mem_of_getElem? here
              have distinctKid := Multiset.nodup_of_le (Multiset.map_le_map (kid_nodes member)) distinctKids
              rw [ih kid (sizedKids kid member) (kidStored kid member) distinctKid rest rest']

end Paths

/-! ## Every page is a node or free -/

section Conservation

variable {K Q σ : Type} [LinearOrder K] {degree : Nat} {callbacks : Callbacks Q σ} {ask : Q → K} {key : RID → K}
  {contents : K → Option RID} {state : RunState σ} {map : PageMap IndexPage} {root : Int} {nodes : Multiset NodeDesc}
  {free : List Int}

/-- A page is a node to which one path leads, or a free page to which none does. -/
theorem ShowsNodes.page (shows : ShowsNodes degree map root nodes) (lays : Lays map ⟨root, nodes, 0, free⟩) {addr : Int}
    (inside : map.InFile addr) (proper : addr ≠ 0) :
    ((∃! path, Leads map root path addr) ∧ addr ∉ free) ∨ ((¬ ∃ path, Leads map root path addr) ∧ addr ∈ free) := by
  have somewhere := (lays.covers addr).mpr ⟨inside, proper⟩
  have distinct := lays.distinct
  rw [Layout.pages, add_zero, Multiset.nodup_add] at distinct
  rw [Layout.pages, add_zero, Multiset.mem_add] at somewhere
  obtain ⟨distinctNodes, -, apart⟩ := distinct
  cases shows with
  | nothing =>
      right
      refine ⟨?_, somewhere.resolve_left (Multiset.notMem_zero _)⟩
      rintro ⟨path, leads⟩
      cases leads with
      | here inside => exact absurd inside.2.1 (by decide)
      | child inside => exact absurd inside.2.1 (by decide)
  | tree tree _ shows sized =>
      obtain ⟨rfl, stored⟩ := shows
      rcases somewhere with here | free
      · left
        refine ⟨?_, fun there => Multiset.disjoint_left.mp apart here there⟩
        obtain ⟨desc, member, rfl⟩ := Multiset.mem_map.mp here
        obtain ⟨path, leads⟩ := exists_path tree sized stored (fun desc there => (lays.node_inFile there).1) desc member
        exact ⟨path, leads, fun other leads' => leads'.unique tree sized stored distinctNodes leads⟩
      · right
        refine ⟨?_, free⟩
        rintro ⟨path, leads⟩
        exact Multiset.disjoint_left.mp apart (leads.mem tree sized stored) free

/--
Every page is accounted for: in every state reached a page of the file, other than the control
block, is a node to which one path of child pointers leads from the root, or is on the free
list, and not both; the free list ends and has no page twice. The operations append a page only
when the free list is empty.
-/
theorem pages_are_conserved (positive : 1 ≤ degree) (lawful : callbacks.Lawful ask key)
    (reached : Reaches degree callbacks key contents state) :
    (∃ root head free, state.1.map.page 0 = .ctrl ⟨root, head⟩ ∧ Linked (-1) (nextOf state.1.map) head free ∧
      free.Nodup ∧ (∀ addr ∈ free, state.1.map.InFile addr ∧ addr ≠ 0) ∧
        ∀ addr, state.1.map.InFile addr → addr ≠ 0 →
          ((∃! path, Leads state.1.map root path addr) ∧ addr ∉ free) ∨
            ((¬ ∃ path, Leads state.1.map root path addr) ∧ addr ∈ free)) ∧
      (∀ rid, contents (key rid) = none → (bTreeInsert degree rid).Always (treeMeaning callbacks) GrowthKept state) ∧
      ∀ rid, contents (key rid) ≠ none → (bTreeDelete degree rid).Always (treeMeaning callbacks) GrowthKept state := by
  have holds := reached.holds positive lawful
  refine ⟨?_, ?_, ?_⟩
  · obtain ⟨word, world, stands, -, -⟩ := holds
    obtain ⟨root, nodes, free, lays, shows, -⟩ := stands.shows
    obtain ⟨head, content, linked⟩ := lays.ctrl
    have distinct := lays.distinct
    rw [Layout.pages, Multiset.nodup_add] at distinct
    refine ⟨root, head, free, content, linked, Multiset.coe_nodup.mp distinct.2.1, ?_, ?_⟩
    · exact fun addr member => lays.free_inFile member
    · exact fun addr inside proper => shows.page lays inside proper
  · intro rid absent
    exact (run_bTreeInsert positive lawful holds absent).2.imp fun _ _ _ guard => guard.2.1
  · intro rid present
    exact (run_bTreeDelete positive lawful holds present).2.imp fun _ _ _ guard => guard.2.1

/-- The merge has freed the second page; the insertion takes it, and the deletion frees three more. -/
theorem pages_are_conserved_grown : Reaches 2 testCallbacks RID.blockAddr grownContents grown ∧
    grown.1.map.length = 11 * pageSize ∧
      (∀ addr, grown.1.map.InFile addr → addr ≠ 0 →
        ((∃! path, Leads grown.1.map (9 * pageSize) path addr) ∧ addr ∉ [2 * pageSize]) ∨
          ((¬ ∃ path, Leads grown.1.map (9 * pageSize) path addr) ∧ addr ∈ [2 * pageSize])) ∧
        (bTreeInsert 2 ⟨17, 0⟩).Always (treeMeaning testCallbacks) GrowthKept grown ∧
          (bTreeDelete 2 ⟨6, 0⟩).Always (treeMeaning testCallbacks) GrowthKept grown := by
  obtain ⟨⟨root, head, free, content, linked, -, inside, places⟩, insert, delete⟩ :=
    pages_are_conserved (by decide) testCallbacks_lawful grown_reached
  obtain ⟨rfl, rfl⟩ := Prod.mk.inj (Option.some.inj ((ctrlOf_eq content).symm.trans grown_ctrl))
  have last : nextOf grown.1.map (2 * pageSize) = -1 := by decide +kernel
  have proper : ∀ addr ∈ free, addr ≠ -1 := by
    rintro addr member rfl
    exact absurd (inside _ member).1.2.1 (by decide)
  obtain rfl : free = [2 * pageSize] := linked.unique proper (by decide) ⟨rfl, last⟩
  exact ⟨grown_reached, by decide +kernel, places, insert ⟨17, 0⟩ grownContents_absent,
    delete ⟨6, 0⟩ grownContents_present⟩

end Conservation

/-! ## The first page -/

/-- The page that `b_tree_insert` initialises as the root of an empty tree. -/
def newRootPage (ctrl : BCtrlBlock) : Int := if ctrl.freeNodeHead = -1 then pageSize else ctrl.freeNodeHead

section FirstPage

variable {K Q σ : Type} [LinearOrder K] {degree : Nat} {callbacks : Callbacks Q σ} {ask : Q → K} {key : RID → K}
  {contents : K → Option RID} {state : RunState σ} {rid : RID}

theorem FirstPageNext.head {map : PageMap IndexPage} {free : List Int} {head : Int} (first : FirstPageNext map free)
    (linked : Linked (-1) (nextOf map) head free) : (head = -1 ∧ map.length = pageSize) ∨ head = pageSize := by
  rcases first with ⟨rfl, length⟩ | next
  · exact .inl ⟨linked, length⟩
  · cases free with
    | nil => cases next
    | cons addr free =>
        cases next
        exact .inr linked.1

omit [LinearOrder K] in
/-- Without rows no key is present. -/
theorem Lists.nothing (lists : Lists key contents 0) (x : K) : contents x = none := by
  rw [Option.eq_none_iff_forall_not_mem]
  intro rid bound
  exact absurd ((lists x rid).mp bound).1 (Multiset.notMem_zero _)

theorem Lists.single {rows : Multiset RID} (lists : Lists key (Function.update contents (key rid) (some rid)) rows)
    (nothing : ∀ x, contents x = none) (distinct : (rows.map key).Nodup) : rows = {rid} := by
  refine (Multiset.Nodup.ext distinct.of_map (Multiset.nodup_singleton rid)).mpr fun other => ?_
  rw [Multiset.mem_singleton]
  constructor
  · intro member
    have bound := (lists (key other) other).mpr ⟨member, rfl⟩
    by_cases same : key other = key rid
    · rw [same, Function.update_self] at bound
      exact (Option.some.inj bound).symm
    · rw [Function.update_of_ne same, nothing] at bound
      cases bound
  · rintro rfl
    exact ((lists (key other) other).mp (Function.update_self ..)).1

/-- An index of one row is the leaf at `PAGE_SIZE`. -/
theorem Stands.single {word : Word RID} {final : TreeState K} (positive : 1 ≤ degree) (stands : Stands degree word final)
    (one : word.items = {rid}) : ∃ head node, final.1.map.page 0 = .ctrl ⟨pageSize, head⟩ ∧
      final.1.map.page pageSize = .node node ∧ NodeIs node true [rid] [] := by
  cases stands with
  | nothing free pins lays first sound => exact absurd one.symm (Multiset.singleton_ne_zero rid)
  | @tree height _ tree left sized rests =>
      obtain rfl := tree.height_eq_zero positive sized (by rw [one, Multiset.card_singleton])
      obtain ⟨-, ⟨free, lays⟩, -⟩ := rests
      obtain ⟨head, content, -⟩ := lays.ctrl
      obtain ⟨addr, rows, rfl⟩ := tree.exists_leaf
      rw [Tree.leftmost_leaf] at left
      subst left
      rw [Tree.word_leaf, Word.items_rows, ← Multiset.coe_singleton, Multiset.coe_eq_coe, List.perm_singleton] at one
      subst one
      obtain ⟨node, here, is⟩ := lays.stored _ (Multiset.mem_singleton_self _)
      exact ⟨head, node, content, here, is⟩

/--
The root of a new tree is the page at `PAGE_SIZE`: in every state reached the leftmost leaf of a
tree is that page, and without a tree it is the page that `b_tree_insert` takes, initialises,
records in `root_node` and releases.
-/
theorem first_leaf_stays (positive : 1 ≤ degree) (lawful : callbacks.Lawful ask key)
    (reached : Reaches degree callbacks key contents state) :
    ∃ root head, state.1.map.page 0 = .ctrl ⟨root, head⟩ ∧
      (root ≠ -1 → ∃ (height : Nat) (tree : Tree Int RID height), Shows state.1.map root tree ∧ tree.Sized degree 1 ∧
        tree.leftmost = pageSize) ∧
      (root = -1 → ((head = -1 ∧ state.1.map.length = pageSize) ∨ head = pageSize) ∧
        newRootPage ⟨root, head⟩ = pageSize ∧
        ∀ rid, (bTreeInsert degree rid).Always (treeMeaning callbacks) PinsKept state ∧
          ∃ after head' node, (bTreeInsert degree rid).run (treeMeaning callbacks) state = some (rid, after) ∧
            after.1.map.page 0 = .ctrl ⟨pageSize, head'⟩ ∧ after.1.map.page pageSize = .node node ∧
              NodeIs node true [rid] []) := by
  have holds := reached.holds positive lawful
  obtain ⟨word, world, stands, accounts, lists⟩ := id holds
  cases stands with
  | @tree height _ tree left sized rests =>
      obtain ⟨-, ⟨free, lays⟩, -⟩ := rests
      obtain ⟨head, content, -⟩ := lays.ctrl
      obtain ⟨top, member, same⟩ := tree.root_mem_nodes
      refine ⟨tree.addr, head, content, fun _ => ⟨height, tree, ⟨rfl, lays.stored⟩, sized, left⟩, ?_⟩
      have nonneg := (lays.node_inFile member).1.2.1
      intro nothing
      omega
  | nothing free pins lays first sound =>
      obtain ⟨head, content, linked⟩ := lays.ctrl
      refine ⟨-1, head, content, fun proper => absurd rfl proper, fun _ => ?_⟩
      have next := first.head linked
      refine ⟨next, ?_, fun rid => ?_⟩
      · rcases next with ⟨rfl, -⟩ | rfl
        · exact if_pos rfl
        · exact if_neg (by decide)
      · have absent : contents (key rid) = none := lists.nothing (key rid)
        obtain ⟨⟨after, ran, word', world', stands', accounts', lists'⟩, always⟩ :=
          run_bTreeInsert positive lawful holds absent
        have sorted := stands'.sound.sorted
        rw [accounts'.key] at sorted
        obtain ⟨head', node, content', here, is⟩ := stands'.single positive (lists'.single lists.nothing sorted.nodup_keys)
        exact ⟨always.imp fun _ _ _ guard => guard.1, after, head', node, ran, content', here, is⟩

/-- Five rows are inserted, and all of them deleted from the last one on. -/
def emptiedCommands : List (Command Int) :=
  (List.range 5).map (fun place => .insert ⟨(place : Int) + 1, 0⟩) ++
    (List.range 5).map fun place => .delete ⟨5 - (place : Int), 0⟩

theorem emptied_reached : Reaches 2 testCallbacks RID.blockAddr (outcome RID.blockAddr (fun _ => none) emptiedCommands)
    (stateAfter emptiedCommands) :=
  stateAfter_reached (by decide +kernel)

/--
The leftmost of six leaves is the first page; and in a file of four pages, whose free list has
three, the first of these is the page where the next insertion puts the root.
-/
theorem first_leaf_stays_grown :
    (Reaches 2 testCallbacks RID.blockAddr grownContents grown ∧ ∃ (height : Nat) (tree : Tree Int RID height),
      Shows grown.1.map (9 * pageSize) tree ∧ tree.Sized 2 1 ∧ tree.leftmost = pageSize) ∧
    (Reaches 2 testCallbacks RID.blockAddr (outcome RID.blockAddr (fun _ => none) emptiedCommands)
      (stateAfter emptiedCommands) ∧ (stateAfter emptiedCommands).1.map.length = 4 * pageSize ∧
        newRootPage ⟨-1, pageSize⟩ = pageSize ∧
          (bTreeInsert 2 ⟨7, 0⟩).Always (treeMeaning testCallbacks) PinsKept (stateAfter emptiedCommands) ∧
            ∃ after head node, (bTreeInsert 2 ⟨7, 0⟩).run (treeMeaning testCallbacks) (stateAfter emptiedCommands) =
              some (⟨7, 0⟩, after) ∧ after.1.map.page 0 = .ctrl ⟨pageSize, head⟩ ∧
                after.1.map.page pageSize = .node node ∧ NodeIs node true [⟨7, 0⟩] []) := by
  constructor
  · obtain ⟨root, head, content, leftmost, -⟩ := first_leaf_stays (by decide) testCallbacks_lawful grown_reached
    obtain ⟨rfl, rfl⟩ := Prod.mk.inj (Option.some.inj ((ctrlOf_eq content).symm.trans grown_ctrl))
    exact ⟨grown_reached, leftmost (by decide)⟩
  · obtain ⟨root, head, content, -, emptied⟩ := first_leaf_stays (by decide) testCallbacks_lawful emptied_reached
    have ctrl : ctrlOf (stateAfter emptiedCommands) = some (-1, pageSize) := by decide +kernel
    obtain ⟨rfl, rfl⟩ := Prod.mk.inj (Option.some.inj ((ctrlOf_eq content).symm.trans ctrl))
    obtain ⟨-, page, inserts⟩ := emptied rfl
    exact ⟨emptied_reached, by decide +kernel, page, inserts ⟨7, 0⟩⟩

end FirstPage

end MyJQL.Index
