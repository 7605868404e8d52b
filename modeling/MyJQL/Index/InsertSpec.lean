import MyJQL.Index.SplitSpec

/-!
# Insertion

`insert_entry` on a subtree leaves either one tree in its place, or two with a separator
between them; if the subtree is the whole tree, a new root is put over the two. The word
of the subtree gets the new row, and a copy of a row in front of it if a leaf is split.
-/

namespace MyJQL.Index

open Library Library.Prog Storage

section Insertion

variable {K Q : Type} [LinearOrder K] {ask : Q → K} {degree low height : Nat} {addr first root : Int}
  {others : Multiset NodeDesc} {front word back : Word RID} {map : PageMap IndexPage} {world : World K}

/-- What stands where a subtree with address `addr` and leftmost leaf `first` was. -/
inductive Settled (degree low height : Nat) (addr first root : Int) (others : Multiset NodeDesc)
    (front word back : Word RID) : NewChildEntry → TreeState K → Prop where
  | whole {entry : NewChildEntry} {state : TreeState K} (tree : Tree Int RID height)
      (noEntry : entry.childPtr = -1) (same : tree.addr = addr) (left : tree.leftmost = first)
      (reads : tree.word = word) (sized : tree.Sized degree low)
      (rests : Rests state root (tree.nodes + others) 0 (front ++ word ++ back)) :
      Settled degree low height addr first root others front word back entry state
  | split {state : TreeState K} (tree new : Tree Int RID height) (separator : RID) (inner : addr ≠ root)
      (same : tree.addr = addr) (left : tree.leftmost = first)
      (reads : tree.word ++ .sep separator :: new.word = word) (sized : tree.Sized degree degree)
      (sizedNew : new.Sized degree degree)
      (rests : Rests state root (tree.nodes + (new.nodes + others)) 0 (front ++ word ++ back)) :
      Settled degree low height addr first root others front word back ⟨separator, new.addr⟩ state
  | grown {entry : NewChildEntry} {state : TreeState K} (tree : Tree Int RID (height + 1)) (top : addr = root)
      (left : tree.leftmost = first) (reads : tree.word = word) (sized : tree.Sized degree 1)
      (rests : Rests state tree.addr (tree.nodes + others) 0 (front ++ word ++ back)) :
      Settled degree low height addr first root others front word back entry state

/-- The halves of a node are two trees, or one under a new root. -/
theorem Halved.settled (tree new : Tree Int RID height) {below : Multiset NodeDesc} {separator : RID}
    (halved : Halved root below tree.root new.root separator map) (positive : 1 ≤ degree)
    (parts : below = tree.below + (new.below + others)) (same : tree.addr = addr) (left : tree.leftmost = first)
    (reads : tree.word ++ .sep separator :: new.word = word) (sized : tree.Sized degree degree)
    (sizedNew : new.Sized degree degree) (sound : Sound world 0 (front ++ word ++ back)) :
    Settled degree low height addr first root others front word back ⟨separator, new.addr⟩ (⟨map, 0⟩, world) := by
  have regroup : {tree.root} + ({new.root} + below) = tree.nodes + (new.nodes + others) := by
    rw [parts, tree.nodes_eq, new.nodes_eq]
    abel
  cases halved with
  | beside free inner lays =>
      rw [regroup] at lays
      exact .split tree new separator (by rwa [← same, ← tree.addr_root]) same left reads sized sizedNew
        ⟨rfl, ⟨free, lays⟩, sound⟩
  | below addrRoot free top lays =>
      rw [regroup, tree.addr_root, new.addr_root] at lays
      refine .grown (Tree.inner addrRoot [separator] [tree, new]) (by rwa [← same, ← tree.addr_root]) ?_ reads ?_
        ⟨rfl, ⟨free, lays.regroup ?_⟩, sound⟩
      · rw [Tree.leftmost_inner, left]
      · rw [Tree.sized_inner]
        refine ⟨⟨le_rfl, by simp only [List.length_singleton]; omega⟩, rfl, ?_⟩
        intro kid member
        rw [List.mem_cons, List.mem_singleton] at member
        rcases member with rfl | rfl
        · exact sized
        · exact sizedNew
      · simp only [Tree.nodes_inner, Tree.nodesOf_cons, Tree.nodesOf_nil, List.map_cons, List.map_nil, add_zero]
        abel

/-! ## A node whose child has been split -/

theorem wp_insertInner {node : BNode} {xs ys : List RID} {before after : List (Tree Int RID height)}
    {left right : Tree Int RID height} {separator : RID} {free : List Int}
    {post : NewChildEntry → TreeState K → Prop} (positive : 1 ≤ degree)
    (lays : Lays map ⟨root, {⟨addr, false, xs ++ ys, (before ++ left :: after).map Tree.addr⟩} +
      (Tree.nodesOf (before ++ left :: right :: after) + others), 0, free⟩)
    (is : NodeIs node false (xs ++ ys) ((before ++ left :: after).map Tree.addr))
    (countBefore : before.length = xs.length) (countAfter : after.length = ys.length)
    (least : low ≤ (xs ++ ys).length) (bound : (xs ++ ys).length ≤ 2 * degree)
    (sizedKids : ∀ kid ∈ before ++ left :: right :: after, kid.Sized degree degree)
    (leftmost : ((before ++ left :: right :: after).head?.map Tree.leftmost) = some first)
    (reads : interleave Tree.word (xs ++ separator :: ys) (before ++ left :: right :: after) = word)
    (sound : Sound world 0 (front ++ word ++ back))
    (ended : ∀ entry state, Settled degree low (height + 1) addr first root others front word back entry state →
      state.2 = world → post entry state) :
    (insertInner degree addr node ⟨separator, right.addr⟩ root : TreeProg Q NewChildEntry).wp
      (treeLogic ask) post (⟨map, addr ::ₘ 0⟩, world) := by
  have inWord : ∀ row ∈ xs ++ separator :: ys, world.Knows row := by
    intro row member
    refine sound.knows_sep ?_
    have count : (before ++ left :: right :: after).length = (xs ++ separator :: ys).length + 1 := by
      simp only [List.length_append, List.length_cons]
      omega
    have here : .sep row ∈ word := reads ▸ mem_interleave count member
    simp [here]
  have known : world.Knows separator := inWord separator (by simp)
  have knows : ∀ row ∈ xs ++ ys, world.Knows row := by
    intro row member
    refine inWord row ?_
    rcases List.mem_append.mp member with old | old
    · exact List.mem_append_left _ old
    · exact List.mem_append_right _ (List.mem_cons_of_mem _ old)
  have order := sound.sorted
  rw [← reads] at order
  obtain ⟨below, above⟩ := separators_around countBefore countAfter order
  -- the scan for the separator stops where the child was
  have place : ∀ {xs' ys' : List RID}, xs ++ ys = xs' ++ ys' →
      (∀ row ∈ xs', world.key row ≤ world.key separator) →
      (∀ row ∈ ys'.head?, world.key separator < world.key row) → xs' = xs ∧ ys' = ys := by
    intro xs' ys' split passed stopped
    refine @cut_unique _ (fun row => world.key separator < world.key row) _ _ _ _ split.symm ?_ stopped ?_ ?_
    · exact fun row member => not_lt.mpr (passed row member)
    · exact fun row member => not_lt.mpr (below row member).le
    · exact fun row member => above row (List.mem_of_mem_head? member)
  have addresses : (before ++ left :: after).map Tree.addr =
      (before.map Tree.addr ++ [left.addr]) ++ after.map Tree.addr := by
    simp only [List.map_append, List.map_cons, List.append_assoc, List.singleton_append]
  have addresses' : (before ++ left :: right :: after).map Tree.addr =
      (before.map Tree.addr ++ [left.addr]) ++ right.addr :: after.map Tree.addr := by
    simp only [List.map_append, List.map_cons, List.append_assoc, List.singleton_append]
  have placeCount : (before.map Tree.addr ++ [left.addr]).length = xs.length + 1 := by
    rw [List.length_append, List.length_map, countBefore, List.length_singleton]
  have restCount : (after.map Tree.addr).length = ys.length := by
    rw [List.length_map, countAfter]
  unfold insertInner
  by_cases room : node.n < 2 * degree
  · rw [if_pos room]
    simp only [wp_bind]
    have pinned : addr ∈ addr ::ₘ (0 : Multiset Int) := Multiset.mem_cons_self _ _
    refine wp_scanBefore lays Lays.mem_front pinned bound is.count known knows fun xs' ys' split passed stopped => ?_
    obtain ⟨rfl, rfl⟩ := place split passed stopped
    rw [is.count] at room
    refine wp_readNode lays Lays.mem_front pinned fun node is => ?_
    rw [addresses] at is
    obtain ⟨node', computed, is'⟩ := @insertSlot_spec degree _ _ _ _ _ _ ⟨separator, right.addr⟩ is placeCount restCount room
    rw [computed]
    simp only [wp_ofOption_some]
    refine wp_putNode lays is' (Multiset.mem_cons_self _ _) fun map' lays' => ?_
    rw [Multiset.erase_cons_head]
    refine ended _ _ ?_ rfl
    refine .whole (Tree.inner addr (xs' ++ separator :: ys') (before ++ left :: right :: after)) rfl rfl ?_ reads ?_
      ⟨rfl, ⟨free, ?_⟩, sound⟩
    · rw [Tree.leftmost_eq, leftmost]
      rfl
    · rw [List.length_append] at room least
      simp only [Tree.sized_inner, List.length_append, List.length_cons]
      exact ⟨⟨by omega, by omega⟩, by omega, sizedKids⟩
    · rw [Tree.nodes_inner, addresses', add_assoc]
      exact lays'
  · have full : (xs ++ ys).length = 2 * degree := by
      rw [is.count] at room
      omega
    have full' : (xs ++ separator :: ys).length = 2 * degree + 1 := by
      rw [List.length_append] at full
      simp only [List.length_append, List.length_cons]
      omega
    have count : (before ++ left :: right :: after).length = (xs ++ separator :: ys).length + 1 := by
      simp only [List.length_append, List.length_cons]
      omega
    have count' : (before.map Tree.addr ++ [left.addr] ++ after.map Tree.addr).length = (xs ++ ys).length + 1 := by
      rw [List.length_append, placeCount, restCount, List.length_append]
      omega
    rw [addresses] at lays is
    refine wp_splitInner positive lays is full count' known knows ?_
    intro xs' ys' as bs middle addrNew map' split splitKids placeCount' passed stopped cut halved
    obtain ⟨rfl, rfl⟩ := place split passed stopped
    obtain ⟨rfl, rfl⟩ := List.append_inj splitKids (placeCount.trans placeCount'.symm)
    dsimp only at cut halved
    rw [← addresses', ← List.map_take, ← List.map_drop] at halved
    have reads' := @Tree.word_halves _ _ _ degree addr addrNew _ _ _ cut count
    have sized := @Tree.sized_halves _ _ _ degree addr addrNew _ _ full' count sizedKids
    refine ended _ _ (halved.settled (Tree.inner addr _ _) (Tree.inner addrNew _ _) positive ?_ rfl ?_ (reads'.trans reads)
      sized.1 sized.2 sound) rfl
    · rw [← @Tree.nodes_halves _ _ _ (degree + 1) (before ++ left :: right :: after), add_assoc]
      rfl
    · rw [Tree.leftmost_eq, List.head?_take, if_neg (Nat.succ_ne_zero _), leftmost]
      rfl

/-! ## A leaf -/

/-- A leaf with one row too many is cut in front of a row; a copy of the row goes between the halves. -/
theorem Sound.cut_leaf {rows : List RID} {row : RID} (sound : Sound world 0 (front ++ rows.map .item ++ back))
    (positive : 1 ≤ degree) (full : rows.length = 2 * degree + 1) (cut : (rows.drop degree).head? = some row)
    (made : RID) (key : RID → K) (agree : ∀ known, world.Knows known → key known = world.key known)
    (same : key made = world.key row) :
    Sound ⟨key, world.held, made ::ₘ world.owed⟩ 0
      (front ++ ((rows.take degree).map .item ++ .sep made :: (rows.drop degree).map .item) ++ back) := by
  have half : rows.take degree ≠ [] := by
    rw [← List.length_pos_iff, List.length_take]
    omega
  obtain ⟨tail, rest⟩ := List.head?_eq_some_iff.mp cut
  have cutLeft : rows.take degree = (rows.take degree).dropLast ++ [(rows.take degree).getLast half] :=
    (List.dropLast_append_getLast half).symm
  generalize (rows.take degree).dropLast = init at cutLeft
  generalize (rows.take degree).getLast half = previous at cutLeft
  have parts : rows = init ++ previous :: row :: tail := by
    rw [← List.take_append_drop degree rows, cutLeft, rest, List.append_assoc]
    rfl
  have regroup : front ++ rows.map .item ++ back =
      (front ++ init.map .item) ++ .item previous :: .item row :: (tail.map .item ++ back) := by
    rw [parts]
    simp only [List.map_append, List.map_cons, List.append_assoc, List.cons_append]
  rw [regroup] at sound
  have result := sound.copy agree same
  rw [cutLeft, rest]
  simpa only [List.map_append, List.map_cons, List.map_nil, List.append_assoc, List.cons_append,
    List.nil_append] using result

theorem wp_insertLeaf {node : BNode} {rows : List RID} {rid : RID} {free : List Int}
    {post : NewChildEntry → TreeState K → Prop} (positive : 1 ≤ degree)
    (lays : Lays map ⟨root, {⟨addr, true, rows, []⟩} + others, 0, free⟩) (is : NodeIs node true rows [])
    (least : low ≤ rows.length) (bound : rows.length ≤ 2 * degree)
    (sound : Sound world 0 (front ++ rows.map .item ++ back)) (held : rid ∈ world.held)
    (around : Around world (world.key rid) front back) (absent : ∀ row ∈ rows, world.key row ≠ world.key rid)
    (ended : ∀ word entry state, Word.items word = rid ::ₘ rows →
      Settled degree low 0 addr addr root others front word back entry state → Later world state.2 →
        post entry state) :
    (insertLeaf degree addr node rid root : TreeProg Q NewChildEntry).wp
      (treeLogic ask) post (⟨map, addr ::ₘ 0⟩, world) := by
  have knows : ∀ row ∈ rows, world.Knows row := fun row member => sound.knows_item (by simp [member])
  have known : world.Knows rid := .inl held
  -- the leaf with the new row in its place
  have placed : ∀ {xs ys : List RID}, rows = xs ++ ys → (∀ row ∈ xs, world.key row ≤ world.key rid) →
      (∀ row ∈ ys.head?, world.key rid < world.key row) →
        Sound world 0 (front ++ (xs ++ rid :: ys).map .item ++ back) := by
    rintro xs ys rfl passed stopped
    have inside := around.rows sound.sorted passed (fun row member => absent row (by simp [member])) stopped
    have regroup : front ++ (xs ++ ys).map .item ++ back = (front ++ xs.map .item) ++ (ys.map .item ++ back) := by
      simp only [List.map_append, List.append_assoc]
    rw [regroup] at sound
    have inserted := sound.insert_row held inside
    simpa only [List.map_append, List.map_cons, List.append_assoc, List.cons_append] using inserted
  have gained : ∀ {xs ys : List RID}, rows = xs ++ ys →
      Word.items ((xs ++ rid :: ys).map .item) = rid ::ₘ rows := by
    rintro xs ys rfl
    rw [Word.items_rows, Multiset.cons_coe, Multiset.coe_eq_coe]
    exact List.perm_middle
  unfold insertLeaf
  by_cases room : node.n < 2 * degree
  · rw [if_pos room]
    simp only [wp_bind]
    have pinned : addr ∈ addr ::ₘ (0 : Multiset Int) := Multiset.mem_cons_self _ _
    refine wp_scanBefore lays Lays.mem_front pinned bound is.count known knows fun xs ys split passed stopped => ?_
    have more := gained split
    have sound' := placed split passed stopped
    subst split
    rw [is.count] at room
    refine wp_readNode lays Lays.mem_front pinned fun node is => ?_
    obtain ⟨node', computed, is'⟩ := @insertRow_spec degree _ _ _ _ _ rid is room
    rw [computed]
    simp only [wp_ofOption_some]
    refine wp_putNode lays is' (Multiset.mem_cons_self _ _) fun map' lays' => ?_
    rw [Multiset.erase_cons_head]
    refine ended _ _ _ more (.whole (Tree.leaf addr (xs ++ rid :: ys)) rfl rfl rfl rfl ?_
      ⟨rfl, ⟨free, lays'⟩, sound'⟩) (Later.refl world)
    rw [List.length_append] at room least
    simp only [Tree.sized_leaf, List.length_append, List.length_cons]
    omega
  · have full : rows.length = 2 * degree := by
      rw [is.count] at room
      omega
    have longer : ∀ {xs ys : List RID}, rows = xs ++ ys → (xs ++ rid :: ys).length = 2 * degree + 1 := by
      rintro xs ys rfl
      rw [List.length_append] at full
      simp only [List.length_append, List.length_cons]
      omega
    have halves : ∀ (addrNew : Int) {xs ys : List RID}, rows = xs ++ ys →
        (Tree.leaf addr ((xs ++ rid :: ys).take degree)).Sized degree degree ∧
          (Tree.leaf addrNew ((xs ++ rid :: ys).drop degree)).Sized degree degree := by
      intro addrNew xs ys split
      have count := longer split
      simp only [Tree.sized_leaf, List.length_take, List.length_drop]
      omega
    have gained' : ∀ (made : RID) {xs ys : List RID}, rows = xs ++ ys →
        Word.items (((xs ++ rid :: ys).take degree).map .item ++
          .sep made :: ((xs ++ rid :: ys).drop degree).map .item) = rid ::ₘ rows := by
      intro made xs ys split
      rw [← gained split, Word.items_append, Word.items_sep, Word.items_rows, Word.items_rows, Word.items_rows,
        Multiset.coe_add, List.take_append_drop]
    refine wp_splitLeaf positive lays is full known knows ?_
    intro xs ys row made key addrNew map' split passed stopped cut agree same halved
    have copied := (placed split passed stopped).cut_leaf positive (longer split) cut made key agree same
    have sized := halves addrNew split
    refine ended _ _ _ (gained' made split) ?_ (Later.of_agree fun rid held => agree rid (.inl held))
    refine halved.settled (Tree.leaf addr _) (Tree.leaf addrNew _) positive ?_ rfl rfl rfl sized.1 sized.2 copied
    exact ((zero_add _).trans (zero_add _)).symm

/-! ## The recursion -/

/-- A kid of a node that has been changed leaves the leftmost leaf of the node where it was. -/
theorem head_leftmost {height : Nat} {before after after' : List (Tree Int RID height)}
    {kid kid' : Tree Int RID height} (same : kid'.leftmost = kid.leftmost) :
    (before ++ kid' :: after').head?.map Tree.leftmost = (before ++ kid :: after).head?.map Tree.leftmost := by
  cases before with
  | nil => exact congrArg some same
  | cons head before => rfl

/--
`insert_entry` on a subtree: the subtree with the new row, as one tree or as two, with a new
root if it was the whole tree.
-/
theorem wp_insertEntry (positive : 1 ≤ degree) (tree : Tree Int RID height)
    {rounds : Nat} {rid : RID} {free : List Int} {post : NewChildEntry → TreeState K → Prop}
    (enough : height < rounds) (lays : Lays map ⟨root, tree.nodes + others, 0, free⟩)
    (rooted : tree.addr = root ∨ ∃ desc ∈ others, desc.addr = root)
    (sized : tree.Sized degree low) (sound : Sound world 0 (front ++ tree.word ++ back))
    (held : rid ∈ world.held) (around : Around world (world.key rid) front back)
    (absent : ∀ row ∈ tree.word.items, world.key row ≠ world.key rid)
    (ended : ∀ word entry state, word.items = rid ::ₘ tree.word.items →
      Settled degree low height tree.addr tree.leftmost root others front word back entry state →
        Later world state.2 → post entry state) :
    (insertEntry degree rounds tree.addr rid root : TreeProg Q NewChildEntry).wp
      (treeLogic ask) post (⟨map, 0⟩, world) := by
  induction height generalizing rounds low front back others post map free with
  | zero =>
      obtain ⟨addr, rows, rfl⟩ := tree.exists_leaf
      obtain ⟨rounds, rfl⟩ : ∃ less, rounds = less + 1 := ⟨rounds - 1, by omega⟩
      rw [Tree.sized_leaf] at sized
      rw [Tree.nodes_leaf] at lays
      rw [Tree.word_leaf] at sound
      simp only [Tree.word_leaf, Word.items_rows, Tree.addr_leaf, Tree.leftmost_leaf] at absent ended ⊢
      have member : ⟨addr, true, rows, []⟩ ∈ ({⟨addr, true, rows, []⟩} + others : Multiset NodeDesc) :=
        Multiset.mem_add.mpr (.inl (Multiset.mem_singleton_self _))
      unfold insertEntry
      simp only [wp_bind]
      refine wp_getNode lays member (by decide) fun node is => ?_
      rw [if_pos is.kind]
      exact wp_insertLeaf positive lays is sized.1 sized.2 sound held around absent ended
  | succ height ih =>
      obtain ⟨addr, seps, kids, rfl⟩ := tree.exists_inner
      obtain ⟨rounds, rfl⟩ : ∃ less, rounds = less + 1 := ⟨rounds - 1, by omega⟩
      obtain ⟨⟨least, bound⟩, count, sizedKids⟩ := Tree.sized_inner.mp sized
      rw [Tree.nodes_inner] at lays
      rw [Tree.word_inner] at sound
      simp only [Tree.word_inner, Tree.addr_inner] at absent rooted ended ⊢
      have member : ⟨addr, false, seps, kids.map Tree.addr⟩ ∈
          ({⟨addr, false, seps, kids.map Tree.addr⟩} + Tree.nodesOf kids + others : Multiset NodeDesc) := by
        rw [add_assoc]
        exact Multiset.mem_add.mpr (.inl (Multiset.mem_singleton_self _))
      have knows : ∀ row ∈ seps, world.Knows row := fun row here => by
        have inWord : .sep row ∈ interleave Tree.word seps kids := mem_interleave count here
        exact sound.knows_sep (by simp [inWord])
      unfold insertEntry
      simp only [wp_bind]
      refine wp_getNode lays member (by decide) fun node is => ?_
      rw [if_neg (by rw [is.kind]; exact Bool.false_ne_true)]
      simp only [wp_bind]
      have pinned : addr ∈ addr ::ₘ (0 : Multiset Int) := Multiset.mem_cons_self _ _
      refine wp_scanBefore lays member pinned bound is.count (.inl held) knows fun xs ys split passed stopped => ?_
      refine wp_readNode lays member pinned fun node is => ?_
      subst split
      obtain ⟨before, kid, after, rfl, countBefore, countAfter⟩ := exists_kid count
      have inside : (before.map Tree.addr).length < 2 * degree + 1 := by
        rw [List.length_append] at bound
        rw [List.length_map]
        omega
      rw [List.map_append, List.map_cons] at is
      have child := childAt_place is inside
      rw [List.length_map, countBefore] at child
      rw [child]
      simp only [wp_ofOption_some]
      refine wp_release (Multiset.mem_cons_self _ _) ?_
      rw [Multiset.erase_cons_head]
      rw [word_focus countBefore countAfter] at sound
      have around' := around.descend sound.sorted passed stopped
      have regroup : {⟨addr, false, xs ++ ys, (before ++ kid :: after).map Tree.addr⟩} +
          Tree.nodesOf (before ++ kid :: after) + others = kid.nodes +
            ({⟨addr, false, xs ++ ys, (before ++ kid :: after).map Tree.addr⟩} +
              Tree.nodesOf before + Tree.nodesOf after + others) := by
        rw [Tree.nodesOf_append, Tree.nodesOf_cons]
        abel
      rw [regroup] at lays
      have rooted' : ∃ desc ∈ {⟨addr, false, xs ++ ys, (before ++ kid :: after).map Tree.addr⟩} +
          Tree.nodesOf before + Tree.nodesOf after + others, desc.addr = root := by
        rcases rooted with top | ⟨desc, here, top⟩
        · refine ⟨⟨addr, false, xs ++ ys, (before ++ kid :: after).map Tree.addr⟩, ?_, top⟩
          rw [add_assoc, add_assoc]
          exact Multiset.mem_add.mpr (.inl (Multiset.mem_singleton_self _))
        · exact ⟨desc, Multiset.mem_add.mpr (.inr here), top⟩
      have below : kid.addr ≠ root := by
        obtain ⟨desc, here, top⟩ := rooted'
        obtain ⟨node, member', same⟩ := kid.root_mem_nodes
        rw [← same, ← top]
        exact lays.apart member' here
      have absent' : ∀ row ∈ kid.word.items, world.key row ≠ world.key rid := by
        intro row here
        refine absent row ?_
        rw [interleave_around countBefore countAfter]
        simp [here]
      refine ih kid (by omega) lays (.inr rooted') (sizedKids kid (by simp)) sound around' absent' ?_
      intro word entry state more settled later
      obtain ⟨⟨map', pins⟩, world'⟩ := state
      cases settled with
      | whole tree noEntry same left reads sized' rests =>
          obtain ⟨rfl, ⟨free', lays'⟩, sound'⟩ := rests
          have addresses : (before ++ tree :: after).map Tree.addr = (before ++ kid :: after).map Tree.addr := by
            rw [List.map_append, List.map_append, List.map_cons, List.map_cons, same]
          have regroup' : tree.nodes + ({⟨addr, false, xs ++ ys, (before ++ kid :: after).map Tree.addr⟩} +
              Tree.nodesOf before + Tree.nodesOf after + others) =
                (Tree.inner addr (xs ++ ys) (before ++ tree :: after)).nodes + others := by
            rw [Tree.nodes_inner, addresses, Tree.nodesOf_append, Tree.nodesOf_cons]
            abel
          rw [regroup'] at lays'
          have member' : ⟨addr, false, xs ++ ys, (before ++ tree :: after).map Tree.addr⟩ ∈
              (Tree.inner addr (xs ++ ys) (before ++ tree :: after)).nodes + others := by
            rw [Tree.nodes_inner, add_assoc]
            exact Multiset.mem_add.mpr (.inl (Multiset.mem_singleton_self _))
          rw [← reads, ← word_focus countBefore countAfter] at sound'
          refine wp_getNode lays' member' (by decide) fun node' is' => ?_
          rw [if_pos noEntry]
          simp only [wp_bind]
          refine wp_release (Multiset.mem_cons_self _ _) ?_
          rw [Multiset.erase_cons_head]
          refine ended _ _ _ ?_ (.whole (Tree.inner addr (xs ++ ys) (before ++ tree :: after)) noEntry rfl ?_ rfl ?_
            ⟨rfl, ⟨free', lays'⟩, sound'⟩) later
          · rw [← reads] at more
            rw [Tree.word_inner, interleave_around countBefore countAfter,
              interleave_around countBefore countAfter]
            simp only [Word.items_append, more, ← Multiset.singleton_add]
            abel
          · rw [Tree.leftmost_eq, Tree.leftmost_eq, head_leftmost left]
          · refine Tree.sized_inner.mpr ⟨⟨least, bound⟩, ?_, ?_⟩
            · rw [← count, List.length_append, List.length_append, List.length_cons, List.length_cons]
            · intro other here
              rw [List.mem_append, List.mem_cons] at here
              rcases here with old | rfl | old
              · exact sizedKids other (by simp [old])
              · exact sized'
              · exact sizedKids other (by simp [old])
      | split tree new separator inner same left reads sized' sizedNew rests =>
          obtain ⟨rfl, ⟨free', lays'⟩, sound'⟩ := rests
          have addresses : (before ++ tree :: after).map Tree.addr = (before ++ kid :: after).map Tree.addr := by
            rw [List.map_append, List.map_append, List.map_cons, List.map_cons, same]
          have regroup' : tree.nodes + (new.nodes +
              ({⟨addr, false, xs ++ ys, (before ++ kid :: after).map Tree.addr⟩} +
                Tree.nodesOf before + Tree.nodesOf after + others)) =
              {⟨addr, false, xs ++ ys, (before ++ tree :: after).map Tree.addr⟩} +
                (Tree.nodesOf (before ++ tree :: new :: after) + others) := by
            rw [addresses, Tree.nodesOf_append, Tree.nodesOf_cons, Tree.nodesOf_cons]
            abel
          have proper : new.addr ≠ -1 := by
            obtain ⟨desc, here, place⟩ := new.root_mem_nodes
            have inFile := (lays'.node_inFile (Multiset.mem_add.mpr (.inr (Multiset.mem_add.mpr (.inl here))))).1.2.1
            omega
          rw [regroup'] at lays'
          have member' : ⟨addr, false, xs ++ ys, (before ++ tree :: after).map Tree.addr⟩ ∈
              ({⟨addr, false, xs ++ ys, (before ++ tree :: after).map Tree.addr⟩} +
                (Tree.nodesOf (before ++ tree :: new :: after) + others) : Multiset NodeDesc) :=
            Multiset.mem_add.mpr (.inl (Multiset.mem_singleton_self _))
          have focus : (front ++ wordBefore Tree.word before xs) ++ word ++ (wordAfter Tree.word ys after ++ back) =
              front ++ interleave Tree.word (xs ++ separator :: ys) (before ++ tree :: new :: after) ++ back := by
            rw [interleave_pair countBefore countAfter, ← reads]
            simp only [List.append_assoc, List.cons_append]
          rw [focus] at sound'
          refine wp_getNode lays' member' (by decide) fun node' is' => ?_
          rw [if_neg proper]
          have firstLeaf : (before ++ tree :: new :: after).head?.map Tree.leftmost =
              some (Tree.inner addr (xs ++ ys) (before ++ kid :: after)).leftmost := by
            cases before with
            | nil => exact congrArg some left
            | cons head before => rfl
          refine wp_insertInner positive lays' is' countBefore countAfter least bound ?_ firstLeaf rfl sound' ?_
          · intro other here
            rw [List.mem_append, List.mem_cons, List.mem_cons] at here
            rcases here with old | rfl | rfl | old
            · exact sizedKids other (by simp [old])
            · exact sized'
            · exact sizedNew
            · exact sizedKids other (by simp [old])
          · intro entry' state' settled' sameWorld
            refine ended _ _ _ ?_ settled' (sameWorld ▸ later)
            rw [← reads] at more
            rw [interleave_pair countBefore countAfter, interleave_around countBefore countAfter]
            simp only [Word.items_append, Word.items_sep] at more ⊢
            rw [more, ← Multiset.singleton_add, ← Multiset.singleton_add]
            abel
      | grown tree top left reads sized' rests => exact absurd top below

end Insertion

end MyJQL.Index
