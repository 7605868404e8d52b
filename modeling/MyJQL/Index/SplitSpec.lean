import MyJQL.Index.SearchSpec

/-!
# Splits

`insert_entry` on a full node leaves two nodes, the halves of the lists with the new entry in
them, and a root over the two if the node was the root. The four copies of the code differ in
the pages they take and in the order of their steps.
-/

namespace MyJQL.Index

open Library Library.Prog Storage

/-- Two nodes stand where one stood, and a root over them if it was the root. -/
inductive Halved (root : Int) (others : Multiset NodeDesc) (left right : NodeDesc) (separator : RID) :
    PageMap IndexPage → Prop where
  | beside {map : PageMap IndexPage} (free : List Int) (inner : left.addr ≠ root)
      (lays : Lays map ⟨root, {left} + ({right} + others), 0, free⟩) : Halved root others left right separator map
  | below {map : PageMap IndexPage} (addrRoot : Int) (free : List Int) (top : left.addr = root)
      (lays : Lays map ⟨addrRoot, {⟨addrRoot, false, [separator], [left.addr, right.addr]⟩} +
        ({left} + ({right} + others)), 0, free⟩) : Halved root others left right separator map

section Split

variable {K Q : Type} [LinearOrder K] {ask : Q → K} {degree : Nat} {addr addrNew addrRootNew root : Int}
  {others : Multiset NodeDesc} {map : PageMap IndexPage} {world : World K} {node new rootNew : BNode} {leaf : Bool}
  {rows rows' oldRows : List RID} {kids kids' oldKids : List Int} {taken : Multiset Int} {free : List Int}
  {separator : RID}

/-! ## The end of a split -/

/-- The two halves are written. -/
theorem wp_writeHalves {post : Unit → TreeState K → Prop} {pins : Multiset Int}
    (lays : Lays map ⟨root, {⟨addr, leaf, oldRows, oldKids⟩} + others, {addrNew} + taken, free⟩)
    (is : NodeIs node leaf rows kids) (isNew : NodeIs new leaf rows' kids') (pinned : addr ∈ pins)
    (pinnedNew : addrNew ∈ pins)
    (ended : ∀ map', Lays map' ⟨root, {⟨addr, leaf, rows, kids⟩} + ({⟨addrNew, leaf, rows', kids'⟩} + others), taken,
      free⟩ → post () (⟨map', pins⟩, world)) :
    (writeNode addr node : TreeProg Q Unit).wp (treeLogic ask)
      (fun _ after => (writeNode addrNew new).wp (treeLogic ask) post after) (⟨map, pins⟩, world) := by
  refine wp_writeNode lays is pinned fun map' lays' => ?_
  refine wp_writeNew lays' isNew pinnedNew fun map'' lays'' => ?_
  exact ended map'' (lays''.regroup (add_left_comm _ _ _))

/-- The two halves are released. -/
theorem wp_releaseHalves {post : Unit → TreeState K → Prop} {pins rest : Multiset Int}
    (pinned : pins = addr ::ₘ addrNew ::ₘ rest) (ended : post () (⟨map, rest⟩, world)) :
    (release addr : TreeProg Q Unit).wp (treeLogic ask)
      (fun _ after => (release addrNew).wp (treeLogic ask) post after) (⟨map, pins⟩, world) := by
  subst pinned
  refine wp_release (Multiset.mem_cons_self _ _) ?_
  rw [Multiset.erase_cons_head]
  refine wp_release (Multiset.mem_cons_self _ _) ?_
  rw [Multiset.erase_cons_head]
  exact ended

/-- The pins of a split at the root, in the order of their release. -/
theorem split_pins (a b c : Int) : a ::ₘ b ::ₘ c ::ₘ 0 = c ::ₘ b ::ₘ a ::ₘ (0 : Multiset Int) := by
  simp only [← Multiset.singleton_add]
  abel

/-! ## A full node above the leaves -/

theorem wp_splitInner {entry : NewChildEntry} {post : NewChildEntry → TreeState K → Prop} (positive : 1 ≤ degree)
    (lays : Lays map ⟨root, {⟨addr, false, rows, kids⟩} + others, 0, free⟩) (is : NodeIs node false rows kids)
    (full : rows.length = 2 * degree) (count : kids.length = rows.length + 1) (known : world.Knows entry.childKey)
    (knows : ∀ row ∈ rows, world.Knows row)
    (ended : ∀ xs ys as bs middle addrNew map', rows = xs ++ ys → kids = as ++ bs → as.length = xs.length + 1 →
      (∀ row ∈ xs, world.key row ≤ world.key entry.childKey) →
      (∀ row ∈ ys.head?, world.key entry.childKey < world.key row) →
      (xs ++ entry.childKey :: ys)[degree]? = some middle →
      Halved root others
        ⟨addr, false, (xs ++ entry.childKey :: ys).take degree, (as ++ entry.childPtr :: bs).take (degree + 1)⟩
        ⟨addrNew, false, (xs ++ entry.childKey :: ys).drop (degree + 1), (as ++ entry.childPtr :: bs).drop (degree + 1)⟩
        middle map' → post ⟨middle, addrNew⟩ (⟨map', 0⟩, world)) :
    (insertInner degree addr node entry root : TreeProg Q NewChildEntry).wp (treeLogic ask) post
      (⟨map, addr ::ₘ 0⟩, world) := by
  have noRoom : ¬ node.n < 2 * degree := by
    rw [is.count, full]
    exact lt_irrefl _
  have splits : ∀ {node : BNode} (_ : NodeIs node false rows kids) (new : BNode) {xs ys : List RID}, rows = xs ++ ys →
      ∃ as bs node' new' middle,
      kids = as ++ bs ∧ as.length = xs.length + 1 ∧
      splitSlots degree node { new with n := degree, leaf := false, next := -1 } xs.length entry =
        some (node', new', middle) ∧ (xs ++ entry.childKey :: ys)[degree]? = some middle ∧
      NodeIs node' false ((xs ++ entry.childKey :: ys).take degree) ((as ++ entry.childPtr :: bs).take (degree + 1)) ∧
      NodeIs new' false ((xs ++ entry.childKey :: ys).drop (degree + 1))
        ((as ++ entry.childPtr :: bs).drop (degree + 1)) := by
    rintro node is new xs ys rfl
    rw [List.length_append] at count
    have place : (kids.take (xs.length + 1)).length = xs.length + 1 := by
      rw [List.length_take]
      omega
    have rest : (kids.drop (xs.length + 1)).length = ys.length := by
      rw [List.length_drop]
      omega
    rw [← List.take_append_drop (xs.length + 1) kids] at is
    obtain ⟨node', new', middle, computed, cut, is', isNew⟩ :=
      @splitSlots_spec degree node { new with n := degree, leaf := false, next := -1 } _ _ _ _ entry is place rest full
        positive rfl rfl
    exact ⟨_, _, node', new', middle, (List.take_append_drop _ _).symm, place, computed, cut, is', isNew⟩
  unfold insertInner
  rw [if_neg noRoom]
  by_cases top : addr = root
  · rw [if_pos top]
    simp only [wp_bind]
    refine wp_getPage lays.ctrl_inFile room_one ?_
    refine wp_takeNode lays (Multiset.mem_cons_self _ _) room_two fun addrNew map₁ free₁ lays₁ => ?_
    have fetched : (0 : Int) ∈ addrNew ::ₘ 0 ::ₘ addr ::ₘ 0 := Multiset.mem_cons_of_mem (Multiset.mem_cons_self _ _)
    refine wp_takeNode lays₁ fetched room_three fun addrRootNew map₂ free₂ lays₂ => ?_
    have pinnedNew : addrNew ∈ addrRootNew ::ₘ addrNew ::ₘ addr ::ₘ 0 :=
      Multiset.mem_cons_of_mem (Multiset.mem_cons_self _ _)
    have pinned : addr ∈ addrRootNew ::ₘ addrNew ::ₘ addr ::ₘ 0 :=
      Multiset.mem_cons_of_mem (Multiset.mem_cons_of_mem (Multiset.mem_cons_self _ _))
    rw [add_left_comm ({addrRootNew} : Multiset Int)] at lays₂
    refine wp_release (Multiset.mem_cons_of_mem fetched) ?_
    rw [erase_third]
    refine wp_readTaken lays₂ pinnedNew fun new => ?_
    refine wp_writeTaken lays₂ pinnedNew fun map₃ lays₃ content => ?_
    refine wp_scanBefore lays₃ Lays.mem_front pinned full.le full.symm known knows fun xs ys split passed stopped => ?_
    refine wp_readNode lays₃ Lays.mem_front pinned fun node is => wp_readPage content pinnedNew ?_
    obtain ⟨as, bs, node', new', middle, splitKids, place, computed, cut, is', isNew⟩ := splits is new split
    rw [computed]
    simp only [wp_ofOption_some]
    refine wp_writeHalves lays₃ is' isNew pinned pinnedNew fun map₄ lays₄ => ?_
    refine wp_releaseHalves (split_pins _ _ _) ?_
    refine wp_readTaken lays₄ (Multiset.mem_cons_self _ _) fun rootNew => ?_
    obtain ⟨rootNode, made, isRoot⟩ := @newRoot_spec degree addr addrNew middle positive rootNew
    rw [made]
    simp only [wp_ofOption_some]
    refine wp_putTaken lays₄ isRoot (Multiset.mem_cons_self _ _) fun map₅ lays₅ => ?_
    rw [Multiset.erase_cons_head]
    refine wp_setRoot lays₅ (by decide) fun map₆ lays₆ => ?_
    exact ended xs ys as bs middle addrNew map₆ split splitKids place passed stopped cut (.below _ _ top lays₆)
  · rw [if_neg top]
    simp only [wp_bind]
    refine wp_getPage lays.ctrl_inFile room_one ?_
    refine wp_takeNode lays (Multiset.mem_cons_self _ _) room_two fun addrNew map₁ free₁ lays₁ => ?_
    have pinnedNew : addrNew ∈ addrNew ::ₘ addr ::ₘ 0 := Multiset.mem_cons_self _ _
    have pinned : addr ∈ addrNew ::ₘ addr ::ₘ 0 := Multiset.mem_cons_of_mem (Multiset.mem_cons_self _ _)
    refine wp_release (Multiset.mem_cons_of_mem (Multiset.mem_cons_self _ _)) ?_
    rw [erase_second]
    refine wp_readTaken lays₁ pinnedNew fun new => ?_
    refine wp_writeTaken lays₁ pinnedNew fun map₂ lays₂ content => ?_
    refine wp_scanBefore lays₂ Lays.mem_front pinned full.le full.symm known knows fun xs ys split passed stopped => ?_
    refine wp_readNode lays₂ Lays.mem_front pinned fun node is => wp_readPage content pinnedNew ?_
    obtain ⟨as, bs, node', new', middle, splitKids, place, computed, cut, is', isNew⟩ := splits is new split
    rw [computed]
    simp only [wp_ofOption_some]
    refine wp_writeHalves lays₂ is' isNew pinned pinnedNew fun map₃ lays₃ => ?_
    refine wp_releaseHalves (Multiset.cons_swap _ _ _) ?_
    exact ended xs ys as bs middle addrNew map₃ split splitKids place passed stopped cut (.beside _ top lays₃)

/-! ## A full leaf -/

theorem wp_splitLeaf {rid : RID} {post : NewChildEntry → TreeState K → Prop} (positive : 1 ≤ degree)
    (lays : Lays map ⟨root, {⟨addr, true, rows, []⟩} + others, 0, free⟩) (is : NodeIs node true rows [])
    (full : rows.length = 2 * degree) (known : world.Knows rid) (knows : ∀ row ∈ rows, world.Knows row)
    (ended : ∀ xs ys row made key addrNew map', rows = xs ++ ys → (∀ row ∈ xs, world.key row ≤ world.key rid) →
      (∀ row ∈ ys.head?, world.key rid < world.key row) → ((xs ++ rid :: ys).drop degree).head? = some row →
      (∀ known, world.Knows known → key known = world.key known) → key made = world.key row →
      Halved root others ⟨addr, true, (xs ++ rid :: ys).take degree, []⟩
        ⟨addrNew, true, (xs ++ rid :: ys).drop degree, []⟩ made map' →
        post ⟨made, addrNew⟩ (⟨map', 0⟩, ⟨key, world.held, made ::ₘ world.owed⟩)) :
    (insertLeaf degree addr node rid root : TreeProg Q NewChildEntry).wp (treeLogic ask) post
      (⟨map, addr ::ₘ 0⟩, world) := by
  have noRoom : ¬ node.n < 2 * degree := by
    rw [is.count, full]
    exact lt_irrefl _
  -- the first row of the new leaf
  have firsts : ∀ {xs ys : List RID}, rows = xs ++ ys →
      ∃ row rest, (xs ++ rid :: ys).drop degree = row :: rest ∧ world.Knows row := by
    rintro xs ys rfl
    rw [List.length_append] at full
    obtain ⟨row, rest, cut⟩ : ∃ row rest, (xs ++ rid :: ys).drop degree = row :: rest := by
      apply List.exists_cons_of_length_pos
      simp only [List.length_drop, List.length_append, List.length_cons]
      omega
    refine ⟨row, rest, cut, ?_⟩
    have member : row ∈ xs ++ rid :: ys := List.mem_of_mem_drop (cut ▸ List.mem_cons_self)
    rw [List.mem_append, List.mem_cons] at member
    rcases member with old | rfl | old
    · exact knows row (List.mem_append_left _ old)
    · exact known
    · exact knows row (List.mem_append_right _ old)
  have splits : ∀ {node : BNode} {xs ys : List RID} (_ : NodeIs node true rows []) (new : BNode), rows = xs ++ ys →
      ∃ node' new',
      splitRows degree node { new with n := degree + 1, leaf := true, next := -1 } xs.length rid =
        some (node', new') ∧ NodeIs node' true ((xs ++ rid :: ys).take degree) [] ∧
          NodeIs new' true ((xs ++ rid :: ys).drop degree) [] := by
    rintro node xs ys is new rfl
    exact splitRows_spec is full positive rfl rfl
  unfold insertLeaf
  rw [if_neg noRoom]
  by_cases top : addr = root
  · rw [if_pos top]
    simp only [wp_bind]
    refine wp_getPage lays.ctrl_inFile room_one ?_
    refine wp_takeNode lays (Multiset.mem_cons_self _ _) room_two fun addrNew map₁ free₁ lays₁ => ?_
    have fetched : (0 : Int) ∈ addrNew ::ₘ 0 ::ₘ addr ::ₘ 0 := Multiset.mem_cons_of_mem (Multiset.mem_cons_self _ _)
    refine wp_takeNode lays₁ fetched room_three fun addrRootNew map₂ free₂ lays₂ => ?_
    have pinnedNew : addrNew ∈ addrRootNew ::ₘ addrNew ::ₘ addr ::ₘ 0 :=
      Multiset.mem_cons_of_mem (Multiset.mem_cons_self _ _)
    have pinned : addr ∈ addrRootNew ::ₘ addrNew ::ₘ addr ::ₘ 0 :=
      Multiset.mem_cons_of_mem (Multiset.mem_cons_of_mem (Multiset.mem_cons_self _ _))
    rw [add_left_comm ({addrRootNew} : Multiset Int)] at lays₂
    refine wp_release (Multiset.mem_cons_of_mem fetched) ?_
    rw [erase_third]
    refine wp_readTaken lays₂ pinnedNew fun new => ?_
    refine wp_writeTaken lays₂ pinnedNew fun map₃ lays₃ content => ?_
    refine wp_scanBefore lays₃ Lays.mem_front pinned full.le full.symm known knows fun xs ys split passed stopped => ?_
    refine wp_readNode lays₃ Lays.mem_front pinned fun node is => wp_readPage content pinnedNew ?_
    obtain ⟨row, rest, cut, knowsRow⟩ := firsts split
    obtain ⟨node', new', computed, is', isNew⟩ := splits is new split
    rw [computed]
    simp only [wp_ofOption_some]
    refine wp_writeHalves lays₃ is' isNew pinned pinnedNew fun map₄ lays₄ => ?_
    rw [rowAt_first (cut ▸ isNew) positive]
    simp only [wp_ofOption_some]
    refine wp_insertHandler knowsRow fun made key agree same => ?_
    refine wp_readTaken lays₄ (Multiset.mem_cons_self _ _) fun rootNew => ?_
    obtain ⟨rootNode, built, isRoot⟩ := @newRoot_spec degree addr addrNew made positive rootNew
    rw [built]
    simp only [wp_ofOption_some]
    refine wp_writeNew lays₄ isRoot (Multiset.mem_cons_self _ _) fun map₅ lays₅ => ?_
    refine wp_releaseHalves (split_pins _ _ _) ?_
    refine wp_readNode lays₅ Lays.mem_front (Multiset.mem_cons_self _ _) fun rootNode isRoot => ?_
    rw [rowAt_first isRoot positive]
    simp only [wp_ofOption_some]
    refine wp_release (Multiset.mem_cons_self _ _) ?_
    rw [Multiset.erase_cons_head]
    refine wp_setRoot lays₅ (by decide) fun map₆ lays₆ => ?_
    exact ended xs ys row made key addrNew map₆ split passed stopped (cut ▸ rfl) agree same (.below _ _ top lays₆)
  · rw [if_neg top]
    simp only [wp_bind]
    refine wp_getPage lays.ctrl_inFile room_one ?_
    refine wp_takeNode lays (Multiset.mem_cons_self _ _) room_two fun addrNew map₁ free₁ lays₁ => ?_
    have pinnedNew : addrNew ∈ addrNew ::ₘ addr ::ₘ 0 := Multiset.mem_cons_self _ _
    have pinned : addr ∈ addrNew ::ₘ addr ::ₘ 0 := Multiset.mem_cons_of_mem (Multiset.mem_cons_self _ _)
    refine wp_release (Multiset.mem_cons_of_mem (Multiset.mem_cons_self _ _)) ?_
    rw [erase_second]
    refine wp_readTaken lays₁ pinnedNew fun new => ?_
    refine wp_writeTaken lays₁ pinnedNew fun map₂ lays₂ content => ?_
    refine wp_scanBefore lays₂ Lays.mem_front pinned full.le full.symm known knows fun xs ys split passed stopped => ?_
    obtain ⟨row, rest, cut, knowsRow⟩ := firsts split
    by_cases early : xs.length < degree
    · -- the copy is made before the rows are moved
      rw [if_pos early]
      simp only [wp_bind]
      refine wp_readNode lays₂ Lays.mem_front pinned fun node is => ?_
      have atMiddle : node.rowAt degree (degree - 1) = some row := by
        have here : (xs ++ rid :: ys)[degree]? = some row := by
          rw [← List.head?_drop, cut, List.head?_cons]
        have holds := is.rows (degree - 1) (by omega)
        rw [rowAt_eq (by omega), ← holds, ← here, split, List.getElem?_append_right (by omega),
          List.getElem?_append_right early.le]
        obtain ⟨gap, distance⟩ : ∃ gap, degree - xs.length = gap + 1 := ⟨degree - xs.length - 1, by omega⟩
        rw [distance, List.getElem?_cons_succ]
        congr 1
        omega
      rw [atMiddle]
      simp only [wp_ofOption_some]
      refine wp_insertHandler knowsRow fun made key agree same => ?_
      refine wp_readNode lays₂ Lays.mem_front pinned fun node is => wp_readPage content pinnedNew ?_
      obtain ⟨node', new', computed, is', isNew⟩ := splits is new split
      rw [computed]
      simp only [wp_ofOption_some]
      refine wp_writeHalves lays₂ is' isNew pinned pinnedNew fun map₃ lays₃ => ?_
      refine wp_releaseHalves (Multiset.cons_swap _ _ _) ?_
      exact ended xs ys row made key addrNew map₃ split passed stopped (cut ▸ rfl) agree same (.beside _ top lays₃)
    · rw [if_neg early]
      simp only [wp_bind]
      refine wp_readNode lays₂ Lays.mem_front pinned fun node is => wp_readPage content pinnedNew ?_
      obtain ⟨node', new', computed, is', isNew⟩ := splits is new split
      rw [computed]
      simp only [wp_ofOption_some]
      refine wp_writeHalves lays₂ is' isNew pinned pinnedNew fun map₃ lays₃ => ?_
      rw [rowAt_first (cut ▸ isNew) positive]
      simp only [wp_ofOption_some]
      refine wp_insertHandler knowsRow fun made key agree same => ?_
      refine wp_releaseHalves (Multiset.cons_swap _ _ _) ?_
      exact ended xs ys row made key addrNew map₃ split passed stopped (cut ▸ rfl) agree same (.beside _ top lays₃)

end Split

end MyJQL.Index
