import MyJQL.Index.TreeLogic

/-!
# Trees on pages, and the search

A tree at rest: its nodes are in the layout, its word is sorted, its rows are kept alive
by the caller, and its separators are what is owed to `delete_handler`. A descent carries
the words in front of and behind the subtree that it has reached; a search for a key
passes all of the one and none of the other.
-/

namespace MyJQL.Index

open Library Library.Prog Storage

section Sound

variable {K : Type} {world world' world'' : World K} {stale : Multiset RID} {word front back : Word RID}
  {x : K} {mark : Mark RID} {row rid made : RID} {key : RID → K}

/-- What stays of a world while the index works: the RIDs kept alive, and their keys. -/
structure Later (world world' : World K) : Prop where
  held : world'.held = world.held
  key : ∀ rid ∈ world.held, world'.key rid = world.key rid

theorem Later.refl (world : World K) : Later world world := ⟨rfl, fun _ _ => rfl⟩

theorem Later.trans (first : Later world world') (second : Later world' world'') : Later world world'' := by
  refine ⟨second.held.trans first.held, fun rid member => ?_⟩
  rw [second.key rid (first.held ▸ member), first.key rid member]

/-- A handler keeps the keys of the RIDs that are known. -/
theorem Later.of_agree {owed : Multiset RID} (agree : ∀ known ∈ world.held, key known = world.key known) :
    Later world ⟨key, world.held, owed⟩ := ⟨rfl, agree⟩

variable [LinearOrder K]

/-- The word of a tree in its world; `stale` are owed, but no longer part of the tree. -/
structure Sound (world : World K) (stale : Multiset RID) (word : Word RID) : Prop where
  sorted : word.Sorted world.key
  held : ∀ row ∈ word.items, row ∈ world.held
  owed : world.owed = stale + word.seps

/-- Passed by a search for `x`, or not reached by it. -/
structure Around (world : World K) (x : K) (front back : Word RID) : Prop where
  before : ∀ mark ∈ front, mark.Before world.key x
  after : ∀ mark ∈ back, mark.After world.key x

theorem Sound.nil (owed : world.owed = 0) : Sound world 0 [] := by
  refine ⟨List.Pairwise.nil, fun _ member => ?_, owed⟩
  exact absurd member (Multiset.notMem_zero _)

/-- Nothing stands around a whole tree. -/
theorem Around.nil (world : World K) (x : K) : Around world x [] [] := by
  constructor
  · exact fun _ member => absurd member List.not_mem_nil
  · exact fun _ member => absurd member List.not_mem_nil

theorem Sound.knows (sound : Sound world stale word) (member : mark ∈ word) : world.Knows mark.row := by
  cases mark with
  | item row => exact .inl (sound.held row (Word.mem_items.mpr member))
  | sep separator =>
      right
      rw [sound.owed]
      exact Multiset.mem_add.mpr (.inr (Word.mem_seps.mpr member))

theorem Sound.knows_item (sound : Sound world stale word) (member : .item row ∈ word) : world.Knows row :=
  sound.knows member

theorem Sound.knows_sep (sound : Sound world stale word) (member : .sep row ∈ word) : world.Knows row :=
  sound.knows member

/-- A row where a search for its key ends. -/
theorem Sound.insert_row (sound : Sound world stale (front ++ back)) (held : rid ∈ world.held)
    (around : Around world (world.key rid) front back) : Sound world stale (front ++ .item rid :: back) := by
  refine ⟨sound.sorted.insert_item around.before around.after, ?_, ?_⟩
  · intro row member
    rw [Word.items_append, Word.items_item, Multiset.add_cons, Multiset.mem_cons] at member
    rcases member with rfl | old
    · exact held
    · rw [← Word.items_append] at old
      exact sound.held row old
  · rw [sound.owed, Word.seps_append, Word.seps_append, Word.seps_item]

/-- `insert_handler` makes a separator, which goes in front of the row whose key it copies. -/
theorem Sound.copy {previous : RID} (sound : Sound world stale (front ++ .item previous :: .item row :: back))
    (agree : ∀ known, world.Knows known → key known = world.key known) (same : key made = world.key row) :
    Sound ⟨key, world.held, made ::ₘ world.owed⟩ stale
      (front ++ .item previous :: .sep made :: .item row :: back) := by
  have rowKey : key row = world.key row :=
    agree row (sound.knows_item (List.mem_append_right _ (List.mem_cons_of_mem _ List.mem_cons_self)))
  have sorted := sound.sorted.congr fun mark member => agree mark.row (sound.knows member)
  refine ⟨sorted.insert_sep (same.trans rowKey.symm), ?_, ?_⟩
  · intro other member
    refine sound.held other ?_
    simpa only [Word.items_append, Word.items_item, Word.items_sep] using member
  · have owed := sound.owed
    simp only [Word.seps_append, Word.seps_item, Word.seps_sep] at owed ⊢
    rw [owed, ← Multiset.singleton_add, ← Multiset.singleton_add]
    abel

/-- `delete_handler` takes a separator that is no longer part of the tree. -/
theorem Sound.drop (sound : Sound world ({row} + stale) word)
    (agree : ∀ known, World.Knows ⟨world.key, world.held, world.owed.erase row⟩ known →
      key known = world.key known) :
    Sound ⟨key, world.held, world.owed.erase row⟩ stale word := by
  have owed : world.owed.erase row = stale + word.seps := by
    rw [sound.owed, Multiset.singleton_add, Multiset.cons_add, Multiset.erase_cons_head]
  have rest : Sound ⟨world.key, world.held, world.owed.erase row⟩ stale word := ⟨sound.sorted, sound.held, owed⟩
  exact ⟨sound.sorted.congr fun mark member => agree mark.row (rest.knows member), sound.held, owed⟩

/-- A search that has passed `front` finds its key neither there nor behind. -/
theorem Around.notMem (around : Around world x front back) (same : world.key row = x) :
    row ∉ Word.items front ∧ row ∉ Word.items back := by
  constructor
  · intro member
    have less := around.before _ (Word.mem_items.mp member)
    exact lt_irrefl x (same ▸ less)
  · intro member
    have less := around.after _ (Word.mem_items.mp member)
    exact lt_irrefl x (same ▸ less)

/-- The place of a key in a leaf that does not have it. -/
theorem Around.rows {xs ys : List RID} (around : Around world x front back)
    (sorted : Word.Sorted world.key (front ++ (xs ++ ys).map .item ++ back))
    (passed : ∀ row ∈ xs, world.key row ≤ x) (absent : ∀ row ∈ xs, world.key row ≠ x)
    (stopped : ∀ row ∈ ys.head?, x < world.key row) :
    Around world x (front ++ xs.map .item) (ys.map .item ++ back) := by
  constructor
  · intro mark member
    rcases List.mem_append.mp member with old | new
    · exact around.before mark old
    · obtain ⟨row, here, rfl⟩ := List.mem_map.mp new
      exact lt_of_le_of_ne (passed row here) (absent row here)
  · intro mark member
    rcases List.mem_append.mp member with new | old
    · cases ys with
      | nil => exact absurd new List.not_mem_nil
      | cons row ys =>
          have less : x < world.key row := stopped row rfl
          rw [List.map_cons, List.mem_cons] at new
          rcases new with rfl | new
          · exact less
          · have regroup : Word.Sorted world.key
                ((front ++ xs.map .item) ++ .item row :: (ys.map .item ++ back)) := by
              simpa only [List.map_append, List.map_cons, List.append_assoc, List.cons_append] using sorted
            exact regroup.after less mark (List.mem_append_left _ new)
    · exact around.after mark old

section Descent

variable {height : Nat} {xs ys : List RID} {kids kids' : List (Tree Int RID height)}
  {kid : Tree Int RID height}

/-- The word of a node, seen from one of its children. -/
theorem word_focus (count : kids.length = xs.length) (count' : kids'.length = ys.length) :
    front ++ interleave Tree.word (xs ++ ys) (kids ++ kid :: kids') ++ back =
      (front ++ wordBefore Tree.word kids xs) ++ kid.word ++ (wordAfter Tree.word ys kids' ++ back) := by
  rw [interleave_around count count']
  simp only [List.append_assoc]

/-- One step down a tree, to the child between the separators a search passes and the others. -/
theorem Around.descend (around : Around world x front back)
    (sorted : Word.Sorted world.key
      ((front ++ wordBefore Tree.word kids xs) ++ kid.word ++ (wordAfter Tree.word ys kids' ++ back)))
    (passed : ∀ separator ∈ xs, world.key separator ≤ x)
    (stopped : ∀ separator ∈ ys.head?, x < world.key separator) :
    Around world x (front ++ wordBefore Tree.word kids xs) (wordAfter Tree.word ys kids' ++ back) := by
  constructor
  · have regroup : Word.Sorted world.key
        (front ++ (wordBefore Tree.word kids xs ++ (kid.word ++ (wordAfter Tree.word ys kids' ++ back)))) := by
      simpa only [List.append_assoc] using sorted
    intro mark member
    rcases List.mem_append.mp member with old | new
    · exact around.before mark old
    · exact wordBefore_before regroup passed mark new
  · intro mark member
    rcases List.mem_append.mp member with new | old
    · exact wordAfter_after sorted stopped mark new
    · exact around.after mark old

end Descent

/-- No page is fetched, the nodes are on their pages, and the word is that of the tree. -/
structure Rests (state : TreeState K) (root : Int) (nodes : Multiset NodeDesc) (stale : Multiset RID)
    (word : Word RID) : Prop where
  pins : state.1.pins = 0
  lays : ∃ free, Lays state.1.map ⟨root, nodes, 0, free⟩
  sound : Sound state.2 stale word

end Sound

/-! ## Search -/

section Search

variable {K Q : Type} [LinearOrder K] {growing : Prop} {ask : Q → K} {degree : Nat} {map : PageMap IndexPage}
  {layout : Layout} {world : World K} {key : Q}

/-- The result of a search for `x` among these rows. -/
def Answers (world : World K) (x : K) (rows : Multiset RID) (result : RID) : Prop :=
  (result ∈ rows ∧ world.key result = x) ∨ ((∀ row ∈ rows, world.key row ≠ x) ∧ result = failedRid)

omit [LinearOrder K] in
/-- Rows that are not the key of the search do not matter. -/
theorem Answers.widen {x : K} {rows others : Multiset RID} {result : RID}
    (answers : Answers world x rows result) (absent : ∀ row ∈ others, world.key row ≠ x) :
    Answers world x (others + rows) result := by
  rcases answers with ⟨found, same⟩ | ⟨missing, failed⟩
  · exact .inl ⟨Multiset.mem_add.mpr (.inr found), same⟩
  · refine .inr ⟨fun row member => ?_, failed⟩
    rcases Multiset.mem_add.mp member with other | here
    · exact absent row other
    · exact missing row here

/-- `search_entry` on a subtree finds the row of the key, if it is there. -/
theorem wp_searchEntry {height : Nat} (tree : Tree Int RID height) {rounds low : Nat}
    {front back : Word RID} {stale : Multiset RID} {post : RID → TreeState K → Prop} (enough : height < rounds)
    (lays : Lays map layout) (nodes : tree.nodes ⊆ layout.nodes) (sized : tree.Sized degree low)
    (sound : Sound world stale (front ++ tree.word ++ back)) (around : Around world (ask key) front back)
    (ended : ∀ result, Answers world (ask key) (front ++ tree.word ++ back).items result →
      post result (⟨map, 0⟩, world)) :
    (searchEntry degree rounds tree.addr key).wp (growthLogic growing ask) post (⟨map, 0⟩, world) := by
  induction height generalizing rounds low front back with
  | zero =>
      obtain ⟨addr, rows, rfl⟩ := tree.exists_leaf
      obtain ⟨rounds, rfl⟩ : ∃ less, rounds = less + 1 := ⟨rounds - 1, by omega⟩
      rw [Tree.sized_leaf] at sized
      have member : ⟨addr, true, rows, []⟩ ∈ layout.nodes := nodes (Multiset.mem_singleton_self _)
      have knows : ∀ row ∈ rows, world.Knows row := fun row here =>
        sound.knows_item (by simp [here])
      have outside : ∀ row ∈ Word.items front + Word.items back, world.key row ≠ ask key := by
        intro row there same
        rcases Multiset.mem_add.mp there with left | right
        · exact (around.notMem same).1 left
        · exact (around.notMem same).2 right
      have whole : (front ++ (Tree.leaf addr rows).word ++ back).items =
          Word.items front + Word.items back + rows := by
        simp only [Word.items_append, Tree.word_leaf, Word.items_rows]
        abel
      rw [whole] at ended
      rw [Tree.addr_leaf]
      unfold searchEntry
      simp only [wp_bind]
      refine wp_getNode lays member (by decide) fun node is => ?_
      rw [if_pos is.kind]
      simp only [wp_bind]
      refine wp_scanRows lays member (Multiset.mem_cons_self _ _) sized.2 is.count
        (fun row here next => wp_keyEquals (knows row here)) ?_
      intro xs ys split failed passed
      refine wp_readNode lays member (Multiset.mem_cons_self _ _) fun node is => ?_
      cases ys with
      | nil =>
          rw [List.append_nil] at split
          subst split
          rw [if_neg (by rw [is.count]; exact lt_irrefl _)]
          simp only [wp_bind]
          refine wp_release (Multiset.mem_cons_self _ _) ?_
          rw [Multiset.erase_cons_head]
          have missing : Answers world (ask key) (rows : Multiset RID) failedRid :=
            .inr ⟨fun row here same => failed row here same.symm, rfl⟩
          exact ended _ (missing.widen outside)
      | cons row ys =>
          subst split
          have inside : xs.length < (xs ++ row :: ys).length := by
            rw [List.length_append, List.length_cons]
            omega
          rw [if_pos (is.count ▸ inside), rowAt_place is (by omega)]
          simp only [wp_ofOption_some, wp_bind]
          refine wp_release (Multiset.mem_cons_self _ _) ?_
          rw [Multiset.erase_cons_head]
          have found : Answers world (ask key) ((xs ++ row :: ys : List RID) : Multiset RID) row :=
            .inl ⟨List.mem_append_right _ List.mem_cons_self, (passed row rfl).symm⟩
          exact ended _ (found.widen outside)
  | succ height ih =>
      obtain ⟨addr, seps, kids, rfl⟩ := tree.exists_inner
      obtain ⟨rounds, rfl⟩ : ∃ less, rounds = less + 1 := ⟨rounds - 1, by omega⟩
      rw [Tree.nodes_inner] at nodes
      rw [Tree.word_inner] at sound ended
      obtain ⟨⟨-, bound⟩, count, sizedKids⟩ := Tree.sized_inner.mp sized
      have member : ⟨addr, false, seps, kids.map Tree.addr⟩ ∈ layout.nodes :=
        nodes (Multiset.mem_add.mpr (.inl (Multiset.mem_singleton_self _)))
      have knows : ∀ row ∈ seps, world.Knows row := fun row here => by
        have inWord : .sep row ∈ interleave Tree.word seps kids := mem_interleave count here
        exact sound.knows_sep (by simp [inWord])
      rw [Tree.addr_inner]
      unfold searchEntry
      simp only [wp_bind]
      refine wp_getNode lays member (by decide) fun node is => ?_
      rw [if_neg (by rw [is.kind]; exact Bool.false_ne_true)]
      simp only [wp_bind]
      refine wp_scanRows lays member (Multiset.mem_cons_self _ _) bound is.count
        (fun row here next => wp_keyBefore (knows row here)) ?_
      intro xs ys split failed passed
      refine wp_readNode lays member (Multiset.mem_cons_self _ _) fun node is => ?_
      subst split
      obtain ⟨before, kid, after, rfl, countBefore, countAfter⟩ := exists_kid count
      rw [List.map_append, List.map_cons] at is
      have inside : (before.map Tree.addr).length < 2 * degree + 1 := by
        rw [List.length_append] at bound
        rw [List.length_map]
        omega
      have child := childAt_place is inside
      rw [List.length_map, countBefore] at child
      rw [child]
      simp only [wp_ofOption_some]
      refine wp_release (Multiset.mem_cons_self _ _) ?_
      rw [Multiset.erase_cons_head]
      rw [word_focus countBefore countAfter] at sound ended
      refine ih kid (by omega) ?_ (sizedKids kid (by simp)) sound (around.descend sound.sorted ?_ passed) ended
      · intro node here
        exact nodes (by simp [here])
      · exact fun separator here => not_lt.mp (failed separator here)

end Search

/-! ## One step down -/

section Enter

variable {K Q : Type} [LinearOrder K] {growing : Prop} {ask : Q → K} {degree height : Nat}
  {map : PageMap IndexPage} {layout : Layout} {world : World K} {addr : Int} {rid : RID} {node : BNode}
  {pins : Multiset Int}

/-- The child in which `insert_entry` and `delete_entry` go on; the node is released. -/
def enterChild (degree : Nat) (node : BNode) (addr : Int) (rid : RID) : TreeProg Q Int := do
  let prtChild ← scanRows degree (rowBefore rid) addr 0 node.n
  let node ← readNode addr
  let addrChild ← ofOption (node.childAt degree prtChild)
  release addr
  return addrChild

theorem enterChild_eq {α : Type} (next : Int → TreeProg Q α) :
    (do
      let prtChild ← scanRows degree (rowBefore rid) addr 0 node.n
      let node ← readNode addr
      let addrChild ← ofOption (node.childAt degree prtChild)
      release addr
      next addrChild : TreeProg Q α) = enterChild degree node addr rid >>= next := by
  have assoc : ∀ {α β γ : Type} (program : TreeProg Q α) (next : α → TreeProg Q β) (last : β → TreeProg Q γ),
      program >>= next >>= last = program >>= fun value => next value >>= last := Prog.bind_assoc
  unfold enterChild
  rw [assoc]
  apply congrArg
  funext prtChild
  rw [assoc]
  apply congrArg
  funext node
  rw [assoc]
  apply congrArg
  funext addrChild
  rw [assoc]
  rfl

theorem wp_enterChild {seps : List RID} {kids : List (Tree Int RID height)} {post : Int → TreeState K → Prop}
    (lays : Lays map layout) (member : ⟨addr, false, seps, kids.map Tree.addr⟩ ∈ layout.nodes)
    (is : NodeIs node false seps (kids.map Tree.addr)) (bound : seps.length ≤ 2 * degree)
    (count : kids.length = seps.length + 1) (held : rid ∈ world.held) (knows : ∀ row ∈ seps, world.Knows row)
    (ended : ∀ us vs before kid after, seps = us ++ vs → kids = before ++ kid :: after → before.length = us.length →
      after.length = vs.length → (∀ separator ∈ us, world.key separator ≤ world.key rid) →
        (∀ separator ∈ vs.head?, world.key rid < world.key separator) → post kid.addr (⟨map, pins⟩, world)) :
    (enterChild degree node addr rid : TreeProg Q Int).wp (growthLogic growing ask) post (⟨map, addr ::ₘ pins⟩, world) := by
  unfold enterChild
  rw [wp_bind]
  refine wp_scanBefore lays member (Multiset.mem_cons_self _ _) bound is.count (.inl held) knows ?_
  intro us vs split passed stopped
  rw [wp_bind]
  refine wp_readNode lays member (Multiset.mem_cons_self _ _) fun node is => ?_
  subst split
  obtain ⟨before, kid, after, rfl, countBefore, countAfter⟩ := exists_kid count
  have inside : (before.map Tree.addr).length < 2 * degree + 1 := by
    rw [List.length_append] at bound
    rw [List.length_map]
    omega
  rw [List.map_append, List.map_cons] at is
  have child := childAt_place is inside
  rw [List.length_map, countBefore] at child
  rw [wp_bind, child]
  simp only [wp_ofOption_some]
  rw [wp_bind]
  refine wp_release (Multiset.mem_cons_self _ _) ?_
  rw [Multiset.erase_cons_head]
  exact ended us vs before kid after rfl rfl countBefore countAfter passed stopped

end Enter

end MyJQL.Index
