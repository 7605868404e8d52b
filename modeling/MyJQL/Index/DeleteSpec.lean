import MyJQL.Index.Family

/-!
# Deletion

`delete_entry` on a child leaves its family mended, without the row; on the root it leaves
a tree, or none.
-/

namespace MyJQL.Index

open Library Library.Prog Storage

section Deletion

variable {K Q : Type} [LinearOrder K] {growing : Prop} {ask : Q → K} {degree height : Nat}
  {addr addrPar addrBro root first : Int} {others : Multiset NodeDesc} {front word back : Word RID} {map map' : PageMap IndexPage} {world : World K}
  {free : List Int} {xs ys : List RID} {separator : RID} {node nodePar brother : BNode}
  {post : Int → TreeState K → Prop}

/-! ## Leaves -/

section Leaves

variable {before after : List (Tree Int RID 0)} {addrLeft addrRight : Int} {rowsLeft rowsRight rows us vs : List RID}
  {rid row found : RID}

/-- Two leaves without a row, and without the separator between them. -/
theorem Brothers.lose_row
    (brothers : Brothers degree 0 addrPar first root others front back map free world 0 xs ys separator before after
      (Tree.leaf addrLeft rowsLeft) (Tree.leaf addrRight rowsRight) ⟨addrLeft, true, rowsLeft, []⟩
      ⟨addrRight, true, rowsRight, []⟩ 0) (split : rowsLeft ++ rowsRight = us ++ found :: vs) :
    Sound world {separator} ((front ++ wordBefore Tree.word before xs) ++ (us ++ vs).map .item ++
      (wordAfter Tree.word ys after ++ back)) := by
  have sound := brothers.sound
  have atSeparator : front ++ wordBefore Tree.word before xs ++ ((Tree.leaf addrLeft rowsLeft).word ++
      .sep separator :: (Tree.leaf addrRight rowsRight).word) ++ (wordAfter Tree.word ys after ++ back) =
        (front ++ wordBefore Tree.word before xs ++ rowsLeft.map .item) ++ .sep separator ::
          (rowsRight.map .item ++ (wordAfter Tree.word ys after ++ back)) := by
    simp only [Tree.word_leaf, List.append_assoc, List.cons_append]
  rw [atSeparator] at sound
  have atRow : (front ++ wordBefore Tree.word before xs ++ rowsLeft.map .item) ++
      (rowsRight.map .item ++ (wordAfter Tree.word ys after ++ back)) =
        (front ++ wordBefore Tree.word before xs ++ us.map .item) ++ .item found ::
          (vs.map .item ++ (wordAfter Tree.word ys after ++ back)) := by
    have rows := congrArg (List.map (Mark.item : RID → Mark RID)) split
    rw [List.map_append, List.map_append, List.map_cons] at rows
    rw [List.append_assoc, ← List.append_assoc (rowsLeft.map _), rows]
    simp only [List.append_assoc, List.cons_append]
  have erased := sound.erase_sep
  rw [atRow, add_zero] at erased
  simpa only [List.map_append, List.append_assoc] using erased.erase_row

/-- A row has come over, and a copy of the first row behind the cut has taken the place of the separator. -/
theorem Brothers.mends_cut {side : Side} {moved made : RID} {rows' : List RID} {world' : World K} {x : K}
    (positive : 1 ≤ degree)
    (brothers : Brothers degree 0 addrPar first root others front back map free world 0 xs ys separator before after
      (Tree.leaf addrLeft rowsLeft) (Tree.leaf addrRight rowsRight) ⟨addrLeft, true, rowsLeft, []⟩
      ⟨addrRight, true, rowsRight, []⟩ 0)
    (split : rowsLeft ++ rowsRight = us ++ found :: vs) (cut : rows ++ moved :: rows' = us ++ vs)
    (settled : side.Settles degree rows (moved :: rows')) (total : rowsLeft.length + rowsRight.length ≤ 3 * degree)
    (lost : world.key found = x) (renewed : Renewed world separator moved made world')
    (lays : Lays map' ⟨root, (neighbours addrPar xs ys made before after ⟨addrLeft, true, rows, []⟩
      ⟨addrRight, true, moved :: rows', []⟩).nodes + (0 + (Tree.nodesOf before + Tree.nodesOf after + others)), 0, free⟩)
    (ended : Mends degree 0 addrPar first root others front back world x (xs ++ separator :: ys)
      (before ++ Tree.leaf addrLeft rowsLeft :: Tree.leaf addrRight rowsRight :: after) post) :
    post (-1) (⟨map', 0⟩, world') := by
  have sound := brothers.lose_row split
  rw [← cut] at sound
  obtain ⟨-, countBefore, countAfter, -, sized, head, -⟩ := brothers
  have lengths := congrArg List.length split
  have lengths' := congrArg List.length cut
  simp only [List.length_append, List.length_cons] at lengths lengths'
  obtain ⟨sizedLeft, sizedRight⟩ := settled.sized (by rw [List.length_cons]; omega)
  have filled : rows ≠ [] := List.ne_nil_of_length_pos (lt_of_lt_of_le positive sizedLeft.1)
  have rests : Rests (⟨map', 0⟩, world') root ({⟨addrPar, false, xs ++ made :: ys,
      (before ++ Tree.leaf addrLeft rowsLeft :: Tree.leaf addrRight rowsRight :: after).map Tree.addr⟩} +
        ((Tree.leaf addrLeft rows).nodes + ((Tree.leaf addrRight (moved :: rows')).nodes +
          (Tree.nodesOf before + Tree.nodesOf after + others)))) 0
      ((front ++ wordBefore Tree.word before xs) ++ ((Tree.leaf addrLeft rows).word ++
        .sep made :: (Tree.leaf addrRight (moved :: rows')).word) ++ (wordAfter Tree.word ys after ++ back)) := by
    refine ⟨rfl, ⟨free, lays.regroup ?_⟩, sound.renewed filled renewed⟩
    rw [zero_add]
    exact neighbours_nodes (Tree.leaf addrLeft rowsLeft) (Tree.leaf addrRight rowsRight) rfl rfl
  refine ended.of_pair rests countBefore countAfter rfl rfl rfl head sized (Tree.sized_leaf.mpr sizedLeft)
    (Tree.sized_leaf.mpr sizedRight) lost ?_ renewed.later
  simp only [Tree.word_leaf, Word.items_rows]
  rw [Multiset.coe_add, Multiset.coe_add, split, cut]
  exact Multiset.coe_eq_coe.mpr List.perm_middle

/-- The rows of the two have gone to the left of them. -/
theorem Brothers.mends_joined {free' : List Int} {x : K}
    (brothers : Brothers degree 0 addrPar first root others front back map free world 0 xs ys separator before after
      (Tree.leaf addrLeft rowsLeft) (Tree.leaf addrRight rowsRight) ⟨addrLeft, true, rowsLeft, []⟩
      ⟨addrRight, true, rowsRight, []⟩ 0)
    (split : rowsLeft ++ rowsRight = us ++ found :: vs) (full : rowsLeft.length + rowsRight.length = 2 * degree)
    (lost : world.key found = x)
    (lays : Lays map' ⟨root, {⟨addrPar, false, xs ++ separator :: ys,
      (before ++ Tree.leaf addrLeft rowsLeft :: Tree.leaf addrRight rowsRight :: after).map Tree.addr⟩} +
        ({⟨addrLeft, true, us ++ vs, []⟩} + (0 + (Tree.nodesOf before + Tree.nodesOf after + others))), 0, free'⟩)
    (ended : Mends degree 0 addrPar first root others front back world x (xs ++ separator :: ys)
      (before ++ Tree.leaf addrLeft rowsLeft :: Tree.leaf addrRight rowsRight :: after) post) :
    post xs.length (⟨map', 0⟩, world) := by
  have sound := brothers.lose_row split
  obtain ⟨-, countBefore, countAfter, -, sized, head, -⟩ := brothers
  have lengths := congrArg List.length split
  simp only [List.length_append, List.length_cons] at lengths
  rw [zero_add] at lays
  have rests : Rests (⟨map', 0⟩, world) root ({⟨addrPar, false, xs ++ separator :: ys,
      (before ++ Tree.leaf addrLeft rowsLeft :: Tree.leaf addrRight rowsRight :: after).map Tree.addr⟩} +
        ((Tree.leaf addrLeft (us ++ vs)).nodes + (Tree.nodesOf before + Tree.nodesOf after + others)))
      (if 0 = 0 then {separator} else 0)
      ((front ++ wordBefore Tree.word before xs) ++ (Tree.leaf addrLeft (us ++ vs)).word ++
        (wordAfter Tree.word ys after ++ back)) := by
    rw [if_pos rfl]
    exact ⟨rfl, ⟨free', lays⟩, sound⟩
  refine ended.of_merged rests countBefore countAfter rfl rfl head sized ?_ lost ?_ (Later.refl world)
  · rw [Tree.sized_leaf, List.length_append]
    omega
  · simp only [Tree.word_leaf, Word.items_rows]
    rw [Multiset.coe_add, split]
    exact Multiset.coe_eq_coe.mpr List.perm_middle

/-- A leaf with `DEGREE` rows loses one, and its brother helps. -/
theorem Brothers.wp_repairLeaf {pair : Neighbours} (side : Side) (positive : 1 ≤ degree)
    (brothers : Brothers degree 0 addrPar first root others front back map free world 0 xs ys separator before after
      (Tree.leaf addrLeft rowsLeft) (Tree.leaf addrRight rowsRight) ⟨addrLeft, true, rowsLeft, []⟩
      ⟨addrRight, true, rowsRight, []⟩ 0)
    (seen : pair = neighbours addrPar xs ys separator before after ⟨addrLeft, true, rowsLeft, []⟩
      ⟨addrRight, true, rowsRight, []⟩)
    (last : side = .right → ys = []) (bound : (xs ++ separator :: ys).length ≤ 2 * degree)
    (is : NodeIs node true (pair.node side).rows []) (full : (pair.node side).rows.length = degree)
    (least : degree ≤ (pair.brother side).rows.length) (boundBro : (pair.brother side).rows.length ≤ 2 * degree)
    (held : rid ∈ world.held) (present : row ∈ (pair.node side).rows) (same : world.key row = world.key rid)
    (ended : Mends degree 0 addrPar first root others front back world (world.key rid) (xs ++ separator :: ys)
      (before ++ Tree.leaf addrLeft rowsLeft :: Tree.leaf addrRight rowsRight :: after) post) :
    (deleteLeaf degree (pair.node side).addr addrPar node rid : TreeProg Q Int).wp (growthLogic growing ask) post
      (⟨map, (pair.node side).addr ::ₘ 0⟩, world) := by
  have both : side.join (pair.node side).rows [] (pair.brother side).rows = rowsLeft ++ rowsRight := by
    rw [pair.join_rows, seen]
    simp only [neighbours, List.append_nil]
  have lengths := congrArg List.length both
  rw [Side.length_join, full, List.length_nil, List.length_append] at lengths
  subst seen
  have owed : separator ∈ world.owed := by
    rw [brothers.sound.owed]
    simp
  have heldRows : ∀ row ∈ rowsLeft ++ rowsRight, row ∈ world.held := by
    intro row member
    refine brothers.sound.held row (Word.mem_items.mpr ?_)
    rcases List.mem_append.mp member with inLeft | inRight
    · simp [inLeft]
    · simp [inRight]
  refine Index.wp_repairLeaf _ side positive (brothers.pages rfl rfl) (brothers.fits rfl rfl bound) last ?_ is full least
    boundBro held ?_ owed present same ?_ ?_
  · rintro (_ | _)
    · exact ⟨rfl, rfl⟩
    · exact ⟨rfl, rfl⟩
  · rintro (_ | _) row member
    · exact heldRows row (List.mem_append_left _ member)
    · exact heldRows row (List.mem_append_right _ member)
  · intro us found vs made rows moved rows' map' world' more split sameKey cut settled renewed lays'
    obtain ⟨us', vs', withRow, without⟩ := side.exists_join_cons us vs [] (Neighbours.brother _ side).rows found
    rw [split] at both
    exact brothers.mends_cut positive (both.symm.trans withRow) (cut.trans without) settled (by omega) sameKey renewed
      lays' ended
  · intro us found vs map' exactBro split sameKey lays'
    obtain ⟨us', vs', withRow, without⟩ := side.exists_join_cons us vs [] (Neighbours.brother _ side).rows found
    rw [split] at both
    rw [without] at lays'
    refine brothers.mends_joined (both.symm.trans withRow) (by omega) sameKey (lays'.regroup ?_) ended
    exact congrArg (fun parent => ({parent} : Multiset NodeDesc) + _) (neighbours_parent _ _ rfl rfl)

/-- A leaf loses the row of a key. -/
theorem wp_deleteLeaf (positive : 1 ≤ degree)
    (family : Family degree 0 addrPar first root others front back map free world 0 xs ys before after
      (Tree.leaf addr rows) ⟨addr, true, rows, []⟩ 0)
    (is : NodeIs node true rows []) (least : degree ≤ rows.length) (bound : rows.length ≤ 2 * degree)
    (held : rid ∈ world.held) (present : row ∈ rows) (same : world.key row = world.key rid)
    (ended : Mends degree 0 addrPar first root others front back world (world.key rid) (xs ++ ys)
      (before ++ Tree.leaf addr rows :: after) post) :
    (deleteLeaf degree addr addrPar node rid : TreeProg Q Int).wp (growthLogic growing ask) post
      (⟨map, addr ::ₘ 0⟩, world) := by
  by_cases more : degree < rows.length
  · unfold deleteLeaf
    rw [if_pos family.proper, if_pos (by rwa [is.count])]
    obtain ⟨lays, -, countBefore, countAfter, -, -, sized, head, sound⟩ := family
    have knows : ∀ row ∈ rows, world.Knows row := fun row member => sound.knows_item (by simp [member])
    have pages := lays.regroup (add_left_comm _ _ _)
    have pinned : addr ∈ addr ::ₘ (0 : Multiset Int) := Multiset.mem_cons_self _ _
    simp only [wp_bind]
    refine wp_findRow pages Lays.mem_front pinned bound (.inl held) knows present same fun us found vs split sameKey => ?_
    refine wp_readNode pages Lays.mem_front pinned fun node is => ?_
    subst split
    obtain ⟨node', dropped, is'⟩ := @dropRow_spec degree _ _ _ _ _ _ is bound
    rw [dropped]
    simp only [wp_ofOption_some]
    refine wp_putNode pages is' pinned fun map' lays' => ?_
    rw [Multiset.erase_cons_head]
    refine ended _ _ _ ⟨found, sameKey, ?_⟩ (.kept (xs ++ ys) (before ++ Tree.leaf addr (us ++ vs) :: after) ?_ rfl ?_
      rfl ?_ ⟨rfl, ⟨free, lays'.regroup ?_⟩, ?_⟩) (Later.refl world)
    · rw [items_around countBefore countAfter, items_around countBefore countAfter]
      simp only [Tree.word_leaf, Word.items_rows, ← Multiset.cons_coe, ← Multiset.coe_add, ← Multiset.singleton_add]
      abel
    · simp only [List.map_append, List.map_cons, Tree.addr_leaf]
    · rw [← head]
      cases before with
      | nil => rfl
      | cons other before => rfl
    · intro kid member
      rw [List.mem_append, List.mem_cons] at member
      rcases member with old | rfl | old
      · exact sized kid (List.mem_append_left _ old)
      · rw [List.length_append, List.length_cons] at more bound
        rw [Tree.sized_leaf, List.length_append]
        omega
      · exact sized kid (List.mem_append_right _ old)
    · simp only [Tree.nodesOf_append, Tree.nodesOf_cons, Tree.nodes_leaf]
      abel
    · rw [word_focus countBefore countAfter]
      have regroup : front ++ wordBefore Tree.word before xs ++ (Tree.leaf addr (us ++ found :: vs)).word ++
          (wordAfter Tree.word ys after ++ back) = (front ++ wordBefore Tree.word before xs ++ us.map .item) ++
            .item found :: (vs.map .item ++ (wordAfter Tree.word ys after ++ back)) := by
        simp only [Tree.word_leaf, List.map_append, List.map_cons, List.append_assoc, List.cons_append]
      rw [regroup] at sound
      simpa only [Tree.word_leaf, List.map_append, List.append_assoc] using sound.erase_row
  · have full : rows.length = degree := by omega
    rcases family.exists_brother with ⟨separator, ys, right, after, rfl, rfl, brothers, boundPar, sizedBro⟩ |
      ⟨separator, xs, left, before, rfl, rfl, rfl, rfl, brothers, boundPar, sizedBro⟩
    · obtain ⟨addrBro, rowsBro, rfl⟩ := right.exists_leaf
      rw [Tree.sized_leaf] at sizedBro
      exact brothers.wp_repairLeaf .left positive rfl (fun other => Side.noConfusion other) boundPar is full
        sizedBro.1 sizedBro.2 held present same ended
    · obtain ⟨addrBro, rowsBro, rfl⟩ := left.exists_leaf
      rw [Tree.sized_leaf] at sizedBro
      simp only [List.append_assoc, List.cons_append, List.nil_append] at ended
      exact brothers.wp_repairLeaf .right positive rfl (fun _ => rfl) boundPar is full sizedBro.1 sizedBro.2 held
        present same ended

end Leaves

/-! ## Inner nodes -/

section Inners

variable {before after : List (Tree Int RID (height + 1))} {kids kidsLeft kidsRight : List (Tree Int RID height)}
  {us vs rows rows' sepsLeft sepsRight : List RID} {places places' : List Int} {addrLeft addrRight : Int}
  {lost made : RID} {page pageLeft pageRight : NodeDesc} {below : Multiset NodeDesc} {world' : World K}
  {free' : List Int}

/-- Two nodes are cut elsewhere: their children stand between the same separators. -/
theorem Brothers.keeps_cut {side : Side}
    (brothers : Brothers degree (height + 1) addrPar first root others front back map free world
      (if height = 0 then {lost} else 0) xs ys separator before after (Tree.inner addrLeft sepsLeft kidsLeft)
      (Tree.inner addrRight sepsRight kidsRight) pageLeft pageRight below)
    (countLeft : kidsLeft.length = sepsLeft.length + 1) (countRight : kidsRight.length = sepsRight.length + 1)
    (sizedKids : ∀ kid ∈ kidsLeft ++ kidsRight, kid.Sized degree degree)
    (seps : rows ++ made :: rows' = sepsLeft ++ separator :: sepsRight)
    (children : places ++ places' = (kidsLeft ++ kidsRight).map Tree.addr) (count : places.length = rows.length + 1)
    (settled : side.Settles degree rows rows') (total : sepsLeft.length + sepsRight.length ≤ 3 * degree)
    (dropped : Dropped (decide (height = 0)) world lost world')
    (lays : Lays map' ⟨root, (neighbours addrPar xs ys made before after ⟨addrLeft, false, rows, places⟩
      ⟨addrRight, false, rows', places'⟩).nodes + (Tree.nodesOf (kidsLeft ++ kidsRight) +
        (Tree.nodesOf before + Tree.nodesOf after + others)), 0, free⟩)
    (ended : Keeps degree (height + 1) addrPar first root others front back world (xs ++ separator :: ys)
      (before ++ Tree.inner addrLeft sepsLeft kidsLeft :: Tree.inner addrRight sepsRight kidsRight :: after) post) :
    post (-1) (⟨map', 0⟩, world') := by
  obtain ⟨-, countBefore, countAfter, -, sized, head, sound⟩ := brothers
  obtain ⟨kids, kids', cut, rfl, rfl⟩ := List.map_eq_append_iff.mp children.symm
  rw [cut] at sizedKids lays
  rw [List.length_map] at count
  have lengths := congrArg List.length seps
  have lengths' := congrArg List.length cut
  simp only [List.length_append, List.length_cons] at lengths lengths'
  obtain ⟨sizedLeft, sizedRight⟩ := settled.sized (by omega)
  have rests : Rests (⟨map', 0⟩, world') root ({⟨addrPar, false, xs ++ made :: ys, (before ++
      Tree.inner addrLeft sepsLeft kidsLeft :: Tree.inner addrRight sepsRight kidsRight :: after).map Tree.addr⟩} +
        ((Tree.inner addrLeft rows kids).nodes + ((Tree.inner addrRight rows' kids').nodes +
          (Tree.nodesOf before + Tree.nodesOf after + others)))) 0
      ((front ++ wordBefore Tree.word before xs) ++ ((Tree.inner addrLeft sepsLeft kidsLeft).word ++
        .sep separator :: (Tree.inner addrRight sepsRight kidsRight).word) ++
          (wordAfter Tree.word ys after ++ back)) := by
    refine ⟨rfl, ⟨free, lays.regroup ?_⟩, sound.dropped dropped⟩
    rw [neighbours_nodes (Tree.inner addrLeft sepsLeft kidsLeft) (Tree.inner addrRight sepsRight kidsRight) rfl rfl]
    simp only [Tree.nodes_inner, Tree.nodesOf_append]
    abel
  refine ended.of_pair rests ?_ countBefore countAfter rfl rfl ?_ head sized ?_ ?_ dropped.later
  · simp only [Tree.word_inner]
    rw [← interleave_append count, ← interleave_append countLeft, seps, cut]
  · have all : (Tree.inner addrLeft rows (kids ++ kids')).leftmost = (Tree.inner addrLeft rows kids).leftmost :=
      Tree.leftmost_append (by omega)
    rw [← all, ← cut]
    exact Tree.leftmost_append (by omega)
  · exact Tree.sized_inner.mpr ⟨sizedLeft, count, fun other member => sizedKids other (List.mem_append_left _ member)⟩
  · refine Tree.sized_inner.mpr ⟨sizedRight, ?_, fun other member => sizedKids other (List.mem_append_right _ member)⟩
    omega

/-- The children of the two have gone to the left of them, with the separator between them. -/
theorem Brothers.keeps_joined
    (brothers : Brothers degree (height + 1) addrPar first root others front back map free world
      (if height = 0 then {lost} else 0) xs ys separator before after (Tree.inner addrLeft sepsLeft kidsLeft)
      (Tree.inner addrRight sepsRight kidsRight) pageLeft pageRight below)
    (countLeft : kidsLeft.length = sepsLeft.length + 1) (countRight : kidsRight.length = sepsRight.length + 1)
    (sizedKids : ∀ kid ∈ kidsLeft ++ kidsRight, kid.Sized degree degree)
    (full : sepsLeft.length + sepsRight.length + 1 = 2 * degree)
    (dropped : Dropped (decide (height = 0)) world lost world')
    (lays : Lays map' ⟨root, {(neighbours addrPar xs ys separator before after pageLeft pageRight).parent} +
      ({⟨addrLeft, false, sepsLeft ++ separator :: sepsRight, (kidsLeft ++ kidsRight).map Tree.addr⟩} +
        (Tree.nodesOf (kidsLeft ++ kidsRight) + (Tree.nodesOf before + Tree.nodesOf after + others))), 0, free'⟩)
    (placeLeft : pageLeft.addr = addrLeft) (placeRight : pageRight.addr = addrRight)
    (ended : Keeps degree (height + 1) addrPar first root others front back world (xs ++ separator :: ys)
      (before ++ Tree.inner addrLeft sepsLeft kidsLeft :: Tree.inner addrRight sepsRight kidsRight :: after) post) :
    post xs.length (⟨map', 0⟩, world') := by
  obtain ⟨-, countBefore, countAfter, -, sized, head, sound⟩ := brothers
  rw [neighbours_parent (Tree.inner addrLeft sepsLeft kidsLeft) (Tree.inner addrRight sepsRight kidsRight) placeLeft
    placeRight] at lays
  have rests : Rests (⟨map', 0⟩, world') root ({⟨addrPar, false, xs ++ separator :: ys, (before ++
      Tree.inner addrLeft sepsLeft kidsLeft :: Tree.inner addrRight sepsRight kidsRight :: after).map Tree.addr⟩} +
        ((Tree.inner addrLeft (sepsLeft ++ separator :: sepsRight) (kidsLeft ++ kidsRight)).nodes +
          (Tree.nodesOf before + Tree.nodesOf after + others))) (if height + 1 = 0 then {separator} else 0)
      ((front ++ wordBefore Tree.word before xs) ++ ((Tree.inner addrLeft sepsLeft kidsLeft).word ++
        .sep separator :: (Tree.inner addrRight sepsRight kidsRight).word) ++
          (wordAfter Tree.word ys after ++ back)) := by
    rw [if_neg (Nat.succ_ne_zero height)]
    refine ⟨rfl, ⟨free', lays.regroup ?_⟩, sound.dropped dropped⟩
    rw [Tree.nodes_inner, ← add_assoc {_} (Tree.nodesOf _)]
  refine ended.of_merged rests ?_ countBefore countAfter rfl ?_ head sized ?_ dropped.later
  · exact interleave_append countLeft
  · exact Tree.leftmost_append (by omega)
  · simp only [Tree.sized_inner, List.length_append, List.length_cons]
    exact ⟨by omega, by omega, sizedKids⟩

/-- A node two of whose children have become one drops an entry, and mends its own family. -/
theorem wp_deleteInner
    (family : Family degree (height + 1) addrPar first root others front back map free world
      (if height = 0 then {lost} else 0) xs ys before after (Tree.inner addr (us ++ vs) kids) page
      (Tree.nodesOf kids))
    (outdated : Outdated node addr us vs lost kids page) (least : degree ≤ (us ++ lost :: vs).length)
    (bound : (us ++ lost :: vs).length ≤ 2 * degree) (count : kids.length = (us ++ vs).length + 1)
    (sizedKids : ∀ kid ∈ kids, kid.Sized degree degree)
    (ended : Keeps degree (height + 1) addrPar first root others front back world (xs ++ ys)
      (before ++ Tree.inner addr (us ++ vs) kids :: after) post) :
    (deleteInner degree addr addrPar node us.length : TreeProg Q Int).wp (growthLogic growing ask) post
      (⟨map, addr ::ₘ 0⟩, world) := by
  have atNode : node.n = (us ++ lost :: vs).length := by
    obtain ⟨as, bs, kid, dead, is, -, -, -⟩ := outdated
    exact is.count
  by_cases more : degree < (us ++ lost :: vs).length
  · unfold deleteInner
    rw [if_pos family.proper, if_pos (by rwa [atNode])]
    obtain ⟨lays, -, countBefore, countAfter, -, -, sized, head, sound⟩ := family
    have pages := lays.regroup (add_left_comm _ _ _)
    simp only [wp_bind]
    refine outdated.wp_dropEntry bound pages ?_ (Multiset.mem_cons_self _ _) room_one sound
      fun map' world' lays' sound' later => ?_
    · intro desc member
      simp [member]
    refine wp_release (Multiset.mem_cons_self _ _) ?_
    rw [Multiset.erase_cons_head]
    refine ended _ _ (.kept (xs ++ ys) (before ++ Tree.inner addr (us ++ vs) kids :: after) rfl rfl head rfl ?_
      ⟨rfl, ⟨free, lays'.regroup ?_⟩, ?_⟩) later
    · intro other member
      rw [List.mem_append, List.mem_cons] at member
      rcases member with old | rfl | old
      · exact sized other (List.mem_append_left _ old)
      · rw [List.length_append, List.length_cons] at more bound
        rw [Tree.sized_inner, List.length_append]
        exact ⟨by omega, by rw [count, List.length_append], sizedKids⟩
      · exact sized other (List.mem_append_right _ old)
    · simp only [Tree.nodesOf_append, Tree.nodesOf_cons, Tree.nodes_inner]
      abel
    · rwa [word_focus countBefore countAfter]
  · have full : (us ++ lost :: vs).length = degree := by omega
    obtain ⟨as, bs, kid, dead, is, countAs, countBs, same⟩ := outdated
    obtain ⟨child, atChild, firstChild, kind⟩ := exists_firstChild same
    have owed : child.leaf = true → lost ∈ world.owed := fun leaf => family.sound.owed_of_leaf (kind.symm.trans leaf)
    have noLeaves : ∀ pair : Neighbours, pair.left.leaf = false → pair.right.leaf = false →
        ∀ side, (pair.node side).leaf = false := by
      rintro pair left right (_ | _)
      · exact left
      · exact right
    have short : (us ++ vs).length + 1 = degree := by
      rw [List.length_append, List.length_cons] at full
      rw [List.length_append]
      omega
    rcases family.exists_brother with ⟨separator, ys, right, after, rfl, rfl, brothers, boundPar, sizedBro⟩ |
      ⟨separator, xs, left, before, rfl, rfl, rfl, rfl, brothers, boundPar, sizedBro⟩
    · obtain ⟨addrBro, sepsBro, kidsBro, rfl⟩ := right.exists_inner
      obtain ⟨⟨leastBro, boundBro⟩, countBro, sizedKidsBro⟩ := Tree.sized_inner.mp sizedBro
      have sizedAll : ∀ kid ∈ kids ++ kidsBro, kid.Sized degree degree := fun kid member =>
        (List.mem_append.mp member).elim (sizedKids kid) (sizedKidsBro kid)
      refine wp_repairInner (neighbours addrPar xs ys separator before after
        ⟨addr, false, us ++ lost :: vs, as ++ kid :: dead :: bs⟩ ⟨addrBro, false, sepsBro, kidsBro.map Tree.addr⟩) .left
        (brothers.pages rfl rfl) (brothers.fits rfl rfl boundPar) (fun other => Side.noConfusion other) (noLeaves _ rfl rfl)
        rfl rfl countAs countBs is full leastBro boundBro ((List.length_map _).trans countBro)
        (Multiset.mem_add.mpr (.inl (Multiset.mem_add.mpr (.inl atChild)))) firstChild owed ?_ ?_
      · intro made rows places rows' places' map' world' more seps children count' settled dropped lays'
        rw [kind] at dropped
        have seps' : rows ++ made :: rows' = (us ++ vs) ++ separator :: sepsBro := seps.trans (List.append_cons ..).symm
        have children' : places ++ places' = (kids ++ kidsBro).map Tree.addr := by
          rw [children, ← same, List.map_append]
          exact congrArg (· ++ _) (List.append_nil _)
        refine brothers.keeps_cut count countBro sizedAll seps' children' count' settled (by omega) dropped
          (lays'.regroup ?_) ended
        rw [Tree.nodesOf_append]
        rfl
      · intro map' world' exactBro dropped lays'
        have exactBro' : sepsBro.length = degree := exactBro
        rw [kind] at dropped
        refine brothers.keeps_joined count countBro sizedAll (by omega) dropped (lays'.regroup ?_) rfl rfl ended
        rw [← same, Tree.nodesOf_append, List.map_append, List.append_cons (us ++ vs)]
        dsimp only [Side.join, neighbours, Neighbours.brother]
        rw [List.append_nil]
        rfl
    · obtain ⟨addrBro, sepsBro, kidsBro, rfl⟩ := left.exists_inner
      obtain ⟨⟨leastBro, boundBro⟩, countBro, sizedKidsBro⟩ := Tree.sized_inner.mp sizedBro
      have sizedAll : ∀ kid ∈ kidsBro ++ kids, kid.Sized degree degree := fun kid member =>
        (List.mem_append.mp member).elim (sizedKidsBro kid) (sizedKids kid)
      simp only [List.append_assoc, List.cons_append, List.nil_append] at ended
      refine wp_repairInner (neighbours addrPar xs [] separator before [] ⟨addrBro, false, sepsBro, kidsBro.map Tree.addr⟩
        ⟨addr, false, us ++ lost :: vs, as ++ kid :: dead :: bs⟩) .right (brothers.pages rfl rfl)
        (brothers.fits rfl rfl boundPar) (fun _ => rfl) (noLeaves _ rfl rfl) rfl rfl countAs countBs is full leastBro
        boundBro ((List.length_map _).trans countBro) (Multiset.mem_add.mpr (.inl (Multiset.mem_add.mpr (.inl atChild))))
        firstChild owed ?_ ?_
      · intro made rows places rows' places' map' world' more seps children count' settled dropped lays'
        rw [kind] at dropped
        have seps' : rows ++ made :: rows' = sepsBro ++ separator :: (us ++ vs) := seps.trans (List.append_cons ..).symm
        have children' : places ++ places' = (kidsBro ++ kids).map Tree.addr := by
          rw [children, ← same, List.map_append]
          exact congrArg (· ++ _) (List.append_nil _)
        refine brothers.keeps_cut countBro count sizedAll seps' children' count' settled (by omega) dropped
          (lays'.regroup ?_) ended
        rw [Tree.nodesOf_append, add_comm (Tree.nodesOf kidsBro)]
        rfl
      · intro map' world' exactBro dropped lays'
        have exactBro' : sepsBro.length = degree := exactBro
        rw [kind] at dropped
        refine brothers.keeps_joined countBro count sizedAll (by omega) dropped (lays'.regroup ?_) rfl rfl ended
        rw [← same, Tree.nodesOf_append, List.map_append, List.append_cons sepsBro, add_comm (Tree.nodesOf kidsBro)]
        dsimp only [Side.join, neighbours, Neighbours.brother]
        rw [List.append_nil]
        rfl

end Inners

/-! ## The recursion -/

/-- `delete_entry` on a child mends its family, without the row. -/
theorem wp_deleteEntry (positive : 1 ≤ degree) (tree : Tree Int RID height) {rounds : Nat} {rid row : RID}
    {before after : List (Tree Int RID height)} (enough : height < rounds)
    (family : Family degree height addrPar first root others front back map free world 0 xs ys before after tree
      tree.root tree.below) (sizedTree : tree.Sized degree degree) (held : rid ∈ world.held)
    (around : Around world (world.key rid) (front ++ wordBefore Tree.word before xs)
      (wordAfter Tree.word ys after ++ back))
    (present : row ∈ tree.word.items) (same : world.key row = world.key rid)
    (ended : Mends degree height addrPar first root others front back world (world.key rid) (xs ++ ys)
      (before ++ tree :: after) post) :
    (deleteEntry degree rounds tree.addr addrPar rid : TreeProg Q Int).wp (growthLogic growing ask) post (⟨map, 0⟩, world) := by
  induction height generalizing rounds addrPar first others front back xs ys post with
  | zero =>
      obtain ⟨addr, rows, rfl⟩ := tree.exists_leaf
      obtain ⟨rounds, rfl⟩ : ∃ less, rounds = less + 1 := ⟨rounds - 1, by omega⟩
      rw [Tree.sized_leaf] at sizedTree
      rw [Tree.word_leaf, Word.items_rows] at present
      rw [Tree.addr_leaf]
      unfold deleteEntry
      rw [wp_bind]
      refine wp_getNode (family.lays.regroup (add_left_comm _ _ _))
        (Multiset.mem_add.mpr (.inl (Multiset.mem_singleton_self _))) (by decide) fun node is => ?_
      rw [if_pos is.kind]
      exact wp_deleteLeaf positive family is sizedTree.1 sizedTree.2 held present same ended
  | succ height ih =>
      obtain ⟨addr, seps, kids, rfl⟩ := tree.exists_inner
      obtain ⟨rounds, rfl⟩ : ∃ less, rounds = less + 1 := ⟨rounds - 1, by omega⟩
      obtain ⟨⟨least, bound⟩, count, sizedKids⟩ := Tree.sized_inner.mp sizedTree
      rw [Tree.root_inner, Tree.below_inner] at family
      rw [Tree.word_inner] at present
      rw [Tree.addr_inner]
      have inward := family
      obtain ⟨lays, -, countBefore, countAfter, leastPar, boundPar, sized, head, sound⟩ := family
      have knows : ∀ row ∈ seps, world.Knows row := fun row here => by
        have inWord : .sep row ∈ interleave Tree.word seps kids := mem_interleave count here
        exact sound.knows_sep (by simp [inWord])
      have pages := lays.regroup (add_left_comm _ _ _)
      unfold deleteEntry
      rw [wp_bind]
      refine wp_getNode pages (Multiset.mem_add.mpr (.inl (Multiset.mem_singleton_self _))) (by decide) ?_
      intro node is
      rw [if_neg (by rw [is.kind]; exact Bool.false_ne_true), enterChild_eq, wp_bind]
      refine wp_enterChild pages Lays.mem_front is bound count held knows ?_
      rintro us vs kidsBefore kid kidsAfter rfl rfl countLeft countRight passed stopped
      rw [wp_bind]
      have family' := inward.inward countLeft countRight (le_trans positive least) bound sizedKids
      have around' := around.descend family'.sound.sorted passed stopped
      have present' : row ∈ kid.word.items := by
        obtain ⟨notBefore, notAfter⟩ := around'.notMem same
        rw [items_around countLeft countRight, Multiset.mem_add, Multiset.mem_add] at present
        rcases present with here | earlier | later
        · exact here
        · exact absurd (by rw [Word.items_append]; exact Multiset.mem_add.mpr (.inr earlier)) notBefore
        · exact absurd (by rw [Word.items_append]; exact Multiset.mem_add.mpr (.inl later)) notAfter
      refine ih kid (by omega) family' (sizedKids kid (by simp)) around' present' ?_
      intro word result state loses mended later
      obtain ⟨⟨map', pins⟩, world'⟩ := state
      have lostRow : ∀ seps' kids', interleave Tree.word seps' kids' = word →
          Loses world (world.key rid) (interleave Tree.word (xs ++ ys)
            (before ++ Tree.inner addr (us ++ vs) (kidsBefore ++ kid :: kidsAfter) :: after))
            (interleave Tree.word (xs ++ ys) (before ++ Tree.inner addr seps' kids' :: after)) := by
        rintro seps' kids' rfl
        obtain ⟨found, sameKey, items⟩ := loses
        refine ⟨found, sameKey, ?_⟩
        rw [items_around countBefore countAfter, items_around countBefore countAfter, Tree.word_inner, Tree.word_inner,
          items, Multiset.cons_add]
      have sameHead : ∀ {kids' : List (Tree Int RID height)} (seps' : List RID), kids'.head?.map Tree.leftmost =
          some (Tree.inner addr (us ++ vs) (kidsBefore ++ kid :: kidsAfter)).leftmost →
            (before ++ Tree.inner addr seps' kids' :: after).head?.map Tree.leftmost =
              (before ++ Tree.inner addr (us ++ vs) (kidsBefore ++ kid :: kidsAfter) :: after).head?.map
                Tree.leftmost := by
        intro kids' seps' left
        cases before with
        | nil =>
            rw [List.nil_append, List.nil_append, List.head?_cons, List.head?_cons, Option.map_some, Option.map_some,
              Tree.leftmost_eq, left]
            rfl
        | cons other before => rfl
      have sameAddresses : ∀ (seps' : List RID) (kids' : List (Tree Int RID height)),
          (before ++ Tree.inner addr seps' kids' :: after).map Tree.addr =
            (before ++ Tree.inner addr (us ++ vs) (kidsBefore ++ kid :: kidsAfter) :: after).map Tree.addr := by
        intro seps' kids'
        simp only [List.map_append, List.map_cons, Tree.addr_inner]
      cases mended with
      | kept seps' kids' sameAddr length left reads sizedKids' rests =>
          obtain ⟨rfl, ⟨free', lays'⟩, sound'⟩ := rests
          dsimp only at lays'
          rw [wp_bind]
          refine wp_getNode lays' (Multiset.mem_add.mpr (.inl (Multiset.mem_singleton_self _))) room_zero ?_
          intro node' is'
          rw [if_pos rfl, wp_bind]
          refine wp_release (Multiset.mem_cons_self _ _) ?_
          rw [Multiset.erase_cons_head]
          refine ended _ _ _ (lostRow seps' kids' reads) (.kept (xs ++ ys)
            (before ++ Tree.inner addr seps' kids' :: after) (sameAddresses seps' kids') rfl ?_ rfl ?_
            ⟨rfl, ⟨free', lays'.regroup ?_⟩, ?_⟩) later
          · exact (sameHead seps' left).trans head
          · intro other member
            rw [List.mem_append, List.mem_cons] at member
            rcases member with old | rfl | old
            · exact sized other (List.mem_append_left _ old)
            · refine Tree.sized_inner.mpr ⟨by rw [length]; exact ⟨least, bound⟩, ?_, sizedKids'⟩
              have total := congrArg List.length sameAddr
              rw [List.length_map, List.length_map] at total
              rw [total, count, length]
            · exact sized other (List.mem_append_right _ old)
          · simp only [Tree.nodesOf_append, Tree.nodesOf_cons, Tree.nodes_inner, sameAddr]
            abel
          · rwa [word_focus countBefore countAfter, Tree.word_inner, reads]
      | merged us' vs' lost as bs survivor dead kids' seps addresses countLeft' countRight' sameAddr left reads
          sizedKids' rests =>
          obtain ⟨rfl, ⟨free', lays'⟩, sound'⟩ := rests
          dsimp only at lays'
          have proper : ((us'.length : Nat) : Int) ≠ -1 := by omega
          rw [seps, addresses] at lays'
          rw [seps] at least bound
          rw [wp_bind]
          refine wp_getNode lays' (Multiset.mem_add.mpr (.inl (Multiset.mem_singleton_self _))) room_zero ?_
          intro node' is'
          rw [if_neg proper, Int.toNat_natCast]
          have count' : kids'.length = (us' ++ vs').length + 1 := by
            have total := congrArg List.length sameAddr
            simp only [List.length_map, List.length_append, List.length_cons] at total
            rw [List.length_append]
            omega
          have familyNow : Family degree (height + 1) addrPar first root others front back map' free' world'
              (if height = 0 then {lost} else 0) xs ys before after (Tree.inner addr (us' ++ vs') kids')
              ⟨addr, false, us' ++ lost :: vs', as ++ survivor :: dead :: bs⟩ (Tree.nodesOf kids') := by
            refine ⟨lays'.regroup ?_, rfl, countBefore, countAfter, leastPar, boundPar, sized,
              (sameHead _ left).trans head, ?_⟩
            · rw [sameAddresses (us' ++ vs') kids', sameAddresses (us' ++ lost :: vs') (kidsBefore ++ kid :: kidsAfter)]
              abel
            · rwa [Tree.word_inner, reads]
          refine wp_deleteInner familyNow (.intro as bs survivor dead is' countLeft' countRight' sameAddr)
            least bound count' sizedKids' ?_
          intro result state mended' later'
          rw [sameAddresses] at mended'
          exact ended _ _ _ (lostRow _ _ reads) mended' (later.trans later')

/-! ## The root -/

/-- What stands where a whole tree with leftmost leaf `first` was. -/
inductive Remains (degree : Nat) (first : Int) : Word RID → TreeState K → Prop where
  | tree {height : Nat} {state : TreeState K} (tree : Tree Int RID height) (left : tree.leftmost = first)
      (sized : tree.Sized degree 1) (rests : Rests state tree.addr tree.nodes 0 tree.word) :
      Remains degree first tree.word state
  | nothing {state : TreeState K} (free : List Int) (pins : state.1.pins = 0)
      (lays : Lays state.1.map ⟨-1, 0, 0, first :: free⟩) (sound : Sound state.2 0 []) : Remains degree first [] state

section Root

variable {rid row : RID} {rounds : Nat}

/-- The root is a leaf: without its last row the tree is empty. -/
theorem wp_deleteRootLeaf {rows : List RID}
    (lays : Lays map ⟨addr, {⟨addr, true, rows, []⟩}, 0, free⟩) (bound : rows.length ≤ 2 * degree)
    (sound : Sound world 0 (rows.map .item)) (is : NodeIs node true rows []) (held : rid ∈ world.held)
    (present : row ∈ rows) (same : world.key row = world.key rid)
    (ended : ∀ word state, Loses world (world.key rid) (rows.map .item) word → Remains degree addr word state →
      Later world state.2 → post (-1) state) :
    (deleteLeaf degree addr (-1) node rid : TreeProg Q Int).wp (growthLogic growing ask) post (⟨map, addr ::ₘ 0⟩, world) := by
  have knows : ∀ row ∈ rows, world.Knows row := fun row member => sound.knows_item (by simp [member])
  unfold deleteLeaf
  rw [if_neg (not_not.mpr rfl)]
  have pinned : addr ∈ addr ::ₘ (0 : Multiset Int) := Multiset.mem_cons_self _ _
  rw [← add_zero ({⟨addr, true, rows, []⟩} : Multiset NodeDesc)] at lays
  simp only [wp_bind]
  refine wp_findRow lays Lays.mem_front pinned bound (.inl held) knows present same fun us found vs split sameKey => ?_
  refine wp_readNode lays Lays.mem_front pinned fun node is => ?_
  subst split
  obtain ⟨node', dropped, is'⟩ := @dropRow_spec degree _ _ _ _ _ _ is bound
  have loses : Loses world (world.key rid) ((us ++ found :: vs).map .item) ((us ++ vs).map .item) := by
    refine ⟨found, sameKey, ?_⟩
    simp only [Word.items_rows, ← Multiset.coe_add, ← Multiset.cons_coe, Multiset.add_cons]
  have sound' : Sound world 0 ((us ++ vs).map .item) := by
    rw [List.map_append, List.map_cons] at sound
    rw [List.map_append]
    exact sound.erase_row
  rw [dropped]
  simp only [wp_ofOption_some]
  refine wp_writeNode lays is' pinned fun map₁ lays₁ => ?_
  by_cases last : node'.n = 0
  · rw [if_pos last]
    rw [is'.count, List.length_eq_zero_iff] at last
    rw [last] at loses sound'
    simp only [wp_bind]
    refine wp_freeRoot lays₁ pinned room_one (fun _ _ => rfl) fun map' lays' => ?_
    rw [Multiset.erase_cons_head]
    exact ended _ _ loses (.nothing free rfl lays' sound') (Later.refl world)
  · rw [if_neg last]
    rw [is'.count] at last
    simp only [wp_bind]
    refine wp_release pinned ?_
    rw [Multiset.erase_cons_head]
    refine ended _ _ loses (.tree (Tree.leaf addr (us ++ vs)) rfl ?_ ⟨rfl, ⟨free, lays₁⟩, sound'⟩) (Later.refl world)
    rw [List.length_append, List.length_cons] at bound
    rw [Tree.sized_leaf]
    refine ⟨Nat.one_le_iff_ne_zero.mpr last, ?_⟩
    rw [List.length_append]
    omega

/-- The root has lost an entry: without its last separator its only child is the root. -/
theorem wp_deleteRootInner {us vs : List RID} {lost : RID} {kids : List (Tree Int RID height)} {page : NodeDesc}
    (positive : 1 ≤ degree) (lays : Lays map ⟨addr, {page} + Tree.nodesOf kids, 0, free⟩)
    (outdated : Outdated node addr us vs lost kids page) (bound : (us ++ lost :: vs).length ≤ 2 * degree)
    (count : kids.length = (us ++ vs).length + 1) (left : kids.head?.map Tree.leftmost = some first)
    (sizedKids : ∀ kid ∈ kids, kid.Sized degree degree)
    (sound : Sound world (if height = 0 then {lost} else 0) (interleave Tree.word (us ++ vs) kids))
    (ended : ∀ state, Remains degree first (interleave Tree.word (us ++ vs) kids) state → Later world state.2 →
      post (-1) state) :
    (deleteInner degree addr (-1) node us.length : TreeProg Q Int).wp (growthLogic growing ask) post
      (⟨map, addr ::ₘ 0⟩, world) := by
  unfold deleteInner
  rw [if_neg (not_not.mpr rfl)]
  simp only [wp_bind]
  have pinned : addr ∈ addr ::ₘ (0 : Multiset Int) := Multiset.mem_cons_self _ _
  refine outdated.wp_dropEntry bound lays (Multiset.Subset.refl _) pinned room_one sound
    fun map₁ world' lays₁ sound' later => ?_
  refine wp_readNode lays₁ Lays.mem_front pinned fun node' is' => ?_
  by_cases last : node'.n = 0
  · rw [if_pos last]
    rw [is'.count, List.length_eq_zero_iff] at last
    rw [last, List.length_nil] at count
    obtain ⟨only, rfl⟩ := List.length_eq_one_iff.mp count
    have child : ∀ node, NodeIs node false (us ++ vs) ([only].map Tree.addr) → node.childAt degree 0 = some only.addr :=
      fun node is => @childAt_place degree _ _ _ [] [] only.addr is (Nat.succ_pos _)
    simp only [wp_bind]
    refine wp_freeRoot lays₁ pinned room_one child fun map' lays' => ?_
    rw [Multiset.erase_cons_head]
    rw [last] at sound' ended
    rw [interleave_single] at sound' ended
    have sized := (sizedKids only (List.mem_singleton_self _)).mono positive
    refine ended _ (.tree only (Option.some.inj left) sized ⟨rfl, ⟨_, lays'.regroup ?_⟩, sound'⟩) later
    rw [Tree.nodesOf_cons, Tree.nodesOf_nil, add_zero]
  · rw [if_neg last]
    rw [is'.count] at last
    simp only [wp_bind]
    refine wp_release pinned ?_
    rw [Multiset.erase_cons_head]
    refine ended _ (.tree (Tree.inner addr (us ++ vs) kids) ?_ ?_ ⟨rfl, ⟨free, lays₁⟩, sound'⟩) later
    · rw [Tree.leftmost_eq, left]
      rfl
    · rw [List.length_append, List.length_cons] at bound
      refine Tree.sized_inner.mpr ⟨⟨Nat.one_le_iff_ne_zero.mpr last, ?_⟩, count, sizedKids⟩
      rw [List.length_append]
      omega

end Root

/-- `delete_entry` on the root of a tree that has the key. -/
theorem wp_deleteRoot (positive : 1 ≤ degree) (tree : Tree Int RID height) {rounds : Nat} {rid row : RID}
    (enough : height < rounds) (lays : Lays map ⟨tree.addr, tree.nodes, 0, free⟩) (sized : tree.Sized degree 1)
    (sound : Sound world 0 tree.word) (held : rid ∈ world.held) (present : row ∈ tree.word.items)
    (same : world.key row = world.key rid)
    (ended : ∀ word state, Loses world (world.key rid) tree.word word → Remains degree tree.leftmost word state →
      Later world state.2 → post (-1) state) :
    (deleteEntry degree rounds tree.addr (-1) rid : TreeProg Q Int).wp (growthLogic growing ask) post (⟨map, 0⟩, world) := by
  obtain ⟨rounds, rfl⟩ : ∃ less, rounds = less + 1 := ⟨rounds - 1, by omega⟩
  cases height with
  | zero =>
      obtain ⟨addr, rows, rfl⟩ := tree.exists_leaf
      rw [Tree.sized_leaf] at sized
      rw [Tree.word_leaf] at sound present ended
      rw [Tree.nodes_leaf, Tree.addr_leaf] at lays
      rw [Word.items_rows] at present
      rw [Tree.addr_leaf]
      unfold deleteEntry
      rw [wp_bind]
      refine wp_getNode lays (Multiset.mem_singleton_self _) room_zero fun node is => ?_
      rw [if_pos is.kind]
      exact wp_deleteRootLeaf lays sized.2 sound is held present same ended
  | succ height =>
      obtain ⟨addr, seps, kids, rfl⟩ := tree.exists_inner
      obtain ⟨⟨least, bound⟩, count, sizedKids⟩ := Tree.sized_inner.mp sized
      rw [Tree.nodes_inner, Tree.addr_inner] at lays
      rw [Tree.word_inner] at sound present ended
      rw [Tree.addr_inner]
      have knows : ∀ row ∈ seps, world.Knows row := fun row here => sound.knows_sep (mem_interleave count here)
      unfold deleteEntry
      rw [wp_bind]
      refine wp_getNode lays (Multiset.mem_add.mpr (.inl (Multiset.mem_singleton_self _))) room_zero fun node is => ?_
      rw [if_neg (by rw [is.kind]; exact Bool.false_ne_true), enterChild_eq, wp_bind]
      refine wp_enterChild lays Lays.mem_front is bound count held knows ?_
      rintro us vs kidsBefore kid kidsAfter rfl rfl countLeft countRight passed stopped
      rw [wp_bind]
      have family := Family.ofRoot lays countLeft countRight least bound sizedKids sound
      have around' := (Around.nil world (world.key rid)).descend family.sound.sorted passed stopped
      have present' : row ∈ kid.word.items := by
        obtain ⟨notBefore, notAfter⟩ := around'.notMem same
        rw [items_around countLeft countRight, Multiset.mem_add, Multiset.mem_add] at present
        rcases present with here | earlier | later
        · exact here
        · exact absurd (by rwa [List.nil_append]) notBefore
        · exact absurd (by rwa [List.append_nil]) notAfter
      refine wp_deleteEntry positive kid (by omega) family (sizedKids kid (by simp)) held around' present' same ?_
      intro word result state loses mended later
      obtain ⟨⟨map', pins⟩, world'⟩ := state
      cases mended with
      | kept seps' kids' sameAddr length left reads sizedKids' rests =>
          obtain ⟨rfl, ⟨free', lays'⟩, sound'⟩ := rests
          rw [List.nil_append, List.append_nil, ← reads] at sound'
          rw [← reads] at loses
          have nodes := lays'.regroup (congrArg _ (add_zero _))
          rw [wp_bind]
          refine wp_getNode nodes (Multiset.mem_add.mpr (.inl (Multiset.mem_singleton_self _))) room_zero ?_
          intro node' is'
          rw [if_pos rfl, wp_bind]
          refine wp_release (Multiset.mem_cons_self _ _) ?_
          rw [Multiset.erase_cons_head]
          refine ended _ _ loses (.tree (Tree.inner addr seps' kids') ?_ ?_ ⟨rfl, ⟨free', ?_⟩, sound'⟩) later
          · rw [Tree.leftmost_eq, left]
            rfl
          · refine Tree.sized_inner.mpr ⟨by rw [length]; exact ⟨least, bound⟩, ?_, sizedKids'⟩
            have total := congrArg List.length sameAddr
            rw [List.length_map, List.length_map] at total
            rw [total, count, length]
          · rw [Tree.nodes_inner, sameAddr]
            exact nodes
      | merged us' vs' lost as bs survivor dead kids' seps addresses countLeft' countRight' sameAddr left reads
          sizedKids' rests =>
          obtain ⟨rfl, ⟨free', lays'⟩, sound'⟩ := rests
          have proper : ((us'.length : Nat) : Int) ≠ -1 := by omega
          rw [List.nil_append, List.append_nil, ← reads] at sound'
          rw [← reads] at loses
          have nodes := lays'.regroup (congrArg _ (add_zero _))
          rw [seps, addresses] at nodes
          rw [seps] at bound
          rw [wp_bind]
          refine wp_getNode nodes (Multiset.mem_add.mpr (.inl (Multiset.mem_singleton_self _))) room_zero ?_
          intro node' is'
          rw [if_neg proper, Int.toNat_natCast]
          have count' : kids'.length = (us' ++ vs').length + 1 := by
            have total := congrArg List.length sameAddr
            simp only [List.length_map, List.length_append, List.length_cons] at total
            rw [List.length_append]
            omega
          refine wp_deleteRootInner positive nodes (.intro as bs survivor dead is' countLeft' countRight' sameAddr)
            bound count' left sizedKids' sound' ?_
          exact fun state remains later' => ended _ _ loses remains (later.trans later')

end Deletion

end MyJQL.Index
