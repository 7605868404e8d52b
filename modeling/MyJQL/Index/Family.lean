import MyJQL.Index.RepairSpec

/-!
# A child and its family

`delete_entry` is called on a child with the address of its parent, and works on the
family: the parent and its children. Either the children stay where they are, and the
parent may have another separator, or two neighbours have become one and the parent still
has both entries; the caller drops the separator between them and the second entry.

Between leaves the separator is then a copy that nothing refers to, and it is owed to
`delete_handler` until the caller drops it; between inner nodes it has moved down.
-/

namespace MyJQL.Index

open Library Library.Prog Storage

/-! ## What leaves a tree -/

section Leaving

variable {K : Type} [LinearOrder K] {world world' : World K} {stale : Multiset RID} {front word back : Word RID}
  {row separator made : RID}

theorem Sound.erase_row (sound : Sound world stale (front ++ .item row :: back)) :
    Sound world stale (front ++ back) := by
  refine ⟨sound.sorted.sublist ?_, ?_, ?_⟩
  · exact List.Sublist.append_left (List.sublist_cons_self _ _) front
  · intro other member
    refine sound.held other ?_
    rw [Word.items_append, Multiset.mem_add] at member
    rw [Word.items_append, Word.items_item, Multiset.mem_add, Multiset.mem_cons]
    rcases member with left | right
    · exact .inl left
    · exact .inr (.inr right)
  · rw [sound.owed, Word.seps_append, Word.seps_append, Word.seps_item]

/-- A separator that leaves the tree is still owed. -/
theorem Sound.erase_sep (sound : Sound world stale (front ++ .sep row :: back)) :
    Sound world ({row} + stale) (front ++ back) := by
  refine ⟨sound.sorted.sublist ?_, ?_, ?_⟩
  · exact List.Sublist.append_left (List.sublist_cons_self _ _) front
  · intro other member
    refine sound.held other ?_
    rwa [Word.items_append, Word.items_sep, ← Word.items_append]
  · rw [sound.owed, Word.seps_append, Word.seps_append, Word.seps_sep, ← Multiset.singleton_add]
    abel

omit [LinearOrder K] in
theorem Dropped.later {above : Bool} (dropped : Dropped above world separator world') : Later world world' :=
  ⟨dropped.held, fun rid held => dropped.agree rid (.inl (dropped.held ▸ held))⟩

omit [LinearOrder K] in
theorem Renewed.later (renewed : Renewed world separator row made world') : Later world world' :=
  ⟨renewed.held, fun rid held => renewed.agree rid (.inl held)⟩

/-- A separator above leaves is owed while it is dropped. -/
theorem Sound.owed_of_leaf {height : Nat} (sound : Sound world (if height = 0 then {separator} else 0) word)
    (leaf : decide (height = 0) = true) : separator ∈ world.owed := by
  rw [sound.owed, if_pos (of_decide_eq_true leaf)]
  exact Multiset.mem_add.mpr (.inl (Multiset.mem_singleton_self _))

/-- The separator has been dropped. -/
theorem Sound.dropped {height : Nat} (sound : Sound world (if height = 0 then {separator} else 0) word)
    (dropped : Dropped (decide (height = 0)) world separator world') : Sound world' 0 word := by
  have owed : world'.owed = 0 + word.seps := by
    rw [dropped.owed, sound.owed]
    cases height with
    | zero => rw [if_pos (decide_eq_true rfl), if_pos rfl, Multiset.singleton_add, Multiset.erase_cons_head, zero_add]
    | succ height => rw [if_neg (Nat.succ_ne_zero height), if_neg (by simp)]
  have rest : Sound ⟨world.key, world'.held, world'.owed⟩ 0 word :=
    ⟨sound.sorted, fun row member => dropped.held ▸ sound.held row member, owed⟩
  exact ⟨sound.sorted.congr fun mark member => dropped.agree mark.row (rest.knows member), rest.held, owed⟩

/-- Two leaves without a separator are cut in front of a row, and a copy of the row goes between them. -/
theorem Sound.renewed {rows rest : List RID}
    (sound : Sound world {separator} (front ++ (rows ++ row :: rest).map .item ++ back)) (filled : rows ≠ [])
    (renewed : Renewed world separator row made world') :
    Sound world' 0 (front ++ (rows.map .item ++ .sep made :: (row :: rest).map .item) ++ back) := by
  obtain ⟨init, previous, rfl⟩ := (List.eq_nil_or_concat' rows).resolve_left filled
  have regroup : front ++ (init ++ [previous] ++ row :: rest).map .item ++ back =
      (front ++ init.map .item) ++ .item previous :: .item row :: (rest.map .item ++ back) := by
    simp only [List.map_append, List.map_cons, List.append_assoc, List.cons_append, List.nil_append]
  have held : row ∈ world.held := sound.held row (Word.mem_items.mpr (by simp))
  rw [regroup, ← add_zero ({separator} : Multiset RID)] at sound
  obtain ⟨key, held', owed'⟩ := world'
  obtain ⟨agree, copy, rfl, rfl⟩ := renewed
  have same : key made = key row := copy.trans (agree row (.inl held)).symm
  have result := (sound.drop agree).copy (fun _ _ => rfl) same
  simpa only [List.map_append, List.map_cons, List.map_nil, List.append_assoc, List.cons_append, List.nil_append]
    using result

/-- A row with the key `x` has left the first word, and the second is what remains. -/
def Loses (world : World K) (x : K) (before after : Word RID) : Prop :=
  ∃ row, world.key row = x ∧ before.items = row ::ₘ after.items

end Leaving

section Deletion

variable {K Q : Type} [LinearOrder K] {growing : Prop} {ask : Q → K} {degree height : Nat}
  {addr addrPar addrBro root first : Int} {others rest : Multiset NodeDesc} {front word back : Word RID} {map : PageMap IndexPage} {world : World K}
  {pins : Multiset Int} {free : List Int} {xs ys : List RID} {separator : RID}

/-- What a call on a child leaves of the family, and its result. -/
inductive Mended (degree height : Nat) (addrPar first root : Int) (others : Multiset NodeDesc) (oldSeps : List RID)
    (oldKids : List Int) (front word back : Word RID) : Int → TreeState K → Prop where
  | kept {state : TreeState K} (seps : List RID) (kids : List (Tree Int RID height))
      (same : kids.map Tree.addr = oldKids) (length : seps.length = oldSeps.length)
      (left : kids.head?.map Tree.leftmost = some first) (reads : interleave Tree.word seps kids = word)
      (sized : ∀ kid ∈ kids, kid.Sized degree degree)
      (rests : Rests state root ({⟨addrPar, false, seps, oldKids⟩} + (Tree.nodesOf kids + others)) 0
        (front ++ word ++ back)) :
      Mended degree height addrPar first root others oldSeps oldKids front word back (-1) state
  | merged {state : TreeState K} (xs ys : List RID) (separator : RID) (as bs : List Int) (kid dead : Int)
      (kids : List (Tree Int RID height)) (seps : oldSeps = xs ++ separator :: ys)
      (addresses : oldKids = as ++ kid :: dead :: bs) (countBefore : as.length = xs.length)
      (countAfter : bs.length = ys.length) (same : kids.map Tree.addr = as ++ kid :: bs)
      (left : kids.head?.map Tree.leftmost = some first) (reads : interleave Tree.word (xs ++ ys) kids = word)
      (sized : ∀ kid ∈ kids, kid.Sized degree degree)
      (rests : Rests state root ({⟨addrPar, false, oldSeps, oldKids⟩} + (Tree.nodesOf kids + others))
        (if height = 0 then {separator} else 0) (front ++ word ++ back)) :
      Mended degree height addrPar first root others oldSeps oldKids front word back xs.length state

/-- A call is done when it has mended the family, without a row with the key `x`. -/
def Mends (degree height : Nat) (addrPar first root : Int) (others : Multiset NodeDesc) (front back : Word RID)
    (world : World K) (x : K) (seps : List RID) (kids : List (Tree Int RID height))
    (post : Int → TreeState K → Prop) : Prop :=
  ∀ word result state, Loses world x (interleave Tree.word seps kids) word →
    Mended degree height addrPar first root others seps (kids.map Tree.addr) front word back result state →
      Later world state.2 → post result state

/-- A call is done when it has mended the family, with the word it has. -/
def Keeps (degree height : Nat) (addrPar first root : Int) (others : Multiset NodeDesc) (front back : Word RID)
    (world : World K) (seps : List RID) (kids : List (Tree Int RID height)) (post : Int → TreeState K → Prop) : Prop :=
  ∀ result state, Mended degree height addrPar first root others seps (kids.map Tree.addr) front
    (interleave Tree.word seps kids) back result state → Later world state.2 → post result state

/-! ## A separator and a child dropped -/

/-- The node of the first child. -/
theorem exists_firstChild {kids : List (Tree Int RID height)} {as bs : List Int} {kid : Int}
    (same : kids.map Tree.addr = as ++ kid :: bs) : ∃ child ∈ Tree.nodesOf kids,
      (as ++ kid :: bs).head? = some child.addr ∧ child.leaf = decide (height = 0) := by
  cases kids with
  | nil => exact absurd same.symm (List.append_ne_nil_of_right_ne_nil _ (List.cons_ne_nil _ _))
  | cons head tail =>
      refine ⟨head.root, ?_, ?_, head.leaf_root⟩
      · rw [Tree.nodesOf_cons, Tree.nodes_eq]
        exact Multiset.mem_add.mpr (.inl (Multiset.mem_add.mpr (.inl (Multiset.mem_singleton_self _))))
      · rw [← same, head.addr_root]
        rfl

/-- A node two of whose children have become one: its page still has both. -/
inductive Outdated (node : BNode) (addr : Int) (xs ys : List RID) (separator : RID)
    (kids : List (Tree Int RID height)) : NodeDesc → Prop where
  | intro (as bs : List Int) (kid dead : Int)
      (is : NodeIs node false (xs ++ separator :: ys) (as ++ kid :: dead :: bs)) (countBefore : as.length = xs.length)
      (countAfter : bs.length = ys.length) (same : kids.map Tree.addr = as ++ kid :: bs) :
      Outdated node addr xs ys separator kids ⟨addr, false, xs ++ separator :: ys, as ++ kid :: dead :: bs⟩

/-- After a merge of two children the parent drops an entry, and between leaves its copy. -/
theorem Outdated.wp_dropEntry {node : BNode} {page : NodeDesc} {kids : List (Tree Int RID height)} {free : List Int}
    {post : Unit → TreeState K → Prop} (outdated : Outdated node addr xs ys separator kids page)
    (bound : (xs ++ separator :: ys).length ≤ 2 * degree) (lays : Lays map ⟨root, {page} + others, 0, free⟩)
    (below : Tree.nodesOf kids ⊆ others) (pinned : addr ∈ pins) (room : pins.card < cachePage)
    (sound : Sound world (if height = 0 then {separator} else 0) word)
    (ended : ∀ map' world', Lays map' ⟨root, {⟨addr, false, xs ++ ys, kids.map Tree.addr⟩} + others, 0, free⟩ →
      Sound world' 0 word → Later world world' → post () (⟨map', pins⟩, world')) :
    (dropEntry degree addr xs.length : TreeProg Q Unit).wp (growthLogic growing ask) post (⟨map, pins⟩, world) := by
  obtain ⟨as, bs, kid, dead, -, countBefore, countAfter, same⟩ := outdated
  obtain ⟨child, atChild, first, kind⟩ := exists_firstChild same
  refine Index.wp_dropEntry lays countBefore countAfter bound pinned room (below atChild) first ?_ ?_
  · intro leaf
    exact sound.owed_of_leaf (kind.symm.trans leaf)
  · intro map' world' lays' dropped
    rw [← same] at lays'
    rw [kind] at dropped
    exact ended map' world' lays' (sound.dropped dropped) dropped.later

/-! ## Two neighbours -/

section Pair

variable {before after : List (Tree Int RID height)} {left right left' right' merged : Tree Int RID height}
  {separator' : RID} {state : TreeState K}

/-- The word of a node, seen from two of its children. -/
theorem word_focus_pair (countBefore : before.length = xs.length) (countAfter : after.length = ys.length) :
    front ++ interleave Tree.word (xs ++ separator :: ys) (before ++ left :: right :: after) ++ back =
      (front ++ wordBefore Tree.word before xs) ++ (left.word ++ .sep separator :: right.word) ++
        (wordAfter Tree.word ys after ++ back) := by
  rw [interleave_pair countBefore countAfter]
  simp only [List.append_assoc]

theorem items_pair (countBefore : before.length = xs.length) (countAfter : after.length = ys.length) :
    Word.items (interleave Tree.word (xs ++ separator :: ys) (before ++ left :: right :: after)) =
      left.word.items + right.word.items +
        (Word.items (wordBefore Tree.word before xs) + Word.items (wordAfter Tree.word ys after)) := by
  rw [interleave_pair countBefore countAfter]
  simp only [Word.items_append, Word.items_sep]
  abel

theorem items_around {kid : Tree Int RID height} (countBefore : before.length = xs.length)
    (countAfter : after.length = ys.length) :
    Word.items (interleave Tree.word (xs ++ ys) (before ++ kid :: after)) = kid.word.items +
      (Word.items (wordBefore Tree.word before xs) + Word.items (wordAfter Tree.word ys after)) := by
  rw [interleave_around countBefore countAfter]
  simp only [Word.items_append]
  abel

/-- The leftmost leaf of a family two of whose members have been changed. -/
theorem head_pair (leftmost : left'.leftmost = left.leftmost) :
    (before ++ left' :: right' :: after).head?.map Tree.leftmost =
      (before ++ left :: right :: after).head?.map Tree.leftmost := by
  cases before with
  | nil => exact congrArg some leftmost
  | cons head before => rfl

/-- Two neighbours have exchanged entries over their parent. -/
theorem Mended.of_pair (countBefore : before.length = xs.length) (countAfter : after.length = ys.length)
    (sameLeft : left'.addr = left.addr) (sameRight : right'.addr = right.addr)
    (leftmost : left'.leftmost = left.leftmost)
    (head : (before ++ left :: right :: after).head?.map Tree.leftmost = some first)
    (sizedOthers : ∀ kid ∈ before ++ after, kid.Sized degree degree) (sizedLeft : left'.Sized degree degree)
    (sizedRight : right'.Sized degree degree)
    (rests : Rests state root
      ({⟨addrPar, false, xs ++ separator' :: ys, (before ++ left :: right :: after).map Tree.addr⟩} +
        (left'.nodes + (right'.nodes + (Tree.nodesOf before + Tree.nodesOf after + others)))) 0
      ((front ++ wordBefore Tree.word before xs) ++ (left'.word ++ .sep separator' :: right'.word) ++
        (wordAfter Tree.word ys after ++ back))) :
    Mended degree height addrPar first root others (xs ++ separator :: ys)
      ((before ++ left :: right :: after).map Tree.addr) front
      (interleave Tree.word (xs ++ separator' :: ys) (before ++ left' :: right' :: after)) back (-1) state := by
  obtain ⟨pins, ⟨free, lays⟩, sound⟩ := rests
  refine .kept (xs ++ separator' :: ys) (before ++ left' :: right' :: after) ?_ ?_ ?_ rfl ?_ ⟨pins, ⟨free, ?_⟩, ?_⟩
  · simp only [List.map_append, List.map_cons, sameLeft, sameRight]
  · simp only [List.length_append, List.length_cons]
  · exact (head_pair leftmost).trans head
  · intro kid member
    rw [List.mem_append, List.mem_cons, List.mem_cons] at member
    rcases member with old | rfl | rfl | old
    · exact sizedOthers kid (List.mem_append_left _ old)
    · exact sizedLeft
    · exact sizedRight
    · exact sizedOthers kid (List.mem_append_right _ old)
  · refine lays.regroup ?_
    simp only [Tree.nodesOf_append, Tree.nodesOf_cons]
    abel
  · rwa [word_focus_pair countBefore countAfter]

/-- Two neighbours have become one. -/
theorem Mended.of_merged (countBefore : before.length = xs.length) (countAfter : after.length = ys.length)
    (sameLeft : merged.addr = left.addr) (leftmost : merged.leftmost = left.leftmost)
    (head : (before ++ left :: right :: after).head?.map Tree.leftmost = some first)
    (sizedOthers : ∀ kid ∈ before ++ after, kid.Sized degree degree) (sizedMerged : merged.Sized degree degree)
    (rests : Rests state root
      ({⟨addrPar, false, xs ++ separator :: ys, (before ++ left :: right :: after).map Tree.addr⟩} +
        (merged.nodes + (Tree.nodesOf before + Tree.nodesOf after + others)))
      (if height = 0 then {separator} else 0)
      ((front ++ wordBefore Tree.word before xs) ++ merged.word ++ (wordAfter Tree.word ys after ++ back))) :
    Mended degree height addrPar first root others (xs ++ separator :: ys)
      ((before ++ left :: right :: after).map Tree.addr) front
      (interleave Tree.word (xs ++ ys) (before ++ merged :: after)) back xs.length state := by
  obtain ⟨pins, ⟨free, lays⟩, sound⟩ := rests
  refine .merged xs ys separator (before.map Tree.addr) (after.map Tree.addr) left.addr right.addr
    (before ++ merged :: after) rfl ?_ ?_ ?_ ?_ ?_ rfl ?_ ⟨pins, ⟨free, ?_⟩, ?_⟩
  · simp only [List.map_append, List.map_cons]
  · rw [List.length_map, countBefore]
  · rw [List.length_map, countAfter]
  · simp only [List.map_append, List.map_cons, sameLeft]
  · rw [← head]
    cases before with
    | nil => exact congrArg some leftmost
    | cons other before => rfl
  · intro kid member
    rw [List.mem_append, List.mem_cons] at member
    rcases member with old | rfl | old
    · exact sizedOthers kid (List.mem_append_left _ old)
    · exact sizedMerged
    · exact sizedOthers kid (List.mem_append_right _ old)
  · refine lays.regroup ?_
    simp only [Tree.nodesOf_append, Tree.nodesOf_cons]
    abel
  · rwa [word_focus countBefore countAfter]

section Done

variable {x : K} {row : RID} {post : Int → TreeState K → Prop}

theorem Mends.of_pair (ended : Mends degree height addrPar first root others front back world x
      (xs ++ separator :: ys) (before ++ left :: right :: after) post)
    (rests : Rests state root
      ({⟨addrPar, false, xs ++ separator' :: ys, (before ++ left :: right :: after).map Tree.addr⟩} +
        (left'.nodes + (right'.nodes + (Tree.nodesOf before + Tree.nodesOf after + others)))) 0
      ((front ++ wordBefore Tree.word before xs) ++ (left'.word ++ .sep separator' :: right'.word) ++
        (wordAfter Tree.word ys after ++ back)))
    (countBefore : before.length = xs.length) (countAfter : after.length = ys.length)
    (sameLeft : left'.addr = left.addr) (sameRight : right'.addr = right.addr)
    (leftmost : left'.leftmost = left.leftmost)
    (head : (before ++ left :: right :: after).head?.map Tree.leftmost = some first)
    (sizedOthers : ∀ kid ∈ before ++ after, kid.Sized degree degree) (sizedLeft : left'.Sized degree degree)
    (sizedRight : right'.Sized degree degree) (lost : world.key row = x)
    (items : left.word.items + right.word.items = row ::ₘ (left'.word.items + right'.word.items))
    (later : Later world state.2) : post (-1) state := by
  refine ended _ _ _ ⟨row, lost, ?_⟩ (.of_pair countBefore countAfter sameLeft sameRight leftmost head sizedOthers
    sizedLeft sizedRight rests) later
  rw [items_pair countBefore countAfter, items_pair countBefore countAfter, items, Multiset.cons_add]

theorem Mends.of_merged (ended : Mends degree height addrPar first root others front back world x
      (xs ++ separator :: ys) (before ++ left :: right :: after) post)
    (rests : Rests state root
      ({⟨addrPar, false, xs ++ separator :: ys, (before ++ left :: right :: after).map Tree.addr⟩} +
        (merged.nodes + (Tree.nodesOf before + Tree.nodesOf after + others)))
      (if height = 0 then {separator} else 0)
      ((front ++ wordBefore Tree.word before xs) ++ merged.word ++ (wordAfter Tree.word ys after ++ back)))
    (countBefore : before.length = xs.length) (countAfter : after.length = ys.length)
    (sameLeft : merged.addr = left.addr) (leftmost : merged.leftmost = left.leftmost)
    (head : (before ++ left :: right :: after).head?.map Tree.leftmost = some first)
    (sizedOthers : ∀ kid ∈ before ++ after, kid.Sized degree degree) (sizedMerged : merged.Sized degree degree)
    (lost : world.key row = x) (items : left.word.items + right.word.items = row ::ₘ merged.word.items)
    (later : Later world state.2) : post xs.length state := by
  refine ended _ _ _ ⟨row, lost, ?_⟩ (.of_merged countBefore countAfter sameLeft leftmost head sizedOthers
    sizedMerged rests) later
  rw [items_pair countBefore countAfter, items_around countBefore countAfter, items, Multiset.cons_add]

end Done

section Kept

variable {post : Int → TreeState K → Prop}

theorem Keeps.of_pair (ended : Keeps degree height addrPar first root others front back world
      (xs ++ separator :: ys) (before ++ left :: right :: after) post)
    (rests : Rests state root
      ({⟨addrPar, false, xs ++ separator' :: ys, (before ++ left :: right :: after).map Tree.addr⟩} +
        (left'.nodes + (right'.nodes + (Tree.nodesOf before + Tree.nodesOf after + others)))) 0
      ((front ++ wordBefore Tree.word before xs) ++ (left.word ++ .sep separator :: right.word) ++
        (wordAfter Tree.word ys after ++ back)))
    (reads : left'.word ++ .sep separator' :: right'.word = left.word ++ .sep separator :: right.word)
    (countBefore : before.length = xs.length) (countAfter : after.length = ys.length)
    (sameLeft : left'.addr = left.addr) (sameRight : right'.addr = right.addr)
    (leftmost : left'.leftmost = left.leftmost)
    (head : (before ++ left :: right :: after).head?.map Tree.leftmost = some first)
    (sizedOthers : ∀ kid ∈ before ++ after, kid.Sized degree degree) (sizedLeft : left'.Sized degree degree)
    (sizedRight : right'.Sized degree degree) (later : Later world state.2) : post (-1) state := by
  rw [← reads] at rests
  have same : interleave Tree.word (xs ++ separator' :: ys) (before ++ left' :: right' :: after) =
      interleave Tree.word (xs ++ separator :: ys) (before ++ left :: right :: after) := by
    rw [interleave_pair countBefore countAfter, interleave_pair countBefore countAfter, reads]
  refine ended _ _ ?_ later
  rw [← same]
  exact .of_pair countBefore countAfter sameLeft sameRight leftmost head sizedOthers sizedLeft sizedRight rests

theorem Keeps.of_merged (ended : Keeps degree height addrPar first root others front back world
      (xs ++ separator :: ys) (before ++ left :: right :: after) post)
    (rests : Rests state root
      ({⟨addrPar, false, xs ++ separator :: ys, (before ++ left :: right :: after).map Tree.addr⟩} +
        (merged.nodes + (Tree.nodesOf before + Tree.nodesOf after + others)))
      (if height = 0 then {separator} else 0)
      ((front ++ wordBefore Tree.word before xs) ++ (left.word ++ .sep separator :: right.word) ++
        (wordAfter Tree.word ys after ++ back)))
    (reads : merged.word = left.word ++ .sep separator :: right.word)
    (countBefore : before.length = xs.length) (countAfter : after.length = ys.length)
    (sameLeft : merged.addr = left.addr) (leftmost : merged.leftmost = left.leftmost)
    (head : (before ++ left :: right :: after).head?.map Tree.leftmost = some first)
    (sizedOthers : ∀ kid ∈ before ++ after, kid.Sized degree degree) (sizedMerged : merged.Sized degree degree)
    (later : Later world state.2) : post xs.length state := by
  rw [← reads] at rests
  have same : interleave Tree.word (xs ++ ys) (before ++ merged :: after) =
      interleave Tree.word (xs ++ separator :: ys) (before ++ left :: right :: after) := by
    rw [interleave_pair countBefore countAfter, interleave_around countBefore countAfter, reads]
  refine ended _ _ ?_ later
  rw [← same]
  exact .of_merged countBefore countAfter sameLeft leftmost head sizedOthers sizedMerged rests

end Kept

end Pair

/-! ## A family -/

/--
A child and its family, while the child's page is `page` and the pages under the child are
`below`. The page may be behind the child: it is written last.
-/
structure Family (degree height : Nat) (addrPar first root : Int) (others : Multiset NodeDesc)
    (front back : Word RID) (map : PageMap IndexPage) (free : List Int) (world : World K) (stale : Multiset RID)
    (xs ys : List RID) (before after : List (Tree Int RID height)) (kid : Tree Int RID height) (page : NodeDesc)
    (below : Multiset NodeDesc) : Prop where
  lays : Lays map ⟨root, {⟨addrPar, false, xs ++ ys, (before ++ kid :: after).map Tree.addr⟩} +
    ({page} + (below + (Tree.nodesOf before + Tree.nodesOf after + others))), 0, free⟩
  place : page.addr = kid.addr
  countBefore : before.length = xs.length
  countAfter : after.length = ys.length
  least : 1 ≤ (xs ++ ys).length
  bound : (xs ++ ys).length ≤ 2 * degree
  sized : ∀ other ∈ before ++ after, other.Sized degree degree
  head : (before ++ kid :: after).head?.map Tree.leftmost = some first
  sound : Sound world stale ((front ++ wordBefore Tree.word before xs) ++ kid.word ++
    (wordAfter Tree.word ys after ++ back))

section OfFamily

variable {before after : List (Tree Int RID height)} {kid : Tree Int RID height} {page : NodeDesc}
  {below : Multiset NodeDesc} {stale : Multiset RID}

/-- The address of the parent is not the mark of a root. -/
theorem Family.proper (family : Family degree height addrPar first root others front back map free world stale
    xs ys before after kid page below) : addrPar ≠ -1 := by
  have inside := (family.lays.node_inFile (Multiset.mem_add.mpr (.inl (Multiset.mem_singleton_self _)))).1.2.1
  dsimp only at inside
  omega

/-- Two neighbours and their family, with the pages of the two. -/
structure Brothers (degree height : Nat) (addrPar first root : Int) (others : Multiset NodeDesc)
    (front back : Word RID) (map : PageMap IndexPage) (free : List Int) (world : World K) (stale : Multiset RID)
    (xs ys : List RID) (separator : RID) (before after : List (Tree Int RID height))
    (left right : Tree Int RID height) (pageLeft pageRight : NodeDesc) (below : Multiset NodeDesc) : Prop where
  lays : Lays map ⟨root, {⟨addrPar, false, xs ++ separator :: ys,
    (before ++ left :: right :: after).map Tree.addr⟩} + ({pageLeft} + ({pageRight} +
      (below + (Tree.nodesOf before + Tree.nodesOf after + others)))), 0, free⟩
  countBefore : before.length = xs.length
  countAfter : after.length = ys.length
  bound : xs.length < 2 * degree
  sized : ∀ other ∈ before ++ after, other.Sized degree degree
  head : (before ++ left :: right :: after).head?.map Tree.leftmost = some first
  sound : Sound world stale ((front ++ wordBefore Tree.word before xs) ++
    (left.word ++ .sep separator :: right.word) ++ (wordAfter Tree.word ys after ++ back))

section OfBrothers

variable {left right : Tree Int RID height} {pageLeft pageRight : NodeDesc}

/-- The parent's separator stands on its page. -/
theorem Brothers.slot (brothers : Brothers degree height addrPar first root others front back map free world
    stale xs ys separator before after left right pageLeft pageRight below) (pinned : addrPar ∈ pins) :
    InSeparatorSlot ⟨map, pins⟩ separator :=
  brothers.lays.slot (Multiset.mem_add.mpr (.inl (Multiset.mem_singleton_self _)))
    (List.mem_append_right _ List.mem_cons_self) pinned

/-- Two neighbours as they stand on their pages. -/
def neighbours (addrPar : Int) (xs ys : List RID) (separator : RID) (before after : List (Tree Int RID height))
    (left right : NodeDesc) : Neighbours :=
  ⟨addrPar, xs, separator, ys, before.map Tree.addr, after.map Tree.addr, left, right⟩

theorem neighbours_parent (left right : Tree Int RID height) (placeLeft : pageLeft.addr = left.addr)
    (placeRight : pageRight.addr = right.addr) :
    (neighbours addrPar xs ys separator before after pageLeft pageRight).parent =
      ⟨addrPar, false, xs ++ separator :: ys, (before ++ left :: right :: after).map Tree.addr⟩ := by
  simp only [neighbours, Neighbours.parent, placeLeft, placeRight, List.map_append, List.map_cons]

theorem neighbours_nodes (left right : Tree Int RID height) (placeLeft : pageLeft.addr = left.addr)
    (placeRight : pageRight.addr = right.addr) :
    (neighbours addrPar xs ys separator before after pageLeft pageRight).nodes + rest =
      {⟨addrPar, false, xs ++ separator :: ys, (before ++ left :: right :: after).map Tree.addr⟩} +
        ({pageLeft} + ({pageRight} + rest)) := by
  rw [Neighbours.nodes, neighbours_parent left right placeLeft placeRight]
  simp only [neighbours, add_assoc]

theorem Brothers.pages (brothers : Brothers degree height addrPar first root others front back map free world
      stale xs ys separator before after left right pageLeft pageRight below)
    (placeLeft : pageLeft.addr = left.addr) (placeRight : pageRight.addr = right.addr) :
    Lays map ⟨root, (neighbours addrPar xs ys separator before after pageLeft pageRight).nodes +
      (below + (Tree.nodesOf before + Tree.nodesOf after + others)), 0, free⟩ :=
  brothers.lays.regroup (neighbours_nodes left right placeLeft placeRight).symm

theorem Brothers.fits (brothers : Brothers degree height addrPar first root others front back map free world
      stale xs ys separator before after left right pageLeft pageRight below)
    (placeLeft : pageLeft.addr = left.addr) (placeRight : pageRight.addr = right.addr)
    (bound : (xs ++ separator :: ys).length ≤ 2 * degree) :
    (neighbours addrPar xs ys separator before after pageLeft pageRight).Fits degree := by
  have there : ∀ place ∈ before.map Tree.addr, ∃ desc ∈ Tree.nodesOf before, desc.addr = place := by
    intro place member
    obtain ⟨tree, here, rfl⟩ := List.mem_map.mp member
    obtain ⟨desc, inTree, same⟩ := tree.root_mem_nodes
    exact ⟨desc, Tree.mem_nodesOf.mpr ⟨tree, here, inTree⟩, same⟩
  have pages := brothers.pages placeLeft placeRight
  refine ⟨?_, ?_, bound, ?_, ?_⟩
  · exact (List.length_map _).trans brothers.countBefore
  · exact (List.length_map _).trans brothers.countAfter
  · intro member
    obtain ⟨desc, inBefore, same⟩ := there _ member
    refine (pages.regroup (Neighbours.leftFirst _ _)).apart (Multiset.mem_singleton_self _) ?_ same.symm
    simp [inBefore]
  · intro member
    rcases List.mem_append.mp member with old | other
    · obtain ⟨desc, inBefore, same⟩ := there _ old
      refine (pages.regroup (Neighbours.rightFirst _ _)).apart (Multiset.mem_singleton_self _) ?_ same.symm
      simp [inBefore]
    · refine (pages.regroup (Neighbours.rightFirst _ _)).apart (Multiset.mem_singleton_self _) ?_ (List.mem_singleton.mp other)
      exact Multiset.mem_add.mpr (.inr (Multiset.mem_add.mpr (.inl (Multiset.mem_singleton_self _))))

end OfBrothers

/-- The child and its right brother. -/
theorem Family.withRight {right : Tree Int RID height}
    (family : Family degree height addrPar first root others front back map free world stale xs (separator :: ys)
      before (right :: after) kid page below) :
    Brothers degree height addrPar first root others front back map free world stale xs ys separator before after
      kid right page right.root (below + right.below) := by
  obtain ⟨lays, -, countBefore, countAfter, -, bound, sized, head, sound⟩ := family
  refine ⟨lays.regroup ?_, countBefore, Nat.succ.inj countAfter, ?_, ?_, head, ?_⟩
  · rw [Tree.nodesOf_cons, right.nodes_eq]
    abel
  · rw [List.length_append, List.length_cons] at bound
    omega
  · intro other member
    refine sized other ?_
    rcases List.mem_append.mp member with old | old
    · exact List.mem_append_left _ old
    · exact List.mem_append_right _ (List.mem_cons_of_mem _ old)
  · simpa only [wordAfter, List.append_assoc, List.cons_append] using sound

theorem wordBefore_append (countBefore : before.length = xs.length) :
    wordBefore Tree.word (before ++ [kid]) (xs ++ [separator]) =
      wordBefore Tree.word before xs ++ (kid.word ++ [.sep separator]) := by
  induction before generalizing xs with
  | nil =>
      rw [List.length_nil, eq_comm, List.length_eq_zero_iff] at countBefore
      subst countBefore
      rfl
  | cons other before ih =>
      cases xs with
      | nil => cases countBefore
      | cons x xs =>
          simp only [List.cons_append, wordBefore, ih (Nat.succ.inj countBefore), List.append_assoc]

/-- The last child and its left brother. -/
theorem Family.withLeft {left : Tree Int RID height}
    (family : Family degree height addrPar first root others front back map free world stale (xs ++ [separator]) []
      (before ++ [left]) [] kid page below) :
    Brothers degree height addrPar first root others front back map free world stale xs [] separator before []
      left kid left.root page (below + left.below) := by
  obtain ⟨lays, -, countBefore, -, -, bound, sized, head, sound⟩ := family
  rw [List.length_append, List.length_append, List.length_singleton, List.length_singleton] at countBefore
  have count : before.length = xs.length := Nat.succ.inj countBefore
  simp only [List.append_assoc, List.cons_append, List.nil_append] at lays head
  refine ⟨lays.regroup ?_, count, rfl, ?_, ?_, head, ?_⟩
  · rw [Tree.nodesOf_append, Tree.nodesOf_cons, Tree.nodesOf_nil, left.nodes_eq]
    abel
  · rw [List.append_nil, List.length_append, List.length_singleton] at bound
    omega
  · intro other member
    rw [List.append_nil] at member
    exact sized other (List.mem_append_left _ (List.mem_append_left _ member))
  · rw [wordBefore_append count] at sound
    simpa only [wordAfter, List.append_assoc, List.cons_append, List.nil_append] using sound

/-- The brother of a child: the right one, or the left one of the last child. -/
theorem Family.exists_brother (family : Family degree height addrPar first root others front back map free world stale
      xs ys before after kid page below) :
    (∃ separator ys' right after', ys = separator :: ys' ∧ after = right :: after' ∧
      Brothers degree height addrPar first root others front back map free world stale xs ys' separator before after'
        kid right page right.root (below + right.below) ∧
      (xs ++ separator :: ys').length ≤ 2 * degree ∧ right.Sized degree degree) ∨
    ∃ separator xs' left before', xs = xs' ++ [separator] ∧ ys = [] ∧ before = before' ++ [left] ∧ after = [] ∧
      Brothers degree height addrPar first root others front back map free world stale xs' [] separator before' []
        left kid left.root page (below + left.below) ∧
      (xs' ++ separator :: []).length ≤ 2 * degree ∧ left.Sized degree degree := by
  have bound := family.bound
  have countBefore := family.countBefore
  have countAfter := family.countAfter
  cases after with
  | cons right after =>
      obtain ⟨separator, ys, rfl⟩ := List.exists_cons_of_length_eq_add_one countAfter.symm
      have sized := family.sized right (List.mem_append_right _ List.mem_cons_self)
      exact .inl ⟨separator, ys, right, after, rfl, rfl, family.withRight, bound, sized⟩
  | nil =>
      have least := family.least
      obtain rfl : ys = [] := List.length_eq_zero_iff.mp countAfter.symm
      rw [List.append_nil] at least bound
      obtain ⟨xs, separator, rfl⟩ := (List.eq_nil_or_concat' xs).resolve_left (List.ne_nil_of_length_pos least)
      obtain ⟨before, left, rfl⟩ := (List.eq_nil_or_concat' before).resolve_left
        (List.ne_nil_of_length_pos (countBefore ▸ least))
      have sized := family.sized left (List.mem_append_left _ (List.mem_append_right _ (List.mem_singleton_self _)))
      exact .inr ⟨separator, xs, left, before, rfl, rfl, rfl, rfl, family.withLeft, bound, sized⟩

/-- The right brother is fetched, or the left one of the last child. -/
theorem wp_fetchBrother {post : Bool × BNode × Nat × Int × BNode → TreeState K → Prop}
    (family : Family degree height addrPar first root others front back map free world stale xs ys before after kid
      page below)
    (right : ∀ separator ys' right after' nodePar brother, ys = separator :: ys' → after = right :: after' →
      Brothers degree height addrPar first root others front back map free world stale xs ys' separator before after'
        kid right page right.root (below + right.below) →
      NodeIs nodePar false (xs ++ separator :: ys') ((before ++ kid :: right :: after').map Tree.addr) →
      NodeIs brother right.root.leaf right.root.rows right.root.kids → right.Sized degree degree →
        post (true, nodePar, xs.length, right.addr, brother)
          (⟨map, right.addr ::ₘ addrPar ::ₘ kid.addr ::ₘ 0⟩, world))
    (left : ∀ separator xs' left before' nodePar brother, xs = xs' ++ [separator] → ys = [] →
      before = before' ++ [left] → after = [] →
      Brothers degree height addrPar first root others front back map free world stale xs' [] separator before' []
        left kid left.root page (below + left.below) →
      NodeIs nodePar false (xs' ++ separator :: []) ((before' ++ left :: kid :: []).map Tree.addr) →
      NodeIs brother left.root.leaf left.root.rows left.root.kids → left.Sized degree degree →
        post (false, nodePar, xs'.length, left.addr, brother)
          (⟨map, left.addr ::ₘ addrPar ::ₘ kid.addr ::ₘ 0⟩, world)) :
    (fetchBrother degree kid.addr addrPar : TreeProg Q _).wp (growthLogic growing ask) post (⟨map, kid.addr ::ₘ 0⟩, world) := by
  rw [← family.place]
  rcases family.exists_brother with ⟨separator, ys', brother, after', rfl, rfl, brothers, bound, sized⟩ |
    ⟨separator, xs', brother, before', rfl, rfl, rfl, rfl, brothers, bound, sized⟩
  · have placeBro := brother.addr_root
    have pages := brothers.pages family.place placeBro
    refine wp_fetchNeighbour (neighbours addrPar xs ys' separator before after' page brother.root) .left pages
      (brothers.fits family.place placeBro bound) (fun other => Side.noConfusion other) ?_
    intro nodePar nodeBro isPar isBro
    rw [neighbours_parent _ _ family.place placeBro] at isPar
    have result := right separator ys' brother after' nodePar nodeBro rfl rfl brothers isPar isBro sized
    rwa [← placeBro, ← family.place] at result
  · have placeBro := brother.addr_root
    have pages := brothers.pages placeBro family.place
    refine wp_fetchNeighbour (neighbours addrPar xs' [] separator before' [] brother.root page) .right pages
      (brothers.fits placeBro family.place bound) (fun _ => rfl) ?_
    intro nodePar nodeBro isPar isBro
    rw [neighbours_parent _ _ placeBro family.place] at isPar
    have result := left separator xs' brother before' nodePar nodeBro rfl rfl rfl rfl brothers isPar isBro sized
    rwa [← placeBro, ← family.place] at result

theorem Family.inFile (family : Family degree height addrPar first root others front back map free world stale
    xs ys before after kid page below) : map.InFile kid.addr := by
  have inside := (family.lays.node_inFile
    (Multiset.mem_add.mpr (.inr (Multiset.mem_add.mpr (.inl (Multiset.mem_singleton_self page)))))).1
  rwa [family.place] at inside

/-! ### The families of a tree -/

/-- A child of a child, and its family. -/
theorem Family.inward {us vs : List RID} {kidsBefore kidsAfter : List (Tree Int RID height)} {kid : Tree Int RID height}
    {before after : List (Tree Int RID (height + 1))}
    (family : Family degree (height + 1) addrPar first root others front back map free world 0 xs ys before after
      (Tree.inner addr (us ++ vs) (kidsBefore ++ kid :: kidsAfter))
      ⟨addr, false, us ++ vs, (kidsBefore ++ kid :: kidsAfter).map Tree.addr⟩
      (Tree.nodesOf (kidsBefore ++ kid :: kidsAfter)))
    (countLeft : kidsBefore.length = us.length) (countRight : kidsAfter.length = vs.length)
    (least : 1 ≤ (us ++ vs).length) (bound : (us ++ vs).length ≤ 2 * degree)
    (sizedKids : ∀ other ∈ kidsBefore ++ kid :: kidsAfter, other.Sized degree degree) :
    Family degree height addr (Tree.inner addr (us ++ vs) (kidsBefore ++ kid :: kidsAfter)).leftmost root
      ({⟨addrPar, false, xs ++ ys, (before ++ Tree.inner addr (us ++ vs) (kidsBefore ++ kid :: kidsAfter) ::
        after).map Tree.addr⟩} + (Tree.nodesOf before + Tree.nodesOf after + others))
      (front ++ wordBefore Tree.word before xs) (wordAfter Tree.word ys after ++ back) map free world 0 us vs
      kidsBefore kidsAfter kid kid.root kid.below := by
  refine ⟨(family.lays.regroup (add_left_comm _ _ _)).regroup ?_, kid.addr_root, countLeft, countRight, least, bound,
    ?_, ?_, ?_⟩
  · rw [Tree.nodesOf_append, Tree.nodesOf_cons, kid.nodes_eq]
    abel
  · intro other member
    refine sizedKids other ?_
    rcases List.mem_append.mp member with old | old
    · exact List.mem_append_left _ old
    · exact List.mem_append_right _ (List.mem_cons_of_mem _ old)
  · cases kidsBefore with
    | nil => rfl
    | cons other kidsBefore => rfl
  · have sound := family.sound
    rw [Tree.word_inner, word_focus countLeft countRight] at sound
    exact sound

/-- A child of the root, and its family. -/
theorem Family.ofRoot {us vs : List RID} {kidsBefore kidsAfter : List (Tree Int RID height)} {kid : Tree Int RID height}
    (lays : Lays map ⟨addr, (Tree.inner addr (us ++ vs) (kidsBefore ++ kid :: kidsAfter)).nodes, 0, free⟩)
    (countLeft : kidsBefore.length = us.length) (countRight : kidsAfter.length = vs.length)
    (least : 1 ≤ (us ++ vs).length) (bound : (us ++ vs).length ≤ 2 * degree)
    (sizedKids : ∀ other ∈ kidsBefore ++ kid :: kidsAfter, other.Sized degree degree)
    (sound : Sound world 0 (interleave Tree.word (us ++ vs) (kidsBefore ++ kid :: kidsAfter))) :
    Family degree height addr (Tree.inner addr (us ++ vs) (kidsBefore ++ kid :: kidsAfter)).leftmost addr 0 [] [] map
      free world 0 us vs kidsBefore kidsAfter kid kid.root kid.below := by
  refine ⟨lays.regroup ?_, kid.addr_root, countLeft, countRight, least, bound, ?_, ?_, ?_⟩
  · rw [Tree.nodes_inner, Tree.nodesOf_append, Tree.nodesOf_cons, kid.nodes_eq]
    abel
  · intro other member
    refine sizedKids other ?_
    rcases List.mem_append.mp member with old | old
    · exact List.mem_append_left _ old
    · exact List.mem_append_right _ (List.mem_cons_of_mem _ old)
  · cases kidsBefore with
    | nil => rfl
    | cons other kidsBefore => rfl
  · rw [← word_focus countLeft countRight, List.nil_append, List.append_nil]
    exact sound

end OfFamily

end Deletion

end MyJQL.Index
