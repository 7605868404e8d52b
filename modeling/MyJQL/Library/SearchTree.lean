import Mathlib

/-!
# Search trees with separators

A tree of height `h` has its rows in leaves at depth `h`; an inner node has separators
between its children. What stands in a tree from left to right, rows and separators, is
its word. The order of a search tree is that of its word: a row is below each later mark,
and a separator is below each later separator and not above any later row.

A rotation or a merge of inner nodes, and a split of an inner node, leave the word of the
tree as it is.
-/

namespace MyJQL.Library

/-- What stands in a tree from left to right. -/
inductive Mark (R : Type) where
  | item (row : R)
  | sep (separator : R)

abbrev Word (R : Type) : Type := List (Mark R)

variable {A R K T : Type}

/-! ## Words -/

namespace Mark

def row : Mark R → R
  | .item row => row
  | .sep separator => separator

section Order

variable [LinearOrder K] (key : R → K)

/-- The order of two marks of a word, the first in front of the second. -/
def Precedes : Mark R → Mark R → Prop
  | .sep separator, .item row => key separator ≤ key row
  | first, second => key first.row < key second.row

/-- A search for `x` passes this mark. -/
def Before (x : K) : Mark R → Prop
  | .item row => key row < x
  | .sep separator => key separator ≤ x

/-- A search for `x` stays in front of this mark. -/
def After (x : K) (mark : Mark R) : Prop := x < key mark.row

variable {key} {x : K} {first second : Mark R} {row separator : R}

theorem Precedes.le (precedes : Precedes key first second) : key first.row ≤ key second.row := by
  cases first with
  | item row => exact le_of_lt precedes
  | sep separator =>
      cases second with
      | item row => exact precedes
      | sep other => exact le_of_lt precedes

theorem Precedes.before (precedes : Precedes key first (.sep separator)) (le : key separator ≤ x) :
    Before key x first := by
  cases first with
  | item row => exact lt_of_lt_of_le precedes le
  | sep other => exact le_of_lt (lt_of_lt_of_le precedes le)

theorem Precedes.after (precedes : Precedes key first second) (less : x < key first.row) :
    After key x second :=
  lt_of_lt_of_le less precedes.le

theorem Before.precedes (before : Before key (key row) first) : Precedes key first (.item row) := by
  cases first with
  | item other => exact before
  | sep separator => exact before

theorem After.precedes (after : After key (key row) second) : Precedes key (.item row) second := by
  cases second with
  | item other => exact after
  | sep separator => exact after

theorem Precedes.trans_item (precedes : Precedes key first (.item row)) (less : key row < key separator) :
    Precedes key first (.sep separator) := by
  cases first with
  | item other => exact lt_trans precedes less
  | sep other => exact lt_of_le_of_lt precedes less

/-- What follows a row follows a copy of its key. -/
theorem Precedes.of_copy (precedes : Precedes key (.item row) second) (copy : key separator = key row) :
    Precedes key (.sep separator) second := by
  have less : key separator < key second.row := by
    rw [copy]
    cases second <;> exact precedes
  cases second with
  | item other => exact le_of_lt less
  | sep other => exact less

end Order

end Mark

namespace Word

open Mark

/-- The rows of a word, and its separators. -/
def items : Word R → Multiset R
  | [] => 0
  | .item row :: word => row ::ₘ items word
  | .sep _ :: word => items word

def seps : Word R → Multiset R
  | [] => 0
  | .item _ :: word => seps word
  | .sep separator :: word => separator ::ₘ seps word

variable {word front back : Word R} {rows : List R} {row separator : R}

@[simp]
theorem items_nil : items ([] : Word R) = 0 := rfl

@[simp]
theorem items_item : items (.item row :: word) = row ::ₘ items word := rfl

@[simp]
theorem items_sep : items (.sep separator :: word) = items word := rfl

@[simp]
theorem seps_nil : seps ([] : Word R) = 0 := rfl

@[simp]
theorem seps_item : seps (.item row :: word) = seps word := rfl

@[simp]
theorem seps_sep : seps (.sep separator :: word) = separator ::ₘ seps word := rfl

@[simp]
theorem items_append : items (front ++ back) = items front + items back := by
  induction front with
  | nil => exact (zero_add _).symm
  | cons mark front ih =>
      cases mark with
      | item row => rw [List.cons_append, items_item, items_item, ih, Multiset.cons_add]
      | sep separator => rw [List.cons_append, items_sep, items_sep, ih]

@[simp]
theorem seps_append : seps (front ++ back) = seps front + seps back := by
  induction front with
  | nil => exact (zero_add _).symm
  | cons mark front ih =>
      cases mark with
      | item row => rw [List.cons_append, seps_item, seps_item, ih]
      | sep separator => rw [List.cons_append, seps_sep, seps_sep, ih, Multiset.cons_add]

@[simp]
theorem items_rows : items (rows.map .item) = rows := by
  induction rows with
  | nil => rfl
  | cons row rows ih => rw [List.map_cons, items_item, ih, Multiset.cons_coe]

@[simp]
theorem seps_rows : seps (rows.map .item) = 0 := by
  induction rows with
  | nil => rfl
  | cons row rows ih => rw [List.map_cons, seps_item, ih]

theorem mem_items : row ∈ items word ↔ .item row ∈ word := by
  induction word with
  | nil => simp
  | cons mark word ih => cases mark <;> simp [ih]

theorem mem_seps : separator ∈ seps word ↔ .sep separator ∈ word := by
  induction word with
  | nil => simp
  | cons mark word ih => cases mark <;> simp [ih]

/-! ### Order -/

section Order

variable [LinearOrder K] {key key' : R → K} {x : K} {previous : R}

/-- The word of a search tree. -/
def Sorted (key : R → K) (word : Word R) : Prop := word.Pairwise (Precedes key)

theorem Sorted.congr (agree : ∀ mark ∈ word, key' mark.row = key mark.row) (sorted : Sorted key word) :
    Sorted key' word := by
  refine sorted.imp_of_mem ?_
  intro first second member member' precedes
  have same := agree first member
  have same' := agree second member'
  cases first <;> cases second <;> simp only [Precedes, Mark.row] at * <;> rwa [same, same']

theorem Sorted.sublist (sorted : Sorted key word) (sub : front.Sublist word) : Sorted key front :=
  List.Pairwise.sublist sub sorted

/-- What stands in front of a separator that a search passes. -/
theorem Sorted.before (sorted : Sorted key (front ++ .sep separator :: back)) (le : key separator ≤ x) :
    ∀ mark ∈ front, Before key x mark := by
  intro mark member
  rw [Sorted, List.pairwise_append] at sorted
  exact (sorted.2.2 mark member _ List.mem_cons_self).before le

/-- What stands behind a mark in front of which a search stays. -/
theorem Sorted.after {mark : Mark R} (sorted : Sorted key (front ++ mark :: back))
    (less : x < key mark.row) : ∀ other ∈ back, After key x other := by
  intro other member
  rw [Sorted, List.pairwise_append, List.pairwise_cons] at sorted
  exact (sorted.2.1.1 other member).after less

/-- A row where a search for its key ends. -/
theorem Sorted.insert_item (sorted : Sorted key (front ++ back))
    (before : ∀ mark ∈ front, Before key (key row) mark)
    (after : ∀ mark ∈ back, After key (key row) mark) :
    Sorted key (front ++ .item row :: back) := by
  rw [Sorted, List.pairwise_append] at sorted
  rw [Sorted, List.pairwise_append, List.pairwise_cons]
  refine ⟨sorted.1, ⟨fun mark member => (after mark member).precedes, sorted.2.1⟩, ?_⟩
  intro mark member other member'
  cases member' with
  | head => exact (before mark member).precedes
  | tail _ member' => exact sorted.2.2 mark member other member'

/-- Each key is that of one row at most. -/
theorem Sorted.nodup_keys (sorted : Sorted key word) : (word.items.map key).Nodup := by
  induction word with
  | nil => exact Multiset.nodup_zero
  | cons mark word ih =>
      obtain ⟨behind, rest⟩ := List.pairwise_cons.mp sorted
      cases mark with
      | sep separator => exact ih rest
      | item row =>
          rw [items_item, Multiset.map_cons, Multiset.nodup_cons]
          refine ⟨fun member => ?_, ih rest⟩
          obtain ⟨other, here, same⟩ := Multiset.mem_map.mp member
          have less : key row < key other := behind _ (mem_items.mp here)
          exact less.ne same.symm

/-- A copy of a row, between the row before it and the row. -/
theorem Sorted.insert_sep (sorted : Sorted key (front ++ .item previous :: .item row :: back))
    (copy : key separator = key row) :
    Sorted key (front ++ .item previous :: .sep separator :: .item row :: back) := by
  simp only [Sorted, List.pairwise_append, List.pairwise_cons] at sorted ⊢
  obtain ⟨first, ⟨behind, ⟨last, rest⟩⟩, cross⟩ := sorted
  have less : key previous < key separator := by
    rw [copy]
    exact behind _ List.mem_cons_self
  refine ⟨first, ⟨?_, ⟨?_, last, rest⟩⟩, ?_⟩
  · intro mark member
    cases member with
    | head => exact less
    | tail _ member => exact behind mark member
  · intro mark member
    cases member with
    | head => exact le_of_eq copy
    | tail _ member => exact (last mark member).of_copy copy
  · intro mark member other member'
    have close := cross mark member _ List.mem_cons_self
    cases member' with
    | head => exact close
    | tail _ member' =>
        cases member' with
        | head => exact close.trans_item less
        | tail _ member' => exact cross mark member other (List.mem_cons_of_mem _ member')

end Order

end Word

/-! ## Cuts -/

/-- There is one place to cut a list between what fails a test and the first that passes it. -/
theorem cut_unique {passes : R → Prop} {xs ys xs' ys' : List R} (same : xs' ++ ys' = xs ++ ys)
    (failed' : ∀ row ∈ xs', ¬ passes row) (passed' : ∀ row ∈ ys'.head?, passes row)
    (failed : ∀ row ∈ xs, ¬ passes row) (passed : ∀ row ∈ ys.head?, passes row) : xs' = xs ∧ ys' = ys := by
  induction xs generalizing xs' with
  | nil =>
      cases xs' with
      | nil => exact ⟨rfl, same⟩
      | cons row xs' =>
          rw [List.nil_append, List.cons_append] at same
          exact absurd (passed row (by rw [← same]; rfl)) (failed' row List.mem_cons_self)
  | cons row xs ih =>
      cases xs' with
      | nil =>
          rw [List.nil_append, List.cons_append] at same
          exact absurd (passed' row (by rw [same]; rfl)) (failed row List.mem_cons_self)
      | cons row' xs' =>
          obtain ⟨rfl, rest⟩ := List.cons.inj same
          obtain ⟨rfl, rfl⟩ := ih rest (fun other member => failed' other (List.mem_cons_of_mem _ member))
            (fun other member => failed other (List.mem_cons_of_mem _ member))
          exact ⟨rfl, rfl⟩

/-! ## Children between separators -/

section Interleave

variable (read : T → Word R)

/-- The words of children with separators between them. -/
def interleave : List R → List T → Word R
  | separator :: seps, kid :: kids => read kid ++ .sep separator :: interleave seps kids
  | [], kid :: _ => read kid
  | _, [] => []

/-- Children, each in front of a separator. -/
def wordBefore : List T → List R → Word R
  | kid :: kids, separator :: seps => read kid ++ .sep separator :: wordBefore kids seps
  | _, _ => []

/-- Children, each behind a separator. -/
def wordAfter : List R → List T → Word R
  | separator :: seps, kid :: kids => .sep separator :: read kid ++ wordAfter seps kids
  | _, _ => []

variable {read} {seps seps' : List R} {kids kids' : List T} {separator : R} {kid : T}

@[simp]
theorem interleave_single : interleave read [] [kid] = read kid := rfl

/-- Two groups of children around a separator. -/
theorem interleave_append (count : kids.length = seps.length + 1) :
    interleave read (seps ++ separator :: seps') (kids ++ kids') =
      interleave read seps kids ++ .sep separator :: interleave read seps' kids' := by
  induction seps generalizing kids with
  | nil =>
      obtain ⟨kid, rfl⟩ := List.length_eq_one_iff.mp count
      rfl
  | cons first seps ih =>
      cases kids with
      | nil => cases count
      | cons kid kids =>
          have shorter : kids.length = seps.length + 1 := Nat.succ.inj count
          simp only [List.cons_append, interleave, ih shorter, List.append_assoc]

/-- One child, with what stands before and behind it. -/
theorem interleave_around (before : kids.length = seps.length) (after : kids'.length = seps'.length) :
    interleave read (seps ++ seps') (kids ++ kid :: kids') =
      wordBefore read kids seps ++ (read kid ++ wordAfter read seps' kids') := by
  induction seps generalizing kids with
  | nil =>
      rw [List.length_nil, List.length_eq_zero_iff] at before
      subst before
      simp only [List.nil_append, wordBefore]
      induction seps' generalizing kid kids' with
      | nil => simp only [interleave, wordAfter, List.append_nil]
      | cons separator seps' ih =>
          cases kids' with
          | nil => cases after
          | cons next kids' =>
              have shorter : kids'.length = seps'.length := Nat.succ.inj after
              simp only [interleave, wordAfter, ih shorter, List.cons_append]
  | cons first seps ih =>
      cases kids with
      | nil => cases before
      | cons other kids =>
          have shorter : kids.length = seps.length := Nat.succ.inj before
          simp only [List.cons_append, interleave, wordBefore, ih shorter, List.append_assoc]

/-- Two neighbours, with what stands before and behind them. -/
theorem interleave_pair {next : T} (before : kids.length = seps.length)
    (after : kids'.length = seps'.length) :
    interleave read (seps ++ separator :: seps') (kids ++ kid :: next :: kids') =
      wordBefore read kids seps ++
        (read kid ++ .sep separator :: read next ++ wordAfter read seps' kids') := by
  have longer : (next :: kids').length = (separator :: seps').length := congrArg Nat.succ after
  rw [interleave_around before longer, wordAfter]
  simp only [List.cons_append, List.append_assoc]

/-- A child for each way to cut the separators. -/
theorem exists_kid (count : kids.length = (seps ++ seps').length + 1) :
    ∃ before kid after, kids = before ++ kid :: after ∧ before.length = seps.length ∧
      after.length = seps'.length := by
  rw [List.length_append] at count
  have inside : seps.length < kids.length := by omega
  refine ⟨kids.take seps.length, kids[seps.length], kids.drop (seps.length + 1), ?_, ?_, ?_⟩
  · rw [List.getElem_cons_drop, List.take_append_drop]
  · rw [List.length_take]
    omega
  · rw [List.length_drop]
    omega

theorem seps_interleave (count : kids.length = seps.length + 1) :
    (interleave read seps kids).seps = seps + (kids.map fun kid => (read kid).seps).sum := by
  induction seps generalizing kids with
  | nil =>
      obtain ⟨kid, rfl⟩ := List.length_eq_one_iff.mp count
      rw [interleave_single, List.map_singleton, List.sum_singleton]
      exact (zero_add _).symm
  | cons first seps ih =>
      obtain ⟨kid, kids, rfl⟩ := List.exists_cons_of_length_eq_add_one count
      rw [interleave, Word.seps_append, Word.seps_sep, ih (Nat.succ.inj count), List.map_cons, List.sum_cons,
        ← Multiset.cons_coe, ← Multiset.singleton_add, ← Multiset.singleton_add]
      abel

theorem items_interleave (count : kids.length = seps.length + 1) :
    (interleave read seps kids).items = (kids.map fun kid => (read kid).items).sum := by
  induction seps generalizing kids with
  | nil =>
      obtain ⟨kid, rfl⟩ := List.length_eq_one_iff.mp count
      rw [interleave_single, List.map_singleton, List.sum_singleton]
  | cons first seps ih =>
      obtain ⟨kid, kids, rfl⟩ := List.exists_cons_of_length_eq_add_one count
      rw [interleave, Word.items_append, Word.items_sep, ih (Nat.succ.inj count), List.map_cons, List.sum_cons]

theorem sublist_interleave (count : kids.length = seps.length + 1) :
    (seps.map Mark.sep).Sublist (interleave read seps kids) := by
  induction seps generalizing kids with
  | nil => exact List.nil_sublist _
  | cons first seps ih =>
      obtain ⟨kid, kids, rfl⟩ := List.exists_cons_of_length_eq_add_one count
      rw [interleave, List.map_cons]
      exact ((ih (Nat.succ.inj count)).cons_cons _).trans (List.sublist_append_right _ _)

/-- The children on both sides of a separator. -/
theorem exists_neighbours (count : kids.length = seps.length + 1) {index : Nat} (here : seps[index]? = some separator) :
    ∃ xs ys before kid next after, seps = xs ++ separator :: ys ∧ kids = before ++ kid :: next :: after ∧
      before.length = xs.length ∧ after.length = ys.length ∧ index = xs.length := by
  obtain ⟨inside, same⟩ := List.getElem?_eq_some_iff.mp here
  refine ⟨seps.take index, seps.drop (index + 1), kids.take index, kids[index], kids[index + 1], kids.drop (index + 2),
    ?_, ?_, ?_, ?_, ?_⟩
  · rw [← same, List.getElem_cons_drop, List.take_append_drop]
  · rw [List.getElem_cons_drop, List.getElem_cons_drop, List.take_append_drop]
  · rw [List.length_take, List.length_take]
    omega
  · rw [List.length_drop, List.length_drop]
    omega
  · rw [List.length_take]
    omega

/-- The separators on both sides of a child. -/
theorem exists_cut (count : (kids ++ kid :: kids').length = seps.length + 1) :
    ∃ xs ys, seps = xs ++ ys ∧ kids.length = xs.length ∧ kids'.length = ys.length := by
  rw [List.length_append, List.length_cons] at count
  refine ⟨seps.take kids.length, seps.drop kids.length, (List.take_append_drop _ _).symm, ?_, ?_⟩
  · rw [List.length_take]
    omega
  · rw [List.length_drop]
    omega

theorem mem_wordBefore (count : kids.length = seps.length) (member : separator ∈ seps) :
    .sep separator ∈ wordBefore read kids seps := by
  induction seps generalizing kids with
  | nil => exact absurd member List.not_mem_nil
  | cons first seps ih =>
      cases kids with
      | nil => cases count
      | cons kid kids =>
          rw [wordBefore, List.mem_append, List.mem_cons]
          cases member with
          | head => exact .inr (.inl rfl)
          | tail _ member => exact .inr (.inr (ih (Nat.succ.inj count) member))

theorem mem_wordAfter (count : kids.length = seps.length) (member : separator ∈ seps) :
    .sep separator ∈ wordAfter read seps kids := by
  induction seps generalizing kids with
  | nil => exact absurd member List.not_mem_nil
  | cons first seps ih =>
      cases kids with
      | nil => cases count
      | cons kid kids =>
          rw [wordAfter, List.mem_append, List.mem_cons]
          cases member with
          | head => exact .inl (.inl rfl)
          | tail _ member => exact .inr (ih (Nat.succ.inj count) member)

theorem mem_interleave (count : kids.length = seps.length + 1) (member : separator ∈ seps) :
    .sep separator ∈ interleave read seps kids := by
  obtain ⟨before, after, rfl⟩ := List.append_of_mem member
  have longer : kids.length = (before ++ separator :: after).length + 1 := count
  obtain ⟨kids, kid, kids', rfl, countBefore, countAfter⟩ := exists_kid longer
  rw [interleave_around countBefore countAfter]
  refine List.mem_append_right _ (List.mem_append_right _ ?_)
  exact mem_wordAfter countAfter List.mem_cons_self

section Order

variable [LinearOrder K] {key : R → K} {x : K} {front back : Word R}

theorem wordBefore_before (sorted : Word.Sorted key (front ++ (wordBefore read kids seps ++ back)))
    (small : ∀ separator ∈ seps, key separator ≤ x) :
    ∀ mark ∈ wordBefore read kids seps, mark.Before key x := by
  induction kids generalizing seps front with
  | nil => exact nofun
  | cons kid kids ih =>
      cases seps with
      | nil => exact nofun
      | cons separator seps =>
          have le := small separator List.mem_cons_self
          have regroup : front ++ (wordBefore read (kid :: kids) (separator :: seps) ++ back) =
              (front ++ read kid) ++ .sep separator :: (wordBefore read kids seps ++ back) := by
            simp only [wordBefore, List.append_assoc, List.cons_append]
          rw [regroup] at sorted
          intro mark member
          rw [wordBefore, List.mem_append, List.mem_cons] at member
          rcases member with member | rfl | member
          · exact sorted.before le mark (List.mem_append_right _ member)
          · exact le
          · rw [List.append_cons] at sorted
            exact ih sorted (fun other member => small other (List.mem_cons_of_mem _ member)) mark member

theorem wordAfter_after (sorted : Word.Sorted key (front ++ (wordAfter read seps kids ++ back)))
    (large : ∀ separator ∈ seps.head?, x < key separator) :
    ∀ mark ∈ wordAfter read seps kids, mark.After key x := by
  cases seps with
  | nil => exact nofun
  | cons separator seps =>
      cases kids with
      | nil => exact nofun
      | cons kid kids =>
          have less : x < key separator := large separator rfl
          intro mark member
          rw [wordAfter, List.cons_append] at sorted member
          cases member with
          | head => exact less
          | tail _ member => exact sorted.after less mark (List.mem_append_left _ member)

/-- The separators of a node around one of them. -/
theorem separators_around {next : T} (before : kids.length = seps.length) (after : kids'.length = seps'.length)
    (sorted : Word.Sorted key
      (front ++ interleave read (seps ++ separator :: seps') (kids ++ kid :: next :: kids') ++ back)) :
    (∀ other ∈ seps, key other < key separator) ∧ ∀ other ∈ seps', key separator < key other := by
  have regroup : front ++ interleave read (seps ++ separator :: seps') (kids ++ kid :: next :: kids') ++ back =
      (front ++ wordBefore read kids seps ++ read kid) ++
        .sep separator :: (read next ++ wordAfter read seps' kids' ++ back) := by
    rw [interleave_pair before after]
    simp only [List.append_assoc, List.cons_append]
  rw [regroup, Word.Sorted, List.pairwise_append, List.pairwise_cons] at sorted
  obtain ⟨-, ⟨behind, -⟩, cross⟩ := sorted
  constructor
  · intro other member
    have here : .sep other ∈ wordBefore read kids seps := mem_wordBefore before member
    exact cross (.sep other) (by simp [here]) _ List.mem_cons_self
  · intro other member
    have here : .sep other ∈ wordAfter read seps' kids' := mem_wordAfter after member
    exact behind (.sep other) (by simp [here])

end Order

end Interleave

/-! ## Trees -/

structure Leaf (A R : Type) where
  addr : A
  rows : List R

structure Inner (A R T : Type) where
  addr : A
  seps : List R
  kids : List T

/-- Trees with all leaves at one depth. -/
def Tree (A R : Type) : Nat → Type
  | 0 => Leaf A R
  | height + 1 => Inner A R (Tree A R height)

/-- One node: its address, its rows or separators, and the addresses of its children. -/
structure Node (A R : Type) where
  addr : A
  leaf : Bool
  rows : List R
  kids : List A

namespace Tree

variable {height : Nat}

def leaf (addr : A) (rows : List R) : Tree A R 0 := (⟨addr, rows⟩ : Leaf A R)

def inner (addr : A) (seps : List R) (kids : List (Tree A R height)) : Tree A R (height + 1) :=
  (⟨addr, seps, kids⟩ : Inner A R (Tree A R height))

def addr : {height : Nat} → Tree A R height → A
  | 0, tree => Leaf.addr tree
  | _ + 1, tree => Inner.addr tree

def word : {height : Nat} → Tree A R height → Word R
  | 0, tree => (Leaf.rows tree).map .item
  | _ + 1, tree => interleave word (Inner.seps tree) (Inner.kids tree)

def nodes : {height : Nat} → Tree A R height → Multiset (Node A R)
  | 0, tree => {⟨Leaf.addr tree, true, Leaf.rows tree, []⟩}
  | _ + 1, tree =>
      {⟨Inner.addr tree, false, Inner.seps tree, (Inner.kids tree).map addr⟩} +
        ((Inner.kids tree).map nodes).sum

/-- The node at the root. -/
def root : {height : Nat} → Tree A R height → Node A R
  | 0, tree => ⟨Leaf.addr tree, true, Leaf.rows tree, []⟩
  | _ + 1, tree => ⟨Inner.addr tree, false, Inner.seps tree, (Inner.kids tree).map addr⟩

/-- The nodes under the root. -/
def below : {height : Nat} → Tree A R height → Multiset (Node A R)
  | 0, _ => 0
  | _ + 1, tree => ((Inner.kids tree).map nodes).sum

/-- The leaf at the left end. -/
def leftmost : {height : Nat} → Tree A R height → A
  | 0, tree => Leaf.addr tree
  | _ + 1, tree => ((Inner.kids tree).head?.map leftmost).getD (Inner.addr tree)

/--
The shape of a tree: between `low` and `2 * degree` rows or separators in its root, between
`degree` and `2 * degree` in every other node, and one child more than separators.
-/
def Sized (degree : Nat) : {height : Nat} → (low : Nat) → Tree A R height → Prop
  | 0, low, tree => low ≤ (Leaf.rows tree).length ∧ (Leaf.rows tree).length ≤ 2 * degree
  | _ + 1, low, tree =>
      (low ≤ (Inner.seps tree).length ∧ (Inner.seps tree).length ≤ 2 * degree) ∧
        (Inner.kids tree).length = (Inner.seps tree).length + 1 ∧
        ∀ kid ∈ Inner.kids tree, Sized degree degree kid

section Views

variable {degree low : Nat} {address : A} {rows seps : List R} {kids : List (Tree A R height)}

theorem exists_leaf (tree : Tree A R 0) : ∃ address rows, tree = leaf address rows := ⟨_, _, rfl⟩

theorem exists_inner (tree : Tree A R (height + 1)) : ∃ address seps kids, tree = inner address seps kids :=
  ⟨_, _, _, rfl⟩

@[simp]
theorem addr_leaf : (leaf address rows).addr = address := rfl

@[simp]
theorem addr_inner : (inner address seps kids).addr = address := rfl

@[simp]
theorem word_leaf : (leaf address rows).word = rows.map .item := rfl

@[simp]
theorem word_inner : (inner address seps kids).word = interleave word seps kids := rfl

/-- The nodes of several trees. -/
def nodesOf (kids : List (Tree A R height)) : Multiset (Node A R) := (kids.map nodes).sum

@[simp]
theorem nodes_leaf : (leaf address rows).nodes = {⟨address, true, rows, []⟩} := rfl

@[simp]
theorem nodes_inner :
    (inner address seps kids).nodes = {⟨address, false, seps, kids.map addr⟩} + nodesOf kids := rfl

@[simp]
theorem nodesOf_nil : nodesOf ([] : List (Tree A R height)) = 0 := rfl

@[simp]
theorem nodesOf_cons {kid : Tree A R height} : nodesOf (kid :: kids) = kid.nodes + nodesOf kids := by
  rw [nodesOf, List.map_cons, List.sum_cons]
  rfl

@[simp]
theorem nodesOf_append {kids' : List (Tree A R height)} :
    nodesOf (kids ++ kids') = nodesOf kids + nodesOf kids' := by
  rw [nodesOf, List.map_append, List.sum_append]
  rfl

theorem mem_nodesOf {node : Node A R} : node ∈ nodesOf kids ↔ ∃ kid ∈ kids, node ∈ kid.nodes := by
  induction kids with
  | nil => exact ⟨fun member => absurd member (Multiset.notMem_zero _), nofun⟩
  | cons kid kids ih => rw [nodesOf_cons, Multiset.mem_add, ih, List.exists_mem_cons_iff]

@[simp]
theorem leftmost_leaf : (leaf address rows).leftmost = address := rfl

@[simp]
theorem leftmost_inner {kid : Tree A R height} :
    (inner address seps (kid :: kids)).leftmost = kid.leftmost := rfl

theorem leftmost_eq :
    (inner address seps kids).leftmost = (kids.head?.map leftmost).getD address := rfl

/-- Children behind others leave the leftmost leaf where it is. -/
theorem leftmost_append {seps' : List R} {kids' : List (Tree A R height)} (some : 0 < kids.length) :
    (inner address seps (kids ++ kids')).leftmost = (inner address seps' kids).leftmost := by
  obtain ⟨kid, kids, rfl⟩ := List.exists_cons_of_length_pos some
  rfl

@[simp]
theorem sized_leaf : Sized degree low (leaf address rows) ↔ low ≤ rows.length ∧ rows.length ≤ 2 * degree :=
  Iff.rfl

@[simp]
theorem sized_inner : Sized degree low (inner address seps kids) ↔
    (low ≤ seps.length ∧ seps.length ≤ 2 * degree) ∧ kids.length = seps.length + 1 ∧
      ∀ kid ∈ kids, Sized degree degree kid :=
  Iff.rfl

@[simp]
theorem root_leaf : (leaf address rows).root = ⟨address, true, rows, []⟩ := rfl

@[simp]
theorem root_inner : (inner address seps kids).root = ⟨address, false, seps, kids.map addr⟩ := rfl

@[simp]
theorem below_leaf : (leaf address rows).below = 0 := rfl

@[simp]
theorem below_inner : (inner address seps kids).below = nodesOf kids := rfl

theorem nodes_eq (tree : Tree A R height) : tree.nodes = {tree.root} + tree.below := by
  cases height with
  | zero => exact (add_zero _).symm
  | succ height => rfl

@[simp]
theorem addr_root (tree : Tree A R height) : tree.root.addr = tree.addr := by
  cases height <;> rfl

@[simp]
theorem leaf_root (tree : Tree A R height) : tree.root.leaf = decide (height = 0) := by
  cases height <;> rfl

theorem Sized.mono {low' : Nat} {tree : Tree A R height} (sized : tree.Sized degree low) (le : low' ≤ low) :
    tree.Sized degree low' := by
  cases height with
  | zero => exact ⟨le_trans le sized.1, sized.2⟩
  | succ height => exact ⟨⟨le_trans le sized.1.1, sized.1.2⟩, sized.2⟩

/-- Every level of a tree has a node. -/
theorem height_lt_card (tree : Tree A R height) (sized : tree.Sized degree low) : height < tree.nodes.card := by
  induction height generalizing low with
  | zero =>
      obtain ⟨address, rows, rfl⟩ := tree.exists_leaf
      rw [nodes_leaf, Multiset.card_singleton]
      exact Nat.zero_lt_one
  | succ height ih =>
      obtain ⟨address, seps, kids, rfl⟩ := tree.exists_inner
      obtain ⟨-, count, sizedKids⟩ := sized_inner.mp sized
      obtain ⟨kid, others, rfl⟩ := List.exists_cons_of_length_eq_add_one count
      have deep := ih kid (sizedKids kid List.mem_cons_self)
      rw [nodes_inner, nodesOf_cons, Multiset.card_add, Multiset.card_add, Multiset.card_singleton]
      omega

/-- The root of a tree is one of its nodes. -/
theorem root_mem_nodes (tree : Tree A R height) : ∃ node ∈ tree.nodes, node.addr = tree.addr := by
  rw [nodes_eq]
  exact ⟨tree.root, Multiset.mem_add.mpr (.inl (Multiset.mem_singleton_self _)), addr_root tree⟩

end Views

/-! ### Order -/

section Order

variable [LinearOrder K] (key : R → K)

/--
The order of a tree: the rows or separators of every node increase; what stands under the
child in front of a separator is below it, and what stands under the child behind it is not.
-/
def Ordered : {height : Nat} → Tree A R height → Prop
  | 0, tree => (Leaf.rows tree).Pairwise fun first second => key first < key second
  | _ + 1, tree =>
      ((Inner.seps tree).Pairwise fun first second => key first < key second) ∧
        (∀ (index : Nat) (separator : R), (Inner.seps tree)[index]? = some separator →
          (∀ kid ∈ (Inner.kids tree)[index]?, ∀ mark ∈ kid.word, key mark.row < key separator) ∧
            ∀ kid ∈ (Inner.kids tree)[index + 1]?, ∀ mark ∈ kid.word, key separator ≤ key mark.row) ∧
        ∀ kid ∈ Inner.kids tree, Ordered kid

variable {key} {degree low : Nat}

/-- A tree whose word is sorted is ordered. -/
theorem ordered_of_sorted (tree : Tree A R height) (sized : tree.Sized degree low) (sorted : Word.Sorted key tree.word) :
    tree.Ordered key := by
  induction height generalizing low with
  | zero =>
      obtain ⟨address, rows, rfl⟩ := tree.exists_leaf
      rw [word_leaf, Word.Sorted, List.pairwise_map] at sorted
      exact sorted
  | succ height ih =>
      obtain ⟨address, seps, kids, rfl⟩ := tree.exists_inner
      obtain ⟨-, count, sizedKids⟩ := sized_inner.mp sized
      rw [word_inner] at sorted
      refine ⟨?_, ?_, ?_⟩
      · have marks := sorted.sublist (sublist_interleave count)
        rw [Word.Sorted, List.pairwise_map] at marks
        exact marks
      · intro index separator here
        obtain ⟨xs, ys, before, kid, next, after, rfl, rfl, countBefore, countAfter, rfl⟩ := exists_neighbours count here
        have split : interleave word (xs ++ separator :: ys) (before ++ kid :: next :: after) =
            (wordBefore word before xs ++ kid.word) ++ .sep separator :: (next.word ++ wordAfter word ys after) := by
          rw [interleave_pair countBefore countAfter]
          simp only [List.append_assoc, List.cons_append]
        rw [split, Word.Sorted, List.pairwise_append, List.pairwise_cons] at sorted
        obtain ⟨-, ⟨behind, -⟩, cross⟩ := sorted
        change (∀ other ∈ (before ++ kid :: next :: after)[xs.length]?, _) ∧
          ∀ other ∈ (before ++ kid :: next :: after)[xs.length + 1]?, _
        constructor
        · intro other found mark member
          rw [← countBefore, List.getElem?_append_right le_rfl, Nat.sub_self, List.getElem?_cons_zero] at found
          cases found
          have precedes := cross mark (List.mem_append_right _ member) _ List.mem_cons_self
          cases mark <;> exact precedes
        · intro other found mark member
          rw [← countBefore, List.getElem?_append_right (Nat.le_add_right _ 1), Nat.add_sub_cancel_left,
            List.getElem?_cons_succ, List.getElem?_cons_zero] at found
          cases found
          exact (behind mark (List.mem_append_left _ member)).le
      · intro kid member
        refine ih kid (sizedKids kid member) ?_
        obtain ⟨before, after, rfl⟩ := List.append_of_mem member
        obtain ⟨xs, ys, rfl, countBefore, countAfter⟩ := exists_cut count
        rw [interleave_around countBefore countAfter] at sorted
        exact sorted.sublist ((List.sublist_append_left _ _).trans (List.sublist_append_right _ _))

end Order

/-! ### Rows and separators -/

section Counts

variable {degree low : Nat}

/-- There is a row in every tree. -/
theorem items_pos (positive : 1 ≤ degree) (tree : Tree A R height) (sized : tree.Sized degree low) (some : 1 ≤ low) :
    0 < tree.word.items.card := by
  induction height generalizing low with
  | zero =>
      obtain ⟨address, rows, rfl⟩ := tree.exists_leaf
      rw [word_leaf, Word.items_rows]
      exact lt_of_lt_of_le some sized.1
  | succ height ih =>
      obtain ⟨address, seps, kids, rfl⟩ := tree.exists_inner
      obtain ⟨-, count, sizedKids⟩ := sized_inner.mp sized
      obtain ⟨kid, others, rfl⟩ := List.exists_cons_of_length_eq_add_one count
      have first := ih kid (sizedKids kid List.mem_cons_self) positive
      rw [word_inner, items_interleave count, List.map_cons, List.sum_cons, Multiset.card_add]
      exact Nat.add_pos_left first _

/-- A tree of one row is a leaf. -/
theorem height_eq_zero (positive : 1 ≤ degree) (tree : Tree A R height) (sized : tree.Sized degree 1)
    (one : tree.word.items.card = 1) : height = 0 := by
  cases height with
  | zero => rfl
  | succ height =>
      obtain ⟨address, seps, kids, rfl⟩ := tree.exists_inner
      obtain ⟨⟨least, -⟩, count, sizedKids⟩ := sized_inner.mp sized
      obtain ⟨kid, others, rfl⟩ := List.exists_cons_of_length_eq_add_one count
      obtain ⟨next, others, rfl⟩ := List.exists_cons_of_length_pos (Nat.lt_of_lt_of_eq least (Nat.succ.inj count).symm)
      have first := items_pos positive kid (sizedKids kid List.mem_cons_self) positive
      have second := items_pos positive next (sizedKids next (List.mem_cons_of_mem _ List.mem_cons_self)) positive
      rw [word_inner, items_interleave count, List.map_cons, List.map_cons, List.sum_cons, List.sum_cons,
        Multiset.card_add, Multiset.card_add] at one
      omega

theorem length_mul_le_items {least : Nat} {kids : List (Tree A R height)}
    (each : ∀ kid ∈ kids, least ≤ kid.word.items.card) :
    kids.length * least ≤ (kids.map fun kid : Tree A R height => kid.word.items).sum.card := by
  induction kids with
  | nil => exact (Nat.zero_mul least).le
  | cons kid kids ih =>
      have others := ih fun other member => each other (List.mem_cons_of_mem _ member)
      rw [List.map_cons, List.sum_cons, Multiset.card_add, List.length_cons, Nat.succ_mul, Nat.add_comm]
      exact Nat.add_le_add (each kid List.mem_cons_self) others

/-- A tree under a root has this many rows. -/
theorem mul_pow_height_le_items (tree : Tree A R height) (sized : tree.Sized degree degree) :
    degree * (degree + 1) ^ height ≤ tree.word.items.card := by
  induction height with
  | zero =>
      obtain ⟨address, rows, rfl⟩ := tree.exists_leaf
      rw [word_leaf, Word.items_rows, pow_zero, Nat.mul_one]
      exact sized.1
  | succ height ih =>
      obtain ⟨address, seps, kids, rfl⟩ := tree.exists_inner
      obtain ⟨⟨least, -⟩, count, sizedKids⟩ := sized_inner.mp sized
      have each := length_mul_le_items fun kid member => ih kid (sizedKids kid member)
      have many : degree + 1 ≤ kids.length := count ▸ Nat.succ_le_succ least
      rw [word_inner, items_interleave count]
      calc degree * (degree + 1) ^ (height + 1)
          = (degree + 1) * (degree * (degree + 1) ^ height) := by ring
        _ ≤ kids.length * (degree * (degree + 1) ^ height) := Nat.mul_le_mul_right _ many
        _ ≤ _ := each

/-- The height of a tree is logarithmic in the number of its rows. -/
theorem pow_height_le_items (tree : Tree A R height) (sized : tree.Sized degree 1) :
    (degree + 1) ^ height ≤ tree.word.items.card := by
  cases height with
  | zero =>
      obtain ⟨address, rows, rfl⟩ := tree.exists_leaf
      rw [word_leaf, Word.items_rows, pow_zero]
      exact sized.1
  | succ height =>
      obtain ⟨address, seps, kids, rfl⟩ := tree.exists_inner
      obtain ⟨⟨least, most⟩, count, sizedKids⟩ := sized_inner.mp sized
      have each := length_mul_le_items fun kid member => mul_pow_height_le_items kid (sizedKids kid member)
      have many : 2 ≤ kids.length := count ▸ Nat.succ_le_succ least
      have positive : 1 ≤ degree := by omega
      have wide : degree + 1 ≤ 2 * degree := by omega
      rw [word_inner, items_interleave count]
      calc (degree + 1) ^ (height + 1)
          = (degree + 1) * (degree + 1) ^ height := by ring
        _ ≤ 2 * degree * (degree + 1) ^ height := Nat.mul_le_mul_right _ wide
        _ = 2 * (degree * (degree + 1) ^ height) := Nat.mul_assoc ..
        _ ≤ kids.length * (degree * (degree + 1) ^ height) := Nat.mul_le_mul_right _ many
        _ ≤ _ := each

theorem height_le_log (tree : Tree A R height) (sized : tree.Sized degree 1) :
    height ≤ Nat.log (degree + 1) tree.word.items.card := by
  have some : 1 ≤ degree := by
    cases height with
    | zero => exact Nat.pos_of_mul_pos_left (lt_of_lt_of_le Nat.one_pos (sized.1.trans sized.2))
    | succ height => exact Nat.pos_of_mul_pos_left (lt_of_lt_of_le Nat.one_pos (sized.1.1.trans sized.1.2))
  exact Nat.le_log_of_pow_le (Nat.succ_lt_succ some) (pow_height_le_items tree sized)

/-- A sum over the children, from a bound on each child. -/
theorem sum_card_le {least factor share : Nat} {kids : List (Tree A R height)} {weigh : Tree A R height → Nat}
    (each : ∀ kid ∈ kids, factor * weigh kid + least ≤ share * kid.word.items.card) :
    factor * (kids.map weigh).sum + kids.length * least ≤
      share * (kids.map fun kid : Tree A R height => kid.word.items).sum.card := by
  induction kids with
  | nil => simp
  | cons kid kids ih =>
      have others := ih fun other member => each other (List.mem_cons_of_mem _ member)
      have first := each kid List.mem_cons_self
      rw [List.map_cons, List.map_cons, List.sum_cons, List.sum_cons, Multiset.card_add, List.length_cons, Nat.mul_add,
        Nat.mul_add, Nat.succ_mul]
      omega

theorem card_nodesOf {kids : List (Tree A R height)} :
    (nodesOf kids).card = (kids.map fun kid : Tree A R height => kid.nodes.card).sum := by
  induction kids with
  | nil => rfl
  | cons kid kids ih => rw [nodesOf_cons, Multiset.card_add, List.map_cons, List.sum_cons, ih]

/-- A tree under a root has few nodes for its rows. -/
theorem card_nodes_under (two : 2 ≤ degree) (tree : Tree A R height) (sized : tree.Sized degree degree) :
    2 * degree * tree.nodes.card + degree ≤ 3 * tree.word.items.card := by
  induction height with
  | zero =>
      obtain ⟨address, rows, rfl⟩ := tree.exists_leaf
      have least : degree ≤ rows.length := sized.1
      rw [word_leaf, Word.items_rows, nodes_leaf, Multiset.card_singleton, Multiset.coe_card]
      omega
  | succ height ih =>
      obtain ⟨address, seps, kids, rfl⟩ := tree.exists_inner
      obtain ⟨⟨least, -⟩, count, sizedKids⟩ := sized_inner.mp sized
      have below := sum_card_le fun kid member => ih kid (sizedKids kid member)
      have many : 3 * degree ≤ kids.length * degree := Nat.mul_le_mul_right _ (by omega)
      rw [word_inner, items_interleave count, nodes_inner, Multiset.card_add, Multiset.card_singleton, card_nodesOf, Nat.mul_add]
      omega

/-- A tree is a leaf, or has few nodes for its rows. -/
theorem card_nodes_le (two : 2 ≤ degree) (tree : Tree A R height) (sized : tree.Sized degree 1) :
    2 * degree * tree.nodes.card ≤ max (2 * degree) (3 * tree.word.items.card) := by
  cases height with
  | zero =>
      obtain ⟨address, rows, rfl⟩ := tree.exists_leaf
      rw [nodes_leaf, Multiset.card_singleton, Nat.mul_one]
      exact le_max_left _ _
  | succ height =>
      obtain ⟨address, seps, kids, rfl⟩ := tree.exists_inner
      obtain ⟨⟨least, -⟩, count, sizedKids⟩ := sized_inner.mp sized
      have below := sum_card_le fun kid member => card_nodes_under two kid (sizedKids kid member)
      have many : 2 * degree ≤ kids.length * degree := Nat.mul_le_mul_right _ (by omega)
      refine le_trans ?_ (le_max_right _ _)
      rw [word_inner, items_interleave count, nodes_inner, Multiset.card_add, Multiset.card_singleton, card_nodesOf, Nat.mul_add]
      omega

theorem card_seps_inner {address : A} {seps : List R} {kids : List (Tree A R height)} (count : kids.length = seps.length + 1)
    (each : ∀ kid ∈ kids, degree * kid.word.seps.card + degree ≤ kid.word.items.card) :
    degree * (inner address seps kids).word.seps.card + degree ≤ (inner address seps kids).word.items.card := by
  have below := @sum_card_le _ _ _ degree degree 1 kids (fun kid => kid.word.seps.card)
    (fun kid member => (each kid member).trans (Nat.one_mul _).ge)
  have total : (kids.map fun kid : Tree A R height => kid.word.seps).sum.card =
      (kids.map fun kid : Tree A R height => kid.word.seps.card).sum := by
    exact (map_list_sum Multiset.cardHom _).trans (congrArg List.sum (List.map_map ..))
  rw [word_inner, items_interleave count, seps_interleave count, Multiset.card_add, Multiset.coe_card, total]
  rw [count, Nat.succ_mul, Nat.one_mul] at below
  rw [Nat.mul_add, Nat.mul_comm degree seps.length]
  omega

/-- A tree under a root has few separators for its rows. -/
theorem card_seps_under (tree : Tree A R height) (sized : tree.Sized degree degree) :
    degree * tree.word.seps.card + degree ≤ tree.word.items.card := by
  induction height with
  | zero =>
      obtain ⟨address, rows, rfl⟩ := tree.exists_leaf
      rw [word_leaf, Word.items_rows, Word.seps_rows, Multiset.card_zero, Nat.mul_zero, Nat.zero_add]
      exact sized.1
  | succ height ih =>
      obtain ⟨address, seps, kids, rfl⟩ := tree.exists_inner
      obtain ⟨-, count, sizedKids⟩ := sized_inner.mp sized
      exact card_seps_inner count fun kid member => ih kid (sizedKids kid member)

/-- A tree is a leaf, or has few separators for its rows. -/
theorem card_seps_le (tree : Tree A R height) (sized : tree.Sized degree 1) :
    tree.word.seps = 0 ∨ degree * tree.word.seps.card + degree ≤ tree.word.items.card := by
  cases height with
  | zero =>
      obtain ⟨address, rows, rfl⟩ := tree.exists_leaf
      exact .inl (by rw [word_leaf, Word.seps_rows])
  | succ height =>
      obtain ⟨address, seps, kids, rfl⟩ := tree.exists_inner
      obtain ⟨-, count, sizedKids⟩ := sized_inner.mp sized
      exact .inr (card_seps_inner count fun kid member => card_seps_under kid (sizedKids kid member))

/-- What stands in the nodes of a kind, child by child. -/
theorem rows_nodesOf {leaf : Bool} {kids : List (Tree A R height)} {read : Tree A R height → Multiset R}
    (same : ∀ kid ∈ kids, ((kid.nodes.filter fun node => node.leaf = leaf).bind fun node => (node.rows : Multiset R)) =
      read kid) :
    (((nodesOf kids).filter fun node => node.leaf = leaf).bind fun node => (node.rows : Multiset R)) =
      (kids.map read).sum := by
  induction kids with
  | nil => rfl
  | cons kid kids ih =>
      rw [nodesOf_cons, Multiset.filter_add, Multiset.add_bind, same kid List.mem_cons_self,
        ih fun other member => same other (List.mem_cons_of_mem _ member), List.map_cons, List.sum_cons]

/-- The separators of a tree stand in its inner nodes. -/
theorem seps_nodes (tree : Tree A R height) (sized : tree.Sized degree low) :
    ((tree.nodes.filter fun node => node.leaf = false).bind fun node => (node.rows : Multiset R)) = tree.word.seps := by
  induction height generalizing low with
  | zero =>
      obtain ⟨address, rows, rfl⟩ := tree.exists_leaf
      rw [word_leaf, Word.seps_rows, nodes_leaf]
      rfl
  | succ height ih =>
      obtain ⟨address, seps, kids, rfl⟩ := tree.exists_inner
      obtain ⟨-, count, sizedKids⟩ := sized_inner.mp sized
      have below := rows_nodesOf fun kid member => ih kid (sizedKids kid member)
      rw [word_inner, seps_interleave count, nodes_inner, Multiset.filter_add, Multiset.add_bind, below,
        Multiset.filter_singleton, if_pos rfl, Multiset.singleton_bind]

/-- The rows of a tree stand in its leaves. -/
theorem items_nodes (tree : Tree A R height) (sized : tree.Sized degree low) :
    ((tree.nodes.filter fun node => node.leaf = true).bind fun node => (node.rows : Multiset R)) = tree.word.items := by
  induction height generalizing low with
  | zero =>
      obtain ⟨address, rows, rfl⟩ := tree.exists_leaf
      rw [word_leaf, Word.items_rows, nodes_leaf, Multiset.filter_singleton, if_pos rfl, Multiset.singleton_bind]
  | succ height ih =>
      obtain ⟨address, seps, kids, rfl⟩ := tree.exists_inner
      obtain ⟨-, count, sizedKids⟩ := sized_inner.mp sized
      have below := rows_nodesOf fun kid member => ih kid (sizedKids kid member)
      rw [word_inner, items_interleave count, nodes_inner, Multiset.filter_add, Multiset.add_bind, below,
        Multiset.filter_singleton, if_neg Bool.false_ne_true, Multiset.empty_eq_zero, Multiset.zero_bind, zero_add]

end Counts

/-! ### Halves of a node -/

section Halves

variable {degree : Nat} {address address' : A} {seps : List R} {kids : List (Tree A R height)} {middle : R}

/-- The word of a node that is cut at a separator. -/
theorem word_halves (cut : seps[degree]? = some middle) (count : kids.length = seps.length + 1) :
    (inner address (seps.take degree) (kids.take (degree + 1))).word ++ .sep middle ::
      (inner address' (seps.drop (degree + 1)) (kids.drop (degree + 1))).word =
        interleave word seps kids := by
  obtain ⟨inside, same⟩ := List.getElem?_eq_some_iff.mp cut
  have split : seps = seps.take degree ++ middle :: seps.drop (degree + 1) := by
    rw [← same, List.getElem_cons_drop, List.take_append_drop]
  have half : (kids.take (degree + 1)).length = (seps.take degree).length + 1 := by
    rw [List.length_take, List.length_take]
    omega
  calc
    _ = interleave word (seps.take degree ++ middle :: seps.drop (degree + 1))
          (kids.take (degree + 1) ++ kids.drop (degree + 1)) := (interleave_append half).symm
    _ = interleave word seps kids := by rw [← split, List.take_append_drop]

theorem nodes_halves : nodesOf (kids.take degree) + nodesOf (kids.drop degree) = nodesOf kids := by
  rw [← nodesOf_append, List.take_append_drop]

/-- Both halves of an overfull node have the size of a node. -/
theorem sized_halves (full : seps.length = 2 * degree + 1) (count : kids.length = seps.length + 1)
    (sized : ∀ kid ∈ kids, kid.Sized degree degree) :
    (inner address (seps.take degree) (kids.take (degree + 1))).Sized degree degree ∧
      (inner address' (seps.drop (degree + 1)) (kids.drop (degree + 1))).Sized degree degree := by
  simp only [sized_inner, List.length_take, List.length_drop]
  refine ⟨⟨by omega, by omega, ?_⟩, by omega, by omega, ?_⟩
  · exact fun kid member => sized kid (List.mem_of_mem_take member)
  · exact fun kid member => sized kid (List.mem_of_mem_drop member)

end Halves

end Tree

end MyJQL.Library
