import MyJQL.Storage.HashMapShape

/-!
# The entries of a bucket block

What the scans and shifts of `hash_map.c` do to the addresses of one block, and
what an edit of the pages does to the addresses along a chain.
-/

namespace MyJQL.Storage.HashMap

open Library

section Block

variable {page : FsmPage} {addr : Int} {target : Nat}

theorem length_items (page : FsmPage) : (items page).length = page.nItems.toNat := by
  unfold items
  rw [List.length_map, List.length_range]

theorem mem_items : addr ∈ items page ↔ ∃ index < page.nItems.toNat, page.table index = addr := by
  unfold items
  simp only [List.mem_map, List.mem_range]

/-- A block with one entry. -/
theorem items_single (count : page.nItems = 1) : items page = [page.table 0] := by
  unfold items
  rw [count]
  rfl

/-- The link of a block is not one of its entries. -/
theorem items_set_next (page : FsmPage) (value : Int) : items (page.set 0 value) = items page := by
  have count : (page.set 0 value).nItems = page.nItems := set_word_of_ne _ _ (by decide)
  unfold items
  rw [count]
  apply List.map_congr_left
  intro index _
  exact set_word_of_ne _ _ (by omega)

/-- The scan ends at an index where the address stands, and fails only when it stands nowhere. -/
theorem scan_spec (page : FsmPage) (addr : Int) (count : Nat) :
    match (List.range count).foldl
      (fun target index => if page.table index = addr then some index else target) none with
    | none => ∀ index < count, page.table index ≠ addr
    | some target => target < count ∧ page.table target = addr := by
  induction count with
  | zero =>
      intro index impossible
      exact absurd impossible (Nat.not_lt_zero index)
  | succ count ih =>
      rw [List.range_succ, List.foldl_append, List.foldl_cons, List.foldl_nil]
      by_cases here : page.table count = addr
      · rw [if_pos here]
        exact ⟨Nat.lt_succ_self count, here⟩
      · rw [if_neg here]
        generalize (List.range count).foldl _ none = found at ih ⊢
        cases found with
        | none =>
            intro index bound
            rcases Nat.lt_succ_iff_lt_or_eq.mp bound with below | same
            · exact ih index below
            · rw [same]
              exact here
        | some target => exact ⟨Nat.lt_succ_of_lt ih.1, ih.2⟩

theorem findTarget_spec (addr : Int) (count : 0 ≤ page.nItems ∧ page.nItems ≤ blockSize) :
    (findTarget page addr = some none ∧ addr ∉ items page) ∨
      ∃ target, findTarget page addr = some (some target) ∧ target < page.nItems.toNat ∧
        page.table target = addr := by
  have scanned := scan_spec page addr page.nItems.toNat
  unfold findTarget
  rw [if_pos count]
  generalize (List.range page.nItems.toNat).foldl _ none = found at scanned ⊢
  cases found with
  | none =>
      refine Or.inl ⟨rfl, ?_⟩
      intro member
      obtain ⟨index, bound, here⟩ := mem_items.mp member
      exact scanned index bound here
  | some target => exact Or.inr ⟨target, rfl, scanned⟩

theorem shiftTable_word (page : FsmPage) (target count index : Nat) :
    (shiftTable page target count).word index =
      if target + 2 ≤ index ∧ index < target + 2 + count then page.word (index + 1)
      else page.word index := by
  induction count generalizing page target with
  | zero =>
      rw [shiftTable, if_neg (by omega)]
  | succ count ih =>
      rw [shiftTable, ih]
      by_cases first : index = target + 2
      · subst first
        rw [if_neg (by omega), if_pos (by omega), set_word_self]
        rfl
      · rw [set_word_of_ne _ _ first]
        by_cases inside : target + 1 + 2 ≤ index ∧ index < target + 1 + 2 + count
        · rw [if_pos inside, if_pos (by omega), set_word_of_ne _ _ (by omega)]
        · rw [if_neg inside, if_neg (by omega)]

/-- The block `hash_table_pop` leaves behind when it removes one of several entries. -/
def popped (page : FsmPage) (target : Nat) : FsmPage :=
  ((shiftTable page target (page.nItems.toNat - (target + 1))).set 1 (page.nItems - 1)).set
    ((page.nItems - 1).toNat + 2) 0

theorem popped_next (page : FsmPage) (target : Nat) : (popped page target).next = page.next := by
  simp only [popped, FsmPage.next]
  rw [set_word_of_ne _ _ (by omega), set_word_of_ne _ _ (by omega), shiftTable_word,
    if_neg (by omega)]

theorem popped_nItems (page : FsmPage) (target : Nat) :
    (popped page target).nItems = page.nItems - 1 := by
  simp only [popped, FsmPage.nItems]
  rw [set_word_of_ne _ _ (by omega), set_word_self]

/-- Shifting the entries behind `target` down and dropping the last one erases entry `target`. -/
theorem items_popped (bound : target < page.nItems.toNat) :
    items (popped page target) = (items page).eraseIdx target := by
  have length : (page.nItems - 1).toNat = page.nItems.toNat - 1 := by omega
  apply List.ext_getElem
  · rw [length_items, List.length_eraseIdx_of_lt (by rw [length_items]; exact bound),
      length_items, popped_nItems, length]
  · intro index inShorter inErased
    rw [length_items, popped_nItems, length] at inShorter
    rw [List.getElem_eraseIdx]
    simp only [items, List.getElem_map, List.getElem_range, FsmPage.table, popped]
    rw [set_word_of_ne _ _ (by omega), set_word_of_ne _ _ (by omega), shiftTable_word]
    by_cases before : index < target
    · rw [if_neg (by omega), dif_pos before]
    · rw [if_pos (by omega), dif_neg before]

theorem coe_items_popped (bound : target < page.nItems.toNat) (here : page.table target = addr) :
    (items page : Multiset Int) = addr ::ₘ (items (popped page target) : Multiset Int) := by
  have inside : target < (items page).length := by
    rw [length_items]
    exact bound
  have atTarget : (items page)[target] = addr := by
    simp only [items, List.getElem_map, List.getElem_range]
    exact here
  have perm := List.getElem_cons_eraseIdx_perm inside
  rw [items_popped bound, Multiset.cons_coe, Multiset.coe_eq_coe, ← atTarget]
  exact perm.symm

/-- Writing the next entry and counting it appends it. -/
theorem items_push (page : FsmPage) (addr : Int) (nonneg : 0 ≤ page.nItems) :
    items ((page.set (page.nItems.toNat + 2) addr).set 1 (page.nItems + 1)) =
      items page ++ [addr] := by
  have length : (page.nItems + 1).toNat = page.nItems.toNat + 1 := by omega
  have table : ∀ index, ((page.set (page.nItems.toNat + 2) addr).set 1 (page.nItems + 1)).table index =
      if index = page.nItems.toNat then addr else page.table index := by
    intro index
    unfold FsmPage.table
    rw [set_word_of_ne _ _ (by omega)]
    by_cases last : index = page.nItems.toNat
    · rw [if_pos last, last, set_word_self]
    · rw [if_neg last, set_word_of_ne _ _ (by omega)]
  have count : ((page.set (page.nItems.toNat + 2) addr).set 1 (page.nItems + 1)).nItems =
      page.nItems + 1 := set_word_self _ _ _
  unfold items
  rw [count, length, List.range_succ, List.map_append, List.map_singleton, table, if_pos rfl]
  congr 1
  apply List.map_congr_left
  intro index member
  rw [table, if_neg (Nat.ne_of_lt (List.mem_range.mp member))]

end Block

section Chain

variable {map map' : PageMap FsmPage} {chain : Nat → List Int} {size : Nat} {addr : Int}

theorem contents_congr (same : ∀ cell ∈ chain size, items (map'.page cell) = items (map.page cell)) :
    contents map' chain size = contents map chain size :=
  List.flatMap_congr same

/-- The addresses of a chain, one block set apart. -/
theorem contents_split {before after : List Int} (place : chain size = before ++ addr :: after) :
    (contents map chain size : Multiset Int) =
      items (map.page addr) + (((before ++ after).flatMap fun cell => items (map.page cell) : List Int) :
        Multiset Int) := by
  unfold contents
  rw [place, List.flatMap_append, List.flatMap_cons, List.flatMap_append]
  simp only [← Multiset.coe_add]
  rw [← add_assoc, ← add_assoc, add_comm (items (map.page addr) : Multiset Int)]

end Chain

end MyJQL.Storage.HashMap
