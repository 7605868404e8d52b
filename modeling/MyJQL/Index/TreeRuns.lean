import MyJQL.Index.TreeSpec

/-!
# Runs of the index

Calls on an index from `b_tree_init` on an empty file, the pool read as a page map that
counts pins. The callers' comparators give a total order by key; their separator handlers
may do anything to a state of their own, as long as the copy compares equal to its row.
What the handlers were called on is kept beside the pages.
-/

namespace MyJQL.Index

open Library Library.Prog Storage

/-! ## The callbacks -/

/-- What a caller passes to the index by pointer, over a state of its own. -/
structure Callbacks (Q σ : Type) where
  rowRowCmp : RID → RID → Int
  ptrRowCmp : Q → RID → Int
  insertHandler : RID → σ → RID × σ
  deleteHandler : RID → σ → σ

/-- The state of the caller, what `insert_handler` has returned, and what `delete_handler` was given. -/
structure Ledger (σ : Type) where
  caller : σ
  made : Multiset RID
  freed : Multiset RID

def callbackMeaning {Q σ : Type} (callbacks : Callbacks Q σ) : Meaning (EnvOp Q) (Ledger σ)
  | _, .rowRowCmp rid1 rid2, ledger => some (callbacks.rowRowCmp rid1 rid2, ledger)
  | _, .ptrRowCmp key rid, ledger => some (callbacks.ptrRowCmp key rid, ledger)
  | _, .insertHandler rid, ledger =>
      let (copy, caller) := callbacks.insertHandler rid ledger.caller
      some (copy, ⟨caller, copy ::ₘ ledger.made, ledger.freed⟩)
  | _, .deleteHandler rid, ledger =>
      some ((), ⟨callbacks.deleteHandler rid ledger.caller, ledger.made, rid ::ₘ ledger.freed⟩)

abbrev RunState (σ : Type) : Type := Pinned IndexPage × Ledger σ

def treeMeaning {Q σ : Type} (callbacks : Callbacks Q σ) : Meaning (TreeOp Q) (RunState σ) :=
  (pinnedMeaning IndexPage).sum (callbackMeaning callbacks)

/-- An empty file, and handlers that have not been called. -/
def unopened {σ : Type} (caller : σ) : RunState σ := (⟨PageMap.empty, 0⟩, ⟨caller, 0, 0⟩)

section Guards

variable {σ Q : Type}

/-- A slot is left for every page, and only pages that are fetched are used or released. -/
def PinsKept : ∀ β : Type, TreeOp Q β → RunState σ → Prop
  | _, .left effect, state => PinGuard IndexPage _ effect state.1
  | _, .right _, _ => True

/-- A page is appended only when the free list is empty. -/
def GrowthKept : ∀ β : Type, TreeOp Q β → RunState σ → Prop
  | _, .left effect, state => GrowsWhenEmpty effect state.1.map
  | _, .right _, _ => True

/-- `delete_handler` is given what is owed to it, out of a non-leaf node. -/
def HandlersKept : ∀ β : Type, TreeOp Q β → RunState σ → Prop
  | _, .right (.deleteHandler rid), state =>
      state.2.freed.count rid < state.2.made.count rid ∧ InSeparatorSlot state.1 rid
  | _, _, _ => True

def TreeGuard (β : Type) (effect : TreeOp Q β) (state : RunState σ) : Prop :=
  PinsKept β effect state ∧ GrowthKept β effect state ∧ HandlersKept β effect state

end Guards

/-- The comparators agree with an order of keys, and a copy compares equal to its row. -/
structure Callbacks.Lawful {K Q σ : Type} [LinearOrder K] (callbacks : Callbacks Q σ) (ask : Q → K) (key : RID → K) :
    Prop where
  rowRow : ∀ rid1 rid2, Agrees (callbacks.rowRowCmp rid1 rid2) (key rid1) (key rid2)
  ptrRow : ∀ pointer rid, Agrees (callbacks.ptrRowCmp pointer rid) (ask pointer) (key rid)
  copies : ∀ rid caller, key (callbacks.insertHandler rid caller).1 = key rid

/-- `op` of `test_b_tree.c`. -/
def op (a b : Int) : Int := if a > b then 1 else if a < b then -1 else 0

/-- The callbacks of `test_b_tree.c`: rows are compared by block address, and a copy has index `-1`. -/
def testCallbacks : Callbacks Int Unit where
  rowRowCmp a b := op a.blockAddr b.blockAddr
  ptrRowCmp p b := op p b.blockAddr
  insertHandler rid caller := (⟨rid.blockAddr, -1⟩, caller)
  deleteHandler _ caller := caller

theorem op_agrees (a b : Int) : Agrees (op a b) a b := by
  unfold op Agrees
  split
  · constructor <;> omega
  · split
    · constructor <;> omega
    · constructor <;> omega

theorem testCallbacks_lawful : testCallbacks.Lawful id RID.blockAddr :=
  ⟨fun rid1 rid2 => op_agrees rid1.blockAddr rid2.blockAddr, fun pointer rid => op_agrees pointer rid.blockAddr,
    fun _ _ => rfl⟩

section Simulation

variable {K Q σ : Type} [LinearOrder K] {growing : Prop} {callbacks : Callbacks Q σ} {ask : Q → K} {key : RID → K}

/-- The world of the index, as the order of the keys and the calls of the handlers make it. -/
structure Accounts (key : RID → K) (state : TreeState K) (state' : RunState σ) : Prop where
  pages : state'.1 = state.1
  key : state.2.key = key
  held : state.2.held = Set.univ
  owed : state'.2.made = state'.2.freed + state.2.owed

/-- What the logic of the index promises holds of every lawful caller. -/
theorem callbacks_simulate (lawful : callbacks.Lawful ask key) :
    Logic.Simulates (growthLogic growing ask) (Logic.ofMeaning (treeMeaning callbacks) TreeGuard) (Accounts key) := by
  rintro β effect post ⟨_, world⟩ ⟨pages, ledger⟩ ⟨rfl, rfl, all, owed⟩ holds
  cases effect with
  | left effect =>
      obtain ⟨grows, guarded, result, after, step, ended⟩ := holds
      refine ⟨⟨guarded trivial, grows.whenEmpty, trivial⟩, result, (after, ledger), ?_, (after, world), ⟨rfl, rfl, all, owed⟩, ended⟩
      simp only [treeMeaning, Meaning.sum, step, Option.map_some]
  | right effect =>
      cases effect with
      | rowRowCmp rid1 rid2 =>
          obtain ⟨-, -, ended⟩ := holds
          exact ⟨⟨trivial, trivial, trivial⟩, _, _, rfl, (pages, world), ⟨rfl, rfl, all, owed⟩,
            ended _ (lawful.rowRow rid1 rid2)⟩
      | ptrRowCmp pointer rid =>
          obtain ⟨-, ended⟩ := holds
          exact ⟨⟨trivial, trivial, trivial⟩, _, _, rfl, (pages, world), ⟨rfl, rfl, all, owed⟩,
            ended _ (lawful.ptrRow pointer rid)⟩
      | insertHandler rid =>
          obtain ⟨-, ended⟩ := holds
          refine ⟨⟨trivial, trivial, trivial⟩, _, _, rfl, _, ⟨rfl, ?_, ?_, ?_⟩,
            ended (callbacks.insertHandler rid ledger.caller).1 world.key (fun _ _ => rfl) (lawful.copies rid _)⟩
          · rfl
          · exact all
          · change _ ::ₘ ledger.made = ledger.freed + _ ::ₘ world.owed
            rw [show ledger.made = ledger.freed + world.owed from owed, Multiset.add_cons]
      | deleteHandler rid =>
          obtain ⟨⟨member, slot⟩, ended⟩ := holds
          have less : ledger.freed.count rid < ledger.made.count rid := by
            rw [show ledger.made = ledger.freed + world.owed from owed, Multiset.count_add]
            exact Nat.lt_add_of_pos_right (Multiset.count_pos.mpr member)
          refine ⟨⟨trivial, trivial, less, slot⟩, _, _, rfl, _, ⟨rfl, ?_, ?_, ?_⟩, ended world.key fun _ _ => rfl⟩
          · rfl
          · exact all
          · change ledger.made = rid ::ₘ ledger.freed + world.owed.erase rid
            rw [Multiset.cons_add, ← Multiset.add_cons, Multiset.cons_erase member]
            exact owed

/-- A specification in the logic of the index is one of every run. -/
theorem run_of_wp_tree (lawful : callbacks.Lawful ask key) {α : Type} {program : TreeProg Q α}
    {post : α → TreeState K → Prop} {state : TreeState K} {state' : RunState σ} (accounts : Accounts key state state')
    (holds : program.wp (growthLogic growing ask) post state) :
    (∃ value after, program.run (treeMeaning callbacks) state' = some (value, after) ∧
      ∃ final, Accounts key final after ∧ post value final) ∧
        program.Always (treeMeaning callbacks) TreeGuard state' :=
  run_of_wp (wp_simulates (callbacks_simulate lawful) accounts holds)

end Simulation

/-! ## Contents -/

section Contents

variable {K : Type} {key : RID → K} {contents : K → Option RID} {rows rows' : Multiset RID} {rid row result : RID} {x : K}

/-- The rows of an index are those of a finite map. -/
def Lists (key : RID → K) (contents : K → Option RID) (rows : Multiset RID) : Prop :=
  ∀ x rid, contents x = some rid ↔ rid ∈ rows ∧ key rid = x

theorem Lists.absent (lists : Lists key contents rows) (none : contents x = none) : ∀ row ∈ rows, key row ≠ x := by
  intro row member same
  have found := (lists x row).mpr ⟨member, same⟩
  rw [none] at found
  cases found

theorem Lists.answers {world : World K} (lists : Lists world.key contents rows) (answers : Answers world x rows result) :
    result = (contents x).getD failedRid := by
  rcases answers with ⟨found, same⟩ | ⟨missing, failed⟩
  · rw [(lists x result).mpr ⟨found, same⟩, Option.getD_some]
  · have none : contents x = none := by
      rw [Option.eq_none_iff_forall_not_mem]
      intro other bound
      obtain ⟨member, same⟩ := (lists x other).mp bound
      exact missing other member same
    rw [none, Option.getD_none, failed]

variable [LinearOrder K]

theorem Lists.insert (lists : Lists key contents rows) (absent : contents (key rid) = none) :
    Lists key (Function.update contents (key rid) (some rid)) (rid ::ₘ rows) := by
  intro x other
  rw [Multiset.mem_cons]
  by_cases here : x = key rid
  · subst here
    rw [Function.update_self]
    constructor
    · rintro ⟨rfl⟩
      exact ⟨.inl rfl, rfl⟩
    · rintro ⟨rfl | old, same⟩
      · rfl
      · exact absurd same (lists.absent absent other old)
  · rw [Function.update_of_ne here, lists x other]
    constructor
    · exact fun found => ⟨.inr found.1, found.2⟩
    · rintro ⟨rfl | old, same⟩
      · exact absurd same.symm here
      · exact ⟨old, same⟩

theorem Lists.delete (lists : Lists key contents rows) (loses : rows = row ::ₘ rows') (same : key row = key rid)
    (distinct : (rows.map key).Nodup) : Lists key (Function.update contents (key rid) none) rows' := by
  subst loses
  rw [Multiset.map_cons, Multiset.nodup_cons] at distinct
  intro x other
  by_cases here : x = key rid
  · subst here
    rw [Function.update_self]
    constructor
    · exact nofun
    · rintro ⟨member, same'⟩
      refine absurd ?_ distinct.1
      rw [same, ← same']
      exact Multiset.mem_map_of_mem _ member
  · rw [Function.update_of_ne here, lists x other, Multiset.mem_cons]
    constructor
    · rintro ⟨rfl | old, same'⟩
      · exact absurd (same'.symm.trans same) here
      · exact ⟨old, same'⟩
    · exact fun found => ⟨.inr found.1, found.2⟩

end Contents

/-! ## Runs -/

section Runs

variable {K Q σ : Type} [LinearOrder K]

/--
The states that calls reach from `b_tree_init` on an empty file, with the rows the calls
describe: keys that are absent are inserted, and keys that are present are deleted.
-/
inductive Reaches (degree : Nat) (callbacks : Callbacks Q σ) (key : RID → K) : (K → Option RID) → RunState σ → Prop where
  | init {caller : σ} {after : RunState σ}
      (ran : (bTreeInit : TreeProg Q Unit).run (treeMeaning callbacks) (unopened caller) = some ((), after)) :
      Reaches degree callbacks key (fun _ => none) after
  | insert {contents : K → Option RID} {state after : RunState σ} {rid result : RID}
      (before : Reaches degree callbacks key contents state) (absent : contents (key rid) = none)
      (ran : (bTreeInsert degree rid).run (treeMeaning callbacks) state = some (result, after)) :
      Reaches degree callbacks key (Function.update contents (key rid) (some rid)) after
  | delete {contents : K → Option RID} {state after : RunState σ} {rid : RID}
      (before : Reaches degree callbacks key contents state) (present : contents (key rid) ≠ none)
      (ran : (bTreeDelete degree rid).run (treeMeaning callbacks) state = some ((), after)) :
      Reaches degree callbacks key (Function.update contents (key rid) none) after
  | search {contents : K → Option RID} {state after : RunState σ} {pointer : Q} {result : RID}
      (before : Reaches degree callbacks key contents state)
      (ran : (bTreeSearch degree pointer).run (treeMeaning callbacks) state = some (result, after)) :
      Reaches degree callbacks key contents after

/-- An index in a run, and the rows it holds. -/
structure IndexHolds (degree : Nat) (key : RID → K) (contents : K → Option RID) (state : RunState σ) : Prop where
  stands : ∃ word world, Stands degree word (state.1, world) ∧ Accounts key (state.1, world) state ∧
    Lists key contents word.items

variable {degree : Nat} {callbacks : Callbacks Q σ} {ask : Q → K} {key : RID → K} {contents : K → Option RID}
  {state : RunState σ} {rid : RID} {pointer : Q}

theorem IndexHolds.of_stands {word : Word RID} {final : TreeState K} {after : RunState σ} (accounts : Accounts key final after)
    (stands : Stands degree word final) (lists : Lists key contents word.items) : IndexHolds degree key contents after := by
  obtain ⟨pages, world⟩ := final
  obtain ⟨pages', ledger⟩ := after
  obtain rfl : pages' = pages := accounts.pages
  exact ⟨word, world, stands, accounts, lists⟩

theorem run_bTreeInit (lawful : callbacks.Lawful ask key) (caller : σ) :
    (∃ after, (bTreeInit : TreeProg Q Unit).run (treeMeaning callbacks) (unopened caller) = some ((), after) ∧
      IndexHolds degree key (fun _ => none) after) ∧
        (bTreeInit : TreeProg Q Unit).Always (treeMeaning callbacks) TreeGuard (unopened caller) := by
  have accounts : Accounts key (⟨PageMap.empty, 0⟩, ⟨key, Set.univ, 0⟩) (unopened caller) := ⟨rfl, rfl, rfl, rfl⟩
  have spec : (bTreeInit : TreeProg Q Unit).wp (treeLogic ask)
      (fun _ (final : TreeState K) => Stands degree [] final) (⟨PageMap.empty, 0⟩, ⟨key, Set.univ, 0⟩) :=
    wp_bTreeInit rfl fun _ stands _ => stands
  obtain ⟨⟨_, after, ran, final, accounts', stands⟩, always⟩ := run_of_wp_tree lawful accounts spec
  refine ⟨⟨after, ran, .of_stands accounts' stands ?_⟩, always⟩
  intro x other
  exact ⟨nofun, fun found => absurd found.1 (Multiset.notMem_zero _)⟩

theorem run_bTreeInsert (positive : 1 ≤ degree) (lawful : callbacks.Lawful ask key)
    (holds : IndexHolds degree key contents state) (absent : contents (key rid) = none) :
    (∃ after, (bTreeInsert degree rid : TreeProg Q RID).run (treeMeaning callbacks) state = some (rid, after) ∧
      IndexHolds degree key (Function.update contents (key rid) (some rid)) after) ∧
        (bTreeInsert degree rid : TreeProg Q RID).Always (treeMeaning callbacks) TreeGuard state := by
  obtain ⟨word, world, stands, accounts, lists⟩ := holds
  obtain ⟨⟨map, pins⟩, ledger⟩ := state
  obtain rfl : pins = 0 := stands.pins
  obtain ⟨-, rfl, all, -⟩ := id accounts
  have spec : (bTreeInsert degree rid : TreeProg Q RID).wp (treeLogic ask) (fun result final =>
      result = rid ∧ ∃ word', word'.items = rid ::ₘ word.items ∧ Stands degree word' final) (⟨map, 0⟩, world) := by
    refine wp_bTreeInsert positive stands (all ▸ Set.mem_univ rid) (lists.absent absent) ?_
    exact fun word' final items stands' _ => ⟨rfl, word', items, stands'⟩
  obtain ⟨⟨_, after, ran, final, accounts', rfl, word', items, stands'⟩, always⟩ := run_of_wp_tree lawful accounts spec
  refine ⟨⟨after, ran, .of_stands accounts' stands' ?_⟩, always⟩
  rw [items]
  exact lists.insert absent

theorem run_bTreeDelete (positive : 1 ≤ degree) (lawful : callbacks.Lawful ask key)
    (holds : IndexHolds degree key contents state) (present : contents (key rid) ≠ none) :
    (∃ after, (bTreeDelete degree rid : TreeProg Q Unit).run (treeMeaning callbacks) state = some ((), after) ∧
      IndexHolds degree key (Function.update contents (key rid) none) after) ∧
        (bTreeDelete degree rid : TreeProg Q Unit).Always (treeMeaning callbacks) TreeGuard state := by
  obtain ⟨word, world, stands, accounts, lists⟩ := holds
  obtain ⟨⟨map, pins⟩, ledger⟩ := state
  obtain rfl : pins = 0 := stands.pins
  obtain ⟨-, rfl, all, -⟩ := id accounts
  obtain ⟨row, bound⟩ := Option.ne_none_iff_exists'.mp present
  obtain ⟨member, same⟩ := (lists _ row).mp bound
  have spec : (bTreeDelete degree rid : TreeProg Q Unit).wp (treeLogic ask) (fun _ final =>
      ∃ word', Loses world (world.key rid) word word' ∧ Stands degree word' final) (⟨map, 0⟩, world) := by
    refine wp_bTreeDelete positive stands (all ▸ Set.mem_univ rid) member same ?_
    exact fun word' final loses stands' _ => ⟨word', loses, stands'⟩
  obtain ⟨⟨_, after, ran, final, accounts', word', ⟨old, same', loses⟩, stands'⟩, always⟩ :=
    run_of_wp_tree lawful accounts spec
  refine ⟨⟨after, ran, .of_stands accounts' stands' ?_⟩, always⟩
  exact lists.delete loses same' stands.sound.sorted.nodup_keys

theorem run_bTreeSearch (lawful : callbacks.Lawful ask key) (holds : IndexHolds degree key contents state) :
    (∃ after, (bTreeSearch degree pointer).run (treeMeaning callbacks) state =
      some ((contents (ask pointer)).getD failedRid, after) ∧ IndexHolds degree key contents after) ∧
        (bTreeSearch degree pointer).Always (treeMeaning callbacks) TreeGuard state := by
  obtain ⟨word, world, stands, accounts, lists⟩ := holds
  obtain ⟨⟨map, pins⟩, ledger⟩ := state
  obtain rfl : pins = 0 := stands.pins
  obtain ⟨-, rfl, -, -⟩ := id accounts
  have spec : (bTreeSearch degree pointer).wp (treeLogic ask) (fun result final =>
      result = (contents (ask pointer)).getD failedRid ∧ Stands degree word final) (⟨map, 0⟩, world) :=
    wp_bTreeSearch stands fun result answers => ⟨lists.answers answers, stands⟩
  obtain ⟨⟨_, after, ran, final, accounts', rfl, stands'⟩, always⟩ := run_of_wp_tree lawful accounts spec
  exact ⟨⟨after, ran, .of_stands accounts' stands' lists⟩, always⟩

/-- The index holds what the calls describe, in every state reached. -/
theorem Reaches.holds (positive : 1 ≤ degree) (lawful : callbacks.Lawful ask key)
    (reached : Reaches degree callbacks key contents state) : IndexHolds degree key contents state := by
  induction reached with
  | @init caller after ran =>
      obtain ⟨⟨after, same, holds⟩, -⟩ := run_bTreeInit lawful caller
      rw [ran] at same
      cases same
      exact holds
  | insert before absent ran ih =>
      obtain ⟨⟨after, same, holds⟩, -⟩ := run_bTreeInsert positive lawful ih absent
      rw [ran] at same
      cases same
      exact holds
  | delete before present ran ih =>
      obtain ⟨⟨after, same, holds⟩, -⟩ := run_bTreeDelete positive lawful ih present
      rw [ran] at same
      cases same
      exact holds
  | search before ran ih =>
      obtain ⟨⟨after, same, holds⟩, -⟩ := run_bTreeSearch lawful ih
      rw [ran] at same
      cases same
      exact holds

/-! ## The index as a finite map -/

inductive Command (Q : Type) where
  | insert (rid : RID)
  | delete (rid : RID)
  | search (pointer : Q)

/-- The calls of a session, with the results of its searches. -/
def session (degree : Nat) : List (Command Q) → TreeProg Q (List RID)
  | [] => return []
  | .insert rid :: commands => do
      let _ ← bTreeInsert degree rid
      session degree commands
  | .delete rid :: commands => do
      bTreeDelete degree rid
      session degree commands
  | .search pointer :: commands => do
      let result ← bTreeSearch degree pointer
      let results ← session degree commands
      return result :: results

/-- Keys are inserted when they are absent and deleted when they are present. -/
def Allowed (key : RID → K) : (K → Option RID) → List (Command Q) → Prop
  | _, [] => True
  | contents, .insert rid :: commands =>
      contents (key rid) = none ∧ Allowed key (Function.update contents (key rid) (some rid)) commands
  | contents, .delete rid :: commands =>
      contents (key rid) ≠ none ∧ Allowed key (Function.update contents (key rid) none) commands
  | contents, .search _ :: commands => Allowed key contents commands

instance Allowed.decidable (key : RID → K) :
    (contents : K → Option RID) → (commands : List (Command Q)) → Decidable (Allowed key contents commands)
  | _, [] => .isTrue trivial
  | contents, .insert rid :: commands =>
      have := Allowed.decidable key (Function.update contents (key rid) (some rid)) commands
      inferInstanceAs (Decidable (_ ∧ _))
  | contents, .delete rid :: commands =>
      have := Allowed.decidable key (Function.update contents (key rid) none) commands
      inferInstanceAs (Decidable (_ ∧ _))
  | contents, .search _ :: commands => Allowed.decidable key contents commands

/-- The RID last inserted with a key that is present, and the failed RID for a key that is absent. -/
def answers (ask : Q → K) (key : RID → K) : (K → Option RID) → List (Command Q) → List RID
  | _, [] => []
  | contents, .insert rid :: commands => answers ask key (Function.update contents (key rid) (some rid)) commands
  | contents, .delete rid :: commands => answers ask key (Function.update contents (key rid) none) commands
  | contents, .search pointer :: commands =>
      (contents (ask pointer)).getD failedRid :: answers ask key contents commands

theorem run_session (positive : 1 ≤ degree) (lawful : callbacks.Lawful ask key) (commands : List (Command Q))
    (holds : IndexHolds degree key contents state) (allowed : Allowed key contents commands) :
    ∃ after, (session degree commands).run (treeMeaning callbacks) state =
      some (answers ask key contents commands, after) := by
  induction commands generalizing contents state with
  | nil => exact ⟨state, rfl⟩
  | cons command commands ih =>
      cases command with
      | insert rid =>
          obtain ⟨⟨after, ran, holds'⟩, -⟩ := run_bTreeInsert positive lawful holds allowed.1
          obtain ⟨final, rest⟩ := ih holds' allowed.2
          refine ⟨final, ?_⟩
          rw [session, run_bind, ran]
          exact rest
      | delete rid =>
          obtain ⟨⟨after, ran, holds'⟩, -⟩ := run_bTreeDelete positive lawful holds allowed.1
          obtain ⟨final, rest⟩ := ih holds' allowed.2
          refine ⟨final, ?_⟩
          rw [session, run_bind, ran]
          exact rest
      | search pointer =>
          obtain ⟨⟨after, ran, holds'⟩, -⟩ := run_bTreeSearch lawful holds
          obtain ⟨final, rest⟩ := ih holds' allowed
          refine ⟨final, ?_⟩
          rw [session, run_bind, ran, Option.bind_some, run_bind, rest]
          rfl

/-- A session keeps what every call keeps. -/
theorem always_session (positive : 1 ≤ degree) (lawful : callbacks.Lawful ask key) (commands : List (Command Q))
    (holds : IndexHolds degree key contents state) (allowed : Allowed key contents commands) :
    (session degree commands).Always (treeMeaning callbacks) TreeGuard state := by
  induction commands generalizing contents state with
  | nil => trivial
  | cons command commands ih =>
      cases command with
      | insert rid =>
          obtain ⟨⟨after, ran, holds'⟩, always⟩ := run_bTreeInsert positive lawful holds allowed.1
          refine always.bind fun value other ran' => ?_
          rw [ran] at ran'
          cases ran'
          exact ih holds' allowed.2
      | delete rid =>
          obtain ⟨⟨after, ran, holds'⟩, always⟩ := run_bTreeDelete positive lawful holds allowed.1
          refine always.bind fun value other ran' => ?_
          rw [ran] at ran'
          cases ran'
          exact ih holds' allowed.2
      | search pointer =>
          obtain ⟨⟨after, ran, holds'⟩, always⟩ := run_bTreeSearch lawful holds
          refine always.bind fun value other ran' => (?_ : Prog.Always ..).bind fun _ _ _ => trivial
          rw [ran] at ran'
          cases ran'
          exact ih holds' allowed

/-- The rows that the calls of a session leave in the index. -/
def outcome (key : RID → K) : (K → Option RID) → List (Command Q) → K → Option RID
  | contents, [] => contents
  | contents, .insert rid :: commands => outcome key (Function.update contents (key rid) (some rid)) commands
  | contents, .delete rid :: commands => outcome key (Function.update contents (key rid) none) commands
  | contents, .search _ :: commands => outcome key contents commands

/-- What is in the index was there before, or has been inserted. -/
theorem outcome_some {x : K} {rid : RID} (commands : List (Command Q)) (found : outcome key contents commands x = some rid) :
    contents x = some rid ∨ .insert rid ∈ commands := by
  induction commands generalizing contents with
  | nil => exact .inl found
  | cons command commands ih =>
      cases command with
      | insert other =>
          rcases ih found with old | later
          · by_cases here : x = key other
            · rw [here, Function.update_self, Option.some.injEq] at old
              exact .inr (old ▸ List.mem_cons_self)
            · rw [Function.update_of_ne here] at old
              exact .inl old
          · exact .inr (List.mem_cons_of_mem _ later)
      | delete other =>
          rcases ih found with old | later
          · by_cases here : x = key other
            · rw [here, Function.update_self] at old
              cases old
            · rw [Function.update_of_ne here] at old
              exact .inl old
          · exact .inr (List.mem_cons_of_mem _ later)
      | search pointer => exact (ih found).imp_right (List.mem_cons_of_mem _)

/-- A session leads from a state reached to a state reached. -/
theorem Reaches.session {results : List RID} {after : RunState σ} (reached : Reaches degree callbacks key contents state)
    (commands : List (Command Q)) (allowed : Allowed key contents commands)
    (ran : (session degree commands).run (treeMeaning callbacks) state = some (results, after)) :
    Reaches degree callbacks key (outcome key contents commands) after := by
  induction commands generalizing contents state results with
  | nil =>
      cases ran
      exact reached
  | cons command commands ih =>
      cases command with
      | insert rid =>
          rw [Index.session, run_bind] at ran
          obtain ⟨⟨result, middle⟩, inserted, rest⟩ := Option.bind_eq_some_iff.mp ran
          exact ih (reached.insert allowed.1 inserted) allowed.2 rest
      | delete rid =>
          rw [Index.session, run_bind] at ran
          obtain ⟨⟨⟨⟩, middle⟩, deleted, rest⟩ := Option.bind_eq_some_iff.mp ran
          exact ih (reached.delete allowed.1 deleted) allowed.2 rest
      | search pointer =>
          rw [Index.session, run_bind] at ran
          obtain ⟨⟨result, middle⟩, searched, more⟩ := Option.bind_eq_some_iff.mp ran
          rw [run_bind] at more
          obtain ⟨⟨others, final⟩, rest, last⟩ := Option.bind_eq_some_iff.mp more
          cases last
          exact ih (reached.search searched) allowed rest

/-- A session on a new index ends, with its answers. -/
theorem run_session_new (positive : 1 ≤ degree) (lawful : callbacks.Lawful ask key) (caller : σ)
    (commands : List (Command Q)) (allowed : Allowed key (fun _ => none) commands) :
    ∃ after, (do bTreeInit; session degree commands : TreeProg Q (List RID)).run (treeMeaning callbacks)
      (unopened caller) = some (answers ask key (fun _ => none) commands, after) := by
  obtain ⟨⟨opened, ran, holds⟩, -⟩ := run_bTreeInit lawful caller
  obtain ⟨after, rest⟩ := run_session positive lawful commands holds allowed
  refine ⟨after, ?_⟩
  rw [run_bind, ran]
  exact rest

/--
The index is a finite ordered map: in every session of insertions of absent keys, deletions of
present ones and searches, each search returns the RID last inserted with its key, or the failed
RID if the key is absent.
-/
theorem index_is_map (positive : 1 ≤ degree) (lawful : callbacks.Lawful ask key) (caller : σ)
    (commands : List (Command Q)) (allowed : Allowed key (fun _ => none) commands) :
    ∃ after, (do bTreeInit; session degree commands : TreeProg Q (List RID)).run (treeMeaning callbacks)
      (unopened caller) = some (answers ask key (fun _ => none) commands, after) :=
  run_session_new positive lawful caller commands allowed

theorem index_is_map_reinserted :
    ∃ after, (do
      bTreeInit
      session 2 [.insert ⟨7, 0⟩, .insert ⟨5, 1⟩, .search 7, .delete ⟨7, 9⟩, .search 7, .insert ⟨7, 3⟩, .search 7] :
        TreeProg Int (List RID)).run (treeMeaning testCallbacks) (unopened ()) =
          some ([⟨7, 0⟩, ⟨-1, 0⟩, ⟨7, 3⟩], after) :=
  index_is_map (by decide) testCallbacks_lawful () _
    ⟨rfl, rfl, Option.some_ne_none _, rfl, trivial⟩

/-! ## An index of three levels -/

/-- A session on a new index. -/
abbrev newSession (commands : List (Command Int)) : TreeProg Int (List RID) := do
  bTreeInit
  session 2 commands

/-- The state after it. -/
@[irreducible]
def stateAfter (commands : List (Command Int)) : RunState Unit :=
  (((newSession commands).run (treeMeaning testCallbacks) (unopened ())).getD ([], unopened ())).2

theorem run_newSession {commands : List (Command Int)} (allowed : Allowed RID.blockAddr (fun _ => none) commands) :
    (newSession commands).run (treeMeaning testCallbacks) (unopened ()) =
      some (answers id RID.blockAddr (fun _ => none) commands, stateAfter commands) := by
  obtain ⟨after, ran⟩ := run_session_new (by decide : 1 ≤ 2) testCallbacks_lawful () commands allowed
  rw [stateAfter, ran]
  rfl

theorem stateAfter_reached {commands : List (Command Int)} (allowed : Allowed RID.blockAddr (fun _ => none) commands) :
    Reaches 2 testCallbacks RID.blockAddr (outcome RID.blockAddr (fun _ => none) commands) (stateAfter commands) := by
  have ran := run_newSession allowed
  rw [run_bind] at ran
  obtain ⟨⟨⟨⟩, opened⟩, first, rest⟩ := Option.bind_eq_some_iff.mp ran
  exact Reaches.session (.init first) _ allowed rest

theorem always_newSession {commands : List (Command Int)} (allowed : Allowed RID.blockAddr (fun _ => none) commands) :
    (newSession commands).Always (treeMeaning testCallbacks) PinsKept (unopened ()) := by
  obtain ⟨⟨opened, ran, holds⟩, always⟩ := run_bTreeInit testCallbacks_lawful ()
  refine (always.bind fun value after ran' => ?_).imp fun _ _ _ guard => guard.1
  rw [ran] at ran'
  cases ran'
  exact always_session (by decide) testCallbacks_lawful commands holds allowed

/-- Sixteen rows are inserted in the order of their keys, and the second one is deleted. -/
def grownCommands : List (Command Int) :=
  (List.range 16).map (fun place => .insert ⟨(place : Int) + 1, 0⟩) ++ [.delete ⟨2, 0⟩]

/-- The rows that are left. -/
def grownContents : Int → Option RID := outcome RID.blockAddr (fun _ => none) grownCommands

/--
The state after them: six leaves have been split, and the root above them; then two leaves have
been merged, and the node above them has borrowed a child.
-/
def grown : RunState Unit := stateAfter grownCommands

theorem grown_reached : Reaches 2 testCallbacks RID.blockAddr grownContents grown :=
  stateAfter_reached (by decide +kernel)

theorem grownContents_absent : grownContents 17 = none := by decide +kernel

theorem grownContents_deleted : grownContents 2 = none := by decide +kernel

theorem grownContents_present : grownContents 6 ≠ none := by decide +kernel

/-- The fifteen rows. -/
def grownRows : Finset RID := ((Finset.range 16).image fun place : Nat => ⟨(place : Int) + 1, 0⟩).erase ⟨2, 0⟩

theorem grownRows_stored (rid : RID) (found : grownContents rid.blockAddr = some rid) : rid ∈ grownRows := by
  refine Finset.mem_erase.mpr ⟨?_, ?_⟩
  · rintro rfl
    exact absurd (grownContents_deleted.symm.trans found) nofun
  · rcases outcome_some grownCommands found with old | inserted
    · cases old
    · simp only [grownCommands, List.mem_append, List.mem_map, List.mem_range, List.mem_singleton, reduceCtorEq, or_false,
        Command.insert.injEq] at inserted
      simpa only [Finset.mem_image, Finset.mem_range] using inserted

/-- Where the root stands, and the first free page. -/
def ctrlOf (state : RunState Unit) : Option (Int × Int) :=
  (state.1.map.page 0).asCtrl.map fun ctrl => (ctrl.rootNode, ctrl.freeNodeHead)

/-- Whether the page is a leaf, and its rows. -/
def nodeRows (state : RunState Unit) (addr : Int) : Option (Bool × List RID) :=
  (state.1.map.page addr).asNode.map fun node => (node.leaf, (List.range node.n).map node.rowPtr)

theorem grown_ctrl : ctrlOf grown = some (9 * pageSize, 2 * pageSize) := by decide +kernel

/-- The root has one separator, and the two nodes under it have two each. -/
theorem grown_inner : [9, 3, 8].map (fun place => nodeRows grown (place * pageSize)) =
    [some (false, [⟨9, -1⟩]), some (false, [⟨5, -1⟩, ⟨7, -1⟩]), some (false, [⟨11, -1⟩, ⟨13, -1⟩])] := by
  decide +kernel

theorem grown_copies : grown.2.made.card = 6 ∧ grown.2.freed.card = 1 := by decide +kernel

/-- How many separators have been made, and how many deleted. -/
def copiesOf (state : RunState Unit) : Nat × Nat := (state.2.made.card, state.2.freed.card)

/-- One more row splits the last leaf, which is full, and takes the free page. -/
theorem grown_insert : ((bTreeInsert 2 ⟨17, 0⟩).run (treeMeaning testCallbacks) grown).map
    (fun result => (ctrlOf result.2, copiesOf result.2)) = some (some (9 * pageSize, -1), 7, 1) := by decide +kernel

/-- A row of the second leaf less: two leaves are merged, two nodes above them, and the root is freed. -/
theorem grown_delete : ((bTreeDelete 2 ⟨6, 0⟩).run (treeMeaning testCallbacks) grown).map
    (fun result => (ctrlOf result.2, copiesOf result.2)) = some (some (3 * pageSize, 9 * pageSize), 6, 2) := by
  decide +kernel

/-! ## Pins -/

/-- A call keeps the pin discipline, and when it returns no page is fetched. -/
def Balanced {α : Type} (callbacks : Callbacks Q σ) (program : TreeProg Q α) (state : RunState σ) : Prop :=
  program.Always (treeMeaning callbacks) PinsKept state ∧
    ∃ result after, program.run (treeMeaning callbacks) state = some (result, after) ∧ after.1.pins = 0

theorem IndexHolds.pins (holds : IndexHolds degree key contents state) : state.1.pins = 0 := by
  obtain ⟨word, world, stands, -, -⟩ := holds
  exact stands.pins

/--
The operations balance their pins: from every state reached, each operation leaves a slot for
every page it fetches, uses and releases only pages that are fetched, and ends with none.
-/
theorem pins_balance (positive : 1 ≤ degree) (lawful : callbacks.Lawful ask key)
    (reached : Reaches degree callbacks key contents state) :
    state.1.pins = 0 ∧ (∀ pointer, Balanced callbacks (bTreeSearch degree pointer) state) ∧
      (∀ rid, contents (key rid) = none → Balanced callbacks (bTreeInsert degree rid) state) ∧
      ∀ rid, contents (key rid) ≠ none → Balanced callbacks (bTreeDelete degree rid) state := by
  have holds := reached.holds positive lawful
  refine ⟨holds.pins, ?_, ?_, ?_⟩
  · intro pointer
    obtain ⟨⟨after, ran, holds'⟩, always⟩ := run_bTreeSearch lawful holds
    exact ⟨always.imp fun _ _ _ guard => guard.1, _, after, ran, holds'.pins⟩
  · intro rid absent
    obtain ⟨⟨after, ran, holds'⟩, always⟩ := run_bTreeInsert positive lawful holds absent
    exact ⟨always.imp fun _ _ _ guard => guard.1, _, after, ran, holds'.pins⟩
  · intro rid present
    obtain ⟨⟨after, ran, holds'⟩, always⟩ := run_bTreeDelete positive lawful holds present
    exact ⟨always.imp fun _ _ _ guard => guard.1, _, after, ran, holds'.pins⟩

theorem pins_balance_grown : Reaches 2 testCallbacks RID.blockAddr grownContents grown ∧ grown.1.pins = 0 ∧
    Balanced testCallbacks (bTreeSearch 2 13) grown ∧ Balanced testCallbacks (bTreeInsert 2 ⟨17, 0⟩) grown ∧
      Balanced testCallbacks (bTreeDelete 2 ⟨6, 0⟩) grown := by
  obtain ⟨pins, search, insert, delete⟩ := pins_balance (by decide) testCallbacks_lawful grown_reached
  exact ⟨grown_reached, pins, search 13, insert ⟨17, 0⟩ grownContents_absent, delete ⟨6, 0⟩ grownContents_present⟩

end Runs

end MyJQL.Index
