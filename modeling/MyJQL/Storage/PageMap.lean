import MyJQL.Library.Program

/-!
# The page interface and its page-map reading

`PageOp` is the interface that the index, the free-space map and the data
blocks are written against: `get_page`, `release`, reads and writes through the
pointer `get_page` returned, and the `file.length` field. A pointer is named by
the address it was asked for.

Addresses (`off_t`) are unbounded integers: on an LP64 system the casts to `long` lose
nothing, and nothing overflows below a length of `2 ^ 63`. A page type `P` stands for the C
struct a page is cast to; `emptyPage` is the page of zero bytes.

Two meanings are given here. In the page map, `get_page` denotes the current
content of a page, zero when newly appended, and `release` does nothing. The
pinned map also counts, for every address, the `get_page` calls not yet
released; its guards say that a pointer is used only while its page is pinned.
-/

namespace MyJQL.Storage

open Library

/-- `PAGE_SIZE`. -/
abbrev pageSize : Int := 128

/-- `CACHE_PAGE`, the number of slots of a buffer pool. -/
abbrev cachePage : Nat := 8

instance : NeZero cachePage := ⟨by decide⟩

/-- A page read as some struct, with the page of zero bytes. -/
class PageType (P : Type) where
  emptyPage : P

export PageType (emptyPage)

inductive PageOp (P : Type) : Type → Type where
  | getPage (addr : Int) : PageOp P Unit
  | release (addr : Int) : PageOp P Unit
  | load (addr : Int) : PageOp P P
  | store (addr : Int) (page : P) : PageOp P Unit
  | fileLength : PageOp P Int
  | setFileLength (length : Int) : PageOp P Unit

/-- The page map: the file length and the content of every page. -/
structure PageMap (P : Type) where
  length : Int
  page : Int → P

namespace PageMap

variable {P : Type}

/-- The map of an empty file. -/
def empty [PageType P] : PageMap P := ⟨0, fun _ => emptyPage⟩

/-- The addresses of the pages of the file. -/
def InFile (map : PageMap P) (addr : Int) : Prop :=
  addr % pageSize = 0 ∧ 0 ≤ addr ∧ addr < map.length

/-- `get_page` on the page map; an address at or past the end appends a zero page. -/
def getPage [PageType P] (map : PageMap P) (addr : Int) : Option (PageMap P) :=
  if addr % pageSize = 0 ∧ 0 ≤ addr then
    if addr < map.length then some map
    else some ⟨addr + pageSize, Function.update map.page addr emptyPage⟩
  else none

def store (map : PageMap P) (addr : Int) (page : P) : PageMap P :=
  { map with page := Function.update map.page addr page }

@[simp]
theorem store_length (map : PageMap P) (addr : Int) (page : P) :
    (map.store addr page).length = map.length := rfl

@[simp]
theorem store_page_self (map : PageMap P) (addr : Int) (page : P) :
    (map.store addr page).page addr = page := Function.update_self ..

theorem store_page_of_ne (map : PageMap P) {addr other : Int} (page : P) (different : other ≠ addr) :
    (map.store addr page).page other = map.page other := Function.update_of_ne different ..

theorem store_page (map : PageMap P) (addr other : Int) (page : P) :
    (map.store addr page).page other = if other = addr then page else map.page other :=
  Function.update_apply ..

@[simp]
theorem inFile_store (map : PageMap P) (addr other : Int) (page : P) :
    (map.store addr page).InFile other ↔ map.InFile other := Iff.rfl

theorem getPage_of_inFile [PageType P] {map : PageMap P} {addr : Int} (inside : map.InFile addr) :
    map.getPage addr = some map := by
  obtain ⟨aligned, nonneg, below⟩ := inside
  rw [getPage, if_pos ⟨aligned, nonneg⟩, if_pos below]

/-- The map after appending a zero page at `addr`. -/
def append [PageType P] (map : PageMap P) (addr : Int) : PageMap P :=
  ⟨addr + pageSize, Function.update map.page addr emptyPage⟩

theorem getPage_of_append [PageType P] {map : PageMap P} {addr : Int}
    (aligned : addr % pageSize = 0) (nonneg : 0 ≤ addr) (atEnd : map.length ≤ addr) :
    map.getPage addr = some (map.append addr) := by
  rw [getPage, if_pos ⟨aligned, nonneg⟩, if_neg (by omega)]
  rfl

@[simp]
theorem append_length [PageType P] (map : PageMap P) (addr : Int) :
    (map.append addr).length = addr + pageSize := rfl

@[simp]
theorem append_page_self [PageType P] (map : PageMap P) (addr : Int) :
    (map.append addr).page addr = emptyPage := Function.update_self ..

theorem append_page_of_ne [PageType P] (map : PageMap P) {addr other : Int} (different : other ≠ addr) :
    (map.append addr).page other = map.page other := Function.update_of_ne different ..

/-- What is known of the map after `get_page addr`, whether or not the page was in the file. -/
structure Touched [PageType P] (map : PageMap P) (addr : Int) (after : PageMap P) : Prop where
  kept : ∀ other ≠ addr, after.page other = map.page other
  content : map.page addr = emptyPage → after.page addr = emptyPage
  inside : after.InFile addr
  length_le : map.length ≤ after.length
  aligned : map.length % pageSize = 0 → after.length % pageSize = 0

theorem getPage_touched [PageType P] (map : PageMap P) {addr : Int}
    (aligned : addr % pageSize = 0) (nonneg : 0 ≤ addr) :
    ∃ after, map.getPage addr = some after ∧ map.Touched addr after := by
  by_cases below : addr < map.length
  · refine ⟨map, getPage_of_inFile ⟨aligned, nonneg, below⟩, ?_⟩
    exact ⟨fun _ _ => rfl, id, ⟨aligned, nonneg, below⟩, le_rfl, id⟩
  · refine ⟨map.append addr, getPage_of_append aligned nonneg (not_lt.mp below), ?_⟩
    refine ⟨fun other different => map.append_page_of_ne different,
      fun _ => map.append_page_self addr, ⟨aligned, nonneg, ?_⟩, ?_, ?_⟩
    · simp only [append_length, pageSize]
      omega
    · simp only [append_length, pageSize]
      omega
    · intro _
      simp only [append_length, pageSize] at aligned ⊢
      omega

end PageMap

/-- The page-map meaning of the interface. -/
def mapMeaning (P : Type) [PageType P] : Meaning (PageOp P) (PageMap P)
  | _, .getPage addr, map => (map.getPage addr).map fun after => ((), after)
  | _, .release _, map => some ((), map)
  | _, .load addr, map => some (map.page addr, map)
  | _, .store addr page, map => some ((), map.store addr page)
  | _, .fileLength, map => some (map.length, map)
  | _, .setFileLength length, map => some ((), { map with length := length })

/-- The page map together with the pages pinned, one occurrence per unreleased `get_page`. -/
structure Pinned (P : Type) where
  map : PageMap P
  pins : Multiset Int

def pinnedMeaning (P : Type) [PageType P] : Meaning (PageOp P) (Pinned P)
  | _, .getPage addr, state =>
      (state.map.getPage addr).map fun after => ((), ⟨after, addr ::ₘ state.pins⟩)
  | _, .release addr, state => some ((), ⟨state.map, state.pins.erase addr⟩)
  | _, .load addr, state => some (state.map.page addr, state)
  | _, .store addr page, state => some ((), ⟨state.map.store addr page, state.pins⟩)
  | _, .fileLength, state => some (state.map.length, state)
  | _, .setFileLength length, state => some ((), ⟨{ state.map with length := length }, state.pins⟩)

/--
The pin discipline: a free slot is left for every `get_page`, which appends at
the end of the file only, pinned pages alone are released, pointers are used only
while their page is pinned, and the file length is left to the pool.
-/
def PinGuard (P : Type) : ∀ β : Type, PageOp P β → Pinned P → Prop
  | _, .getPage addr, state => state.pins.card < cachePage ∧ addr ≤ state.map.length
  | _, .release addr, state => addr ∈ state.pins
  | _, .load addr, state => addr ∈ state.pins
  | _, .store addr _, state => addr ∈ state.pins
  | _, .fileLength, _ => True
  | _, .setFileLength _, _ => False

/-- The pinned logic. With `strict` false the discipline is not asked for. -/
def pinnedLogic (P : Type) [PageType P] (strict : Prop) : Logic (PageOp P) (Pinned P) :=
  Logic.ofMeaning (pinnedMeaning P) fun _ effect state => strict → PinGuard P _ effect state

def mapLogic (P : Type) [PageType P] : Logic (PageOp P) (PageMap P) :=
  Logic.ofMeaning (mapMeaning P) fun _ _ _ => True

/-- A step of the pinned map is a step of the page map. -/
theorem mapMeaning_of_pinned {P : Type} [PageType P] {β : Type} {effect : PageOp P β} {result : β}
    {state after : Pinned P} (step : pinnedMeaning P β effect state = some (result, after)) :
    mapMeaning P β effect state.map = some (result, after.map) := by
  cases effect with
  | getPage addr =>
      simp only [pinnedMeaning, Option.map_eq_some_iff] at step
      obtain ⟨map, got, same⟩ := step
      cases same
      simp only [mapMeaning, got, Option.map_some]
  | release addr => cases step; rfl
  | load addr => cases step; rfl
  | store addr page => cases step; rfl
  | fileLength => cases step; rfl
  | setFileLength length => cases step; rfl

/-- Forgetting the pins gives the page map. -/
theorem pinned_simulates (P : Type) [PageType P] (strict : Prop) :
    Logic.Simulates (pinnedLogic P strict) (mapLogic P) (fun state map => state.map = map) := by
  intro β effect post left right related holds
  subst related
  obtain ⟨-, result, after, step, ended⟩ := holds
  exact ⟨trivial, result, after.map, mapMeaning_of_pinned step, after, rfl, ended⟩

/-! ## Rules for the pinned logic -/

section Rules

variable {P : Type} [PageType P] {strict : Prop} {map : PageMap P} {pins : Multiset Int} {addr : Int}

theorem rule_getPage {post : Unit → Pinned P → Prop} (inside : map.InFile addr)
    (room : strict → pins.card < cachePage) (holds : post () ⟨map, addr ::ₘ pins⟩) :
    (pinnedLogic P strict).rule _ (.getPage addr) post ⟨map, pins⟩ :=
  ⟨fun asked => ⟨room asked, le_of_lt inside.2.2⟩, (), _,
    by simp only [pinnedMeaning, PageMap.getPage_of_inFile inside, Option.map_some], holds⟩

theorem rule_getPage_append {post : Unit → Pinned P → Prop} (aligned : addr % pageSize = 0)
    (nonneg : 0 ≤ addr) (atEnd : map.length ≤ addr) (room : strict → pins.card < cachePage)
    (reach : strict → addr ≤ map.length) (holds : post () ⟨map.append addr, addr ::ₘ pins⟩) :
    (pinnedLogic P strict).rule _ (.getPage addr) post ⟨map, pins⟩ :=
  ⟨fun asked => ⟨room asked, reach asked⟩, (), _, by
    simp only [pinnedMeaning, PageMap.getPage_of_append aligned nonneg atEnd, Option.map_some], holds⟩

/-- `get_page` on any page address, in the file or appended. -/
theorem rule_getPage_touched {post : Unit → Pinned P → Prop} (aligned : addr % pageSize = 0)
    (nonneg : 0 ≤ addr) (room : strict → pins.card < cachePage) (reach : strict → addr ≤ map.length)
    (holds : ∀ after, map.Touched addr after → post () ⟨after, addr ::ₘ pins⟩) :
    (pinnedLogic P strict).rule _ (.getPage addr) post ⟨map, pins⟩ := by
  obtain ⟨after, got, touched⟩ := map.getPage_touched aligned nonneg
  exact ⟨fun asked => ⟨room asked, reach asked⟩, (), _,
    by simp only [pinnedMeaning, got, Option.map_some], holds after touched⟩

theorem rule_release {post : Unit → Pinned P → Prop} (pinned : strict → addr ∈ pins)
    (holds : post () ⟨map, pins.erase addr⟩) :
    (pinnedLogic P strict).rule _ (.release addr) post ⟨map, pins⟩ :=
  ⟨pinned, (), _, rfl, holds⟩

theorem rule_load {post : P → Pinned P → Prop} (pinned : strict → addr ∈ pins)
    (holds : post (map.page addr) ⟨map, pins⟩) :
    (pinnedLogic P strict).rule _ (.load addr) post ⟨map, pins⟩ :=
  ⟨pinned, _, _, rfl, holds⟩

theorem rule_store {post : Unit → Pinned P → Prop} {page : P} (pinned : strict → addr ∈ pins)
    (holds : post () ⟨map.store addr page, pins⟩) :
    (pinnedLogic P strict).rule _ (.store addr page) post ⟨map, pins⟩ :=
  ⟨pinned, (), _, rfl, holds⟩

theorem rule_fileLength {post : Int → Pinned P → Prop} (holds : post map.length ⟨map, pins⟩) :
    (pinnedLogic P strict).rule _ .fileLength post ⟨map, pins⟩ :=
  ⟨fun _ => trivial, _, _, rfl, holds⟩

theorem rule_setFileLength {post : Unit → Pinned P → Prop} {length : Int} (loose : ¬ strict)
    (holds : post () ⟨{ map with length := length }, pins⟩) :
    (pinnedLogic P strict).rule _ (.setFileLength length) post ⟨map, pins⟩ :=
  ⟨loose, _, _, rfl, holds⟩

end Rules

/-! ## A rule for the page map -/

theorem mapRule_fileLength {P : Type} [PageType P] {map : PageMap P} {post : Int → PageMap P → Prop}
    (holds : post map.length map) : (mapLogic P).rule _ .fileLength post map :=
  ⟨trivial, map.length, map, rfl, holds⟩

end MyJQL.Storage
