import RingStore.Table

/-!
# Usage of a partition

A report on the page table: the number of pages at each stage, what is remembered of every page, where
the ring starts, and which page is active.

## Main statements

* `Usage.counts_ofTable`: the four counts add up to the number of pages.
-/

namespace RingStore

/-- A report on the pages of a partition. -/
structure Usage where
  erased : Nat
  active : Nat
  full : Nat
  unavailable : Nat
  pages : List Page
  ringStart : Nat
  activePage : Option Nat
  deriving DecidableEq, Repr

namespace Usage

/-- The number of pages at a stage. -/
def countKind (kind : PageKind) (pages : List Page) : Nat := pages.countP (·.kind == kind)

/-- The report on a page table. -/
def ofTable (t : Table) : Usage where
  erased := countKind .erased t.pages.toList
  active := countKind .active t.pages.toList
  full := countKind .full t.pages.toList
  unavailable := countKind .unavailable t.pages.toList
  pages := t.pages.toList
  ringStart := t.ringStart
  activePage := t.active?

theorem countKind_cons (kind : PageKind) (page : Page) (pages : List Page) :
    countKind kind (page :: pages) = countKind kind pages + if page.kind = kind then 1 else 0 := by
  simp [countKind, List.countP_cons]

theorem counts_eq_length (pages : List Page) :
    countKind .erased pages + countKind .active pages + countKind .full pages +
      countKind .unavailable pages = pages.length := by
  induction pages with
  | nil => rfl
  | cons page rest ih =>
    simp only [countKind_cons, List.length_cons]
    cases page.kind <;> simp <;> omega

theorem counts_ofTable (t : Table) :
    (ofTable t).erased + (ofTable t).active + (ofTable t).full + (ofTable t).unavailable =
      t.count := counts_eq_length t.pages.toList

end Usage

end RingStore
