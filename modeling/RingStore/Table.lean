import RingStore.Page.Status

/-!
# The page table

The store remembers a few numbers for each page and two positions in the ring: the page at which the
ring starts, and the head, which is the page that was opened last.  Records themselves stay in the
flash.

## Main statements

* `length_ringFrom`, `lt_of_mem_ringFrom`, `mem_ringFrom`: a walk around the ring visits every page,
  and as many positions as there are pages; the same for a walk backward.
-/

namespace RingStore

/-! ## Walks around a ring -/

/-- All positions of a ring of `count` pages, from `start` on and forward. -/
def ringFrom (count start : Nat) : List Nat :=
  (List.range count).map fun step => (start + step) % count

/-- All positions of a ring of `count` pages, from `start` on and backward. -/
def ringBackFrom (count start : Nat) : List Nat :=
  (List.range count).map fun step => (start + count - step) % count

@[simp] theorem length_ringFrom (count start : Nat) : (ringFrom count start).length = count := by
  simp [ringFrom]

@[simp] theorem length_ringBackFrom (count start : Nat) :
    (ringBackFrom count start).length = count := by
  simp [ringBackFrom]

theorem lt_of_mem_ringFrom {count start page : Nat} (h : page ∈ ringFrom count start) :
    page < count := by
  obtain ⟨step, hstep, rfl⟩ := List.mem_map.mp h
  exact Nat.mod_lt _ (Nat.zero_lt_of_lt (List.mem_range.mp hstep))

theorem lt_of_mem_ringBackFrom {count start page : Nat} (h : page ∈ ringBackFrom count start) :
    page < count := by
  obtain ⟨step, hstep, rfl⟩ := List.mem_map.mp h
  exact Nat.mod_lt _ (Nat.zero_lt_of_lt (List.mem_range.mp hstep))

/-- **A walk forward visits every page.** -/
theorem mem_ringFrom {count start page : Nat} (h : page < count) : page ∈ ringFrom count start := by
  have hpos : 0 < count := Nat.zero_lt_of_lt h
  have hmod := Nat.mod_lt start hpos
  have hdiv := Nat.div_add_mod start count
  refine List.mem_map.mpr ⟨(page + (count - start % count)) % count,
    List.mem_range.mpr (Nat.mod_lt _ hpos), ?_⟩
  rw [Nat.add_mod_mod, ← Nat.mod_add_mod,
    show start % count + (page + (count - start % count)) = page + count by omega,
    Nat.add_mod_right, Nat.mod_eq_of_lt h]

/-- **A walk backward visits every page.** -/
theorem mem_ringBackFrom {count start page : Nat} (h : page < count) :
    page ∈ ringBackFrom count start := by
  have hpos : 0 < count := Nat.zero_lt_of_lt h
  have hdiv := Nat.div_add_mod start count
  have hmod := Nat.mod_lt start hpos
  refine List.mem_map.mpr ⟨(start % count + count - page) % count,
    List.mem_range.mpr (Nat.mod_lt _ hpos), ?_⟩
  by_cases hle : page ≤ start % count
  · have hstep : (start % count + count - page) % count = start % count - page := by
      rw [show start % count + count - page = start % count - page + count by omega,
        Nat.add_mod_right, Nat.mod_eq_of_lt (by omega)]
    rw [hstep, show start + count - (start % count - page) = page + count + count * (start / count)
      by omega, Nat.add_mul_mod_self_left, Nat.add_mod_right, Nat.mod_eq_of_lt h]
  · have hstep : (start % count + count - page) % count = start % count + count - page :=
      Nat.mod_eq_of_lt (by omega)
    rw [hstep, show start + count - (start % count + count - page) = page + count * (start / count)
      by omega, Nat.add_mul_mod_self_left, Nat.mod_eq_of_lt h]

/-! ## The table -/

/-- What the store remembers of a page. -/
structure Page where
  status : PageStatus
  /-- The bytes that records take, dropped ones included. -/
  used : Nat
  /-- The number of live records. -/
  live : Nat
  deriving DecidableEq, Repr

/-- A page right after its erase. -/
def Page.blank : Page := ⟨.blank, 0, 0⟩

/-- The stage of a page. -/
def Page.kind (page : Page) : PageKind := page.status.kind

/-- The page table. -/
structure Table where
  pages : Array Page
  /-- The page at which the ring starts. -/
  ringStart : Nat
  /-- The page at which searches begin. -/
  head : Nat

namespace Table

/-- The table of a store that was not scanned yet. -/
def empty : Table := ⟨#[], 0, 0⟩

/-- The number of pages in the table. -/
def count (t : Table) : Nat := t.pages.size

/-- The stage of a page of the table. -/
def kind? (t : Table) (page : Nat) : Option PageKind := t.pages[page]?.map (·.kind)

/-- The page is at the given stage. -/
def isKind (t : Table) (kind : PageKind) (page : Nat) : Bool := t.kind? page == some kind

/-- The page carries the ring-start marker. -/
def isMarked (t : Table) (page : Nat) : Bool := t.pages[page]?.any (·.status.ringStart)

/-- Replaces what is remembered of a page. -/
def set (t : Table) (index : Nat) (page : Page) : Table :=
  { t with pages := t.pages.setIfInBounds index page }

/-- Adds a page behind the others. -/
def push (t : Table) (page : Page) : Table := { t with pages := t.pages.push page }

/-- The page that records are appended to, if there is one. -/
def active? (t : Table) : Option Nat := if t.isKind .active t.head then some t.head else none

/-- The order of a search: newest page first. -/
def searchOrder (t : Table) : List Nat := ringBackFrom t.count t.head

/-- The first erased page from the head on. -/
def nextErased? (t : Table) : Option Nat := (ringFrom t.count t.head).find? (t.isKind .erased)

/-- The first page that waits for its erase. -/
def pending? (t : Table) : Option Nat := (List.range t.count).find? (t.isKind .unavailable)

/-- The next page around the ring that is not erased. -/
def successor? (t : Table) (page : Nat) : Option Nat :=
  (ringFrom t.count page).tail.find? fun next => !t.isKind .erased next

/-- Of the pages around the ring, the last one that satisfies a test. -/
def lastInRing? (t : Table) (test : Nat → Bool) : Option Nat :=
  ((ringFrom t.count t.ringStart).filter test).getLast?

end Table

end RingStore
