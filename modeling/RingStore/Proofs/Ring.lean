import Mathlib.Data.List.Perm.Subperm
import RingStore.Table

/-!
# Searches around the ring

The store looks for pages by walking around the ring.  What such a search finds is stated here without
the order of the walk: a page that passes the test, or none of the pages does.

## Main statements

* `Table.exists_of_successor?`, `Table.isKind_of_successor?_eq_none`: the next used page, if there is
  another one.
* `ringBackFrom_perm_range`: a search meets every page once.
-/

namespace RingStore

variable {count start page : Nat}

/-- A walk forward begins with the page it starts at, and then meets all others. -/
theorem mem_tail_ringFrom (h : start < count) :
    page ∈ (ringFrom count start).tail ↔ page < count ∧ page ≠ start := by
  obtain ⟨n, rfl⟩ : ∃ n, count = n + 1 := ⟨count - 1, by omega⟩
  have hcons : ringFrom (n + 1) start = start :: (ringFrom (n + 1) start).tail := by
    rw [ringFrom, List.range_succ_eq_map, List.map_cons, Nat.add_zero, Nat.mod_eq_of_lt h]
    rfl
  have htail : (ringFrom (n + 1) start).tail =
      (List.range n).map fun step => (start + (step + 1)) % (n + 1) := by
    rw [ringFrom, List.range_succ_eq_map, List.map_cons, List.tail_cons, List.map_map]
    rfl
  constructor
  · intro hmem
    refine ⟨lt_of_mem_ringFrom (List.mem_of_mem_tail hmem), ?_⟩
    rw [htail] at hmem
    obtain ⟨step, hstep, rfl⟩ := List.mem_map.mp hmem
    have hlt := List.mem_range.mp hstep
    intro heq
    -- With fewer than `count` steps the walk does not come back to its start.
    by_cases hwrap : start + (step + 1) < n + 1
    · rw [Nat.mod_eq_of_lt hwrap] at heq
      omega
    · rw [Nat.mod_eq_sub_mod (by omega), Nat.mod_eq_of_lt (by omega)] at heq
      omega
  · rintro ⟨hlt, hne⟩
    have hmem : page ∈ ringFrom (n + 1) start := mem_ringFrom hlt
    rw [hcons] at hmem
    exact (List.mem_cons.mp hmem).resolve_left hne

/-- **A walk backward meets every page once.** -/
theorem ringBackFrom_perm_range (count start : Nat) :
    (ringBackFrom count start).Perm (List.range count) := by
  have hsub : List.range count ⊆ ringBackFrom count start := fun page hpage =>
    mem_ringBackFrom (List.mem_range.mp hpage)
  have hlength : (ringBackFrom count start).length ≤ (List.range count).length := by simp
  exact ((List.subperm_of_subset List.nodup_range hsub).perm_of_length_le hlength).symm

theorem nodup_ringBackFrom (count start : Nat) : (ringBackFrom count start).Nodup :=
  (ringBackFrom_perm_range count start).nodup_iff.mpr List.nodup_range

/-- A walk backward begins with the page it starts at. -/
theorem head?_ringBackFrom (h : start < count) : (ringBackFrom count start).head? = some start := by
  obtain ⟨n, rfl⟩ : ∃ n, count = n + 1 := ⟨count - 1, by omega⟩
  rw [ringBackFrom, List.range_succ_eq_map, List.map_cons, List.head?_cons, Nat.sub_zero,
    Nat.add_mod_right, Nat.mod_eq_of_lt h]

/-- The pages behind one come later in the order. -/
theorem idxOf_lt_of_mem {passed rest : List Nat} {other : Nat}
    (hnodup : (passed ++ page :: rest).Nodup) (hother : other ∈ rest) :
    (passed ++ page :: rest).idxOf page < (passed ++ page :: rest).idxOf other := by
  obtain ⟨-, hrest, hdisjoint⟩ := List.nodup_append.mp hnodup
  have hpage : page ∉ passed := fun hmem => hdisjoint page hmem page (by simp) rfl
  have hother' : other ∉ passed := fun hmem => hdisjoint other hmem other (by simp [hother]) rfl
  have hne : page ≠ other := fun heq => (List.nodup_cons.mp hrest).1 (heq ▸ hother)
  rw [List.idxOf_append_of_notMem hpage, List.idxOf_append_of_notMem hother', List.idxOf_cons_self,
    List.idxOf_cons_ne _ hne]
  omega

namespace Table

variable {t : Table} {page next : Nat}

theorem exists_of_isKind_eq_false {kind : PageKind} (h : t.isKind kind page = false)
    (hpage : page < t.count) : ∃ entry, t.pages[page]? = some entry ∧ entry.kind ≠ kind := by
  obtain ⟨entry, hentry⟩ : ∃ entry, t.pages[page]? = some entry :=
    ⟨_, Array.getElem?_eq_getElem hpage⟩
  refine ⟨entry, hentry, fun heq => ?_⟩
  rw [isKind, kind?, hentry, Option.map_some, heq, beq_self_eq_true] at h
  cases h

/-- The next used page is another page and not erased. -/
theorem exists_of_successor? (hpage : page < t.count) (h : t.successor? page = some next) :
    next ≠ page ∧ ∃ entry, t.pages[next]? = some entry ∧ entry.kind ≠ .erased := by
  have hmem := (mem_tail_ringFrom hpage).mp (List.mem_of_find?_eq_some h)
  have hkind := List.find?_some h
  rw [Bool.not_eq_true'] at hkind
  exact ⟨hmem.2, exists_of_isKind_eq_false hkind hmem.1⟩

/-- Without a next used page, all other pages are erased. -/
theorem isKind_of_successor?_eq_none (hpage : page < t.count) (h : t.successor? page = none)
    {other : Nat} (hother : other < t.count) (hne : other ≠ page) :
    t.isKind .erased other = true := by
  have htest := List.find?_eq_none.mp h other ((mem_tail_ringFrom hpage).mpr ⟨hother, hne⟩)
  simpa using htest

end Table

end RingStore
