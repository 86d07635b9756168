import RingStore.Proofs.Holdings
import RingStore.Proofs.Mirror

/-!
# What is left when a lookup drops records

A lookup drops records one by one.  Each time it clears the two bytes of a key, counts the record off in
the page table, and sets a full page aside that holds no live record any more.  `Partition.Thinned` says
that nothing else has changed between two states.  It relates the tables and the contents to the live
records in the two states only, so it does not matter which records were dropped, or in which order.

## Main statements

* `Partition.Thinned.trans`: what was dropped in two goes was dropped in one.
* `Partition.Thinned.dropped`: a single record.
-/

namespace RingStore

open RingStore.Partition (Holdings)

/-- The entry of a page on which these live records are left. -/
def Page.thinned (entry : Page) (records : List (Nat × Record)) : Page :=
  if entry.kind = .full ∧ records = [] then
    { entry with status := entry.status.withKind .unavailable, live := 0 }
  else { entry with live := records.length }

namespace Page

variable {entry : Page} {records left : List (Nat × Record)}

@[simp] theorem live_thinned : (entry.thinned records).live = records.length := by
  unfold thinned
  split
  · next hempty => simp [hempty.2]
  · rfl

/-- The count of the entry does not matter. -/
theorem thinned_withLive (live : Nat) :
    Page.thinned { entry with live } records = entry.thinned records := rfl

theorem thinned_thinned (h : records = [] → left = []) :
    (entry.thinned records).thinned left = entry.thinned left := by
  by_cases hempty : entry.kind = .full ∧ records = []
  · have hfirst : entry.thinned records =
        { entry with status := entry.status.withKind .unavailable, live := 0 } := if_pos hempty
    have hlast : entry.thinned left =
        { entry with status := entry.status.withKind .unavailable, live := 0 } :=
      if_pos ⟨hempty.1, h hempty.2⟩
    rw [hlast, hfirst, h hempty.2]
    exact if_neg fun hfull => nomatch hfull.1
  · have hfirst : entry.thinned records = { entry with live := records.length } := if_neg hempty
    rw [hfirst]
    exact thinned_withLive _

end Page

namespace Table

/-- The pages have these live records left, and nothing else has changed. -/
structure Thins (L' : Holdings) (t t' : Table) : Prop where
  pages : ∀ page : Nat, t'.pages[page]? = t.pages[page]?.map (·.thinned (L' page))
  head_eq : t'.head = t.head
  ringStart_eq : t'.ringStart = t.ringStart

variable {p : Partition} {t t' : Table} {img : Image} {L' : Holdings} {page : Nat} {entry : Page}

/-- The entry of a page from which nothing was dropped. -/
theorem Tracks.thinned_eq (h : t.Tracks p img) (hcount : t.count = p.pageCount)
    (hentry : t.pages[page]? = some entry) (hheld : entry.kind = .full → p.live img page ≠ []) :
    entry.thinned (p.live img page) = entry := by
  rw [Page.thinned, if_neg fun hempty => hheld hempty.1 hempty.2, ← h.length_live hcount hentry]

theorem Mirrors.thins (h : t.Mirrors p img) : t.Thins (p.live img) t := by
  refine ⟨fun page => ?_, rfl, rfl⟩
  cases hentry : t.pages[page]? with
  | none => rfl
  | some entry =>
    rw [Option.map_some, h.tracks.thinned_eq h.count_eq hentry (h.live_ne_nil hentry)]

/-- The count of one entry does not matter. -/
theorem Thins.of_withLive {live : Nat} (hentry : t.pages[page]? = some entry)
    (h : (t.set page { entry with live }).Thins L' t') : t.Thins L' t' := by
  refine ⟨fun other => ?_, h.head_eq, h.ringStart_eq⟩
  rw [h.pages]
  by_cases heq : other = page
  · subst heq
    rw [getElem?_set_self (lt_count hentry), hentry]
    rfl
  · rw [getElem?_set_of_ne heq]

/-- Of a page that was emptied only the stage has changed. -/
theorem MirrorsBut.thins_unavailable (h : t.MirrorsBut p img page) (hentry : t.pages[page]? = some entry)
    (hfull : entry.kind = .full) (hzero : entry.live = 0) (hlive : p.live img page = []) :
    t.Thins (p.live img)
      (t.set page { entry with status := entry.status.withKind .unavailable }) := by
  refine ⟨fun other => ?_, rfl, rfl⟩
  by_cases heq : other = page
  · subst heq
    rw [getElem?_set_self (lt_count hentry), hentry, Option.map_some, Page.thinned,
      if_pos ⟨hfull, hlive⟩, hzero]
  · rw [getElem?_set_of_ne heq]
    cases he : t.pages[other]? with
    | none => rfl
    | some e => rw [Option.map_some, h.tracks.thinned_eq h.count_eq he (h.live_ne_nil heq he)]

end Table

namespace Partition

/-- The byte is one of the key of a record that is live in the one case and not in the other. -/
def Struck (L L' : Holdings) (page i : Nat) : Prop :=
  ∃ entry ∈ L page, entry ∉ L' page ∧ entry.1 + keyOffset ≤ i ∧ i < entry.1 + headerSize

/-- Records were dropped, and nothing else has changed. -/
structure Thinned (p : Partition) (t : Table) (img : Image) (t' : Table) (img' : Image) : Prop
    extends Table.Thins (p.live img') t t' where
  mem : ∀ page entry, entry ∈ p.live img' page → entry ∈ p.live img page
  struck : ∀ page i, Struck (p.live img) (p.live img') page i →
    (img'.content page)[i]? = (img.content page)[i]?.map fun _ => 0
  kept : ∀ page i, ¬Struck (p.live img) (p.live img') page i →
    (img'.content page)[i]? = (img.content page)[i]?

variable {p : Partition} {t t₁ t' : Table} {img img₁ img' : Image} {page offset i : Nat}

/-- Nothing was dropped. -/
theorem Thinned.refl (h : t.Mirrors p img) : p.Thinned t img t img := by
  refine ⟨h.thins, fun _ _ hentry => hentry, fun page i => ?_, fun _ _ _ => rfl⟩
  rintro ⟨entry, hmem, hgone, -⟩
  exact absurd hmem hgone

/-- **What was dropped in two goes was dropped in one.** -/
theorem Thinned.trans (h : p.Thinned t img t₁ img₁) (h' : p.Thinned t₁ img₁ t' img') :
    p.Thinned t img t' img' := by
  -- A byte is struck in one of the two goes, and a byte that is struck already stays zero.
  have hstruck : ∀ page i, Struck (p.live img) (p.live img') page i ↔
      Struck (p.live img) (p.live img₁) page i ∨ Struck (p.live img₁) (p.live img') page i := by
    intro page i
    constructor
    · rintro ⟨entry, hmem, hgone, hrange⟩
      by_cases hmid : entry ∈ p.live img₁ page
      · exact Or.inr ⟨entry, hmid, hgone, hrange⟩
      · exact Or.inl ⟨entry, hmem, hmid, hrange⟩
    · rintro (⟨entry, hmem, hgone, hrange⟩ | ⟨entry, hmem, hgone, hrange⟩)
      · exact ⟨entry, hmem, fun hlast => hgone (h'.mem page entry hlast), hrange⟩
      · exact ⟨entry, h.mem page entry hmem, hgone, hrange⟩
  refine ⟨⟨fun page => ?_, h'.head_eq.trans h.head_eq, h'.ringStart_eq.trans h.ringStart_eq⟩,
    fun page entry hentry => h.mem page entry (h'.mem page entry hentry), fun page i hs => ?_,
    fun page i hs => ?_⟩
  · rw [h'.pages, h.pages, Option.map_map]
    refine congrArg (fun f => Option.map f t.pages[page]?) (funext fun entry => ?_)
    refine Page.thinned_thinned fun hnil => List.eq_nil_iff_forall_not_mem.mpr fun e he => ?_
    have hmid := h'.mem page e he
    rw [hnil] at hmid
    cases hmid
  · by_cases hlate : Struck (p.live img₁) (p.live img') page i
    · rw [h'.struck page i hlate]
      by_cases hearly : Struck (p.live img) (p.live img₁) page i
      · rw [h.struck page i hearly, Option.map_map]
        rfl
      · rw [h.kept page i hearly]
    · rw [h'.kept page i hlate, h.struck page i (((hstruck page i).mp hs).resolve_right hlate)]
  · obtain ⟨hearly, hlate⟩ := not_or.mp (mt (hstruck page i).mpr hs)
    rw [h'.kept page i hlate, h.kept page i hearly]

/-- The bytes of a record that is dropped. -/
theorem struck_without {L : Holdings} {record : Record} {other : Nat}
    (hmem : (offset, record) ∈ L page) :
    Struck L (L.without ⟨page, offset⟩) other i ↔
      other = page ∧ offset + keyOffset ≤ i ∧ i < offset + headerSize := by
  constructor
  · rintro ⟨entry, hentry, hgone, hrange⟩
    rw [Holdings.mem_without, not_and_not_right] at hgone
    obtain ⟨rfl, rfl⟩ := Location.mk.inj (hgone hentry)
    exact ⟨rfl, hrange⟩
  · rintro ⟨rfl, hrange⟩
    exact ⟨(offset, record), hmem, fun hlast => (Holdings.mem_without.mp hlast).2 rfl, hrange⟩

/-- A tombstone clears the two bytes of a key and no others. -/
theorem getElem?_tombstone (content : Bytes) (offset i : Nat) :
    (programmed content (offset + keyOffset) tombstoneBytes)[i]? =
      if offset + keyOffset ≤ i ∧ i < offset + headerSize then content[i]?.map fun _ => 0
      else content[i]? := by
  have hlength : tombstoneBytes.length = 2 := rfl
  rw [getElem?_programmed]
  split
  · next hin =>
    have hzero : Cells.byteAt (offset + keyOffset) tombstoneBytes i = 0 := by
      obtain ⟨j, rfl⟩ := Nat.exists_eq_add_of_le hin.1
      have hj : j = 0 ∨ j = 1 := by
        rw [keyOffset, headerSize] at hin
        omega
      rcases hj with rfl | rfl <;> simp [Cells.byteAt, tombstoneBytes, tombstoneKey, littleEndian]
    simp [hzero]
  · next hout =>
    have hones : Cells.byteAt (offset + keyOffset) tombstoneBytes i = 0xFF := by
      rcases Nat.lt_or_ge i (offset + keyOffset) with hlt | hge
      · exact Cells.byteAt_of_lt _ hlt
      · refine Cells.byteAt_of_le ?_
        rw [hlength]
        rw [keyOffset, headerSize] at *
        omega
    simp [hones, Cells.and_ones]

/-- **A single record was dropped.** -/
theorem Thinned.dropped {record : Record} (hmem : (offset, record) ∈ p.live img page)
    (hsame : img'.content = (img.setContent page
      (programmed (img.content page) (offset + keyOffset) tombstoneBytes)).content)
    (hlive : p.live img' = (p.live img).without ⟨page, offset⟩)
    (hthins : t.Thins (p.live img') t') : p.Thinned t img t' img' := by
  have hcontent : ∀ other i, (img'.content other)[i]? =
      if other = page ∧ offset + keyOffset ≤ i ∧ i < offset + headerSize then
        (img.content other)[i]?.map fun _ => 0
      else (img.content other)[i]? := by
    intro other i
    rw [hsame]
    by_cases heq : other = page
    · subst heq
      rw [Image.content_setContent_self, getElem?_tombstone]
      simp
    · rw [Image.content_setContent_of_ne heq]
      simp [heq]
  refine ⟨hthins, fun other e he => ?_, fun other i hs => ?_, fun other i hs => ?_⟩
  · rw [hlive] at he
    exact (Holdings.mem_without.mp he).1
  · rw [hlive, struck_without hmem] at hs
    rw [hcontent, if_pos hs]
  · rw [hlive, struck_without hmem] at hs
    rw [hcontent, if_neg hs]

end Partition

end RingStore
