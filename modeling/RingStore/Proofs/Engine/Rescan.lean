import RingStore.Proofs.Engine.Boot
import RingStore.Proofs.Engine.Peek

/-!
# Another scan

A flash that a page table mirrors holds nothing that a scan would have to finish: the pages are as their
entries say, and if only one of them carries the marker, there is no stale one.  So another scan only
looks.  It finds the same pages again; of a page that waits for its erase it does not know any more how
far the records reached.

## Main statements

* `Engine.peeks_load`: a scan of such a flash makes no access but reads, and rebuilds the table.
-/

namespace RingStore

/-- What a scan says of a page that the table described before. -/
def Page.rescanned (p : Partition) (entry : Page) : Page :=
  if entry.kind = .unavailable then { entry with used := p.contentSize } else entry

@[simp] theorem Page.status_rescanned (p : Partition) (entry : Page) :
    (entry.rescanned p).status = entry.status := by
  unfold rescanned
  split <;> rfl

@[simp] theorem Page.kind_rescanned (p : Partition) (entry : Page) :
    (entry.rescanned p).kind = entry.kind := congrArg PageStatus.kind (entry.status_rescanned p)

/-- The pages are those of another table, as far as a scan can tell. -/
structure Table.Rescanned (p : Partition) (t t' : Table) : Prop where
  pages : ∀ page : Nat, t'.pages[page]? = t.pages[page]?.map (·.rescanned p)
  ringStart_eq : t'.ringStart = t.ringStart

namespace Table

variable {p : Partition} {t t' : Table}
  (hpages : ∀ page : Nat, t'.pages[page]? = t.pages[page]?.map (·.rescanned p))

include hpages

theorem isMarked_of_rescanned (page : Nat) : t'.isMarked page = t.isMarked page := by
  rw [isMarked, isMarked, hpages]
  cases t.pages[page]? with
  | none => rfl
  | some entry => simp

theorem kind?_of_rescanned (page : Nat) : t'.kind? page = t.kind? page := by
  rw [kind?, kind?, hpages]
  cases t.pages[page]? with
  | none => rfl
  | some entry => simp

theorem holds_of_rescanned (page : Nat) : t'.holds page = t.holds page := by
  rw [holds, holds, kind?_of_rescanned hpages]

theorem count_of_rescanned : t'.count = t.count := by
  have hlast := hpages t.count
  have hlast' := hpages t'.count
  simp only [count] at *
  rw [Array.getElem?_eq_none (Nat.le_refl _), Option.map_none, Array.getElem?_eq_none_iff] at hlast
  rw [Array.getElem?_eq_none (Nat.le_refl _), eq_comm, Option.map_eq_none_iff,
    Array.getElem?_eq_none_iff] at hlast'
  omega

omit hpages

theorem Rescanned.sameMarkers (h : t.Rescanned p t') : t.SameMarkers t' :=
  ⟨isMarked_of_rescanned h.pages, h.ringStart_eq⟩

/-- The records of a page that waits for its erase are taken to fill it, as a scan does. -/
def UsedUp (p : Partition) (t : Table) : Prop :=
  ∀ (page : Nat) (entry : Page), t.pages[page]? = some entry → entry.kind = .unavailable →
    entry.used = p.contentSize

/-- Pages that a scan has found, erased ones apart, are as a scan says. -/
theorem usedUp_of_rescanned (hpages : ∀ page : Nat, t'.pages[page]? = t.pages[page]?.map (·.rescanned p))
    {t'' : Table}
    (h : ∀ page : Nat, t''.pages[page]? = t'.pages[page]? ∨ t''.pages[page]? = some .blank) :
    t''.UsedUp p := by
  intro page entry hentry hkind
  rcases h page with heq | hblank
  · rw [heq, hpages, Option.map_eq_some_iff] at hentry
    obtain ⟨before, -, rfl⟩ := hentry
    rw [Page.kind_rescanned] at hkind
    rw [Page.rescanned, if_pos hkind]
  · rw [hblank] at hentry
    rw [← Option.some.inj hentry] at hkind
    cases hkind

end Table

namespace Partition

open AccessM

variable {p : Partition} {img : Image} {page : Nat} {entry : Page}

/-- The records of a page that is in order are only looked at. -/
theorem peeks_recoverPage (hholds : entry.kind.holdsRecords = true)
    (hdescribes : entry.Describes p.chip.checksum (img.content page))
    (hheld : entry.kind = .full → 0 < entry.live) :
    Peeks p (p.recoverPage page entry.status (img.content page)) img (· = entry) := by
  have hsound := hdescribes.sound hholds
  have hlive := hdescribes.live_eq hholds
  have hclean : (entry.status.kind == .active && !(Log.parse (img.content page)).isClean) = false := by
    by_cases hactive : entry.kind = .active
    · rw [hdescribes.clean hactive, Bool.not_true, Bool.and_false]
    · rw [show (entry.status.kind == .active) = false from beq_eq_false_iff_ne.mpr hactive,
        Bool.false_and]
  have hnonempty : (entry.status.kind == .full &&
      (Log.parse (img.content page)).live p.chip.checksum == 0) = false := by
    by_cases hfull : entry.kind = .full
    · have hpos := hheld hfull
      rw [← hlive, show (entry.live == 0) = false from beq_eq_false_iff_ne.mpr (by omega),
        Bool.and_false]
    · rw [show (entry.status.kind == .full) = false from beq_eq_false_iff_ne.mpr hfull,
        Bool.false_and]
  unfold recoverPage
  dsimp only
  rw [hsound, hclean]
  refine (show Peeks p (([] : List Nat).forM (p.writeTombstone page)) img fun _ => True from
    peeks_pure trivial).bind fun _ _ => ?_
  refine (show Peeks p (p.advanceIf page false entry.status .full) img (· = entry.status) from
    peeks_pure rfl).bind ?_
  rintro _ rfl
  rw [hnonempty]
  refine (show Peeks p (p.advanceIf page false entry.status .unavailable) img (· = entry.status) from
    peeks_pure rfl).bind ?_
  rintro _ rfl
  refine peeks_pure ?_
  rw [← hlive, ← hdescribes.used_eq hholds]

/-- **A page that is in order is only looked at.** -/
theorem peeks_loadPage (hu : p.Usable) (hpage : page < p.pageCount)
    (hstatus : img.status page = some entry.status)
    (hdescribes : entry.Describes p.chip.checksum (img.content page))
    (hheld : entry.kind = .full → 0 < entry.live) :
    Peeks p (p.loadPage page) img (· = entry.rescanned p) := by
  have hkept : entry.kind ≠ .unavailable → entry.rescanned p = entry := fun hkind => if_neg hkind
  unfold loadPage
  refine (peeks_readPage hu hpage).bind ?_
  rintro _ ⟨byte, rfl, hbyte⟩
  dsimp only
  rw [hbyte, hstatus]
  dsimp only
  unfold settlePage
  split
  · next hkind =>
    obtain ⟨hblank, hused, hlive⟩ := hdescribes.blank_of_erased hkind
    rw [if_pos hblank]
    refine peeks_pure ?_
    have hkind : entry.kind = .erased := hkind
    rw [hkept (by rw [hkind]; decide)]
    exact congrArg₂ (Page.mk entry.status) hused.symm hlive.symm
  · next hkind =>
    have hkind : entry.kind = .unavailable := hkind
    refine peeks_pure ?_
    rw [Page.rescanned, if_pos hkind, ← hdescribes.empty hkind]
  · next hkind =>
    have hkind : entry.kind = .active := hkind
    rw [hkept (by rw [hkind]; decide)]
    exact peeks_recoverPage (by rw [hkind]; rfl) hdescribes hheld
  · next hkind =>
    have hkind : entry.kind = .full := hkind
    rw [hkept (by rw [hkind]; decide)]
    exact peeks_recoverPage (by rw [hkind]; rfl) hdescribes hheld

end Partition

namespace Engine

open EngineM RingStore.Partition

variable {p : Partition} {t t' : Table} {img : Image} {fail : Error → Table → Prop}

/-- A scan on its way: the pages that it has passed are those of the table. -/
structure Rescanning (p : Partition) (t : Table) (pages : List Nat) (t' : Table) : Prop where
  count_le : t'.count ≤ p.pageCount
  pages_eq : pages = List.range' t'.count (p.pageCount - t'.count)
  passed : ∀ page < t'.count, t'.pages[page]? = t.pages[page]?.map (·.rescanned p)

theorem peeks_loadNext (hu : p.Usable) (h : t.Mirrors p img) {page : Nat} {rest : List Nat}
    (hscan : Rescanning p t (page :: rest) t') :
    Peeks p (loadNext p page) t' img (fun _ t'' => Rescanning p t rest t'') fail := by
  obtain ⟨hle, hpages, hpassed⟩ := hscan
  obtain ⟨ahead, hahead⟩ : ∃ n, p.pageCount - t'.count = n + 1 := by
    refine ⟨p.pageCount - t'.count - 1, (Nat.sub_add_cancel (Nat.pos_of_ne_zero fun hzero => ?_)).symm⟩
    rw [hzero] at hpages
    cases hpages
  rw [hahead, List.range'_succ] at hpages
  obtain ⟨rfl, rfl⟩ := List.cons.inj hpages
  obtain ⟨entry, hentry⟩ := Table.exists_entry (show t'.count < t.count by rw [h.count_eq]; omega)
  obtain ⟨hstatus, hdescribes⟩ := h.tracks _ entry hentry
  unfold loadNext
  refine (peeks_perform (peeks_loadPage hu (by omega) hstatus hdescribes
    (h.held _ entry hentry))).bind ?_
  rintro _ _ ⟨rfl, rfl⟩
  refine peeks_modify ⟨?_, ?_, fun other hother => ?_⟩
  · rw [Table.count_push]
    omega
  · rw [Table.count_push]
    congr 1
    omega
  · rw [Table.getElem?_push]
    split
    · next heq => rw [heq, hentry, Option.map_some]
    · rw [Table.count_push] at hother
      exact hpassed other (by omega)

theorem peeks_loadAll (hu : p.Usable) (h : t.Mirrors p img) (hempty : t'.pages = #[]) :
    Peeks p ((List.range p.pageCount).forM (loadNext p)) t' img
      (fun _ t'' => ∀ page : Nat, t''.pages[page]? = t.pages[page]?.map (·.rescanned p)) fail := by
  have hcount : t'.count = 0 := by rw [Table.count, hempty]; rfl
  refine (peeks_forM (Rescanning p t) (fun page _ rest t'' => peeks_loadNext hu h)
    ⟨by omega, by rw [hcount, Nat.sub_zero, List.range_eq_range'], fun page hpage => ?_⟩).mono
      (fun _ t'' hscanned page => ?_) fun _ _ hfail => hfail
  · rw [hcount] at hpage
    cases hpage
  · have hlength := congrArg List.length hscanned.pages_eq
    rw [List.length_range', List.length_nil] at hlength
    have hle := hscanned.count_le
    by_cases hpage : page < t''.count
    · exact hscanned.passed page hpage
    · have hend : t.pages.size = p.pageCount := h.count_eq
      have hend' : ¬page < t''.pages.size := hpage
      rw [Array.getElem?_eq_none (by omega), Array.getElem?_eq_none (by
        rw [hend]
        omega)]
      rfl

/-- The page that another scan takes as the start of the ring is the one that was. -/
theorem Leads.eq_ringStart {start : Nat} (hleads : Leads t' start)
    (hordered : t.isMarked t.ringStart = true) (hfirst : t.StartsFirst) (htidy : t.Tidy)
    (hpages : ∀ page : Nat, t'.pages[page]? = t.pages[page]?.map (·.rescanned p)) :
    start = t.ringStart := by
  have hmarked := Table.isMarked_of_rescanned hpages
  have hmark : t.isMarked start = true := hmarked start ▸ hleads.marked
  have hmark' : t'.isMarked t.ringStart = true := (hmarked _).trans hordered
  rcases htidy with honce | hall
  · exact honce start hmark
  · have hheld : t'.holds t.ringStart = true :=
      (Table.holds_of_rescanned hpages _).trans (hall _ hordered)
    refine Nat.le_antisymm ?_ (hfirst start hmark)
    rcases hleads.choice with ⟨-, hleast⟩ | hnone
    · exact hleast _ hmark' hheld
    · exact (hnone _ hmark').2

/-- Another scan finds no marker that is stale. -/
theorem peeks_dropStaleMarker (htidy : t.Tidy) (hmark : t.isMarked page = true)
    (hpages : ∀ page : Nat, t'.pages[page]? = t.pages[page]?.map (·.rescanned p)) :
    Peeks p (dropStaleMarker p t.ringStart page) t' img (fun _ t'' => t'' = t') fail := by
  obtain ⟨entry, hentry, -⟩ :=
    Table.isMarked_iff.mp ((Table.isMarked_of_rescanned hpages page).trans hmark)
  unfold dropStaleMarker
  refine peeks_pageAt_bind hentry ?_
  rw [if_neg]
  · exact peeks_pure rfl
  · rintro ⟨hne, hempty⟩
    rcases htidy with honce | hall
    · exact hne (honce page hmark)
    · have hheld := (Table.holds_of_rescanned hpages page).trans (hall page hmark)
      rw [Table.holds_eq hentry, hempty] at hheld
      cases hheld

/-- The start of the ring is found where it was. -/
theorem peeks_settleRingStart (h : t.Mirrors p img) (hfirst : t.StartsFirst) (htidy : t.Tidy)
    (hpages : ∀ page : Nat, t'.pages[page]? = t.pages[page]?.map (·.rescanned p)) :
    Peeks p (settleRingStart p) t' img
      (fun _ t'' => t'' = { t' with ringStart := t.ringStart }) fail := by
  have hmarked := Table.isMarked_of_rescanned hpages
  have hmem : t.ringStart ∈ (List.range t'.count).filter t'.isMarked := by
    obtain ⟨entry, hentry, -⟩ := Table.isMarked_iff.mp h.ordered.marked
    refine List.mem_filter.mpr
      ⟨List.mem_range.mpr (Table.count_of_rescanned hpages ▸ Table.lt_count hentry), ?_⟩
    rw [hmarked]
    exact h.ordered.marked
  unfold settleRingStart
  refine peeks_get_bind ?_
  dsimp only
  split
  · next hnone =>
    rw [List.head?_eq_none_iff.mp (Option.or_eq_none_iff.mp hnone).2] at hmem
    cases hmem
  · next start hsome =>
    obtain rfl := (leads_of_eq_some hsome).eq_ringStart h.ordered.marked hfirst htidy hpages
    refine (peeks_forM (fun _ t'' => t'' = t') ?_ rfl).bind ?_
    · rintro page hpage rest _ rfl
      exact peeks_dropStaleMarker htidy ((hmarked page).symm.trans (List.mem_filter.mp hpage).2) hpages
    · rintro _ _ rfl
      exact peeks_modify rfl

/-- A single active page stays the head. -/
theorem peeks_settleHead
    (hsole : ∀ page other, t.isKind .active page = true → t.isKind .active other = true →
      other = page) :
    Peeks p (settleHead p) t img
      (fun _ t' => t'.pages = t.pages ∧ t'.ringStart = t.ringStart) fail := by
  unfold settleHead
  refine peeks_get_bind ?_
  dsimp only
  refine (peeks_forM (fun _ t' => t' = t) ?_ rfl).bind ?_
  · rintro page hpage rest _ rfl
    obtain ⟨entry, hentry⟩ := Table.exists_entry (List.mem_range.mp hpage)
    unfold closeOther
    refine peeks_pageAt_bind hentry ?_
    rw [if_neg]
    · exact peeks_pure rfl
    · rintro ⟨hkind, hother⟩
      have hactive : _ = true := Table.isKind_iff.mpr ⟨entry, hentry, hkind⟩
      exact hother (lastInRing?_eq_some (List.mem_range.mp hpage) hactive fun other =>
        hsole page other hactive)
  · rintro _ _ rfl
    exact peeks_modify ⟨rfl, rfl⟩

/-- At most one of the pages that another scan finds is active. -/
theorem sole_of_rescanned (h : t.Mirrors p img)
    (hpages : ∀ page : Nat, t'.pages[page]? = t.pages[page]?.map (·.rescanned p)) (page other : Nat)
    (hactive : t'.isKind .active page = true) (hother : t'.isKind .active other = true) :
    other = page := by
  have hhead : ∀ page, t'.isKind .active page = true → page = t.head := by
    intro page hkind
    rw [Table.isKind, Table.kind?_of_rescanned hpages] at hkind
    obtain ⟨entry, hentry, hkind⟩ := Table.isKind_iff.mp hkind
    exact h.ordered.eq_head page entry hentry hkind
  rw [hhead page hactive, hhead other hother]

/-- **Another scan only looks** if no page is marked in vain, and finds the pages as they were. -/
theorem peeks_load (hu : p.Usable) (h : t.Mirrors p img) (hfirst : t.StartsFirst) (htidy : t.Tidy)
    (before : Table) : Peeks p (load p) before img (fun _ t' => t.Rescanned p t') fail := by
  unfold load
  refine peeks_modify_bind ((peeks_loadAll hu h rfl).bind fun _ t₁ hpages => ?_)
  refine (peeks_settleRingStart h hfirst htidy hpages).bind ?_
  rintro _ _ rfl
  have hhead : Peeks p (settleHead p) { t₁ with ringStart := t.ringStart } img _ fail :=
    peeks_settleHead (sole_of_rescanned h hpages)
  refine hhead.mono ?_ fun _ _ hfail => hfail
  rintro _ t₂ ⟨hsame, hstart⟩
  exact ⟨by rw [hsame]; exact hpages, hstart⟩

/-- **Another scan leaves no page that is marked in vain**, and takes the records of a page that waits for
its erase to fill it. -/
theorem ensures_rescan (hu : p.Usable) (h : t.Mirrors p img) (before : Table) :
    Ensures p .reliable (p.Secure .reliable False fun _ => True) (load p) before img
      (fun _ t' img' => t'.Mirrors p img' ∧ t'.StartsFirst ∧ t'.Tidy ∧ t'.UsedUp p) noError := by
  unfold load
  refine ensures_modify_bind ?_
  have hrobust := p.robust_secure .reliable False fun _ => True
  refine ((ensures_loadAll hu (by nofun) hrobust (fun _ _ _ _ _ hpage hunfinished hinv =>
    hinv.mends hpage hunfinished) rfl).and_peeks (peeks_loadAll hu h rfl)).bind ?_
  rintro _ t₁ img₁ ⟨hscanned, hpages⟩
  have hmarked : img.Marked p.pageCount := by
    obtain ⟨entry, hentry, hring⟩ := Table.isMarked_iff.mp h.ordered.marked
    exact ⟨_, h.count_eq ▸ Table.lt_count hentry, _, (h.tracks _ entry hentry).1, hring⟩
  refine (ensures_settleRingStart False hu hrobust hscanned fun _ hunmarked =>
    ensures_format hu hscanned.count_eq hscanned.reflects.tracks hunmarked
      (Or.inr fun _ => trivial)).bind ?_
  rintro _ t₂ img₂ ⟨hsettled, -, -, htrimmed⟩
  have htrimmed := htrimmed hmarked
  have hsole : ∀ page other, t₂.isKind .active page = true → t₂.isKind .active other = true →
      other = page := by
    intro page other hactive hother
    rw [htrimmed.active] at hactive hother
    exact sole_of_rescanned h hpages page other hactive hother
  refine ((ensures_settleHead hu hrobust hsettled).and_peeks (peeks_settleHead hsole)).weaken ?_
  rintro _ t₃ img₃ ⟨⟨hmirrors, -, hmarkers, -⟩, hsame, -⟩
  have hused : t₂.UsedUp p :=
    Table.usedUp_of_rescanned hpages fun page => (htrimmed.entries page).imp_right And.right
  refine ⟨hmirrors, hmarkers.startsFirst hsettled.first, ?_, fun page entry hentry =>
    hused page entry (hsame ▸ hentry)⟩
  exact hsettled.tidy.imp hmarkers.markedOnce fun hall page hmark => by
    rw [Table.holds, Table.kind?, hsame]
    exact hall page (hmarkers.marked page ▸ hmark)

end Engine

end RingStore
