import RingStore.Engine.Update
import RingStore.Proofs.Engine.Lookup

/-!
# Writing and deleting

A write appends the new value before it drops the old one, and both before it closes the page.  So all
along the way the key has its old value or its new one, and every other key has the value it had.

## Main statements

* `ensures_selectPage`: a page with room is found, or there is no room at all.
* `ensures_writeItem`, `ensures_deleteItem`: what a write and a removal make of the live records.
-/

namespace RingStore

namespace Table

variable {p : Partition} {t : Table} {img : Image} {page : Nat} {entry : Page}

/-- The active page is the head. -/
theorem eq_of_active?_eq_some {active : Nat} (h : t.active? = some active) :
    active = t.head ∧ t.isKind .active active = true := by
  unfold active? at h
  split at h
  · next hkind =>
    obtain rfl := Option.some.inj h
    exact ⟨rfl, hkind⟩
  · cases h

theorem Mirrors.isKind_active_eq_false (h : t.Mirrors p img) (hnone : t.active? = none) (page : Nat) :
    t.isKind .active page = false := by
  by_contra hactive
  rw [Bool.not_eq_false] at hactive
  obtain ⟨entry, hentry, hkind⟩ := isKind_iff.mp hactive
  rw [h.ordered.eq_head page entry hentry hkind] at hactive
  rw [active?, if_pos hactive] at hnone
  cases hnone

/-- An erased page may be opened if no page is active. -/
theorem Mirrors.opened (h : t.Mirrors p img) (hnone : ∀ other, t.isKind .active other = false)
    (hentry : t.pages[page]? = some entry) (hkind : entry.kind = .erased) :
    Mirrors p { t.set page { entry with status := entry.status.withKind .active } with
      head := page } (img.setStatus page (entry.status.withKind .active)) := by
  obtain ⟨hblank, hused, hlive⟩ := (h.tracks page entry hentry).2.blank_of_erased hkind
  have htracks : (t.set page { entry with status := entry.status.withKind .active }).Tracks p
      (img.setStatus page (entry.status.withKind .active)) :=
    h.tracks.setStatus (.of_blank hblank hused hlive)
  have hmarked : ∀ other,
      (t.set page { entry with status := entry.status.withKind .active }).isMarked other =
        t.isMarked other := isMarked_set hentry rfl
  refine ⟨count_set.trans h.count_eq, htracks, ⟨?_, ?_, ?_, ?_⟩, ?_⟩
  · intro other e he hk
    rcases getElem?_set_eq_some he with ⟨rfl, rfl⟩ | ⟨-, he⟩
    · rfl
    · exact absurd hk (kind_ne (hnone other) he)
  · exact Nat.lt_of_lt_of_eq (lt_count hentry) count_set.symm
  · exact (hmarked t.ringStart).trans h.ordered.marked
  · intro erased other herased hmark hother
    obtain ⟨e, he, hk⟩ := isKind_iff.mp herased
    rcases getElem?_set_eq_some he with ⟨rfl, rfl⟩ | ⟨-, he⟩
    · cases hk
    · exact h.ordered.sole erased other (isKind_iff.mpr ⟨e, he, hk⟩)
        ((hmarked erased).symm.trans hmark) ((hmarked other).symm.trans hother)
  · intro other e he hk
    rcases getElem?_set_eq_some he with ⟨rfl, rfl⟩ | ⟨-, he⟩
    · cases hk
    · exact h.held other e he hk

end Table

namespace Engine

open EngineM RingStore.Partition

variable {p : Partition} {conduct : Conduct} {anchored : Prop} {allowed : Holdings → Prop}
  {inv : Image → Prop} {t : Table} {img : Image} {page : Nat} {entry : Page} {key : UInt16}
  {L : Holdings}

/-! ## Finding room -/

/-- No active page has so many bytes free. -/
def Cramped (p : Partition) (needed : Nat) (t : Table) : Prop :=
  ∀ (page : Nat) (entry : Page), t.pages[page]? = some entry → entry.kind = .active →
    p.contentSize < entry.used + needed

/-- No page has so many bytes free, and none can be opened. -/
structure Exhausted (p : Partition) (needed : Nat) (t : Table) : Prop where
  used : ∀ (page : Nat) (entry : Page), t.pages[page]? = some entry →
    entry.kind ≠ .erased ∧ entry.kind ≠ .unavailable
  cramped : Cramped p needed t

/-- There is no room, and nothing was done in looking for it. -/
abbrev exhausted (p : Partition) (needed : Nat) (t : Table) (img : Image) : Post Error :=
  fun error t' img' => error = .outOfSpace ∧ Exhausted p needed t ∧ t' = t ∧ img' = img

/-- A page that may be opened: an erased one, or one that waits for its erase if there is no other. -/
def Vacant (t : Table) (page : Nat) : Prop :=
  t.isKind .erased page = true ∨
    (∀ other, t.isKind .erased other = false) ∧ t.isKind .unavailable page = true

theorem Vacant.exists_entry (h : Vacant t page) :
    ∃ entry, t.pages[page]? = some entry ∧ (entry.kind = .erased ∨ entry.kind = .unavailable) := by
  rcases h with hkind | ⟨-, hkind⟩
  · obtain ⟨entry, hentry, hkind⟩ := Table.isKind_iff.mp hkind
    exact ⟨entry, hentry, Or.inl hkind⟩
  · obtain ⟨entry, hentry, hkind⟩ := Table.isKind_iff.mp hkind
    exact ⟨entry, hentry, Or.inr hkind⟩

/-- An erased page was found, and at most a page that waited for its erase was reclaimed for it. -/
structure Claimed (p : Partition) (t : Table) (img : Image) (target : Nat) (t' : Table)
    (img' : Image) : Prop where
  mirrors : t'.Mirrors p img'
  live_eq : p.live img' = p.live img
  head_eq : t'.head = t.head
  vacant : Vacant t target
  erased : t'.extent? target = some (.erased, 0)
  others : ∀ other, other ≠ target → t'.extent? other = t.extent? other
  once : t.MarkedOnce → t'.MarkedOnce

/-- The same pages are active as before. -/
theorem Claimed.isKind_active {target : Nat} {t' : Table} {img' : Image}
    (h : Claimed p t img target t' img') (other : Nat) :
    t'.isKind .active other = t.isKind .active other := by
  by_cases heq : other = target
  · subst heq
    have hbefore : t.isKind .active other = false := by
      obtain ⟨entry, hentry, hkind | hkind⟩ := h.vacant.exists_entry
      · rw [Table.isKind_eq hentry, hkind]
        rfl
      · rw [Table.isKind_eq hentry, hkind]
        rfl
    rw [hbefore, Table.isKind_of_extent? h.erased]
    rfl
  · exact Table.isKind_congr (h.others other heq) .active

theorem isKind_of_nextErased?_eq_none (hnone : t.nextErased? = none) (page : Nat) :
    t.isKind .erased page = false := by
  by_contra hkind
  rw [Bool.not_eq_false] at hkind
  obtain ⟨entry, hentry, -⟩ := Table.isKind_iff.mp hkind
  exact List.find?_eq_none.mp hnone page (mem_ringFrom (Table.lt_count hentry)) hkind

theorem isKind_of_pending?_eq_none (hnone : t.pending? = none) (page : Nat) :
    t.isKind .unavailable page = false := by
  by_contra hkind
  rw [Bool.not_eq_false] at hkind
  obtain ⟨entry, hentry, -⟩ := Table.isKind_iff.mp hkind
  exact List.find?_eq_none.mp hnone page (List.mem_range.mpr (Table.lt_count hentry)) hkind

/-- **A page is claimed**, unless none is erased or waits for its erase. -/
theorem ensures_claimErased (hu : p.Usable) (h : t.Mirrors p img) {needed : Nat}
    (hcramped : Cramped p needed t) :
    Ensures p conduct (p.Secure conduct anchored allowed) (claimErased p) t img
      (Claimed p t img) (exhausted p needed t img) := by
  unfold claimErased
  refine ensures_get_bind ?_
  split
  · next page hpage =>
    have herased := List.find?_some hpage
    obtain ⟨entry, hentry, hkind⟩ := Table.isKind_iff.mp herased
    have hused := ((h.tracks page entry hentry).2.blank_of_erased hkind).2.1
    refine ensures_pure ⟨h, rfl, rfl, Or.inl herased, ?_, fun _ _ => rfl, id⟩
    rw [Table.extent?_eq hentry, hkind, hused]
  · next hnone =>
    have herased := isKind_of_nextErased?_eq_none hnone
    refine ensures_get_bind ?_
    split
    · next hpending =>
      have hpending := isKind_of_pending?_eq_none hpending
      exact ensures_throw ⟨rfl, ⟨fun page entry hentry => ⟨Table.kind_ne (herased page) hentry,
        Table.kind_ne (hpending page) hentry⟩, hcramped⟩, rfl, rfl⟩
    · next page hpage =>
      have hwaits := List.find?_some hpage
      obtain ⟨entry, hentry, hkind⟩ := Table.isKind_iff.mp hwaits
      have hnil : p.live img page = [] := h.live_eq_nil hentry (by rw [hkind]; decide)
      refine (ensures_reclaim hu (h.but page) hentry (by rw [hkind]; decide) hnil).lift.bind ?_
      intro _ t' img' hreclaimed
      -- The reclaimed page is the only one that is erased now.
      have hkinds : ∀ other, t'.isKind .erased other = true ↔ other = page := by
        intro other
        by_cases heq : other = page
        · rw [heq, Table.isKind_of_extent? hreclaimed.erased]
          exact iff_of_true rfl rfl
        · rw [Table.isKind_congr (hreclaimed.others other heq), herased]
          exact iff_of_false nofun heq
      refine ensures_get_bind ?_
      split
      · next target htarget =>
        obtain rfl := (hkinds target).mp (List.find?_some htarget)
        exact ensures_pure ⟨hreclaimed.mirrors, hreclaimed.live_eq, hreclaimed.head_eq,
          Or.inr ⟨herased, hwaits⟩, hreclaimed.erased, hreclaimed.others, hreclaimed.once⟩
      · next hnone' =>
        have hnot := isKind_of_nextErased?_eq_none hnone' page
        rw [(hkinds page).mpr rfl] at hnot
        cases hnot

/-- What becomes of the stage of a page with these live records when active pages are closed. -/
def retire (records : List (Nat × Record)) (extent : PageKind × Nat) : PageKind × Nat :=
  if extent.1 = .active then (if records = [] then .unavailable else .full, extent.2) else extent

theorem retire_of_ne_active {records : List (Nat × Record)} {extent : PageKind × Nat}
    (h : extent.1 ≠ .active) : retire records extent = extent := if_neg h

/-- The stage that an active page is closed to depends on its live records. -/
theorem closedKind_eq (h : t.Mirrors p img) (hentry : t.pages[page]? = some entry)
    (hactive : entry.kind = .active) :
    (closedKind entry, entry.used) = retire (p.live img page) (entry.kind, entry.used) := by
  rw [retire, if_pos hactive, closedKind]
  simp only [h.tracks.length_live h.count_eq hentry, List.length_eq_zero_iff]

/-- At most one page is active. -/
theorem map_retire_of_ne (h : t.Mirrors p img) (hentry : t.pages[page]? = some entry)
    (hactive : entry.kind = .active) {other : Nat} (hne : other ≠ page) (L : Holdings) :
    (t.extent? other).map (retire (L other)) = t.extent? other := by
  cases he : t.pages[other]? with
  | none => rw [Table.extent?, he]; rfl
  | some e =>
    rw [Table.extent?_eq he, Option.map_some, retire_of_ne_active]
    exact fun hk => hne (h.ordered.eq_of_active hentry hactive he hk)

/-- The active page is closed. -/
theorem ensures_forM_close (hu : p.Usable) (h : t.Mirrors p img) (active : Option Nat)
    (hactive : ∀ page, active = some page → t.isKind .active page = true)
    (hnone : active = none → ∀ page, t.isKind .active page = false) :
    Ensures p conduct (p.Secure conduct anchored allowed) (active.forM (close p)) t img
      (fun _ t' img' => t'.Mirrors p img' ∧ p.live img' = p.live img ∧
        (∀ page, t'.isKind .active page = false) ∧
        (∀ page, t.isKind .erased page = true → t'.pages[page]? = t.pages[page]?) ∧
        (∀ page, t'.extent? page = (t.extent? page).map (retire (p.live img page))) ∧
        (t.MarkedOnce → t'.MarkedOnce)) noError := by
  cases active with
  | none =>
    refine ensures_pure ⟨h, rfl, hnone rfl, fun _ _ => rfl, fun page => ?_, id⟩
    cases he : t.pages[page]? with
    | none => rw [Table.extent?, he]; rfl
    | some e =>
      rw [Table.extent?_eq he, Option.map_some, retire_of_ne_active]
      exact Table.kind_ne (hnone rfl page) he
  | some page =>
    obtain ⟨entry, hentry, hkind⟩ := Table.isKind_iff.mp (hactive page rfl)
    refine (ensures_close hu (p.robust_secure _ _ _) h.count_eq h.tracks hentry hkind).weaken ?_
    rintro _ t' img' ⟨rfl, rfl, htracks, hlive⟩
    have hself : (t.set page { entry with
        status := entry.status.withKind (closedKind entry) }).pages[page]? = some _ :=
      Table.getElem?_set_self (Table.lt_count hentry)
    have hmirrors : (t.set page { entry with
        status := entry.status.withKind (closedKind entry) }).Mirrors p
          (img.setStatus page (entry.status.withKind (closedKind entry))) := by
      refine ((h.but page).set hentry htracks rfl ?_ fun _ =>
        h.ordered.eq_head page entry hentry hkind).mirrors hself ?_
      · exact closedKind_ne_erased entry
      · exact live_pos_of_closedKind_eq_full
    refine ⟨hmirrors, hlive, hmirrors.isKind_active_eq_false ?_, fun other herased => ?_,
      fun other => ?_, fun honce => honce.set fun hring =>
        Table.isMarked_iff.mpr ⟨entry, hentry, hring⟩⟩
    · rw [h.ordered.eq_head page entry hentry hkind] at hself ⊢
      rw [Table.active?, Table.head_set, Table.isKind_eq hself, if_neg]
      show ¬(closedKind entry == .active) = true
      rw [beq_iff_eq]
      exact closedKind_ne_active entry
    · refine Table.getElem?_set_of_ne fun heq => ?_
      subst heq
      rw [Table.isKind_eq hentry, hkind] at herased
      cases herased
    · by_cases heq : other = page
      · subst heq
        rw [Table.extent?_eq hself, Table.extent?_eq hentry, Option.map_some,
          ← closedKind_eq h hentry hkind]
        rfl
      · rw [Table.extent?_set_of_ne heq, map_retire_of_ne h hentry hkind heq]

/-- A vacant page was opened, and the page that was active before was closed. -/
structure Opened (L : Holdings) (page : Nat) (t t' : Table) : Prop where
  vacant : Vacant t page
  self : t'.extent? page = some (.active, 0)
  others : ∀ other, other ≠ page → t'.extent? other = (t.extent? other).map (retire (L other))
  once : t.MarkedOnce → t'.MarkedOnce

/-- A page takes appends, and so many bytes of it are free.  It was active before, or another one was
opened since none had room. -/
structure Selected (p : Partition) (needed : Nat) (t : Table) (img : Image) (page : Nat) (t' : Table)
    (img' : Image) : Prop where
  mirrors : t'.Mirrors p img'
  live_eq : p.live img' = p.live img
  room : ∃ entry, t'.pages[page]? = some entry ∧ entry.kind = .active ∧
    entry.used + needed ≤ p.contentSize
  choice : t' = t ∧ img' = img ∨ Opened (p.live img) page t t' ∧ Cramped p needed t

/-- An erased page takes appends from now on, if no other page does. -/
theorem ensures_openErased (hu : p.Usable) (h : t.Mirrors p img)
    (hclosed : ∀ page, t.isKind .active page = false) (hentry : t.pages[page]? = some entry)
    (hkind : entry.kind = .erased) :
    Ensures p conduct (p.Secure conduct anchored allowed)
      (setStatus p page (entry.status.withKind .active)) t img
      (fun _ t' img' => t' = t.set page { entry with status := entry.status.withKind .active } ∧
        ({ t' with head := page } : Table).Mirrors p img' ∧ p.live img' = p.live img) noError := by
  have hpage : page < p.pageCount := h.count_eq ▸ Table.lt_count hentry
  obtain ⟨hstatus, hdescribes⟩ := h.tracks page entry hentry
  obtain ⟨hblank, -, -⟩ := hdescribes.blank_of_erased hkind
  have hnil : (img.log page).liveRecords p.chip.checksum = [] := by
    rw [Image.log, Log.parse_of_isBlank hblank]
    rfl
  have hlive : p.live (img.setStatus page (entry.status.withKind .active)) = p.live img :=
    Partition.live_setStatus hstatus (Or.inr hnil)
  have hstage : entry.status.kind = .erased := hkind
  have hclear := entry.status.toByte_and_withKind
    (show entry.status.kind.next = .active by rw [hstage]; rfl)
  refine (ensures_setStatus hu h.count_eq hentry hstatus hclear
    fun hinv : p.Secure conduct anchored allowed img => ⟨fun hanchored => ?_, hlive ▸ hinv.allowed,
      fun _ _ => .opened (fun other hother hactive => ?_) hblank⟩).weaken ?_
  · exact (hinv.anchored hanchored).setStatus hpage hstatus (fun hring => hring)
      (fun heq => absurd (congrArg PageStatus.kind heq) (show PageKind.active ≠ .erased by decide))
      (Or.inr h.marked)
  · obtain ⟨status, hstatus', hkind'⟩ := hactive
    obtain ⟨e, he⟩ := Table.exists_entry (h.count_eq ▸ hother)
    have hsame := (h.tracks other e he).1
    rw [hstatus'] at hsame
    refine Table.kind_ne (hclosed other) he ?_
    rw [Page.kind, ← Option.some.inj hsame, hkind']
  · rintro _ _ _ ⟨rfl, rfl⟩
    exact ⟨rfl, h.opened hclosed hentry hkind, hlive⟩

/-- **A vacant page is opened**, unless there is none. -/
theorem ensures_openNext (hu : p.Usable) (h : t.Mirrors p img) {needed : Nat}
    (hneeded : needed ≤ p.contentSize)
    (hcramped : Cramped p needed t) :
    Ensures p conduct (p.Secure conduct anchored allowed) (openNext p t.active?) t img
      (Selected p needed t img) (exhausted p needed t img) := by
  unfold openNext
  refine (ensures_claimErased hu h hcramped).bind ?_
  intro target t₁ img₁ hclaimed
  have hactive : ∀ page, t.active? = some page → t₁.isKind .active page = true := fun page hpage =>
    (hclaimed.isKind_active page).trans (Table.eq_of_active?_eq_some hpage).2
  have hnone : t.active? = none → ∀ page, t₁.isKind .active page = false := fun hnone page =>
    (hclaimed.isKind_active page).trans (h.isKind_active_eq_false hnone page)
  -- The active page is closed only now that there is another one to go on with.
  refine (ensures_forM_close hu hclaimed.mirrors t.active? hactive hnone).lift.bind ?_
  rintro _ t₂ img₂ ⟨hmirrors, hlive, hclosed, hsame, hsealed, honce⟩
  have herased : t₁.isKind .erased target = true := Table.isKind_of_extent? hclaimed.erased
  obtain ⟨entry, hentry, hkind⟩ := Table.isKind_iff.mp herased
  rw [← hsame target herased] at hentry
  have hused : entry.used = 0 :=
    ((hmirrors.tracks target entry hentry).2.blank_of_erased hkind).2.1
  refine ensures_pageAt_bind hentry ?_
  refine (ensures_openErased hu hmirrors hclosed hentry hkind).lift.bind ?_
  rintro _ t₃ img₃ ⟨rfl, hmirrors', hlive'⟩
  have hself : (t₂.set target { entry with status := entry.status.withKind .active }).pages[target]? =
      some _ := Table.getElem?_set_self (Table.lt_count hentry)
  refine ensures_modify_bind (ensures_pure ⟨hmirrors', ?_, ?_,
    Or.inr ⟨⟨hclaimed.vacant, ?_, fun other hne => ?_, fun hmarked => ?_⟩, hcramped⟩⟩)
  · rw [hlive', hlive, hclaimed.live_eq]
  · refine ⟨_, hself, rfl, ?_⟩
    show entry.used + needed ≤ p.contentSize
    rw [hused, Nat.zero_add]
    exact hneeded
  · refine (Table.extent?_eq hself).trans ?_
    show some (PageKind.active, entry.used) = _
    rw [hused]
  · refine (Table.extent?_set_of_ne hne).trans ?_
    rw [hsealed, hclaimed.others other hne, hclaimed.live_eq]
  · exact (honce (hclaimed.once hmarked)).set fun hring =>
      Table.isMarked_iff.mpr ⟨entry, hentry, hring⟩

/-- The active page is taken if it has room. -/
theorem ensures_activeWithRoom (h : t.Mirrors p img) (needed : Nat) :
    Ensures p conduct inv (activeWithRoom p t.active? needed) t img
      (fun found t' img' => t' = t ∧ img' = img ∧
        (∀ page, found = some page → Selected p needed t img page t img) ∧
        (found = none → Cramped p needed t)) noError := by
  unfold activeWithRoom
  cases hactive : t.active? with
  | none =>
    refine ensures_pure ⟨rfl, rfl, nofun, fun _ page entry hentry hkind => ?_⟩
    exact absurd hkind (Table.kind_ne (h.isKind_active_eq_false hactive page) hentry)
  | some page =>
    obtain ⟨hhead, hactive⟩ := Table.eq_of_active?_eq_some hactive
    obtain ⟨entry, hentry, hkind⟩ := Table.isKind_iff.mp hactive
    refine (ensures_freeBytes h.count_eq h.tracks hentry (by rw [hkind]; rfl)).bind ?_
    rintro _ _ _ ⟨rfl, hused, rfl, rfl⟩
    refine ensures_pure ⟨rfl, rfl, fun found hfound => ?_, fun hnone other e he hk => ?_⟩
    · split at hfound
      · next hle =>
        obtain rfl := Option.some.inj hfound
        exact ⟨h, rfl, ⟨entry, hentry, hkind, by omega⟩, Or.inl ⟨rfl, rfl⟩⟩
      · cases hfound
    · split at hnone
      · cases hnone
      · next hlt =>
        rw [h.ordered.eq_head other e he hk, ← hhead, hentry] at he
        rw [← Option.some.inj he]
        omega

/-- **A page with room is found**, unless there is no room at all. -/
theorem ensures_selectPage (hu : p.Usable) (h : t.Mirrors p img) {length : Nat}
    (hlength : headerSize + length ≤ p.contentSize) :
    Ensures p conduct (p.Secure conduct anchored allowed) (selectPage p length) t img
      (Selected p (headerSize + length) t img) (exhausted p (headerSize + length) t img) := by
  unfold selectPage
  refine ensures_get_bind ((ensures_activeWithRoom h _).lift.bind ?_)
  rintro (_ | page) _ _ ⟨rfl, rfl, hfound, hnone⟩
  · exact ensures_openNext hu h hlength (hnone rfl)
  · exact ensures_pure (hfound page rfl)

/-! ## Writing -/

/-- A page is closed if no record fits into it any more. -/
theorem ensures_closeIfFull (hu : p.Usable) (h : t.Mirrors p img)
    (hentry : t.pages[page]? = some entry) :
    Ensures p conduct (p.Secure conduct anchored allowed) (closeIfFull p page) t img
      (fun _ t' img' => t'.Mirrors p img' ∧ p.live img' = p.live img ∧
        t'.extent? page = some (if p.contentSize < entry.used + minRecordSize then
          retire (p.live img page) (entry.kind, entry.used) else (entry.kind, entry.used)) ∧
        (∀ other, other ≠ page → t'.extent? other = t.extent? other) ∧
        (t.MarkedOnce → t'.MarkedOnce)) noError := by
  have hkept := Table.extent?_eq hentry
  unfold closeIfFull
  refine ensures_pageAt_bind hentry ?_
  split
  · next hkind =>
    refine (ensures_freeBytes h.count_eq h.tracks hentry (by rw [hkind]; rfl)).bind ?_
    rintro _ _ _ ⟨rfl, hle, rfl, rfl⟩
    split
    · next hlt =>
      refine (ensures_forM_close hu h (some page) ?_ nofun).weaken ?_
      · intro other hother
        rw [← Option.some.inj hother]
        exact Table.isKind_iff.mpr ⟨entry, hentry, hkind⟩
      · rintro _ t' img' ⟨hmirrors, hlive, -, -, hsealed, honce⟩
        refine ⟨hmirrors, hlive, ?_, fun other hne => ?_, honce⟩
        · rw [hsealed, hkept, Option.map_some, if_pos (by omega)]
        · rw [hsealed, map_retire_of_ne h hentry hkind hne]
    · next hge =>
      refine ensures_pure ⟨h, rfl, ?_, fun _ _ => rfl, id⟩
      rw [hkept, if_neg (by omega)]
  · next hkind =>
    refine ensures_pure ⟨h, rfl, ?_, fun _ _ => rfl, id⟩
    rw [hkept, retire_of_ne_active hkind, ite_self]

/-- A write was refused or found no room.  In either case all keys keep their values. -/
def unwritten (reason : Prop) (needed : Nat) (key : UInt16) (p : Partition) (t : Table) (img : Image) :
    Post Error := fun error t' img' => refused reason t img error t' img' ∨
  error = .outOfSpace ∧ Exhausted p needed t' ∧ ∃ v, Settled p (p.live img) key v t' img'

/-- Live records lie within the records of their page. -/
theorem offset_add_le_used (h : t.Mirrors p img) (hentry : t.pages[page]? = some entry)
    {e : Nat × Record} (hlive : e ∈ p.live img page) : e.1 + headerSize ≤ entry.used := by
  obtain ⟨entry', before, after, hentry', hholds, hrecords, hoffset, -⟩ := exists_record h hlive
  obtain rfl := Option.some.inj (hentry.symm.trans hentry')
  rw [(h.tracks page entry hentry).2.used_eq hholds, ← Image.log, hoffset]
  exact Log.span_add_le_used hrecords

/-- A record that is appended begins behind all live ones of its page. -/
theorem offset_lt_used (h : t.Mirrors p img) (hentry : t.pages[page]? = some entry) (e : Nat × Record)
    (hlive : e ∈ p.live img page) : e.1 < entry.used :=
  Nat.lt_of_lt_of_le (Nat.lt_add_of_pos_right (by decide)) (offset_add_le_used h hentry hlive)

/-- So many bytes were appended to a page, which is closed if it is full now, and a record was dropped. -/
structure Stowed (p : Partition) (needed page : Nat) (entry : Page) (L' : Holdings) (t t' : Table) :
    Prop where
  self : t'.extent? page = some
    (if p.contentSize < entry.used + needed + minRecordSize then .full else .active,
      entry.used + needed)
  others : ∀ other, other ≠ page →
    t'.extent? other = (t.extent? other).map (fade .immediate (L' other))
  once : t.MarkedOnce → t'.MarkedOnce

/-- The last step of a write closes the page if no record fits into it any more. -/
theorem ensures_closeStowed (hu : p.Usable) {needed : Nat} {entry' : Page} {t₁ : Table}
    {img₁ : Image} (hentry : t.pages[page]? = some entry) (hactive : entry.kind = .active)
    (hstatus : entry'.status = entry.status) (hused : entry'.used = entry.used + needed)
    (hmirrors : t₁.Mirrors p img₁) (hfaded : Faded .immediate (p.live img₁) (t.set page entry') t₁)
    (hnew : p.live img₁ page ≠ []) :
    Ensures p conduct (p.Secure conduct anchored allowed) (closeIfFull p page) t₁ img₁
      (fun _ t' img' => t'.Mirrors p img' ∧ p.live img' = p.live img₁ ∧
        Stowed p needed page entry (p.live img') t t') noError := by
  have hkind : entry'.kind = .active := by rw [Page.kind, hstatus]; exact hactive
  have hextent : t₁.extent? page = some (.active, entry.used + needed) := by
    rw [hfaded.extents, Table.extent?_set_self (Table.lt_count hentry), Option.map_some, hkind, hused,
      fade_of_ne_full (show PageKind.active ≠ .full by decide)]
  obtain ⟨e, he, heq⟩ := Option.map_eq_some_iff.mp hextent
  obtain ⟨hstage, htaken⟩ := Prod.mk.inj heq
  refine (ensures_closeIfFull hu hmirrors he).weaken ?_
  rintro _ t' img' ⟨hmirrors', hlive, hself, hothers, honce⟩
  refine ⟨hmirrors', hlive, ?_, fun other hne => ?_, fun hmarked => honce (hfaded.once ?_)⟩
  · rw [hself, hstage, htaken, retire, if_pos rfl, if_neg hnew]
    split <;> rfl
  · rw [hothers other hne, hfaded.extents, Table.extent?_set_of_ne hne, hlive]
  · exact hmarked.set fun hring => Table.isMarked_iff.mpr ⟨entry, hentry, hstatus ▸ hring⟩

/-- What a lookup has left for a write of its key: the copy that it found and no other. -/
structure Cleared (L : Holdings) (key : UInt16) (old : Option Found) (L₁ : Holdings) : Prop where
  stored : L.Stored key (old.map (·.payload))
  update : L.Update key (old.map (·.payload)) L₁
  found : ∀ f, old = some f → ∃ record, L₁.Copy key f.location.page (f.location.offset, record)
  copies : ∀ page e, L₁.Copy key page e → L.Copy key page e
  sole : ∀ page e, L.Sole key page e → L₁.Copy key page e

theorem Settled.cleared {order : List Nat} {old : Option Found}
    (h : Settled p L key (old.map (·.payload)) t img) (hsighted : Sighted L key order old (p.live img)) :
    Cleared L key old (p.live img) :=
  ⟨h.stored, h.update, hsighted.found, fun _ _ => hsighted.copies, fun _ _ => hsighted.sole⟩

namespace Cleared

variable {L₁ L' : Holdings} {old : Option Found} {f : Found} {r : Record} {checksum : Checksum}
  {offset : Nat} {payload : Bytes}

theorem between (h : Cleared L key old L₁) (fresh : Option Bytes → Prop) : L.Between key fresh L₁ :=
  h.update.between (Or.inl h.stored)

theorem between_added (h : Cleared L key old L₁) :
    L.Between key (· = some payload) (L₁.added page offset (.ofPayload checksum key payload)) := by
  have hkey : (Record.ofPayload checksum key payload).header.key = key := rfl
  exact (h.between _).trans (Holdings.between_added hkey)

/-- The new copy is there. -/
theorem renewed_added (h : Cleared L key old L₁) (hlast : ∀ e ∈ L₁ page, e.1 ≤ offset) :
    L.Renewed conduct checksum key payload
      (L₁.added page offset (.ofPayload checksum key payload)) :=
  ⟨.whole h.between_added, Holdings.extended_added h.copies hlast,
    fun other e he => Or.inl ((h.sole other e he).added page offset _)⟩

/-- A part of the new copy is there. -/
theorem renewed_cut (h : Cleared L key old L₁) (hlast : ∀ e ∈ L₁ page, e.1 ≤ offset)
    (hnew : old.map (·.payload) ≠ some payload) (hconduct : conduct = .splitting) {count : Nat}
    (hcut : ((Record.ofPayload checksum key payload).cut count).isLive checksum = true) :
    L.Renewed conduct checksum key payload
      (L₁.added page offset ((Record.ofPayload checksum key payload).cut count)) := by
  have hstored : ¬L₁.Stored key (some payload) := fun hstored =>
    hnew (h.update.eq_of_stored hstored).symm
  exact ⟨.cut hconduct (h.between _) rfl hstored hcut rfl, Holdings.extended_added h.copies hlast,
    fun other e he => Or.inl ((h.sole other e he).added page offset _)⟩

/-- The old copy may be dropped once the new one is there, which lies behind all other records of its
page. -/
theorem exists_replaced (h : Cleared L key (some f) L₁) (hL : L₁.Distinct)
    (hlast : ∀ e ∈ L₁ page, e.1 < offset) :
    ∃ r, L₁.Copy key f.location.page (f.location.offset, r) ∧
      (⟨page, offset⟩ : Location) ≠ f.location ∧
      L.Update key (some payload)
        ((L₁.added page offset (.ofPayload checksum key payload)).without f.location) := by
  obtain ⟨r, hcopy⟩ := h.found f rfl
  have hne : (⟨page, offset⟩ : Location) ≠ f.location := by
    intro heq
    rw [← heq] at hcopy
    exact Nat.lt_irrefl _ (hlast _ hcopy.1)
  have hkey : (Record.ofPayload checksum key payload).header.key = key := rfl
  exact ⟨r, hcopy, hne, h.update.replaced hL hkey hcopy hne⟩

/-- The old copy is gone. -/
theorem renewed_without (h : Cleared L key old L₁) (hlast : ∀ e ∈ L₁ page, e.1 ≤ offset)
    (hupdate : L.Update key (some payload)
      ((L₁.added page offset (.ofPayload checksum key payload)).without f.location)) :
    L.Renewed conduct checksum key payload
      ((L₁.added page offset (.ofPayload checksum key payload)).without f.location) :=
  ⟨.whole (hupdate.between (Or.inr rfl)),
    (Holdings.extended_added h.copies hlast).mono fun _ _ he =>
      ⟨(Holdings.mem_without.mp he.1).1, he.2⟩,
    fun _ _ _ => Or.inr hupdate.stored⟩

/-- The tombstone of the old copy is torn. -/
theorem renewed_scratched (h : Cleared L key old L₁) (hlast : ∀ e ∈ L₁ page, e.1 ≤ offset)
    (hcopy : L₁.Copy key f.location.page (f.location.offset, r))
    (hupdate : L.Update key (some payload)
      ((L₁.added page offset (.ofPayload checksum key payload)).without f.location))
    (hconduct : conduct = .splitting) {half : UInt16} (hhalf : Key.IsHalf r.header.key half)
    (hrekeyed :
      (L₁.added page offset (.ofPayload checksum key payload)).Rekeyed f.location r half L') :
    L.Renewed conduct checksum key payload L' :=
  ⟨.scratched hconduct h.between_added (h.copies _ _ hcopy)
      (hcopy.2 ▸ hhalf) hrekeyed,
    (Holdings.extended_added h.copies hlast).mono fun _ _ =>
      hrekeyed.copy (hcopy.added page offset _),
    fun _ _ _ => Or.inr (hrekeyed.stored_of_without hupdate.stored)⟩

end Cleared

/-- An append to the active page keeps the table a mirror of the flash. -/
theorem ensures_appendRecord (hu : p.Usable) (h : t.Mirrors p img) {payload : Bytes}
    (hkey : isValidKey key = true) (hne : payload ≠ []) (hlength : payload.length ≤ maxPayloadLength)
    (hentry : t.pages[page]? = some entry) (hactive : entry.kind = .active)
    (hroom : entry.used + (headerSize + payload.length) ≤ p.contentSize)
    (hallowed : conduct ≠ .tearing → allowed
      ((p.live img).added page entry.used (.ofPayload p.chip.checksum key payload)))
    (hcut : conduct = .splitting → ∀ count,
      ((Record.ofPayload p.chip.checksum key payload).cut count).isLive p.chip.checksum = true →
        allowed ((p.live img).added page entry.used
          ((Record.ofPayload p.chip.checksum key payload).cut count))) :
    Ensures p conduct (p.Secure conduct anchored allowed) (append p page key payload) t img
      (fun _ t' img' => ∃ entry' : Page, t' = t.set page entry' ∧ entry'.status = entry.status ∧
        entry'.used = entry.used + (headerSize + payload.length) ∧ t'.Mirrors p img' ∧
        p.live img' =
          (p.live img).added page entry.used (.ofPayload p.chip.checksum key payload)) noError := by
  refine (ensures_append hu h.count_eq h.tracks hentry hactive hkey hne hlength hroom hallowed
    hcut).weaken ?_
  rintro _ t' img' ⟨rfl, htracks, hlive⟩
  refine ⟨_, rfl, rfl, rfl, ?_, hlive⟩
  have hkind : entry.kind ≠ .erased ∧ entry.kind ≠ .full := by rw [hactive]; decide
  exact ((h.but page).set hentry htracks rfl hkind.1 (h.ordered.eq_head page entry hentry)).mirrors
    (Table.getElem?_set_self (Table.lt_count hentry)) fun hfull => absurd hfull hkind.2

/-- **The old copy is dropped** once the new one is there, if there is an old one. -/
theorem ensures_dropOld (hu : p.Usable) (h : t.Mirrors p img) {L₁ : Holdings} {old : Option Found}
    {payload : Bytes} {offset : Nat} (hcleared : Cleared L key old L₁) (hL : L₁.Distinct)
    (hlast : ∀ e ∈ L₁ page, e.1 < offset)
    (hlive : p.live img = L₁.added page offset (.ofPayload p.chip.checksum key payload))
    (hallowed : ∀ L', L.Renewed conduct p.chip.checksum key payload L' →
      conduct ≠ .tearing → allowed L') :
    Ensures p conduct (p.Secure conduct anchored allowed)
      (old.forM fun item => drop p item.location .immediate) t img
      (fun _ t' img' => t'.Mirrors p img' ∧ L.Update key (some payload) (p.live img') ∧
        (∃ e, (p.live img').Copy key page e) ∧ Faded .immediate (p.live img') t t')
      noError := by
  have hkey : (Record.ofPayload p.chip.checksum key payload).header.key = key := rfl
  have hadded : (p.live img).Copy key page (offset, .ofPayload p.chip.checksum key payload) := by
    rw [hlive]
    exact ⟨Holdings.mem_added.mpr (Or.inr ⟨rfl, rfl⟩), hkey⟩
  cases old with
  | none =>
    have hupdate := hcleared.update.added hkey page offset
    exact ensures_pure ⟨h, hlive ▸ hupdate, ⟨_, hadded⟩, .refl h⟩
  | some f =>
    obtain ⟨r, hcopy, hne, hupdate⟩ := hcleared.exists_replaced hL hlast
    have hle : ∀ e ∈ L₁ page, e.1 ≤ offset := fun e he => Nat.le_of_lt (hlast e he)
    refine (ensures_drop hu h f.location .immediate (hlive ▸ (hcopy.added page offset _).1)
      (hlive ▸ hallowed _ (hcleared.renewed_without hle hupdate)) ?_).weaken ?_
    · rw [hlive]
      exact fun hconduct half hhalf L' hrekeyed => hallowed L'
        (hcleared.renewed_scratched hle hcopy hupdate hconduct hhalf hrekeyed)
        (Conduct.ne_tearing hconduct)
    · intro _ t' img' hdropped
      refine ⟨hdropped.mirrors, ?_, ?_, hdropped.faded⟩
      · rw [hdropped.live_eq, hlive]
        exact hupdate
      · rw [hdropped.live_eq]
        exact ⟨_, Holdings.mem_without.mpr ⟨hadded.1, hne⟩, hadded.2⟩

/-- The last steps of a write: the new copy is appended before the old one is dropped. -/
theorem ensures_store (hu : p.Usable) (h : t.Mirrors p img) {old : Option Found} {payload : Bytes}
    (hcleared : Cleared L key old (p.live img))
    (hnew : old.map (·.payload) ≠ some payload) (hkey : isValidKey key = true) (hne : payload ≠ [])
    (hlength : payload.length ≤ maxPayloadLength)
    (hentry : t.pages[page]? = some entry) (hactive : entry.kind = .active)
    (hroom : entry.used + (headerSize + payload.length) ≤ p.contentSize)
    (hallowed : ∀ L', L.Renewed conduct p.chip.checksum key payload L' →
      conduct ≠ .tearing → allowed L') :
    Ensures p conduct (p.Secure conduct anchored allowed) (do
        append p page key payload
        old.forM fun item => drop p item.location .immediate
        closeIfFull p page) t img
      (fun _ t' img' => t'.Mirrors p img' ∧ L.Update key (some payload) (p.live img') ∧
        Stowed p (headerSize + payload.length) page entry (p.live img') t t' ∧
        ∃ e, (p.live img').Copy key page e) noError := by
  have hlast := offset_lt_used h hentry
  have hle : ∀ e ∈ p.live img page, e.1 ≤ entry.used := fun e he => Nat.le_of_lt (hlast e he)
  refine (ensures_appendRecord hu h hkey hne hlength hentry hactive hroom
    (hallowed _ (hcleared.renewed_added hle)) fun hconduct count hcut => hallowed _
      (hcleared.renewed_cut hle hnew hconduct hcut) (Conduct.ne_tearing hconduct)).bind ?_
  rintro _ _ img₁ ⟨entry', rfl, hstatus, hused, hmirrors, hlive⟩
  refine (ensures_dropOld hu hmirrors hcleared (Holdings.distinct_live p img) hlast hlive
    hallowed).bind ?_
  rintro _ t₂ img₂ ⟨hmirrors₂, hupdate, ⟨e, hcopy⟩, hfaded⟩
  refine (ensures_closeStowed hu hentry hactive hstatus hused hmirrors₂ hfaded
    (List.ne_nil_of_mem hcopy.1)).weaken ?_
  rintro _ t' img' ⟨hmirrors', hlive', hstowed⟩
  exact ⟨hmirrors', hlive' ▸ hupdate, hstowed, e, hlive' ▸ hcopy⟩

/-- What a write does once it knows the copy that is stored. -/
def renew (p : Partition) (key : UInt16) (payload : Bytes) (old : Option Found) : EngineM Unit := do
  if old.map (·.payload) = some payload then return
  let page ← selectPage p payload.length
  append p page key payload
  old.forM fun item => drop p item.location .immediate
  closeIfFull p page

/-- A write is a lookup and what follows it. -/
theorem writeItem_eq {payload : Bytes}
    (hargs : isValidKey key = true ∧ payload ≠ [] ∧ payload.length ≤ p.maxPayload) :
    writeItem p key payload = find p key >>= renew p key payload := if_pos hargs

/-- **What follows the lookup of a write stores its payload.** -/
theorem ensures_renew (hu : p.Usable) (h : t.Mirrors p img) {old : Option Found} {payload : Bytes}
    (hcleared : Cleared L key old (p.live img))
    (hargs : isValidKey key = true ∧ payload ≠ [] ∧ payload.length ≤ p.maxPayload)
    (hallowed : ∀ L', L.Renewed conduct p.chip.checksum key payload L' →
      conduct ≠ .tearing → allowed L') :
    Ensures p conduct (p.Secure conduct anchored allowed) (renew p key payload old) t img
      (fun _ t' img' => t'.Mirrors p img' ∧ L.Update key (some payload) (p.live img'))
      (exhausted p (headerSize + payload.length) t img) := by
  obtain ⟨hkey, hne, hlength⟩ := hargs
  have hmax : payload.length ≤ maxPayloadLength := Nat.le_trans hlength (Nat.min_le_right _ _)
  unfold renew
  split
  · -- The key has this value already.
    next heq => exact ensures_pure ⟨h, heq ▸ hcleared.update⟩
  · next hnew =>
    refine (ensures_selectPage hu h (headerSize_add_le hne hlength)).bind ?_
    rintro page t₂ img₂ ⟨hmirrors, hlive, ⟨entry, hentry, hactive, hused⟩, -⟩
    refine (ensures_store hu hmirrors (hlive ▸ hcleared) hnew hkey hne hmax hentry hactive hused
      hallowed).weaken ?_
    rintro _ t' img' ⟨hmirrors', hupdate, -⟩
    exact ⟨hmirrors', hupdate⟩

/-- **A write stores its payload.** -/
theorem ensures_writeItem (hu : p.Usable) (h : t.Mirrors p img) (key : UInt16) (payload : Bytes)
    (hallowed : ∀ L', (p.live img).Renewed conduct p.chip.checksum key payload L' →
      conduct ≠ .tearing → allowed L') :
    Ensures p conduct (p.Secure conduct anchored allowed) (writeItem p key payload) t img
      (fun _ t' img' => t'.Mirrors p img' ∧
        (p.live img).Update key (some payload) (p.live img'))
      (unwritten (¬(isValidKey key = true ∧ payload ≠ [] ∧ payload.length ≤ p.maxPayload))
        (headerSize + payload.length) key p t img) := by
  by_cases hargs : isValidKey key = true ∧ payload ≠ [] ∧ payload.length ≤ p.maxPayload
  · rw [writeItem_eq hargs]
    refine (ensures_find hu h key fun L' hL' => hallowed L' (hL'.renewed payload)).lift.bind ?_
    rintro old t₁ img₁ ⟨hsettled, hsighted, -⟩
    refine (ensures_renew hu hsettled.mirrors (hsettled.cleared hsighted) hargs hallowed).mono (fun _ _ _ hpost => hpost) ?_
    rintro error t₂ img₂ ⟨rfl, hexhausted, rfl, rfl⟩
    exact Or.inr ⟨rfl, hexhausted, _, hsettled⟩
  · rw [show writeItem p key payload = throw .invalidArgument from if_neg hargs]
    exact ensures_throw (Or.inl ⟨rfl, hargs, rfl, rfl⟩)

/-! ## Deleting -/

/-- A removal on its way: what it counted and what lies ahead are all the copies there were. -/
structure Removing (p : Partition) (L : Holdings) (key : UInt16) (first : Table) (total page : Nat)
    (rest : List Nat) (removed : Nat) (entries : List (Nat × Record)) (t : Table) (img : Image) :
    Prop where
  mirrors : t.Mirrors p img
  course : Course L page rest entries
  untouched : ∀ other ∈ rest, p.live img other = L other
  purged : L.Purged key (Pending page rest entries) (p.live img)
  counted : removed + entries.countP (·.2.header.key == key) + L.copies key rest = total
  faded : Faded .immediate (p.live img) first t

namespace Removing

variable {first : Table} {total : Nat} {rest : List Nat} {removed : Nat}
  {entries : List (Nat × Record)} {offset : Nat} {record : Record}

theorem pending (h : Removing p L key first total page rest removed ((offset, record) :: entries) t img) :
    L.Purged key (fun other e => Pending page rest entries other e ∨
      other = page ∧ e = (offset, record)) (p.live img) :=
  h.purged.congr fun other e _ => (pending_cons other e).symm

/-- The records ahead on the page are live. -/
theorem live (h : Removing p L key first total page rest removed entries t img) {entry : Nat × Record}
    (hentry : entry ∈ entries) : entry ∈ p.live img page :=
  (h.purged page entry).mpr ⟨h.course.mem entry hentry, fun hnot =>
    absurd (Or.inr ⟨rfl, hentry⟩) hnot⟩

/-- The next record is a copy and was dropped. -/
theorem dropped (h : Removing p L key first total page rest removed ((offset, record) :: entries) t img)
    (hL : L.Distinct) (hkey : record.header.key = key)
    (hdropped : Dropped p ⟨page, offset⟩ .immediate t img t' img') :
    Removing p L key first total page rest (removed + 1) entries t' img' := by
  obtain ⟨hmem, hseen⟩ := h.course.head
  refine ⟨hdropped.mirrors, h.course.next, fun other hother => ?_,
    hdropped.live_eq ▸ h.pending.drop hL hmem hkey hseen, ?_,
    h.faded.trans hdropped.faded fun other hnil => ?_⟩
  · rw [hdropped.live_eq, ← h.untouched other hother]
    refine Function.update_of_ne ?_ _ _
    rintro rfl
    exact h.course.fresh hother
  · have hcounted := h.counted
    rw [List.countP_cons, if_pos (by simpa using hkey)] at hcounted
    omega
  · refine List.eq_nil_iff_forall_not_mem.mpr fun e he => ?_
    rw [hdropped.live_eq, Holdings.mem_without, hnil] at he
    cases he.1

/-- The next record is of another key and stays. -/
theorem skipped (h : Removing p L key first total page rest removed ((offset, record) :: entries) t img)
    (hother : record.header.key ≠ key) : Removing p L key first total page rest removed entries t img := by
  refine ⟨h.mirrors, h.course.next, h.untouched, h.pending.skip hother, ?_, h.faded⟩
  have hcounted := h.counted
  rw [List.countP_cons, if_neg (by simpa using hother)] at hcounted
  exact hcounted

end Removing

/-- A removal between two pages: what it counted and what lies on the pages ahead are all the copies there
were. -/
structure Clearing (p : Partition) (L : Holdings) (key : UInt16) (first : Table) (total : Nat)
    (pages : List Nat) (removed : Nat) (t : Table) (img : Image) : Prop where
  mirrors : t.Mirrors p img
  nodup : pages.Nodup
  untouched : ∀ other ∈ pages, p.live img other = L other
  purged : L.Purged key (fun other _ => other ∈ pages) (p.live img)
  counted : removed + L.copies key pages = total
  faded : Faded .immediate (p.live img) first t

namespace Clearing

variable {first : Table} {total removed : Nat} {rest : List Nat}

/-- At the start all pages are ahead. -/
theorem start (h : t.Mirrors p img) (key : UInt16) :
    Clearing p (p.live img) key t ((p.live img).copies key t.searchOrder) t.searchOrder 0 t img :=
  ⟨h, nodup_ringBackFrom _ _, fun _ _ => rfl, .start fun _ _ hentry =>
    mem_ringBackFrom (h.count_eq ▸ Partition.lt_of_mem_live hentry), Nat.zero_add _, .refl h⟩

/-- The removal turns to the records of the next page. -/
theorem enter (h : Clearing p L key first total (page :: rest) removed t img) :
    Removing p L key first total page rest removed (p.live img page) t img := by
  obtain ⟨hfresh, hrest⟩ := List.nodup_cons.mp h.nodup
  have hsame := h.untouched page (by simp)
  refine ⟨h.mirrors, ⟨hfresh, hrest, fun e he => hsame ▸ he, p.pairwise_live img page⟩,
    fun other hother => h.untouched other (by simp [hother]),
    h.purged.congr fun other e he => pending_start ?_, ?_, h.faded⟩
  · rintro rfl
    rw [hsame]
    exact he
  · rw [hsame, ← h.counted, Holdings.copies, Holdings.copies, List.map_cons, List.sum_cons,
      Nat.add_assoc]

/-- The removal is through with a page. -/
theorem leave (h : Removing p L key first total page rest removed [] t img) :
    Clearing p L key first total rest removed t img := by
  refine ⟨h.mirrors, h.course.nodup, h.untouched,
    h.purged.congr fun other e _ => (pending_nil other e).symm, ?_, h.faded⟩
  have hcounted := h.counted
  rwa [List.countP_nil, Nat.add_zero] at hcounted

end Clearing

/-- One step of a removal. -/
theorem ensures_remove (hu : p.Usable) (hL : L.Distinct)
    (hallowed : ∀ L', L.Passes conduct p.chip.checksum key (· = none) L' →
      conduct ≠ .tearing → allowed L')
    {first : Table} {total : Nat} {rest : List Nat} {removed : Nat} {entries : List (Nat × Record)}
    {offset : Nat} {record : Record}
    (h : Removing p L key first total page rest removed ((offset, record) :: entries) t img) :
    Ensures p conduct (p.Secure conduct anchored allowed)
      (remove p key removed ⟨page, offset⟩ record.header) t img
      (Visited page (Removing p L key first total page rest) (offset + record.size) entries img)
      noError := by
  obtain ⟨hmem, hseen⟩ := h.course.head
  have hlive := h.live (List.mem_cons_self ..)
  obtain ⟨-, -, -, -, -, -, -, hrecord⟩ := exists_record h.mirrors hlive
  unfold remove
  by_cases hkey : record.header.carriesValue = true ∧ record.header.key = key
  · have hdrop := h.pending.drop hL hmem hkey.2 hseen
    rw [if_pos hkey]
    refine (ensures_drop hu h.mirrors ⟨page, offset⟩ .immediate hlive
      (hallowed _ (.whole hdrop.between)) fun hsplitting half hhalf L' hrekeyed =>
        hallowed L' (.scratched hsplitting h.purged.between ⟨hmem, hkey.2⟩ (hkey.2 ▸ hhalf) hrekeyed)
          (Conduct.ne_tearing hsplitting)).bind ?_
    intro _ t' img' hdropped
    obtain ⟨entry, hentry⟩ := Table.exists_entry
      (hdropped.mirrors.count_eq ▸ Partition.lt_of_mem_live hlive)
    have hnext := h.dropped hL hkey.2 hdropped
    refine ensures_pageAt_bind hentry ?_
    split
    · next hholds =>
      refine ensures_pure ⟨hnext, hdropped.drop_eq (Or.inr ⟨entry, hentry, hholds⟩) _ ?_⟩
      exact Nat.add_le_add_left (Nat.le_add_right _ _) _
    · next hholds =>
      -- The page was emptied, so none of the records ahead is on it.
      have hnil : entries = [] := by
        refine List.eq_nil_iff_forall_not_mem.mpr fun e he => ?_
        have hmem' := hnext.live he
        rw [hdropped.mirrors.live_eq_nil hentry hholds] at hmem'
        cases hmem'
      exact ensures_pure (hnil ▸ hnext)
  · have hother : record.header.key ≠ key := by
      intro heq
      exact hkey ⟨Record.carriesValue_of_isLive hrecord, heq⟩
    rw [if_neg hkey]
    exact ensures_pure ⟨h.skipped hother, rfl⟩

theorem remove_of_not {removed : Nat} {location : Location} {header : Header}
    (h : ¬(header.carriesValue = true ∧ header.key = key)) :
    remove p key removed location header = pure (.yield removed) := if_neg h

/-- A record without a value is passed over. -/
theorem remove_of_void (removed : Nat) (location : Location) (header : Header)
    (h : header.carriesValue = false) :
    remove p key removed location header = pure (.yield removed) := by
  refine remove_of_not fun hkey => ?_
  rw [h] at hkey
  cases hkey.1

/-- **A removal drops all copies of a key** and counts them.  Full pages that it empties are erased. -/
theorem ensures_deleteItem (hu : p.Usable) (h : t.Mirrors p img) (key : UInt16)
    (hallowed : ∀ L', (p.live img).Passes conduct p.chip.checksum key (· = none) L' →
      conduct ≠ .tearing → allowed L') :
    Ensures p conduct (p.Secure conduct anchored allowed) (deleteItem p key) t img
      (fun removed t' img' => t'.Mirrors p img' ∧ (p.live img).Update key none (p.live img') ∧
        removed = (p.live img).copies key (List.range p.pageCount) ∧
        Faded .immediate (p.live img') t t')
      (refused (¬isValidKey key = true) t img) := by
  have hL := Holdings.distinct_live p img
  unfold deleteItem
  split
  · refine (ensures_walkLive hu
      (fun removed pages => Clearing p (p.live img) key t ((p.live img).copies key t.searchOrder) pages
        removed)
      (fun page rest =>
        Removing p (p.live img) key t ((p.live img).copies key t.searchOrder) page rest)
      (fun _ _ _ _ houter => houter.mirrors) remove_of_void (fun _ _ _ _ _ houter => houter.enter)
      (fun _ _ _ _ _ _ _ _ hremoving => ensures_remove hu hL hallowed hremoving)
      (fun _ _ _ _ _ => .leave) (.start h key)).weaken ?_
    rintro removed t' img' ⟨hmirrors, -, -, hpurged, hcounted, hfaded⟩
    refine ⟨hmirrors, hpurged.update fun _ _ => List.not_mem_nil, hcounted.trans ?_, hfaded⟩
    rw [← h.count_eq]
    exact ((ringBackFrom_perm_range _ _).map _).sum_nat
  · next hkey => exact ensures_throw ⟨rfl, hkey, rfl, rfl⟩

end Engine

end RingStore
