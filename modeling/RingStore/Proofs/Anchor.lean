import RingStore.Proofs.Access
import RingStore.Proofs.Mirror
import RingStore.Proofs.Ring

/-!
# Flashes that no scan formats

A flash is `Image.Anchored` if a scan of it will not format records away: its status bytes are known,
and a page carries the ring-start marker unless nothing was ever written.  It is `Image.Orderly` if a
scan of it will go on with the active page: there is at most one, and no garbage lies behind its
records.  These are properties of the flash alone, and they hold at every instant, also between two
accesses; the second one holds as long as no write is torn.

`Partition.Secure` is what a run keeps after every access: the flash stays anchored and orderly, and as
long as no access is torn its live records are ones that are allowed.

## Main statements

* `Image.Anchored.setStatus`, `Image.Anchored.setContent`, `Image.Anchored.erasePart`: the changes that
  keep a flash anchored.
* `Image.Orderly.setStatus`, `Image.Orderly.opened`: the changes of status that keep a flash orderly.
* `Table.Mirrors.anchored`, `Table.Mirrors.orderly`: a flash that the table mirrors is both.
* `Partition.robust_secure`, `Partition.Secure.mends`: a scan that does not format keeps all this.
* `Partition.ensures_tombstone`: a tombstone keeps a run secure if the live records it leaves are allowed.
-/

namespace RingStore

namespace Image

/-- All status bytes are known, an erased page with the marker is blank, and some page carries the
marker unless no status was ever written. -/
structure Anchored (count : Nat) (img : Image) : Prop where
  known : ∀ page < count, ∃ status, img.status page = some status
  blank : ∀ page < count, img.status page = some ⟨.erased, true⟩ → isBlank (img.content page) = true
  anchor : img.Marked count ∨ ∀ page < count, img.status page = some .blank

namespace Anchored

variable {count page : Nat} {img : Image} {old status : PageStatus}

theorem marked_of_ne_blank (h : img.Anchored count) (hpage : page < count)
    (hstatus : img.status page = some status) (hne : status ≠ .blank) : img.Marked count := by
  rcases h.anchor with hmarked | hblank
  · exact hmarked
  · rw [hblank page hpage] at hstatus
    exact absurd (Option.some.inj hstatus).symm hne

theorem setStatus (h : img.Anchored count) (hpage : page < count)
    (hold : img.status page = some old) (hkeep : old.ringStart = true → status.ringStart = true)
    (hblank : status = ⟨.erased, true⟩ → isBlank (img.content page) = true)
    (hmark : status.ringStart = true ∨ img.Marked count) :
    (img.setStatus page status).Anchored count := by
  have hself : (img.setStatus page status).status page = some status := status_setStatus_self
  refine ⟨fun other hother => ?_, fun other hother hstatus => ?_, Or.inl ?_⟩
  · by_cases heq : other = page
    · exact ⟨status, heq ▸ hself⟩
    · rw [status_setStatus_of_ne heq]
      exact h.known other hother
  · by_cases heq : other = page
    · subst heq
      rw [hself] at hstatus
      exact hblank (Option.some.inj hstatus)
    · rw [status_setStatus_of_ne heq] at hstatus
      exact h.blank other hother hstatus
  · by_cases hring : status.ringStart = true
    · exact ⟨page, hpage, status, hself, hring⟩
    · obtain ⟨other, hother, s, hs, hsring⟩ := hmark.resolve_left hring
      by_cases heq : other = page
      · subst heq
        rw [hold] at hs
        rw [← Option.some.inj hs] at hsring
        exact absurd (hkeep hsring) hring
      · exact ⟨other, hother, s, by rw [status_setStatus_of_ne heq, hs], hsring⟩

theorem setContent (h : img.Anchored count) {content : Bytes}
    (hpage : img.status page ≠ some ⟨.erased, true⟩) :
    (img.setContent page content).Anchored count := by
  refine ⟨h.known, fun other hother hstatus => ?_, h.anchor⟩
  by_cases heq : other = page
  · subst heq
    exact absurd hstatus hpage
  · rw [content_setContent_of_ne heq]
    exact h.blank other hother hstatus

/-- A page may be erased if another one carries the marker, or if there is no other page in use. -/
theorem erasePart (h : img.Anchored count) {skipped length : Nat}
    (hother : (∃ other < count, other ≠ page ∧
        ∃ status, img.status other = some status ∧ status.ringStart = true) ∨
      ∀ other < count, other ≠ page → img.status other = some .blank) :
    (img.erasePart page skipped length).Anchored count := by
  constructor
  · intro other hlt
    by_cases heq : other = page
    · subst heq
      rcases img.status_erasePart_self other skipped length with hself | hself
      · exact ⟨_, hself⟩
      · rw [hself]
        exact h.known other hlt
    · rw [status_erasePart_of_ne heq]
      exact h.known other hlt
  · intro other hlt hstatus
    by_cases heq : other = page
    · subst heq
      rcases img.status_erasePart_self other skipped length with hself | hself
      · rw [hself] at hstatus
        cases hstatus
      · rw [hself] at hstatus
        rw [content_erasePart_self]
        exact isBlank_wiped (h.blank other hlt hstatus) _ _
    · rw [status_erasePart_of_ne heq] at hstatus
      rw [content_erasePart_of_ne heq]
      exact h.blank other hlt hstatus
  · rcases hother with ⟨other, hlt, heq, status, hstatus, hring⟩ | hblank
    · exact Or.inl ⟨other, hlt, status, by rw [status_erasePart_of_ne heq, hstatus], hring⟩
    · -- No other page is in use, so the erase matters only where it reaches the status byte.
      rcases img.status_erasePart_self page skipped length with hself | hself
      · refine Or.inr fun other hlt => ?_
        by_cases heq : other = page
        · exact heq ▸ hself
        · rw [status_erasePart_of_ne heq]
          exact hblank other hlt heq
      · have hsame : ∀ other, (img.erasePart page skipped length).status other =
            img.status other := by
          intro other
          by_cases heq : other = page
          · exact heq ▸ hself
          · exact status_erasePart_of_ne heq
        rcases h.anchor with ⟨other, hlt, status, hstatus, hring⟩ | hall
        · exact Or.inl ⟨other, hlt, status, by rw [hsame, hstatus], hring⟩
        · exact Or.inr fun other hlt => by rw [hsame]; exact hall other hlt

end Anchored

theorem Anchored.erase {count page : Nat} {img : Image} (h : img.Anchored count)
    (hother : (∃ other < count, other ≠ page ∧
        ∃ status, img.status other = some status ∧ status.ringStart = true) ∨
      ∀ other < count, other ≠ page → img.status other = some .blank) :
    (img.erase page).Anchored count := by
  rw [← erasePart_of_lt (Nat.lt_succ_self _)]
  exact h.erasePart hother

/-- A page without the marker may be erased. -/
theorem Anchored.other_of_unmarked {count page : Nat} {img : Image} {status : PageStatus}
    (h : img.Anchored count) (hstatus : img.status page = some status)
    (hring : status.ringStart = false) :
    (∃ other < count, other ≠ page ∧
        ∃ status, img.status other = some status ∧ status.ringStart = true) ∨
      ∀ other < count, other ≠ page → img.status other = some .blank := by
  rcases h.anchor with ⟨other, hlt, s, hs, hsring⟩ | hblank
  · refine Or.inl ⟨other, hlt, fun heq => ?_, s, hs, hsring⟩
    rw [heq, hstatus] at hs
    rw [← Option.some.inj hs, hring] at hsring
    cases hsring
  · exact Or.inr fun other hlt _ => hblank other hlt

/-- The page is active. -/
def IsActive (img : Image) (page : Nat) : Prop :=
  ∃ status, img.status page = some status ∧ status.kind = .active

/-- At most one page is active, and no append to it was cut short. -/
structure Orderly (count : Nat) (img : Image) : Prop where
  sole : ∀ page < count, ∀ other < count, img.IsActive page → img.IsActive other → other = page
  clean : ∀ page < count, img.IsActive page → (img.log page).isClean = true

namespace Orderly

variable {count page : Nat} {img : Image} {status : PageStatus} {content : Bytes}

/-- A page that is active afterwards was active before. -/
theorem setStatus (h : img.Orderly count) (hkind : status.kind = .active → img.IsActive page) :
    (img.setStatus page status).Orderly count := by
  have hactive : ∀ other, (img.setStatus page status).IsActive other → img.IsActive other := by
    rintro other ⟨s, hs, hk⟩
    by_cases heq : other = page
    · subst heq
      rw [status_setStatus_self] at hs
      rw [← Option.some.inj hs] at hk
      exact hkind hk
    · rw [status_setStatus_of_ne heq] at hs
      exact ⟨s, hs, hk⟩
  exact ⟨fun first hfirst second hsecond h₁ h₂ =>
    h.sole first hfirst second hsecond (hactive first h₁) (hactive second h₂),
    fun other hother hk => h.clean other hother (hactive other hk)⟩

/-- A blank page may be opened while no other page is active. -/
theorem opened (hnone : ∀ other < count, ¬img.IsActive other)
    (hblank : isBlank (img.content page) = true) : (img.setStatus page status).Orderly count := by
  have hactive : ∀ other < count, (img.setStatus page status).IsActive other → other = page := by
    rintro other hother ⟨s, hs, hk⟩
    by_contra heq
    rw [status_setStatus_of_ne heq] at hs
    exact hnone other hother ⟨s, hs, hk⟩
  refine ⟨fun first hfirst second hsecond h₁ h₂ => ?_, fun other hother hk => ?_⟩
  · rw [hactive first hfirst h₁, hactive second hsecond h₂]
  · rw [hactive other hother hk, log, content_setStatus, Log.isClean, Log.parse_of_isBlank hblank]
    exact hblank

theorem setContent (h : img.Orderly count)
    (hclean : (img.log page).isClean = true → (Log.parse content).isClean = true) :
    (img.setContent page content).Orderly count := by
  refine ⟨h.sole, fun other hother hactive => ?_⟩
  by_cases heq : other = page
  · subst heq
    rw [log, content_setContent_self]
    exact hclean (h.clean other hother hactive)
  · rw [log, content_setContent_of_ne heq]
    exact h.clean other hother hactive

theorem erase (h : img.Orderly count) (page : Nat) : (img.erase page).Orderly count := by
  have hactive : ∀ other, (img.erase page).IsActive other → other ≠ page ∧ img.IsActive other := by
    rintro other ⟨s, hs, hk⟩
    by_cases heq : other = page
    · subst heq
      rw [status_erase_self] at hs
      rw [← Option.some.inj hs] at hk
      cases hk
    · rw [status_erase_of_ne heq] at hs
      exact ⟨heq, s, hs, hk⟩
  refine ⟨fun first hfirst second hsecond h₁ h₂ =>
    h.sole first hfirst second hsecond (hactive first h₁).2 (hactive second h₂).2,
    fun other hother hk => ?_⟩
  obtain ⟨hne, hk⟩ := hactive other hk
  rw [log, content_erase_of_ne hne]
  exact h.clean other hother hk

end Orderly

end Image

theorem Table.Mirrors.marked {p : Partition} {t : Table} {img : Image} (h : t.Mirrors p img) :
    img.Marked p.pageCount := by
  obtain ⟨entry, hentry, hring⟩ := isMarked_iff.mp h.ordered.marked
  exact ⟨t.ringStart, h.count_eq ▸ lt_count hentry, entry.status, (h.tracks _ entry hentry).1, hring⟩

/-- A flash that the table mirrors is anchored. -/
theorem Table.Mirrors.anchored {p : Partition} {t : Table} {img : Image} (h : t.Mirrors p img) :
    img.Anchored p.pageCount := by
  refine ⟨fun page hpage => ?_, fun page hpage hstatus => ?_, Or.inl h.marked⟩
  · obtain ⟨entry, hentry⟩ := exists_entry (h.count_eq ▸ hpage)
    exact ⟨entry.status, (h.tracks page entry hentry).1⟩
  · obtain ⟨entry, hentry⟩ := exists_entry (h.count_eq ▸ hpage)
    obtain ⟨hentry', hdescribes⟩ := h.tracks page entry hentry
    rw [hstatus] at hentry'
    refine (hdescribes.blank_of_erased ?_).1
    rw [Page.kind, ← Option.some.inj hentry']

/-- The only active page of a flash that the table mirrors is the head. -/
theorem Table.Mirrors.eq_head {p : Partition} {t : Table} {img : Image} (h : t.Mirrors p img)
    {page : Nat} (hpage : page < p.pageCount) (hactive : img.IsActive page) : page = t.head := by
  obtain ⟨status, hstatus, hkind⟩ := hactive
  obtain ⟨entry, hentry⟩ := exists_entry (h.count_eq ▸ hpage)
  refine h.ordered.eq_head page entry hentry ?_
  have heq := (h.tracks page entry hentry).1
  rw [hstatus] at heq
  rw [Page.kind, ← Option.some.inj heq, hkind]

/-- A search begins at the active page. -/
theorem Table.Mirrors.head?_searchOrder {p : Partition} {t : Table} {img : Image}
    (h : t.Mirrors p img) {page : Nat} (hpage : page < p.pageCount) (hactive : img.IsActive page) :
    t.searchOrder.head? = some page := by
  rw [searchOrder, head?_ringBackFrom h.ordered.head_lt, h.eq_head hpage hactive]

/-- An active page of the table is one of the flash. -/
theorem Table.Tracks.isActive_iff {p : Partition} {t : Table} {img : Image} (h : t.Tracks p img)
    {page : Nat} (hpage : page < t.count) :
    img.IsActive page ↔ t.isKind .active page = true := by
  obtain ⟨entry, hentry⟩ := exists_entry hpage
  rw [Image.IsActive, isKind_iff, (h page entry hentry).1, hentry]
  simp [Page.kind]

/-- A flash that the table mirrors is orderly. -/
theorem Table.Mirrors.orderly {p : Partition} {t : Table} {img : Image} (h : t.Mirrors p img) :
    img.Orderly p.pageCount := by
  refine ⟨fun page hpage other hother hactive hactive' => ?_, fun page hpage hactive => ?_⟩
  · rw [h.eq_head hpage hactive, h.eq_head hother hactive']
  · obtain ⟨status, hstatus, hkind⟩ := hactive
    obtain ⟨entry, hentry⟩ := exists_entry (h.count_eq ▸ hpage)
    obtain ⟨hstatus', hdescribes⟩ := h.tracks page entry hentry
    rw [hstatus] at hstatus'
    exact hdescribes.clean (by rw [Page.kind, ← Option.some.inj hstatus', hkind])

/-- An anchored flash without the marker is one in which nothing was ever written. -/
theorem Image.Anchored.marked_or_live_eq_nil {p : Partition} {img : Image}
    (h : img.Anchored p.pageCount) :
    img.Marked p.pageCount ∨ ∀ page, p.live img page = [] := by
  refine h.anchor.imp_right fun hblank page => List.eq_nil_iff_forall_not_mem.mpr fun entry hentry => ?_
  have hpage := p.lt_of_mem_live hentry
  rw [p.live_eq_nil (hblank page hpage) rfl] at hentry
  cases hentry

/-! ## What a run keeps -/

/-- What is kept after every access of a run.  The flash stays anchored if that is asked for, and
orderly if no write is torn, and as long as no access is torn, its live records are ones that are
allowed. -/
structure Partition.Secure (p : Partition) (conduct : Conduct) (asked : Prop)
    (permitted : Partition.Holdings → Prop) (img : Image) : Prop where
  anchored : asked → img.Anchored p.pageCount
  allowed : conduct ≠ .tearing → permitted (p.live img)
  orderly : asked → ¬conduct.SplitsWrites → img.Orderly p.pageCount

/-- A flash that the table mirrors meets all that a run keeps, whatever its live records. -/
theorem Table.Mirrors.secure {p : Partition} {t : Table} {img : Image} (h : t.Mirrors p img)
    (conduct : Conduct) (asked : Prop) : p.Secure conduct asked (fun _ => True) img :=
  ⟨fun _ => h.anchored, fun _ => trivial, fun _ _ => h.orderly⟩

/-- What is kept by a flash of which nothing is asked. -/
abbrev Partition.Unasked (p : Partition) : Image → Prop := p.Secure .reliable False fun _ => True

/-- Any flash meets it if neither the anchor nor the values that it may hold matter. -/
theorem Partition.secure_of_unasked (p : Partition) (conduct : Conduct) (img : Image) :
    p.Secure conduct False (fun _ => True) img :=
  ⟨False.elim, fun _ => trivial, False.elim⟩

namespace Partition.Secure

variable {p : Partition} {conduct : Conduct} {anchored : Prop} {allowed : Partition.Holdings → Prop}
  {img : Image} {page : Nat} {old status : PageStatus}

/-- A page that was used before moves on to another stage and is closed, with its marker kept. -/
theorem withKind (h : p.Secure conduct anchored allowed img) {kind : PageKind}
    (hpage : page < p.pageCount) (hold : img.status page = some old) (hused : old.kind ≠ .erased)
    (hkind : kind ≠ .erased ∧ kind ≠ .active)
    (hlive : p.live (img.setStatus page (old.withKind kind)) = p.live img) :
    p.Secure conduct anchored allowed (img.setStatus page (old.withKind kind)) := by
  refine ⟨fun hanchored => ?_, hlive ▸ h.allowed, fun hanchored hwhole =>
    (h.orderly hanchored hwhole).setStatus fun heq => absurd heq hkind.2⟩
  have hanchor := h.anchored hanchored
  refine hanchor.setStatus hpage hold (fun hring => hring) ?_ (Or.inr ?_)
  · intro heq
    exact absurd (congrArg PageStatus.kind heq) hkind.1
  · refine hanchor.marked_of_ne_blank hpage hold fun heq => hused ?_
    rw [heq]
    rfl

/-- The content of a page that was used before may change, as far as its live records are allowed. -/
theorem setContent (h : p.Secure conduct anchored allowed img) {content : Bytes}
    (hold : img.status page = some old) (hused : old.kind ≠ .erased)
    (hallowed : conduct ≠ .tearing → allowed (p.live (img.setContent page content)))
    (hclean : ¬conduct.SplitsWrites → (img.log page).isClean = true →
      (Log.parse content).isClean = true) :
    p.Secure conduct anchored allowed (img.setContent page content) := by
  refine ⟨fun hanchored => (h.anchored hanchored).setContent fun heq => hused ?_, hallowed,
    fun hanchored hwhole => (h.orderly hanchored hwhole).setContent (hclean hwhole)⟩
  rw [hold] at heq
  rw [Option.some.inj heq]

/-- A page without live records may be erased if the ring stays anchored without it. -/
theorem erase (h : p.Secure conduct anchored allowed img) (hlive : p.live img page = [])
    (hother : anchored → (∃ other < p.pageCount, other ≠ page ∧
        ∃ status, img.status other = some status ∧ status.ringStart = true) ∨
      ∀ other < p.pageCount, other ≠ page → img.status other = some .blank) :
    p.Secure conduct anchored allowed (img.erase page) := by
  refine ⟨fun hanchored => (h.anchored hanchored).erase (hother hanchored), ?_,
    fun hanchored hwhole => (h.orderly hanchored hwhole).erase page⟩
  rw [live_erase_of_nil hlive]
  exact h.allowed

theorem erasePart (h : p.Secure conduct anchored allowed img) {skipped count : Nat}
    (hconduct : conduct = .tearing)
    (hother : anchored → (∃ other < p.pageCount, other ≠ page ∧
        ∃ status, img.status other = some status ∧ status.ringStart = true) ∨
      ∀ other < p.pageCount, other ≠ page → img.status other = some .blank) :
    p.Secure conduct anchored allowed (img.erasePart page skipped count) :=
  ⟨fun hanchored => (h.anchored hanchored).erasePart (hother hanchored),
    fun hnot => absurd hconduct hnot, fun _ hwhole => absurd (Or.inr hconduct) hwhole⟩

end Partition.Secure

/-! ## Invariants of the upkeep -/

/-- An invariant that is kept by the changes that leave all live records in place: damaged records are
dropped, pages move on to a later stage, and a page without live records is erased while another one
carries the marker. -/
structure Partition.Robust (p : Partition) (conduct : Conduct) (inv : Image → Prop) : Prop where
  setContent : ∀ {img : Image} {page : Nat} {old : PageStatus} {content : Bytes},
    img.status page = some old → old.kind ≠ .erased →
    (conduct ≠ .tearing → p.live (img.setContent page content) = p.live img) →
    (¬conduct.SplitsWrites → (img.log page).isClean = true → (Log.parse content).isClean = true) →
    inv img → inv (img.setContent page content)
  withKind : ∀ {img : Image} {page : Nat} {old : PageStatus} {kind : PageKind},
    page < p.pageCount → img.status page = some old → old.kind ≠ .erased →
    kind ≠ .erased ∧ kind ≠ .active →
    p.live (img.setStatus page (old.withKind kind)) = p.live img →
    inv img → inv (img.setStatus page (old.withKind kind))
  erase : ∀ {img : Image} {page : Nat}, p.live img page = [] →
    (∃ other < p.pageCount, other ≠ page ∧
      ∃ status, img.status other = some status ∧ status.ringStart = true) →
    inv img → inv (img.erase page)
  erasePart : ∀ {img : Image} {page : Nat} (skipped count : Nat), conduct = .tearing →
    (∃ other < p.pageCount, other ≠ page ∧
      ∃ status, img.status other = some status ∧ status.ringStart = true) →
    inv img → inv (img.erasePart page skipped count)

/-- What a run keeps is kept by the upkeep. -/
theorem Partition.robust_secure (p : Partition) (conduct : Conduct) (anchored : Prop)
    (allowed : Partition.Holdings → Prop) : p.Robust conduct (p.Secure conduct anchored allowed) where
  setContent hold hused hlive hclean hinv :=
    hinv.setContent hold hused (fun hnot => hlive hnot ▸ hinv.allowed hnot) hclean
  withKind hpage hold hused hkind hlive hinv := hinv.withKind hpage hold hused hkind hlive
  erase hlive hother hinv := hinv.erase hlive fun _ => Or.inl hother
  erasePart _ _ hconduct hother hinv := hinv.erasePart hconduct fun _ => Or.inl hother

/-- The erase of a page was cut short: its status byte is unknown, or it claims to be erased and is not
blank. -/
def Image.Unfinished (img : Image) (page : Nat) : Prop :=
  img.status page = none ∨ ∃ status, img.status page = some status ∧ status.kind = .erased ∧
    ¬isBlank (img.content page) = true

/-- An invariant is kept while the erase of a page is finished, and its marker is put back. -/
structure Partition.Mends (p : Partition) (conduct : Conduct) (inv : Image → Prop) (img : Image)
    (page : Nat) : Prop where
  erase : inv (img.erase page)
  erasePart : conduct = .tearing → ∀ skipped count, inv (img.erasePart page skipped count)
  mark : ∀ status, img.status page = some status → status.ringStart = true →
    inv ((img.erase page).setStatus page status)

namespace Image.Unfinished

variable {p : Partition} {img : Image} {page : Nat} {status : PageStatus}

/-- If its status byte is known, the page claims to be erased. -/
theorem kind_eq (h : img.Unfinished page) (hstatus : img.status page = some status) :
    status.kind = .erased := by
  rcases h with hnone | ⟨status', hstatus', hkind, -⟩
  · rw [hstatus] at hnone
    cases hnone
  · rw [Option.some.inj (hstatus.symm.trans hstatus')]
    exact hkind

/-- A page whose erase was cut short has no live records. -/
theorem live_eq_nil (h : img.Unfinished page) : p.live img page = [] := by
  cases hstatus : img.status page with
  | some status => exact Partition.live_eq_nil hstatus (by rw [h.kind_eq hstatus]; rfl)
  | none =>
    rw [Partition.live, if_neg]
    rintro ⟨-, hany⟩
    rw [hstatus] at hany
    cases hany

/-- On an anchored flash it is not the erase of a page with the marker that was cut short. -/
theorem unmarked {count : Nat} (h : img.Unfinished page) (hanchor : img.Anchored count)
    (hpage : page < count) : ∃ status, img.status page = some status ∧ status.ringStart = false := by
  obtain ⟨status, hstatus⟩ := hanchor.known page hpage
  refine ⟨status, hstatus, ?_⟩
  rcases h with hnone | ⟨status', hstatus', hkind, hblank⟩
  · rw [hstatus] at hnone
    cases hnone
  · obtain rfl := Option.some.inj (hstatus.symm.trans hstatus')
    by_contra hring
    rw [Bool.not_eq_false] at hring
    exact hblank (hanchor.blank page hpage (by rw [hstatus, ← hkind, ← hring]))

end Image.Unfinished

/-- What a run keeps is kept while the erase of a page is finished. -/
theorem Partition.Secure.mends {p : Partition} {conduct : Conduct} {anchored : Prop}
    {allowed : Partition.Holdings → Prop} {img : Image} {page : Nat}
    (h : p.Secure conduct anchored allowed img) (hpage : page < p.pageCount)
    (hunfinished : img.Unfinished page) :
    p.Mends conduct (p.Secure conduct anchored allowed) img page := by
  have hother := fun hanchored : anchored =>
    (hunfinished.unmarked (h.anchored hanchored) hpage).elim fun _ hstatus =>
      (h.anchored hanchored).other_of_unmarked hstatus.1 hstatus.2
  have herased := h.erase hunfinished.live_eq_nil hother
  refine ⟨herased, fun hconduct _ _ => h.erasePart hconduct hother, fun status hstatus hring => ?_⟩
  have hnot : ¬anchored := by
    intro hanchored
    obtain ⟨status', hstatus', hfalse⟩ := hunfinished.unmarked (h.anchored hanchored) hpage
    rw [Option.some.inj (hstatus'.symm.trans hstatus), hring] at hfalse
    cases hfalse
  have hlive : p.live ((img.erase page).setStatus page status) = p.live (img.erase page) :=
    Partition.live_setStatus Image.status_erase_self
      (Or.inl (by rw [hunfinished.kind_eq hstatus]; rfl))
  exact ⟨fun hanchored => absurd hanchored hnot, hlive ▸ herased.allowed,
    fun hanchored => absurd hanchored hnot⟩

namespace Partition

variable {p : Partition} {conduct : Conduct} {inv : Image → Prop} {img : Image} {page : Nat}
  {status : PageStatus} {before after : List Record} {record : Record}

/-- A tombstone is written over the key of a record, also when it is torn. -/
theorem ensures_tombstoneOver (hu : p.Usable) (hpage : page < p.pageCount)
    (hrecords : (img.log page).records = before ++ record :: after)
    (hkeep : inv img → inv (img.setContent page
      (programmed (img.content page) (Log.span before + keyOffset) tombstoneBytes)))
    (htorn : inv img → conduct.SplitsWrites → ∀ skipped count, inv (img.setContent page
      (programmed (img.content page) (Log.span before + keyOffset + skipped)
        ((tombstoneBytes.drop skipped).take count)))) :
    AccessM.Ensures p conduct inv (p.writeTombstone page (Log.span before)) img fun _ img' =>
      img' = img.setContent page
        (programmed (img.content page) (Log.span before + keyOffset) tombstoneBytes) := by
  refine ensures_of_length fun hlength => AccessM.ensures_of_inv fun hinv => ?_
  have hroom : Log.span before + headerSize ≤ p.contentSize := by
    rw [← hlength page hpage]
    exact Nat.le_trans (Log.span_add_le_used hrecords) (Log.used_le _)
  exact ensures_writeTombstone hu hpage hroom (hkeep hinv) (htorn hinv)

/-- **A tombstone is written** over the key of a record, as far as the live records that it leaves are
allowed, also when it is torn. -/
theorem ensures_tombstone {anchored : Prop} {allowed : Holdings → Prop} (hu : p.Usable)
    (hpage : page < p.pageCount) (hstatus : img.status page = some status)
    (hkind : status.kind ≠ .erased) (hrecords : (img.log page).records = before ++ record :: after)
    (hallowed : conduct ≠ .tearing → allowed (p.live (img.setContent page
      (programmed (img.content page) (Log.span before + keyOffset) tombstoneBytes))))
    (htorn : conduct = .splitting → ∀ skipped count, allowed (p.live (img.setContent page
      (programmed (img.content page) (Log.span before + keyOffset + skipped)
        ((tombstoneBytes.drop skipped).take count))))) :
    AccessM.Ensures p conduct (p.Secure conduct anchored allowed)
      (p.writeTombstone page (Log.span before)) img fun _ img' =>
        img' = img.setContent page
          (programmed (img.content page) (Log.span before + keyOffset) tombstoneBytes) := by
  refine ensures_tombstoneOver hu hpage hrecords
    (fun hinv => hinv.setContent hstatus hkind hallowed fun _ hclean => ?_)
    fun hinv hsplits skipped count => hinv.setContent hstatus hkind
      (fun hnot => htorn (hsplits.resolve_right hnot) skipped count)
      fun hwhole => absurd hsplits hwhole
  rw [Log.parse_programmed_tombstone hrecords]
  exact hclean

end Partition

end RingStore
