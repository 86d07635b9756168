import RingStore.Engine.Reclaim
import RingStore.Proofs.Engine.Basic
import RingStore.Proofs.Ring
import RingStore.Proofs.Thinned

/-!
# Giving pages back keeps the mirror

A page is reclaimed when none of its records is live.  If the ring starts there, the marker is on the
next used page before the erase begins; where no other page is used, there are no records left that
the missing marker could endanger.

Dropping a record changes the live records of its page only, by taking that record.

## Main statements

* `ensures_reclaim`: a reclaimed page is erased, and no live record is lost.
* `ensures_drop`: a dropped record is gone, and all others stay.
* `ensures_sweep`, `ensures_sweeping`: a sweep erases the pages that wait for it, and spares the others.
-/

namespace RingStore

namespace Table

variable {p : Partition} {t : Table} {img : Image} {page next : Nat} {entry successor : Page}

/-- A page may be erased if the ring does not start there. -/
theorem MirrorsBut.erase (h : t.MirrorsBut p img page) (hne : t.ringStart ≠ page) :
    (t.set page .blank).Mirrors p (img.erase page) := by
  have hmarked : ∀ other, (t.set page .blank).isMarked other = true →
      other ≠ page ∧ t.isMarked other = true := by
    intro other hother
    obtain ⟨e, he, hring⟩ := isMarked_iff.mp hother
    rcases getElem?_set_eq_some he with ⟨rfl, rfl⟩ | ⟨hne, he⟩
    · cases hring
    · exact ⟨hne, isMarked_iff.mpr ⟨e, he, hring⟩⟩
  refine ⟨by rw [count_set, h.count_eq], h.tracks.erase, ⟨?_, ?_, ?_, ?_⟩, ?_⟩
  · intro other e he hkind
    rcases getElem?_set_eq_some he with ⟨rfl, rfl⟩ | ⟨-, he⟩
    · cases hkind
    · exact h.ordered.eq_head other e he hkind
  · rw [count_set]
    exact h.ordered.head_lt
  · rw [ringStart_set, isMarked, getElem?_set_of_ne hne]
    exact h.ordered.marked
  · intro erased other herased hmark hother
    obtain ⟨hne', hmark⟩ := hmarked erased hmark
    refine h.ordered.sole erased other ?_ hmark (hmarked other hother).2
    rwa [isKind, kind?, getElem?_set_of_ne hne'] at herased
  · intro other e he hkind
    rcases getElem?_set_eq_some he with ⟨rfl, rfl⟩ | ⟨hne', he⟩
    · cases hkind
    · exact h.held other e hne' he hkind

/-- The ring may start at another used page, once that one is marked. -/
theorem MirrorsBut.handOver (h : t.MirrorsBut p img page) (hentry : t.pages[page]? = some entry)
    (hkind : entry.kind ≠ .erased) (hring : entry.status.ringStart = true)
    (hnext : t.pages[next]? = some successor) (hused : successor.kind ≠ .erased)
    (hne : next ≠ page) :
    MirrorsBut p { t.set next { successor with status := successor.status.withMarker } with
        ringStart := next } (img.setStatus next successor.status.withMarker) page := by
  obtain ⟨hstatus, hdescribes⟩ := h.tracks next successor hnext
  have htracks : (t.set next { successor with status := successor.status.withMarker }).Tracks p
      (img.setStatus next successor.status.withMarker) :=
    h.tracks.setStatus (hdescribes.of_kind_eq rfl)
  refine ⟨(count_set).trans h.count_eq, htracks, ⟨?_, ?_, ?_, ?_⟩, ?_⟩
  · intro other e he hk
    rcases getElem?_set_eq_some he with ⟨rfl, rfl⟩ | ⟨-, he⟩
    · exact h.ordered.eq_head other successor hnext hk
    · exact h.ordered.eq_head other e he hk
  · exact Nat.lt_of_lt_of_eq h.ordered.head_lt count_set.symm
  · exact isMarked_iff.mpr ⟨_, getElem?_set_self (lt_count hnext), rfl⟩
  · -- An erased page with the marker would be the only marked one, but the reclaimed page is marked.
    intro erased other herased hmark _
    obtain ⟨e, he, hk⟩ := isKind_iff.mp herased
    obtain ⟨e', he', hmark⟩ := isMarked_iff.mp hmark
    rcases getElem?_set_eq_some he with ⟨rfl, rfl⟩ | ⟨hne', he⟩
    · exact absurd hk hused
    · have hsame : t.pages[erased]? = some e' := (getElem?_set_of_ne hne').symm.trans he'
      have heq := h.ordered.sole erased page (isKind_iff.mpr ⟨e, he, hk⟩)
        (isMarked_iff.mpr ⟨e', hsame, hmark⟩) (isMarked_iff.mpr ⟨entry, hentry, hring⟩)
      rw [← heq, hentry] at he
      rw [← Option.some.inj he] at hk
      exact absurd hk hkind
  · intro other e hother he hk
    rcases getElem?_set_eq_some he with ⟨rfl, rfl⟩ | ⟨-, he⟩
    · exact h.held other successor hother hnext hk
    · exact h.held other e hother he hk

/-- Where no other page is used, no other page is marked. -/
theorem MirrorsBut.unmarked_of_erased (h : t.MirrorsBut p img page)
    (hentry : t.pages[page]? = some entry) (hring : entry.status.ringStart = true)
    (hothers : ∀ other < t.count, other ≠ page → t.isKind .erased other = true) {other : Nat}
    (hne : other ≠ page) : t.isMarked other = false := by
  by_contra hmark
  rw [Bool.not_eq_false] at hmark
  obtain ⟨e, he, -⟩ := isMarked_iff.mp hmark
  exact hne (h.ordered.sole other page (hothers other (lt_count he) hne) hmark
    (isMarked_iff.mpr ⟨entry, hentry, hring⟩)).symm

/-- Where no other page is used, the ring may start anew at the erased page. -/
theorem MirrorsBut.restart (h : t.MirrorsBut p img page) (hentry : t.pages[page]? = some entry)
    (hring : entry.status.ringStart = true)
    (hothers : ∀ other < t.count, other ≠ page → t.isKind .erased other = true) :
    (t.set page ⟨PageStatus.blank.withMarker, 0, 0⟩).Mirrors p
      ((img.erase page).setStatus page PageStatus.blank.withMarker) := by
  have hpage := lt_count hentry
  have hunmarked : ∀ other, other ≠ page →
      (t.set page ⟨PageStatus.blank.withMarker, 0, 0⟩).isMarked other = false := by
    intro other hne
    rw [isMarked, getElem?_set_of_ne hne]
    exact h.unmarked_of_erased hentry hring hothers hne
  have hkinds : ∀ (other : Nat) (e : Page),
      (t.set page ⟨PageStatus.blank.withMarker, 0, 0⟩).pages[other]? = some e →
        e.kind = .erased := by
    intro other e he
    rcases getElem?_set_eq_some he with ⟨rfl, rfl⟩ | ⟨hne, he⟩
    · rfl
    · obtain ⟨e', he', hk⟩ := isKind_iff.mp (hothers other (lt_count he) hne)
      rw [he] at he'
      rw [Option.some.inj he', hk]
  have htracks : (t.set page ⟨PageStatus.blank.withMarker, 0, 0⟩).Tracks p
      ((img.erase page).setStatus page PageStatus.blank.withMarker) := by
    have hdescribes : Page.Describes { Page.blank with status := PageStatus.blank.withMarker }
        p.chip.checksum ((img.erase page).content page) := by
      rw [Image.content_erase_self]
      exact .of_blank (isBlank_replicate _) rfl rfl
    rw [← set_set .blank]
    exact h.tracks.erase.setStatus hdescribes
  refine ⟨by rw [count_set, h.count_eq], htracks, ⟨?_, ?_, ?_, ?_⟩, ?_⟩
  · intro other e he hk
    rw [hkinds other e he] at hk
    cases hk
  · rw [count_set]
    exact h.ordered.head_lt
  · have hstart : t.ringStart = page := by
      by_contra hne
      have hmark := h.ordered.marked
      rw [h.unmarked_of_erased hentry hring hothers hne] at hmark
      cases hmark
    rw [ringStart_set, hstart]
    exact isMarked_iff.mpr ⟨_, getElem?_set_self hpage, rfl⟩
  · intro erased other _ hmark hother
    have heq : ∀ x, (t.set page ⟨PageStatus.blank.withMarker, 0, 0⟩).isMarked x = true →
        x = page := by
      intro x hx
      by_contra hne
      rw [hunmarked x hne] at hx
      cases hx
    rw [heq erased hmark, heq other hother]
  · intro other e he hk
    rw [hkinds other e he] at hk
    cases hk

end Table

namespace Engine

open EngineM

variable {p : Partition} {conduct : Conduct} {anchored : Prop} {allowed : Partition.Holdings → Prop}
  {t : Table} {img : Image} {page : Nat} {entry : Page}

/-- A page with its content and its entry in the table, but for the marker, which it may have got. -/
structure Spared (page : Nat) (t : Table) (img : Image) (t' : Table) (img' : Image) : Prop where
  content_eq : img'.content page = img.content page
  entry_eq : t'.pages[page]? = t.pages[page]? ∨
    t'.pages[page]? =
      t.pages[page]?.map fun entry => { entry with status := entry.status.withMarker }

namespace Spared

variable {t₁ t' : Table} {img₁ img' : Image}

theorem refl (page : Nat) (t : Table) (img : Image) : Spared page t img t img := ⟨rfl, Or.inl rfl⟩

theorem trans (h : Spared page t img t₁ img₁) (h' : Spared page t₁ img₁ t' img') :
    Spared page t img t' img' := by
  refine ⟨h'.content_eq.trans h.content_eq, ?_⟩
  rcases h'.entry_eq with hsame' | hmarked'
  · rw [hsame']
    exact h.entry_eq
  · refine Or.inr (hmarked'.trans ?_)
    rcases h.entry_eq with hsame | hmarked
    · rw [hsame]
    · rw [hmarked, Option.map_map]
      rfl

theorem extent?_eq (h : Spared page t img t' img') : t'.extent? page = t.extent? page := by
  rcases h.entry_eq with hsame | hmarked
  · rw [Table.extent?, Table.extent?, hsame]
  · rw [Table.extent?, Table.extent?, hmarked, Option.map_map]
    rfl

end Spared

/-- What a reclaim leaves behind. -/
structure Reclaimed (p : Partition) (page : Nat) (t : Table) (img : Image) (t' : Table)
    (img' : Image) : Prop where
  mirrors : t'.Mirrors p img'
  live_eq : p.live img' = p.live img
  head_eq : t'.head = t.head
  erased : t'.extent? page = some (.erased, 0)
  spared : ∀ other, other ≠ page → Spared other t img t' img'
  once : t.MarkedOnce → t'.MarkedOnce

theorem Reclaimed.others {t' : Table} {img' : Image} (h : Reclaimed p page t img t' img')
    (other : Nat) (hne : other ≠ page) : t'.extent? other = t.extent? other :=
  (h.spared other hne).extent?_eq

/-- The page where the ring starts is reclaimed, with the marker on the next used page first. -/
theorem ensures_handOver (hu : p.Usable) (h : t.MirrorsBut p img page)
    (hentry : t.pages[page]? = some entry) (hkind : entry.kind ≠ .erased)
    (hring : entry.status.ringStart = true) (hlive : p.live img page = []) {next : Nat}
    {successor : Page} (hsuccessor : t.pages[next]? = some successor)
    (hused : successor.kind ≠ .erased) (hne : next ≠ page) :
    Ensures p conduct (p.Secure conduct anchored allowed) (do
        setStatus p next successor.status.withMarker
        modify ({ · with ringStart := next })
        erasePage p page) t img
      (fun _ t' img' => Reclaimed p page t img t' img') noError := by
  have hcount := h.count_eq
  have hnext : next < p.pageCount := hcount ▸ Table.lt_count hsuccessor
  have hhand := h.handOver hentry hkind hring hsuccessor hused hne
  have hstatus := (h.tracks next successor hsuccessor).1
  have hsame : p.live (img.setStatus next successor.status.withMarker) = p.live img :=
    Partition.live_setStatus hstatus (Or.inl rfl)
  have hlive' : p.live (img.setStatus next successor.status.withMarker) page = [] := by
    rw [hsame, hlive]
  refine (ensures_setStatus hu hcount hsuccessor hstatus (PageStatus.toByte_and_withMarker _)
    fun hinv : p.Secure conduct anchored allowed img => ⟨fun hanchored => ?_, ?_,
      fun hanchored hwhole => (hinv.orderly hanchored hwhole).setStatus fun hk =>
        ⟨_, hstatus, hk⟩⟩).bind ?_
  · exact (hinv.anchored hanchored).setStatus hnext hstatus (fun _ => rfl)
      (fun heq => absurd (congrArg PageStatus.kind heq) hused) (Or.inl rfl)
  · rw [hsame]
    exact hinv.allowed
  rintro _ t' img' ⟨rfl, rfl⟩
  refine ensures_modify_bind ?_
  -- From here on two pages carry the marker, so the erase of one leaves the flash anchored.
  have hentry' : ({ t.set next { successor with status := successor.status.withMarker } with
      ringStart := next } : Table).pages[page]? = some entry :=
    (Table.getElem?_set_of_ne hne.symm).trans hentry
  refine (ensures_eraseEmpty hu hhand.count_eq hentry' hlive' fun _ =>
    Or.inl ⟨next, hnext, hne, _, Image.status_setStatus_self, rfl⟩).weaken ?_
  rintro _ t' img' ⟨rfl, rfl⟩
  refine ⟨hhand.erase hne, (Partition.live_erase_of_nil hlive').trans hsame, rfl,
    Table.extent?_set_self (Table.lt_count hentry'), fun other hother =>
      ⟨Image.content_erase_of_ne hother, ?_⟩, fun honce => ?_⟩
  · rw [Table.getElem?_set_of_ne hother]
    by_cases heq : other = next
    · rw [heq, hsuccessor]
      exact Or.inr (Table.getElem?_set_self (Table.lt_count hsuccessor))
    · exact Or.inl (Table.getElem?_set_of_ne heq)
  · -- The marker was on the reclaimed page alone.
    have hstart : page = t.ringStart := honce page (Table.isMarked_iff.mpr ⟨entry, hentry, hring⟩)
    intro other hmark
    obtain ⟨e, he, hcarries⟩ := Table.isMarked_iff.mp hmark
    rcases Table.getElem?_set_eq_some he with ⟨rfl, rfl⟩ | ⟨hother, he⟩
    · cases hcarries
    · rcases Table.getElem?_set_eq_some he with ⟨rfl, -⟩ | ⟨-, he⟩
      · rfl
      · have heq := honce other (Table.isMarked_iff.mpr ⟨e, he, hcarries⟩)
        exact absurd (heq.trans hstart.symm) hother

/-- The page where the ring starts is reclaimed and marked again, where no other page is used. -/
theorem ensures_restart (hu : p.Usable) (h : t.MirrorsBut p img page)
    (hentry : t.pages[page]? = some entry) (hring : entry.status.ringStart = true)
    (hlive : p.live img page = [])
    (hothers : ∀ other < t.count, other ≠ page → t.isKind .erased other = true) :
    Ensures p conduct (p.Secure conduct anchored allowed) (do
        erasePage p page
        setStatus p page PageStatus.blank.withMarker) t img
      (fun _ t' img' => Reclaimed p page t img t' img') noError := by
  have hpage := Table.lt_count hentry
  have hcount := h.count_eq
  -- In between no page carries the marker, but neither is any page used.
  refine (ensures_eraseEmpty hu hcount hentry hlive fun _ => Or.inr fun other hother hne => ?_).bind ?_
  · obtain ⟨e, he, hk⟩ := Table.isKind_iff.mp (hothers other (hcount ▸ hother) hne)
    have hmark := h.unmarked_of_erased hentry hring hothers hne
    rw [Table.isMarked_eq he] at hmark
    rw [(h.tracks other e he).1]
    exact congrArg some (PageStatus.eq_blank hk hmark)
  rintro _ t' img' ⟨rfl, rfl⟩
  have hself : (t.set page .blank).pages[page]? = some .blank := Table.getElem?_set_self hpage
  have hsame : p.live ((img.erase page).setStatus page PageStatus.blank.withMarker) =
      p.live (img.erase page) := Partition.live_setStatus Image.status_erase_self (Or.inl rfl)
  refine (ensures_setStatus hu (by rw [Table.count_set, hcount]) hself Image.status_erase_self rfl
    fun hinv : p.Secure conduct anchored allowed (img.erase page) => ⟨fun hanchored => ?_, ?_,
      fun hanchored hwhole => (hinv.orderly hanchored hwhole).setStatus fun hk =>
        absurd hk (by decide)⟩).weaken ?_
  · refine (hinv.anchored hanchored).setStatus (hcount ▸ hpage) Image.status_erase_self
      (fun _ => rfl) (fun _ => ?_) (Or.inl rfl)
    rw [Image.content_erase_self]
    exact isBlank_replicate _
  · rw [hsame]
    exact hinv.allowed
  rintro _ t' img' ⟨rfl, rfl⟩
  rw [Table.set_set]
  exact ⟨h.restart hentry hring hothers, hsame.trans (Partition.live_erase_of_nil hlive), rfl,
    Table.extent?_set_self hpage, fun other hother =>
      ⟨Image.content_erase_of_ne hother, Or.inl (Table.getElem?_set_of_ne hother)⟩,
    fun honce => honce.set fun _ => Table.isMarked_iff.mpr ⟨entry, hentry, hring⟩⟩

/-- **A page without live records is reclaimed.** -/
theorem ensures_reclaim (hu : p.Usable) (h : t.MirrorsBut p img page)
    (hentry : t.pages[page]? = some entry) (hkind : entry.kind ≠ .erased)
    (hlive : p.live img page = []) :
    Ensures p conduct (p.Secure conduct anchored allowed) (reclaim p page) t img
      (fun _ t' img' => Reclaimed p page t img t' img') noError := by
  have hpage := Table.lt_count hentry
  unfold reclaim
  refine ensures_pageAt_bind hentry ?_
  split
  · next hring =>
    refine ensures_get_bind ?_
    split
    · next next hnext =>
      obtain ⟨hne, successor, hsuccessor, hused⟩ := Table.exists_of_successor? hpage hnext
      refine ensures_pageAt_bind hsuccessor ?_
      exact ensures_handOver hu h hentry hkind hring hlive hsuccessor hused hne
    · next hnone =>
      exact ensures_restart hu h hentry hring hlive fun other hother =>
        Table.isKind_of_successor?_eq_none hpage hnone hother
  · next hring =>
    rw [Bool.not_eq_true] at hring
    refine ensures_of_inv fun hinv => ?_
    have hstart : t.ringStart ≠ page := by
      rintro rfl
      have hmark := h.ordered.marked
      rw [Table.isMarked_eq hentry, hring] at hmark
      cases hmark
    refine (ensures_eraseEmpty hu h.count_eq hentry hlive fun hanchored =>
      (hinv.anchored hanchored).other_of_unmarked (h.tracks page entry hentry).1 hring).weaken ?_
    rintro _ t' img' ⟨rfl, rfl⟩
    exact ⟨h.erase hstart, Partition.live_erase_of_nil hlive, rfl, Table.extent?_set_self hpage,
      fun other hother =>
        ⟨Image.content_erase_of_ne hother, Or.inl (Table.getElem?_set_of_ne hother)⟩,
      fun honce => honce.set fun hmark => by cases hmark⟩

/-- A live record is a record of its page, and the page is one that the table knows. -/
theorem exists_record (h : t.Mirrors p img) {offset : Nat} {record : Record}
    (hlive : (offset, record) ∈ p.live img page) :
    ∃ entry before after, t.pages[page]? = some entry ∧ entry.kind.holdsRecords = true ∧
      (img.log page).records = before ++ record :: after ∧ offset = Log.span before ∧
      record.isLive p.chip.checksum = true := by
  have hpage := Partition.lt_of_mem_live hlive
  obtain ⟨entry, hentry⟩ := Table.exists_entry (h.count_eq ▸ hpage)
  rw [h.tracks.live_eq h.count_eq hentry] at hlive
  split at hlive
  · next hholds =>
    obtain ⟨hmem, hlive⟩ := List.mem_filter.mp hlive
    obtain ⟨before, after, hrecords, hoffset⟩ := Log.mem_locate hmem
    rw [Nat.zero_add] at hoffset
    exact ⟨entry, before, after, hentry, hholds, hrecords, hoffset, hlive⟩
  · cases hlive

/-- The stage and the extent of a full page whose last live record was dropped. -/
def emptied : ReclaimPolicy → Nat → PageKind × Nat
  | .immediate, _ => (.erased, 0)
  | .deferred, used => (.unavailable, used)

/-- What becomes of the stage and the extent of a page when these are the live records left. -/
def fade (policy : ReclaimPolicy) (records : List (Nat × Record)) (extent : PageKind × Nat) :
    PageKind × Nat :=
  if extent.1 = .full ∧ records = [] then emptied policy extent.2 else extent

theorem fade_of_full {policy : ReclaimPolicy} {records : List (Nat × Record)}
    {extent : PageKind × Nat} (hfull : extent.1 = .full) (hnil : records = []) :
    fade policy records extent = emptied policy extent.2 := if_pos ⟨hfull, hnil⟩

theorem emptied_ne_full (policy : ReclaimPolicy) (used : Nat) : (emptied policy used).1 ≠ .full := by
  cases policy <;> nofun

theorem fade_of_ne_full {policy : ReclaimPolicy} {records : List (Nat × Record)}
    {extent : PageKind × Nat} (h : extent.1 ≠ .full) : fade policy records extent = extent :=
  if_neg fun hfull => h hfull.1

theorem fade_of_ne_nil {policy : ReclaimPolicy} {records : List (Nat × Record)}
    {extent : PageKind × Nat} (h : records ≠ []) : fade policy records extent = extent :=
  if_neg fun hnil => h hnil.2

/-- Records were dropped, and these are the live ones left. -/
structure Faded (policy : ReclaimPolicy) (L : Partition.Holdings) (t t' : Table) : Prop where
  extents : ∀ page, t'.extent? page = (t.extent? page).map (fade policy (L page))
  once : t.MarkedOnce → t'.MarkedOnce

namespace Faded

variable {policy : ReclaimPolicy} {L L' : Partition.Holdings} {t₁ t' : Table}

/-- At most one page has changed. -/
theorem of_others (hentry : t.pages[page]? = some entry)
    (hself : t'.extent? page = some (fade policy (L page) (entry.kind, entry.used)))
    (hothers : ∀ other, other ≠ page → t'.extent? other = t.extent? other)
    (hheld : ∀ other e, other ≠ page → t.pages[other]? = some e → e.kind = .full → L other ≠ [])
    (honce : t.MarkedOnce → t'.MarkedOnce) : Faded policy L t t' := by
  refine ⟨fun other => ?_, honce⟩
  by_cases heq : other = page
  · subst heq
    rw [hself, Table.extent?_eq hentry]
    rfl
  · rw [hothers other heq]
    cases he : t.pages[other]? with
    | none => rw [Table.extent?, he]; rfl
    | some e =>
      rw [Table.extent?_eq he, Option.map_some]
      by_cases hfull : e.kind = .full
      · rw [fade_of_ne_nil (hheld other e heq he hfull)]
      · rw [fade_of_ne_full hfull]

theorem of_extents (h : Faded policy L t₁ t') (hextents : ∀ page, t₁.extent? page = t.extent? page)
    (honce : t.MarkedOnce → t₁.MarkedOnce) : Faded policy L t t' :=
  ⟨fun page => by rw [h.extents, hextents], fun hmarked => h.once (honce hmarked)⟩

/-- Nothing was dropped yet. -/
theorem refl (h : t.Mirrors p img) : Faded policy (p.live img) t t := by
  refine ⟨fun page => ?_, id⟩
  cases he : t.pages[page]? with
  | none => rw [Table.extent?, he]; rfl
  | some e =>
    rw [Table.extent?_eq he, Option.map_some]
    by_cases hfull : e.kind = .full
    · rw [fade_of_ne_nil (h.live_ne_nil he hfull)]
    · rw [fade_of_ne_full hfull]

/-- A page that has no live records left gets none later. -/
theorem trans (h : Faded policy L t t₁) (h' : Faded policy L' t₁ t')
    (hnil : ∀ page, L page = [] → L' page = []) : Faded policy L' t t' := by
  refine ⟨fun page => ?_, fun hmarked => h'.once (h.once hmarked)⟩
  rw [h'.extents, h.extents, Option.map_map]
  refine congrArg (fun f => Option.map f (t.extent? page)) (funext fun extent => ?_)
  show fade policy (L' page) (fade policy (L page) extent) = fade policy (L' page) extent
  by_cases hfaded : extent.1 = .full ∧ L page = []
  · rw [fade_of_full hfaded.1 hfaded.2, fade_of_full hfaded.1 (hnil page hfaded.2),
      fade_of_ne_full (emptied_ne_full policy _)]
  · rw [show fade policy (L page) extent = extent from if_neg hfaded]

end Faded

/-- What a dropped record leaves behind.  As long as its page is not erased, nothing moves behind the
record; where the page may only be set aside, nothing else changes at all. -/
structure Dropped (p : Partition) (location : Location) (policy : ReclaimPolicy) (t : Table)
    (img : Image) (t' : Table) (img' : Image) : Prop where
  mirrors : t'.Mirrors p img'
  live_eq : p.live img' = (p.live img).without location
  faded : Faded policy (p.live img') t t'
  thinned : policy = .deferred → p.Thinned t img t' img'
  drop_eq : (policy = .deferred ∨
      ∃ entry, t'.pages[location.page]? = some entry ∧ entry.kind.holdsRecords = true) →
    ∀ start, location.offset + headerSize ≤ start →
      (img'.content location.page).drop start = (img.content location.page).drop start

/-- What became of a page that lost a live record.  Unless it is erased, its content stays. -/
structure Settles (p : Partition) (page : Nat) (policy : ReclaimPolicy) (t : Table) (img : Image)
    (t' : Table) (img' : Image) : Prop where
  mirrors : t'.Mirrors p img'
  live_eq : p.live img' = p.live img
  faded : Faded policy (p.live img') t t'
  thins : policy = .deferred → t.Thins (p.live img') t' ∧ img'.content = img.content
  content_eq : (policy = .deferred ∨ ∃ e, t'.pages[page]? = some e ∧ e.kind.holdsRecords = true) →
    img'.content page = img.content page

theorem Settles.refl (h : t.Mirrors p img) (policy : ReclaimPolicy) :
    Settles p page policy t img t img :=
  ⟨h, rfl, .refl h, fun _ => ⟨h.thins, rfl⟩, fun _ => rfl⟩

/-- A page that was emptied is given back at once. -/
theorem ensures_giveBack (hu : p.Usable) (h : t.MirrorsBut p img page)
    (hentry : t.pages[page]? = some entry) (hfull : entry.kind = .full) (hlive : p.live img page = []) :
    Ensures p conduct (p.Secure conduct anchored allowed) (reclaim p page) t img
      (fun _ t' img' => Settles p page .immediate t img t' img') noError := by
  refine (ensures_reclaim hu h hentry (by rw [hfull]; decide) hlive).weaken ?_
  intro _ t' img' hreclaimed
  have hlive' := hreclaimed.live_eq
  have herased := hreclaimed.erased
  refine ⟨hreclaimed.mirrors, hlive', .of_others hentry ?_ hreclaimed.others ?_ hreclaimed.once,
    nofun, ?_⟩
  · rw [herased, hlive', fade_of_full hfull hlive]
    rfl
  · exact hlive' ▸ fun other e => h.live_ne_nil
  · rintro (hdeferred | ⟨e, he, hholds⟩)
    · cases hdeferred
    · rw [Table.extent?_eq he] at herased
      rw [(Prod.mk.inj (Option.some.inj herased)).1] at hholds
      cases hholds

/-- A page that was emptied is set aside for the sweep. -/
theorem ensures_setAside (hu : p.Usable) (h : t.MirrorsBut p img page)
    (hentry : t.pages[page]? = some entry) (hfull : entry.kind = .full) (hzero : entry.live = 0)
    (hlive : p.live img page = []) :
    Ensures p conduct (p.Secure conduct anchored allowed)
      (setStatus p page (entry.status.withKind .unavailable)) t img
      (fun _ t' img' => Settles p page .deferred t img t' img') noError := by
  refine (ensures_setStatus_unavailable hu (p.robust_secure _ _ _) h.count_eq h.tracks hentry hfull hzero).weaken ?_
  rintro _ t' img' ⟨rfl, rfl, htracks, hlive'⟩
  have hset := h.set hentry htracks rfl (show PageKind.unavailable ≠ .erased by decide)
    fun hk => absurd hk (show PageKind.unavailable ≠ .active by decide)
  have hself : (t.set page { entry with status := entry.status.withKind .unavailable }).pages[
      page]? = some _ := Table.getElem?_set_self (Table.lt_count hentry)
  have hmirrors := hset.mirrors hself fun hk =>
    absurd hk (show PageKind.unavailable ≠ .full by decide)
  refine ⟨hmirrors, hlive', .of_others hentry ?_ (fun other => Table.extent?_set_of_ne) ?_
    fun honce => honce.set fun hring => Table.isMarked_iff.mpr ⟨entry, hentry, hring⟩,
    fun _ => ⟨hlive' ▸ h.thins_unavailable hentry hfull hzero hlive, rfl⟩, fun _ => rfl⟩
  · rw [Table.extent?_eq hself, hlive', fade_of_full hfull hlive]
    rfl
  · exact hlive' ▸ fun other e => h.live_ne_nil

/-- A full page that was emptied is given back or set aside; any other page stays as it is. -/
theorem ensures_settleEmptied (hu : p.Usable) (h : t.MirrorsBut p img page)
    (hentry : t.pages[page]? = some entry) (hholds : entry.kind.holdsRecords = true)
    (policy : ReclaimPolicy) :
    Ensures p conduct (p.Secure conduct anchored allowed)
      (if entry.live = 0 then
        match entry.kind, policy with
        | .full, .immediate => reclaim p page
        | .full, .deferred => setStatus p page (entry.status.withKind .unavailable)
        | _, _ => pure ()
      else pure ()) t img
      (fun _ t' img' => Settles p page policy t img t' img') noError := by
  by_cases hzero : entry.live = 0
  · rw [if_pos hzero]
    have hlive : p.live img page = [] := by
      refine List.eq_nil_of_length_eq_zero ?_
      rw [← h.tracks.length_live h.count_eq hentry, hzero]
    cases hkind : entry.kind with
    | erased => exact absurd hkind (PageKind.ne_erased_of_holdsRecords hholds)
    | unavailable => rw [hkind] at hholds; cases hholds
    | active =>
      exact ensures_pure (.refl (h.mirrors hentry fun hfull => by rw [hkind] at hfull; cases hfull) _)
    | full =>
      cases policy with
      | immediate => exact ensures_giveBack hu h hentry hkind hlive
      | deferred => exact ensures_setAside hu h hentry hkind hzero hlive
  · rw [if_neg hzero]
    exact ensures_pure (.refl (h.mirrors hentry fun _ => Nat.pos_of_ne_zero hzero) _)

/-- The content of a page with the record struck that begins at an offset. -/
abbrev struck (img : Image) (page offset : Nat) : Image :=
  img.setContent page (programmed (img.content page) (offset + keyOffset) tombstoneBytes)

/-- The steps of a drop: the record is struck, the page counts one live record less, and it is given back
if it was emptied. -/
theorem ensures_strike (hu : p.Usable) {offset : Nat} (hentry : t.pages[page]? = some entry)
    (hholds : entry.kind.holdsRecords = true)
    (htombstone : AccessM.Ensures p conduct (p.Secure conduct anchored allowed)
      (p.writeTombstone page offset) img fun _ img' => img' = struck img page offset)
    (hbut : (t.set page { entry with live := entry.live - 1 }).MirrorsBut p (struck img page offset)
      page) (policy : ReclaimPolicy) :
    Ensures p conduct (p.Secure conduct anchored allowed) (drop p ⟨page, offset⟩ policy) t img
      (fun _ t' img' => Settles p page policy (t.set page { entry with live := entry.live - 1 })
        (struck img page offset) t' img') noError := by
  unfold drop
  refine ensures_pageAt_bind hentry ?_
  refine (ensures_perform htombstone).bind ?_
  rintro _ t' img' ⟨rfl, rfl⟩
  refine ensures_modify_bind ?_
  have hself : (t'.set page { entry with live := entry.live - 1 }).pages[page]? = some _ :=
    Table.getElem?_set_self (Table.lt_count hentry)
  exact ensures_settleEmptied hu hbut hself hholds policy

/-- Where the page of a struck record is not erased, nothing has moved behind its header. -/
theorem Settles.drop_eq {offset : Nat} {policy : ReclaimPolicy} {t₁ t' : Table} {img' : Image}
    (h : Settles p page policy t₁ (struck img page offset) t' img')
    (hpolicy : policy = .deferred ∨ ∃ e, t'.pages[page]? = some e ∧ e.kind.holdsRecords = true)
    {start : Nat} (hstart : offset + headerSize ≤ start) :
    (img'.content page).drop start = (img.content page).drop start := by
  rw [h.content_eq hpolicy, Image.content_setContent_self]
  exact drop_programmed _ _ (by simpa [tombstoneBytes, keyOffset, headerSize] using hstart)

/-- The table mirrors a flash in which a live record was struck, but for what becomes of its page. -/
theorem mirrorsBut_struck (h : t.Mirrors p img) {before after : List Record} {record : Record}
    (hentry : t.pages[page]? = some entry) (hholds : entry.kind.holdsRecords = true)
    (hrecords : (img.log page).records = before ++ record :: after)
    (hrecord : record.isLive p.chip.checksum = true) :
    (t.set page { entry with live := entry.live - 1 }).MirrorsBut p (struck img page (Log.span before))
        page ∧
      p.live (struck img page (Log.span before)) =
        (p.live img).without ⟨page, Log.span before⟩ := by
  have hpage : page < p.pageCount := h.count_eq ▸ Table.lt_count hentry
  obtain ⟨hstatus, hdescribes⟩ := h.tracks page entry hentry
  have hparse := Log.parse_programmed_tombstone hrecords
  have htracks : (t.set page { entry with live := entry.live - 1 }).Tracks p
      (struck img page (Log.span before)) :=
    h.tracks.setContent hstatus (hdescribes.dropped hholds hrecords hrecord hparse)
  exact ⟨(h.but page).set hentry htracks rfl (PageKind.ne_erased_of_holdsRecords hholds)
    (h.ordered.eq_head page entry hentry),
    Partition.Holdings.live_setContent_dropped hpage hstatus hholds hrecords hparse⟩

/-- **A dropped record is gone, and all others stay.** -/
theorem ensures_drop (hu : p.Usable) (h : t.Mirrors p img) {record : Record} (location : Location)
    (policy : ReclaimPolicy) (hlive : (location.offset, record) ∈ p.live img location.page)
    (hallowed : conduct ≠ .tearing → allowed ((p.live img).without location))
    (hscratched : conduct = .splitting → ∀ half, Key.IsHalf record.header.key half → ∀ L',
      (p.live img).Rekeyed location record half L' → allowed L') :
    Ensures p conduct (p.Secure conduct anchored allowed) (drop p location policy) t img
      (fun _ t' img' => Dropped p location policy t img t' img') noError := by
  obtain ⟨page, offset⟩ := location
  obtain ⟨entry, before, after, hentry, hholds, hrecords, rfl, hrecord⟩ := exists_record h hlive
  have hpage : page < p.pageCount := h.count_eq ▸ Table.lt_count hentry
  have hstatus := (h.tracks page entry hentry).1
  have hnot : entry.kind ≠ .erased := PageKind.ne_erased_of_holdsRecords hholds
  obtain ⟨hbut, hlive'⟩ := mirrorsBut_struck h hentry hholds hrecords hrecord
  refine ensures_of_inv fun hinv => ?_
  refine (ensures_strike hu hentry hholds (Partition.ensures_tombstone hu hpage hstatus hnot hrecords
    (fun hconduct => by rw [hlive']; exact hallowed hconduct) fun hsplitting skipped count => ?_)
      hbut policy).weaken ?_
  · -- A torn tombstone may leave the record under half of its key.
    have hconduct := Conduct.ne_tearing hsplitting
    rcases Partition.Holdings.live_programmed_tombstone_part hpage hstatus hholds hrecords hrecord
      skipped count with hsame | hgone | ⟨half, hhalf, hrekeyed⟩
    · exact hsame ▸ hinv.allowed hconduct
    · exact hgone ▸ hallowed hconduct
    · exact hscratched hsplitting half hhalf _ hrekeyed
  · intro _ t' img' hsettles
    have hlive'' := hsettles.live_eq.trans hlive'
    refine ⟨hsettles.mirrors, hlive'', hsettles.faded.of_extents (Table.extent?_set hentry rfl rfl)
      fun honce => honce.set fun hring => Table.isMarked_iff.mpr ⟨entry, hentry, hring⟩,
      fun hdeferred => ?_, fun hpolicy _ hstart => hsettles.drop_eq hpolicy hstart⟩
    obtain ⟨hthins, hsame⟩ := hsettles.thins hdeferred
    exact .dropped hlive hsame hlive'' (.of_withLive hentry hthins)

/-! ## The sweep -/

/-- What becomes of the stage and the extent of a page that is swept. -/
def swept (extent : PageKind × Nat) : PageKind × Nat :=
  if extent.1 = .unavailable then (.erased, 0) else extent

/-- A sweep on its way: the pages ahead and those that do not wait for their erase are spared, the others
are swept and counted. -/
structure Sweeping (p : Partition) (first : Table) (start : Image) (pages : List Nat) (count : Nat)
    (t : Table) (img : Image) : Prop where
  mirrors : t.Mirrors p img
  live_eq : p.live img = p.live start
  head_eq : t.head = first.head
  nodup : pages.Nodup
  spared : ∀ page, page ∈ pages ∨ first.isKind .unavailable page = false →
    Spared page first start t img
  passed : ∀ page, page ∉ pages → t.extent? page = (first.extent? page).map swept
  counted : count + pages.countP (first.isKind .unavailable) =
    (List.range first.count).countP (first.isKind .unavailable)
  once : first.MarkedOnce → t.MarkedOnce

/-- At the start all pages are ahead. -/
theorem Sweeping.start (h : t.Mirrors p img) : Sweeping p t img (List.range t.count) 0 t img := by
  refine ⟨h, rfl, rfl, List.nodup_range, fun page _ => .refl page t img, fun page hpage => ?_,
    Nat.zero_add _, id⟩
  cases he : t.pages[page]? with
  | none => rw [Table.extent?, he]; rfl
  | some e => exact absurd (List.mem_range.mpr (Table.lt_count he)) hpage

theorem ensures_sweepPage (hu : p.Usable) {first : Table} {start : Image} {count : Nat}
    {rest : List Nat} (h : Sweeping p first start (page :: rest) count t img)
    (hpage : page < p.pageCount) :
    Ensures p conduct (p.Secure conduct anchored allowed) (sweepPage p count page) t img
      (fun count' t' img' => Sweeping p first start rest count' t' img') noError := by
  obtain ⟨entry, hentry⟩ := Table.exists_entry (h.mirrors.count_eq ▸ hpage)
  obtain ⟨hfresh, hrest⟩ := List.nodup_cons.mp h.nodup
  have hbefore : first.extent? page = some (entry.kind, entry.used) := by
    rw [← (h.spared page (Or.inl List.mem_cons_self)).extent?_eq, Table.extent?_eq hentry]
  have hcounted := h.counted
  rw [List.countP_cons, Table.isKind_of_extent? hbefore] at hcounted
  unfold sweepPage
  refine ensures_pageAt_bind hentry ?_
  split
  · next hkind =>
    have hnil : p.live img page = [] := h.mirrors.live_eq_nil hentry (by rw [hkind]; decide)
    refine (ensures_reclaim hu (h.mirrors.but page) hentry (by rw [hkind]; decide) hnil).bind ?_
    intro _ t' img' hreclaimed
    refine ensures_pure ⟨hreclaimed.mirrors, hreclaimed.live_eq.trans h.live_eq,
      hreclaimed.head_eq.trans h.head_eq, hrest, fun other hother => ?_, fun other hother => ?_, ?_,
      fun honce => hreclaimed.once (h.once honce)⟩
    · have hne : other ≠ page := by
        rintro rfl
        rcases hother with hmem | hnot
        · exact hfresh hmem
        · rw [Table.isKind_of_extent? hbefore, hkind] at hnot
          cases hnot
      exact (h.spared other (hother.imp_left (List.mem_cons_of_mem page))).trans
        (hreclaimed.spared other hne)
    · by_cases heq : other = page
      · rw [heq, hreclaimed.erased, hbefore, Option.map_some, swept, if_pos hkind]
      · rw [hreclaimed.others other heq, h.passed other (by simp [heq, hother])]
    · rw [hkind, if_pos (by rfl)] at hcounted
      omega
  · next hkind =>
    refine ensures_pure ⟨h.mirrors, h.live_eq, h.head_eq, hrest,
      fun other hother => h.spared other (hother.imp_left (List.mem_cons_of_mem page)),
      fun other hother => ?_, ?_, h.once⟩
    · by_cases heq : other = page
      · rw [heq, Table.extent?_eq hentry, hbefore, Option.map_some, swept, if_neg hkind]
      · exact h.passed other (by simp [heq, hother])
    · rw [if_neg (by simpa using hkind)] at hcounted
      exact hcounted

/-- A sweep gets to the end of the table. -/
theorem ensures_sweeping (hu : p.Usable) (h : t.Mirrors p img) :
    Ensures p conduct (p.Secure conduct anchored allowed) (sweep p) t img
      (fun count t' img' => Sweeping p t img [] count t' img') noError := by
  unfold sweep
  refine ensures_get_bind ?_
  refine ensures_foldlM (Sweeping p t img) ?_ (.start h)
  intro page hpage rest count t' img' hsweeping
  rw [List.mem_range, h.count_eq] at hpage
  exact ensures_sweepPage hu hsweeping hpage

/-- **A sweep erases the pages that wait for it** and counts them. -/
theorem ensures_sweep (hu : p.Usable) (h : t.Mirrors p img) :
    Ensures p conduct (p.Secure conduct anchored allowed) (sweep p) t img
      (fun count t' img' => t'.Mirrors p img' ∧ p.live img' = p.live img ∧
        (∀ page, t'.extent? page = (t.extent? page).map swept) ∧
        count = (List.range t.count).countP (t.isKind .unavailable) ∧
        (t.MarkedOnce → t'.MarkedOnce)) noError :=
  (ensures_sweeping hu h).weaken fun _ _ _ hswept =>
    ⟨hswept.mirrors, hswept.live_eq, fun page => hswept.passed page List.not_mem_nil,
      hswept.counted, hswept.once⟩

end Engine

end RingStore
