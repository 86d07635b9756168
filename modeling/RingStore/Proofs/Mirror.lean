import RingStore.Proofs.Image
import RingStore.Table

/-!
# The page table as a mirror of the flash

`Table.Tracks` says that every entry of the table describes its page in the flash: the status is the
one in the status byte, an erased page is blank, and the counters are those of the page's log.
`Table.Ordered` is what holds of the table alone: appends go to the head, and the ring starts at a
marked page.  `Table.Mirrors` is both together, with the fact that full pages hold live records.  It is
the invariant that all operations keep.

## Main statements

* `Table.Tracks.setStatus`, `Table.Tracks.setContent`, `Table.Tracks.erase`: a change of the flash and
  the matching change of the table.
* `Table.Ordered.set`, `Table.MirrorsBut.set`: an entry may be replaced by one with the same marker.
-/

namespace RingStore

/-! ## Status bytes -/

namespace PageStatus

/-- The stages follow one another by clearing bits. -/
theorem toByte_and_next (status : PageStatus) :
    status.toByte &&& (status.withKind status.kind.next).toByte =
      (status.withKind status.kind.next).toByte := by
  obtain ⟨kind, ringStart⟩ := status
  cases kind <;> cases ringStart <;> rfl

theorem toByte_and_withKind (status : PageStatus) {kind : PageKind} (h : status.kind.next = kind) :
    status.toByte &&& (status.withKind kind).toByte = (status.withKind kind).toByte :=
  h ▸ status.toByte_and_next

theorem eq_blank {status : PageStatus} (hkind : status.kind = .erased)
    (hring : status.ringStart = false) : status = .blank := by
  obtain ⟨kind, ringStart⟩ := status
  cases hkind
  cases hring
  rfl

theorem toByte_and_withMarker (status : PageStatus) :
    status.toByte &&& status.withMarker.toByte = status.withMarker.toByte := by
  obtain ⟨kind, ringStart⟩ := status
  cases kind <;> cases ringStart <;> rfl

end PageStatus

/-! ## Entries of the table -/

/-- An entry of the page table describes a content. -/
structure Page.Describes (entry : Page) (checksum : Checksum) (content : Bytes) : Prop where
  blank_of_erased : entry.kind = .erased → isBlank content = true ∧ entry.used = 0 ∧ entry.live = 0
  used_eq : entry.kind.holdsRecords = true → entry.used = (Log.parse content).used
  live_eq : entry.kind.holdsRecords = true → entry.live = (Log.parse content).live checksum
  sound : entry.kind.holdsRecords = true → (Log.parse content).damaged checksum = []
  clean : entry.kind = .active → (Log.parse content).isClean = true
  empty : entry.kind = .unavailable → entry.live = 0

namespace Page.Describes

variable {entry : Page} {checksum : Checksum} {content : Bytes} {status : PageStatus}

/-- The stage decides what an entry says of a content; the marker does not. -/
theorem of_kind_eq (h : entry.Describes checksum content) (hkind : status.kind = entry.kind) :
    Page.Describes { entry with status } checksum content := by
  constructor <;> intro hk <;> rw [Page.kind] at hk <;> rw [hkind] at hk
  · exact h.blank_of_erased hk
  · exact h.used_eq hk
  · exact h.live_eq hk
  · exact h.sound hk
  · exact h.clean hk
  · exact h.empty hk

theorem of_blank (hblank : isBlank content = true) (hused : entry.used = 0) (hlive : entry.live = 0) :
    entry.Describes checksum content := by
  have hparse := Log.parse_of_isBlank hblank
  refine ⟨fun _ => ⟨hblank, hused, hlive⟩, fun _ => ?_, fun _ => ?_, fun _ => ?_, fun _ => ?_,
    fun _ => hlive⟩
  · rw [hused, hparse]; rfl
  · rw [hlive, hparse]; rfl
  · rw [hparse]; rfl
  · rw [hparse]; exact hblank

/-- An active page may be closed. -/
theorem closed (h : entry.Describes checksum content) (hactive : entry.kind = .active)
    (hkind : status.kind = .full) : Page.Describes { entry with status } checksum content := by
  have hholds : entry.kind.holdsRecords = true := by rw [hactive]; rfl
  refine ⟨?_, fun _ => h.used_eq hholds, fun _ => h.live_eq hholds, fun _ => h.sound hholds, ?_, ?_⟩
  all_goals
    intro hk
    rw [Page.kind, hkind] at hk
    cases hk

/-- A full page without live records may wait for its erase. -/
theorem emptied (h : entry.Describes checksum content) (hfull : entry.kind = .full)
    (hlive : entry.live = 0) (hkind : status.kind = .unavailable) :
    Page.Describes { entry with status } checksum content := by
  have hholds : entry.kind.holdsRecords = true := by rw [hfull]; rfl
  refine ⟨?_, fun _ => h.used_eq hholds, fun _ => h.live_eq hholds, fun _ => h.sound hholds, ?_,
    fun _ => hlive⟩
  all_goals
    intro hk
    rw [Page.kind, hkind] at hk
    cases hk

/-- An entry counts one live record more once that record is appended. -/
theorem appended (h : entry.Describes checksum content) (hactive : entry.kind = .active)
    {record : Record} {content' : Bytes} (hlive : record.isLive checksum = true)
    (hparse : Log.parse content' =
      ⟨(Log.parse content).records ++ [record], (Log.parse content).tail.drop record.size⟩) :
    Page.Describes { entry with used := entry.used + record.size, live := entry.live + 1 } checksum
      content' := by
  have hholds : entry.kind.holdsRecords = true := by rw [hactive]; rfl
  refine ⟨fun hk => ?_, fun _ => ?_, fun _ => ?_, fun _ => ?_, fun _ => ?_, fun hk => ?_⟩
  · have hk : entry.kind = .erased := hk
    rw [hactive] at hk
    cases hk
  · rw [hparse, Log.used_eq_span, Log.span_append, Log.span_cons, Log.span_nil, h.used_eq hholds]
    rfl
  · rw [hparse, Log.live_eq_length, Log.liveRecords_append _ _ _ _ (Log.parse content).tail hlive,
      List.length_append, h.live_eq hholds, Log.live_eq_length]
    rfl
  · rw [hparse, Log.damaged_eq_nil_iff]
    intro other hother hcarries
    rcases List.mem_append.mp hother with hmem | hmem
    · exact Log.damaged_eq_nil_iff.mp (h.sound hholds) other hmem hcarries
    · rw [List.mem_singleton.mp hmem]
      exact hlive
  · rw [hparse]
    exact isBlank_drop (h.clean hactive) _
  · have hk : entry.kind = .unavailable := hk
    rw [hactive] at hk
    cases hk

/-- A record in the place of a live one, of the same size: an entry counts one live record less if the
new one is not live. -/
theorem exchanged (h : entry.Describes checksum content) (hholds : entry.kind.holdsRecords = true)
    {before after : List Record} {record other : Record} {content' : Bytes}
    (hrecords : (Log.parse content).records = before ++ record :: after)
    (hlive : record.isLive checksum = true) (hsize : other.size = record.size)
    (hsound : other.header.carriesValue = true → other.isLive checksum = true)
    (hparse : Log.parse content' = ⟨before ++ other :: after, (Log.parse content).tail⟩) :
    Page.Describes { entry with
      live := if other.isLive checksum = true then entry.live else entry.live - 1 } checksum
        content' := by
  refine ⟨fun hk => ?_, fun _ => ?_, fun _ => ?_, fun _ => ?_, fun hk => ?_, fun hk => ?_⟩
  · exact absurd hk (PageKind.ne_erased_of_holdsRecords hholds)
  · have hused : (Log.parse content').used = (Log.parse content).used := by
      rw [Log.used_eq_span, Log.used_eq_span, hparse, hrecords]
      simp [hsize]
    exact (h.used_eq hholds).trans hused.symm
  · have hcount := h.live_eq hholds
    rw [Log.live, hrecords, List.countP_append, List.countP_cons, if_pos hlive] at hcount
    rw [hparse, Log.live, List.countP_append, List.countP_cons]
    split
    · exact hcount
    · show entry.live - 1 = _
      omega
  · have hdamaged := Log.damaged_eq_nil_iff.mp (h.sound hholds)
    rw [hrecords] at hdamaged
    rw [hparse, Log.damaged_eq_nil_iff]
    intro r hr hcarries
    rcases List.mem_append.mp hr with hmem | hmem
    · exact hdamaged r (by simp [hmem]) hcarries
    · rcases List.mem_cons.mp hmem with rfl | hmem
      · exact hsound hcarries
      · exact hdamaged r (by simp [hmem]) hcarries
  · rw [hparse]
    exact h.clean hk
  · have hk : entry.kind = .unavailable := hk
    rw [hk] at hholds
    cases hholds

/-- An entry counts one live record less once that record is dropped. -/
theorem dropped (h : entry.Describes checksum content) (hholds : entry.kind.holdsRecords = true)
    {before after : List Record} {record : Record} {content' : Bytes}
    (hrecords : (Log.parse content).records = before ++ record :: after)
    (hlive : record.isLive checksum = true)
    (hparse : Log.parse content' = ⟨before ++ record.dropped :: after, (Log.parse content).tail⟩) :
    Page.Describes { entry with live := entry.live - 1 } checksum content' :=
  h.exchanged hholds hrecords hlive record.size_dropped (fun hcarries => by cases hcarries) hparse

theorem live_records (h : entry.Describes checksum content)
    (hholds : entry.kind.holdsRecords = true) :
    entry.live = ((Log.parse content).liveRecords checksum).length := by
  rw [h.live_eq hholds, Log.live_eq_length]

end Page.Describes

namespace Table

variable {t : Table} {page other : Nat} {entry : Page}

@[simp] theorem count_set : (t.set page entry).count = t.count := Array.size_setIfInBounds

@[simp] theorem head_set : (t.set page entry).head = t.head := rfl

@[simp] theorem ringStart_set : (t.set page entry).ringStart = t.ringStart := rfl

theorem lt_count (h : t.pages[page]? = some entry) : page < t.count :=
  (Array.getElem?_eq_some_iff.mp h).1

theorem exists_entry (h : page < t.count) : ∃ entry, t.pages[page]? = some entry :=
  ⟨_, Array.getElem?_eq_getElem h⟩

theorem getElem?_set_self (h : page < t.count) : (t.set page entry).pages[page]? = some entry := by
  have hsize : page < t.pages.size := h
  rw [set, Array.getElem?_setIfInBounds, if_pos rfl, if_pos hsize]

theorem getElem?_set_of_ne (h : other ≠ page) :
    (t.set page entry).pages[other]? = t.pages[other]? := by
  rw [set, Array.getElem?_setIfInBounds, if_neg (Ne.symm h)]

theorem set_set (first : Page) : (t.set page first).set page entry = t.set page entry := by
  simp only [set, Array.setIfInBounds_setIfInBounds]

/-- An entry of a changed table is the new one or an old one. -/
theorem getElem?_set_eq_some {e : Page} (h : (t.set page entry).pages[other]? = some e) :
    other = page ∧ e = entry ∨ other ≠ page ∧ t.pages[other]? = some e := by
  by_cases heq : other = page
  · subst heq
    have hlt : other < t.count := by
      have hlt := lt_count h
      rwa [count_set] at hlt
    rw [getElem?_set_self hlt] at h
    exact Or.inl ⟨rfl, (Option.some.inj h).symm⟩
  · rw [getElem?_set_of_ne heq] at h
    exact Or.inr ⟨heq, h⟩

theorem isKind_iff {kind : PageKind} :
    t.isKind kind page = true ↔ ∃ entry, t.pages[page]? = some entry ∧ entry.kind = kind := by
  simp [isKind, kind?, Option.map_eq_some_iff]

theorem isMarked_iff :
    t.isMarked page = true ↔
      ∃ entry, t.pages[page]? = some entry ∧ entry.status.ringStart = true := by
  simp [isMarked, Option.any_eq_true]

theorem isKind_eq (h : t.pages[page]? = some entry) (kind : PageKind) :
    t.isKind kind page = (entry.kind == kind) := by
  rw [isKind, kind?, h]
  rfl

theorem kind_ne {kind : PageKind} (h : t.isKind kind page = false)
    (hentry : t.pages[page]? = some entry) : entry.kind ≠ kind := by
  rwa [isKind_eq hentry, beq_eq_false_iff_ne] at h

theorem isMarked_eq (h : t.pages[page]? = some entry) : t.isMarked page = entry.status.ringStart := by
  rw [isMarked, h]
  rfl

theorem kind?_eq (h : t.pages[page]? = some entry) : t.kind? page = some entry.kind := by
  rw [kind?, h]
  rfl

/-- An entry with the same marker changes no marker. -/
theorem isMarked_set {entry' : Page} (hentry : t.pages[page]? = some entry)
    (hring : entry'.status.ringStart = entry.status.ringStart) (other : Nat) :
    (t.set page entry').isMarked other = t.isMarked other := by
  by_cases heq : other = page
  · subst heq
    rw [isMarked_eq (getElem?_set_self (lt_count hentry)), isMarked_eq hentry, hring]
  · rw [isMarked, isMarked, getElem?_set_of_ne heq]

/-- The stage of a page and the bytes that its records take. -/
def extent? (t : Table) (page : Nat) : Option (PageKind × Nat) :=
  t.pages[page]?.map fun entry => (entry.kind, entry.used)

theorem extent?_eq (h : t.pages[page]? = some entry) :
    t.extent? page = some (entry.kind, entry.used) := by
  rw [extent?, h]
  rfl

theorem extent?_set_of_ne (h : other ≠ page) : (t.set page entry).extent? other = t.extent? other := by
  rw [extent?, extent?, getElem?_set_of_ne h]

theorem extent?_set_self (h : page < t.count) :
    (t.set page entry).extent? page = some (entry.kind, entry.used) :=
  extent?_eq (getElem?_set_self h)

/-- An entry with the same extent changes no extent. -/
theorem extent?_set {entry' : Page} (hentry : t.pages[page]? = some entry)
    (hkind : entry'.kind = entry.kind) (hused : entry'.used = entry.used) (other : Nat) :
    (t.set page entry').extent? other = t.extent? other := by
  by_cases heq : other = page
  · subst heq
    rw [extent?_set_self (lt_count hentry), extent?_eq hentry, hkind, hused]
  · exact extent?_set_of_ne heq

theorem kind?_eq_map_extent? (t : Table) (page : Nat) : t.kind? page = (t.extent? page).map (·.1) := by
  rw [kind?, extent?, Option.map_map]
  rfl

theorem isKind_congr {t' : Table} (h : t'.extent? page = t.extent? other) (kind : PageKind) :
    t'.isKind kind page = t.isKind kind other := by
  rw [isKind, isKind, kind?_eq_map_extent?, kind?_eq_map_extent?, h]

theorem isKind_of_extent? {stage kind : PageKind} {used : Nat}
    (h : t.extent? page = some (stage, used)) : t.isKind kind page = (stage == kind) := by
  rw [isKind, kind?_eq_map_extent?, h]
  rfl

/-- Only the page at which the ring starts carries the marker. -/
def MarkedOnce (t : Table) : Prop := ∀ page, t.isMarked page = true → page = t.ringStart

/-- An entry may be replaced by one that carries the marker only if the page did before. -/
theorem MarkedOnce.set (h : t.MarkedOnce)
    (hring : entry.status.ringStart = true → t.isMarked page = true) :
    (t.set page entry).MarkedOnce := by
  intro other hmark
  obtain ⟨e, he, hcarries⟩ := isMarked_iff.mp hmark
  rcases getElem?_set_eq_some he with ⟨rfl, rfl⟩ | ⟨-, he⟩
  · exact h other (hring hcarries)
  · exact h other (isMarked_iff.mpr ⟨e, he, hcarries⟩)

theorem kind?_set_of_ne (h : other ≠ page) : (t.set page entry).kind? other = t.kind? other := by
  rw [kind?, kind?, getElem?_set_of_ne h]

/-- Every entry describes its page. -/
def Tracks (p : Partition) (t : Table) (img : Image) : Prop :=
  ∀ page entry, t.pages[page]? = some entry →
    img.status page = some entry.status ∧
      entry.Describes p.chip.checksum (img.content page)

/-- Appends go to the head, the ring starts at a marked page, and an erased page carries the marker
only if no other page does. -/
structure Ordered (t : Table) : Prop where
  eq_head : ∀ page entry, t.pages[page]? = some entry → entry.kind = .active → page = t.head
  head_lt : t.head < t.count
  marked : t.isMarked t.ringStart = true
  sole : ∀ page other, t.isKind .erased page = true → t.isMarked page = true →
    t.isMarked other = true → other = page

/-- At most one page is active. -/
theorem Ordered.eq_of_active (h : t.Ordered) (hentry : t.pages[page]? = some entry)
    (hactive : entry.kind = .active) {e : Page} (he : t.pages[other]? = some e)
    (hk : e.kind = .active) : other = page :=
  (h.eq_head other e he hk).trans (h.eq_head page entry hentry hactive).symm

/-- The page table describes the flash and is in order. -/
structure Mirrors (p : Partition) (t : Table) (img : Image) : Prop where
  count_eq : t.count = p.pageCount
  tracks : t.Tracks p img
  ordered : t.Ordered
  held : ∀ (page : Nat) (entry : Page), t.pages[page]? = some entry → entry.kind = .full →
    0 < entry.live

variable {p : Partition} {img : Image}

theorem Tracks.setStatus (h : t.Tracks p img) {status : PageStatus}
    (hdescribes : Page.Describes { entry with status } p.chip.checksum (img.content page)) :
    (t.set page { entry with status }).Tracks p (img.setStatus page status) := by
  intro other e he
  rcases getElem?_set_eq_some he with ⟨rfl, rfl⟩ | ⟨hne, he⟩
  · exact ⟨Image.status_setStatus_self, hdescribes⟩
  · rw [Image.status_setStatus_of_ne hne]
    exact h other e he

theorem Tracks.setContent (h : t.Tracks p img) {content : Bytes}
    (hstatus : img.status page = some entry.status)
    (hdescribes : entry.Describes p.chip.checksum content) :
    (t.set page entry).Tracks p (img.setContent page content) := by
  intro other e he
  rcases getElem?_set_eq_some he with ⟨rfl, rfl⟩ | ⟨hne, he⟩
  · rw [Image.content_setContent_self]
    exact ⟨hstatus, hdescribes⟩
  · rw [Image.content_setContent_of_ne hne]
    exact h other e he

theorem Tracks.erase (h : t.Tracks p img) : (t.set page .blank).Tracks p (img.erase page) := by
  intro other e he
  rcases getElem?_set_eq_some he with ⟨rfl, rfl⟩ | ⟨hne, he⟩
  · rw [Image.content_erase_self]
    exact ⟨Image.status_erase_self, .of_blank (isBlank_replicate _) rfl rfl⟩
  · rw [Image.status_erase_of_ne hne, Image.content_erase_of_ne hne]
    exact h other e he

/-- The live records of a page whose entry is known. -/
theorem Tracks.live_eq (h : t.Tracks p img) (hcount : t.count = p.pageCount)
    (hentry : t.pages[page]? = some entry) :
    p.live img page = if entry.kind.holdsRecords then (img.log page).liveRecords p.chip.checksum
      else [] := by
  have hpage : page < p.pageCount := hcount ▸ lt_count hentry
  have hstatus := (h page entry hentry).1
  cases hholds : entry.kind.holdsRecords with
  | true => exact p.live_eq hpage hstatus hholds
  | false => exact p.live_eq_nil hstatus hholds

theorem Tracks.length_live (h : t.Tracks p img) (hcount : t.count = p.pageCount)
    (hentry : t.pages[page]? = some entry) : entry.live = (p.live img page).length := by
  rw [h.live_eq hcount hentry]
  have hdescribes := (h page entry hentry).2
  cases hholds : entry.kind.holdsRecords with
  | true => exact hdescribes.live_records hholds
  | false =>
    cases hkind : entry.kind with
    | erased => exact (hdescribes.blank_of_erased hkind).2.2
    | unavailable => exact hdescribes.empty hkind
    | active => rw [hkind] at hholds; cases hholds
    | full => rw [hkind] at hholds; cases hholds

/-- A page holds no live records at the stages at which it cannot. -/
theorem Mirrors.live_eq_nil (h : t.Mirrors p img) (hentry : t.pages[page]? = some entry)
    (hholds : ¬entry.kind.holdsRecords = true) : p.live img page = [] := by
  rw [h.tracks.live_eq h.count_eq hentry, if_neg hholds]

theorem Tracks.isMarked_iff (h : t.Tracks p img) (hpage : page < t.count) :
    t.isMarked page = true ↔ ∃ status, img.status page = some status ∧ status.ringStart = true := by
  obtain ⟨entry, hentry⟩ := exists_entry hpage
  rw [isMarked_eq hentry, (h page entry hentry).1]
  simp

/-- An entry may be replaced by one that is not erased and carries the same marker. -/
theorem Ordered.set (h : t.Ordered) {entry' : Page} (hentry : t.pages[page]? = some entry)
    (hring : entry'.status.ringStart = entry.status.ringStart) (hkind : entry'.kind ≠ .erased)
    (hactive : entry'.kind = .active → page = t.head) : (t.set page entry').Ordered := by
  have hmarked := isMarked_set hentry hring
  refine ⟨fun other e he hk => ?_, ?_, ?_, fun other another herased => ?_⟩
  · rcases getElem?_set_eq_some he with ⟨rfl, rfl⟩ | ⟨hne, he⟩
    · exact hactive hk
    · exact h.eq_head other e he hk
  · rw [count_set]
    exact h.head_lt
  · rw [ringStart_set, hmarked]
    exact h.marked
  · obtain ⟨e, he, hk⟩ := isKind_iff.mp herased
    rw [hmarked, hmarked]
    rcases getElem?_set_eq_some he with ⟨rfl, rfl⟩ | ⟨hne, he⟩
    · exact absurd hk hkind
    · exact h.sole other another (isKind_iff.mpr ⟨e, he, hk⟩)

/-- The table mirrors the flash, but for one page, which may be full and yet have no live records. -/
structure MirrorsBut (p : Partition) (t : Table) (img : Image) (page : Nat) : Prop where
  count_eq : t.count = p.pageCount
  tracks : t.Tracks p img
  ordered : t.Ordered
  held : ∀ (other : Nat) (entry : Page), other ≠ page → t.pages[other]? = some entry →
    entry.kind = .full → 0 < entry.live

theorem Mirrors.but (h : t.Mirrors p img) (page : Nat) : t.MirrorsBut p img page :=
  ⟨h.count_eq, h.tracks, h.ordered, fun other entry _ => h.held other entry⟩

theorem MirrorsBut.set (h : t.MirrorsBut p img page) {entry' : Page} {img' : Image}
    (hentry : t.pages[page]? = some entry) (htracks : (t.set page entry').Tracks p img')
    (hring : entry'.status.ringStart = entry.status.ringStart) (hkind : entry'.kind ≠ .erased)
    (hactive : entry'.kind = .active → page = t.head) : (t.set page entry').MirrorsBut p img' page := by
  refine ⟨by rw [count_set, h.count_eq], htracks, h.ordered.set hentry hring hkind hactive, ?_⟩
  intro other e hne he hk
  rw [getElem?_set_of_ne hne] at he
  exact h.held other e hne he hk

/-- A full page holds live records, but for the exception. -/
theorem MirrorsBut.live_ne_nil (h : t.MirrorsBut p img page) (hne : other ≠ page)
    (hentry : t.pages[other]? = some entry) (hfull : entry.kind = .full) : p.live img other ≠ [] := by
  intro hnil
  have hpos := h.held other entry hne hentry hfull
  rw [h.tracks.length_live h.count_eq hentry, hnil] at hpos
  exact Nat.lt_irrefl 0 hpos

theorem Mirrors.live_ne_nil (h : t.Mirrors p img) (hentry : t.pages[page]? = some entry)
    (hfull : entry.kind = .full) : p.live img page ≠ [] :=
  (h.but (page + 1)).live_ne_nil (Nat.ne_of_lt (Nat.lt_succ_self page)) hentry hfull

/-- The exception may be lifted if it is none. -/
theorem MirrorsBut.mirrors (h : t.MirrorsBut p img page) (hentry : t.pages[page]? = some entry)
    (hheld : entry.kind = .full → 0 < entry.live) : t.Mirrors p img := by
  refine ⟨h.count_eq, h.tracks, h.ordered, fun other e he hk => ?_⟩
  by_cases heq : other = page
  · subst heq
    rw [hentry] at he
    rw [← Option.some.inj he] at hk ⊢
    exact hheld hk
  · exact h.held other e heq he hk

end Table

end RingStore
