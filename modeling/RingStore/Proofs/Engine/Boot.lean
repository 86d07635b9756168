import RingStore.Proofs.Engine.LoadPage
import RingStore.Proofs.Engine.Reclaim

/-!
# The boot scan

The scan makes a page table that mirrors the flash, whatever it finds there.  If no page carries the
ring-start marker, it formats the partition; on an anchored flash there is nothing to lose then.  In all
other cases the live records stay.

## Main statements

* `ensures_load`: a scan that ends without a refused access leaves a mirror of the flash.
-/

namespace RingStore

namespace Table

variable {p : Partition} {t : Table} {img img' : Image} {page : Nat} {entry : Page}

theorem count_push : (t.push entry).count = t.count + 1 := Array.size_push _

theorem getElem?_push : (t.push entry).pages[page]? =
    if page = t.count then some entry else t.pages[page]? := Array.getElem?_push

/-- The entries of the table describe their pages, and full pages hold live records. -/
structure Reflects (p : Partition) (t : Table) (img : Image) : Prop where
  tracks : t.Tracks p img
  held : ∀ (page : Nat) (entry : Page), t.pages[page]? = some entry → entry.kind = .full →
    0 < entry.live

/-- The page can hold records. -/
def holds (t : Table) (page : Nat) : Bool := (t.kind? page).any (·.holdsRecords)

theorem holds_eq (h : t.pages[page]? = some entry) : t.holds page = entry.kind.holdsRecords := by
  rw [holds, kind?_eq h]
  rfl

/-- The ring starts at the first of the marked pages. -/
def StartsFirst (t : Table) : Prop := ∀ page, t.isMarked page = true → t.ringStart ≤ page

/-- All marked pages can hold records, or only the one at which the ring starts is marked. -/
def Tidy (t : Table) : Prop :=
  t.MarkedOnce ∨ ∀ page, t.isMarked page = true → t.holds page = true

theorem MarkedOnce.startsFirst (h : t.MarkedOnce) : t.StartsFirst :=
  fun page hmark => Nat.le_of_eq (h page hmark).symm

/-- The tables have their markers at the same pages, and the ring starts at the same one. -/
structure SameMarkers (t t' : Table) : Prop where
  marked : ∀ page, t'.isMarked page = t.isMarked page
  ringStart_eq : t'.ringStart = t.ringStart

theorem SameMarkers.markedOnce {t' : Table} (h : t.SameMarkers t') (honce : t.MarkedOnce) :
    t'.MarkedOnce := by
  intro page hmark
  rw [h.marked] at hmark
  rw [h.ringStart_eq]
  exact honce page hmark

theorem SameMarkers.startsFirst {t' : Table} (h : t.SameMarkers t') (hfirst : t.StartsFirst) :
    t'.StartsFirst := by
  intro page hmark
  rw [h.marked] at hmark
  rw [h.ringStart_eq]
  exact hfirst page hmark

theorem Reflects.push (h : t.Reflects p img) (hloaded : p.Loaded t.count img entry img') :
    (t.push entry).Reflects p img' := by
  constructor
  · intro other e he
    rw [getElem?_push] at he
    split at he
    · next heq =>
      obtain rfl := Option.some.inj he
      rw [heq]
      exact ⟨hloaded.status_eq, hloaded.describes⟩
    · next hne =>
      obtain ⟨hstatus, hcontent⟩ := hloaded.others other hne
      rw [hstatus, hcontent]
      exact h.tracks other e he
  · intro other e he hk
    rw [getElem?_push] at he
    split at he
    · obtain rfl := Option.some.inj he
      exact hloaded.held hk
    · exact h.held other e he hk

theorem Reflects.erase (h : t.Reflects p img) :
    (t.set page .blank).Reflects p (img.erase page) := by
  refine ⟨h.tracks.erase, fun other e he hk => ?_⟩
  rcases getElem?_set_eq_some he with ⟨rfl, rfl⟩ | ⟨-, he⟩
  · cases hk
  · exact h.held other e he hk

end Table

namespace Engine

open EngineM RingStore.Partition

variable {p : Partition} {conduct : Conduct} {anchored : Prop} {allowed : Holdings → Prop}
  {inv : Image → Prop} {t : Table} {img : Image} {page : Nat} {entry : Page}

/-! ## Loading the pages -/

/-- The pages were loaded. -/
structure Scanned (p : Partition) (img : Image) (t : Table) (img' : Image) : Prop where
  count_eq : t.count = p.pageCount
  reflects : t.Reflects p img'
  live_eq : p.live img' = p.live img
  marked : ∀ page < t.count, t.isMarked page = true ↔
    ∃ status, img.status page = some status ∧ status.ringStart = true
  active : ∀ page < t.count, t.isKind .active page = true ↔
    img.IsActive page ∧ (img.log page).isClean = true

/-- A scan on its way.  The pages ahead are as they were in the beginning. -/
structure Loading (p : Partition) (img : Image) (pages : List Nat) (t : Table) (img' : Image) :
    Prop where
  count_le : t.count ≤ p.pageCount
  pages_eq : pages = List.range' t.count (p.pageCount - t.count)
  reflects : t.Reflects p img'
  live_eq : p.live img' = p.live img
  marked : ∀ page < t.count, t.isMarked page = true ↔
    ∃ status, img.status page = some status ∧ status.ringStart = true
  active : ∀ page < t.count, t.isKind .active page = true ↔
    img.IsActive page ∧ (img.log page).isClean = true
  ahead : ∀ page, t.count ≤ page →
    img'.status page = img.status page ∧ img'.content page = img.content page

theorem Loading.start (hempty : t.pages = #[]) :
    Loading p img (List.range p.pageCount) t img := by
  have hcount : t.count = 0 := by rw [Table.count, hempty]; rfl
  have hnone : ∀ page : Nat, t.pages[page]? = none := by simp [hempty]
  constructor
  · exact hcount ▸ Nat.zero_le _
  · rw [hcount, Nat.sub_zero, List.range_eq_range']
  · constructor
    all_goals
      intro page entry hentry
      rw [hnone] at hentry
      cases hentry
  · rfl
  · intro page hpage
    rw [hcount] at hpage
    cases hpage
  · intro page hpage
    rw [hcount] at hpage
    cases hpage
  · exact fun _ _ => ⟨rfl, rfl⟩

theorem Loading.scanned {img' : Image} (h : Loading p img [] t img') : Scanned p img t img' := by
  have hlength := congrArg List.length h.pages_eq
  rw [List.length_range', List.length_nil] at hlength
  have hle := h.count_le
  exact ⟨by omega, h.reflects, h.live_eq, h.marked, h.active⟩

/-- One step of a scan. -/
theorem ensures_loadNext (hu : p.Usable) (hsplit : conduct ≠ .splitting)
    (hrobust : p.Robust conduct inv) {img₀ : Image} {rest : List Nat}
    (h : Loading p img₀ (page :: rest) t img)
    (hmends : page < p.pageCount → img.Unfinished page → inv img → p.Mends conduct inv img page) :
    Ensures p conduct inv (loadNext p page) t img
      (fun _ t' img' => Loading p img₀ rest t' img') noError := by
  have hlt : t.count < p.pageCount := by
    refine Nat.lt_of_le_of_ne h.count_le fun heq => ?_
    have hpages := h.pages_eq
    rw [heq, Nat.sub_self] at hpages
    cases hpages
  obtain ⟨ahead, hahead⟩ : ∃ n, p.pageCount - t.count = n + 1 :=
    ⟨p.pageCount - t.count - 1, by omega⟩
  have hpages := h.pages_eq
  rw [hahead, List.range'_succ] at hpages
  obtain ⟨rfl, rfl⟩ := List.cons.inj hpages
  obtain ⟨hstatus, hcontent⟩ := h.ahead t.count (Nat.le_refl _)
  unfold loadNext
  refine (ensures_perform (ensures_loadPage hu hsplit hrobust hlt (hmends hlt))).bind ?_
  rintro entry _ img' ⟨rfl, hloaded⟩
  refine ensures_modify ⟨?_, ?_, h.reflects.push hloaded, hloaded.live_eq.trans h.live_eq, ?_, ?_, ?_⟩
  · rw [Table.count_push]
    exact hlt
  · rw [Table.count_push]
    congr 1
    omega
  · intro other hother
    rw [Table.isMarked, Table.getElem?_push]
    split
    · next heq =>
      rw [heq, ← hstatus]
      exact hloaded.marked
    · refine h.marked other ?_
      rw [Table.count_push] at hother
      omega
  · intro other hother
    rw [Table.isKind, Table.kind?, Table.getElem?_push]
    split
    · next heq =>
      rw [heq, Image.IsActive, Image.log, ← hstatus, ← hcontent, Option.map_some, beq_iff_eq,
        Option.some_inj]
      exact hloaded.active
    · refine h.active other ?_
      rw [Table.count_push] at hother
      omega
  · intro other hother
    rw [Table.count_push] at hother
    obtain ⟨hstatus', hcontent'⟩ := hloaded.others other (by omega)
    rw [hstatus', hcontent']
    exact h.ahead other (by omega)

theorem ensures_loadAll (hu : p.Usable) (hsplit : conduct ≠ .splitting)
    (hrobust : p.Robust conduct inv)
    (hmends : ∀ page rest t' img', Loading p img (page :: rest) t' img' → page < p.pageCount →
      img'.Unfinished page → inv img' → p.Mends conduct inv img' page)
    (hempty : t.pages = #[]) :
    Ensures p conduct inv ((List.range p.pageCount).forM (loadNext p)) t img
      (fun _ t' img' => Scanned p img t' img') noError := by
  refine (ensures_forM (Loading p img) ?_ (.start hempty)).weaken fun _ _ _ h => h.scanned
  exact fun page _ rest t' img' h => ensures_loadNext hu hsplit hrobust h (hmends page rest t' img' h)

/-! ## Formatting -/

/-- All entries are those of erased pages. -/
def Wiped (p : Partition) (t : Table) (img : Image) : Prop :=
  t.count = p.pageCount ∧ t.Tracks p img ∧ ∀ page < p.pageCount, t.pages[page]? = some .blank

theorem Wiped.isBlank_content (h : Wiped p t img) (hpage : page < p.pageCount) :
    img.status page = some .blank ∧ isBlank (img.content page) = true := by
  obtain ⟨hstatus, hdescribes⟩ := h.2.1 page _ (h.2.2 page hpage)
  exact ⟨hstatus, (hdescribes.blank_of_erased rfl).1⟩

theorem Wiped.live_eq (h : Wiped p t img) : p.live img = fun _ => [] := by
  funext page
  by_cases hpage : page < p.pageCount
  · exact live_eq_nil (h.isBlank_content hpage).1 rfl
  · exact if_neg fun hc => hpage hc.1

/-- A wiped partition with an active first page. -/
theorem Wiped.mirrors (h : Wiped p t img) :
    Table.Mirrors p { t.set 0 { Page.blank with status := ⟨.active, true⟩ } with
      ringStart := 0, head := 0 } (img.setStatus 0 ⟨.active, true⟩) := by
  have hself : (t.set 0 { Page.blank with status := ⟨.active, true⟩ }).pages[0]? = some _ :=
    Table.getElem?_set_self (h.1 ▸ p.pageCount_pos)
  have htracks : (t.set 0 { Page.blank with status := ⟨.active, true⟩ }).Tracks p
      (img.setStatus 0 ⟨.active, true⟩) :=
    h.2.1.setStatus (.of_blank (h.isBlank_content p.pageCount_pos).2 rfl rfl)
  have hother : ∀ (other : Nat) (e : Page),
      (t.set 0 { Page.blank with status := ⟨.active, true⟩ }).pages[other]? = some e →
        other = 0 ∧ e.kind = .active ∨ e = .blank := by
    intro other e he
    rcases Table.getElem?_set_eq_some he with ⟨rfl, rfl⟩ | ⟨-, he⟩
    · exact Or.inl ⟨rfl, rfl⟩
    · rw [h.2.2 other (h.1 ▸ Table.lt_count he)] at he
      exact Or.inr (Option.some.inj he).symm
  refine ⟨Table.count_set.trans h.1, htracks, ⟨?_, ?_, ?_, ?_⟩, ?_⟩
  · intro other e he hk
    rcases hother other e he with ⟨rfl, -⟩ | rfl
    · rfl
    · cases hk
  · exact Nat.lt_of_lt_of_eq (h.1 ▸ p.pageCount_pos) Table.count_set.symm
  · exact Table.isMarked_iff.mpr ⟨_, hself, rfl⟩
  · intro erased other herased hmark _
    obtain ⟨e, he, hk⟩ := Table.isKind_iff.mp herased
    obtain ⟨e', he', hring⟩ := Table.isMarked_iff.mp hmark
    obtain rfl := Option.some.inj (he.symm.trans he')
    rcases hother erased e he with ⟨-, hactive⟩ | rfl
    · rw [hactive] at hk
      cases hk
    · cases hring
  · intro other e he hk
    rcases hother other e he with ⟨-, hactive⟩ | rfl
    · rw [hactive] at hk
      cases hk
    · cases hk

/-- Only the first page of a formatted partition carries the marker. -/
theorem Wiped.markedOnce (h : Wiped p t img) :
    Table.MarkedOnce { t.set 0 { Page.blank with status := ⟨.active, true⟩ } with
      ringStart := 0, head := 0 } := by
  intro page hmark
  obtain ⟨e, he, hring⟩ := Table.isMarked_iff.mp hmark
  rcases Table.getElem?_set_eq_some he with ⟨rfl, -⟩ | ⟨-, he⟩
  · rfl
  · rw [h.2.2 page (h.1 ▸ Table.lt_count he)] at he
    rw [← Option.some.inj he] at hring
    cases hring

/-- A blank status without records is the entry of an erased page. -/
theorem eq_blank_of_describes {content : Bytes} (hdescribes : entry.Describes p.chip.checksum content)
    (hstatus : entry.status = .blank) (hused : entry.used = 0) : entry = .blank := by
  obtain ⟨-, -, hlive⟩ := hdescribes.blank_of_erased (by rw [Page.kind, hstatus]; rfl)
  obtain ⟨status, used, live⟩ := entry
  cases hstatus
  cases hused
  cases hlive
  rfl

/-- On an anchored flash without a marked page nothing was ever written. -/
theorem blank_of_anchored (hcount : t.count = p.pageCount) (htracks : t.Tracks p img)
    (hunmarked : ∀ page, t.isMarked page = false) (hanchor : img.Anchored p.pageCount) :
    Wiped p t img := by
  refine ⟨hcount, htracks, fun page hpage => ?_⟩
  obtain ⟨entry, hentry⟩ := Table.exists_entry (hcount ▸ hpage)
  obtain ⟨hstatus, hdescribes⟩ := htracks page entry hentry
  have hblank : ∀ page < p.pageCount, img.status page = some .blank := by
    refine hanchor.anchor.resolve_left ?_
    rintro ⟨other, hother, status, hother', hring⟩
    have hmark := (htracks.isMarked_iff (hcount ▸ hother)).mpr ⟨status, hother', hring⟩
    rw [hunmarked other] at hmark
    cases hmark
  have heq : entry.status = .blank := Option.some.inj (hstatus.symm.trans (hblank page hpage))
  obtain ⟨-, hused, -⟩ := hdescribes.blank_of_erased (by rw [Page.kind, heq]; rfl)
  rw [hentry, eq_blank_of_describes hdescribes heq hused]

/-- A format on its way: the pages that it has passed are blank.  On an anchored flash all pages are. -/
structure Wiping (p : Partition) (anchored : Prop) (pages : List Nat) (t : Table) (img : Image) :
    Prop where
  count_eq : t.count = p.pageCount
  tracks : t.Tracks p img
  passed : ∀ page < p.pageCount, page ∉ pages → t.pages[page]? = some .blank
  wiped : anchored → Wiped p t img

/-- One step of a format. -/
theorem ensures_wipe (hu : p.Usable) {rest : List Nat} (h : Wiping p anchored (page :: rest) t img)
    (hpage : page < p.pageCount) (hmode : anchored ∨ ∀ L, allowed L) :
    Ensures p conduct (p.Secure conduct anchored allowed) (wipe p page) t img
      (fun _ t' img' => Wiping p anchored rest t' img') noError := by
  obtain ⟨entry, hentry⟩ := Table.exists_entry (h.count_eq ▸ hpage)
  unfold wipe
  refine ensures_pageAt_bind hentry ?_
  split
  · next hused =>
    -- Only a flash that is not anchored has a page to erase.
    have hnot : ¬anchored := by
      intro hanchored
      have heq := (h.wiped hanchored).2.2 page hpage
      rw [hentry] at heq
      rw [Option.some.inj heq] at hused
      rcases hused with hne | hne <;> exact hne rfl
    have hany : ∀ img, p.Secure conduct anchored allowed img := fun img =>
      ⟨fun hanchored => absurd hanchored hnot, fun _ => hmode.resolve_left hnot _,
        fun hanchored => absurd hanchored hnot⟩
    refine (ensures_erasePage hu h.count_eq hentry (fun _ => hany _) fun _ _ _ _ => hany _).weaken ?_
    rintro _ _ _ ⟨rfl, rfl⟩
    refine ⟨by rw [Table.count_set, h.count_eq], h.tracks.erase, fun other hother hout => ?_,
      fun hanchored => absurd hanchored hnot⟩
    by_cases heq : other = page
    · subst heq
      exact Table.getElem?_set_self (h.count_eq ▸ hother)
    · rw [Table.getElem?_set_of_ne heq]
      exact h.passed other hother (by simp [heq, hout])
  · next hblank =>
    obtain ⟨hstatus, hzero⟩ := not_or.mp hblank
    rw [not_not] at hstatus hzero
    have heq := eq_blank_of_describes (h.tracks page entry hentry).2 hstatus hzero
    refine ensures_pure ⟨h.count_eq, h.tracks, fun other hother hout => ?_, h.wiped⟩
    by_cases heq' : other = page
    · rw [heq', hentry, heq]
    · exact h.passed other hother (by simp [heq', hout])

/-- Formatting is no loss on an anchored flash; elsewhere nothing may be asked of the live records. -/
theorem ensures_format (hu : p.Usable) (hcount : t.count = p.pageCount) (htracks : t.Tracks p img)
    (hunmarked : ∀ page, t.isMarked page = false) (hmode : anchored ∨ ∀ L, allowed L) :
    Ensures p conduct (p.Secure conduct anchored allowed) (format p) t img
      (fun _ t' img' => t'.Mirrors p img' ∧ p.live img' = (fun _ => []) ∧ t'.MarkedOnce ∧
        (anchored → p.live img' = p.live img)) noError := by
  refine ensures_of_inv fun hinv => ?_
  have hstart : anchored → Wiped p t img := fun hanchored =>
    blank_of_anchored hcount htracks hunmarked (hinv.anchored hanchored)
  unfold format
  refine ensures_get_bind ?_
  refine (ensures_forM (Wiping p anchored) ?_ ⟨hcount, htracks, ?_, hstart⟩).bind ?_
  · intro page hpage rest t' img' hwiping
    rw [List.mem_range, hcount] at hpage
    exact ensures_wipe hu hwiping hpage hmode
  · intro page hpage hout
    rw [hcount] at hout
    exact absurd (List.mem_range.mpr hpage) hout
  rintro _ t₁ img₁ ⟨hcount₁, htracks₁, hpassed, -⟩
  have hwiped : Wiped p t₁ img₁ := ⟨hcount₁, htracks₁, fun page hpage =>
    hpassed page hpage List.not_mem_nil⟩
  obtain ⟨hstatus, hblank⟩ := hwiped.isBlank_content p.pageCount_pos
  have hlive : p.live (img₁.setStatus 0 ⟨.active, true⟩) = p.live img₁ := by
    refine live_setStatus hstatus (Or.inr ?_)
    rw [Image.log, Log.parse_of_isBlank hblank]
    rfl
  refine (ensures_setStatus hu hcount₁ (hwiped.2.2 0 p.pageCount_pos) hstatus rfl
    fun hinv' : p.Secure conduct anchored allowed img₁ => ⟨fun hanchored => ?_,
      hlive ▸ hinv'.allowed, fun _ _ => .opened (fun page hpage => ?_) hblank⟩).bind ?_
  · exact (hinv'.anchored hanchored).setStatus p.pageCount_pos hstatus (fun hring => by cases hring)
      (fun heq => by cases heq) (Or.inl rfl)
  · rintro ⟨status, hactive, hkind⟩
    rw [(hwiped.isBlank_content hpage).1] at hactive
    rw [← Option.some.inj hactive] at hkind
    cases hkind
  rintro _ _ _ ⟨rfl, rfl⟩
  refine ensures_modify ⟨hwiped.mirrors, hlive.trans hwiped.live_eq, hwiped.markedOnce,
    fun hanchored => ?_⟩
  rw [hlive, hwiped.live_eq, (hstart hanchored).live_eq]

/-! ## Where the ring starts -/

/-- The ring starts at the first of the marked pages, and no other page is marked in vain. -/
structure RingSettled (p : Partition) (t : Table) (img : Image) : Prop where
  count_eq : t.count = p.pageCount
  reflects : t.Reflects p img
  marked : t.isMarked t.ringStart = true
  first : t.StartsFirst
  tidy : t.Tidy

/-- An erased page is not marked beside others. -/
theorem RingSettled.sole (h : RingSettled p t img) {erased other : Nat}
    (herased : t.isKind .erased erased = true) (hmark : t.isMarked erased = true)
    (hother : t.isMarked other = true) : other = erased := by
  rcases h.tidy with honce | hholds
  · rw [honce other hother, honce erased hmark]
  · obtain ⟨entry, hentry, hkind⟩ := Table.isKind_iff.mp herased
    have hfalse := hholds erased hmark
    rw [Table.holds_eq hentry, hkind] at hfalse
    cases hfalse

/-- The ring is taken to start at a marked page: at the first one that can hold records, or at the first
one if none can. -/
structure Leads (t : Table) (start : Nat) : Prop where
  marked : t.isMarked start = true
  choice : (t.holds start = true ∧
      ∀ page, t.isMarked page = true → t.holds page = true → start ≤ page) ∨
    ∀ page, t.isMarked page = true → t.holds page = false ∧ start ≤ page

/-- The page that a scan takes as the start of the ring. -/
theorem leads_of_eq_some {start : Nat}
    (h : (((List.range t.count).filter t.isMarked).find? fun page =>
        (t.kind? page).any (·.holdsRecords)).or
      ((List.range t.count).filter t.isMarked).head? = some start) : Leads t start := by
  rw [List.find?_filter, List.head?_filter] at h
  rcases Option.or_eq_some_iff.mp h with hfind | ⟨hnone, hhead⟩
  · obtain ⟨hsome, -, hfirst⟩ := List.find?_range_eq_some.mp hfind
    obtain ⟨hmark, hholds⟩ := of_decide_eq_true hsome
    refine ⟨hmark, Or.inl ⟨hholds, fun page hmark' hholds' => ?_⟩⟩
    by_contra hlt
    have hnot := hfirst page (Nat.lt_of_not_le hlt)
    rw [decide_eq_true ⟨hmark', hholds'⟩] at hnot
    cases hnot
  · obtain ⟨hmark, -, hfirst⟩ := List.find?_range_eq_some.mp hhead
    refine ⟨hmark, Or.inr fun page hmark' => ⟨?_, ?_⟩⟩
    · obtain ⟨entry, hentry, -⟩ := Table.isMarked_iff.mp hmark'
      have hnot := List.find?_range_eq_none.mp hnone page (Table.lt_count hentry)
      rw [Bool.not_eq_true', decide_eq_false_iff_not] at hnot
      exact Bool.eq_false_iff.mpr fun hholds => hnot ⟨hmark', hholds⟩
    · by_contra hlt
      have hnot := hfirst page (Nat.lt_of_not_le hlt)
      rw [hmark'] at hnot
      cases hnot

/-- The entries that stale markers leave: some pages were erased, but not the one the ring starts at. -/
structure Trimmed (t : Table) (start : Nat) (rest : List Nat) (t' : Table) : Prop where
  entries : ∀ page, t'.pages[page]? = t.pages[page]? ∨
    page ≠ start ∧ t'.pages[page]? = some .blank
  holds : ∀ page entry, t'.pages[page]? = some entry → entry.status.ringStart = true →
    page ∉ rest → page = start ∨ entry.kind.holdsRecords = true
  active : ∀ page, t'.isKind .active page = t.isKind .active page

namespace Trimmed

variable {t₀ : Table} {start : Nat} {rest : List Nat}

/-- A page that cannot hold records is erased. -/
theorem erase (h : Trimmed t₀ start (page :: rest) t) (hentry : t.pages[page]? = some entry)
    (hne : page ≠ start) (hempty : entry.kind.holdsRecords = false) :
    Trimmed t₀ start rest (t.set page .blank) := by
  refine ⟨fun other => ?_, fun other e he hring hnot => ?_, fun other => ?_⟩
  · by_cases heq : other = page
    · subst heq
      exact Or.inr ⟨hne, Table.getElem?_set_self (Table.lt_count hentry)⟩
    · rw [Table.getElem?_set_of_ne heq]
      exact h.entries other
  · rcases Table.getElem?_set_eq_some he with ⟨rfl, rfl⟩ | ⟨hne', he⟩
    · cases hring
    · exact h.holds other e he hring (by simp [hne', hnot])
  · rw [← h.active other]
    by_cases heq : other = page
    · subst heq
      have hkind : entry.kind ≠ .active := by
        intro hactive
        rw [hactive] at hempty
        cases hempty
      rw [Table.isKind_eq (Table.getElem?_set_self (Table.lt_count hentry)),
        Table.isKind_eq hentry, beq_eq_false_iff_ne.mpr hkind]
      rfl
    · rw [Table.isKind, Table.isKind, Table.kind?_set_of_ne heq]

/-- A page stays as it is, since the ring starts there or it can hold records. -/
theorem keep (h : Trimmed t₀ start (page :: rest) t) (hentry : t.pages[page]? = some entry)
    (hkeep : ¬(page ≠ start ∧ entry.kind.holdsRecords = false)) : Trimmed t₀ start rest t := by
  refine ⟨h.entries, fun other e he hring hnot => ?_, h.active⟩
  by_cases heq : other = page
  · subst heq
    obtain rfl := Option.some.inj (hentry.symm.trans he)
    by_cases hstart : other = start
    · exact Or.inl hstart
    · refine Or.inr ?_
      by_contra hempty
      rw [Bool.not_eq_true] at hempty
      exact hkeep ⟨hstart, hempty⟩
  · exact h.holds other e he hring (by simp [heq, hnot])

/-- A marked page that is left beside the start is as it was, and it can hold records. -/
theorem other {t' : Table} (h : Trimmed t start [] t') {other : Nat}
    (hmark : t'.isMarked other = true) (hne : other ≠ start) :
    t'.holds other = true ∧ t.isMarked other = true ∧ t.holds other = true := by
  obtain ⟨entry, hentry, hring⟩ := Table.isMarked_iff.mp hmark
  have hholds := (h.holds other entry hentry hring List.not_mem_nil).resolve_left hne
  have hsame : t.pages[other]? = some entry := by
    rcases h.entries other with heq | ⟨-, hblank⟩
    · rw [← heq, hentry]
    · rw [hentry] at hblank
      rw [Option.some.inj hblank] at hring
      cases hring
  refine ⟨?_, Table.isMarked_iff.mpr ⟨entry, hsame, hring⟩, ?_⟩
  · rw [Table.holds_eq hentry, hholds]
  · rw [Table.holds_eq hsame, hholds]

/-- The start is the first of the marked pages that are left. -/
theorem startsFirst {t' : Table} (h : Trimmed t start [] t') (hleads : Leads t start) :
    Table.StartsFirst { t' with ringStart := start } := by
  intro page hmark
  by_cases hne : page = start
  · exact Nat.le_of_eq hne.symm
  · obtain ⟨-, hmark', hholds⟩ := h.other hmark hne
    rcases hleads.choice with ⟨-, hfirst⟩ | hnone
    · exact hfirst page hmark' hholds
    · exact (hnone page hmark').2

/-- If the start was taken because no marked page can hold records, it is the only one that is left. -/
theorem tidy {t' : Table} (h : Trimmed t start [] t') (hleads : Leads t start) :
    Table.Tidy { t' with ringStart := start } := by
  rcases hleads.choice with ⟨hholds, -⟩ | hnone
  · refine Or.inr fun page hmark => ?_
    by_cases hne : page = start
    · rw [hne]
      show (t'.kind? start).any (·.holdsRecords) = true
      have hsame : t'.pages[start]? = t.pages[start]? :=
        (h.entries start).resolve_right fun hblank => hblank.1 rfl
      rw [Table.kind?, hsame]
      exact hholds
    · exact (h.other hmark hne).1
  · refine Or.inl fun page hmark => ?_
    by_contra hne
    obtain ⟨-, hmark', hholds⟩ := h.other hmark hne
    rw [(hnone page hmark').1] at hholds
    cases hholds

end Trimmed

/-- A stale marker is dropped together with its page, which holds no records. -/
theorem ensures_dropStaleMarker (hu : p.Usable) (hrobust : p.Robust conduct inv) {t₀ : Table}
    {start : Nat} {rest : List Nat} (hcount : t.count = p.pageCount) (hreflects : t.Reflects p img)
    (hstart : t.isMarked start = true) (htrimmed : Trimmed t₀ start (page :: rest) t)
    (hpage : page < p.pageCount) :
    Ensures p conduct inv (dropStaleMarker p start page) t img
      (fun _ t' img' => t'.count = p.pageCount ∧ t'.Reflects p img' ∧ t'.isMarked start = true ∧
        Trimmed t₀ start rest t' ∧ p.live img' = p.live img) noError := by
  obtain ⟨entry, hentry⟩ := Table.exists_entry (hcount ▸ hpage)
  unfold dropStaleMarker
  refine ensures_pageAt_bind hentry ?_
  split
  · next hstale =>
    obtain ⟨hne, hempty⟩ := hstale
    have hnil : p.live img page = [] := live_eq_nil (hreflects.tracks page entry hentry).1 hempty
    obtain ⟨e, he, hring⟩ := Table.isMarked_iff.mp hstart
    have hother : ∃ other < p.pageCount, other ≠ page ∧
        ∃ status, img.status other = some status ∧ status.ringStart = true :=
      ⟨start, hcount ▸ Table.lt_count he, hne.symm, e.status, (hreflects.tracks start e he).1, hring⟩
    refine (ensures_erasePage hu hcount hentry (hrobust.erase hnil hother)
      fun hinv hconduct skipped count =>
        hrobust.erasePart skipped count hconduct hother hinv).weaken ?_
    rintro _ _ _ ⟨rfl, rfl⟩
    refine ⟨by rw [Table.count_set, hcount], hreflects.erase, ?_, htrimmed.erase hentry hne hempty,
      live_erase_of_nil hnil⟩
    rw [Table.isMarked, Table.getElem?_set_of_ne hne.symm]
    exact hstart
  · next hkeep =>
    exact ensures_pure ⟨hcount, hreflects, hstart, htrimmed.keep hentry hkeep, rfl⟩

/-- **The start of the ring is settled**, and a partition without any is formatted. -/
theorem ensures_settleRingStart (anchored : Prop) (hu : p.Usable) (hrobust : p.Robust conduct inv)
    {img₀ : Image} (h : Scanned p img₀ t img)
    (hformat : ¬img₀.Marked p.pageCount → (∀ page, t.isMarked page = false) →
      Ensures p conduct inv (format p) t img (fun _ t' img' => t'.Mirrors p img' ∧
        p.live img' = (fun _ => []) ∧ t'.MarkedOnce ∧ (anchored → p.live img' = p.live img)) noError) :
    Ensures p conduct inv (settleRingStart p) t img
      (fun _ t' img' => RingSettled p t' img' ∧
        (anchored ∨ img₀.Marked p.pageCount → p.live img' = p.live img₀) ∧
        (¬img₀.Marked p.pageCount → p.live img' = (fun _ => []) ∧ t'.MarkedOnce) ∧
        (img₀.Marked p.pageCount → Trimmed t t'.ringStart [] t'))
      noError := by
  unfold settleRingStart
  refine ensures_get_bind ?_
  dsimp only
  split
  · next hnone =>
    have hunmarked : ∀ page, t.isMarked page = false := by
      intro page
      by_contra hmark
      rw [Bool.not_eq_false] at hmark
      obtain ⟨entry, hentry, -⟩ := Table.isMarked_iff.mp hmark
      have hmem := List.mem_filter.mpr ⟨List.mem_range.mpr (Table.lt_count hentry), hmark⟩
      rw [List.head?_eq_none_iff.mp (Option.or_eq_none_iff.mp hnone).2] at hmem
      cases hmem
    have hnot : ¬img₀.Marked p.pageCount := by
      rintro ⟨page, hpage, hmark⟩
      have hmark' := (h.marked page (h.count_eq ▸ hpage)).mpr hmark
      rw [hunmarked page] at hmark'
      cases hmark'
    refine (hformat hnot hunmarked).weaken ?_
    rintro _ t' img' ⟨hmirrors, hlive, honce, hsame⟩
    exact ⟨⟨hmirrors.count_eq, ⟨hmirrors.tracks, hmirrors.held⟩, hmirrors.ordered.marked,
      honce.startsFirst, Or.inl honce⟩,
      fun hkept => (hsame (hkept.resolve_right hnot)).trans h.live_eq, fun _ => ⟨hlive, honce⟩,
      fun hmarked => absurd hmarked hnot⟩
  · next start hsome =>
    have hleads := leads_of_eq_some hsome
    have hstart := hleads.marked
    refine (ensures_forM (fun pages t' img' => t'.count = p.pageCount ∧ t'.Reflects p img' ∧
      t'.isMarked start = true ∧ Trimmed t start pages t' ∧ p.live img' = p.live img) ?_
      ⟨h.count_eq, h.reflects, hstart, ⟨fun _ => Or.inl rfl,
        fun page entry hentry hring hout => ?_, fun _ => rfl⟩, rfl⟩).bind ?_
    · rintro page hpage rest t' img' ⟨hcount, hreflects, hmark, htrimmed, hlive⟩
      have hlt := List.mem_range.mp (List.mem_filter.mp hpage).1
      refine (ensures_dropStaleMarker hu hrobust hcount hreflects hmark htrimmed (h.count_eq ▸ hlt)).weaken ?_
      rintro _ t'' img'' ⟨hcount', hreflects', hmark', htrimmed', hlive'⟩
      exact ⟨hcount', hreflects', hmark', htrimmed', hlive'.trans hlive⟩
    · -- All marked pages are ahead.
      refine absurd (List.mem_filter.mpr ⟨List.mem_range.mpr (Table.lt_count hentry), ?_⟩) hout
      exact Table.isMarked_iff.mpr ⟨entry, hentry, hring⟩
    rintro _ t' img' ⟨hcount, hreflects, hmark, htrimmed, hlive⟩
    have hmarked : img₀.Marked p.pageCount := by
      obtain ⟨entry, hentry, -⟩ := Table.isMarked_iff.mp hstart
      have hlt := Table.lt_count hentry
      exact ⟨start, h.count_eq ▸ hlt, (h.marked start hlt).mp hstart⟩
    exact ensures_modify ⟨⟨hcount, ⟨hreflects.tracks, hreflects.held⟩, hmark,
      htrimmed.startsFirst hleads, htrimmed.tidy hleads⟩,
      fun _ => hlive.trans h.live_eq, fun hnot => absurd hmarked hnot,
      fun _ => ⟨htrimmed.entries, htrimmed.holds, htrimmed.active⟩⟩

/-! ## Where searches begin -/

/-- The pages as they were, but for active ones that are closed. -/
structure Closing (t : Table) (newest : Option Nat) (rest : List Nat) (t' : Table) : Prop where
  marked : ∀ page, t'.isMarked page = t.isMarked page
  erased : ∀ page, t'.isKind .erased page = t.isKind .erased page
  ringStart_eq : t'.ringStart = t.ringStart
  active : ∀ page, page ∉ rest → t'.isKind .active page = true → newest = some page
  newest : ∀ page, newest = some page → t'.isKind .active page = t.isKind .active page

theorem lt_of_lastInRing? {test : Nat → Bool} (h : t.lastInRing? test = some page) :
    page < t.count := by
  have hmem := List.mem_of_getLast? h
  exact lt_of_mem_ringFrom (List.mem_filter.mp hmem).1

namespace Closing

variable {t₀ : Table} {newest : Option Nat} {rest : List Nat}

/-- An active page is closed. -/
theorem close (h : Closing t₀ newest (page :: rest) t) (hentry : t.pages[page]? = some entry)
    (hactive : entry.kind = .active) (hother : newest ≠ some page) :
    Closing t₀ newest rest
      (t.set page { entry with status := entry.status.withKind (closedKind entry) }) := by
  have hself : (t.set page { entry with
      status := entry.status.withKind (closedKind entry) }).pages[page]? = some _ :=
    Table.getElem?_set_self (Table.lt_count hentry)
  refine ⟨fun other => ?_, fun other => ?_, h.ringStart_eq, fun other hnot hkind => ?_,
    fun other hnewest => ?_⟩
  · rw [← h.marked other]
    refine Table.isMarked_set hentry ?_ other
    rfl
  · rw [← h.erased other]
    by_cases heq : other = page
    · subst heq
      rw [Table.isKind_eq hself, Table.isKind_eq hentry, hactive]
      exact beq_eq_false_iff_ne.mpr (closedKind_ne_erased entry)
    · rw [Table.isKind, Table.isKind, Table.kind?_set_of_ne heq]
  · by_cases heq : other = page
    · subst heq
      rw [Table.isKind_eq hself] at hkind
      exact absurd (beq_iff_eq.mp hkind) (closedKind_ne_active entry)
    · rw [Table.isKind, Table.kind?_set_of_ne heq] at hkind
      exact h.active other (by simp [heq, hnot]) hkind
  · have hne : other ≠ page := fun heq => hother (heq ▸ hnewest)
    rw [← h.newest other hnewest, Table.isKind, Table.isKind, Table.kind?_set_of_ne hne]

/-- A page stays as it is, since it is not active or the newest one. -/
theorem keep (h : Closing t₀ newest (page :: rest) t) (hentry : t.pages[page]? = some entry)
    (hkeep : ¬(entry.kind = .active ∧ newest ≠ some page)) : Closing t₀ newest rest t := by
  refine ⟨h.marked, h.erased, h.ringStart_eq, fun other hnot hactive => ?_, h.newest⟩
  by_cases heq : other = page
  · subst heq
    rw [Table.isKind_eq hentry, beq_iff_eq] at hactive
    by_contra hne
    exact hkeep ⟨hactive, hne⟩
  · exact h.active other (by simp [heq, hnot]) hactive

end Closing

/-- An active page is closed unless it is the newest one. -/
theorem ensures_closeOther (hu : p.Usable) (hrobust : p.Robust conduct inv) {t₀ : Table}
    {newest : Option Nat} {rest : List Nat} (hcount : t.count = p.pageCount)
    (hreflects : t.Reflects p img) (hclosing : Closing t₀ newest (page :: rest) t)
    (hpage : page < p.pageCount) :
    Ensures p conduct inv (closeOther p newest page) t img
      (fun _ t' img' => t'.count = p.pageCount ∧ t'.Reflects p img' ∧ Closing t₀ newest rest t' ∧
        p.live img' = p.live img) noError := by
  obtain ⟨entry, hentry⟩ := Table.exists_entry (hcount ▸ hpage)
  unfold closeOther
  refine ensures_pageAt_bind hentry ?_
  split
  · next hother =>
    refine (ensures_close hu hrobust hcount hreflects.tracks hentry hother.1).weaken ?_
    rintro _ _ _ ⟨rfl, rfl, htracks, hlive⟩
    refine ⟨by rw [Table.count_set, hcount], ⟨htracks, fun other e he hk => ?_⟩,
      hclosing.close hentry hother.1 hother.2, hlive⟩
    rcases Table.getElem?_set_eq_some he with ⟨rfl, rfl⟩ | ⟨-, he⟩
    · exact live_pos_of_closedKind_eq_full hk
    · exact hreflects.held other e he hk
  · next hkeep => exact ensures_pure ⟨hcount, hreflects, hclosing.keep hentry hkeep, rfl⟩

theorem lastInRing?_eq_some {test : Nat → Bool} (hpage : page < t.count) (htest : test page = true)
    (hsole : ∀ other, test other = true → other = page) : t.lastInRing? test = some page := by
  have hmem : page ∈ (ringFrom t.count t.ringStart).filter test :=
    List.mem_filter.mpr ⟨mem_ringFrom hpage, htest⟩
  cases hlast : t.lastInRing? test with
  | none => exact absurd (List.getLast?_eq_none_iff.mp hlast) (List.ne_nil_of_mem hmem)
  | some last =>
    have hlast' := List.mem_filter.mp (List.mem_of_getLast? hlast)
    rw [hsole last hlast'.2]

/-- The table is in order once all active pages but one are closed and the head is chosen. -/
theorem RingSettled.ordered (h : RingSettled p t img) {t' : Table} {newest : Option Nat}
    (hnewest : t.lastInRing? (t.isKind .active) = newest) (hcount : t'.count = p.pageCount)
    (hclosing : Closing t newest [] t') :
    Table.Ordered { t' with
      head := (newest.or (t'.lastInRing? (!t'.isKind .erased ·))).getD t'.ringStart } := by
  refine ⟨fun page entry hentry hkind => ?_, ?_, ?_, fun erased other herased hmark hother => ?_⟩
  · rw [hclosing.active page List.not_mem_nil (Table.isKind_iff.mpr ⟨entry, hentry, hkind⟩)]
    rfl
  · -- Without an active page the head is the last used one, or else the start of the ring.
    show (newest.or _).getD _ < t'.count
    rw [hcount, ← h.count_eq]
    cases newest with
    | some page => exact lt_of_lastInRing? hnewest
    | none =>
      rw [Option.none_or]
      cases hlast : t'.lastInRing? (!t'.isKind .erased ·) with
      | some page =>
        have hlt := lt_of_lastInRing? hlast
        rwa [hcount, ← h.count_eq] at hlt
      | none =>
        obtain ⟨entry, hentry, -⟩ := Table.isMarked_iff.mp h.marked
        rw [Option.getD_none, hclosing.ringStart_eq]
        exact Table.lt_count hentry
  · show t'.isMarked t'.ringStart = true
    rw [hclosing.marked, hclosing.ringStart_eq]
    exact h.marked
  · have herased : t'.isKind .erased erased = true := herased
    have hmark : t'.isMarked erased = true := hmark
    have hother : t'.isMarked other = true := hother
    rw [hclosing.erased] at herased
    rw [hclosing.marked] at hmark hother
    exact h.sole herased hmark hother

/-- **The head is settled**, and the table is in order.  The only active page stays. -/
theorem ensures_settleHead (hu : p.Usable) (hrobust : p.Robust conduct inv)
    (h : RingSettled p t img) :
    Ensures p conduct inv (settleHead p) t img
      (fun _ t' img' => t'.Mirrors p img' ∧ p.live img' = p.live img ∧
        t.SameMarkers t' ∧
        ∀ page, t.isKind .active page = true →
          (∀ other, t.isKind .active other = true → other = page) →
            t'.isKind .active page = true) noError := by
  unfold settleHead
  refine ensures_get_bind ?_
  dsimp only
  generalize hnewest : t.lastInRing? (t.isKind .active) = newest
  refine (ensures_forM (fun pages t' img' => t'.count = p.pageCount ∧ t'.Reflects p img' ∧
    Closing t newest pages t' ∧ p.live img' = p.live img) ?_
    ⟨h.count_eq, h.reflects,
      ⟨fun _ => rfl, fun _ => rfl, rfl, fun page hout hactive => ?_, fun _ _ => rfl⟩, rfl⟩).bind ?_
  · rintro page hpage rest t' img' ⟨hcount, hreflects, hclosing, hlive⟩
    have hlt := List.mem_range.mp hpage
    refine (ensures_closeOther hu hrobust hcount hreflects hclosing (h.count_eq ▸ hlt)).weaken ?_
    rintro _ t'' img'' ⟨hcount', hreflects', hclosing', hlive'⟩
    exact ⟨hcount', hreflects', hclosing', hlive'.trans hlive⟩
  · -- All active pages are ahead.
    obtain ⟨entry, hentry, -⟩ := Table.isKind_iff.mp hactive
    exact absurd (List.mem_range.mpr (Table.lt_count hentry)) hout
  rintro _ t' img' ⟨hcount, hreflects, hclosing, hlive⟩
  refine ensures_modify ⟨⟨hcount, hreflects.tracks, h.ordered hnewest hcount hclosing,
    hreflects.held⟩, hlive, ⟨hclosing.marked, hclosing.ringStart_eq⟩, fun page hactive hsole => ?_⟩
  obtain ⟨entry, hentry, -⟩ := Table.isKind_iff.mp hactive
  have hsome : newest = some page :=
    hnewest.symm.trans (lastInRing?_eq_some (Table.lt_count hentry) hactive hsole)
  exact (hclosing.newest page hsome).trans hactive

/-- **The scan makes a table that mirrors the flash**, and starts the ring at the first marked page.
Formatting apart, the live records stay, and so does the active page of an orderly flash. -/
theorem ensures_load (hu : p.Usable) (hsplit : conduct ≠ .splitting)
    (hmode : anchored ∨ ∀ L, allowed L) :
    Ensures p conduct (p.Secure conduct anchored allowed) (load p) t img
      (fun _ t' img' => t'.Mirrors p img' ∧
        (anchored ∨ img.Marked p.pageCount → p.live img' = p.live img) ∧
        (¬img.Marked p.pageCount → p.live img' = (fun _ => []) ∧ t'.MarkedOnce) ∧
        (anchored → ¬conduct.SplitsWrites → ∀ page < p.pageCount, img.IsActive page →
          img'.IsActive page) ∧
        t'.StartsFirst) noError := by
  refine ensures_of_inv fun hinv => ?_
  unfold load
  refine ensures_modify_bind ?_
  have hrobust := p.robust_secure conduct anchored allowed
  refine (ensures_loadAll hu hsplit hrobust (fun _ _ _ _ _ hpage hunfinished hinv' =>
    hinv'.mends hpage hunfinished) rfl).bind ?_
  intro _ t₁ img₁ hscanned
  refine (ensures_settleRingStart anchored hu hrobust hscanned fun _ hunmarked =>
    ensures_format hu hscanned.count_eq hscanned.reflects.tracks hunmarked hmode).bind ?_
  rintro _ t₂ img₂ ⟨hsettled, hsame, hnone, htrimmed⟩
  refine (ensures_settleHead hu hrobust hsettled).weaken ?_
  rintro _ t₃ img₃ ⟨hmirrors, hlive, hmarkers, hstays⟩
  refine ⟨hmirrors, fun hkept => hlive.trans (hsame hkept),
    fun hunmarked => ⟨hlive.trans (hnone hunmarked).1, hmarkers.markedOnce (hnone hunmarked).2⟩,
    fun hanchored hwhole page hpage hk => ?_, hmarkers.startsFirst hsettled.first⟩
  obtain ⟨status, hstatus, hkind⟩ := hk
  have hmarked : img.Marked p.pageCount := by
    refine (hinv.anchored hanchored).marked_of_ne_blank hpage hstatus fun hblank => ?_
    rw [hblank] at hkind
    cases hkind
  have horderly := hinv.orderly hanchored hwhole
  have hiff : ∀ other < p.pageCount, t₂.isKind .active other = true ↔ img.IsActive other := by
    intro other hother
    rw [(htrimmed hmarked).active, hscanned.active other (hscanned.count_eq ▸ hother)]
    exact ⟨fun h => h.1, fun h => ⟨h, horderly.clean other hother h⟩⟩
  refine (hmirrors.tracks.isActive_iff (hmirrors.count_eq ▸ hpage)).mpr
    (hstays page ((hiff page hpage).mpr ⟨status, hstatus, hkind⟩) fun other hother => ?_)
  obtain ⟨entry, hentry, -⟩ := Table.isKind_iff.mp hother
  have hlt : other < p.pageCount := hsettled.count_eq ▸ Table.lt_count hentry
  exact horderly.sole page hpage other hlt ⟨status, hstatus, hkind⟩ ((hiff other hlt).mp hother)

end Engine

end RingStore
