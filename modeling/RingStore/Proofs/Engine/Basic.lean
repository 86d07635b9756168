import RingStore.Proofs.Anchor
import RingStore.Proofs.Engine.Logic
import RingStore.Proofs.Torn

/-!
# What the basic operations of the engine do

Each operation makes one change of the flash and the matching change of the page table.  The statements
give both exactly, so that callers derive from them what they need.

## Main statements

* `ensures_append`: an append adds one live record and keeps the table a mirror of the flash.
* `ensures_close`: a closed page waits for its erase if no record of it is live.
-/

namespace RingStore.Engine

open EngineM

variable {p : Partition} {conduct : Conduct} {anchored : Prop} {allowed : Partition.Holdings → Prop}
  {inv : Image → Prop} {t : Table} {img : Image} {page : Nat} {entry : Page} {status : PageStatus}

/-- A status is written if it clears bits of the old one. -/
theorem ensures_setStatus (hu : p.Usable) (hcount : t.count = p.pageCount)
    (hentry : t.pages[page]? = some entry) (hold : img.status page = some entry.status)
    (hclear : entry.status.toByte &&& status.toByte = status.toByte)
    (hkeep : inv img → inv (img.setStatus page status)) :
    Ensures p conduct inv (setStatus p page status) t img
      (fun _ t' img' => t' = t.set page { entry with status } ∧ img' = img.setStatus page status)
      noError := by
  have hpage : page < p.pageCount := hcount ▸ Table.lt_count hentry
  refine ensures_of_inv fun hinv => ?_
  unfold setStatus
  refine ensures_pageAt_bind hentry ?_
  refine (ensures_perform (Partition.ensures_writeStatus hu hpage hold hclear (hkeep hinv))).bind ?_
  rintro _ t' img' ⟨rfl, himg⟩
  exact ensures_modify ⟨rfl, himg⟩

/-- A page is erased if that keeps what the run has to keep, also when the erase is torn. -/
theorem ensures_erasePage (hu : p.Usable) (hcount : t.count = p.pageCount)
    (hentry : t.pages[page]? = some entry)
    (hkeep : inv img → inv (img.erase page))
    (htorn : inv img → conduct = .tearing → ∀ skipped count,
      inv (img.erasePart page skipped count)) :
    Ensures p conduct inv (erasePage p page) t img
      (fun _ t' img' => t' = t.set page .blank ∧ img' = img.erase page) noError := by
  have hpage : page < p.pageCount := hcount ▸ Table.lt_count hentry
  refine ensures_of_inv fun hinv => ?_
  unfold erasePage
  refine ensures_pageAt_bind hentry ?_
  refine (ensures_perform
    (Partition.ensures_erasePage hu hpage (hkeep hinv) (htorn hinv))).bind ?_
  rintro _ t' img' ⟨rfl, himg⟩
  exact ensures_modify ⟨rfl, himg⟩

/-- A page without live records is erased if the ring stays anchored without it. -/
theorem ensures_eraseEmpty (hu : p.Usable) (hcount : t.count = p.pageCount)
    (hentry : t.pages[page]? = some entry) (hlive : p.live img page = [])
    (hother : anchored → (∃ other < p.pageCount, other ≠ page ∧
        ∃ status, img.status other = some status ∧ status.ringStart = true) ∨
      ∀ other < p.pageCount, other ≠ page → img.status other = some .blank) :
    Ensures p conduct (p.Secure conduct anchored allowed) (erasePage p page) t img
      (fun _ t' img' => t' = t.set page .blank ∧ img' = img.erase page) noError :=
  ensures_erasePage hu hcount hentry (fun hinv => hinv.erase hlive hother)
    fun hinv hconduct _ _ => hinv.erasePart hconduct hother

/-- The records of a page end within its content. -/
theorem used_le_contentSize (htracks : t.Tracks p img) (hentry : t.pages[page]? = some entry)
    (hlength : (img.content page).length = p.contentSize) (hholds : entry.kind.holdsRecords = true) :
    entry.used ≤ p.contentSize := by
  rw [(htracks page entry hentry).2.used_eq hholds, ← hlength]
  exact Log.used_le _

theorem ensures_freeBytes (hcount : t.count = p.pageCount)
    (htracks : t.Tracks p img) (hentry : t.pages[page]? = some entry)
    (hholds : entry.kind.holdsRecords = true) :
    Ensures p conduct inv (freeBytes p page) t img
      (fun free t' img' => free = p.contentSize - entry.used ∧ entry.used ≤ p.contentSize ∧
        t' = t ∧ img' = img) noError := by
  have hpage : page < p.pageCount := hcount ▸ Table.lt_count hentry
  refine ensures_of_length fun hlength => ?_
  have hle := used_le_contentSize htracks hentry (hlength page hpage) hholds
  unfold freeBytes
  refine ensures_pageAt_bind hentry ?_
  rw [if_pos hle]
  exact ensures_pure ⟨rfl, hle, rfl, rfl⟩

/-! ## Appending -/

/-- A live record that fits behind the records of an active page. -/
structure Fits (p : Partition) (img : Image) (page : Nat) (entry : Page) (record : Record) : Prop where
  page_lt : page < p.pageCount
  status_eq : img.status page = some entry.status
  describes : entry.Describes p.chip.checksum (img.content page)
  active : entry.kind = .active
  wellFormed : record.WellFormed
  live : record.isLive p.chip.checksum = true
  length_eq : (img.content page).length = p.contentSize
  room : entry.used + record.size ≤ p.contentSize

namespace Fits

variable {record : Record}

theorem holds (h : Fits p img page entry record) : entry.kind.holdsRecords = true := by
  rw [h.active]
  rfl

theorem isClean (h : Fits p img page entry record) : (img.log page).isClean = true :=
  h.describes.clean h.active

theorem used_eq (h : Fits p img page entry record) : entry.used = (img.log page).used :=
  h.describes.used_eq h.holds

theorem size_le_tail (h : Fits p img page entry record) : record.size ≤ (img.log page).tail.length := by
  have htail := Log.used_add_length_tail (img.content page)
  have hused : entry.used = (Log.parse (img.content page)).used := h.used_eq
  have hroom := h.room
  rw [h.length_eq, ← hused] at htail
  rw [Image.log]
  omega

/-- The log of the page once the record is there. -/
theorem parse_programmed (h : Fits p img page entry record) :
    Log.parse (programmed (img.content page) entry.used record.toBytes) =
      ⟨(img.log page).records ++ [record], (img.log page).tail.drop record.size⟩ := by
  rw [h.used_eq]
  exact Log.parse_programmed_record h.isClean h.wellFormed h.size_le_tail

theorem live_programmed (h : Fits p img page entry record) :
    p.live (img.setContent page (programmed (img.content page) entry.used record.toBytes)) =
      (p.live img).added page entry.used record := by
  rw [Partition.Holdings.live_setContent_appended h.page_lt h.status_eq h.holds h.live
    h.parse_programmed, ← h.used_eq]

theorem status_kind_ne (h : Fits p img page entry record) : entry.status.kind ≠ .erased := by
  rw [show entry.status.kind = .active from h.active]
  decide

/-- The record may be appended. -/
theorem secure (h : Fits p img page entry record) (hsecure : p.Secure conduct anchored allowed img)
    (hallowed : conduct ≠ .tearing → allowed ((p.live img).added page entry.used record)) :
    p.Secure conduct anchored allowed
      (img.setContent page (programmed (img.content page) entry.used record.toBytes)) := by
  refine hsecure.setContent h.status_eq h.status_kind_ne
    (fun hnot => h.live_programmed ▸ hallowed hnot) fun _ _ => ?_
  rw [h.parse_programmed]
  exact isBlank_drop h.isClean _

/-- A torn append adds a part of the record, or nothing. -/
theorem secure_part (h : Fits p img page entry record)
    (hsecure : p.Secure conduct anchored allowed img)
    (hcut : conduct = .splitting → ∀ count, (record.cut count).isLive p.chip.checksum = true →
      allowed ((p.live img).added page entry.used (record.cut count)))
    (hsplits : conduct.SplitsWrites) (skipped count : Nat) :
    p.Secure conduct anchored allowed (img.setContent page
      (programmed (img.content page) (entry.used + skipped)
        ((record.toBytes.drop skipped).take count))) := by
  refine hsecure.setContent h.status_eq h.status_kind_ne (fun hnot => ?_) fun hwhole =>
    absurd hsplits hwhole
  have hpart := Partition.Holdings.live_programmed_part h.page_lt h.status_eq h.holds h.isClean
    h.wellFormed h.size_le_tail skipped count
  rw [← h.used_eq] at hpart
  rcases hpart with hsame | ⟨hlive, hadded⟩
  · exact hsame ▸ hsecure.allowed hnot
  · exact hadded ▸ hcut (hsplits.resolve_right hnot) count hlive

/-- The counters of the page stay within their bounds. -/
theorem counters_le (h : Fits p img page entry record) :
    entry.used + record.size ≤ maxCounter ∧ entry.live + 1 ≤ maxCounter := by
  have hmax : p.pageSize ≤ 65535 := p.pageSize_le
  have hcontent := p.statusSize_add_contentSize
  have hroom := h.room
  have hbound := Log.live_le_used p.chip.checksum (img.log page)
  have hlive : entry.live = (img.log page).live p.chip.checksum := h.describes.live_eq h.holds
  rw [← h.used_eq, ← hlive] at hbound
  rw [maxCounter]
  omega

end Fits

/-- **An append adds one live record.** -/
theorem ensures_append (hu : p.Usable) (hcount : t.count = p.pageCount) (htracks : t.Tracks p img)
    (hentry : t.pages[page]? = some entry) (hactive : entry.kind = .active) {key : UInt16}
    {payload : Bytes} (hkey : isValidKey key = true) (hne : payload ≠ [])
    (hlength : payload.length ≤ maxPayloadLength)
    (hroom : entry.used + (headerSize + payload.length) ≤ p.contentSize)
    (hallowed : conduct ≠ .tearing → allowed
      ((p.live img).added page entry.used (.ofPayload p.chip.checksum key payload)))
    (hcut : conduct = .splitting → ∀ count,
      ((Record.ofPayload p.chip.checksum key payload).cut count).isLive p.chip.checksum = true →
        allowed ((p.live img).added page entry.used
          ((Record.ofPayload p.chip.checksum key payload).cut count))) :
    Ensures p conduct (p.Secure conduct anchored allowed) (append p page key payload) t img
      (fun _ t' img' =>
        t' = t.set page { entry with
          used := entry.used + (headerSize + payload.length), live := entry.live + 1 } ∧
        t'.Tracks p img' ∧
        p.live img' =
          (p.live img).added page entry.used (.ofPayload p.chip.checksum key payload)) noError := by
  have hpage : page < p.pageCount := hcount ▸ Table.lt_count hentry
  obtain ⟨hstatus, hdescribes⟩ := htracks page entry hentry
  refine ensures_of_length fun hcontents => ensures_of_inv fun hinv => ?_
  unfold append
  refine ensures_pageAt_bind hentry ?_
  rw [← Record.size_ofPayload p.chip.checksum key hlength] at hroom ⊢
  generalize hrecord : Record.ofPayload p.chip.checksum key payload = record at *
  have hfits : Fits p img page entry record :=
    ⟨hpage, hstatus, hdescribes, hactive, hrecord ▸ Record.wellFormed_ofPayload _ key hlength,
      hrecord ▸ Record.isLive_ofPayload _ hkey hne hlength, hcontents page hpage, hroom⟩
  have hsize : record.toBytes.length = record.size := hfits.wellFormed.length_toBytes
  have hnonempty : record.toBytes ≠ [] := by
    refine List.ne_nil_of_length_pos ?_
    rw [hsize]
    exact Nat.lt_of_lt_of_le (by decide) (Nat.le_add_right headerSize _)
  refine (ensures_perform (Partition.ensures_writeContent hu hpage hnonempty (by omega)
    (hfits.secure hinv hallowed) (hfits.secure_part hinv hcut))).bind ?_
  rintro _ t' img' ⟨rfl, rfl⟩
  rw [hsize, if_pos hfits.counters_le]
  exact ensures_modify ⟨rfl, htracks.setContent hstatus
    (hdescribes.appended hactive hfits.live hfits.parse_programmed), hfits.live_programmed⟩

/-! ## Moving pages on -/

/-- A full page without live records goes on to wait for its erase. -/
theorem ensures_setStatus_unavailable (hu : p.Usable) (hrobust : p.Robust conduct inv)
    (hcount : t.count = p.pageCount) (htracks : t.Tracks p img)
    (hentry : t.pages[page]? = some entry) (hfull : entry.kind = .full) (hzero : entry.live = 0) :
    Ensures p conduct inv
      (setStatus p page (entry.status.withKind .unavailable)) t img
      (fun _ t' img' =>
        t' = t.set page { entry with status := entry.status.withKind .unavailable } ∧
        img' = img.setStatus page (entry.status.withKind .unavailable) ∧
        t'.Tracks p img' ∧ p.live img' = p.live img) noError := by
  have hpage : page < p.pageCount := hcount ▸ Table.lt_count hentry
  obtain ⟨hstatus, hdescribes⟩ := htracks page entry hentry
  have hkind : entry.status.kind = .full := hfull
  have hholds : entry.kind.holdsRecords = true := by rw [hfull]; rfl
  have hnil : (img.log page).liveRecords p.chip.checksum = [] := by
    refine List.eq_nil_of_length_eq_zero ?_
    rw [Image.log, ← hdescribes.live_records hholds, hzero]
  have hlive : p.live (img.setStatus page (entry.status.withKind .unavailable)) = p.live img :=
    Partition.live_setStatus hstatus (Or.inr hnil)
  have hclear := entry.status.toByte_and_withKind
    (show entry.status.kind.next = .unavailable by rw [hkind]; rfl)
  refine (ensures_setStatus hu hcount hentry hstatus hclear fun hinv =>
    hrobust.withKind hpage hstatus (by rw [hkind]; decide) ⟨by decide, by decide⟩ hlive hinv).mono ?_
      fun _ _ _ h => h
  rintro _ t' img' ⟨rfl, rfl⟩
  exact ⟨rfl, rfl, htracks.setStatus (hdescribes.emptied hfull hzero rfl), hlive⟩

/-- The stage that an active page is closed to. -/
def closedKind (entry : Page) : PageKind := if entry.live = 0 then .unavailable else .full

theorem closedKind_ne_erased (entry : Page) : closedKind entry ≠ .erased := by
  unfold closedKind
  split <;> decide

theorem closedKind_ne_active (entry : Page) : closedKind entry ≠ .active := by
  unfold closedKind
  split <;> decide

theorem live_pos_of_closedKind_eq_full (h : closedKind entry = .full) : 0 < entry.live := by
  unfold closedKind at h
  split at h
  · cases h
  · next hne => exact Nat.pos_of_ne_zero hne

/-- **A page is closed** for appends, and waits for its erase if no record of it is live. -/
theorem ensures_close (hu : p.Usable) (hrobust : p.Robust conduct inv) (hcount : t.count = p.pageCount)
    (htracks : t.Tracks p img) (hentry : t.pages[page]? = some entry) (hactive : entry.kind = .active) :
    Ensures p conduct inv (close p page) t img
      (fun _ t' img' =>
        t' = t.set page { entry with status := entry.status.withKind (closedKind entry) } ∧
        img' = img.setStatus page (entry.status.withKind (closedKind entry)) ∧
        t'.Tracks p img' ∧ p.live img' = p.live img) noError := by
  have hpage : page < p.pageCount := hcount ▸ Table.lt_count hentry
  obtain ⟨hstatus, hdescribes⟩ := htracks page entry hentry
  have hkind : entry.status.kind = .active := hactive
  have hclear := entry.status.toByte_and_withKind
    (show entry.status.kind.next = .full by rw [hkind]; rfl)
  have hlive : p.live (img.setStatus page (entry.status.withKind .full)) = p.live img := by
    refine Partition.live_setStatus hstatus (Or.inl ?_)
    rw [hkind]
    rfl
  have htracks' : (t.set page { entry with status := entry.status.withKind .full }).Tracks p
      (img.setStatus page (entry.status.withKind .full)) :=
    htracks.setStatus (hdescribes.closed hactive rfl)
  unfold close
  refine ensures_pageAt_bind hentry ?_
  refine (ensures_setStatus hu hcount hentry hstatus hclear fun hinv =>
    hrobust.withKind hpage hstatus (by rw [hkind]; decide) ⟨by decide, by decide⟩ hlive hinv).bind ?_
  rintro _ t' img' ⟨rfl, rfl⟩
  by_cases hzero : entry.live = 0
  · rw [if_pos hzero, closedKind, if_pos hzero]
    have hself : (t.set page { entry with status := entry.status.withKind .full }).pages[page]? =
        some { entry with status := entry.status.withKind .full } :=
      Table.getElem?_set_self (Table.lt_count hentry)
    refine (ensures_setStatus_unavailable hu hrobust (by rw [Table.count_set, hcount]) htracks' hself rfl
      hzero).mono ?_ fun _ _ _ h => h
    rintro _ t' img' ⟨rfl, rfl, htracks'', hlive''⟩
    rw [Table.set_set, Image.setStatus_setStatus] at *
    exact ⟨rfl, rfl, htracks'', hlive''.trans hlive⟩
  · rw [if_neg hzero, closedKind, if_neg hzero]
    exact ensures_pure ⟨rfl, rfl, htracks', hlive⟩

end RingStore.Engine
