import RingStore.Engine.Boot
import RingStore.Proofs.Anchor

/-!
# Loading a page finishes what was cut short

A page may have been left in the middle of anything: with garbage behind its records, with records that
fail their checksum, with a part of it erased.  Loading it makes a page that its entry of the table
describes.  No live record is lost on the way, no marker appears or is lost, and all other
pages stay as they are.

## Main statements

* `ensures_dropDamaged`: only damaged records are dropped.
* `ensures_loadPage`: the statement above.
-/

namespace RingStore

namespace Partition

open AccessM

variable {p : Partition} {conduct : Conduct} {inv : Image → Prop} {img : Image} {page : Nat}
  {status : PageStatus}

/-- **Damaged records are dropped, and no others.** -/
theorem ensures_dropDamaged (hu : p.Usable) (hsplit : conduct ≠ .splitting)
    (hrobust : p.Robust conduct inv) (hpage : page < p.pageCount)
    (hstatus : img.status page = some status) (hkind : status.kind ≠ .erased) :
    Ensures p conduct inv (((img.log page).damaged p.chip.checksum).forM (p.writeTombstone page)) img
      fun _ img' => ∃ content, img' = img.setContent page content ∧
        (img.log page).Agrees p.chip.checksum (Log.parse content) ∧
        (Log.parse content).damaged p.chip.checksum = [] := by
  -- The offsets ahead are those of the records that are still damaged.
  refine ensures_forM (fun offsets img' => ∃ content, img' = img.setContent page content ∧
    (img.log page).Agrees p.chip.checksum (Log.parse content) ∧
      (Log.parse content).damaged p.chip.checksum = offsets) ?_
    ⟨img.content page, (Image.setContent_self img page).symm, .refl _ _, rfl⟩ |>.mono ?_
  · rintro offset rest _ ⟨content, rfl, hagrees, hdamaged⟩
    obtain ⟨before, record, after, hrecords, rfl, hrecord⟩ :=
      Log.exists_of_mem_damaged (hdamaged ▸ List.mem_cons_self)
    have hlog : Log.parse content = ⟨before ++ record :: after, (Log.parse content).tail⟩ := by
      rw [← hrecords]
    have hparse := Log.parse_programmed_tombstone hrecords
    have hdropped : Log.Agrees p.chip.checksum (Log.parse content) (Log.parse (programmed content
        (Log.span before + keyOffset) tombstoneBytes)) := by
      rw [hparse]
      conv => arg 2; rw [hlog]
      exact Log.agrees_dropped hrecord
    have hlive : p.live ((img.setContent page content).setContent page
        (programmed ((img.setContent page content).content page) (Log.span before + keyOffset)
          tombstoneBytes)) = p.live (img.setContent page content) := by
      refine live_setContent_of_agrees ?_
      rw [Image.log, Image.content_setContent_self]
      exact hdropped
    have hrecords' : ((img.setContent page content).log page).records = before ++ record :: after := by
      rw [Image.log, Image.content_setContent_self]
      exact hrecords
    have hstatus' : (img.setContent page content).status page = some status := hstatus
    refine (ensures_tombstoneOver hu hpage hrecords'
      (hrobust.setContent hstatus' hkind (fun _ => hlive) fun _ hclean => ?_)
      fun hinv hsplits _ _ => hrobust.setContent hstatus' hkind
        (fun hnot => absurd (hsplits.resolve_left hsplit) hnot) (absurd hsplits) hinv).mono ?_
    · rw [Log.parse_programmed_tombstone hrecords']
      exact hclean
    rintro _ _ rfl
    rw [Image.setContent_setContent, Image.content_setContent_self]
    refine ⟨_, rfl, hagrees.trans hdropped, ?_⟩
    rw [hparse]
    exact Log.damaged_dropped_of_cons (hlog ▸ hdamaged)
  · rintro _ _ ⟨content, rfl, hagrees, hdamaged⟩
    exact ⟨content, rfl, hagrees, hdamaged⟩

/-- A page may move on to the next stage. -/
theorem ensures_advanceIf (hu : p.Usable) (hrobust : p.Robust conduct inv)
    (hpage : page < p.pageCount) (due : Bool) {kind : PageKind} (hstatus : img.status page = some status)
    (hnext : due = true → status.kind ≠ .erased ∧ status.kind.next = kind)
    (hlive : due = true → p.live (img.setStatus page (status.withKind kind)) = p.live img) :
    Ensures p conduct inv (p.advanceIf page due status kind) img
      fun status' img' => status' = (if due then status.withKind kind else status) ∧
        img' = img.setStatus page status' ∧ p.live img' = p.live img := by
  unfold advanceIf
  cases due with
  | false => exact ensures_pure ⟨rfl, (Image.setStatus_self hstatus).symm, rfl⟩
  | true =>
    obtain ⟨hused, rfl⟩ := hnext rfl
    have hkind : status.kind.next ≠ .erased ∧ status.kind.next ≠ .active := by
      cases hk : status.kind with
      | erased => exact absurd hk hused
      | _ => decide
    refine ensures_of_inv fun hinv => ?_
    refine (ensures_writeStatus hu hpage hstatus status.toByte_and_next
      (hrobust.withKind hpage hstatus hused hkind (hlive rfl) hinv)).bind ?_
    rintro _ _ rfl
    exact ensures_pure ⟨rfl, rfl, hlive rfl⟩

/-- What is left of a page, and what is said of it. -/
structure Loaded (p : Partition) (page : Nat) (img : Image) (entry : Page) (img' : Image) : Prop where
  status_eq : img'.status page = some entry.status
  describes : entry.Describes p.chip.checksum (img'.content page)
  held : entry.kind = .full → 0 < entry.live
  live_eq : p.live img' = p.live img
  others : ∀ other, other ≠ page →
    img'.status other = img.status other ∧ img'.content other = img.content other
  marked : entry.status.ringStart = true ↔ ∃ status, img.status page = some status ∧
    status.ringStart = true
  active : entry.kind = .active ↔ img.IsActive page ∧ (img.log page).isClean = true

theorem ringStart_iff (hstatus : img.status page = some status) :
    status.ringStart = true ↔ ∃ s, img.status page = some s ∧ s.ringStart = true := by
  rw [hstatus]
  simp

theorem isActive_iff (hstatus : img.status page = some status) :
    img.IsActive page ↔ status.kind = .active := by
  rw [Image.IsActive, hstatus]
  simp

/-- A page whose damaged records are dropped, at the stage that its log asks for. -/
theorem Loaded.recovered {content : Bytes} {final : PageStatus} (hstatus : img.status page = some status)
    (hagrees : (img.log page).Agrees p.chip.checksum (Log.parse content))
    (hsound : (Log.parse content).damaged p.chip.checksum = [])
    (hring : final.ringStart = status.ringStart)
    (hfinal : final.kind = .unavailable ∧ (img.log page).live p.chip.checksum = 0 ∨
      final.kind = .full ∧ (img.log page).live p.chip.checksum ≠ 0 ∨
      final.kind = .active)
    (hactive : final.kind = .active ↔ status.kind = .active ∧ (img.log page).isClean = true)
    (hlive : p.live ((img.setContent page content).setStatus page final) = p.live img) :
    Loaded p page img ⟨final, (img.log page).used, (img.log page).live p.chip.checksum⟩
      ((img.setContent page content).setStatus page final) := by
  refine ⟨Image.status_setStatus_self, ?_, fun hfull => ?_, hlive, fun other hne => ?_,
    hring ▸ ringStart_iff hstatus, hactive.trans (and_congr_left' (isActive_iff hstatus).symm)⟩
  · rw [Image.content_setStatus, Image.content_setContent_self]
    refine ⟨fun hk => ?_, fun _ => hagrees.used_eq.symm, fun _ => hagrees.count_eq.symm, fun _ => hsound,
      fun hk => ?_, fun hk => ?_⟩
    · have hk : final.kind = .erased := hk
      simp [hk] at hfinal
    · have hk : final.kind = .active := hk
      have hclean : (img.log page).isClean = true := (hactive.mp hk).2
      rw [Log.isClean, hagrees.tail_eq]
      exact hclean
    · have hk : final.kind = .unavailable := hk
      have hzero : (img.log page).live p.chip.checksum = 0 := by simpa [hk] using hfinal
      exact hzero
  · have hfull : final.kind = .full := hfull
    have hne : (img.log page).live p.chip.checksum ≠ 0 := by simpa [hfull] using hfinal
    exact Nat.pos_of_ne_zero hne
  · rw [Image.status_setStatus_of_ne hne, Image.content_setStatus, Image.content_setContent_of_ne hne]
    exact ⟨rfl, rfl⟩

/-- A page with records is closed if it was active with garbage behind them. -/
theorem closing_spec {closed : PageStatus} {clean : Bool} (hholds : status.kind.holdsRecords = true)
    (h : closed = if (status.kind == .active && !clean) = true then status.withKind .full else status) :
    closed.ringStart = status.ringStart ∧ (closed.kind = .full ∨ closed.kind = .active) ∧
      (closed.kind = .active ↔ status.kind = .active ∧ clean = true) := by
  subst h
  rcases PageKind.holdsRecords_iff.mp hholds with hkind | hkind <;>
    cases clean <;> simp [hkind, PageStatus.withKind]

/-- A closed page is retired if none of its records is live. -/
theorem retiring_spec {closed final : PageStatus} {live : Nat}
    (hkinds : closed.kind = .full ∨ closed.kind = .active)
    (h : final = if (closed.kind == .full && live == 0) = true then closed.withKind .unavailable
      else closed) :
    final.ringStart = closed.ringStart ∧
      (final.kind = .unavailable ∧ live = 0 ∨ final.kind = .full ∧ live ≠ 0 ∨ final.kind = .active) ∧
      (final.kind = .active ↔ closed.kind = .active) := by
  subst h
  rcases hkinds with hkind | hkind
  · by_cases hzero : live = 0 <;> simp [hkind, hzero, PageStatus.withKind]
  · simp [hkind]

/-- **An active or full page is recovered**: damaged records are dropped, and the page is closed and
retired if it has to be. -/
theorem ensures_recoverPage (hu : p.Usable) (hsplit : conduct ≠ .splitting)
    (hrobust : p.Robust conduct inv) (hpage : page < p.pageCount)
    (hstatus : img.status page = some status) (hholds : status.kind.holdsRecords = true) :
    Ensures p conduct inv (p.recoverPage page status (img.content page)) img (Loaded p page img) := by
  have hkind : status.kind ≠ .erased := PageKind.ne_erased_of_holdsRecords hholds
  unfold recoverPage
  refine (ensures_dropDamaged hu hsplit hrobust hpage hstatus hkind).bind ?_
  rintro _ _ ⟨content, rfl, hagrees, hsound⟩
  have hlive := live_setContent_of_agrees hagrees
  have hstatus' : (img.setContent page content).status page = some status := hstatus
  -- An active page with garbage behind its records is closed.
  refine (ensures_advanceIf hu hrobust hpage _ hstatus' (fun hdue => ?_) fun hdue => ?_).bind ?_
  · have hactive : status.kind = .active := by simp_all
    exact ⟨hkind, by rw [hactive]; rfl⟩
  · refine live_setStatus hstatus' (Or.inl ?_)
    rw [hholds]
    rfl
  rintro closed _ ⟨hclosed, rfl, hlive₁⟩
  obtain ⟨hring, hkinds, hactive⟩ := closing_spec hholds hclosed
  -- A full page without live records waits for its erase.
  refine (ensures_advanceIf hu hrobust hpage _ Image.status_setStatus_self (fun hdue => ?_)
    fun hdue => ?_).bind ?_
  · have hfull : closed.kind = .full := by simp_all
    exact ⟨by rw [hfull]; decide, by rw [hfull]; rfl⟩
  · refine live_setStatus Image.status_setStatus_self (Or.inr (List.eq_nil_of_length_eq_zero ?_))
    rw [Image.log, Image.content_setStatus, Image.content_setContent_self, ← Log.live_eq_length,
      hagrees.count_eq]
    simp only [Bool.and_eq_true, beq_iff_eq] at hdue
    exact hdue.2
  rintro final _ ⟨hfinal, rfl, hlive₂⟩
  obtain ⟨hring', hkinds', hactive'⟩ := retiring_spec hkinds hfinal
  rw [Image.setStatus_setStatus] at hlive₂ ⊢
  exact ensures_pure (.recovered hstatus hagrees hsound (hring'.trans hring) hkinds'
    (hactive'.trans hactive) (hlive₂.trans (hlive₁.trans hlive)))

/-- **An erase that was cut short is finished.** -/
theorem ensures_finishErase (hu : p.Usable) (hpage : page < p.pageCount)
    (hmends : img.Unfinished page → inv img → p.Mends conduct inv img page)
    (hstatus : img.status page = some status) (hkind : status.kind = .erased)
    (hblank : ¬isBlank (img.content page) = true) :
    Ensures p conduct inv (p.finishErase page status) img
      fun _ img' => img'.status page = some status ∧ isBlank (img'.content page) = true ∧
        p.live img' = p.live img ∧ ∀ other, other ≠ page →
          img'.status other = img.status other ∧ img'.content other = img.content other := by
  have hunfinished : img.Unfinished page := Or.inr ⟨status, hstatus, hkind, hblank⟩
  have hlive : p.live (img.erase page) = p.live img := live_erase_of_nil hunfinished.live_eq_nil
  have hwiped : isBlank ((img.erase page).content page) = true := by
    rw [Image.content_erase_self]
    exact isBlank_replicate _
  refine ensures_of_inv fun hinv => ?_
  have hmend := hmends hunfinished hinv
  unfold finishErase
  refine (ensures_erasePage hu hpage hmend.erase hmend.erasePart).bind ?_
  rintro _ _ rfl
  split
  · next hring =>
    have hlive' : p.live ((img.erase page).setStatus page status) = p.live (img.erase page) :=
      live_setStatus Image.status_erase_self (Or.inl (by rw [hkind]; rfl))
    have hclear : PageStatus.blank.toByte &&& status.toByte = status.toByte := by
      rw [PageStatus.toByte_blank, UInt8.and_comm]
      exact Cells.and_ones _
    refine (ensures_writeStatus hu hpage Image.status_erase_self hclear
      (hmend.mark status hstatus hring)).mono ?_
    rintro _ _ rfl
    refine ⟨Image.status_setStatus_self, hwiped, hlive'.trans hlive, fun other hne => ?_⟩
    rw [Image.status_setStatus_of_ne hne, Image.status_erase_of_ne hne, Image.content_setStatus,
      Image.content_erase_of_ne hne]
    exact ⟨rfl, rfl⟩
  · next hring =>
    rw [Bool.not_eq_true] at hring
    refine ensures_pure ⟨?_, hwiped, hlive, fun other hne => ?_⟩
    · rw [Image.status_erase_self, PageStatus.eq_blank hkind hring]
    · rw [Image.status_erase_of_ne hne, Image.content_erase_of_ne hne]
      exact ⟨rfl, rfl⟩

theorem ensures_settlePage (hu : p.Usable) (hsplit : conduct ≠ .splitting)
    (hrobust : p.Robust conduct inv) (hpage : page < p.pageCount)
    (hmends : img.Unfinished page → inv img → p.Mends conduct inv img page)
    (hstatus : img.status page = some status) :
    Ensures p conduct inv (p.settlePage page status (img.content page)) img (Loaded p page img) := by
  have hsame : ∀ other, other ≠ page →
      img.status other = img.status other ∧ img.content other = img.content other :=
    fun _ _ => ⟨rfl, rfl⟩
  have hinactive : status.kind ≠ .active → (status.kind = .active ↔
      img.IsActive page ∧ (img.log page).isClean = true) := fun hne =>
    ⟨fun hk => absurd hk hne, fun hk => absurd ((isActive_iff hstatus).mp hk.1) hne⟩
  unfold settlePage
  split
  · next hkind =>
    have hnil : p.live img page = [] := live_eq_nil hstatus (by rw [hkind]; rfl)
    split
    · next hblank =>
      refine ensures_pure ⟨hstatus, .of_blank hblank rfl rfl, fun hfull => ?_, rfl, hsame,
        ringStart_iff hstatus, hinactive (by rw [hkind]; decide)⟩
      rw [Page.kind, hkind] at hfull
      cases hfull
    · next hblank =>
      refine (ensures_finishErase hu hpage hmends hstatus hkind hblank).bind ?_
      rintro _ img' ⟨hstatus', hblank', hlive, hothers⟩
      refine ensures_pure ⟨hstatus', .of_blank hblank' rfl rfl, fun hfull => ?_, hlive, hothers,
        ringStart_iff hstatus, hinactive (by rw [hkind]; decide)⟩
      rw [Page.kind, hkind] at hfull
      cases hfull
  · next hkind =>
    refine ensures_pure ⟨hstatus, ⟨fun hk => ?_, fun hk => ?_, fun hk => ?_, fun hk => ?_, fun hk => ?_,
      fun _ => rfl⟩, fun hk => ?_, rfl, hsame, ringStart_iff hstatus,
      hinactive (by rw [hkind]; decide)⟩
    all_goals
      rw [Page.kind, hkind] at hk
      cases hk
  · next hkind => exact ensures_recoverPage hu hsplit hrobust hpage hstatus (by rw [hkind]; rfl)
  · next hkind => exact ensures_recoverPage hu hsplit hrobust hpage hstatus (by rw [hkind]; rfl)

/-- **A page is loaded.** -/
theorem ensures_loadPage (hu : p.Usable) (hsplit : conduct ≠ .splitting)
    (hrobust : p.Robust conduct inv) (hpage : page < p.pageCount)
    (hmends : img.Unfinished page → inv img → p.Mends conduct inv img page) :
    Ensures p conduct inv (p.loadPage page) img (Loaded p page img) := by
  unfold loadPage
  refine (ensures_readPage hu hpage).bind ?_
  rintro _ img ⟨rfl, byte, rfl, hbyte⟩
  dsimp only
  split
  · next status hstatus =>
    rw [hstatus] at hbyte
    exact ensures_settlePage hu hsplit hrobust hpage hmends hbyte.symm
  · next hnone =>
    have hunfinished : img.Unfinished page := Or.inl (hbyte.symm.trans hnone)
    refine ensures_of_inv fun hinv => ?_
    have hmend := hmends hunfinished hinv
    refine (ensures_erasePage hu hpage hmend.erase hmend.erasePart).bind ?_
    rintro _ _ rfl
    refine ensures_pure ⟨Image.status_erase_self, ?_, (fun hfull => by cases hfull),
      live_erase_of_nil hunfinished.live_eq_nil, fun other hne => ?_,
      ⟨(fun hring => by cases hring), ?_⟩, ⟨(fun hactive => by cases hactive), ?_⟩⟩
    · rw [Image.content_erase_self]
      exact .of_blank (isBlank_replicate _) rfl rfl
    · rw [Image.status_erase_of_ne hne, Image.content_erase_of_ne hne]
      exact ⟨rfl, rfl⟩
    · rintro ⟨status, hstatus, -⟩
      rw [← hbyte, hnone] at hstatus
      cases hstatus
    · rintro ⟨⟨status, hstatus, -⟩, -⟩
      rw [← hbyte, hnone] at hstatus
      cases hstatus

end Partition

end RingStore
