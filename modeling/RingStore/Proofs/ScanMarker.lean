import RingStore.Proofs.BootScan
import RingStore.Proofs.Instant

/-!
# The ring-start marker during a scan

A scan hands the marker on by erasing pages only while another one carries it, with one exception: a page
that claims to be erased and is not is erased at once, and its marker is put back by a write.  If that page
is the only marked one, no page is marked in between, and a reset there makes the next scan format the
partition, with all records that other pages hold.

`Image.MarkerAtRisk` is that situation, and in no other does a scan come through a flash without a marker.

## Main statements

* `Partition.robust_marked`, `Partition.robust_live`: what the upkeep of a scan keeps.
* `Engine.ensures_load_marked`, `Engine.meets_load_unmarked`: the marker during a scan.
* `Session.scan_keeps_marker_iff`: what a reset between two accesses of a scan costs.
* `Session.scan_drops_records`: a reset that costs a record.
-/

namespace RingStore

open RingStore.Partition (Holdings)

namespace Image

/-- The only marked page claims to be erased and is not. -/
def MarkerAtRisk (count : Nat) (img : Image) : Prop :=
  ∃ page < count, img.status page = some ⟨.erased, true⟩ ∧ ¬isBlank (img.content page) = true ∧
    ∀ other < count, img.MarkedAt other → other = page

variable {count page : Nat} {img : Image}

/-- A marked page stays marked while another one changes. -/
theorem MarkedAt.marked {img' : Image} {other : Nat} (h : img.MarkedAt other) (hother : other < count)
    (hsame : img'.status other = img.status other) : img'.Marked count := by
  obtain ⟨status, hstatus, hring⟩ := h
  exact ⟨other, hother, status, hsame.trans hstatus, hring⟩

end Image

/-! ## Invariants of the upkeep -/

namespace Partition

variable {p : Partition} {conduct : Conduct} {img : Image} {page : Nat}

/-- As long as no access is torn, the live records stay. -/
theorem robust_live (p : Partition) (hconduct : conduct ≠ .tearing) (L : Holdings) :
    p.Robust conduct fun img => p.live img = L where
  setContent _ _ hlive _ hinv := (hlive hconduct).trans hinv
  withKind _ _ _ _ hlive hinv := hlive.trans hinv
  erase hnil _ hinv := (live_erase_of_nil hnil).trans hinv
  erasePart _ _ htearing := absurd htearing hconduct

theorem mends_live (hconduct : conduct ≠ .tearing) {L : Holdings} (h : img.Unfinished page)
    (hlive : p.live img = L) : p.Mends conduct (fun img => p.live img = L) img page := by
  have herased := (live_erase_of_nil h.live_eq_nil).trans hlive
  refine ⟨herased, fun htearing => absurd htearing hconduct, fun status hstatus _ => ?_⟩
  refine (live_setStatus Image.status_erase_self (Or.inl ?_)).trans herased
  rw [h.kind_eq hstatus]
  rfl

/-- Some page stays marked. -/
theorem robust_marked (p : Partition) (conduct : Conduct) :
    p.Robust conduct (Image.Marked p.pageCount) where
  setContent _ _ _ _ hinv := hinv
  withKind := by
    rintro img page old kind hpage hold - - - ⟨other, hother, hmarked⟩
    by_cases heq : other = page
    · subst heq
      obtain ⟨status, hstatus, hring⟩ := hmarked
      obtain rfl := Option.some.inj (hold.symm.trans hstatus)
      exact ⟨other, hpage, _, Image.status_setStatus_self, hring⟩
    · exact Image.MarkedAt.marked hmarked hother (Image.status_setStatus_of_ne heq)
  erase := by
    rintro img page - ⟨other, hother, hne, hmarked⟩ -
    exact Image.MarkedAt.marked hmarked hother (Image.status_erase_of_ne hne)
  erasePart := by
    rintro img page skipped count - ⟨other, hother, hne, hmarked⟩ -
    exact Image.MarkedAt.marked hmarked hother (Image.status_erasePart_of_ne hne)

/-- The erase of a page may be finished while another page is marked. -/
theorem mends_marked {other : Nat} (hother : other < p.pageCount) (hne : other ≠ page)
    (hmarked : img.MarkedAt other) : p.Mends conduct (Image.Marked p.pageCount) img page :=
  ⟨hmarked.marked hother (Image.status_erase_of_ne hne),
    fun _ _ _ => hmarked.marked hother (Image.status_erasePart_of_ne hne),
    fun _ _ _ => hmarked.marked hother
      ((Image.status_setStatus_of_ne hne).trans (Image.status_erase_of_ne hne))⟩

/-! ## A page whose erase was cut short -/

/-- A page that claims to be erased and is not is erased when it is loaded. -/
theorem meets_loadPage {goal : Image → Prop} {status : PageStatus} (hu : p.Usable)
    (hpage : page < p.pageCount) (hstatus : img.status page = some status)
    (hkind : status.kind = .erased) (hblank : ¬isBlank (img.content page) = true)
    (hgoal : goal (img.erase page)) : AccessM.Meets p .reliable goal (p.loadPage page) img := by
  have herase : AccessM.Meets p .reliable goal (p.erasePage page) img := by
    intro cells hshows
    have hensures : AccessM.Ensures p .reliable (fun _ => True) (p.erasePage page) img _ :=
      ensures_erasePage hu hpage trivial fun _ _ _ => trivial
    have hrun : (p.erasePage page).run = FlashM.request (.erase
        (Chip.busAddress (p.pageAddress page)) (Chip.busAddress (p.pageAddress page + p.pageSize)))
        fun granted => .done (if granted then .ok () else .error .ioFailure) := by
      rw [erasePage, run_ofGrant]
      exact congrArg (FlashM.request _) (funext fun granted => by cases granted <;> rfl)
    have halways := hensures cells hshows trivial
    rw [hrun] at halways ⊢
    refine FlashM.meets_request halways ?_
    rintro (error | _) after hpost
    · exact absurd rfl hpost.2
    · show goal (p.image after)
      rw [show p.image after = img.erase page from hpost]
      exact hgoal
  unfold loadPage
  have hread : AccessM.Ensures p .reliable (fun _ => True) (p.readPage page) img _ :=
    ensures_readPage hu hpage
  refine hread.meets trivial ?_
  rintro _ img' - ⟨rfl, byte, rfl, hbyte⟩
  dsimp only
  rw [hbyte, hstatus]
  dsimp only
  rw [settlePage, hkind]
  dsimp only
  rw [if_neg hblank]
  exact herase.bind.bind

end Partition

namespace Engine

open EngineM RingStore.Partition

variable {p : Partition} {t : Table} {img img₀ : Image} {page : Nat} {pages : List Nat}

/-! ## The scan -/

/-- Loading pages neither adds a marker nor takes one away. -/
theorem Loading.markedAt_iff (h : Loading p img₀ pages t img) (page : Nat) :
    img.MarkedAt page ↔ img₀.MarkedAt page := by
  by_cases hpage : page < t.count
  · exact (h.reflects.tracks.isMarked_iff hpage).symm.trans (h.marked page hpage)
  · rw [Image.MarkedAt, Image.MarkedAt, (h.ahead page (Nat.le_of_not_lt hpage)).1]

/-- The next page to be loaded is as it was in the beginning. -/
theorem Loading.next_eq (h : Loading p img₀ (page :: pages) t img) :
    img.status page = img₀.status page ∧ img.content page = img₀.content page := by
  have hhead : (page :: pages).head? = (List.range' t.count (p.pageCount - t.count)).head? := by
    rw [h.pages_eq]
  refine h.ahead page ?_
  rw [List.head?_cons, List.head?_range'] at hhead
  split at hhead
  · cases hhead
  · exact Nat.le_of_eq (Option.some.inj hhead).symm

/-- An invariant of the upkeep is kept by a scan of a marked flash, if it is while erases are finished. -/
theorem ensures_load_robust {inv : Image → Prop} (hu : p.Usable) (hrobust : p.Robust .reliable inv)
    (hmarked : img.Marked p.pageCount)
    (hmends : ∀ page rest t' img', Loading p img (page :: rest) t' img' → img'.Unfinished page →
      inv img' → p.Mends .reliable inv img' page) :
    Ensures p .reliable inv (load p) t img (fun _ _ _ => True) noError := by
  unfold load
  refine ensures_modify_bind ?_
  refine (ensures_loadAll hu (by nofun) hrobust (fun page rest t' img' hloading _ =>
    hmends page rest t' img' hloading) rfl).bind ?_
  intro _ t₁ img₁ hscanned
  refine (ensures_settleRingStart False hu hrobust hscanned fun hnot => absurd hmarked hnot).bind ?_
  rintro _ t₂ img₂ ⟨hsettled, -⟩
  exact (ensures_settleHead hu hrobust hsettled).weaken fun _ _ _ _ => trivial

/-- The live records of a marked flash stay during a scan. -/
theorem ensures_load_live (hu : p.Usable) (hmarked : img.Marked p.pageCount) (L : Holdings) :
    Ensures p .reliable (fun img => p.live img = L) (load p) t img (fun _ _ _ => True) noError :=
  ensures_load_robust hu (p.robust_live (by nofun) L) hmarked fun _ _ _ _ _ hunfinished hlive =>
    mends_live (by nofun) hunfinished hlive

/-- Where the marker is not at risk, there is another marked page than one whose erase was cut short. -/
theorem exists_other_marked (hmarked : img₀.Marked p.pageCount)
    (hrisk : ¬img₀.MarkerAtRisk p.pageCount) (hloading : Loading p img₀ (page :: pages) t img)
    (hunfinished : img.Unfinished page) : ∃ other < p.pageCount, other ≠ page ∧ img.MarkedAt other := by
  by_contra hnone
  have hall : ∀ other < p.pageCount, img₀.MarkedAt other → other = page := by
    intro other hother hmark
    by_contra hne
    exact hnone ⟨other, hother, hne, (hloading.markedAt_iff other).mpr hmark⟩
  obtain ⟨first, hfirst, hmark⟩ := hmarked
  obtain rfl := hall first hfirst hmark
  obtain ⟨status, hstatus, hring⟩ := hmark
  obtain ⟨hsame, hcontent⟩ := hloading.next_eq
  rcases hunfinished with hunknown | ⟨status', hstatus', hkind, hblank⟩
  · rw [hsame, hstatus] at hunknown
    cases hunknown
  · rw [hsame, hstatus] at hstatus'
    obtain rfl := Option.some.inj hstatus'
    rw [hcontent] at hblank
    refine hrisk ⟨first, hfirst, ?_, hblank, hall⟩
    rw [hstatus, ← hkind, ← hring]

/-- **Where the marker is not at risk, a page is marked at every instant of a scan.** -/
theorem ensures_load_marked (hu : p.Usable) (hmarked : img.Marked p.pageCount)
    (hrisk : ¬img.MarkerAtRisk p.pageCount) :
    Ensures p .reliable (Image.Marked p.pageCount) (load p) t img (fun _ _ _ => True) noError := by
  refine ensures_load_robust hu (p.robust_marked .reliable) hmarked ?_
  intro page rest t' img' hloading hunfinished _
  obtain ⟨other, hother, hne, hmark⟩ := exists_other_marked hmarked hrisk hloading hunfinished
  exact mends_marked hother hne hmark

/-- **Where the marker is at risk, a scan comes through a flash without it.** -/
theorem meets_load_unmarked (hu : p.Usable) (hrisk : img.MarkerAtRisk p.pageCount) :
    Meets p .reliable (fun img' => ¬img'.Marked p.pageCount) (load p) t img := by
  obtain ⟨page, hpage, hstatus, hblank, hsole⟩ := hrisk
  have hrobust := p.robust_secure .reliable False fun _ => True
  unfold load
  refine meets_modify_bind (Meets.bind ?_)
  refine meets_forM (Loading p img) ?_ ?_ (List.mem_range.mpr hpage) (.start rfl)
    (p.secure_of_unasked .reliable img)
  · exact fun b _ _ rest t' img' hloading => ensures_loadNext hu (by nofun) hrobust hloading
      fun hb hunfinished hinv => hinv.mends hb hunfinished
  · intro rest t' img' hloading
    obtain ⟨hsame, hcontent⟩ := hloading.next_eq
    refine (meets_perform (meets_loadPage hu hpage (hsame.trans hstatus) rfl
      (by rwa [hcontent]) ?_)).bind
    rintro ⟨other, hother, status, hstatus', hring⟩
    by_cases heq : other = page
    · rw [heq, Image.status_erase_self] at hstatus'
      obtain rfl := Option.some.inj hstatus'
      cases hring
    · rw [Image.status_erase_of_ne heq] at hstatus'
      exact heq (hsole other hother ((hloading.markedAt_iff other).mp ⟨status, hstatus', hring⟩))

end Engine

/-- On a flash that refuses no access, a scan ends in one way only: a marked flash keeps its live records,
and any other one is formatted. -/
theorem Store.Outcome.scan_cases {p : Partition} {store store' : Store} {img img' : Image}
    {result : Except Error Answer} (h : Outcome p .reliable False .init store img result store' img') :
    result = .ok .done ∧ (img.Marked p.pageCount → p.live img' = p.live img) ∧
      (¬img.Marked p.pageCount → p.live img' = fun _ => []) := by
  cases h with
  | failed hconduct => exact absurd rfl hconduct
  | unscanned _ hprogram => exact absurd rfl hprogram
  | told hoperation => cases hoperation
  | scanned _ _ hlive hformat => exact ⟨rfl, fun hmarked => hlive (Or.inr hmarked), hformat⟩
  | concluded _ hprogram => exact absurd rfl hprogram

/-! ## Resets during a scan -/

namespace Session

open EngineM

variable {p : Partition} {session : Session} {request : Request} {store target : Store} {flash : Flash}
  {cells : Cells}

/-- A request for a scan keeps what the scan keeps. -/
theorem always_scan_of_load {inv : Image → Prop} (hsession : session.Keeps p store)
    (hcalls : request.Calls p store target .init) (htarget : target.partition = p)
    (hfits : p.base + p.size ≤ cells.size)
    (hload : Ensures p .reliable inv (Engine.load p) target.table (p.image cells) (fun _ _ _ => True)
      noError) (hinv : inv (p.image cells)) :
    (session.handle request).Always .reliable (fun c => inv (p.image c)) cells fun _ _ => True := by
  have hinit : (Operation.init.run.run.run target).Always .reliable (fun c => inv (p.image c)) cells
      fun _ _ => True := by
    rw [Store.run_init, htarget, FlashM.always_bind]
    refine (hload cells ⟨hfits, rfl⟩ hinv).mono (fun _ hc => hc) ?_
    rintro ⟨error | _, t'⟩ after - <;> trivial
  exact (always_handle hsession hcalls hinit).mono (fun _ hc => hc) fun _ _ _ => trivial

/-- A request for a scan comes through what the scan comes through. -/
theorem meets_scan_of_load {goal : Image → Prop} (hsession : session.Keeps p store)
    (hcalls : request.Calls p store target .init) (htarget : target.partition = p)
    (hfits : p.base + p.size ≤ cells.size)
    (hload : Meets p .reliable goal (Engine.load p) target.table (p.image cells)) :
    (session.handle request).Meets .reliable (fun c => goal (p.image c)) cells := by
  rw [handle_eq_callStore hsession hcalls, callStore, Store.run_init, htarget]
  exact FlashM.meets_bind_left (FlashM.meets_bind_left (hload cells ⟨hfits, rfl⟩))

/-- The next start of the system scans whatever the flash holds. -/
theorem always_reboot (hu : p.Usable) (hsession : session.Keeps p store)
    (hfits : p.base + p.size ≤ cells.size) :
    (session.handle .reboot).Always .reliable (fun _ => True) cells fun answer after =>
      answer.1 = .answered (.ok .done) ∧
        ((p.image cells).Marked p.pageCount → p.live (p.image after) = p.live (p.image cells)) ∧
        (¬(p.image cells).Marked p.pageCount → p.live (p.image after) = fun _ => []) := by
  have hrun : StoreM.Ensures p .reliable (p.Secure .reliable False fun _ => True) Operation.init.run
      (.ofPartition p) (p.image cells) _ :=
    Store.ensures_run_init hu (by nofun) (Or.inr fun _ => trivial) rfl
  refine (always_handle hsession .reboot (hrun cells ⟨hfits, rfl⟩ (p.secure_of_unasked _ _))).mono
    (fun _ _ => trivial) ?_
  rintro answer after ⟨result, store', hreply, -, -, houtcome⟩
  obtain ⟨rfl, hcases⟩ := houtcome.scan_cases
  exact ⟨hreply, hcases⟩

/-- **A scan of a marked flash comes through a flash without the marker only if the marker is at risk**,
and then it does.  The live records are still there at every instant, but a reset there makes the next scan
drop them exactly if no page is marked. -/
theorem scan_keeps_marker_iff (hu : p.Usable) (hsession : session.Keeps p store)
    (hpartition : store.partition = p) (hcalls : request.Calls p store target .init)
    (hflash : flash.Follows .reliable) (hfits : p.base + p.size ≤ flash.cells.size)
    (hmarked : (p.image flash.cells).Marked p.pageCount) :
    let img := p.image flash.cells
    let visited := (session.handle request).visited Flash.device flash
    ((∀ s ∈ visited, (p.image s.cells).Marked p.pageCount ∨
        ∀ page, p.live (p.image s.cells) page = []) ↔
      (img.MarkerAtRisk p.pageCount → ∀ page, p.live img page = [])) ∧
    ∀ s ∈ visited,
      let boot := (session.handle .reboot).run Flash.device (.steady s.cells)
      boot.1.1 = .answered (.ok .done) ∧
        (p.live (p.image boot.2.cells) = p.live img ↔
          (p.image s.cells).Marked p.pageCount ∨ ∀ page, p.live (p.image s.cells) page = []) := by
  intro img visited
  have htarget : target.partition = p := by
    cases hcalls with
    | reboot => rfl
    | call => exact hpartition
  have hlive : ∀ s ∈ visited, p.live (p.image s.cells) = p.live img :=
    (Flash.run_of_always hflash (always_scan_of_load hsession hcalls htarget hfits
      (Engine.ensures_load_live hu hmarked _) rfl)).2.2
  refine ⟨⟨fun hall hrisk page => ?_, fun hnone s hs => ?_⟩, fun s hs => ?_⟩
  · obtain ⟨s, hs, hunmarked⟩ := Flash.exists_visited hflash
      (meets_scan_of_load hsession hcalls htarget hfits (Engine.meets_load_unmarked hu hrisk))
    rw [← hlive s hs]
    exact (hall s hs).resolve_left hunmarked page
  · by_cases hrisk : img.MarkerAtRisk p.pageCount
    · rw [hlive s hs]
      exact Or.inr (hnone hrisk)
    · exact Or.inl ((Flash.run_of_always hflash (always_scan_of_load hsession hcalls htarget hfits
        (Engine.ensures_load_marked hu hmarked hrisk) hmarked)).2.2 s hs)
  · intro boot
    have hfits' : p.base + p.size ≤ s.cells.size := (Flash.size_of_mem_visited hs).symm ▸ hfits
    have hsteady : (Flash.steady s.cells).Follows .reliable := fun _ => trivial
    obtain ⟨⟨hreply, hkept, hformat⟩, -⟩ :=
      Flash.run_of_always hsteady (always_reboot hu hsession hfits')
    refine ⟨hreply, fun hsame => ?_, fun hwell => ?_⟩
    · by_cases hmark : (p.image s.cells).Marked p.pageCount
      · exact Or.inl hmark
      · refine Or.inr fun page => ?_
        rw [hlive s hs, ← hsame]
        exact congrFun (hformat hmark) page
    · by_cases hmark : (p.image s.cells).Marked p.pageCount
      · exact (hkept hmark).trans (hlive s hs)
      · rw [← hlive s hs, funext (hwell.resolve_left hmark)]
        exact hformat hmark

/-- The first page has a status byte and a last byte, the second one holds a record. -/
def besideRecord (status last : UInt8) : Cells :=
  #[status] ++ .replicate 14 0xFF ++ #[last, 0xFC, 1, 0x83, 5, 0, 7] ++ .replicate 10 0xFF

/-- The only marked page claims to be erased and is not, and the other one holds a record. -/
def atRisk : Cells := besideRecord 0x7F 0x00

/-- The first page is erased, and its marker was not put back. -/
def markerless : Cells := besideRecord 0xFF 0xFF

theorem marked_atRisk : (Partition.pair.image atRisk).Marked Partition.pair.pageCount :=
  ⟨0, by decide, ⟨.erased, true⟩, by decide, rfl⟩

theorem unmarked_markerless :
    ¬(Partition.pair.image markerless).Marked Partition.pair.pageCount := by
  rintro ⟨page, hpage, status, hstatus, hring⟩
  have hpages : page = 0 ∨ page = 1 := by
    have hpage : page < 2 := hpage
    omega
  rcases hpages with rfl | rfl <;> cases hstatus <;> cases hring

/-- The marker is at risk, and what it costs depends on the other page. -/
theorem scan_keeps_marker_iff_pair :
    let flash := Flash.steady atRisk
    let img := Partition.pair.image flash.cells
    let visited := ((ofPartition .pair).handle .reboot).visited Flash.device flash
    Partition.pair.Usable ∧ (ofPartition .pair).Keeps .pair (.ofPartition .pair) ∧
      flash.Follows .reliable ∧ Partition.pair.base + Partition.pair.size ≤ flash.cells.size ∧
      img.Marked Partition.pair.pageCount ∧
      ((∀ s ∈ visited, (Partition.pair.image s.cells).Marked Partition.pair.pageCount ∨
          ∀ page, Partition.pair.live (Partition.pair.image s.cells) page = []) ↔
        (img.MarkerAtRisk Partition.pair.pageCount → ∀ page, Partition.pair.live img page = [])) := by
  have hflash : (Flash.steady atRisk).Follows .reliable := fun _ => trivial
  exact ⟨Partition.usable_pair, keeps_ofPartition .pair, hflash, by decide, marked_atRisk,
    (scan_keeps_marker_iff Partition.usable_pair (keeps_ofPartition .pair) rfl .reboot hflash (by decide)
      marked_atRisk).1⟩

/-- **A reset between two accesses of a scan may cost a record**: between the erase of the only marked page
and the write that puts its marker back, no page is marked, and another scan formats the partition. -/
theorem scan_drops_records :
    let flash := Flash.steady atRisk
    Partition.pair.Usable ∧ (ofPartition .pair).Keeps .pair (.ofPartition .pair) ∧
      flash.Follows .reliable ∧
      (Partition.pair.image flash.cells).Marked Partition.pair.pageCount ∧
      ∃ s ∈ ((ofPartition .pair).handle .reboot).visited Flash.device flash,
        ¬(Partition.pair.image s.cells).Marked Partition.pair.pageCount ∧
        Partition.pair.live (Partition.pair.image s.cells) 1 = [(0, ⟨⟨1, 0x83, 5⟩, [7]⟩)] ∧
        Partition.pair.live (Partition.pair.image
          (((ofPartition .pair).handle .reboot).run Flash.device (.steady s.cells)).2.cells) 1 = [] := by
  have hvisited : ∃ s ∈ ((ofPartition .pair).handle .reboot).visited Flash.device (.steady atRisk),
      s.cells = markerless := by
    decide +kernel
  obtain ⟨s, hs, hcells⟩ := hvisited
  refine ⟨Partition.usable_pair, keeps_ofPartition .pair, fun _ => trivial, marked_atRisk, s, hs, ?_⟩
  rw [hcells]
  exact ⟨unmarked_markerless, by decide +kernel, by decide +kernel⟩

end Session

end RingStore
