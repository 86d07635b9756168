import RingStore.Proofs.Reboots
import RingStore.Proofs.Steps

/-!
# Scanning twice

A scan repairs the pages one after the other, then the markers, and then the active pages.  What it does
last can leave something for the next scan to do.

* An active page that is closed because another one is newer, and that holds no live record, waits for
  its erase from then on, and it keeps its marker.  The next scan takes that marker to be stale if
  another marked page holds records, and it erases the page.
* Of a page that it has emptied itself, a scan knows how far the records reached.  The next scan takes
  such a page to be filled.

Nothing else is left: another scan makes no write and no erase, and it gives the same report, in exactly
the cases without such pages.  The second scan leaves none of them, so the third one has no effect.

## Main statements

* `Session.booted_of_init`: a scan that succeeds leaves a table that mirrors the flash.
* `Session.Started.serve`: so does a run after it.
* `Session.second_boot_idle_iff`: when the second scan has no effect, and that the third has none.
* `Session.second_boot_changes`: flashes on which the second scan erases a page or changes the report.
-/

namespace RingStore

/-- The access is a read. -/
def Access.isRead : Access → Bool
  | read _ _ => true
  | write _ _ | erase _ _ => false

/-! ## Runs that only read -/

namespace FlashM

variable {α : Type} {flash : Flash}

/-- A program that peeks makes no access but reads. -/
theorem Peeks.isRead_of_mem_steps {x : FlashM α} {post : α → Prop} (h : x.Peeks flash.cells post)
    (hflash : flash.Follows .reliable) :
    ∀ step ∈ x.steps Flash.device flash, step.access.isRead = true := by
  induction x generalizing flash with
  | done a => simp [steps]
  | request access next ih =>
    cases access with
    | read start length =>
      obtain ⟨hsize, hnext⟩ := h
      have hresponds := Flash.responds_device hflash (.read start length)
      have hflash' := hflash.device (.read start length)
      simp only [steps, List.forall_mem_cons]
      refine ⟨rfl, ?_⟩
      generalize Flash.device (.read start length) flash = answered at hresponds hflash' ⊢
      obtain ⟨_ | bytes, after⟩ := answered
      · exact absurd (hresponds.1 rfl) (Nat.not_lt.mpr hsize)
      · obtain ⟨-, rfl, hcells⟩ := hresponds
        exact ih _ (hcells ▸ hnext) hflash'
    | write start bytes => exact h.elim
    | erase start stop => exact h.elim

/-- A run that makes no access but reads leaves the cells as they are. -/
theorem cells_eq_of_isRead {x : FlashM α}
    (h : ∀ step ∈ x.steps Flash.device flash, step.access.isRead = true) :
    (x.run Flash.device flash).2.cells = flash.cells := by
  induction x generalizing flash with
  | done a => rfl
  | request access next ih =>
    obtain ⟨hread, hrest⟩ := List.forall_mem_cons.mp h
    refine (ih _ hrest).trans ?_
    cases access with
    | read start length =>
      simp only [Flash.device]
      split
      · split <;> rfl
      · rfl
      · rfl
    | write start bytes => cases hread
    | erase start stop => cases hread

end FlashM

/-! ## Reports -/

namespace Usage

/-- What a scan reports of pages that the report described before. -/
def rescanned (p : Partition) (usage : Usage) : Usage :=
  { usage with pages := usage.pages.map (·.rescanned p) }

theorem countKind_rescanned (p : Partition) (kind : PageKind) (pages : List Page) :
    countKind kind (pages.map (·.rescanned p)) = countKind kind pages := by
  simp only [countKind, List.countP_map, Function.comp_def, Page.kind_rescanned]

/-- A scan takes no page to be fuller than the report says if those that wait for their erase are full. -/
theorem rescanned_eq_iff {p : Partition} {usage : Usage} :
    usage.rescanned p = usage ↔
      ∀ entry ∈ usage.pages, entry.kind = .unavailable → entry.used = p.contentSize := by
  have hentry : ∀ entry : Page, entry.rescanned p = entry ↔
      (entry.kind = .unavailable → entry.used = p.contentSize) := by
    intro entry
    obtain ⟨status, used, live⟩ := entry
    unfold Page.rescanned
    split
    · next hkind => simpa [hkind] using eq_comm
    · next hkind => simp [hkind]
  obtain ⟨erased, active, full, unavailable, pages, ringStart, activePage⟩ := usage
  have hpages : pages.map (·.rescanned p) = pages ↔ ∀ entry ∈ pages, entry.rescanned p = entry := by
    rw [← List.map_inj_left, List.map_id']
  simp only [rescanned, Usage.mk.injEq, true_and, and_true, hpages, hentry]

end Usage

/-! ## Tables that describe the same flash -/

namespace Table

variable {p : Partition} {t t' : Table} {img : Image}

/-- The pages have the same statuses. -/
theorem Mirrors.status_eq (h : t.Mirrors p img) (h' : t'.Mirrors p img) (page : Nat) :
    t'.pages[page]?.map Page.status = t.pages[page]?.map Page.status := by
  by_cases hpage : page < p.pageCount
  · obtain ⟨entry, hentry⟩ := exists_entry (h.count_eq ▸ hpage)
    obtain ⟨entry', hentry'⟩ := exists_entry (h'.count_eq ▸ hpage)
    rw [hentry, hentry', Option.map_some, Option.map_some, ← (h.tracks page entry hentry).1,
      ← (h'.tracks page entry' hentry').1]
  · have hcount : t.pages.size = p.pageCount := h.count_eq
    have hcount' : t'.pages.size = p.pageCount := h'.count_eq
    rw [Array.getElem?_eq_none (by omega), Array.getElem?_eq_none (by omega)]

/-- Of two tables with the same statuses, none has a page marked in vain if the other has none. -/
theorem Tidy.of_status_eq (h : t'.Tidy) (hstart : t.isMarked t.ringStart = true)
    (hsame : ∀ page : Nat, t'.pages[page]?.map Page.status = t.pages[page]?.map Page.status) :
    t.Tidy := by
  have hmarked : ∀ page, t'.isMarked page = t.isMarked page := by
    intro page
    have heq := congrArg (Option.any (·.ringStart)) (hsame page)
    rwa [Option.any_map, Option.any_map] at heq
  have hholds : ∀ page, t'.holds page = t.holds page := by
    intro page
    have heq := congrArg (Option.any (·.kind.holdsRecords)) (hsame page)
    rw [Option.any_map, Option.any_map] at heq
    rw [holds, holds, kind?, kind?, Option.any_map, Option.any_map]
    exact heq
  refine h.imp (fun honce page hmark => ?_) fun hall page hmark => ?_
  · rw [honce page ((hmarked page).trans hmark), honce _ ((hmarked _).trans hstart)]
  · rw [← hholds]
    exact hall page ((hmarked page).trans hmark)

/-- The active page is found by the stages alone. -/
theorem Ordered.active?_eq (h : t.Ordered) (h' : t'.Ordered)
    (hsame : ∀ page, t'.kind? page = t.kind? page) : t'.active? = t.active? := by
  have hkind : ∀ page, t'.isKind .active page = t.isKind .active page := fun page => by
    rw [isKind, isKind, hsame]
  have hhead : ∀ page, t.isKind .active page = true → t'.head = page := by
    intro page hactive
    obtain ⟨entry, hentry, hk⟩ := isKind_iff.mp ((hkind page).trans hactive)
    exact (h'.eq_head page entry hentry hk).symm
  have hhead' : ∀ page, t.isKind .active page = true → t.head = page := by
    intro page hactive
    obtain ⟨entry, hentry, hk⟩ := isKind_iff.mp hactive
    exact (h.eq_head page entry hentry hk).symm
  rw [active?, active?, hkind]
  split
  · next hactive =>
    rw [if_pos (by rwa [hhead' _ hactive]), hhead' _ hactive]
  · next hnone =>
    rw [if_neg fun hactive => hnone (by rwa [hhead _ hactive])]

/-- **Another scan gives the report that a scan gives of such pages.** -/
theorem Rescanned.ofTable_eq (h : t.Rescanned p t') (hordered : t.Ordered) (hordered' : t'.Ordered) :
    Usage.ofTable t' = (Usage.ofTable t).rescanned p := by
  have hpages : t'.pages.toList = t.pages.toList.map (·.rescanned p) := by
    refine List.ext_getElem? fun page => ?_
    rw [List.getElem?_map, Array.getElem?_toList, Array.getElem?_toList, h.pages]
  have hactive := hordered.active?_eq hordered' (kind?_of_rescanned h.pages)
  simp only [Usage.ofTable, Usage.rescanned, hpages, Usage.countKind_rescanned, h.ringStart_eq, hactive]

end Table

/-! ## Sessions that were just scanned -/

/-- The report on the pages that a reply gives. -/
def Reply.usage? : Reply → Option Usage
  | answered (.ok (.usage usage)) => some usage
  | _ => none

/-- The request is for a scan. -/
inductive Request.Boots : Request → Prop
  | reboot : Boots .reboot
  | init : Boots (.call .init)

theorem Request.Boots.calls {p : Partition} {store : Store} {request : Request} (h : request.Boots)
    (hpartition : store.partition = p) :
    ∃ target, request.Calls p store target .init ∧ target.partition = p := by
  cases h with
  | reboot => exact ⟨_, .reboot, rfl⟩
  | init => exact ⟨_, .call trivial, hpartition⟩

namespace Session

variable {p : Partition} {store : Store} {session : Session} {flash : Flash} {cells : Cells}
  {again further : Request}

/-- The report on the pages that a session gives if it is asked. -/
def report (session : Session) (flash : Flash) : Option Usage :=
  ((session.handle (.call .usage)).run Flash.device flash).1.1.usage?

/-- The partition was scanned with success, and nothing was done since. -/
structure Booted (p : Partition) (store : Store) (session : Session) (cells : Cells) : Prop where
  keeps : session.Keeps p store
  partition_eq : store.partition = p
  ready : store.phase = .ready
  fits : p.base + p.size ≤ cells.size
  mirrors : store.table.Mirrors p (p.image cells)
  first : store.table.StartsFirst

theorem Booted.report_eq (h : Booted p store session cells) (flash : Flash) :
    session.report flash = some (.ofTable store.table) := by
  have hkeeps : Operation.usage.KeepsGuard := trivial
  rw [report, handle_call_of_ready h.keeps h.partition_eq h.ready hkeeps rfl]
  rfl

/-- **A scan that succeeds leaves a table that mirrors the flash**, whatever the flash held before. -/
theorem booted_of_init (hu : p.Usable) (hsession : session.Keeps p store)
    (hpartition : store.partition = p) (hflash : flash.Follows .reliable) :
    let first := (session.handle (.call .init)).run Flash.device flash
    first.1.1 = .answered (.ok .done) →
      first.2.Follows .reliable ∧ ∃ booted, Booted p booted first.1.2 first.2.cells := by
  intro first hfirst
  have hinit : (Operation.init.run.run.run store).Always .reliable (fun _ => True) flash.cells
      fun result after => result.1 = .ok .done → result.2.partition = p ∧ result.2.phase = .ready ∧
        p.base + p.size ≤ after.size ∧ result.2.table.Mirrors p (p.image after) ∧
        result.2.table.StartsFirst := by
    rw [Store.run_init, hpartition, FlashM.always_bind]
    by_cases hfits : p.base + p.size ≤ flash.cells.size
    · have hload : EngineM.Ensures p .reliable (p.Secure .reliable False fun _ => True)
          (Engine.load p) store.table (p.image flash.cells) _ _ :=
        Engine.ensures_load hu (by nofun) (Or.inr fun _ => trivial)
      refine ((hload flash.cells ⟨hfits, rfl⟩ (p.secure_of_unasked _ _)).keep
        (p.secure_of_unasked _ _)).mono (fun _ _ => trivial) ?_
      rintro ⟨error | _, t'⟩ after ⟨-, hsize, h⟩
      · exact nofun
      · obtain ⟨hmirrors, -, -, -, hstart⟩ := h
        exact fun _ => ⟨rfl, rfl, hsize ▸ hfits, hmirrors, hstart⟩
    · -- A flash that ends within the partition is not scanned with success.
      refine (Engine.fails_load hu (Nat.lt_of_not_le hfits) store.table flash.cells rfl).mono
        (fun _ hc => hc) ?_
      rintro ⟨error | u, t'⟩ after hnot
      · exact nofun
      · exact absurd rfl (hnot u)
  have hcalls : (Request.call .init).Calls p store store .init := .call trivial
  obtain ⟨⟨result, booted, hreply, hkeeps, hbooted⟩, hfollows, -⟩ :=
    Flash.run_of_always hflash (always_handle hsession hcalls hinit)
  have hresult : result = .ok .done := Reply.answered.inj (hreply.symm.trans hfirst)
  obtain ⟨hp, hphase, hfits, hmirrors, hstart⟩ := hbooted hresult
  exact ⟨hfollows, booted, hkeeps, hp, hphase, hfits, hmirrors, hstart⟩

/-- A session whose first scan has succeeded, whatever its flash held before, and that flash. -/
def Started (p : Partition) (session : Session) (flash : Flash) : Prop :=
  ∃ (first : Session) (foreign : Flash), first.Keeps p (.ofPartition p) ∧
    foreign.Follows .reliable ∧
    (first.handle (.call .init)).run Flash.device foreign =
      ((.answered (.ok .done), session), flash)

theorem started_of_init {first : Session} {foreign : Flash} (hfirst : first.Keeps p (.ofPartition p))
    (hforeign : foreign.Follows .reliable)
    (h : ((first.handle (.call .init)).run Flash.device foreign).1.1 = .answered (.ok .done)) :
    let start := (first.handle (.call .init)).run Flash.device foreign
    Started p start.1.2 start.2 :=
  ⟨first, foreign, hfirst, hforeign, by rw [← h]⟩

/-- **A run after a first scan leaves a store that is ready.** -/
theorem Started.serve (hu : p.Usable) (h : Started p session flash) {requests : List Request}
    (hrequests : ∀ request ∈ requests, request.Stays) :
    let run := (session.serve requests).run Flash.device flash
    run.1.2.Ready p run.2.cells ∧ run.2.Follows .reliable := by
  obtain ⟨first, foreign, hfirst, hforeign, hrun⟩ := h
  have hbooted := booted_of_init hu hfirst rfl hforeign
  rw [hrun] at hbooted
  obtain ⟨hflash, store, hstore⟩ := hbooted rfl
  exact Ready.serve hu ⟨store, hstore.keeps, ⟨hstore.partition_eq, fun _ => hstore.mirrors⟩,
    hstore.fits, hstore.ready⟩ hflash hrequests

/-! ## The next scan -/

/-- If no page is marked in vain, the next scan only looks, and finds the pages as they were. -/
theorem Booted.peeks_scan (hu : p.Usable) (h : Booted p store session cells)
    (htidy : store.table.Tidy) (hboots : again.Boots) :
    (session.handle again).Peeks cells fun answer => ∃ store', answer.2.store = some store' ∧
      store.table.Rescanned p store'.table := by
  obtain ⟨target, hcalls, htarget⟩ := hboots.calls h.partition_eq
  have hload : EngineM.Peeks p (Engine.load p) target.table (p.image cells)
      (fun _ t' => store.table.Rescanned p t') fun _ _ => False :=
    Engine.peeks_load hu h.mirrors h.first htidy target.table
  rw [handle_eq_callStore h.keeps hcalls, callStore, Store.run_init, htarget, FlashM.peeks_bind,
    FlashM.peeks_bind]
  refine (hload cells ⟨h.fits, rfl⟩).mono ?_
  rintro ⟨error | _, t'⟩ hresult
  · exact hresult.elim
  · exact ⟨_, rfl, hresult⟩

/-- **The next scan succeeds**, and leaves no page that is marked in vain or taken to be fuller than it
is by the scan after it. -/
theorem Booted.always_scan (hu : p.Usable) (h : Booted p store session cells)
    (hboots : again.Boots) :
    (session.handle again).Always .reliable (fun _ => True) cells fun answer after =>
      answer.1 = .answered (.ok .done) ∧ ∃ store', Booted p store' answer.2 after ∧
        store'.table.Tidy ∧ store'.table.UsedUp p := by
  obtain ⟨target, hcalls, htarget⟩ := hboots.calls h.partition_eq
  have hinit : (Operation.init.run.run.run target).Always .reliable (fun _ => True) cells
      fun result after => result.1 = .ok .done ∧ result.2.partition = p ∧ result.2.phase = .ready ∧
        p.base + p.size ≤ after.size ∧ result.2.table.Mirrors p (p.image after) ∧
        result.2.table.StartsFirst ∧ result.2.table.Tidy ∧ result.2.table.UsedUp p := by
    rw [Store.run_init, htarget, FlashM.always_bind]
    refine ((Engine.ensures_rescan hu h.mirrors target.table cells ⟨h.fits, rfl⟩
      (p.secure_of_unasked _ _)).keep (p.secure_of_unasked _ _)).mono (fun _ _ => trivial) ?_
    rintro ⟨error | _, t'⟩ after ⟨-, hsize, hresult⟩
    · exact absurd rfl (hresult.resolve_right id).2
    · exact ⟨rfl, rfl, rfl, hsize ▸ h.fits, hresult⟩
  refine (always_handle h.keeps hcalls hinit).mono (fun _ hc => hc) ?_
  rintro answer after ⟨_, store', hreply, hkeeps, rfl, hp, hphase, hfits, hmirrors, hstart, hrest⟩
  exact ⟨hreply, store', ⟨hkeeps, hp, hphase, hfits, hmirrors, hstart⟩, hrest⟩

/-- **The report that the next scan leaves**, if no page is marked in vain. -/
theorem Booted.report_scan (hu : p.Usable) (h : Booted p store session flash.cells)
    (hflash : flash.Follows .reliable) (hboots : again.Boots) (htidy : store.table.Tidy) :
    let second := (session.handle again).run Flash.device flash
    second.1.2.report second.2 = some ((Usage.ofTable store.table).rescanned p) := by
  intro second
  obtain ⟨⟨-, store', hbooted, -⟩, -⟩ := Flash.run_of_always hflash (h.always_scan hu hboots)
  have hpeeks : (session.handle again).Always .reliable (fun _ => True) flash.cells _ :=
    (h.peeks_scan hu htidy hboots).always trivial
  obtain ⟨⟨⟨found, hfound, hrescanned⟩, -⟩, -⟩ := Flash.run_of_always hflash hpeeks
  obtain rfl : store' = found := Option.some.inj (hbooted.keeps.store_eq.symm.trans hfound)
  rw [hbooted.report_eq, hrescanned.ofTable_eq h.mirrors.ordered hbooted.mirrors.ordered]

/-- When the next scan only reads, and when it leaves the report as it is. -/
theorem Booted.scan_idle_iff (hu : p.Usable) (h : Booted p store session flash.cells)
    (hflash : flash.Follows .reliable) (hboots : again.Boots) :
    let second := (session.handle again).run Flash.device flash
    second.1.1 = .answered (.ok .done) ∧ second.2.Follows .reliable ∧
      ((∀ step ∈ (session.handle again).steps Flash.device flash, step.access.isRead = true) ↔
        store.table.Tidy) ∧
      (second.1.2.report second.2 = session.report flash ↔
        store.table.Tidy ∧ store.table.UsedUp p) ∧
      ∃ store', Booted p store' second.1.2 second.2.cells ∧ store'.table.Tidy ∧
        store'.table.UsedUp p := by
  intro second
  obtain ⟨⟨hreply, store', hbooted, htidy', hused'⟩, hfollows, -⟩ :=
    Flash.run_of_always hflash (h.always_scan hu hboots)
  refine ⟨hreply, hfollows, ⟨fun hreads => ?_, fun htidy =>
    (h.peeks_scan hu htidy hboots).isRead_of_mem_steps hflash⟩, ⟨fun hreport => ?_, ?_⟩, store',
    hbooted, htidy', hused'⟩
  · -- Without a write and an erase, both tables mirror the same flash.
    have hcells : second.2.cells = flash.cells := FlashM.cells_eq_of_isRead hreads
    have hmirrors : store'.table.Mirrors p (p.image flash.cells) := hcells ▸ hbooted.mirrors
    exact htidy'.of_status_eq h.mirrors.ordered.marked (h.mirrors.status_eq hmirrors)
  · rw [hbooted.report_eq, h.report_eq] at hreport
    have hpages : store'.table.pages = store.table.pages :=
      Array.toList_inj.mp (congrArg Usage.pages (Option.some.inj hreport))
    refine ⟨htidy'.of_status_eq h.mirrors.ordered.marked fun page => by rw [hpages], ?_⟩
    intro page entry hentry
    exact hused' page entry (hpages ▸ hentry)
  · rintro ⟨htidy, hused⟩
    rw [h.report_scan hu hflash hboots htidy, h.report_eq]
    refine congrArg some (Usage.rescanned_eq_iff.mpr fun entry hentry hkind => ?_)
    obtain ⟨page, hpage⟩ := List.mem_iff_getElem?.mp hentry
    exact hused page entry (Array.getElem?_toList ▸ hpage) hkind

/-- **When the second scan has no effect.**  After a first scan that has succeeded on any content of the
flash, the next one succeeds as well.  It makes no write and no erase exactly if no page is marked in
vain, and it leaves the report as it is exactly if, besides, all pages that wait for their erase are
taken to be filled.  A third scan always reads only and leaves the report as it is. -/
theorem second_boot_idle_iff (hu : p.Usable) (hsession : session.Keeps p store)
    (hpartition : store.partition = p) (hflash : flash.Follows .reliable) (hagain : again.Boots)
    (hfurther : further.Boots) :
    let first := (session.handle (.call .init)).run Flash.device flash
    let second := (first.1.2.handle again).run Flash.device first.2
    let third := (second.1.2.handle further).run Flash.device second.2
    first.1.1 = .answered (.ok .done) →
      ∃ booted, first.1.2.store = some booted ∧
        first.1.2.report first.2 = some (.ofTable booted.table) ∧
        second.1.1 = .answered (.ok .done) ∧
        ((∀ step ∈ (first.1.2.handle again).steps Flash.device first.2, step.access.isRead = true) ↔
          booted.table.Tidy) ∧
        (second.1.2.report second.2 = first.1.2.report first.2 ↔
          booted.table.Tidy ∧ booted.table.UsedUp p) ∧
        third.1.1 = .answered (.ok .done) ∧
        (∀ step ∈ (second.1.2.handle further).steps Flash.device second.2,
          step.access.isRead = true) ∧
        third.1.2.report third.2 = second.1.2.report second.2 := by
  intro first second third hfirst
  obtain ⟨hfollows, booted, hbooted⟩ := booted_of_init hu hsession hpartition hflash hfirst
  obtain ⟨hsecond, hfollows', hreads, hreport, store', hbooted', htidy, hused⟩ :=
    hbooted.scan_idle_iff hu hfollows hagain
  obtain ⟨hthird, -, hreads', hreport', -⟩ := hbooted'.scan_idle_iff hu hfollows' hfurther
  exact ⟨booted, hbooted.keeps.store_eq, hbooted.report_eq _, hsecond, hreads, hreport, hthird,
    hreads'.mpr htidy, hreport'.mpr ⟨htidy, hused⟩⟩

/-- Two pages with status bytes and nothing else. -/
def bare (first second : UInt8) : Flash :=
  let content := Array.replicate 15 0xFF
  .steady (#[first] ++ content ++ #[second] ++ content)

/-- A full page that holds nothing is emptied by the first scan and taken to be filled by the second.
The third scan finds nothing new. -/
theorem second_boot_idle_iff_pair :
    let flash := bare 0x7C 0xFF
    let first := ((ofPartition .pair).handle (.call .init)).run Flash.device flash
    let second := (first.1.2.handle .reboot).run Flash.device first.2
    let third := (second.1.2.handle (.call .init)).run Flash.device second.2
    Partition.pair.Usable ∧ (ofPartition .pair).Keeps .pair (.ofPartition .pair) ∧
      flash.Follows .reliable ∧ first.1.1 = .answered (.ok .done) ∧
      second.1.2.report second.2 ≠ first.1.2.report first.2 ∧
      third.1.2.report third.2 = second.1.2.report second.2 := by
  have hflash : (bare 0x7C 0xFF).Follows .reliable := fun _ => trivial
  have hfirst : (((ofPartition .pair).handle (.call .init)).run Flash.device (bare 0x7C 0xFF)).1.1 =
      .answered (.ok .done) := Reply.eq_done (by decide +kernel)
  obtain ⟨-, -, -, -, -, -, -, -, hthird⟩ := second_boot_idle_iff Partition.usable_pair
    (keeps_ofPartition .pair) rfl hflash .reboot .init hfirst
  exact ⟨Partition.usable_pair, keeps_ofPartition .pair, hflash, hfirst, by decide +kernel, hthird⟩

/-- **The second scan may change the report or erase a page.**  On the one flash the first page is full
and holds nothing.  On the other both pages are active and marked, and hold nothing: the first scan closes
the first page, and the second scan erases it. -/
theorem second_boot_changes :
    let full := bare 0x7C 0xFF
    let doubled := bare 0x7E 0x7E
    let first := fun flash => ((ofPartition .pair).handle (.call .init)).run Flash.device flash
    let second := fun flash => ((first flash).1.2.handle (.call .init)).run Flash.device (first flash).2
    Partition.pair.Usable ∧ full.Follows .reliable ∧ doubled.Follows .reliable ∧
      (first full).1.1.isDone = true ∧ (first doubled).1.1.isDone = true ∧
      (second full).1.2.report (second full).2 ≠ (first full).1.2.report (first full).2 ∧
      (((first doubled).1.2.handle (.call .init)).steps Flash.device (first doubled).2).map
        (·.access.isRead) = [true, true, false] :=
  ⟨Partition.usable_pair, fun _ => trivial, fun _ => trivial, by decide +kernel, by decide +kernel,
    by decide +kernel, by decide +kernel⟩

/-- Two pages that are full and marked, with a copy of one key each. -/
def doubled (first second : Bytes) : Cells :=
  let page := fun payload => 0x7C :: (Header.ofPayload .xorSum 2 payload).toBytes ++ payload
  (page first ++ page second).toArray

end Session

end RingStore
