import RingStore.Proofs.Removal

/-!
# What a sweep sweeps

A sweep erases the pages that wait for their erase, and changes the others in no way but one: the marker
of the ring start wanders.  It is handed on by a page that is erased, perhaps to one that is swept later,
and it comes back to a page that was swept when no other is left.

## Main statements

* `Table.Ordered.existsUnique_isMarked_iff`: one page is marked iff only the ring start is.
* `Session.sweep_reclaims_waiting`: what a sweep leaves after any run.
-/

namespace RingStore

/-- The page at which the ring starts is marked, so one page is if no other is. -/
theorem Table.Ordered.existsUnique_isMarked_iff {t : Table} (h : t.Ordered) :
    (∃! page, t.isMarked page = true) ↔ t.MarkedOnce := by
  constructor
  · intro hunique page hmark
    exact hunique.unique hmark h.marked
  · intro honce
    exact ⟨t.ringStart, h.marked, honce⟩

/-- The marked pages of the table are those of the flash. -/
theorem Table.Mirrors.isMarked_iff_markedAt {p : Partition} {t : Table} {img : Image} {page : Nat}
    (h : t.Mirrors p img) :
    t.isMarked page = true ↔ page < p.pageCount ∧ img.MarkedAt page := by
  rw [Table.isMarked_iff, ← h.count_eq]
  constructor
  · rintro ⟨entry, hentry, hring⟩
    exact ⟨Table.lt_count hentry, entry.status, (h.tracks page entry hentry).1, hring⟩
  · rintro ⟨hpage, status, hstatus, hring⟩
    obtain ⟨entry, hentry⟩ := Table.exists_entry hpage
    obtain rfl := Option.some.inj ((h.tracks page entry hentry).1.symm.trans hstatus)
    exact ⟨entry, hentry, hring⟩

/-- The bytes of a page are the byte of its status, and its content. -/
theorem Table.Tracks.slice_eq {p : Partition} {t : Table} {cells : Cells} {page : Nat} {entry : Page}
    (h : t.Tracks p (p.image cells)) (hcount : t.count = p.pageCount)
    (hentry : t.pages[page]? = some entry) (hfits : p.base + p.size ≤ cells.size) :
    cells.slice (p.pageAddress page) p.pageSize =
      entry.status.toByte :: (p.image cells).content page := by
  obtain ⟨byte, hslice, hbyte⟩ := Partition.slice_page (hcount ▸ Table.lt_count hentry) hfits
  rw [hslice, PageStatus.toByte_ofByte? (hbyte.trans (h page entry hentry).1)]

namespace Session

open RingStore.Partition (Holdings)

variable {p : Partition} {session : Session} {store : Store} {flash : Flash} {cells : Cells}

/-- What a sweep leaves: the tables and the cells before and after it. -/
structure Sweep (p : Partition) (t : Table) (cells : Cells) (t' : Table) (after : Cells) : Prop where
  /-- No page waits for its erase. -/
  none_waits : ∀ page, t'.isKind .unavailable page = false
  /-- A page that waited for its erase is erased, but for the marker. -/
  erased : ∀ page, t.isKind .unavailable page = true →
    t'.isKind .erased page = true ∧ ∃ byte, (byte = 0xFF ∨ byte = 0x7F) ∧
      after.slice (p.pageAddress page) p.pageSize = byte :: List.replicate p.contentSize 0xFF
  /-- Any other page is as it was, but for the marker, which it may have got. -/
  spared : ∀ page entry, t.pages[page]? = some entry → entry.kind ≠ .unavailable →
    ∃ status content, (status = entry.status ∨ status = entry.status.withMarker) ∧
      t'.pages[page]? = some { entry with status } ∧
      cells.slice (p.pageAddress page) p.pageSize = entry.status.toByte :: content ∧
      after.slice (p.pageAddress page) p.pageSize = status.toByte :: content
  head_eq : t'.head = t.head
  /-- The page at which the ring starts is marked, in the table and in the flash. -/
  marked : t'.isMarked t'.ringStart = true ∧ ∃ status,
    (p.image after).status t'.ringStart = some status ∧ status.ringStart = true
  /-- No second page gets the marker, neither in the table nor in the flash. -/
  once : (∃! page, t.isMarked page = true) → (∃! page, t'.isMarked page = true) ∧
    ∃! page, page < p.pageCount ∧ (p.image after).MarkedAt page

theorem sweep_of_sweeping {t t' : Table} {after : Cells} {count : Nat}
    (hmirrors : t.Mirrors p (p.image cells)) (hfits : p.base + p.size ≤ cells.size)
    (hfits' : p.base + p.size ≤ after.size)
    (hswept : Engine.Sweeping p t (p.image cells) [] count t' (p.image after)) :
    Sweep p t cells t' after := by
  have hmirrors' := hswept.mirrors
  have hextents : ∀ page, t'.extent? page = (t.extent? page).map Engine.swept := fun page =>
    hswept.passed page List.not_mem_nil
  refine ⟨fun page => ?_, fun page hwaits => ?_, fun page entry hentry hkind => ?_, hswept.head_eq, ?_,
    fun hunique => ?_⟩
  · by_contra hwaits
    rw [Bool.not_eq_false] at hwaits
    obtain ⟨entry', hentry', hkind⟩ := Table.isKind_iff.mp hwaits
    have hextent := hextents page
    rw [Table.extent?_eq hentry'] at hextent
    obtain ⟨extent, -, heq⟩ := Option.map_eq_some_iff.mp hextent.symm
    have hstage : (Engine.swept extent).1 = .unavailable := by rw [heq, hkind]
    unfold Engine.swept at hstage
    split at hstage
    · cases hstage
    · next hne => exact hne hstage
  · obtain ⟨entry, hentry, hkind⟩ := Table.isKind_iff.mp hwaits
    have hextent := hextents page
    rw [Table.extent?_eq hentry, Option.map_some, Engine.swept, if_pos hkind] at hextent
    have herased : t'.isKind .erased page = true := Table.isKind_of_extent? hextent
    exact ⟨herased, hmirrors'.slice_of_erased hfits' herased⟩
  · have hnot : t.isKind .unavailable page = false := by
      rw [Table.isKind_eq hentry, beq_eq_false_iff_ne]
      exact hkind
    have hspared := hswept.spared page (Or.inr hnot)
    obtain ⟨status, hstatus, hentry'⟩ : ∃ status,
        (status = entry.status ∨ status = entry.status.withMarker) ∧
          t'.pages[page]? = some { entry with status } := by
      rcases hspared.entry_eq with hsame | hmarked
      · exact ⟨_, Or.inl rfl, hsame.trans hentry⟩
      · refine ⟨_, Or.inr rfl, hmarked.trans ?_⟩
        rw [hentry, Option.map_some]
    refine ⟨status, _, hstatus, hentry', hmirrors.tracks.slice_eq hmirrors.count_eq hentry hfits, ?_⟩
    rw [← hspared.content_eq]
    exact hmirrors'.tracks.slice_eq hmirrors'.count_eq hentry' hfits'
  · obtain ⟨entry, hentry, hring⟩ := Table.isMarked_iff.mp hmirrors'.ordered.marked
    exact ⟨hmirrors'.ordered.marked, entry.status, (hmirrors'.tracks _ entry hentry).1, hring⟩
  · rw [hmirrors.ordered.existsUnique_isMarked_iff] at hunique
    have honce := hmirrors'.ordered.existsUnique_isMarked_iff.mpr (hswept.once hunique)
    exact ⟨honce, (existsUnique_congr fun _ => hmirrors'.isMarked_iff_markedAt).mp honce⟩

/-- A call for a sweep. -/
theorem always_sweep (hu : p.Usable) (hsession : session.Keeps p store)
    (hsound : store.Sound p (p.image cells)) (hfits : p.base + p.size ≤ cells.size)
    (hphase : store.phase = .ready) :
    (session.handle (.call .sweep)).Always .reliable (fun _ => True) cells
      fun answer after => ∃ store', answer.2.Keeps p store' ∧
        answer.1 = .answered (.ok (.count
          ((List.range p.pageCount).countP (store.table.isKind .unavailable)))) ∧
        Sweep p store.table cells store'.table after := by
  have hmirrors := hsound.mirrors hphase
  have hsweep : EngineM.Ensures p .reliable (p.Secure .reliable True fun _ => True)
      (Answer.count <$> Engine.sweep p) store.table (p.image cells)
      (fun answer t' img' => ∃ count, answer = .count count ∧
        Engine.Sweeping p store.table (p.image cells) [] count t' img') EngineM.noError :=
    .map _ ((Engine.ensures_sweeping hu hmirrors).weaken fun count _ _ hswept =>
      ⟨count, rfl, hswept⟩)
  refine (always_call_of_ready hsession hsound.partition_eq hfits hphase
    (show Operation.sweep.KeepsGuard from trivial) rfl (hmirrors.secure _ _) hsweep).mono
      (fun _ hc => hc) ?_
  rintro answer after ⟨hfits', error | a, t', hreply, hkeeps, hpost⟩
  · exact hpost.elim
  · obtain ⟨count, rfl, hswept⟩ := hpost
    have hcounted := hswept.counted
    rw [List.countP_nil, Nat.add_zero, hmirrors.count_eq] at hcounted
    exact ⟨_, hkeeps, hcounted ▸ hreply, sweep_of_sweeping hmirrors hfits hfits' hswept⟩

/-- **A sweep reclaims the pages that wait for their erase and touches no other**, after any run from any
content of the flash.  It replies with their number.  All other pages stay as they were, up to the marker;
the ring starts at a marked page, and at the only one if there was only one before. -/
theorem sweep_reclaims_waiting (hu : p.Usable) (hstarted : session.Started p flash)
    {requests : List Request} (hrequests : ∀ request ∈ requests, request.Stays) :
    let run := (session.serve requests).run Flash.device flash
    let sweep := (run.1.2.handle (.call .sweep)).run Flash.device run.2
    ∃ store store', run.1.2.store = some store ∧ sweep.1.2.store = some store' ∧
      sweep.1.1 = .answered (.ok (.count
        ((List.range p.pageCount).countP (store.table.isKind .unavailable)))) ∧
      Sweep p store.table run.2.cells store'.table sweep.2.cells := by
  intro run sweep
  obtain ⟨⟨store, hsession, hsound, hfits, hphase⟩, hfollows⟩ := hstarted.serve hu hrequests
  obtain ⟨⟨store', hsession', hreply, hswept⟩, -⟩ :=
    Flash.run_of_always hfollows (always_sweep hu hsession hsound hfits hphase)
  exact ⟨store, store', hsession.store_eq, hsession'.store_eq, hreply, hswept⟩

/-- Two pages that wait for their erase, the first of which is marked. -/
def bothWaiting : Cells :=
  #[0x00, 0x03, 0x00, 0x02, 0x00, 1, 2, 3, 0x80, 0x03, 0x00, 0x02, 0x00, 1, 2, 3]

/-- Both pages are erased, and the marker is on the second one. -/
def lastMarked : Cells :=
  #[0xFF, 0xFF, 0xFF, 0xFF, 0xFF, 0xFF, 0xFF, 0xFF, 0x7F, 0xFF, 0xFF, 0xFF, 0xFF, 0xFF, 0xFF, 0xFF]

/-- The marker is handed to the second page, which is marked again once it is erased as well. -/
theorem sweep_reclaims_waiting_small :
    let start := (small.handle (.call .init)).run Flash.device (.steady bothWaiting)
    let run := (start.1.2.serve [.call .usage]).run Flash.device start.2
    let sweep := (run.1.2.handle (.call .sweep)).run Flash.device run.2
    Partition.small.Usable ∧ Started .small start.1.2 start.2 ∧
      (∀ request ∈ [Request.call .usage], request.Stays) ∧
      sweep.2.cells = lastMarked ∧
      ∃ store store', run.1.2.store = some store ∧ sweep.1.2.store = some store' ∧
        sweep.1.1 = .answered (.ok (.count
          ((List.range Partition.small.pageCount).countP (store.table.isKind .unavailable)))) ∧
        Sweep .small store.table run.2.cells store'.table sweep.2.cells := by
  intro start
  have hstarted : Started .small start.1.2 start.2 :=
    started_of_init keeps_small (fun _ => trivial) (Reply.eq_done (by decide +kernel))
  have hrequests : ∀ request ∈ [Request.call .usage], request.Stays := by
    simp [Request.Stays]
  exact ⟨Partition.usable_small, hstarted, hrequests, by decide +kernel,
    sweep_reclaims_waiting Partition.usable_small hstarted hrequests⟩

end Session

end RingStore
