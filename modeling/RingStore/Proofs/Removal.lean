import RingStore.Proofs.SecondBoot

/-!
# What a removal removes

A removal takes every copy of its key and nothing else.  A full page that it empties is erased on the way;
if the ring starts there, the marker is handed to another page, which the walk may visit later or has
visited before.  The records that are still ahead stay where they are, since an erased page has none.

## Main statements

* `Table.Mirrors.slice_of_erased`: what the bytes of an erased page are.
* `Engine.peeks_deleteItem`: a removal of a key without a copy only looks.
* `Session.removal_removes_copies`: what a removal leaves after any run.
-/

namespace RingStore

open RingStore.Partition (Holdings)

/-! ## Erased pages -/

/-- The marker aside, no bit of the status byte of an erased page is cleared. -/
theorem PageStatus.toByte_of_erased {status : PageStatus} (h : status.kind = .erased) :
    status.toByte = 0xFF ∨ status.toByte = 0x7F := by
  obtain ⟨kind, ringStart⟩ := status
  cases h
  cases ringStart with
  | true => exact Or.inr rfl
  | false => exact Or.inl rfl

theorem isBlank_eq_replicate {bytes : Bytes} (h : isBlank bytes = true) :
    bytes = List.replicate bytes.length 0xFF :=
  List.eq_replicate_iff.mpr ⟨rfl, isBlank_iff.mp h⟩

namespace Table

variable {p : Partition} {t : Table} {cells : Cells} {page : Nat}

/-- **The bytes of an erased page are blank**, up to the bit that is the marker. -/
theorem Mirrors.slice_of_erased (h : t.Mirrors p (p.image cells))
    (hfits : p.base + p.size ≤ cells.size) (herased : t.isKind .erased page = true) :
    ∃ byte, (byte = 0xFF ∨ byte = 0x7F) ∧
      cells.slice (p.pageAddress page) p.pageSize = byte :: List.replicate p.contentSize 0xFF := by
  obtain ⟨entry, hentry, hkind⟩ := isKind_iff.mp herased
  have hpage : page < p.pageCount := h.count_eq ▸ lt_count hentry
  obtain ⟨hstatus, hdescribes⟩ := h.tracks page entry hentry
  obtain ⟨byte, hslice, hbyte⟩ := Partition.slice_page hpage hfits
  have hblank := isBlank_eq_replicate (hdescribes.blank_of_erased hkind).1
  rw [Partition.length_content hpage hfits] at hblank
  refine ⟨byte, ?_, hblank ▸ hslice⟩
  rw [← PageStatus.toByte_ofByte? (hbyte.trans hstatus)]
  exact PageStatus.toByte_of_erased hkind

end Table

/-! ## The engine program -/

namespace Engine

open EngineM RingStore.Partition

variable {p : Partition} {t : Table} {img : Image} {key : UInt16}

theorem faded_kind {L : Holdings} {t' : Table} {page : Nat} {kind : PageKind}
    (h : Faded .immediate L t t') (hkind : kind ≠ .erased) (hafter : t'.isKind kind page = true) :
    t.isKind kind page = true := by
  obtain ⟨entry', hentry', hk'⟩ := Table.isKind_iff.mp hafter
  have hextent := h.extents page
  rw [Table.extent?_eq hentry'] at hextent
  obtain ⟨extent, hbefore, heq⟩ := Option.map_eq_some_iff.mp hextent.symm
  have hstage : (fade .immediate (L page) extent).1 = kind := by rw [heq, hk']
  rw [Table.isKind_of_extent? hbefore, beq_iff_eq]
  unfold fade at hstage
  split at hstage
  · exact absurd hstage.symm hkind
  · exact hstage

/-- **A removal of a key without a copy only looks.** -/
theorem peeks_deleteItem (hu : p.Usable) (h : t.Mirrors p img) (hkey : isValidKey key = true)
    (hnone : (p.live img).Stored key none) {fail : Error → Table → Prop} :
    Peeks p (deleteItem p key) t img (fun removed t' => t' = t ∧ removed = 0) fail := by
  unfold deleteItem
  rw [if_pos hkey]
  refine peeks_walkAll hu h (fun removed _ => removed = 0)
    (fun page _ removed entries => removed = 0 ∧ ∀ entry ∈ entries, entry ∈ p.live img page)
    ?_ ?_ ?_ ?_ rfl
  · intro removed location header hcarries
    refine remove_of_not fun hcopy => ?_
    rw [hcarries] at hcopy
    cases hcopy.1
  · rintro removed page rest rfl
    exact ⟨rfl, fun _ hentry => hentry⟩
  · rintro page rest removed offset record entries ⟨rfl, hentries⟩
    obtain ⟨hlive, hahead⟩ := List.forall_mem_cons.mp hentries
    rw [remove_of_not fun hcopy => hnone page _ ⟨hlive, hcopy.2⟩]
    exact peeks_pure ⟨rfl, rfl, hahead⟩
  · rintro removed page rest ⟨rfl, -⟩
    rfl

end Engine

/-! ## Removals in a run -/

namespace Session

variable {p : Partition} {session : Session} {store : Store} {flash : Flash} {cells : Cells}
  {key : UInt16}

/-- What a removal leaves: the live records before and after it, and the tables. -/
structure Removal (p : Partition) (key : UInt16) (t : Table) (cells : Cells) (t' : Table)
    (after : Cells) : Prop where
  /-- No copy of the key is live. -/
  gone : ∀ page entry, ¬(p.live (p.image after)).Copy key page entry
  /-- The records of all other keys are where they were, and no others are. -/
  others : ∀ page entry, entry.2.header.key ≠ key →
    (entry ∈ p.live (p.image after) page ↔ entry ∈ p.live (p.image cells) page)
  /-- A full page that was emptied is erased, but for the marker. -/
  erased : ∀ page, t.isKind .full page = true → p.live (p.image after) page = [] →
    t'.isKind .erased page = true ∧ ∃ byte, (byte = 0xFF ∨ byte = 0x7F) ∧
      after.slice (p.pageAddress page) p.pageSize = byte :: List.replicate p.contentSize 0xFF
  /-- No page waits for its erase that did not before. -/
  unavailable : ∀ page, t'.isKind .unavailable page = true → t.isKind .unavailable page = true
  /-- The page at which the ring starts is marked, in the table and in the flash. -/
  marked : t'.isMarked t'.ringStart = true ∧ ∃ status,
    (p.image after).status t'.ringStart = some status ∧ status.ringStart = true

theorem removal_of_faded {t t' : Table} {after : Cells}
    (hmirrors : t'.Mirrors p (p.image after)) (hfits : p.base + p.size ≤ after.size)
    (hupdate : (p.live (p.image cells)).Update key none (p.live (p.image after)))
    (hfaded : Engine.Faded .immediate (p.live (p.image after)) t t') :
    Removal p key t cells t' after := by
  refine ⟨hupdate.stored, hupdate.others, fun page hfull hempty => ?_,
    fun page => Engine.faded_kind hfaded (by decide), hmirrors.ordered.marked, ?_⟩
  · obtain ⟨entry, hentry, hkind⟩ := Table.isKind_iff.mp hfull
    have hextent := hfaded.extents page
    rw [Table.extent?_eq hentry, Option.map_some, Engine.fade_of_full hkind hempty] at hextent
    have herased : t'.isKind .erased page = true := Table.isKind_of_extent? hextent
    exact ⟨herased, hmirrors.slice_of_erased hfits herased⟩
  · obtain ⟨entry, hentry, hring⟩ := Table.isMarked_iff.mp hmirrors.ordered.marked
    exact ⟨entry.status, (hmirrors.tracks _ entry hentry).1, hring⟩

/-- A call for a removal. -/
theorem always_removal (hu : p.Usable) (hsession : session.Keeps p store)
    (hsound : store.Sound p (p.image cells)) (hfits : p.base + p.size ≤ cells.size)
    (hphase : store.phase = .ready) (hkey : isValidKey key = true) :
    (session.handle (.call (.deleteItem key))).Always .reliable (fun _ => True) cells
      fun answer after => ∃ store', answer.2.Keeps p store' ∧
        answer.1 = .answered
          (.ok (.count ((p.live (p.image cells)).copies key (List.range p.pageCount)))) ∧
        Removal p key store.table cells store'.table after := by
  have hdelete : EngineM.Ensures p .reliable (p.Secure .reliable True fun _ => True)
      (Answer.count <$> Engine.deleteItem p key) store.table (p.image cells)
      (fun answer t' img' => t'.Mirrors p img' ∧
        (p.live (p.image cells)).Update key none (p.live img') ∧
        answer = .count ((p.live (p.image cells)).copies key (List.range p.pageCount)) ∧
        Engine.Faded .immediate (p.live img') store.table t') EngineM.noError := by
    refine .map _ ((Engine.ensures_deleteItem hu (hsound.mirrors hphase) key
      fun _ _ _ => trivial).mono ?_ fun _ _ _ hrefused => hrefused.2.1 hkey)
    rintro removed t' img' ⟨hmirrors, hupdate, rfl, hfaded⟩
    exact ⟨hmirrors, hupdate, rfl, hfaded⟩
  refine (always_call_of_ready hsession hsound.partition_eq hfits hphase
    (show (Operation.deleteItem key).KeepsGuard from trivial) rfl ((hsound.mirrors hphase).secure _ _)
    hdelete).mono (fun _ hc => hc) ?_
  rintro answer after ⟨hfits', error | a, t', hreply, hkeeps, hpost⟩
  · exact hpost.elim
  · obtain ⟨hmirrors, hupdate, rfl, hfaded⟩ := hpost
    exact ⟨_, hkeeps, hreply, removal_of_faded hmirrors hfits' hupdate hfaded⟩

/-- A call for a removal of a key without a copy. -/
theorem peeks_removal (hu : p.Usable) (hsession : session.Keeps p store)
    (hsound : store.Sound p (p.image cells)) (hfits : p.base + p.size ≤ cells.size)
    (hphase : store.phase = .ready) (hkey : isValidKey key = true)
    (hnone : (p.live (p.image cells)).Stored key none) :
    (session.handle (.call (.deleteItem key))).Peeks cells fun _ => True := by
  have hdelete : EngineM.Peeks p (Answer.count <$> Engine.deleteItem p key) store.table
      (p.image cells) (fun _ _ => True) fun _ _ => True :=
    .map _ ((Engine.peeks_deleteItem hu (hsound.mirrors hphase) hkey hnone).mono
      (fun _ _ _ => trivial) fun _ _ hfail => hfail)
  rw [handle_call_of_ready hsession hsound.partition_eq hphase
    (show (Operation.deleteItem key).KeepsGuard from trivial) rfl, FlashM.peeks_bind]
  exact (hdelete cells ⟨hfits, rfl⟩).mono fun _ _ => trivial

/-- **A removal takes all copies of a key and only those**, after any run from any content of the flash.
It replies with their number.  Pages that it empties are erased, none is left for the sweep, and the ring
starts at a marked page.  If there is no copy, it only reads. -/
theorem removal_removes_copies (hu : p.Usable) (hstarted : session.Started p flash)
    {requests : List Request} (hrequests : ∀ request ∈ requests, request.Stays)
    (hkey : isValidKey key = true) :
    let run := (session.serve requests).run Flash.device flash
    let call := run.1.2.handle (.call (.deleteItem key))
    let removal := call.run Flash.device run.2
    let count := (p.live (p.image run.2.cells)).copies key (List.range p.pageCount)
    ∃ store store', run.1.2.store = some store ∧ removal.1.2.store = some store' ∧
      removal.1.1 = .answered (.ok (.count count)) ∧
      Removal p key store.table run.2.cells store'.table removal.2.cells ∧
      (count = 0 → ∀ step ∈ call.steps Flash.device run.2, step.access.isRead = true) := by
  intro run call removal count
  obtain ⟨⟨store, hsession, hsound, hfits, hphase⟩, hfollows⟩ := hstarted.serve hu hrequests
  obtain ⟨⟨store', hsession', hreply, hremoval⟩, -⟩ :=
    Flash.run_of_always hfollows (always_removal hu hsession hsound hfits hphase hkey)
  refine ⟨store, store', hsession.store_eq, hsession'.store_eq, hreply, hremoval, fun hzero => ?_⟩
  exact (peeks_removal hu hsession hsound hfits hphase hkey
    (Holdings.stored_none_of_copies hzero)).isRead_of_mem_steps hfollows

/-- Both pages are erased, and the marker is put back on the first one. -/
theorem removal_removes_copies_small :
    let start := (small.handle (.call .init)).run Flash.device (.steady (doubled [1, 2, 3] [1, 2, 3]))
    let run := (start.1.2.serve [.call .usage]).run Flash.device start.2
    let call := run.1.2.handle (.call (.deleteItem 2))
    let removal := call.run Flash.device run.2
    let count := (Partition.small.live (Partition.small.image run.2.cells)).copies 2
      (List.range Partition.small.pageCount)
    Partition.small.Usable ∧ Started .small start.1.2 start.2 ∧
      (∀ request ∈ [Request.call .usage], request.Stays) ∧ isValidKey 2 = true ∧ count = 2 ∧
      removal.2.cells = #[0x7F] ++ .replicate 15 0xFF ∧
      ∃ store store', run.1.2.store = some store ∧ removal.1.2.store = some store' ∧
        removal.1.1 = .answered (.ok (.count count)) ∧
        Removal .small 2 store.table run.2.cells store'.table removal.2.cells ∧
        (count = 0 → ∀ step ∈ call.steps Flash.device run.2, step.access.isRead = true) := by
  intro start run call removal count
  have hstarted : Started .small start.1.2 start.2 :=
    started_of_init keeps_small (fun _ => trivial) (Reply.eq_done (by decide +kernel))
  have hrequests : ∀ request ∈ [Request.call .usage], request.Stays := by
    simp [Request.Stays]
  have hkey : isValidKey 2 = true := rfl
  have hcount : count = 2 := by decide +kernel
  exact ⟨Partition.usable_small, hstarted, hrequests, hkey, hcount, by decide +kernel,
    removal_removes_copies Partition.usable_small hstarted hrequests hkey⟩

end Session

end RingStore
