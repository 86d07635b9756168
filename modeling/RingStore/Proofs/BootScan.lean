import RingStore.Proofs.Session

/-!
# The boot scan loses no record

A scan of a flash with the ring-start marker formats nothing.  Whatever else the flash holds, unknown
status bytes, several active pages, several markers, garbage behind the records or records that fail
their checksum, a scan in which no access is refused succeeds and leaves the live records in place.

## Main statements

* `Partition.mem_live_iff`: what a live record is.
* `Session.scan_preserves_live`: a scan succeeds, and the live records are the same as before.
-/

namespace RingStore

namespace Partition

variable {p : Partition} {img : Image} {page offset : Nat} {record : Record}

theorem isLive_iff {checksum : Checksum} (h : record.WellFormed) :
    record.isLive checksum = true ↔ 1 ≤ record.payload.length ∧ record.payload.length ≤ 254 ∧
      record.header.key ≠ 0 ∧ record.header.key ≠ 0xFFFF ∧
      record.header.crc = checksum 0 record.payload := by
  obtain ⟨hlength, hend⟩ := h
  have hbyte := record.header.length.toNat_lt
  have hend' : record.header.length.toNat ≠ 255 := fun heq => hend (UInt8.toNat_inj.mp heq)
  have hvoid : record.header.length ≠ 0 ↔ record.payload.length ≠ 0 := by
    rw [hlength, Ne, ← UInt8.toNat_inj]
    rfl
  rw [Record.isLive, Bool.and_eq_true, Bool.and_eq_true, Header.carriesValue, Bool.and_eq_true,
    Bool.not_eq_true', Bool.not_eq_true', Header.isTombstone, Header.isVoid, beq_eq_false_iff_ne,
    beq_eq_false_iff_ne, bne_iff_ne, hvoid, Header.verify, Bool.and_eq_true, beq_iff_eq,
    beq_iff_eq]
  constructor
  · rintro ⟨⟨⟨hkey, hne⟩, hblank⟩, -, hcrc⟩
    exact ⟨by omega, by omega, hkey, hblank, hcrc.symm⟩
  · rintro ⟨hpos, -, hkey, hblank, hcrc⟩
    exact ⟨⟨⟨hkey, by omega⟩, hblank⟩, hlength, hcrc.symm⟩

/-- **A live record** is met by the walk along an active or full page, has a payload of one to 254
bytes under a valid key, and passes its checksum. -/
theorem mem_live_iff :
    (offset, record) ∈ p.live img page ↔ page < p.pageCount ∧
      (∃ status, img.status page = some status ∧
        (status.kind = .active ∨ status.kind = .full)) ∧
      (∃ before after, (img.log page).records = before ++ record :: after ∧
        offset = Log.span before) ∧
      1 ≤ record.payload.length ∧ record.payload.length ≤ 254 ∧
      record.header.key ≠ 0 ∧ record.header.key ≠ 0xFFFF ∧
      record.header.crc = p.chip.checksum 0 record.payload := by
  have hkinds : (img.status page).any (·.kind.holdsRecords) = true ↔
      ∃ status, img.status page = some status ∧ (status.kind = .active ∨ status.kind = .full) := by
    rw [Option.any_eq_true]
    refine exists_congr fun status => and_congr_right fun _ => ?_
    cases status.kind <;> simp [PageKind.holdsRecords]
  have hwf : ∀ before after, (img.log page).records = before ++ record :: after →
      record.WellFormed := by
    intro before after hrecords
    have hmem : record ∈ (Log.parse (img.content page)).records := by
      rw [show (Log.parse (img.content page)).records = _ from hrecords]
      simp
    exact Log.wellFormed_of_mem_parse hmem
  rw [← hkinds, live]
  constructor
  · intro h
    split at h
    · next hpage =>
      obtain ⟨hmem, hlive⟩ := List.mem_filter.mp h
      obtain ⟨before, after, hrecords, hoffset⟩ := Log.mem_locate hmem
      rw [Nat.zero_add] at hoffset
      exact ⟨hpage.1, hpage.2, ⟨before, after, hrecords, hoffset⟩,
        (isLive_iff (hwf before after hrecords)).mp hlive⟩
    · cases h
  · rintro ⟨hpage, hany, ⟨before, after, hrecords, rfl⟩, hlive⟩
    rw [if_pos ⟨hpage, hany⟩]
    refine List.mem_filter.mpr ⟨?_, (isLive_iff (hwf before after hrecords)).mpr hlive⟩
    rw [hrecords, Log.locate_append, Nat.zero_add]
    simp [Log.locate]

end Partition

variable {p : Partition} {store target store' : Store}

/-- On a flash that refuses no access, a scan that has nothing to format can end in one way only. -/
theorem Store.Outcome.scan {img img' : Image} {result : Except Error Answer}
    (h : Outcome p .reliable False .init store img result store' img')
    (hmarked : img.Marked p.pageCount ∨ ∀ page, p.live img page = []) :
    result = .ok .done ∧ store'.phase = .ready ∧ p.live img' = p.live img := by
  cases h with
  | failed hconduct => exact absurd rfl hconduct
  | unscanned _ hprogram => exact absurd rfl hprogram
  | told hoperation => cases hoperation
  | scanned _ hphase hlive hformat =>
    refine ⟨rfl, hphase, ?_⟩
    by_cases hmark : img.Marked p.pageCount
    · exact hlive (Or.inr hmark)
    · rw [hformat hmark]
      exact (funext (hmarked.resolve_left hmark)).symm
  | concluded _ hprogram => exact absurd rfl hprogram

namespace Session

variable {session : Session} {request : Request}

/-- **A scan of a flash with the ring-start marker succeeds and keeps the live records**, each at its
page and offset.  The flash may hold anything else, and the store may be in any state. -/
theorem scan_preserves_live (hu : p.Usable) (hsession : session.Keeps p store)
    (hpartition : store.partition = p) (hcalls : request.Calls p store target .init) {flash : Flash}
    (hflash : flash.Follows .reliable) (hfits : p.base + p.size ≤ flash.cells.size)
    (hmarked : (p.image flash.cells).Marked p.pageCount) :
    let last := (session.handle request).run Flash.device flash
    last.1.1 = .answered (.ok .done) ∧
      p.live (p.image last.2.cells) = p.live (p.image flash.cells) := by
  have htarget : target.partition = p := by
    cases hcalls with
    | reboot => rfl
    | call => exact hpartition
  have hrun : StoreM.Ensures p .reliable (p.Secure .reliable False fun _ => True)
      Operation.init.run target (p.image flash.cells) fun result store' img' =>
        store'.Sound p img' ∧ Store.Outcome p .reliable False .init target (p.image flash.cells)
          result store' img' :=
    Store.ensures_run_init hu (by nofun) (Or.inr fun _ => trivial) htarget
  have hhandle := always_handle hsession hcalls
    (hrun flash.cells ⟨hfits, rfl⟩ (p.secure_of_unasked _ _))
  obtain ⟨⟨result, store', hreply, -, -, houtcome⟩, -⟩ := Flash.run_of_always hflash hhandle
  obtain ⟨rfl, -, hlive⟩ := houtcome.scan (Or.inl hmarked)
  exact ⟨hreply, hlive⟩

/-- Two pages that are both active, the second one with garbage behind its record. -/
theorem scan_preserves_live_small :
    let flash : Flash := ⟨#[0x7E, 1, 7, 2, 0, 7, 0xFF, 0xFF, 0xFE, 1, 9, 3, 0, 9, 0xFF, 0],
      fun _ => .granted⟩
    let last := (small.handle .reboot).run Flash.device flash
    Partition.small.Usable ∧ small.Keeps .small (.ofPartition .small) ∧
      flash.Follows .reliable ∧ Partition.small.base + Partition.small.size ≤ flash.cells.size ∧
      (Partition.small.image flash.cells).Marked Partition.small.pageCount ∧
      last.1.1 = .answered (.ok .done) ∧
      Partition.small.live (Partition.small.image last.2.cells) =
        Partition.small.live (Partition.small.image flash.cells) := by
  have hstatus : (Partition.small.image #[0x7E, 1, 7, 2, 0, 7, 0xFF, 0xFF, 0xFE, 1, 9, 3, 0, 9, 0xFF,
      0]).status 0 = some ⟨.active, true⟩ := by
    decide
  have hmarked : (Partition.small.image #[0x7E, 1, 7, 2, 0, 7, 0xFF, 0xFF, 0xFE, 1, 9, 3, 0, 9, 0xFF,
      0]).Marked Partition.small.pageCount := ⟨0, by decide, _, hstatus, rfl⟩
  exact ⟨Partition.usable_small, keeps_small, fun _ => trivial, by decide, hmarked,
    scan_preserves_live Partition.usable_small keeps_small rfl .reboot (fun _ => trivial) (by decide)
      hmarked⟩

end Session

end RingStore
