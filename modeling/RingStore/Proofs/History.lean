import RingStore.Engine.Reclaim
import RingStore.Proofs.Mirror
import RingStore.Proofs.Replay
import RingStore.Proofs.Session

/-!
# The history of a page

Between two erases a page gets records, tombstones and new statuses.  The table counts along, and the flash
keeps a log.  A replay of that log gives the very numbers of the table.

## Main statements

* `Sheet.succeeds_edit`: what the table says of a page is kept in step with its log.
* `Partition.replay_decodes_log`: a replay decodes the log of any content, and that of any history.
-/

namespace RingStore

/-! ## Dropping one of several records -/

namespace Log

variable {checksum : Checksum} {records : List Record} {index : Nat} {record : Record}

/-- The record of an index, between those before and those behind it. -/
theorem exists_split (h : records[index]? = some record) : ∃ behind,
    records = records.take index ++ record :: behind ∧
      records.modify index Record.dropped = records.take index ++ record.dropped :: behind := by
  obtain ⟨hlt, rfl⟩ := List.getElem?_eq_some_iff.mp h
  refine ⟨records.drop (index + 1), ?_, List.modify_eq_take_cons_drop hlt⟩
  rw [← List.drop_eq_getElem_cons hlt, List.take_append_drop]

theorem span_modify_dropped (h : records[index]? = some record) :
    span (records.modify index Record.dropped) = span records := by
  obtain ⟨behind, hrecords, hdropped⟩ := exists_split h
  rw [hdropped]
  conv => rhs; rw [hrecords]
  simp

theorem countP_modify_dropped (h : records[index]? = some record)
    (hlive : record.isLive checksum = true) :
    (records.modify index Record.dropped).countP (·.isLive checksum) + 1 =
      records.countP (·.isLive checksum) := by
  obtain ⟨behind, hrecords, hdropped⟩ := exists_split h
  rw [hdropped]
  conv => rhs; rw [hrecords]
  simp [hlive, Nat.add_assoc]

theorem span_take_add_le (h : records[index]? = some record) :
    span (records.take index) + headerSize ≤ span records := by
  obtain ⟨behind, hrecords, -⟩ := exists_split h
  have hsize : headerSize ≤ record.size := Nat.le_add_right _ _
  conv => rhs; rw [hrecords]
  rw [span_append, span_cons]
  omega

theorem mem_modify_dropped (h : records[index]? = some record) {r : Record}
    (hr : r ∈ records.modify index Record.dropped) : r ∈ records ∨ r = record.dropped := by
  obtain ⟨behind, hrecords, hdropped⟩ := exists_split h
  rw [hdropped, List.mem_append, List.mem_cons] at hr
  rcases hr with hmem | rfl | hmem
  · exact .inl (List.mem_of_mem_take hmem)
  · exact .inr rfl
  · refine .inl ?_
    rw [hrecords]
    simp [hmem]

end Log

/-! ## Edits -/

/-- What is done to a page. -/
inductive Edit where
  | append (key : UInt16) (payload : Bytes)
  /-- Drops the record with an index. -/
  | tombstone (index : Nat) (policy : ReclaimPolicy)
  /-- Writes the status byte of the page. -/
  | move (status : PageStatus)

/-- The status and the records of a page. -/
structure Sheet where
  status : PageStatus
  records : List Record

namespace Sheet

/-- What the table says of such a page. -/
def entry (checksum : Checksum) (sheet : Sheet) : Page :=
  ⟨sheet.status, Log.span sheet.records, sheet.records.countP (·.isLive checksum)⟩

/-- An erased page. -/
def blank : Sheet := ⟨.blank, []⟩

end Sheet

namespace Edit

/-- A page after an edit.  A full page whose last live record is dropped waits for its erase. -/
def apply (checksum : Checksum) (sheet : Sheet) : Edit → Sheet
  | append key payload =>
    { sheet with records := sheet.records ++ [Record.ofPayload checksum key payload] }
  | tombstone index _ =>
    let records := sheet.records.modify index Record.dropped
    if sheet.status.kind = .full ∧ records.countP (·.isLive checksum) = 0 then
      ⟨sheet.status.withKind .unavailable, records⟩
    else ⟨sheet.status, records⟩
  | move status => { sheet with status }

/-- The record fits and may be stored, or the record to be dropped is live.  The page is not erased: the
last live record of a full page is not dropped with an erase at once. -/
def Allowed (p : Partition) (sheet : Sheet) : Edit → Prop
  | append key payload =>
    isValidKey key = true ∧ payload ≠ [] ∧ payload.length ≤ maxPayloadLength ∧
      Log.span sheet.records + (headerSize + payload.length) ≤ p.contentSize
  | tombstone index policy =>
    (∃ record, sheet.records[index]? = some record ∧ record.isLive p.chip.checksum = true) ∧
      (policy = .immediate → sheet.status.kind = .full →
        1 < sheet.records.countP (·.isLive p.chip.checksum))
  | move _ => True

/-- The engine program of an edit. -/
def program (p : Partition) (page : Nat) (sheet : Sheet) : Edit → EngineM Unit
  | append key payload => Engine.append p page key payload
  | tombstone index policy => Engine.drop p ⟨page, Log.span (sheet.records.take index)⟩ policy
  | move status => Engine.setStatus p page status

/-- The bytes that an edit adds. -/
def size : Edit → Nat
  | append _ payload => headerSize + payload.length
  | tombstone _ _ | move _ => 0

/-- The edit appends a record. -/
def appends : Edit → Bool
  | append _ _ => true
  | tombstone _ _ | move _ => false

/-- The edit drops a record. -/
def drops : Edit → Bool
  | tombstone _ _ => true
  | append _ _ | move _ => false

/-- A page after several edits. -/
def applyAll (checksum : Checksum) (sheet : Sheet) (edits : List Edit) : Sheet :=
  edits.foldl (fun sheet edit => edit.apply checksum sheet) sheet

/-- Each edit is allowed on the page as those before it leave it. -/
def AllAllowed (p : Partition) (sheet : Sheet) : List Edit → Prop
  | [] => True
  | edit :: rest =>
    edit.Allowed p sheet ∧ AllAllowed p (edit.apply p.chip.checksum sheet) rest

/-- The engine programs of edits, one after the other. -/
def programs (p : Partition) (page : Nat) (sheet : Sheet) : List Edit → EngineM Unit
  | [] => pure ()
  | edit :: rest => do
    edit.program p page sheet
    programs p page (edit.apply p.chip.checksum sheet) rest

/-- A page is erased, and is then edited. -/
def history (p : Partition) (page : Nat) (edits : List Edit) : EngineM Unit := do
  Engine.erasePage p page
  programs p page .blank edits

/-! ## What the edits account for -/

variable {p : Partition} {sheet : Sheet} {edit : Edit}

theorem records_apply_tombstone (checksum : Checksum) (sheet : Sheet) (index : Nat)
    (policy : ReclaimPolicy) : ((tombstone index policy).apply checksum sheet).records =
      sheet.records.modify index Record.dropped := by
  simp only [apply]
  split <;> rfl

/-- An edit adds its bytes to the page. -/
theorem span_apply (h : edit.Allowed p sheet) :
    Log.span (edit.apply p.chip.checksum sheet).records = Log.span sheet.records + edit.size := by
  cases edit with
  | append key payload =>
    obtain ⟨-, -, hlength, -⟩ := h
    simp only [apply, size, Log.span_append, Log.span_cons, Log.span_nil, Nat.add_zero,
      Record.size_ofPayload _ key hlength]
  | tombstone index policy =>
    obtain ⟨⟨record, hrecord, -⟩, -⟩ := h
    rw [records_apply_tombstone, Log.span_modify_dropped hrecord]
    rfl
  | move status => rfl

/-- An append adds a live record, a tombstone takes one. -/
theorem live_apply (h : edit.Allowed p sheet) :
    (edit.apply p.chip.checksum sheet).records.countP (·.isLive p.chip.checksum) +
        (if edit.drops then 1 else 0) =
      sheet.records.countP (·.isLive p.chip.checksum) + if edit.appends then 1 else 0 := by
  cases edit with
  | append key payload =>
    obtain ⟨hkey, hne, hlength, -⟩ := h
    simp [apply, drops, appends, Record.isLive_ofPayload _ hkey hne hlength]
  | tombstone index policy =>
    obtain ⟨⟨record, hrecord, hlive⟩, -⟩ := h
    rw [records_apply_tombstone]
    exact Log.countP_modify_dropped hrecord hlive
  | move status => rfl

theorem applyAll_cons (checksum : Checksum) (sheet : Sheet) (edit : Edit) (rest : List Edit) :
    applyAll checksum sheet (edit :: rest) = applyAll checksum (edit.apply checksum sheet) rest := rfl

theorem span_applyAll {edits : List Edit} (h : AllAllowed p sheet edits) :
    Log.span (applyAll p.chip.checksum sheet edits).records =
      Log.span sheet.records + (edits.map size).sum := by
  induction edits generalizing sheet with
  | nil => rfl
  | cons edit rest ih =>
    rw [applyAll_cons, ih h.2, span_apply h.1, List.map_cons, List.sum_cons, Nat.add_assoc]

theorem live_applyAll {edits : List Edit} (h : AllAllowed p sheet edits) :
    (applyAll p.chip.checksum sheet edits).records.countP (·.isLive p.chip.checksum) +
        edits.countP drops =
      sheet.records.countP (·.isLive p.chip.checksum) + edits.countP appends := by
  induction edits generalizing sheet with
  | nil => rfl
  | cons edit rest ih =>
    have hfirst := live_apply h.1
    have hrest := ih h.2
    rw [applyAll_cons, List.countP_cons, List.countP_cons]
    omega

end Edit

/-! ## One edit -/

namespace Sheet

open EngineM

variable {p : Partition} {page : Nat} {sheet : Sheet} {t : Table} {cells : Cells}

/-- The table and the flash show a page as the sheet has it. -/
structure Shown (p : Partition) (page : Nat) (sheet : Sheet) (t : Table) (cells : Cells) : Prop where
  entry_eq : t.pages[page]? = some (sheet.entry p.chip.checksum)
  parse_eq : Log.parse ((p.image cells).content page) =
    ⟨sheet.records, List.replicate (p.contentSize - Log.span sheet.records) 0xFF⟩
  fits : Log.span sheet.records ≤ p.contentSize
  sound : ∀ r ∈ sheet.records, r.isDamaged p.chip.checksum = false

/-- The counters of a page that is shown fit into 16 bits, with room for one more record. -/
theorem Shown.lt_maxCounter (h : sheet.Shown p page t cells) :
    p.contentSize ≤ maxCounter ∧ sheet.records.countP (·.isLive p.chip.checksum) < maxCounter := by
  have hsize := p.statusSize_add_contentSize
  have hmax : p.pageSize ≤ 0xFFFF := p.pageSize_le
  have hcount := List.countP_le_length (l := sheet.records) (p := (·.isLive p.chip.checksum))
  have hlength := Log.length_le_span sheet.records
  have hfits := h.fits
  rw [maxCounter]
  omega

theorem succeeds_append (hreach : p.Reachable page) (h : sheet.Shown p page t cells) {key : UInt16}
    {payload : Bytes} (hallowed : (Edit.append key payload).Allowed p sheet) :
    Succeeds (Engine.append p page key payload) t cells fun _ t' after =>
      ((Edit.append key payload).apply p.chip.checksum sheet).Shown p page t' after := by
  have hspan := Edit.span_apply hallowed
  obtain ⟨hkey, hne, hlength, hroom⟩ := hallowed
  have hwf := Record.wellFormed_ofPayload p.chip.checksum key hlength
  have hsize := Record.size_ofPayload p.chip.checksum key hlength
  have hlive := Record.isLive_ofPayload p.chip.checksum hkey hne hlength
  have hcounter := h.lt_maxCounter
  have hfits : Log.span sheet.records +
      (Record.ofPayload p.chip.checksum key payload).toBytes.length ≤ p.contentSize := by
    rwa [hwf.length_toBytes, hsize]
  refine succeeds_pageAt_bind h.entry_eq ?_
  refine succeeds_perform_bind (Partition.succeeds_writeContent hreach hfits) ?_
  rintro _ _ rfl
  dsimp only [entry]
  rw [if_pos (by omega)]
  have hused : (Log.parse ((p.image cells).content page)).used = Log.span sheet.records := by
    rw [h.parse_eq, Log.used_eq_span]
  refine succeeds_modify ⟨?_, ?_, ?_, ?_⟩
  · rw [Table.getElem?_set_self (Table.lt_count h.entry_eq), hwf.length_toBytes]
    simp [Edit.apply, entry, hlive]
  · have hblank : isBlank (Log.parse ((p.image cells).content page)).tail = true := by
      rw [h.parse_eq]
      exact isBlank_replicate _
    have htail : (Record.ofPayload p.chip.checksum key payload).size ≤
        (Log.parse ((p.image cells).content page)).tail.length := by
      rw [h.parse_eq, List.length_replicate, hsize]
      omega
    rw [Partition.image_program_content hfits, Image.content_setContent_self, ← hused,
      Log.parse_programmed_record hblank hwf htail, h.parse_eq, List.drop_replicate, hsize, hspan,
      Nat.sub_sub]
    rfl
  · rw [hspan]
    exact hroom
  · intro r hr
    rcases List.mem_append.mp hr with hmem | hmem
    · exact h.sound r hmem
    · rw [List.mem_singleton.mp hmem, Record.isDamaged, hlive, Bool.not_true, Bool.and_false]

theorem succeeds_move (hreach : p.Reachable page) (h : sheet.Shown p page t cells)
    (status : PageStatus) :
    Succeeds (Engine.setStatus p page status) t cells fun _ t' after =>
      Shown p page { sheet with status } t' after := by
  refine succeeds_pageAt_bind h.entry_eq ?_
  refine succeeds_perform_bind (Partition.succeeds_writeStatus hreach status) ?_
  rintro _ _ rfl
  refine succeeds_modify ⟨?_, ?_, h.fits, h.sound⟩
  · exact Table.getElem?_set_self (Table.lt_count h.entry_eq)
  · rw [Partition.content_program_status]
    exact h.parse_eq

theorem Shown.header_fits (h : sheet.Shown p page t cells) {index : Nat} {record : Record}
    (hrecord : sheet.records[index]? = some record) :
    Log.span (sheet.records.take index) + keyOffset + tombstoneBytes.length ≤ p.contentSize := by
  have hheader := Log.span_take_add_le hrecord
  have hsize : keyOffset + tombstoneBytes.length = headerSize := rfl
  have hfits := h.fits
  omega

/-- A tombstone and its count, before the page is moved on. -/
theorem Shown.dropped (h : sheet.Shown p page t cells) {index : Nat} {record : Record}
    (hrecord : sheet.records[index]? = some record)
    (hlive : record.isLive p.chip.checksum = true) :
    Shown p page ⟨sheet.status, sheet.records.modify index Record.dropped⟩
      (t.set page { sheet.entry p.chip.checksum with
        live := (sheet.entry p.chip.checksum).live - 1 })
      (cells.program (p.contentAddress page (Log.span (sheet.records.take index) + keyOffset))
        tombstoneBytes) := by
  obtain ⟨behind, hrecords, hdropped⟩ := Log.exists_split hrecord
  have hspan := Log.span_modify_dropped hrecord
  have hcount := Log.countP_modify_dropped hrecord hlive
  have hparse : (Log.parse ((p.image cells).content page)).records =
      sheet.records.take index ++ record :: behind := by
    rw [h.parse_eq, ← hrecords]
  refine ⟨?_, ?_, ?_, ?_⟩
  · rw [Table.getElem?_set_self (Table.lt_count h.entry_eq), entry, entry, hspan, ← hcount,
      Nat.add_sub_cancel]
  · rw [Partition.image_program_content (h.header_fits hrecord), Image.content_setContent_self,
      Log.parse_programmed_tombstone hparse, h.parse_eq, ← hdropped, hspan]
  · rw [hspan]
    exact h.fits
  · intro r hr
    rcases Log.mem_modify_dropped hrecord hr with hmem | rfl
    · exact h.sound r hmem
    · exact Record.isDamaged_dropped p.chip.checksum record

theorem succeeds_tombstone (hreach : p.Reachable page) (h : sheet.Shown p page t cells)
    {index : Nat} {policy : ReclaimPolicy} (hallowed : (Edit.tombstone index policy).Allowed p sheet) :
    Succeeds (Engine.drop p ⟨page, Log.span (sheet.records.take index)⟩ policy) t cells
      fun _ t' after =>
        ((Edit.tombstone index policy).apply p.chip.checksum sheet).Shown p page t' after := by
  obtain ⟨⟨record, hrecord, hlive⟩, hkeeps⟩ := hallowed
  have hdropped := h.dropped hrecord hlive
  have hcount : (sheet.entry p.chip.checksum).live - 1 =
      (sheet.records.modify index Record.dropped).countP (·.isLive p.chip.checksum) :=
    Nat.sub_eq_of_eq_add (Log.countP_modify_dropped hrecord hlive).symm
  refine succeeds_pageAt_bind h.entry_eq ?_
  refine succeeds_perform_bind (Partition.succeeds_writeContent hreach (h.header_fits hrecord)) ?_
  rintro _ _ rfl
  refine succeeds_modify_bind ?_
  rw [Edit.apply, ← hcount]
  by_cases hempty : (sheet.entry p.chip.checksum).live - 1 = 0
  · rw [if_pos hempty]
    cases hkind : sheet.status.kind with
    | erased | active | unavailable =>
      rw [if_neg (by simp)]
      simp only [Page.kind, entry, hkind]
      exact succeeds_pure hdropped
    | full =>
      rw [if_pos ⟨rfl, hempty⟩]
      simp only [Page.kind, entry, hkind]
      cases policy with
      | deferred => exact succeeds_move hreach hdropped _
      | immediate =>
        have hlast : 1 < (sheet.entry p.chip.checksum).live := hkeeps rfl hkind
        omega
  · rw [if_neg hempty, if_neg fun hfull => hempty hfull.2]
    exact succeeds_pure hdropped

/-- **An edit keeps what the table says of a page in step with its log.** -/
theorem succeeds_edit (hreach : p.Reachable page) (h : sheet.Shown p page t cells) {edit : Edit}
    (hallowed : edit.Allowed p sheet) :
    Succeeds (edit.program p page sheet) t cells fun _ t' after =>
      (edit.apply p.chip.checksum sheet).Shown p page t' after := by
  cases edit with
  | append key payload => exact succeeds_append hreach h hallowed
  | tombstone index policy => exact succeeds_tombstone hreach h hallowed
  | move status => exact succeeds_move hreach h status

theorem succeeds_programs (hreach : p.Reachable page) {edits : List Edit}
    (h : sheet.Shown p page t cells) (hallowed : Edit.AllAllowed p sheet edits) :
    Succeeds (Edit.programs p page sheet edits) t cells fun _ t' after =>
      (Edit.applyAll p.chip.checksum sheet edits).Shown p page t' after := by
  induction edits generalizing sheet t cells with
  | nil => exact succeeds_pure h
  | cons edit rest ih =>
    exact (succeeds_edit hreach h hallowed.1).bind fun _ _ _ hshown => ih hshown hallowed.2

/-- An erased page shows nothing. -/
theorem succeeds_erase (hreach : p.Reachable page) {entry : Page}
    (hentry : t.pages[page]? = some entry)
    (hlength : ((p.image cells).content page).length = p.contentSize) :
    Succeeds (Engine.erasePage p page) t cells fun _ t' after => blank.Shown p page t' after := by
  refine succeeds_pageAt_bind hentry ?_
  refine succeeds_perform_bind (Partition.succeeds_erasePage hreach) ?_
  rintro _ _ rfl
  have hcontent : (p.image (cells.erase (p.pageAddress page) p.pageSize)).content page =
      List.replicate p.contentSize 0xFF := by
    have himage : p.image (cells.erase (p.pageAddress page + 0) p.pageSize) =
        (p.image cells).erasePart page 0 p.pageSize :=
      Partition.image_erase (Partition.lt_size_of_length_content hlength)
        (Nat.le_of_eq (Nat.zero_add p.pageSize))
    rw [Nat.add_zero] at himage
    rw [himage, Image.erasePart_of_lt, Image.content_erase_self, hlength]
    rw [hlength, ← p.statusSize_add_contentSize]
    exact Nat.lt_add_of_pos_left Nat.one_pos
  refine succeeds_modify ⟨?_, ?_, Nat.zero_le _, fun r hr => by cases hr⟩
  · exact Table.getElem?_set_self (Table.lt_count hentry)
  · rw [hcontent]
    exact Log.parse_of_isBlank (isBlank_replicate _)

/-- **A history ends with table and log in step.** -/
theorem succeeds_history (hreach : p.Reachable page) {entry : Page}
    (hentry : t.pages[page]? = some entry)
    (hlength : ((p.image cells).content page).length = p.contentSize) {edits : List Edit}
    (hallowed : Edit.AllAllowed p blank edits) :
    Succeeds (Edit.history p page edits) t cells fun _ t' after =>
      (Edit.applyAll p.chip.checksum blank edits).Shown p page t' after :=
  (succeeds_erase hreach hentry hlength).bind fun _ _ _ hshown =>
    succeeds_programs hreach hshown hallowed

/-- The log of a page that is shown has nothing to drop, and gives what the table says. -/
theorem Shown.replay_eq (h : sheet.Shown p page t cells) :
    p.replay page ((p.image cells).content page) =
      pure ⟨(sheet.entry p.chip.checksum).used, (sheet.entry p.chip.checksum).live, true⟩ := by
  have hdamaged : (Log.parse ((p.image cells).content page)).damaged p.chip.checksum = [] := by
    refine Log.damaged_eq_nil_of_forall ?_
    rw [h.parse_eq]
    exact h.sound
  have hclean : (Log.parse ((p.image cells).content page)).isClean = true := by
    rw [h.parse_eq]
    exact isBlank_replicate _
  rw [Partition.replay_of_sound hdamaged, hclean, h.parse_eq]
  rfl

end Sheet

/-! ## What a replay decodes -/

namespace Partition

variable {p : Partition} {page : Nat}

/-- The replay of what is in the flash. -/
theorem decodes_of_granted (hreach : p.Reachable page) {flash : Flash}
    (hlength : ((p.image flash.cells).content page).length = p.contentSize)
    (hgranted : ∀ step ∈ (p.replay page ((p.image flash.cells).content page)).run.steps Flash.device
      flash, step.isGranted = true) :
    let ended := (p.replay page ((p.image flash.cells).content page)).run.run Flash.device flash
    ∃ log found, ended.1 = .ok found ∧
      found.Decodes p.chip.checksum ((p.image flash.cells).content page) log
        ((p.image ended.2.cells).content page) ∧
      p.Beside page flash.cells ended.2.cells ∧
      p.replay page ((p.image ended.2.cells).content page) = pure found := by
  obtain ⟨found, hended, rfl, hmended, hbeside⟩ :=
    Flash.run_of_succeeds (succeeds_replay hreach rfl hlength) hgranted
  exact ⟨_, _, hended, Replay.decodes_parse hmended, hbeside, replay_mended hmended⟩

/-- The replay of a page whose history is known. -/
theorem replay_of_history (hreach : p.Reachable page) {flash : Flash} {t : Table} {entry : Page}
    {edits : List Edit} (hentry : t.pages[page]? = some entry)
    (hlength : ((p.image flash.cells).content page).length = p.contentSize)
    (hallowed : Edit.AllAllowed p .blank edits)
    (hgranted : ∀ step ∈ ((Edit.history p page edits).run.run t).steps Flash.device flash,
      step.isGranted = true) :
    let ended := ((Edit.history p page edits).run.run t).run Flash.device flash
    ended.1.1 = .ok () ∧ ∃ status live, live + edits.countP Edit.drops = edits.countP Edit.appends ∧
      ended.1.2.pages[page]? = some ⟨status, (edits.map Edit.size).sum, live⟩ ∧
      p.replay page ((p.image ended.2.cells).content page) =
        pure ⟨(edits.map Edit.size).sum, live, true⟩ := by
  obtain ⟨_, hended, hshown⟩ :=
    Flash.run_of_succeeds (Sheet.succeeds_history hreach hentry hlength hallowed) hgranted
  have hused := (Edit.span_applyAll hallowed).trans (Nat.zero_add _)
  have hlive := (Edit.live_applyAll hallowed).trans (Nat.zero_add _)
  have hentry' := hshown.entry_eq
  have hreplay := hshown.replay_eq
  rw [Sheet.entry, hused] at hentry' hreplay
  exact ⟨hended, _, _, hlive, hentry', hreplay⟩

/-- **A replay decodes the log of a page.**  A scan replays the log of an active or full page.  With all
accesses granted, the replay of any content finds its only log, counts the intact records, tells whether
the bytes behind the log are unprogrammed, and drops all records that are neither intact nor empty; another
replay makes no access and finds the same.  On a page that was erased and edited since, it finds the bytes
and the live records that the edits account for, and nothing behind them. -/
theorem replay_decodes_log (hreach : p.Reachable page) :
    (∀ (status : PageStatus) (content : Bytes), p.recoverPage page status content =
      (p.replay page content >>= fun replay =>
        p.advanceIf page (status.kind == .active && !replay.clean) status .full >>= fun moved =>
          p.advanceIf page (moved.kind == .full && replay.live == 0) moved .unavailable >>= fun moved =>
            pure ⟨moved, replay.used, replay.live⟩)) ∧
    (∀ flash : Flash, ((p.image flash.cells).content page).length = p.contentSize →
      (∀ step ∈ (p.replay page ((p.image flash.cells).content page)).run.steps Flash.device flash,
        step.isGranted = true) →
      let ended := (p.replay page ((p.image flash.cells).content page)).run.run Flash.device flash
      ∃ log found, ended.1 = .ok found ∧
        found.Decodes p.chip.checksum ((p.image flash.cells).content page) log
          ((p.image ended.2.cells).content page) ∧
        p.Beside page flash.cells ended.2.cells ∧
        p.replay page ((p.image ended.2.cells).content page) = pure found) ∧
    (∀ (flash : Flash) (t : Table) (entry : Page) (edits : List Edit),
      t.pages[page]? = some entry →
      ((p.image flash.cells).content page).length = p.contentSize →
      Edit.AllAllowed p .blank edits →
      (∀ step ∈ ((Edit.history p page edits).run.run t).steps Flash.device flash,
        step.isGranted = true) →
      let ended := ((Edit.history p page edits).run.run t).run Flash.device flash
      ended.1.1 = .ok () ∧
        ∃ status live, live + edits.countP Edit.drops = edits.countP Edit.appends ∧
          ended.1.2.pages[page]? = some ⟨status, (edits.map Edit.size).sum, live⟩ ∧
          p.replay page ((p.image ended.2.cells).content page) =
            pure ⟨(edits.map Edit.size).sum, live, true⟩) :=
  ⟨p.recoverPage_eq_replay page, fun _ => decodes_of_granted hreach,
    fun _ _ _ _ => replay_of_history hreach⟩

/-- A record whose checksum fails is dropped.  After an erase one record is stored in the same page, and
dropped. -/
theorem replay_decodes_log_small :
    let flash : Flash := .steady (#[0xFE, 1, 0, 2, 0, 7] ++ .replicate 10 0xFF)
    let content := (small.image flash.cells).content 0
    let ended := (small.replay 0 content).run.run Flash.device flash
    let edits : List Edit := [.move ⟨.active, false⟩, .append 2 [7], .tombstone 0 .deferred]
    let t : Table := ⟨#[.blank, .blank], 0, 0⟩
    let edited := ((Edit.history small 0 edits).run.run t).run Flash.device flash
    small.Reachable 0 ∧ content.length = small.contentSize ∧
      (∀ step ∈ (small.replay 0 content).run.steps Flash.device flash, step.isGranted = true) ∧
      (∃ log found, ended.1 = .ok found ∧
        found.Decodes small.chip.checksum content log ((small.image ended.2.cells).content 0) ∧
        small.Beside 0 flash.cells ended.2.cells ∧
        small.replay 0 ((small.image ended.2.cells).content 0) = pure found) ∧
      Edit.AllAllowed small .blank edits ∧
      (∀ step ∈ ((Edit.history small 0 edits).run.run t).steps Flash.device flash,
        step.isGranted = true) ∧
      edited.1.1 = .ok () ∧
      ∃ status live, live + 1 = 1 ∧ edited.1.2.pages[0]? = some ⟨status, 5, live⟩ ∧
        small.replay 0 ((small.image edited.2.cells).content 0) = pure ⟨5, live, true⟩ := by
  intro flash content ended edits t edited
  have hreach : small.Reachable 0 := by
    rw [Reachable]
    decide
  have hlength : content.length = small.contentSize := by decide
  have hreplayed : ∀ step ∈ (small.replay 0 content).run.steps Flash.device flash,
      step.isGranted = true := by
    have hcontent : content = (⟨⟨1, 0, 2⟩, [7]⟩ : Record).toBytes ++ [0xFF, 0xFF] := by decide
    rw [replay_eq, hcontent, Log.parse_toBytes_append ⟨rfl, by decide⟩, Log.parse_of_isBlank rfl]
    decide
  have hallowed : Edit.AllAllowed small .blank edits :=
    ⟨trivial, ⟨by decide, by decide, by decide, by decide⟩, ⟨⟨_, rfl, by decide⟩, by simp⟩, trivial⟩
  have hedited : ∀ step ∈ ((Edit.history small 0 edits).run.run t).steps Flash.device flash,
      step.isGranted = true := by
    decide +kernel
  obtain ⟨-, hdecodes, hhistory⟩ := replay_decodes_log hreach
  have hfound := hdecodes flash hlength hreplayed
  obtain ⟨hok, status, live, hlive, hentry, hreplay⟩ :=
    hhistory flash t .blank edits rfl hlength hallowed hedited
  have hsize : (edits.map Edit.size).sum = 5 := rfl
  rw [hsize] at hentry hreplay
  refine ⟨hreach, hlength, hreplayed, hfound, hallowed, hedited, ?_⟩
  dsimp only [edited]
  exact ⟨hok, status, live, hlive, hentry, hreplay⟩

end Partition

end RingStore
