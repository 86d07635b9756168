import RingStore.Engine.Boot
import RingStore.Proofs.Granted

/-!
# Replaying the log of a page

A replay steps over the records of a page one after the other, counts the live ones and drops the damaged
ones on the way.  It stops where no header fits any more, at an unprogrammed length byte, or at a record
that would run past the end, and it tells whether all bytes from there on are unprogrammed.

`Log.Decodes` says what it is to be the log of a content, without saying how the content is read.  A scan
reads the log first and drops the damaged records afterwards, which is the same.

## Main statements

* `Log.decodes_iff`: a content has exactly one log.
* `Partition.recoverPage_eq_replay`: a scan replays the log of an active or full page.
* `Partition.succeeds_replay`: what a replay gives, and what it leaves.
* `Partition.replay_mended`: a second replay makes no access and gives the same.
-/

namespace RingStore

/-! ## The log of a content -/

theorem Header.length_lt_of_take? {bytes : Bytes} (h : Header.take? bytes = none) :
    bytes.length < headerSize := by
  match bytes with
  | [] | [_] | [_, _] | [_, _, _] => simp [headerSize]
  | _ :: _ :: _ :: _ :: _ => cases h

namespace Log

variable {content tail : Bytes} {log : Log} {checksum : Checksum}

/-- Why the records end in front of some bytes. -/
inductive Ends : Bytes → Prop
  /-- No header fits any more. -/
  | short {tail : Bytes} (h : tail.length < headerSize) : Ends tail
  /-- The length byte was never programmed. -/
  | marked {header : Header} {rest : Bytes} (h : header.length = endOfLog) :
      Ends (header.toBytes ++ rest)
  /-- The record would run past the end. -/
  | overrun {header : Header} {rest : Bytes} (h : rest.length < header.length.toNat) :
      Ends (header.toBytes ++ rest)

/-- The records of a content in a row, up to where they end. -/
structure Decodes (content : Bytes) (log : Log) : Prop where
  bytes_eq : log.toBytes = content
  wellFormed : ∀ r ∈ log.records, r.WellFormed
  ends : Ends log.tail

theorem parse_of_ends (h : Ends tail) : parse tail = ⟨[], tail⟩ := by
  rw [parse]
  split
  · rfl
  · next header rest hsome =>
    have hbytes := Header.toBytes_of_take? hsome
    cases h with
    | short hshort =>
      have hlength := Header.length_of_take? hsome
      omega
    | marked hmark =>
      rw [Header.take?_toBytes_append] at hsome
      cases hsome
      rw [if_pos hmark]
    | overrun hover =>
      rw [Header.take?_toBytes_append] at hsome
      cases hsome
      have htake := List.length_take_le rest.length rest
      split
      · rfl
      · rw [if_pos]
        rw [List.length_take]
        omega

theorem ends_tail (content : Bytes) : Ends (parse content).tail := by
  fun_induction parse content with
  | case1 content hnone => exact .short (Header.length_lt_of_take? hnone)
  | case2 content header rest hsome hmark => exact Header.toBytes_of_take? hsome ▸ .marked hmark
  | case3 content header rest hsome _ payload hshort =>
    refine Header.toBytes_of_take? hsome ▸ .overrun ?_
    have hlength : payload.length = min header.length.toNat rest.length := List.length_take
    omega
  | case4 content header rest _ _ payload _ log ih => exact ih

/-- **A content has exactly one log**, the one that is read from it. -/
theorem decodes_iff : Decodes content log ↔ log = parse content := by
  constructor
  · rintro ⟨rfl, hrecords, hends⟩
    rw [toBytes, parse_flatMap_append hrecords, parse_of_ends hends, List.append_nil]
  · rintro rfl
    exact ⟨toBytes_parse content, fun r hr => wellFormed_of_mem_parse hr, ends_tail content⟩

/-- A record in front that fits is read, and the log goes on behind it. -/
theorem parse_of_take? {header : Header} {rest : Bytes}
    (hsome : Header.take? content = some (header, rest)) (hmark : header.length ≠ endOfLog)
    (hroom : header.length.toNat ≤ rest.length) :
    parse content = ⟨⟨header, rest.take header.length.toNat⟩ ::
        (parse (rest.drop header.length.toNat)).records,
      (parse (rest.drop header.length.toNat)).tail⟩ := by
  have hrecord : (⟨header, rest.take header.length.toNat⟩ : Record).WellFormed :=
    ⟨by rw [List.length_take, Nat.min_eq_left hroom], hmark⟩
  rw [← parse_toBytes_append hrecord, Record.toBytes, List.append_assoc, List.take_append_drop,
    Header.toBytes_of_take? hsome]

/-- The tail is what follows the bytes that the records take. -/
theorem drop_used (content : Bytes) : content.drop (parse content).used = (parse content).tail := by
  have hall : (parse content).records = (parse content).records ++ [] := (List.append_nil _).symm
  have h := drop_span (parse content).records [] hall
  rwa [List.flatMap_nil, List.nil_append] at h

end Log

/-! ## Logs without damaged records -/

/-- A record as a replay leaves it. -/
def Record.mended (checksum : Checksum) (record : Record) : Record :=
  if record.isDamaged checksum then record.dropped else record

/-- A log as a replay leaves it. -/
def Log.mended (checksum : Checksum) (log : Log) : Log :=
  ⟨log.records.map (·.mended checksum), log.tail⟩

namespace Record

variable {checksum : Checksum} {record : Record}

@[simp] theorem size_mended : (record.mended checksum).size = record.size := by
  rw [mended]
  split <;> rfl

@[simp] theorem isLive_mended : (record.mended checksum).isLive checksum = record.isLive checksum := by
  rw [mended]
  split
  · next hdamaged =>
    rw [isDamaged, Bool.and_eq_true, Bool.not_eq_true'] at hdamaged
    rw [isLive_dropped, hdamaged.2]
  · rfl

@[simp] theorem isDamaged_mended : (record.mended checksum).isDamaged checksum = false := by
  rw [mended]
  split
  · rfl
  · next hsound => exact Bool.not_eq_true _ ▸ hsound

/-- A record whose key is cleared is a tombstone already. -/
theorem dropped_of_isTombstone (h : record.header.isTombstone = true) : record.dropped = record := by
  obtain ⟨⟨length, crc, key⟩, payload⟩ := record
  rw [Header.isTombstone, beq_iff_eq] at h
  rw [dropped, ← h]

/-- **A replay leaves live records and empty ones as they are**, and tombstones of all others. -/
theorem mended_eq : record.mended checksum =
    if record.header.length = 0 ∨ record.isLive checksum = true then record else record.dropped := by
  rw [mended, isDamaged, Header.carriesValue, Header.isVoid]
  by_cases hvoid : record.header.length = 0
  · simp [hvoid]
  · cases hlive : record.isLive checksum with
    | true => simp
    | false =>
      cases htombstone : record.header.isTombstone with
      | true => simp [dropped_of_isTombstone htombstone]
      | false => simp [hvoid]

/-- Not empty, under a valid key, and with the payload that the checksum is of. -/
def Intact (checksum : Checksum) (record : Record) : Prop :=
  record.header.length ≠ 0 ∧ isValidKey record.header.key = true ∧
    checksum 0 record.payload = record.header.crc

instance (checksum : Checksum) (record : Record) : Decidable (record.Intact checksum) :=
  inferInstanceAs (Decidable (_ ∧ _ ∧ _))

/-- The live records are the intact ones. -/
theorem isLive_iff_intact (h : record.WellFormed) :
    record.isLive checksum = true ↔ record.Intact checksum := by
  simp only [isLive, Header.carriesValue, Header.isTombstone, Header.isVoid, Header.verify, isValidKey,
    Intact, h.1, Bool.and_eq_true, Bool.not_eq_true', beq_eq_false_iff_ne, bne_iff_ne, beq_iff_eq,
    true_and]
  constructor
  · rintro ⟨⟨⟨hkey, hlength⟩, hblank⟩, hcrc⟩
    exact ⟨hlength, ⟨hkey, hblank⟩, hcrc⟩
  · rintro ⟨hlength, ⟨hkey, hblank⟩, hcrc⟩
    exact ⟨⟨⟨hkey, hlength⟩, hblank⟩, hcrc⟩

end Record

namespace Log

variable {log : Log} {checksum : Checksum}

@[simp] theorem used_mended : (log.mended checksum).used = log.used := by
  rw [used_eq_span, used_eq_span, mended]
  induction log.records with
  | nil => rfl
  | cons record rest ih => rw [List.map_cons, span_cons, span_cons, ih, Record.size_mended]

@[simp] theorem live_mended : (log.mended checksum).live checksum = log.live checksum := by
  simp only [live, mended, List.countP_map, Function.comp_def, Record.isLive_mended]

@[simp] theorem isClean_mended : (log.mended checksum).isClean = log.isClean := rfl

theorem damaged_eq_nil_of_forall (h : ∀ r ∈ log.records, r.isDamaged checksum = false) :
    log.damaged checksum = [] := by
  refine damaged_eq_nil_iff.mpr fun r hr hcarries => ?_
  have hsound := h r hr
  rwa [Record.isDamaged, hcarries, Bool.true_and, Bool.not_eq_false'] at hsound

theorem damaged_mended : (log.mended checksum).damaged checksum = [] := by
  refine damaged_eq_nil_of_forall fun r hr => ?_
  obtain ⟨record, -, rfl⟩ := List.mem_map.mp hr
  exact Record.isDamaged_mended

theorem mended_of_sound (h : log.damaged checksum = []) : log.mended checksum = log := by
  have hmap : log.records.map (·.mended checksum) = log.records := by
    refine (List.map_congr_left fun r hr => ?_).trans (List.map_id' _)
    rw [Record.mended, if_neg]
    rw [Record.isDamaged, Bool.and_eq_true, not_and]
    intro hcarries
    rw [damaged_eq_nil_iff.mp h r hr hcarries]
    decide
  rw [mended, hmap]

/-- Dropping a damaged record is a part of the work. -/
theorem mended_dropped {before after : List Record} {record : Record} {tail : Bytes}
    (h : record.isDamaged checksum = true) :
    mended checksum ⟨before ++ record.dropped :: after, tail⟩ =
      mended checksum ⟨before ++ record :: after, tail⟩ := by
  have hrecord : record.dropped.mended checksum = record.mended checksum := by
    rw [Record.mended, Record.mended, if_pos h]
    rfl
  simp only [mended, List.map_append, List.map_cons, hrecord]

end Log

/-! ## The replay -/

/-- What a replay gives. -/
structure Replay where
  /-- The bytes that the records take. -/
  used : Nat
  /-- The number of live records. -/
  live : Nat
  /-- All bytes behind the records are unprogrammed. -/
  clean : Bool
  deriving DecidableEq

/-- What a replay is to find in a content, and what it is to leave there. -/
structure Replay.Decodes (checksum : Checksum) (content : Bytes) (log : Log) (found : Replay)
    (left : Bytes) : Prop where
  log_iff : ∀ other, other.Decodes content ↔ other = log
  used_eq : found.used = Log.span log.records
  used_le : found.used ≤ content.length
  live_eq : found.live = log.records.countP fun r => r.Intact checksum
  clean_iff : found.clean = true ↔ ∀ b ∈ content.drop found.used, b = 0xFF
  left_eq : left = (log.records.map fun r =>
    if r.header.length = 0 ∨ r.Intact checksum then r else r.dropped).flatMap Record.toBytes ++ log.tail

/-- The log of a content is decoded by its counts, and by dropping its damaged records. -/
theorem Replay.decodes_parse {checksum : Checksum} {content left : Bytes}
    (h : Log.parse left = (Log.parse content).mended checksum) :
    Decodes checksum content (Log.parse content) ⟨(Log.parse content).used,
      (Log.parse content).live checksum, (Log.parse content).isClean⟩ left where
  log_iff _ := Log.decodes_iff
  used_eq := rfl
  used_le := Log.used_le content
  live_eq := List.countP_congr fun r hr => by
    rw [decide_eq_true_eq]
    exact Record.isLive_iff_intact (Log.wellFormed_of_mem_parse hr)
  clean_iff := by
    rw [Log.drop_used, Log.isClean, isBlank_iff]
  left_eq := by
    rw [← Log.toBytes_parse left, h, Log.toBytes, Log.mended]
    congr 2
    refine List.map_congr_left fun r hr => ?_
    simp only [Record.mended_eq, Record.isLive_iff_intact (Log.wellFormed_of_mem_parse hr)]

namespace Partition

variable {p : Partition} {page : Nat} {content : Bytes} {cells : Cells}

/-- Replays what is left of a content from an offset on, with so many live records before it. -/
def replayFrom (p : Partition) (page offset live : Nat) (content : Bytes) : AccessM Replay :=
  match _hsplit : Header.take? content with
  | none => return ⟨offset, live, isBlank content⟩
  | some (header, rest) =>
    if header.length = endOfLog then return ⟨offset, live, isBlank content⟩
    else if rest.length < header.length.toNat then return ⟨offset, live, false⟩
    else
      let payload := rest.take header.length.toNat
      if header.carriesValue then
        if header.key = blankKey ∨ header.verify p.chip.checksum payload = false then do
          p.writeTombstone page offset
          p.replayFrom page (offset + header.recordSize) live (rest.drop header.length.toNat)
        else
          p.replayFrom page (offset + header.recordSize) (live + 1) (rest.drop header.length.toNat)
      else p.replayFrom page (offset + header.recordSize) live (rest.drop header.length.toNat)
termination_by content.length
decreasing_by
  all_goals
    rw [Header.length_of_take? _hsplit, List.length_drop, headerSize]
    omega

/-- Replays the content of a page. -/
def replay (p : Partition) (page : Nat) (content : Bytes) : AccessM Replay :=
  p.replayFrom page 0 0 content

/-- Reads the records of what is left of a content first, and drops the damaged ones afterwards. -/
def recoverFrom (p : Partition) (page offset live : Nat) (content : Bytes) : AccessM Replay := do
  let log := Log.parse content
  let damaged := (Log.locate offset log.records).filter (·.2.isDamaged p.chip.checksum)
  (damaged.map (·.1)).forM (p.writeTombstone page)
  return ⟨offset + log.used, live + log.live p.chip.checksum, log.isClean⟩

theorem recoverFrom_of_ends (offset live : Nat) (h : Log.Ends content) :
    p.recoverFrom page offset live content = pure ⟨offset, live, isBlank content⟩ := by
  rw [recoverFrom, Log.parse_of_ends h]
  rfl

/-- The first record is dropped if it is damaged, and counted if it is live. -/
theorem recoverFrom_of_take? (offset live : Nat) {header : Header} {rest : Bytes}
    (hsome : Header.take? content = some (header, rest)) (hmark : header.length ≠ endOfLog)
    (hroom : header.length.toNat ≤ rest.length) :
    let record : Record := ⟨header, rest.take header.length.toNat⟩
    p.recoverFrom page offset live content =
      (if record.isDamaged p.chip.checksum then p.writeTombstone page offset else pure ()) >>= fun _ =>
        p.recoverFrom page (offset + header.recordSize)
          (if record.isLive p.chip.checksum then live + 1 else live) (rest.drop header.length.toNat) := by
  intro record
  have hlive : ∀ n, (if record.isLive p.chip.checksum = true then live + 1 else live) + n =
      live + (n + if record.isLive p.chip.checksum = true then 1 else 0) := by
    intro n
    split <;> omega
  rw [recoverFrom, recoverFrom, Log.parse_of_take? hsome hmark hroom]
  dsimp only
  rw [hlive, Log.locate, List.filter_cons, Nat.add_assoc]
  simp only [Log.live, List.countP_cons]
  by_cases hdamaged : record.isDamaged p.chip.checksum = true
  · rw [if_pos hdamaged, if_pos hdamaged, List.map_cons]
    exact bind_assoc _ _ _
  · rw [if_neg hdamaged, if_neg hdamaged, pure_bind]
    rfl

/-- **The records may as well be read before the first of them is dropped.** -/
theorem replayFrom_eq (p : Partition) (page offset live : Nat) (content : Bytes) :
    p.replayFrom page offset live content = p.recoverFrom page offset live content := by
  fun_induction replayFrom p page offset live content with
  | case1 offset live content hnone =>
    rw [recoverFrom_of_ends _ _ (.short (Header.length_lt_of_take? hnone))]
  | case2 offset live content header rest hsome hmark =>
    rw [recoverFrom_of_ends _ _ (Header.toBytes_of_take? hsome ▸ .marked hmark)]
  | case3 offset live content header rest hsome hmark hover =>
    have hclean : isBlank content = false := by
      rw [← Header.toBytes_of_take? hsome, ← Bool.not_eq_true, isBlank_iff]
      exact fun hblank => hmark (hblank _ List.mem_cons_self)
    rw [recoverFrom_of_ends _ _ (Header.toBytes_of_take? hsome ▸ .overrun hover), hclean]
  | case4 offset live content header rest hsome hmark hroom payload hcarries hdamaged ih =>
    have hlive : (⟨header, payload⟩ : Record).isLive p.chip.checksum = false := by
      rw [Record.isLive]
      rcases hdamaged with hkey | hverify
      · simp [hkey]
      · simp [hverify]
    have hdamaged' : (⟨header, payload⟩ : Record).isDamaged p.chip.checksum = true := by
      rw [Record.isDamaged, hlive, hcarries]
      rfl
    rw [recoverFrom_of_take? offset live hsome hmark (Nat.le_of_not_lt hroom), ih, if_pos hdamaged',
      hlive, if_neg Bool.false_ne_true]
  | case5 offset live content header rest hsome hmark hroom payload hcarries hsound ih =>
    rw [not_or, Bool.not_eq_false] at hsound
    have hlive : (⟨header, payload⟩ : Record).isLive p.chip.checksum = true := by
      rw [Record.isLive, hcarries, bne_iff_ne.mpr hsound.1, hsound.2]
      rfl
    have hsound' : (⟨header, payload⟩ : Record).isDamaged p.chip.checksum = false := by
      rw [Record.isDamaged, hlive, Bool.not_true, Bool.and_false]
    rw [recoverFrom_of_take? offset live hsome hmark (Nat.le_of_not_lt hroom), ih, hsound',
      if_neg Bool.false_ne_true, if_pos hlive, pure_bind]
  | case6 offset live content header rest hsome hmark hroom hempty ih =>
    rw [Bool.not_eq_true] at hempty
    have hlive : (⟨header, rest.take header.length.toNat⟩ : Record).isLive p.chip.checksum = false := by
      rw [Record.isLive, hempty, Bool.false_and, Bool.false_and]
    have hsound : (⟨header, rest.take header.length.toNat⟩ : Record).isDamaged p.chip.checksum =
        false := by
      rw [Record.isDamaged, hempty, Bool.false_and]
    rw [recoverFrom_of_take? offset live hsome hmark (Nat.le_of_not_lt hroom), ih, hsound, hlive,
      if_neg Bool.false_ne_true, if_neg Bool.false_ne_true, pure_bind]

theorem replay_eq (p : Partition) (page : Nat) (content : Bytes) :
    p.replay page content = do
      ((Log.parse content).damaged p.chip.checksum).forM (p.writeTombstone page)
      return ⟨(Log.parse content).used, (Log.parse content).live p.chip.checksum,
        (Log.parse content).isClean⟩ := by
  rw [replay, replayFrom_eq, recoverFrom]
  simp only [Nat.zero_add]
  rfl

/-- **A scan replays the log of an active or full page**, and moves the page on if the log asks for it. -/
theorem recoverPage_eq_replay (p : Partition) (page : Nat) (status : PageStatus) (content : Bytes) :
    p.recoverPage page status content = do
      let replay ← p.replay page content
      let status ← p.advanceIf page (status.kind == .active && !replay.clean) status .full
      let status ← p.advanceIf page (status.kind == .full && replay.live == 0) status .unavailable
      return ⟨status, replay.used, replay.live⟩ := by
  rw [recoverPage, replay_eq, bind_assoc]
  rfl

/-- Without a damaged record a replay makes no access. -/
theorem replay_of_sound (h : (Log.parse content).damaged p.chip.checksum = []) :
    p.replay page content = pure ⟨(Log.parse content).used, (Log.parse content).live p.chip.checksum,
      (Log.parse content).isClean⟩ := by
  rw [replay_eq, h]
  rfl

/-- **A second replay makes no access and gives the same.** -/
theorem replay_mended {content' : Bytes}
    (h : Log.parse content' = (Log.parse content).mended p.chip.checksum) :
    p.replay page content' = pure ⟨(Log.parse content).used,
      (Log.parse content).live p.chip.checksum, (Log.parse content).isClean⟩ := by
  rw [replay_of_sound (h ▸ Log.damaged_mended), h, Log.used_mended, Log.live_mended,
    Log.isClean_mended]

/-! ## What a replay leaves -/

/-- All cells but those of the content of a page are as they were. -/
def Beside (p : Partition) (page : Nat) (cells after : Cells) : Prop :=
  ∀ position, ¬(p.contentAddress page 0 ≤ position ∧
    position < p.contentAddress page p.contentSize) → after[position]? = cells[position]?

theorem Beside.refl (p : Partition) (page : Nat) (cells : Cells) : p.Beside page cells cells :=
  fun _ _ => rfl

theorem Beside.trans {after last : Cells} (h : p.Beside page cells after)
    (h' : p.Beside page after last) : p.Beside page cells last :=
  fun position hout => (h' position hout).trans (h position hout)

theorem beside_program {offset : Nat} {bytes : Bytes} (h : offset + bytes.length ≤ p.contentSize) :
    p.Beside page cells (cells.program (p.contentAddress page offset) bytes) := by
  intro position hout
  have hones : Cells.byteAt (p.contentAddress page offset) bytes position = 0xFF := by
    simp only [contentAddress] at hout ⊢
    rcases Nat.lt_or_ge position (p.pageAddress page + statusSize + offset) with hlt | hge
    · exact Cells.byteAt_of_lt _ hlt
    · exact Cells.byteAt_of_le (by omega)
  rw [Cells.getElem?_program, hones]
  simp [Cells.and_ones]

/-- The damaged records of a page are dropped one after the other, and nothing else is changed. -/
theorem succeeds_dropDamaged (hreach : p.Reachable page) {log : Log}
    (hlog : Log.parse ((p.image cells).content page) = log)
    (hlength : ((p.image cells).content page).length = p.contentSize) :
    AccessM.Succeeds ((log.damaged p.chip.checksum).forM (p.writeTombstone page)) cells
      fun _ after => Log.parse ((p.image after).content page) = log.mended p.chip.checksum ∧
        p.Beside page cells after := by
  -- What is left to drop are the records that are still damaged.
  refine (AccessM.succeeds_forM (fun offsets after => p.Beside page cells after ∧
    ((p.image after).content page).length = p.contentSize ∧
      (Log.parse ((p.image after).content page)).damaged p.chip.checksum = offsets ∧
        (Log.parse ((p.image after).content page)).mended p.chip.checksum =
          log.mended p.chip.checksum) ?_ ⟨.refl p page cells, hlength, by rw [hlog], by rw [hlog]⟩).mono ?_
  · rintro offset rest after ⟨hbeside, hlength', hdamaged, hmended⟩
    obtain ⟨before, record, behind, hrecords, rfl, hrecord⟩ :=
      Log.exists_of_mem_damaged (hdamaged ▸ List.mem_cons_self)
    have hlog' : Log.parse ((p.image after).content page) =
        ⟨before ++ record :: behind, (Log.parse ((p.image after).content page)).tail⟩ := by
      rw [← hrecords]
    have hfits : Log.span before + keyOffset + tombstoneBytes.length ≤ p.contentSize := by
      have hspan := Log.span_add_le_used hrecords
      have hused := Log.used_le ((p.image after).content page)
      have hsize : keyOffset + tombstoneBytes.length = headerSize := rfl
      omega
    refine (succeeds_writeContent hreach hfits).mono ?_
    rintro _ _ rfl
    have hparse := Log.parse_programmed_tombstone hrecords
    rw [image_program_content hfits, Image.content_setContent_self, length_programmed, hparse]
    refine ⟨hbeside.trans (beside_program hfits), hlength', ?_, ?_⟩
    · exact Log.damaged_dropped_of_cons (hlog' ▸ hdamaged)
    · rw [Log.mended_dropped hrecord, ← hlog', hmended]
  · rintro _ after ⟨hbeside, -, hsound, hmended⟩
    exact ⟨(Log.mended_of_sound hsound).symm.trans hmended, hbeside⟩

/-- **What a replay gives, and what it leaves.** -/
theorem succeeds_replay (hreach : p.Reachable page) {log : Log}
    (hlog : Log.parse ((p.image cells).content page) = log)
    (hlength : ((p.image cells).content page).length = p.contentSize) :
    AccessM.Succeeds (p.replay page ((p.image cells).content page)) cells fun found after =>
      found = ⟨log.used, log.live p.chip.checksum, log.isClean⟩ ∧
        Log.parse ((p.image after).content page) = log.mended p.chip.checksum ∧
        p.Beside page cells after := by
  rw [replay_eq, hlog]
  refine (succeeds_dropDamaged hreach hlog hlength).bind ?_
  exact fun _ _ hleft => AccessM.succeeds_pure ⟨rfl, hleft⟩

end Partition

end RingStore
