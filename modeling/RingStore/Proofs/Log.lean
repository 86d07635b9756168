import RingStore.Flash.Cells
import RingStore.Page.Log

/-!
# What writes do to the log of a page

A page is only ever written in two ways: a record is appended behind the others, or the key of a
record is cleared.  Both are programming, which clears bits of the content.  Reading the log of the
programmed content gives the log with the record added, or with the record dropped; all other records
keep their offsets, since a dropped record keeps its length.

## Main statements

* `Log.parse_flatMap_append`: records that were written one after the other are read back.
* `Log.parse_programmed_record`: what an append does to a log with a blank tail.
* `Log.parse_programmed_tombstone`: what clearing a key does.
-/

namespace RingStore

/-! ## Programming a content -/

/-- A content after bytes were programmed at an offset. -/
def programmed (content : Bytes) (offset : Nat) (bytes : Bytes) : Bytes :=
  content.mapIdx fun i b => b &&& Cells.byteAt offset bytes i

@[simp] theorem length_programmed (content : Bytes) (offset : Nat) (bytes : Bytes) :
    (programmed content offset bytes).length = content.length := List.length_mapIdx

theorem getElem?_programmed (content : Bytes) (offset : Nat) (bytes : Bytes) (i : Nat) :
    (programmed content offset bytes)[i]? =
      content[i]?.map (· &&& Cells.byteAt offset bytes i) := by
  rw [programmed, List.getElem?_mapIdx]

theorem Cells.byteAt_of_lt {start position : Nat} (bytes : Bytes) (h : position < start) :
    Cells.byteAt start bytes position = 0xFF := if_neg (by omega)

theorem Cells.byteAt_of_le {start position : Nat} {bytes : Bytes}
    (h : start + bytes.length ≤ position) : Cells.byteAt start bytes position = 0xFF := by
  rw [Cells.byteAt, if_pos (by omega), List.getD_eq_getElem?_getD,
    List.getElem?_eq_none (by omega), Option.getD_none]

theorem Cells.byteAt_add (start : Nat) (bytes : Bytes) (i : Nat) :
    Cells.byteAt start bytes (start + i) = bytes.getD i 0xFF := by
  rw [Cells.byteAt, if_pos (Nat.le_add_right _ _), Nat.add_sub_cancel_left]

/-- Programming changes nothing outside its range, and combines the bytes within it. -/
theorem programmed_append (before middle after bytes : Bytes)
    (h : middle.length = bytes.length) :
    programmed (before ++ (middle ++ after)) before.length bytes =
      before ++ (List.zipWith (· &&& ·) middle bytes ++ after) := by
  refine List.ext_getElem? fun i => ?_
  rw [getElem?_programmed]
  rcases Nat.lt_or_ge i before.length with hlt | hge
  · rw [List.getElem?_append_left hlt, List.getElem?_append_left hlt, Cells.byteAt_of_lt _ hlt]
    simp [Cells.and_ones]
  · obtain ⟨i, rfl⟩ := Nat.exists_eq_add_of_le hge
    have hzip : (List.zipWith (· &&& ·) middle bytes).length = middle.length := by simp [h]
    rw [List.getElem?_append_right hge, List.getElem?_append_right hge, Nat.add_sub_cancel_left,
      Cells.byteAt_add]
    rcases Nat.lt_or_ge i middle.length with hlt | hge'
    · rw [List.getElem?_append_left hlt, List.getElem?_append_left (by omega),
        List.getElem?_zipWith, List.getElem?_eq_getElem hlt,
        List.getElem?_eq_getElem (h ▸ hlt), List.getD_eq_getElem?_getD,
        List.getElem?_eq_getElem (h ▸ hlt)]
      rfl
    · rw [List.getElem?_append_right hge', List.getElem?_append_right (by omega), hzip,
        List.getD_eq_getElem?_getD, List.getElem?_eq_none (by omega : bytes.length ≤ i)]
      simp [Cells.and_ones]

theorem programmed_nil (content : Bytes) (offset : Nat) : programmed content offset [] = content := by
  refine List.ext_getElem? fun i => ?_
  rw [getElem?_programmed]
  rcases Nat.lt_or_ge i offset with hlt | hge
  · simp [Cells.byteAt_of_lt _ hlt, Cells.and_ones]
  · have hout : Cells.byteAt offset [] i = 0xFF := Cells.byteAt_of_le hge
    simp [hout, Cells.and_ones]

/-- Programming a range reads the same beyond it. -/
theorem drop_programmed (content bytes : Bytes) {offset start : Nat}
    (h : offset + bytes.length ≤ start) :
    (programmed content offset bytes).drop start = content.drop start := by
  refine List.ext_getElem? fun i => ?_
  rw [List.getElem?_drop, List.getElem?_drop, getElem?_programmed, Cells.byteAt_of_le (by omega)]
  simp [Cells.and_ones]

theorem isBlank_append {a b : Bytes} : isBlank (a ++ b) = (isBlank a && isBlank b) :=
  List.all_append

theorem isBlank_drop {bytes : Bytes} (h : isBlank bytes = true) (n : Nat) :
    isBlank (bytes.drop n) = true := by
  rw [isBlank_iff] at h ⊢
  exact fun b hb => h b (List.mem_of_mem_drop hb)

theorem isBlank_replicate (n : Nat) : isBlank (List.replicate n 0xFF) = true := by
  rw [isBlank_iff]
  exact fun b hb => (List.mem_replicate.mp hb).2

theorem eq_replicate_of_isBlank {bytes : Bytes} (h : isBlank bytes = true) :
    bytes = List.replicate bytes.length 0xFF :=
  List.eq_replicate_iff.mpr ⟨rfl, isBlank_iff.mp h⟩

theorem zipWith_replicate_ones (bytes : Bytes) :
    List.zipWith (· &&& ·) (List.replicate bytes.length 0xFF) bytes = bytes := by
  induction bytes with
  | nil => rfl
  | cons b rest ih =>
    have hb : (0xFF : UInt8) &&& b = b := by rw [UInt8.and_comm]; exact Cells.and_ones b
    rw [List.length_cons, List.replicate_succ, List.zipWith_cons_cons, ih, hb]

/-! ## Records in a row -/

namespace Record

/-- The payload has the length that the header gives, and the header does not end the log. -/
def WellFormed (record : Record) : Prop :=
  record.payload.length = record.header.length.toNat ∧ record.header.length ≠ endOfLog

/-- The bytes a record takes. -/
def size (record : Record) : Nat := record.header.recordSize

theorem WellFormed.length_toBytes {record : Record} (h : record.WellFormed) :
    record.toBytes.length = record.size := by
  rw [toBytes, List.length_append, Header.length_toBytes, h.1]
  rfl

/-- A record under another key. -/
def withKey (record : Record) (key : UInt16) : Record :=
  ⟨{ record.header with key }, record.payload⟩

theorem withKey_self (record : Record) : record.withKey record.header.key = record := rfl

theorem WellFormed.withKey {record : Record} (h : record.WellFormed) (key : UInt16) :
    (record.withKey key).WellFormed := h

/-- A record with its key cleared. -/
def dropped (record : Record) : Record :=
  ⟨{ record.header with key := tombstoneKey }, record.payload⟩

@[simp] theorem size_dropped (record : Record) : record.dropped.size = record.size := rfl

@[simp] theorem isLive_dropped (checksum : Checksum) (record : Record) :
    record.dropped.isLive checksum = false := rfl

@[simp] theorem isDamaged_dropped (checksum : Checksum) (record : Record) :
    record.dropped.isDamaged checksum = false := rfl

theorem carriesValue_of_isLive {checksum : Checksum} {record : Record}
    (h : record.isLive checksum = true) : record.header.carriesValue = true := by
  rw [isLive, Bool.and_eq_true, Bool.and_eq_true] at h
  exact h.1.1

/-- The record of a value that can be stored is well formed. -/
theorem wellFormed_ofPayload (checksum : Checksum) (key : UInt16) {payload : Bytes}
    (h : payload.length ≤ maxPayloadLength) : (ofPayload checksum key payload).WellFormed := by
  have hle : payload.length ≤ 254 := h
  have hlength : (UInt8.ofNat payload.length).toNat = payload.length :=
    UInt8.toNat_ofNat_of_lt (Nat.lt_of_le_of_lt hle (by decide))
  refine ⟨hlength.symm, fun hend => ?_⟩
  have hbyte : (UInt8.ofNat payload.length).toNat = 255 := congrArg UInt8.toNat hend
  omega

theorem size_ofPayload (checksum : Checksum) (key : UInt16) {payload : Bytes}
    (h : payload.length ≤ maxPayloadLength) :
    (ofPayload checksum key payload).size = headerSize + payload.length :=
  congrArg (headerSize + ·) (wellFormed_ofPayload checksum key h).1.symm

/-- The record of a value under a valid key is live. -/
theorem isLive_ofPayload (checksum : Checksum) {key : UInt16} {payload : Bytes}
    (hkey : isValidKey key = true) (hne : payload ≠ []) (h : payload.length ≤ maxPayloadLength) :
    (ofPayload checksum key payload).isLive checksum = true := by
  have hlength := (wellFormed_ofPayload checksum key h).1
  have hvoid : (ofPayload checksum key payload).header.length ≠ 0 := by
    intro hzero
    rw [hzero] at hlength
    exact hne (List.eq_nil_of_length_eq_zero hlength)
  rw [isValidKey, Bool.and_eq_true, bne_iff_ne, bne_iff_ne] at hkey
  have hcarries : (ofPayload checksum key payload).header.carriesValue = true := by
    simp only [Header.carriesValue, Header.isTombstone, Header.isVoid, Bool.and_eq_true,
      Bool.not_eq_true', beq_eq_false_iff_ne]
    exact ⟨hkey.1, hvoid⟩
  have hverify : (ofPayload checksum key payload).header.verify checksum payload = true := by
    rw [Header.verify, Bool.and_eq_true, beq_iff_eq, beq_iff_eq]
    exact ⟨hlength, rfl⟩
  rw [isLive, hcarries, Bool.true_and, Bool.and_eq_true]
  exact ⟨bne_iff_ne.mpr hkey.2, hverify⟩

end Record

namespace Log

variable {records : List Record} {record : Record} {content tail : Bytes}

/-- The bytes that records take in a row. -/
def span (records : List Record) : Nat := records.foldr (·.size + ·) 0

@[simp] theorem span_nil : span [] = 0 := rfl

@[simp] theorem span_cons (record : Record) (rest : List Record) :
    span (record :: rest) = record.size + span rest := rfl

@[simp] theorem span_append (a b : List Record) : span (a ++ b) = span a + span b := by
  induction a with
  | nil => simp
  | cons record rest ih => rw [List.cons_append, span_cons, span_cons, ih, Nat.add_assoc]

theorem used_eq_span (log : Log) : log.used = span log.records := rfl

theorem length_le_span (records : List Record) : 4 * records.length ≤ span records := by
  induction records with
  | nil => exact Nat.le_refl 0
  | cons record rest ih =>
    have hsize : 4 ≤ record.size := Nat.le_add_right _ _
    rw [List.length_cons, span_cons]
    omega

theorem length_flatMap_toBytes (h : ∀ r ∈ records, r.WellFormed) :
    (records.flatMap Record.toBytes).length = span records := by
  induction records with
  | nil => rfl
  | cons record rest ih =>
    rw [List.flatMap_cons, List.length_append, span_cons, ih fun r hr => h r (by simp [hr]),
      (h record (by simp)).length_toBytes]

/-! ## Reading a log -/

/-- A written record is read back, and the log goes on behind it. -/
theorem parse_toBytes_append (h : record.WellFormed) (rest : Bytes) :
    parse (record.toBytes ++ rest) =
      ⟨record :: (parse rest).records, (parse rest).tail⟩ := by
  have hsplit : Header.take? (record.toBytes ++ rest) =
      some (record.header, record.payload ++ rest) := by
    rw [Record.toBytes, List.append_assoc]
    exact Header.take?_toBytes_append _ _
  have htake : (record.payload ++ rest).take record.header.length.toNat = record.payload :=
    List.take_left' h.1
  have hdrop : (record.payload ++ rest).drop record.header.length.toNat = rest :=
    List.drop_left' h.1
  rw [parse]
  split
  · next hnone => rw [hsplit] at hnone; cases hnone
  · next header rest' hsome =>
    rw [hsplit] at hsome
    cases hsome
    have hlength : ¬record.payload.length < record.header.length.toNat := by
      rw [h.1]
      exact Nat.lt_irrefl _
    simp only [if_neg h.2, htake, hdrop, if_neg hlength]

theorem parse_flatMap_append (h : ∀ r ∈ records, r.WellFormed) (rest : Bytes) :
    parse (records.flatMap Record.toBytes ++ rest) =
      ⟨records ++ (parse rest).records, (parse rest).tail⟩ := by
  induction records with
  | nil => rfl
  | cons record rest' ih =>
    rw [List.flatMap_cons, List.append_assoc, parse_toBytes_append (h record (by simp)),
      ih fun r hr => h r (by simp [hr])]
    rfl

/-- Nothing is read from unprogrammed bytes. -/
theorem parse_of_isBlank (h : isBlank content = true) : parse content = ⟨[], content⟩ := by
  rw [parse]
  split
  · rfl
  · next header rest hsome =>
    have hbytes := Header.toBytes_of_take? hsome
    have hlength : header.length = endOfLog := by
      rw [isBlank_iff] at h
      apply h
      rw [← hbytes]
      simp [Header.toBytes]
    rw [if_pos hlength]

theorem wellFormed_of_mem_parse (h : record ∈ (parse content).records) : record.WellFormed := by
  refine ⟨length_payload_of_mem_parse h, ?_⟩
  fun_induction parse content with
  | case1 => cases h
  | case2 => cases h
  | case3 => cases h
  | case4 content header rest _ hlength payload _ log ih =>
    rcases List.mem_cons.mp h with rfl | hmem
    · exact hlength
    · exact ih hmem

/-- The log of a tail has no records. -/
theorem parse_tail (content : Bytes) :
    parse (parse content).tail = ⟨[], (parse content).tail⟩ := by
  fun_induction parse content with
  | case1 content h =>
    rw [parse]
    split
    · rfl
    · next hsome => rw [h] at hsome; cases hsome
  | case2 content header rest h hlength =>
    rw [parse]
    split
    · rfl
    · next hsome =>
      rw [h] at hsome
      cases hsome
      rw [if_pos hlength]
  | case3 content header rest h hlength payload hshort =>
    rw [parse]
    split
    · rfl
    · next hsome =>
      rw [h] at hsome
      cases hsome
      rw [if_neg hlength]
      exact if_pos hshort
  | case4 content header rest h hlength payload hshort log ih => exact ih

theorem eq_flatMap_append (content : Bytes) :
    content = (parse content).records.flatMap Record.toBytes ++ (parse content).tail :=
  (toBytes_parse content).symm

theorem used_add_length_tail (content : Bytes) :
    (parse content).used + (parse content).tail.length = content.length := by
  conv => rhs; rw [eq_flatMap_append content]
  rw [List.length_append, length_flatMap_toBytes fun r hr => wellFormed_of_mem_parse hr,
    used_eq_span]

theorem used_le (content : Bytes) : (parse content).used ≤ content.length :=
  Nat.le.intro (used_add_length_tail content)

/-- The bytes from a record on are the bytes of that record and all that follow. -/
theorem drop_span (before after : List Record) (h : (parse content).records = before ++ after) :
    content.drop (span before) = after.flatMap Record.toBytes ++ (parse content).tail := by
  have hbefore : ∀ r ∈ before, r.WellFormed := by
    intro r hr
    have hmem : r ∈ (parse content).records := by rw [h]; simp [hr]
    exact wellFormed_of_mem_parse hmem
  conv => lhs; rw [eq_flatMap_append content]
  rw [h, List.flatMap_append, List.append_assoc]
  exact List.drop_left' (length_flatMap_toBytes hbefore)

/-! ## Records with their offsets -/

theorem locate_append (offset : Nat) (a b : List Record) :
    locate offset (a ++ b) = locate offset a ++ locate (offset + span a) b := by
  induction a generalizing offset with
  | nil => rfl
  | cons record rest ih =>
    rw [List.cons_append, locate, locate, ih, span_cons, ← Nat.add_assoc]
    rfl

@[simp] theorem map_snd_locate (offset : Nat) (records : List Record) :
    (locate offset records).map (·.2) = records := by
  induction records generalizing offset with
  | nil => rfl
  | cons record rest ih => rw [locate, List.map_cons, ih]

theorem mem_locate {offset : Nat} {entry : Nat × Record} (h : entry ∈ locate offset records) :
    ∃ a b, records = a ++ entry.2 :: b ∧ entry.1 = offset + span a := by
  induction records generalizing offset with
  | nil => cases h
  | cons record rest ih =>
    rcases List.mem_cons.mp h with rfl | hmem
    · exact ⟨[], rest, rfl, rfl⟩
    · obtain ⟨a, b, hrest, hoffset⟩ := ih hmem
      refine ⟨record :: a, b, by rw [hrest]; rfl, ?_⟩
      rw [hoffset, span_cons, ← Nat.add_assoc]
      rfl

theorem le_of_mem_locate {offset : Nat} {entry : Nat × Record}
    (h : entry ∈ locate offset records) :
    offset ≤ entry.1 ∧ entry.1 + entry.2.size ≤ offset + span records := by
  obtain ⟨a, b, rfl, hoffset⟩ := mem_locate h
  rw [span_append, span_cons]
  omega

/-- Located records follow one another. -/
theorem pairwise_locate (offset : Nat) (records : List Record) :
    (locate offset records).Pairwise fun x y => x.1 + x.2.size ≤ y.1 := by
  induction records generalizing offset with
  | nil => exact List.Pairwise.nil
  | cons record rest ih =>
    exact List.pairwise_cons.mpr ⟨fun entry hentry => (le_of_mem_locate hentry).1, ih _⟩

/-- Dropping a record takes it, and no other, from the records that pass a test. -/
theorem filter_locate_dropped (test : Record → Bool) {record : Record}
    (htest : test record.dropped = false) (offset : Nat) (a b : List Record) :
    (locate offset (a ++ record.dropped :: b)).filter (test ·.2) =
      ((locate offset (a ++ record :: b)).filter (test ·.2)).filter (·.1 != offset + span a) := by
  -- The records before end where the dropped one begins, and those after begin where it ends.
  have hbefore : ((locate offset a).filter (test ·.2)).filter (·.1 != offset + span a) =
      (locate offset a).filter (test ·.2) := by
    refine List.filter_eq_self.mpr fun entry hentry => bne_iff_ne.mpr ?_
    have hle := le_of_mem_locate (List.mem_filter.mp hentry).1
    have hpos : 0 < entry.2.size := entry.2.header.recordSize_pos
    omega
  have hafter : ((locate (offset + span a + record.size) b).filter (test ·.2)).filter
      (·.1 != offset + span a) = (locate (offset + span a + record.size) b).filter (test ·.2) := by
    refine List.filter_eq_self.mpr fun entry hentry => bne_iff_ne.mpr ?_
    have hle := le_of_mem_locate (List.mem_filter.mp hentry).1
    have hpos : 0 < record.size := record.header.recordSize_pos
    omega
  have hsize : ∀ r : Record, locate (offset + span a) (r :: b) =
      (offset + span a, r) :: locate (offset + span a + r.size) b := fun _ => rfl
  rw [locate_append, locate_append, List.filter_append, List.filter_append, List.filter_append,
    hbefore, hsize, hsize, Record.size_dropped, List.filter_cons_of_neg (by simp [htest])]
  by_cases hrecord : test record = true
  · rw [List.filter_cons_of_pos (by simpa using hrecord), List.filter_cons_of_neg (by simp), hafter]
  · rw [List.filter_cons_of_neg (by simpa using hrecord), hafter]

/-- The records that pass a test, with a record in the place of another one of its size. -/
theorem mem_filter_locate_exchanged (test : Record → Bool) {record other : Record}
    (htest : test record.dropped = false) (hsize : other.size = record.size) (offset : Nat)
    (a b : List Record) (entry : Nat × Record) :
    entry ∈ (locate offset (a ++ other :: b)).filter (test ·.2) ↔
      entry ∈ ((locate offset (a ++ record :: b)).filter (test ·.2)).filter (·.1 != offset + span a) ∨
        test other = true ∧ entry = (offset + span a, other) := by
  have hnext : ∀ r : Record, locate (offset + span a) (r :: b) =
      (offset + span a, r) :: locate (offset + span a + r.size) b := fun _ => rfl
  rw [← filter_locate_dropped test htest]
  simp only [locate_append, hnext, List.filter_append, List.filter_cons, Record.size_dropped, hsize,
    htest, List.mem_append, Bool.false_eq_true, if_false]
  by_cases hother : test other = true
  · rw [if_pos hother, List.mem_cons, or_assoc, and_iff_right hother]
    exact or_congr_right or_comm
  · rw [if_neg hother]
    simp [hother]

/-- The live records with their offsets. -/
def liveRecords (checksum : Checksum) (log : Log) : List (Nat × Record) :=
  (locate 0 log.records).filter (·.2.isLive checksum)

theorem live_eq_length (checksum : Checksum) (log : Log) :
    log.live checksum = (log.liveRecords checksum).length := by
  conv => lhs; rw [live, ← map_snd_locate 0 log.records, List.countP_map]
  rw [liveRecords, List.countP_eq_length_filter]
  rfl

theorem live_le_used (checksum : Checksum) (log : Log) : 4 * log.live checksum ≤ log.used := by
  have hcount : log.live checksum ≤ log.records.length := List.countP_le_length
  have hspan := length_le_span log.records
  rw [used_eq_span]
  omega

/-- The header of a record lies within the records of its log. -/
theorem span_add_le_used {log : Log} {before after : List Record} {record : Record}
    (h : log.records = before ++ record :: after) : span before + headerSize ≤ log.used := by
  have hsize : headerSize ≤ record.size := Nat.le_add_right _ _
  rw [used_eq_span, h, span_append, span_cons]
  omega

/-- No record is damaged if and only if all records that claim a value are live. -/
theorem damaged_eq_nil_iff {checksum : Checksum} {log : Log} :
    log.damaged checksum = [] ↔
      ∀ r ∈ log.records, r.header.carriesValue = true → r.isLive checksum = true := by
  rw [damaged, List.map_eq_nil_iff, List.filter_eq_nil_iff]
  conv => rhs; rw [← map_snd_locate 0 log.records]
  rw [List.forall_mem_map]
  refine forall₂_congr fun entry _ => ?_
  simp only [Record.isDamaged, Bool.and_eq_true, Bool.not_eq_true', not_and, Bool.not_eq_false]

theorem exists_of_mem_damaged {checksum : Checksum} {log : Log} {offset : Nat}
    (h : offset ∈ log.damaged checksum) : ∃ before record after,
      log.records = before ++ record :: after ∧ offset = span before ∧
        record.isDamaged checksum = true := by
  obtain ⟨entry, hentry, rfl⟩ := List.mem_map.mp h
  obtain ⟨hmem, hdamaged⟩ := List.mem_filter.mp hentry
  obtain ⟨before, after, hrecords, hoffset⟩ := mem_locate hmem
  exact ⟨before, entry.2, after, hrecords, by rw [hoffset, Nat.zero_add], hdamaged⟩

theorem nodup_damaged (checksum : Checksum) (log : Log) : (log.damaged checksum).Nodup := by
  refine List.pairwise_map.mpr (List.Pairwise.filter _ ((pairwise_locate 0 _).imp fun {x y} hle => ?_))
  have hpos : 0 < x.2.size := x.2.header.recordSize_pos
  omega

/-! ## Changes of a log -/

theorem littleEndian_two_and (v : Nat) :
    List.zipWith (· &&& ·) (littleEndian 2 v) tombstoneBytes = tombstoneBytes := by
  simp [littleEndian, tombstoneBytes, tombstoneKey]

/-- Programming the key of a record changes its key. -/
theorem parse_programmed_key {before after : List Record}
    (h : (parse content).records = before ++ record :: after) {bytes : Bytes} {key : UInt16}
    (hlength : bytes.length = 2)
    (hkey : List.zipWith (· &&& ·) (littleEndian 2 record.header.key.toNat) bytes =
      littleEndian 2 key.toNat) :
    parse (programmed content (span before + keyOffset) bytes) =
      ⟨before ++ record.withKey key :: after, (parse content).tail⟩ := by
  have hwf : ∀ r ∈ before ++ record :: after, r.WellFormed := fun r hr =>
    wellFormed_of_mem_parse (h ▸ hr)
  have hwf' : ∀ r ∈ before ++ record.withKey key :: after, r.WellFormed := by
    intro r hr
    rcases List.mem_append.mp hr with hmem | hmem
    · exact hwf r (by simp [hmem])
    · rcases List.mem_cons.mp hmem with rfl | hmem
      · exact (hwf record (by simp)).withKey key
      · exact hwf r (by simp [hmem])
  have hspan : (before.flatMap Record.toBytes).length = span before :=
    length_flatMap_toBytes fun r hr => hwf r (by simp [hr])
  -- The content is cut where the key of the record begins.
  have hcontent : content = (before.flatMap Record.toBytes ++
      [record.header.length, record.header.crc]) ++ (littleEndian 2 record.header.key.toNat ++
        (record.payload ++ (after.flatMap Record.toBytes ++ (parse content).tail))) := by
    conv => lhs; rw [eq_flatMap_append content, h]
    simp only [List.flatMap_append, List.flatMap_cons, Record.toBytes, Header.toBytes,
      List.append_assoc, List.cons_append, List.nil_append]
  have hoffset : span before + keyOffset = (before.flatMap Record.toBytes ++
      [record.header.length, record.header.crc]).length := by
    rw [List.length_append, hspan]
    rfl
  have hprogrammed : programmed content (span before + keyOffset) bytes =
      (before ++ record.withKey key :: after).flatMap Record.toBytes ++ (parse content).tail := by
    conv => lhs; rw [hcontent, hoffset]
    rw [programmed_append _ _ _ _ (by simp [hlength]), hkey]
    simp only [List.flatMap_append, List.flatMap_cons, Record.toBytes, Header.toBytes,
      Record.withKey, List.append_assoc, List.cons_append, List.nil_append]
  rw [hprogrammed, parse_flatMap_append hwf', parse_tail, List.append_nil]

/-- **Clearing the key of a record drops it** and leaves all others in place. -/
theorem parse_programmed_tombstone {before after : List Record}
    (h : (parse content).records = before ++ record :: after) :
    parse (programmed content (span before + keyOffset) tombstoneBytes) =
      ⟨before ++ record.dropped :: after, (parse content).tail⟩ :=
  parse_programmed_key h rfl (littleEndian_two_and _)

/-- **Programming a record over a blank tail appends it.** -/
theorem parse_programmed_record (hblank : isBlank (parse content).tail = true)
    (hrecord : record.WellFormed) (hroom : record.size ≤ (parse content).tail.length) :
    parse (programmed content (parse content).used record.toBytes) =
      ⟨(parse content).records ++ [record], (parse content).tail.drop record.size⟩ := by
  have hwf : ∀ r ∈ (parse content).records, r.WellFormed := fun r hr => wellFormed_of_mem_parse hr
  have hwf' : ∀ r ∈ (parse content).records ++ [record], r.WellFormed := by
    intro r hr
    rcases List.mem_append.mp hr with hmem | hmem
    · exact hwf r hmem
    · rw [List.mem_singleton.mp hmem]
      exact hrecord
  have hspan : (parse content).used = ((parse content).records.flatMap Record.toBytes).length :=
    (length_flatMap_toBytes hwf).symm
  have hlength := hrecord.length_toBytes
  -- The tail is cut where the record will end.
  have hsplit := List.take_append_drop record.size (parse content).tail
  have hblanks : isBlank ((parse content).tail.take record.size) = true ∧
      isBlank ((parse content).tail.drop record.size) = true := by
    rw [← Bool.and_eq_true, ← isBlank_append, hsplit]
    exact hblank
  have htake : (parse content).tail.take record.size =
      List.replicate record.toBytes.length 0xFF := by
    rw [eq_replicate_of_isBlank hblanks.1, List.length_take, hlength, Nat.min_eq_left hroom]
  have hprogrammed : programmed content (parse content).used record.toBytes =
      ((parse content).records ++ [record]).flatMap Record.toBytes ++
        (parse content).tail.drop record.size := by
    conv => lhs; rw [hspan]; arg 1; rw [eq_flatMap_append content, ← hsplit, htake]
    rw [programmed_append _ _ _ _ (by simp), zipWith_replicate_ones]
    simp
  rw [hprogrammed, parse_flatMap_append hwf', parse_of_isBlank hblanks.2, List.append_nil]

/-- A dropped record is live no more; the other records are what they were. -/
theorem liveRecords_dropped (checksum : Checksum) (before after : List Record) (record : Record)
    (tail tail' : Bytes) :
    liveRecords checksum ⟨before ++ record.dropped :: after, tail⟩ =
      (liveRecords checksum ⟨before ++ record :: after, tail'⟩).filter (·.1 != span before) := by
  have h := filter_locate_dropped (·.isLive checksum) (Record.isLive_dropped checksum record) 0
    before after
  rw [Nat.zero_add] at h
  exact h

/-- Dropping a record that is not live changes no live one. -/
theorem liveRecords_dropped_of_not (checksum : Checksum) (before after : List Record)
    (record : Record) (tail tail' : Bytes) (hdead : record.isLive checksum = false) :
    liveRecords checksum ⟨before ++ record.dropped :: after, tail⟩ =
      liveRecords checksum ⟨before ++ record :: after, tail'⟩ := by
  simp only [liveRecords, locate_append, List.filter_append, locate, List.filter_cons,
    Record.isLive_dropped, hdead]
  rfl

theorem damaged_dropped (checksum : Checksum) (before after : List Record) (record : Record)
    (tail tail' : Bytes) :
    damaged checksum ⟨before ++ record.dropped :: after, tail⟩ =
      (damaged checksum ⟨before ++ record :: after, tail'⟩).filter (· != span before) := by
  have h := filter_locate_dropped (·.isDamaged checksum) (Record.isDamaged_dropped checksum record) 0
    before after
  rw [Nat.zero_add] at h
  rw [damaged, damaged, h, List.filter_map]
  rfl

/-- Dropping the first damaged record leaves the others damaged. -/
theorem damaged_dropped_of_cons {checksum : Checksum} {before after : List Record} {record : Record}
    {tail tail' : Bytes} {rest : List Nat}
    (h : damaged checksum ⟨before ++ record :: after, tail⟩ = span before :: rest) :
    damaged checksum ⟨before ++ record.dropped :: after, tail'⟩ = rest := by
  have hnodup := nodup_damaged checksum ⟨before ++ record :: after, tail⟩
  rw [h] at hnodup
  rw [damaged_dropped checksum before after record tail' tail, h,
    List.filter_cons_of_neg (by simp), List.filter_eq_self]
  intro other hother
  rw [bne_iff_ne]
  rintro rfl
  exact (List.nodup_cons.mp hnodup).1 hother

theorem used_dropped (before after : List Record) (record : Record) (tail tail' : Bytes) :
    used ⟨before ++ record.dropped :: after, tail⟩ =
      used ⟨before ++ record :: after, tail'⟩ := by
  simp [used_eq_span]

theorem liveRecords_append (checksum : Checksum) (records : List Record) (record : Record)
    (tail tail' : Bytes) (hlive : record.isLive checksum = true) :
    liveRecords checksum ⟨records ++ [record], tail⟩ =
      liveRecords checksum ⟨records, tail'⟩ ++ [(span records, record)] := by
  have hlast : locate (0 + span records) [record] = [(span records, record)] := by
    rw [Nat.zero_add]
    rfl
  rw [liveRecords, liveRecords, locate_append, List.filter_append, hlast]
  congr 1
  exact List.filter_cons_of_pos hlive

/-- Two logs agree in their live records and in where they end. -/
structure Agrees (checksum : Checksum) (log log' : Log) : Prop where
  live_eq : log'.liveRecords checksum = log.liveRecords checksum
  used_eq : log'.used = log.used
  tail_eq : log'.tail = log.tail

theorem Agrees.refl (checksum : Checksum) (log : Log) : Agrees checksum log log := ⟨rfl, rfl, rfl⟩

theorem Agrees.trans {checksum : Checksum} {log log' log'' : Log} (h : Agrees checksum log log')
    (h' : Agrees checksum log' log'') : Agrees checksum log log'' :=
  ⟨h'.live_eq.trans h.live_eq, h'.used_eq.trans h.used_eq, h'.tail_eq.trans h.tail_eq⟩

/-- Logs that agree count the same live records. -/
theorem Agrees.count_eq {checksum : Checksum} {log log' : Log} (h : Agrees checksum log log') :
    log'.live checksum = log.live checksum := by
  rw [live_eq_length, live_eq_length, h.live_eq]

/-- Dropping a damaged record. -/
theorem agrees_dropped {checksum : Checksum} {before after : List Record} {record : Record}
    {tail : Bytes} (hdamaged : record.isDamaged checksum = true) :
    Agrees checksum ⟨before ++ record :: after, tail⟩ ⟨before ++ record.dropped :: after, tail⟩ := by
  have hdead : record.isLive checksum = false := by
    rw [Record.isDamaged, Bool.and_eq_true, Bool.not_eq_true'] at hdamaged
    exact hdamaged.2
  exact ⟨liveRecords_dropped_of_not checksum before after record tail tail hdead,
    used_dropped before after record tail tail, rfl⟩

end Log

end RingStore
