import RingStore.Proofs.Access
import RingStore.Proofs.Holdings

/-!
# What a torn write leaves in a log

A write of a record that takes effect on a part of its bytes leaves the log as it is, or adds a record
that is `Record.cut`: only its first bytes are there, the others still have all bits set.  A tombstone
is two bytes, so one that takes effect in part may leave a record under another key, which has one byte
of the old key.

## Main statements

* `Log.parse_programmed_part`: what a part of a record leaves.
* `Log.parse_programmed_tombstone_part`: what a part of a tombstone leaves.
* `Holdings.live_programmed_part`, `Holdings.live_programmed_tombstone_part`: the same for the live
  records.
* `Holdings.Passes`: the live records while an operation goes on, with a torn write as its end.
-/

namespace RingStore

/-! ## Keys of which one byte is lost -/

namespace Key

/-- A key without its upper byte. -/
def low (key : UInt16) : UInt16 := UInt16.ofNat (key.toNat % 256)

/-- A key without its lower byte. -/
def high (key : UInt16) : UInt16 := UInt16.ofNat (key.toNat / 256 * 256)

/-- A key whose upper byte was never programmed. -/
def unfinished (key : UInt16) : UInt16 := UInt16.ofNat (0xFF00 + key.toNat % 256)

theorem toNat_low (key : UInt16) : (low key).toNat = key.toNat % 256 :=
  UInt16.toNat_ofNat_of_lt (Nat.lt_trans (Nat.mod_lt _ (by decide)) (by decide))

theorem toNat_high (key : UInt16) : (high key).toNat = key.toNat / 256 * 256 := by
  exact UInt16.toNat_ofNat_of_lt (Nat.lt_of_le_of_lt (Nat.div_mul_le_self _ _) key.toNat_lt)

theorem toNat_unfinished (key : UInt16) : (unfinished key).toNat = 0xFF00 + key.toNat % 256 :=
  UInt16.toNat_ofNat_of_lt (Nat.add_lt_add_left (Nat.mod_lt _ (by decide)) _)

/-- Neither half of a key is the blank one. -/
theorem low_ne_blankKey (key : UInt16) : low key ≠ blankKey := by
  intro heq
  have hnat : key.toNat % 256 = 0xFFFF := by rw [← toNat_low, heq]; rfl
  omega

theorem high_ne_blankKey (key : UInt16) : high key ≠ blankKey := by
  intro heq
  have hnat : key.toNat / 256 * 256 = 0xFFFF := by rw [← toNat_high, heq]; rfl
  omega

theorem littleEndian_two (v : Nat) : littleEndian 2 v = [UInt8.ofNat v, UInt8.ofNat (v / 256)] := rfl

theorem littleEndian_low (key : UInt16) :
    littleEndian 2 (low key).toNat = [UInt8.ofNat key.toNat, 0] := by
  rw [toNat_low]
  simp only [littleEndian, List.cons.injEq, and_true]
  exact ⟨by rw [← UInt8.toNat_inj, UInt8.toNat_ofNat', UInt8.toNat_ofNat']; omega,
    by rw [show key.toNat % 256 / 256 = 0 by omega]; rfl⟩

theorem littleEndian_high (key : UInt16) :
    littleEndian 2 (high key).toNat = [0, UInt8.ofNat (key.toNat / 256)] := by
  rw [toNat_high]
  simp only [littleEndian, List.cons.injEq, and_true]
  exact ⟨by rw [← UInt8.toNat_inj, UInt8.toNat_ofNat']; simp,
    by rw [show key.toNat / 256 * 256 / 256 = key.toNat / 256 by omega]⟩

theorem littleEndian_unfinished (key : UInt16) :
    littleEndian 2 (unfinished key).toNat = [UInt8.ofNat key.toNat, 0xFF] := by
  rw [toNat_unfinished]
  simp only [littleEndian, List.cons.injEq, and_true]
  exact ⟨by rw [← UInt8.toNat_inj, UInt8.toNat_ofNat', UInt8.toNat_ofNat']; omega,
    by rw [show (0xFF00 + key.toNat % 256) / 256 = 0xFF by omega]; rfl⟩

/-- The keys that a part of a tombstone leaves, with the bytes that are programmed over the key. -/
inductive Clears (key : UInt16) : UInt8 → UInt8 → UInt16 → Prop
  | nothing : Clears key 0xFF 0xFF key
  | lower : Clears key 0 0xFF (high key)
  | upper : Clears key 0xFF 0 (low key)
  | all : Clears key 0 0 tombstoneKey

/-- A key with one byte of another one. -/
def IsHalf (key half : UInt16) : Prop := half = high key ∨ half = low key

theorem IsHalf.ne_blankKey {key half : UInt16} (h : IsHalf key half) : half ≠ blankKey := by
  rcases h with rfl | rfl
  · exact high_ne_blankKey key
  · exact low_ne_blankKey key

theorem Clears.cases {key key' : UInt16} {lower upper : UInt8} (h : Clears key lower upper key') :
    key' = key ∨ key' = tombstoneKey ∨ IsHalf key key' := by
  cases h with
  | nothing => exact Or.inl rfl
  | lower => exact Or.inr (Or.inr (Or.inl rfl))
  | upper => exact Or.inr (Or.inr (Or.inr rfl))
  | all => exact Or.inr (Or.inl rfl)

theorem Clears.littleEndian_eq {key key' : UInt16} {lower upper : UInt8}
    (h : Clears key lower upper key') :
    List.zipWith (· &&& ·) (littleEndian 2 key.toNat) [lower, upper] = littleEndian 2 key'.toNat := by
  have hzero : ∀ b : UInt8, b &&& 0 = 0 := fun b => UInt8.and_zero
  cases h with
  | nothing => simp only [littleEndian_two, List.zipWith_cons_cons, Cells.and_ones,
      List.zipWith_nil_left]
  | lower =>
    rw [littleEndian_high]
    simp only [littleEndian_two, List.zipWith_cons_cons, hzero, Cells.and_ones, List.zipWith_nil_left]
  | upper =>
    rw [littleEndian_low]
    simp only [littleEndian_two, List.zipWith_cons_cons, hzero, Cells.and_ones, List.zipWith_nil_left]
  | all => exact Log.littleEndian_two_and _

end Key

/-! ## Records of which a part is there -/

namespace Record

/-- A live record stays live under another key that carries a value. -/
theorem isLive_withKey {checksum : Checksum} {record : Record} (h : record.isLive checksum = true)
    {key : UInt16} (hkey : key ≠ tombstoneKey) (hblank : key ≠ blankKey) :
    (record.withKey key).isLive checksum = true := by
  have hvoid : record.header.isVoid = false := by
    have hcarries := carriesValue_of_isLive h
    rw [Header.carriesValue, Bool.and_eq_true, Bool.not_eq_true', Bool.not_eq_true'] at hcarries
    exact hcarries.2
  rw [isLive, Bool.and_eq_true] at h
  have hcarries : (record.withKey key).header.carriesValue = true := by
    rw [Header.carriesValue, Bool.and_eq_true, Bool.not_eq_true', Bool.not_eq_true',
      Header.isTombstone, beq_eq_false_iff_ne]
    exact ⟨hkey, hvoid⟩
  rw [isLive, hcarries, Bool.true_and, Bool.and_eq_true, bne_iff_ne]
  exact ⟨hblank, h.2⟩

/-- A payload of which only the first bytes were programmed. -/
def cutPayload (payload : Bytes) (count : Nat) : Bytes :=
  payload.take count ++ List.replicate (payload.length - count) 0xFF

theorem length_cutPayload (payload : Bytes) (count : Nat) :
    (cutPayload payload count).length = payload.length := by
  rw [cutPayload, List.length_append, List.length_take, List.length_replicate]
  omega

theorem cutPayload_of_le {payload : Bytes} {count : Nat} (h : payload.length ≤ count) :
    cutPayload payload count = payload := by
  rw [cutPayload, List.take_of_length_le h, Nat.sub_eq_zero_of_le h]
  exact List.append_nil payload

/-- A record of which only the first bytes were programmed, at least the first one. -/
def cut (record : Record) (count : Nat) : Record :=
  ⟨⟨record.header.length, if 2 ≤ count then record.header.crc else 0xFF,
    if 4 ≤ count then record.header.key
    else if count = 3 then Key.unfinished record.header.key else blankKey⟩,
    cutPayload record.payload (count - headerSize)⟩

theorem WellFormed.cut {record : Record} (h : record.WellFormed) (count : Nat) :
    (record.cut count).WellFormed := ⟨(length_cutPayload _ _).trans h.1, h.2⟩

@[simp] theorem size_cut (record : Record) (count : Nat) : (record.cut count).size = record.size := rfl

theorem toBytes_cut (record : Record) {count : Nat} (h : 0 < count) :
    (record.cut count).toBytes = record.toBytes.take count ++
      List.replicate (record.toBytes.length - count) 0xFF := by
  have hbytes : ∀ r : Record, r.toBytes =
      r.header.length :: r.header.crc :: (littleEndian 2 r.header.key.toNat ++ r.payload) :=
    fun _ => rfl
  match count, h with
  | 1, _ => simp [hbytes, cut, littleEndian, blankKey, cutPayload, headerSize, List.replicate_succ]
  | 2, _ => simp [hbytes, cut, littleEndian, blankKey, cutPayload, headerSize, List.replicate_succ]
  | 3, _ =>
    have hkey : (record.cut 3).header.key = Key.unfinished record.header.key := rfl
    rw [hbytes, hbytes, hkey, Key.littleEndian_unfinished]
    simp [cut, Key.littleEndian_two, cutPayload, headerSize, List.replicate_succ]
  | count + 4, _ => simp [hbytes, cut, Key.littleEndian_two, cutPayload, headerSize]

end Record

/-! ## Parts of programmed bytes -/

theorem programmed_congr {content : Bytes} {start start' : Nat} {bytes bytes' : Bytes}
    (h : ∀ position, Cells.byteAt start bytes position = Cells.byteAt start' bytes' position) :
    programmed content start bytes = programmed content start' bytes' := by
  refine List.ext_getElem? fun i => ?_
  rw [getElem?_programmed, getElem?_programmed, h]

/-- Programming behind some bytes leaves them as they are. -/
theorem programmed_append_left (before after bytes : Bytes) (offset : Nat) :
    programmed (before ++ after) (before.length + offset) bytes =
      before ++ programmed after offset bytes := by
  refine List.ext_getElem? fun i => ?_
  rw [getElem?_programmed]
  rcases Nat.lt_or_ge i before.length with hlt | hge
  · rw [List.getElem?_append_left hlt, List.getElem?_append_left hlt, Cells.byteAt_of_lt _ (by omega)]
    simp [Cells.and_ones]
  · obtain ⟨i, rfl⟩ := Nat.exists_eq_add_of_le hge
    rw [List.getElem?_append_right hge, List.getElem?_append_right hge, Nat.add_sub_cancel_left,
      getElem?_programmed]
    congr 2
    funext b
    simp only [Cells.byteAt, Nat.add_le_add_iff_left, Nat.add_sub_add_left]

namespace Log

variable {record : Record} {content tail : Bytes}

/-- Nothing is read behind a byte that was never programmed. -/
theorem parse_of_head (h : ∀ b ∈ content.head?, b = 0xFF) : parse content = ⟨[], content⟩ := by
  rw [parse]
  split
  · rfl
  · next header rest hsome =>
    have hlength : header.length = endOfLog := by
      apply h
      rw [← Header.toBytes_of_take? hsome]
      rfl
    rw [if_pos hlength]

/-- **A part of a record that is programmed over a blank tail** adds a cut record or nothing. -/
theorem parse_programmed_part (hblank : isBlank (parse content).tail = true)
    (hrecord : record.WellFormed) (hroom : record.size ≤ (parse content).tail.length)
    (skipped count : Nat) :
    (∃ tail, parse (programmed content ((parse content).used + skipped)
      ((record.toBytes.drop skipped).take count)) = ⟨(parse content).records, tail⟩) ∨
    0 < count ∧ parse (programmed content ((parse content).used + skipped)
      ((record.toBytes.drop skipped).take count)) =
        ⟨(parse content).records ++ [record.cut count], (parse content).tail.drop record.size⟩ := by
  have hwf : ∀ r ∈ (parse content).records, r.WellFormed := fun r hr => wellFormed_of_mem_parse hr
  by_cases hpart : skipped = 0 ∧ 0 < count
  · obtain ⟨rfl, hpos⟩ := hpart
    refine Or.inr ⟨hpos, ?_⟩
    have hsame : programmed content ((parse content).used + 0) ((record.toBytes.drop 0).take count) =
        programmed content (parse content).used (record.cut count).toBytes := by
      refine programmed_congr fun i => ?_
      rw [List.drop_zero, Nat.add_zero, record.toBytes_cut hpos, Cells.byteAt_append_ones]
    rw [hsame, parse_programmed_record hblank (hrecord.cut count) hroom, Record.size_cut]
  · -- The first byte of the tail stays as it is, so the log ends there as before.
    have hspan : (parse content).used = ((parse content).records.flatMap Record.toBytes).length :=
      (length_flatMap_toBytes hwf).symm
    have hhead : ∀ b ∈ (programmed (parse content).tail skipped
        ((record.toBytes.drop skipped).take count)).head?, b = 0xFF := by
      intro b hb
      rw [List.head?_eq_getElem?, getElem?_programmed] at hb
      obtain ⟨c, hc, rfl⟩ := Option.map_eq_some_iff.mp hb
      have hout : Cells.byteAt skipped ((record.toBytes.drop skipped).take count) 0 = 0xFF := by
        rcases Nat.eq_zero_or_pos skipped with rfl | hpos
        · have hzero : count = 0 := by omega
          rw [hzero, List.take_zero]
          rfl
        · exact Cells.byteAt_of_lt _ hpos
      rw [hout, Cells.and_ones]
      exact isBlank_iff.mp hblank c (List.mem_of_getElem? hc)
    have hcontent : programmed content ((parse content).used + skipped)
        ((record.toBytes.drop skipped).take count) =
          (parse content).records.flatMap Record.toBytes ++ programmed (parse content).tail skipped
            ((record.toBytes.drop skipped).take count) := by
      conv => lhs; arg 1; rw [eq_flatMap_append content]
      rw [hspan, programmed_append_left]
    refine Or.inl ⟨programmed (parse content).tail skipped
      ((record.toBytes.drop skipped).take count), ?_⟩
    rw [hcontent, parse_flatMap_append hwf, parse_of_head hhead, List.append_nil]

theorem getD_pair (i : Nat) (a b : UInt8) :
    ([a, b] : Bytes).getD i 0xFF = if i = 0 then a else if i = 1 then b else 0xFF := by
  rcases i with _ | _ | i <;> simp

/-- The bytes of a tombstone that are left out act like ones. -/
theorem programmed_tombstone_part (key : UInt16) (content : Bytes) (start skipped count : Nat) :
    ∃ lower upper key', Key.Clears key lower upper key' ∧
      programmed content (start + skipped) ((tombstoneBytes.drop skipped).take count) =
        programmed content start [lower, upper] := by
  have hpart : ∀ lower upper : UInt8,
      (∀ i, (if skipped ≤ i ∧ i < skipped + count then ([0, 0] : Bytes).getD i 0xFF else 0xFF) =
        ([lower, upper] : Bytes).getD i 0xFF) →
      programmed content (start + skipped) ((tombstoneBytes.drop skipped).take count) =
        programmed content start [lower, upper] := by
    intro lower upper h
    refine programmed_congr fun position => ?_
    rw [Cells.byteAt_part, show tombstoneBytes = [0, 0] from rfl]
    rcases Nat.lt_or_ge position start with hlt | hge
    · rw [if_neg (by omega), Cells.byteAt_of_lt _ hlt]
    · obtain ⟨i, rfl⟩ := Nat.exists_eq_add_of_le hge
      rw [Cells.byteAt_add, Cells.byteAt_add, ← h i]
      simp only [Nat.add_assoc, Nat.add_le_add_iff_left, Nat.add_lt_add_iff_left]
  by_cases hlower : skipped = 0 ∧ 0 < count
  · by_cases hupper : 1 < count
    · exact ⟨_, _, _, .all, hpart _ _ fun i => by rw [getD_pair]; split <;> grind⟩
    · exact ⟨_, _, _, .lower, hpart _ _ fun i => by rw [getD_pair, getD_pair]; split <;> grind⟩
  · by_cases hupper : skipped ≤ 1 ∧ 1 < skipped + count
    · exact ⟨_, _, _, .upper, hpart _ _ fun i => by rw [getD_pair, getD_pair]; split <;> grind⟩
    · exact ⟨_, _, _, .nothing, hpart _ _ fun i => by rw [getD_pair, getD_pair]; split <;> grind⟩

/-- **A part of a tombstone** clears the key of its record, one byte of it, or nothing. -/
theorem parse_programmed_tombstone_part {before after : List Record}
    (h : (parse content).records = before ++ record :: after) (skipped count : Nat) :
    ∃ lower upper key, Key.Clears record.header.key lower upper key ∧
      parse (programmed content (span before + keyOffset + skipped)
        ((tombstoneBytes.drop skipped).take count)) =
          ⟨before ++ record.withKey key :: after, (parse content).tail⟩ := by
  obtain ⟨lower, upper, key, hclears, hpart⟩ :=
    programmed_tombstone_part record.header.key content (span before + keyOffset) skipped count
  exact ⟨lower, upper, key, hclears, hpart ▸ parse_programmed_key h rfl hclears.littleEndian_eq⟩

end Log

/-! ## What torn writes leave of the live records -/

namespace Partition.Holdings

variable {L L₁ L' : Holdings} {location : Location} {record : Record} {key : UInt16}

/-- The live records with a record under another key. -/
structure Rekeyed (L : Holdings) (location : Location) (record : Record) (key : UInt16)
    (L' : Holdings) : Prop where
  carries : key ≠ tombstoneKey
  mem_iff : ∀ page entry, entry ∈ L' page ↔ entry ∈ L.without location page ∨
    page = location.page ∧ entry = (location.offset, record.withKey key)

/-- A record under half of its key is no other copy of the key. -/
theorem Rekeyed.copy {half : UInt16} (h : L.Rekeyed location record half L')
    (hrecord : L.Copy key location.page (location.offset, record)) {page : Nat}
    {entry : Nat × Record} (hcopy : L'.Copy key page entry) : L.Copy key page entry := by
  refine ⟨?_, hcopy.2⟩
  rcases (h.mem_iff page entry).mp hcopy.1 with hold | ⟨rfl, rfl⟩
  · exact (mem_without.mp hold).1
  · -- Then it is the key itself, and the record is what it was.
    have hsame : half = record.header.key := hcopy.2.trans hrecord.2.symm
    rw [hsame, Record.withKey_self]
    exact hrecord.1

/-- What the other records store is stored. -/
theorem Rekeyed.stored_of_without {half : UInt16} {payload : Bytes}
    (h : L.Rekeyed location record half L')
    (hstored : (L.without location).Stored key (some payload)) : L'.Stored key (some payload) := by
  obtain ⟨page, entry, ⟨hmem, hkey⟩, hpayload⟩ := hstored
  exact ⟨page, entry, ⟨(h.mem_iff page entry).mpr (Or.inl hmem), hkey⟩, hpayload⟩

/-- What is stored after a copy of a key was put under another one, while an operation on the key goes
on. -/
theorem Between.stored_rekeyed {fresh : Option Bytes → Prop} {half other : UInt16}
    {v : Option Bytes} (h : L.Between key fresh L₁) (hL : L.Distinct)
    (hcopy : L.Copy key location.page (location.offset, record))
    (hrekeyed : L₁.Rekeyed location record half L') (hv : L'.Stored other v) :
    L.Stored other v ∨ other = key ∧ (fresh v ∨ v = none) ∨
      other = half ∧ v = some record.payload := by
  cases v with
  | none =>
    by_cases heq : other = key
    · exact Or.inr (Or.inl ⟨heq, Or.inr rfl⟩)
    · -- A copy of another key is at another location, so it was left in place.
      refine Or.inl fun page entry hother => hv page entry ⟨?_, hother.2⟩
      have hkept : entry ∈ L₁ page := (h.others page entry fun hkey =>
        heq (hother.2.symm.trans hkey)).mpr hother.1
      refine (hrekeyed.mem_iff page entry).mpr (Or.inl (mem_without.mpr ⟨hkept, fun hat => heq ?_⟩))
      obtain ⟨-, rfl⟩ := hL.eq_of_location hother.1 hcopy.1 hat
      exact hother.2.symm.trans hcopy.2
  | some payload =>
    obtain ⟨page, entry, ⟨hmem, hkey⟩, rfl⟩ := hv
    rcases (hrekeyed.mem_iff page entry).mp hmem with hold | ⟨-, rfl⟩
    · have hstored : L₁.Stored other (some entry.2.payload) :=
        ⟨page, entry, ⟨(mem_without.mp hold).1, hkey⟩, rfl⟩
      exact (h.stored_or hstored).imp_right fun ⟨heq, hfresh⟩ => Or.inl ⟨heq, Or.inl hfresh⟩
    · exact Or.inr (Or.inr ⟨hkey.symm, rfl⟩)

/-- A content in which a live record got another key. -/
theorem rekeyed_live {p : Partition} {img : Image} {content tail : Bytes} {page : Nat}
    {before after : List Record} {status : PageStatus} (hpage : page < p.pageCount)
    (hstatus : img.status page = some status) (hholds : status.kind.holdsRecords = true)
    (hrecords : (img.log page).records = before ++ record :: after)
    (hrecord : record.isLive p.chip.checksum = true)
    (hkey : key ≠ tombstoneKey) (hblank : key ≠ blankKey)
    (hparse : Log.parse content = ⟨before ++ record.withKey key :: after, tail⟩) :
    (p.live img).Rekeyed ⟨page, Log.span before⟩ record key (p.live (img.setContent page content)) := by
  refine ⟨hkey, fun other entry => ?_⟩
  have hnew := Record.isLive_withKey hrecord hkey hblank
  have hsize : (record.withKey key).size = record.size := rfl
  rw [mem_live_exchanged hpage hstatus hholds hrecords hsize hparse, and_iff_right hnew]

theorem live_setContent_of_liveRecords {p : Partition} {img : Image} {content : Bytes} {page : Nat}
    (h : (Log.parse content).liveRecords p.chip.checksum =
      (img.log page).liveRecords p.chip.checksum) :
    p.live (img.setContent page content) = p.live img := by
  rw [live_setContent, h]
  exact Function.update_eq_self page (p.live img)

/-- **A part of a tombstone** drops its record, leaves it, or gives it half of its key. -/
theorem live_programmed_tombstone_part {p : Partition} {img : Image} {page : Nat}
    {before after : List Record} {status : PageStatus} (hpage : page < p.pageCount)
    (hstatus : img.status page = some status) (hholds : status.kind.holdsRecords = true)
    (hrecords : (img.log page).records = before ++ record :: after)
    (hrecord : record.isLive p.chip.checksum = true) (skipped count : Nat) :
    let L' := p.live (img.setContent page (programmed (img.content page)
      (Log.span before + keyOffset + skipped) ((tombstoneBytes.drop skipped).take count)))
    L' = p.live img ∨ L' = (p.live img).without ⟨page, Log.span before⟩ ∨
      ∃ half, Key.IsHalf record.header.key half ∧
        (p.live img).Rekeyed ⟨page, Log.span before⟩ record half L' := by
  obtain ⟨lower, upper, key, hclears, hparse⟩ :=
    Log.parse_programmed_tombstone_part hrecords skipped count
  by_cases hdead : key = tombstoneKey
  · subst hdead
    exact Or.inr (Or.inl (live_setContent_dropped hpage hstatus hholds hrecords hparse))
  · rcases hclears.cases with rfl | htombstone | hhalf
    · refine Or.inl (live_setContent_of_liveRecords ?_)
      rw [hparse, Record.withKey_self, ← hrecords]
      rfl
    · exact absurd htombstone hdead
    · exact Or.inr (Or.inr ⟨key, hhalf, rekeyed_live hpage hstatus hholds hrecords hrecord hdead
        hhalf.ne_blankKey hparse⟩)

/-- **A part of a record** adds nothing, or a cut record if that one is live. -/
theorem live_programmed_part {p : Partition} {img : Image} {page : Nat} {status : PageStatus}
    (hpage : page < p.pageCount) (hstatus : img.status page = some status)
    (hholds : status.kind.holdsRecords = true) (hclean : (img.log page).isClean = true)
    (hwf : record.WellFormed) (hroom : record.size ≤ (img.log page).tail.length)
    (skipped count : Nat) :
    let L' := p.live (img.setContent page (programmed (img.content page)
      ((img.log page).used + skipped) ((record.toBytes.drop skipped).take count)))
    L' = p.live img ∨ (record.cut count).isLive p.chip.checksum = true ∧
      L' = (p.live img).added page (img.log page).used (record.cut count) := by
  rcases Log.parse_programmed_part hclean hwf hroom skipped count with ⟨tail, hparse⟩ | ⟨-, hparse⟩
  · refine Or.inl (live_setContent_of_liveRecords ?_)
    exact (congrArg (Log.liveRecords p.chip.checksum) hparse).trans rfl
  · by_cases hlive : (record.cut count).isLive p.chip.checksum = true
    · exact Or.inr ⟨hlive, live_setContent_appended hpage hstatus hholds hlive hparse⟩
    · refine Or.inl (live_setContent_of_liveRecords ?_)
      refine (congrArg (Log.liveRecords p.chip.checksum) hparse).trans ?_
      simp only [Log.liveRecords, Log.locate_append, List.filter_append, Log.locate,
        List.filter_cons, hlive, Bool.false_eq_true, if_false, List.filter_nil, List.append_nil]
      rfl

/-- The live records while an operation on a key goes on, which may leave one of some values.  Where
writes are split, the last one may have given a copy of the key half of its key, or added a part of the
record. -/
inductive Passes (conduct : Conduct) (checksum : Checksum) (L : Holdings) (key : UInt16)
    (fresh : Option Bytes → Prop) (L' : Holdings) : Prop
  | whole (h : L.Between key fresh L')
  | scratched {L₁ : Holdings} {location : Location} {record : Record} {half : UInt16}
      (hconduct : conduct = .splitting) (h : L.Between key fresh L₁)
      (hcopy : L.Copy key location.page (location.offset, record))
      (hhalf : Key.IsHalf key half) (hrekeyed : L₁.Rekeyed location record half L')
  | cut {L₁ : Holdings} {payload : Bytes} {page offset count : Nat}
      (hconduct : conduct = .splitting) (h : L.Between key (fun _ => False) L₁)
      (hfresh : fresh (some payload)) (hnew : ¬L₁.Stored key (some payload))
      (hlive : ((Record.ofPayload checksum key payload).cut count).isLive checksum = true)
      (hadded : L' = L₁.added page offset ((Record.ofPayload checksum key payload).cut count))

theorem Passes.mono {conduct : Conduct} {checksum : Checksum} {fresh fresh' : Option Bytes → Prop}
    (h : L.Passes conduct checksum key fresh L') (hfresh : ∀ v, fresh v → fresh' v) :
    L.Passes conduct checksum key fresh' L' := by
  cases h with
  | whole h => exact .whole (h.mono hfresh)
  | scratched hconduct h hcopy hhalf hrekeyed =>
    exact .scratched hconduct (h.mono hfresh) hcopy hhalf hrekeyed
  | cut hconduct h hpayload hnew hlive hadded =>
    exact .cut hconduct h (hfresh _ hpayload) hnew hlive hadded

/-- Where no write is split, an operation is whole at all times. -/
theorem Passes.between {conduct : Conduct} {checksum : Checksum} {fresh : Option Bytes → Prop}
    (h : L.Passes conduct checksum key fresh L') (hconduct : conduct ≠ .splitting) :
    L.Between key fresh L' := by
  cases h with
  | whole h => exact h
  | scratched hsplitting => exact absurd hsplitting hconduct
  | cut hsplitting => exact absurd hsplitting hconduct

/-- The live records while a lookup goes on, which searches the pages in some order: the newest copy
stays. -/
structure Sought (conduct : Conduct) (checksum : Checksum) (L : Holdings) (key : UInt16)
    (order : List Nat) (L' : Holdings) : Prop where
  passes : L.Passes conduct checksum key (fun _ => False) L'
  copy : ∀ page e, L'.Copy key page e → L.Copy key page e
  newest : ∀ page entry, L.Newest key order page entry → L'.Newest key order page entry

theorem Sought.refl (conduct : Conduct) (checksum : Checksum) (L : Holdings) (key : UInt16)
    (order : List Nat) : L.Sought conduct checksum key order L :=
  ⟨.whole (.refl L key _), fun _ _ hcopy => hcopy, fun _ _ hnewest => hnewest⟩

/-- Another copy is dropped, and its tombstone is torn. -/
theorem Sought.scratched {conduct : Conduct} {checksum : Checksum} {order : List Nat} {half : UInt16}
    (hconduct : conduct = .splitting) (h : L.Between key (fun _ => False) L₁)
    (hcopy : ∀ page e, L₁.Copy key page e → L.Copy key page e)
    (hrecord : L₁.Copy key location.page (location.offset, record))
    (hhalf : Key.IsHalf record.header.key half) (hrekeyed : L₁.Rekeyed location record half L')
    (hnewest : ∀ page entry, L.Newest key order page entry →
      (L₁.without location).Newest key order page entry) :
    L.Sought conduct checksum key order L' := by
  rw [hrecord.2] at hhalf
  have hsub : ∀ page e, L'.Copy key page e → L.Copy key page e := fun page e he =>
    hcopy page e (hrekeyed.copy hrecord he)
  exact ⟨.scratched hconduct h (hcopy _ _ hrecord) hhalf hrekeyed, hsub, fun page entry hentry =>
    hentry.of_copy ((hrekeyed.mem_iff page entry).mpr (Or.inl (hnewest page entry hentry).copy.1))
      hsub⟩

/-- At most one copy of a key is new, and it lies behind all others of its page. -/
structure Extended (L : Holdings) (key : UInt16) (L' : Holdings) : Prop where
  behind : ∀ page entry, L'.Copy key page entry → L.Copy key page entry ∨
    ∀ e, L'.Copy key page e → e.1 ≤ entry.1
  single : ∀ page entry other e, L'.Copy key page entry → L'.Copy key other e →
    L.Copy key page entry ∨ L.Copy key other e ∨ page = other ∧ entry = e

/-- The live records while a write goes on: a copy that was not there before lies behind all others of
its page, and an only copy is kept until the payload is there. -/
structure Renewed (conduct : Conduct) (checksum : Checksum) (L : Holdings) (key : UInt16)
    (payload : Bytes) (L' : Holdings) : Prop where
  passes : L.Passes conduct checksum key (· = some payload) L'
  extended : L.Extended key L'
  kept : ∀ page entry, L.Sole key page entry →
    L'.Copy key page entry ∨ L'.Stored key (some payload)

theorem Extended.of_copy (hcopy : ∀ page e, L'.Copy key page e → L.Copy key page e) :
    L.Extended key L' :=
  ⟨fun page entry h => Or.inl (hcopy page entry h), fun page entry _ _ h _ =>
    Or.inl (hcopy page entry h)⟩

/-- The new copy stays the only new one, and the last one of its page, when others go. -/
theorem Extended.mono (h : L.Extended key L₁)
    (hcopy : ∀ page e, L'.Copy key page e → L₁.Copy key page e) : L.Extended key L' :=
  ⟨fun page entry hentry => (h.behind page entry (hcopy page entry hentry)).imp_right
      fun hlast e he => hlast e (hcopy page e he),
    fun page entry other e hentry he => h.single page entry other e (hcopy page entry hentry)
      (hcopy other e he)⟩

theorem Sought.renewed {conduct : Conduct} {checksum : Checksum} {order : List Nat}
    (h : L.Sought conduct checksum key order L') (payload : Bytes) :
    L.Renewed conduct checksum key payload L' :=
  ⟨h.passes.mono fun _ hfalse => hfalse.elim, .of_copy h.copy, fun page entry hsole =>
    Or.inl (h.newest page entry (hsole.newest order)).copy⟩

theorem Copy.added (h : L.Copy key page entry) (other offset : Nat) (record : Record) :
    (L.added other offset record).Copy key page entry :=
  ⟨mem_added.mpr (Or.inl h.1), h.2⟩

/-- A record that is appended behind all others of its page is the last one. -/
theorem extended_added {page offset : Nat}
    (hcopy : ∀ page e, L₁.Copy key page e → L.Copy key page e) (hlast : ∀ e ∈ L₁ page, e.1 ≤ offset) :
    L.Extended key (L₁.added page offset record) := by
  have hnew : ∀ other entry, (L₁.added page offset record).Copy key other entry →
      L.Copy key other entry ∨ other = page ∧ entry = (offset, record) := fun other entry hentry =>
    (mem_added.mp hentry.1).imp_left fun hold => hcopy other entry ⟨hold, hentry.2⟩
  refine ⟨fun other entry hentry => (hnew other entry hentry).imp_right ?_,
    fun page' entry other e hentry he => ?_⟩
  · rintro ⟨rfl, rfl⟩ e he
    rcases mem_added.mp he.1 with hmem | ⟨-, rfl⟩
    · exact hlast e hmem
    · exact Nat.le_refl _
  · rcases hnew page' entry hentry with hold | ⟨rfl, rfl⟩
    · exact Or.inl hold
    · exact Or.inr ((hnew other e he).imp_right fun ⟨hpage, heq⟩ => ⟨hpage.symm, heq.symm⟩)

end Partition.Holdings

end RingStore
