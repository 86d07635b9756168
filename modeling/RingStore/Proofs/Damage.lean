import RingStore.Proofs.Engine.Blind
import RingStore.Proofs.MapRefinement

/-!
# A damaged record

Damage in the checksum byte or in the payload of a live record leaves a record whose checksum is that of
another payload.  It is described by two intact records of one size and key, the first one with the payload
and the second one with the checksum that are found: with either of them in its place, the table would
mirror the flash.  Neither needs to be what was there before.

A program that does not look at the flash does to the damaged flash, byte by byte, what it does to those two.
So the damage stays what it is while the rest of the flash changes.

## Main statements

* `Contents.Backed.marred`: where a flash with a damaged record comes from.
* `Marred.represented`, `Marred.charts`: the live records are all others, and the table still knows where the
  records end.
* `Marred.copy_carried_iff`, `Marred.copy_carried_self_iff`: what a walk meets there.
* `Marred.beside`: a program that keeps both intact records keeps the damage as it is.
-/

namespace RingStore

open RingStore.Partition (Holdings)

/-! ## Live records that go and come -/

namespace Partition.Holdings

variable {L L' : Holdings} {key : UInt16} {location : Location} {record : Record}

/-- Without a copy of a key all other keys have their records. -/
theorem sameBut_without (hL : L.Distinct) (hcopy : L.Copy key location.page (location.offset, record)) :
    SameBut key L (L.without location) := by
  intro page entry hother
  rw [mem_without]
  refine ⟨fun hmem => hmem.1, fun hmem => ⟨hmem, fun heq => hother ?_⟩⟩
  rw [(hL.eq_of_location hmem hcopy.1 heq).2]
  exact hcopy.2

/-- Without its only copy a key has none. -/
theorem not_copy_without (hcopy : L.Copy key location.page (location.offset, record))
    (hsole : ∀ page entry page' entry', L.Copy key page entry → L.Copy key page' entry' →
      page = page' ∧ entry = entry') (page : Nat) (entry : Nat × Record) :
    ¬(L.without location).Copy key page entry := by
  rintro ⟨hmem, hkey⟩
  obtain ⟨hmem, hne⟩ := mem_without.mp hmem
  obtain ⟨rfl, rfl⟩ := hsole _ _ _ _ ⟨hmem, hkey⟩ hcopy
  exact hne rfl

/-- The only copy of a key is gone. -/
theorem update_of_without (hL : L.Distinct)
    (hcopy : L.Copy key location.page (location.offset, record))
    (hsole : ∀ page entry page' entry', L.Copy key page entry → L.Copy key page' entry' →
      page = page' ∧ entry = entry')
    (hmem : ∀ page entry, entry ∈ L' page ↔ entry ∈ L.without location page) : L.Update key none L' := by
  have hnone : ∀ page entry, ¬L'.Copy key page entry := fun page entry hcopy' =>
    not_copy_without hcopy hsole page entry ⟨(hmem page entry).mp hcopy'.1, hcopy'.2⟩
  exact ⟨fun page entry hother => (hmem page entry).trans (sameBut_without hL hcopy page entry hother),
    hnone, fun page entry _ _ hcopy' => absurd hcopy' (hnone page entry)⟩

end Partition.Holdings

namespace Contents.Represented

variable {m : Contents} {L L' : Holdings} {key : UInt16} {location : Location} {record other : Record}

/-- The copy of a key is gone, and with it the value. -/
theorem withdrawn {v : Option Bytes} (h : Represented (Function.update m key v) L) (hL : L.Distinct)
    (hcopy : L.Copy key location.page (location.offset, record)) (habsent : m key = none)
    (hmem : ∀ page entry, entry ∈ L' page ↔ entry ∈ L.without location page) : m.Represented L' := by
  have hnew := h.update (Holdings.update_of_without hL hcopy (h key).sole hmem)
  rwa [Function.update_idem, ← habsent, Function.update_eq_self] at hnew

/-- Another record is in the place of the copy of a key. -/
theorem exchanged (h : m.Represented L) (hL : L.Distinct)
    (hcopy : L.Copy key location.page (location.offset, record)) (hkey : other.header.key = key)
    (hmem : ∀ page entry, entry ∈ L' page ↔ entry ∈ L.without location page ∨
      page = location.page ∧ entry = (location.offset, other)) :
    Represented (Function.update m key (some other.payload)) L' := by
  have hnew : ∀ page entry, L'.Copy key page entry →
      page = location.page ∧ entry = (location.offset, other) := fun page entry hcopy' =>
    ((hmem page entry).mp hcopy'.1).resolve_left fun hold =>
      Holdings.not_copy_without hcopy (h key).sole page entry ⟨hold, hcopy'.2⟩
  refine h.update ⟨fun page entry hother => ?_, ?_, fun page entry page' entry' hfirst hsecond => ?_⟩
  · rw [hmem, ← Holdings.sameBut_without hL hcopy page entry hother]
    refine or_iff_left ?_
    rintro ⟨-, rfl⟩
    exact hother hkey
  · exact ⟨location.page, _, ⟨(hmem _ _).mpr (Or.inr ⟨rfl, rfl⟩), hkey⟩, rfl⟩
  · obtain ⟨rfl, rfl⟩ := hnew page entry hfirst
    obtain ⟨rfl, rfl⟩ := hnew page' entry' hsecond
    exact ⟨rfl, rfl⟩

end Contents.Represented

/-! ## A record of a flash that the table mirrors -/

/-- The table mirrors the flash, whose live records represent the map. -/
structure Contents.Backed (p : Partition) (m : Contents) (t : Table) (img : Image) : Prop where
  mirrors : t.Mirrors p img
  represented : m.Represented (p.live img)

/-- The table mirrors the flash, a record there is live, and with the value of that record the live records
represent the map. -/
structure Sustains (p : Partition) (m : Contents) (location : Location) (record : Record) (t : Table)
    (img : Image) : Prop
    extends Contents.Backed p (Function.update m record.header.key (some record.payload)) t img where
  live : (location.offset, record) ∈ p.live img location.page

namespace Sustains

variable {p : Partition} {m : Contents} {location : Location} {record r : Record} {t : Table} {img : Image}

theorem copy (h : Sustains p m location record t img) :
    (p.live img).Copy record.header.key location.page (location.offset, record) := ⟨h.live, rfl⟩

theorem exists_record (h : Sustains p m location record t img) :
    ∃ entry before after, t.pages[location.page]? = some entry ∧ entry.kind.holdsRecords = true ∧
      (img.log location.page).records = before ++ record :: after ∧ location.offset = Log.span before ∧
      record.isLive p.chip.checksum = true := Engine.exists_record h.mirrors h.live

theorem lt_pageCount (h : Sustains p m location record t img) : location.page < p.pageCount :=
  Partition.lt_of_mem_live h.live

theorem isLive (h : Sustains p m location record t img) : record.isLive p.chip.checksum = true := by
  obtain ⟨-, -, -, -, -, -, -, hlive⟩ := h.exists_record
  exact hlive

theorem wellFormed (h : Sustains p m location record t img) : record.WellFormed := by
  obtain ⟨-, before, after, -, -, hrecords, -, -⟩ := h.exists_record
  have hmem : record ∈ (img.log location.page).records := by
    rw [hrecords]
    simp
  exact Log.wellFormed_of_mem_parse hmem

/-- The content has the bytes of the record at its location. -/
theorem bytes (h : Sustains p m location record t img) :
    location.offset + record.toBytes.length ≤ (img.content location.page).length ∧
      ∀ i < record.toBytes.length,
        (img.content location.page)[location.offset + i]? = record.toBytes[i]? := by
  obtain ⟨-, before, after, -, -, hrecords, hoffset, -⟩ := h.exists_record
  have hdrop := Log.drop_span before (record :: after) hrecords
  rw [← hoffset, List.flatMap_cons, List.append_assoc] at hdrop
  constructor
  · have htotal := congrArg List.length hdrop
    have hpos : 0 < record.toBytes.length := by
      rw [h.wellFormed.length_toBytes]
      exact record.header.recordSize_pos
    rw [List.length_drop, List.length_append] at htotal
    omega
  · intro i hi
    rw [← List.getElem?_drop, hdrop, List.getElem?_append_left hi]

/-- Where a record takes its place that is not live, all other values are left. -/
theorem represented_of_not_live (h : Sustains p m location record t img)
    (habsent : m record.header.key = none) {before after : List Record} {content tail : Bytes}
    (hrecords : (img.log location.page).records = before ++ record :: after)
    (hoffset : location.offset = Log.span before) (hsize : r.size = record.size)
    (hnot : ¬r.isLive p.chip.checksum = true)
    (hparse : Log.parse content = ⟨before ++ r :: after, tail⟩) :
    m.Represented (p.live (img.setContent location.page content)) := by
  obtain ⟨entry, -, -, hentry, hholds, -⟩ := h.exists_record
  refine h.represented.withdrawn (Partition.Holdings.distinct_live p img) h.copy habsent
    fun page e => ?_
  rw [Partition.Holdings.mem_live_exchanged h.lt_pageCount (h.mirrors.tracks _ entry hentry).1 hholds
    hrecords hsize hparse, ← hoffset]
  exact or_iff_left fun hlive => hnot hlive.1

/-- An operation on another key keeps the record. -/
theorem of_update {t' : Table} {img' : Image} {key : UInt16} {v : Option Bytes}
    (h : Sustains p m location record t img) (hkey : key ≠ record.header.key)
    (hmirrors : t'.Mirrors p img') (hupdate : (p.live img).Update key v (p.live img')) :
    Sustains p (Function.update m key v) location record t' img' := by
  refine ⟨⟨hmirrors, ?_⟩, (hupdate.others _ _ hkey.symm).mpr h.live⟩
  rw [Function.update_comm hkey]
  exact h.represented.update hupdate

end Sustains

/-! ## The state of a flash with a damaged record -/

/-- The header of one record and the payload of another one. -/
def Record.mixed (intact other : Record) : Record := ⟨other.header, intact.payload⟩

/-- Each byte is that of one of the two. -/
theorem Record.getElem?_mixed (intact other : Record) (i : Nat) :
    (intact.mixed other).toBytes[i]? = intact.toBytes[i]? ∨
      (intact.mixed other).toBytes[i]? = other.toBytes[i]? := by
  have hmixed : (intact.mixed other).toBytes = other.header.toBytes ++ intact.payload := rfl
  rw [hmixed, toBytes, toBytes]
  rcases Nat.lt_or_ge i headerSize with hlt | hge
  · refine Or.inr ?_
    rw [List.getElem?_append_left (by simpa using hlt), List.getElem?_append_left (by simpa using hlt)]
  · refine Or.inl ?_
    rw [List.getElem?_append_right (by simpa using hge), List.getElem?_append_right (by simpa using hge),
      Header.length_toBytes, Header.length_toBytes]

/-- The flash has the header of one record and the payload of another one at a location, and each of the two
would make it sound.  They differ in their checksums only and in their payloads, and the map has no value
under their key. -/
structure Marred (p : Partition) (m : Contents) (location : Location) (intact other : Record) (t : Table)
    (img : Image) : Prop where
  sustains_intact : Sustains p m location intact t (img.patch location intact.toBytes)
  sustains_other : Sustains p m location other t (img.patch location other.toBytes)
  header_eq : other.header = { intact.header with crc := other.header.crc }
  crc_ne : other.header.crc ≠ intact.header.crc
  absent : m intact.header.key = none
  patch_mixed : img.patch location (intact.mixed other).toBytes = img

namespace Marred

variable {p : Partition} {m : Contents} {location : Location} {intact other : Record} {t : Table}
  {img : Image}

section Records

variable (h : Marred p m location intact other t img)

include h

theorem key_eq : other.header.key = intact.header.key := by rw [h.header_eq]

theorem size_mixed : (intact.mixed other).size = intact.size := by
  show headerSize + other.header.length.toNat = _
  rw [h.header_eq]
  rfl

theorem wellFormed_mixed : (intact.mixed other).WellFormed := by
  have hlength : other.header.length = intact.header.length := by rw [h.header_eq]
  show _ = other.header.length.toNat ∧ other.header.length ≠ endOfLog
  rw [hlength]
  exact h.sustains_intact.wellFormed

theorem length_mixed : (intact.mixed other).toBytes.length = intact.toBytes.length := by
  rw [h.wellFormed_mixed.length_toBytes, h.sustains_intact.wellFormed.length_toBytes, h.size_mixed]

theorem length_other : other.toBytes.length = intact.toBytes.length := by
  rw [← h.length_mixed, h.wellFormed_mixed.length_toBytes, h.sustains_other.wellFormed.length_toBytes]
  rfl

theorem carriesValue_mixed : (intact.mixed other).header.carriesValue = true := by
  have hcarries : other.header.carriesValue = true :=
    Record.carriesValue_of_isLive h.sustains_other.isLive
  exact hcarries

/-- The checksum that is found is not that of the payload. -/
theorem not_verify_mixed :
    ¬(intact.mixed other).header.verify p.chip.checksum (intact.mixed other).payload = true := by
  have hlive := h.sustains_intact.isLive
  simp only [Record.isLive, Header.verify, Bool.and_eq_true, beq_iff_eq] at hlive
  simp only [Record.mixed, Header.verify, Bool.and_eq_true, beq_iff_eq, hlive.2.2]
  exact fun hverify => h.crc_ne hverify.2.symm

theorem not_isLive_mixed : ¬(intact.mixed other).isLive p.chip.checksum = true := by
  rw [Record.isLive, Bool.and_eq_true]
  exact fun hlive => h.not_verify_mixed hlive.2

/-- The content has the bytes of the mixed record. -/
theorem getElem?_content {i : Nat} (hi : i < intact.toBytes.length) :
    (img.content location.page)[location.offset + i]? = (intact.mixed other).toBytes[i]? := by
  have hroom := h.sustains_intact.bytes.1
  rw [Image.content_patch_self, length_patched, ← h.length_mixed] at hroom
  conv => lhs; rw [← h.patch_mixed]
  rw [Image.content_patch_self, getElem?_patched_add hroom (h.length_mixed ▸ hi)]

/-- Every byte is that of one of the two images that would be sound. -/
theorem agrees (page i : Nat) :
    (img.content page)[i]? = ((img.patch location intact.toBytes).content page)[i]? ∨
      (img.content page)[i]? = ((img.patch location other.toBytes).content page)[i]? := by
  by_cases hpage : page = location.page
  · subst hpage
    by_cases hrange : location.offset ≤ i ∧ i < location.offset + intact.toBytes.length
    · obtain ⟨i, rfl⟩ := Nat.exists_eq_add_of_le hrange.1
      have hi : i < intact.toBytes.length := by omega
      rw [h.getElem?_content hi, h.sustains_intact.bytes.2 i hi,
        h.sustains_other.bytes.2 i (h.length_other ▸ hi)]
      exact Record.getElem?_mixed intact other i
    · rw [Image.content_patch_self, getElem?_patched_of_not_mem hrange]
      exact Or.inl rfl
  · rw [Image.content_patch_of_ne hpage]
    exact Or.inl rfl

/-! ### The log of its page -/

variable {record : Record} (hrecord : record = intact ∨ record = other)

include hrecord

theorem sustains : Sustains p m location record t (img.patch location record.toBytes) := by
  rcases hrecord with rfl | rfl
  · exact h.sustains_intact
  · exact h.sustains_other

theorem key_of : record.header.key = intact.header.key := by
  rcases hrecord with rfl | rfl
  · rfl
  · exact h.key_eq

theorem size_of : (intact.mixed other).size = record.size := by
  rcases hrecord with rfl | rfl
  · exact h.size_mixed
  · rfl

/-- With the mixed record in the place of an intact one the image is as it is. -/
theorem patch_patch_mixed :
    (img.patch location record.toBytes).patch location (intact.mixed other).toBytes = img := by
  have hlength : record.toBytes.length = (intact.mixed other).toBytes.length := by
    rw [(h.sustains hrecord).wellFormed.length_toBytes, h.wellFormed_mixed.length_toBytes,
      h.size_of hrecord]
  rw [Image.patch_patch hlength, h.patch_mixed]

/-- The mixed record is where the log of a sound image has an intact one. -/
theorem exists_log : ∃ entry before after, t.pages[location.page]? = some entry ∧
    entry.kind.holdsRecords = true ∧
    ((img.patch location record.toBytes).log location.page).records = before ++ record :: after ∧
    location.offset = Log.span before ∧ img.log location.page =
      ⟨before ++ intact.mixed other :: after,
        ((img.patch location record.toBytes).log location.page).tail⟩ := by
  obtain ⟨entry, before, after, hentry, hholds, hrecords, hoffset, -⟩ :=
    (h.sustains hrecord).exists_record
  refine ⟨entry, before, after, hentry, hholds, hrecords, hoffset, ?_⟩
  conv => lhs; rw [← h.patch_patch_mixed hrecord]
  rw [Image.log, Image.content_patch_self, hoffset]
  exact Log.parse_patched hrecords h.wellFormed_mixed (h.size_of hrecord)

omit hrecord

/-- The table still knows where the records end. -/
theorem charts : t.Charts p img := by
  obtain ⟨-, before, after, -, -, hrecords, -, hlog⟩ := h.exists_log (Or.inl rfl)
  have hcharts := h.sustains_intact.mirrors.charts
  refine ⟨hcharts.count_eq, hcharts.status_eq, fun page e he hholds => ?_⟩
  rw [hcharts.used_eq page e he hholds]
  by_cases hpage : page = location.page
  · rw [hpage, Log.used_eq_span, Log.used_eq_span, hrecords, hlog, Log.span_append, Log.span_append,
      Log.span_cons, Log.span_cons, h.size_mixed]
  · rw [Image.log, Image.content_patch_of_ne hpage, Image.log]

include hrecord

/-- The mixed record claims a value, and so do the live records of a sound image but the intact one. -/
theorem mem_carried {page : Nat} {e : Nat × Record} :
    e ∈ p.carried img page ↔
      e ∈ (p.live (img.patch location record.toBytes)).without location page ∨
        page = location.page ∧ e = (location.offset, intact.mixed other) := by
  obtain ⟨entry, before, after, hentry, hholds, hrecords, hoffset, hlog⟩ := h.exists_log hrecord
  have hmirrors := (h.sustains hrecord).mirrors
  rw [← hmirrors.carried_eq, Partition.Holdings.without]
  by_cases hpage : page = location.page
  · subst hpage
    have hdropped : record.dropped.header.carriesValue = false := rfl
    have hexchanged := Log.mem_filter_locate_exchanged (·.header.carriesValue) hdropped
      (h.size_of hrecord) 0 before after e
    rw [Nat.zero_add, ← hoffset, and_iff_right h.carriesValue_mixed] at hexchanged
    rw [Function.update_self, h.charts.carried_eq hentry, hmirrors.charts.carried_eq hentry,
      if_pos hholds, if_pos hholds, hrecords, hlog, hexchanged, and_iff_right rfl]
  · rw [Function.update_of_ne hpage, Partition.carried, Partition.carried, Image.log, Image.log,
      Image.content_patch_of_ne hpage, Image.status_patch]
    exact (or_iff_left fun hnot => hpage hnot.1).symm

/-- The copies of another key are those of a sound image. -/
theorem copy_carried_iff {key : UInt16} (hkey : key ≠ intact.header.key) {page : Nat}
    {e : Nat × Record} :
    (p.carried img).Copy key page e ↔ (p.live (img.patch location record.toBytes)).Copy key page e := by
  have hcopy := (h.sustains hrecord).copy
  refine and_congr_left fun hsame => ?_
  have hother : e.2.header.key ≠ record.header.key := by rwa [hsame, h.key_of hrecord]
  rw [h.mem_carried hrecord, Partition.Holdings.sameBut_without (Partition.Holdings.distinct_live _ _)
    hcopy page e hother]
  refine or_iff_left ?_
  rintro ⟨-, rfl⟩
  exact hkey (hsame.symm.trans h.key_eq)

omit hrecord

/-- The mixed record is the only copy of its key. -/
theorem copy_carried_self_iff {page : Nat} {e : Nat × Record} :
    (p.carried img).Copy intact.header.key page e ↔
      page = location.page ∧ e = (location.offset, intact.mixed other) := by
  have hs := h.sustains_intact
  constructor
  · rintro ⟨hmem, hkey⟩
    exact ((h.mem_carried (Or.inl rfl)).mp hmem).resolve_left fun hold =>
      Partition.Holdings.not_copy_without hs.copy (hs.represented _).sole page e ⟨hold, hkey⟩
  · rintro ⟨rfl, rfl⟩
    exact ⟨(h.mem_carried (Or.inl rfl)).mpr (Or.inr ⟨rfl, rfl⟩), h.key_eq⟩

/-- The live records represent the map. -/
theorem represented : m.Represented (p.live img) := by
  obtain ⟨-, before, after, -, -, hrecords, hoffset, hlog⟩ := h.exists_log (Or.inl rfl)
  have himage := h.patch_patch_mixed (Or.inl rfl)
  have hparse : Log.parse (patched ((img.patch location intact.toBytes).content location.page)
      location.offset (intact.mixed other).toBytes) = img.log location.page := by
    rw [← Image.content_patch_self, himage, Image.log]
  conv => arg 2; rw [← himage]
  exact h.sustains_intact.represented_of_not_live h.absent hrecords hoffset h.size_mixed
    h.not_isLive_mixed (hparse.trans hlog)

end Records

/-! ### Beside the sound images -/

section Beside

variable {m' : Contents} {t' : Table} {img' first second : Image}
  (h : Marred p m location intact other t img)
  (hfirst : img.Beside (img.patch location intact.toBytes) img' first)
  (hsecond : img.Beside (img.patch location other.toBytes) img' second)

include h hfirst hsecond

/-- **The damage stays what it is** if both intact records are left where they are. -/
theorem beside (hintact : Sustains p m' location intact t' first)
    (hother : Sustains p m' location other t' second) (habsent : m' intact.header.key = none) :
    Marred p m' location intact other t' img' := by
  -- The bytes of the record are those of one of the two, so they are as they were.
  have hbytes : ∀ i < intact.toBytes.length, (img'.content location.page)[location.offset + i]? =
      (intact.mixed other).toBytes[i]? := by
    intro i hi
    rw [← h.getElem?_content hi]
    rcases h.agrees location.page (location.offset + i) with heq | heq
    · rw [hfirst.content_eq _ _ heq, heq, hintact.bytes.2 i hi, h.sustains_intact.bytes.2 i hi]
    · rw [hsecond.content_eq _ _ heq, heq, hother.bytes.2 i (h.length_other ▸ hi),
        h.sustains_other.bytes.2 i (h.length_other ▸ hi)]
  have hroom : location.offset + intact.toBytes.length ≤ (img'.content location.page).length := by
    have hpos : 0 < intact.toBytes.length := by
      rw [h.sustains_intact.wellFormed.length_toBytes]
      exact intact.header.recordSize_pos
    have hlt : intact.toBytes.length - 1 < (intact.mixed other).toBytes.length := by
      rw [h.length_mixed]
      omega
    have hlast := (hbytes _ (h.length_mixed ▸ hlt)).trans (List.getElem?_eq_getElem hlt)
    have hlt := (List.getElem?_eq_some_iff.mp hlast).1
    omega
  have hout : ∀ {bytes : Bytes} {beside' : Image}, img.Beside (img.patch location bytes) img' beside' →
      ∀ page i, ¬(page = location.page ∧ location.offset ≤ i ∧ i < location.offset + bytes.length) →
        (img'.content page)[i]? = (beside'.content page)[i]? := by
    intro bytes beside' hbeside page i hnot
    refine hbeside.content_eq page i ?_
    by_cases hpage : page = location.page
    · subst hpage
      rw [Image.content_patch_self, getElem?_patched_of_not_mem fun hrange => hnot ⟨rfl, hrange⟩]
    · rw [Image.content_patch_of_ne hpage]
  have hpatch : img'.patch location intact.toBytes = first :=
    Image.patch_eq hfirst.status_eq hroom hintact.bytes.2 (hout hfirst)
  have hpatch' : img'.patch location other.toBytes = second :=
    Image.patch_eq hsecond.status_eq (h.length_other ▸ hroom) hother.bytes.2 (hout hsecond)
  exact ⟨hpatch ▸ hintact, hpatch' ▸ hother, h.header_eq, h.crc_ne, habsent,
    Image.patch_eq rfl (h.length_mixed ▸ hroom) (fun i hi => hbytes i (h.length_mixed ▸ hi))
      fun _ _ _ => rfl⟩

/-- What both images keep of a content stays. -/
theorem drop_eq {page start : Nat}
    (hintact : (first.content page).drop start =
      ((img.patch location intact.toBytes).content page).drop start)
    (hother : (second.content page).drop start =
      ((img.patch location other.toBytes).content page).drop start) :
    (img'.content page).drop start = (img.content page).drop start := by
  refine List.ext_getElem? fun i => ?_
  have hkept := congrArg (·[i]?) hintact
  have hkept' := congrArg (·[i]?) hother
  simp only [List.getElem?_drop] at hkept hkept' ⊢
  rcases h.agrees page (start + i) with heq | heq
  · rw [hfirst.content_eq _ _ heq, hkept, heq]
  · rw [hsecond.content_eq _ _ heq, hkept', heq]

end Beside

end Marred

/-! ## Where the damage comes from -/

namespace Contents.Backed

variable {p : Partition} {m : Contents} {location : Location} {record intact other : Record} {t : Table}
  {img : Image}

/-- A live record carries the value of its key. -/
theorem eq_some (h : m.Backed p t img) {page offset : Nat} (hlive : (offset, record) ∈ p.live img page) :
    m record.header.key = some record.payload :=
  (h.represented.eq_of_stored (v := some record.payload) ⟨_, _, ⟨hlive, rfl⟩, rfl⟩).symm

theorem sustains_self (h : m.Backed p t img)
    (hlive : (location.offset, record) ∈ p.live img location.page) :
    Sustains p m location record t img := by
  refine ⟨?_, hlive⟩
  rwa [← h.eq_some hlive, Function.update_eq_self]

/-- Another record of the same length and key is in the place of a live one. -/
theorem sustains (h : m.Backed p t img) (hlive : (location.offset, record) ∈ p.live img location.page)
    (hintact : intact.isLive p.chip.checksum = true)
    (hheader : intact.header = { record.header with crc := intact.header.crc }) :
    intact.WellFormed ∧ intact.size = record.size ∧
      Sustains p (Function.update m record.header.key none) location intact t
        (img.patch location intact.toBytes) := by
  have hlength : intact.header.length = record.header.length := by rw [hheader]
  have hkey : intact.header.key = record.header.key := by rw [hheader]
  have hsize : intact.size = record.size := by
    rw [Record.size, Record.size, Header.recordSize, Header.recordSize, hlength]
  obtain ⟨-, before, after, -, -, hrecords, -, -⟩ := Engine.exists_record h.mirrors hlive
  have hmem : record ∈ (img.log location.page).records := by
    rw [hrecords]
    simp
  have hold : record.WellFormed := Log.wellFormed_of_mem_parse hmem
  have hwf : intact.WellFormed := by
    have hverify := hintact
    simp only [Record.isLive, Header.verify, Bool.and_eq_true, beq_iff_eq] at hverify
    exact ⟨hverify.2.1, hlength ▸ hold.2⟩
  obtain ⟨hmirrors, hmem'⟩ := h.mirrors.exchanged hlive hintact hwf hsize
  have hnew := h.represented.exchanged (Partition.Holdings.distinct_live p img) ⟨hlive, rfl⟩ hkey hmem'
  refine ⟨hwf, hsize, ⟨hmirrors, ?_⟩, (hmem' _ _).mpr (Or.inr ⟨rfl, rfl⟩)⟩
  rwa [hkey, Function.update_idem]

/-- **The header of one such record and the payload of another one** are in the place of a live record. -/
theorem marred (h : m.Backed p t img) (hlive : (location.offset, record) ∈ p.live img location.page)
    (hintact : intact.isLive p.chip.checksum = true) (hother : other.isLive p.chip.checksum = true)
    (hheader : intact.header = { record.header with crc := intact.header.crc })
    (hheader' : other.header = { record.header with crc := other.header.crc })
    (hcrc : other.header.crc ≠ intact.header.crc) :
    Marred p (Function.update m record.header.key none) location intact other t
      (img.patch location (intact.mixed other).toBytes) := by
  obtain ⟨hwf, hsize, hsustains⟩ := h.sustains hlive hintact hheader
  obtain ⟨hwf', hsize', hsustains'⟩ := h.sustains hlive hother hheader'
  have hmixed : (intact.mixed other).toBytes.length = record.size := by
    have hlength : (intact.mixed other).WellFormed := by
      have hsame : other.header.length = intact.header.length := by rw [hheader, hheader']
      exact ⟨hwf.1.trans (by rw [← hsame]; rfl), hwf'.2⟩
    exact hlength.length_toBytes.trans hsize'
  have hlength := (hwf.length_toBytes.trans hsize).symm
  have hlength' := (hwf'.length_toBytes.trans hsize').symm
  refine ⟨?_, ?_, ?_, hcrc, ?_, Image.patch_patch rfl⟩
  · rwa [Image.patch_patch (hmixed.trans hlength)]
  · rwa [Image.patch_patch (hmixed.trans hlength')]
  · rw [hheader]
    exact hheader'
  · rw [hheader]
    exact Function.update_self _ _ _

end Contents.Backed

end RingStore
