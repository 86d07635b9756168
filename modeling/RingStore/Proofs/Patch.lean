import RingStore.Proofs.Engine.Reclaim

/-!
# Records in the place of others

Bytes of a flash may be replaced, which no access does.  A content is patched if the bytes of a range are
others.  Where the range is that of a record and the new bytes are a record of the same size, the log of
the page stays in step: all other records stay where they are.

## Main statements

* `Log.parse_patched`: the log of a content that was patched at a record.
* `Partition.image_overwrite`, `Partition.image_flip`: what replacing cells does to the image, and what a
  change of one byte does.
* `Table.Mirrors.exchanged`: a live record in the place of another one.
-/

namespace RingStore

/-! ## Patched contents -/

/-- A content with other bytes in a range. -/
def patched (content : Bytes) (offset : Nat) (bytes : Bytes) : Bytes :=
  content.mapIdx fun i b =>
    if offset ≤ i ∧ i < offset + bytes.length then Cells.byteAt offset bytes i else b

variable {content bytes : Bytes} {offset : Nat}

@[simp] theorem length_patched (content : Bytes) (offset : Nat) (bytes : Bytes) :
    (patched content offset bytes).length = content.length := List.length_mapIdx

theorem getElem?_patched (content : Bytes) (offset : Nat) (bytes : Bytes) (i : Nat) :
    (patched content offset bytes)[i]? =
      if offset ≤ i ∧ i < offset + bytes.length then
        content[i]?.map fun _ => Cells.byteAt offset bytes i
      else content[i]? := by
  rw [patched, List.getElem?_mapIdx]
  split
  · rfl
  · exact Option.map_id'

theorem getElem?_patched_of_not_mem {i : Nat} (h : ¬(offset ≤ i ∧ i < offset + bytes.length)) :
    (patched content offset bytes)[i]? = content[i]? := by
  rw [getElem?_patched, if_neg h]

/-- Within its range, a patched content has the new bytes. -/
theorem getElem?_patched_add (h : offset + bytes.length ≤ content.length) {i : Nat}
    (hi : i < bytes.length) : (patched content offset bytes)[offset + i]? = bytes[i]? := by
  rw [getElem?_patched, if_pos ⟨Nat.le_add_right _ _, Nat.add_lt_add_left hi _⟩, Cells.byteAt_add,
    List.getElem?_eq_getElem (by omega), List.getD_eq_getElem?_getD, List.getElem?_eq_getElem hi]
  rfl

theorem patched_patched (content : Bytes) (offset : Nat) {first : Bytes}
    (h : first.length = bytes.length) :
    patched (patched content offset first) offset bytes = patched content offset bytes := by
  refine List.ext_getElem? fun i => ?_
  rw [getElem?_patched, getElem?_patched, getElem?_patched, h]
  split
  · rw [Option.map_map]
    rfl
  · rfl

theorem patched_append (before middle after bytes : Bytes) (h : middle.length = bytes.length) :
    patched (before ++ (middle ++ after)) before.length bytes = before ++ (bytes ++ after) := by
  have hroom : before.length + bytes.length ≤ (before ++ (middle ++ after)).length := by
    rw [List.length_append, List.length_append, h]
    omega
  refine List.ext_getElem? fun i => ?_
  by_cases hin : before.length ≤ i ∧ i < before.length + bytes.length
  · obtain ⟨i, rfl⟩ := Nat.exists_eq_add_of_le hin.1
    have hi : i < bytes.length := by omega
    rw [getElem?_patched_add hroom hi, List.getElem?_append_right (Nat.le_add_right _ _),
      Nat.add_sub_cancel_left, List.getElem?_append_left hi]
  · rw [getElem?_patched_of_not_mem hin]
    rcases Nat.lt_or_ge i before.length with hlt | hge
    · rw [List.getElem?_append_left hlt, List.getElem?_append_left hlt]
    · rw [List.getElem?_append_right hge, List.getElem?_append_right hge,
        List.getElem?_append_right (by omega), List.getElem?_append_right (by omega), h]

namespace Log

variable {before after : List Record} {record other : Record}

/-- **A record in the place of another one** of its size leaves the rest of the log as it is. -/
theorem parse_patched (hrecords : (parse content).records = before ++ record :: after)
    (hwf : other.WellFormed) (hsize : other.size = record.size) :
    parse (patched content (span before) other.toBytes) =
      ⟨before ++ other :: after, (parse content).tail⟩ := by
  have hold : ∀ r ∈ before ++ record :: after, r.WellFormed := fun r hr =>
    wellFormed_of_mem_parse (hrecords ▸ hr)
  have hnew : ∀ r ∈ before ++ other :: after, r.WellFormed := by
    intro r hr
    rcases List.mem_append.mp hr with hmem | hmem
    · exact hold r (by simp [hmem])
    · rcases List.mem_cons.mp hmem with rfl | hmem
      · exact hwf
      · exact hold r (by simp [hmem])
  have hspan : (before.flatMap Record.toBytes).length = span before :=
    length_flatMap_toBytes fun r hr => hold r (by simp [hr])
  have hlength : record.toBytes.length = other.toBytes.length := by
    rw [(hold record (by simp)).length_toBytes, hwf.length_toBytes, hsize]
  have hcontent : content = before.flatMap Record.toBytes ++ (record.toBytes ++
      (after.flatMap Record.toBytes ++ (parse content).tail)) := by
    conv => lhs; rw [eq_flatMap_append content, hrecords]
    simp only [List.flatMap_append, List.flatMap_cons, List.append_assoc]
  have hpatched : patched content (span before) other.toBytes =
      (before ++ other :: after).flatMap Record.toBytes ++ (parse content).tail := by
    conv => lhs; rw [hcontent, ← hspan]
    rw [patched_append _ _ _ _ hlength]
    simp only [List.flatMap_append, List.flatMap_cons, List.append_assoc]
  rw [hpatched, parse_flatMap_append hnew, parse_tail, List.append_nil]

end Log

/-! ## Patched images -/

/-- The image with other bytes in a range of a content. -/
def Image.patch (img : Image) (location : Location) (bytes : Bytes) : Image :=
  img.setContent location.page (patched (img.content location.page) location.offset bytes)

namespace Image

variable {img : Image} {location : Location} {page : Nat}

@[simp] theorem status_patch : (img.patch location bytes).status = img.status := rfl

@[simp] theorem content_patch_self : (img.patch location bytes).content location.page =
    patched (img.content location.page) location.offset bytes := content_setContent_self

theorem content_patch_of_ne (h : page ≠ location.page) :
    (img.patch location bytes).content page = img.content page := content_setContent_of_ne h

theorem patch_patch {first : Bytes} (h : first.length = bytes.length) :
    (img.patch location first).patch location bytes = img.patch location bytes := by
  rw [patch, patch, content_setContent_self, setContent_setContent, patched_patched _ _ h, patch]

/-- An image that differs from another one in a range only, where that one has the given bytes, becomes it
by the patch. -/
theorem patch_eq {other : Image} (hstatus : img.status = other.status)
    (hroom : location.offset + bytes.length ≤ (img.content location.page).length)
    (hin : ∀ i < bytes.length, (other.content location.page)[location.offset + i]? = bytes[i]?)
    (hout : ∀ page i, ¬(page = location.page ∧ location.offset ≤ i ∧
      i < location.offset + bytes.length) → (img.content page)[i]? = (other.content page)[i]?) :
    img.patch location bytes = other := by
  refine congrArg₂ mk hstatus (funext fun page => List.ext_getElem? fun i => ?_)
  show ((img.patch location bytes).content page)[i]? = _
  by_cases hpage : page = location.page
  · subst hpage
    rw [content_patch_self]
    by_cases hrange : location.offset ≤ i ∧ i < location.offset + bytes.length
    · obtain ⟨i, rfl⟩ := Nat.exists_eq_add_of_le hrange.1
      have hi : i < bytes.length := by omega
      rw [getElem?_patched_add hroom hi, hin i hi]
    · rw [getElem?_patched_of_not_mem hrange]
      exact hout _ i fun hnot => hrange hnot.2
  · rw [content_patch_of_ne hpage]
    exact hout page i fun hnot => hpage hnot.1

end Image

/-- To change one byte among bytes that are known is to replace them. -/
theorem Cells.flip_eq_overwrite {cells : Cells} {start i : Nat}
    (h : ∀ j < bytes.length, cells[start + j]? = bytes[j]?) (hi : i < bytes.length) (mask : UInt8) :
    cells.flip (start + i) mask = cells.overwrite start (bytes.modify i (· ^^^ mask)) := by
  refine Array.ext_getElem? fun position => ?_
  rw [flip, Array.getElem?_modify, getElem?_overwrite, List.length_modify]
  by_cases hrange : start ≤ position ∧ position < start + bytes.length
  · obtain ⟨j, rfl⟩ := Nat.exists_eq_add_of_le hrange.1
    have hj : j < bytes.length := by omega
    rw [if_pos hrange, byteAt_add, h j hj, List.getElem?_eq_getElem hj, List.getD_eq_getElem?_getD,
      List.getElem?_modify, List.getElem?_eq_getElem hj]
    by_cases heq : i = j
    · subst heq
      simp
    · simp [heq]
  · rw [if_neg hrange, if_neg (by omega)]

namespace Partition

variable {p : Partition} {location : Location}

/-- Replacing cells within a content. -/
theorem image_overwrite {cells : Cells} (h : location.offset + bytes.length ≤ p.contentSize) :
    p.image (cells.overwrite (p.contentAddress location.page location.offset) bytes) =
      (p.image cells).patch location bytes := by
  obtain ⟨page, offset⟩ := location
  have hsize := p.statusSize_add_contentSize
  have hone : statusSize = 1 := rfl
  rw [Image.patch, Image.setContent_eq]
  refine image_eq_of_forall ?_ ?_ ?_
  · intro other i hne hi
    rw [Cells.getElem?_overwrite, if_neg]
    rw [contentAddress]
    rcases Nat.lt_or_gt_of_ne hne with hlt | hlt
    · have hle := p.pageAddress_add_le hlt
      omega
    · have hle := p.pageAddress_add_le hlt
      omega
  · rw [Cells.getElem?_overwrite, if_neg]
    · rfl
    · rw [contentAddress]
      omega
  · refine List.ext_getElem? fun i => ?_
    rw [getElem?_content, getElem?_patched, getElem?_content]
    by_cases hi : i < p.contentSize
    · rw [if_pos hi, if_pos hi, Cells.getElem?_overwrite]
      have hbyte : Cells.byteAt (p.contentAddress page offset) bytes (p.contentAddress page i) =
          Cells.byteAt offset bytes i := by
        rw [Cells.byteAt, Cells.byteAt, contentAddress, contentAddress, Nat.add_sub_add_left]
        simp only [Nat.add_le_add_iff_left]
      rw [hbyte]
      refine if_congr ?_ rfl rfl
      rw [contentAddress, contentAddress]
      omega
    · rw [if_neg hi, if_neg hi]
      split <;> rfl

/-- One byte is changed among bytes that are known. -/
theorem image_flip {cells : Cells} {i : Nat} (hroom : location.offset + bytes.length ≤ p.contentSize)
    (hbytes : ∀ j < bytes.length,
      ((p.image cells).content location.page)[location.offset + j]? = bytes[j]?)
    (hi : i < bytes.length) (mask : UInt8) :
    p.image (cells.flip (p.contentAddress location.page (location.offset + i)) mask) =
      (p.image cells).patch location (bytes.modify i (· ^^^ mask)) := by
  have hadd : ∀ j, p.contentAddress location.page (location.offset + j) =
      p.contentAddress location.page location.offset + j := fun j => (Nat.add_assoc _ _ _).symm
  have hcells : ∀ j < bytes.length,
      cells[p.contentAddress location.page location.offset + j]? = bytes[j]? := fun j hj => by
    rw [← hbytes j hj, getElem?_content, if_pos (by omega), hadd]
  rw [hadd, Cells.flip_eq_overwrite hcells hi]
  exact image_overwrite (by rwa [List.length_modify])

end Partition

/-! ## Live records in the place of others -/

namespace Table.Mirrors

variable {p : Partition} {t : Table} {img : Image} {location : Location} {record other : Record}

/-- **A live record in the place of another one** of its size. -/
theorem exchanged (h : t.Mirrors p img)
    (hlive : (location.offset, record) ∈ p.live img location.page)
    (hother : other.isLive p.chip.checksum = true) (hwf : other.WellFormed)
    (hsize : other.size = record.size) :
    t.Mirrors p (img.patch location other.toBytes) ∧ ∀ page entry,
      entry ∈ p.live (img.patch location other.toBytes) page ↔
        entry ∈ (p.live img).without location page ∨
          page = location.page ∧ entry = (location.offset, other) := by
  obtain ⟨page, offset⟩ := location
  obtain ⟨entry, before, after, hentry, hholds, hrecords, rfl, hrecord⟩ := Engine.exists_record h hlive
  obtain ⟨hstatus, hdescribes⟩ := h.tracks page entry hentry
  have hpage : page < p.pageCount := h.count_eq ▸ lt_count hentry
  have hparse := Log.parse_patched hrecords hwf hsize
  have hdescribes' := hdescribes.exchanged hholds hrecords hrecord hsize (fun _ => hother) hparse
  rw [if_pos hother] at hdescribes'
  have htracks := h.tracks.setContent hstatus hdescribes'
  have hsame : t.set page entry = t := by
    obtain ⟨hlt, rfl⟩ := Array.getElem?_eq_some_iff.mp hentry
    rw [set, Array.setIfInBounds_def, dif_pos hlt, Array.set_getElem_self]
  rw [hsame] at htracks
  refine ⟨⟨h.count_eq, htracks, h.ordered, h.held⟩, fun page entry => ?_⟩
  rw [Image.patch, Partition.Holdings.mem_live_exchanged hpage hstatus hholds hrecords hsize hparse,
    and_iff_right hother]

end Table.Mirrors

end RingStore
