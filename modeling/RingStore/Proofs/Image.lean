import Mathlib.Algebra.Ring.Nat
import Mathlib.Logic.Function.Basic
import RingStore.Partition.Access
import RingStore.Proofs.Log

/-!
# The pages of a partition in the flash

An `Image` shows a partition page by page: what the status byte stands for, and the content behind it.
The accesses of the store change one page of the image each, and this file says how.

The live records of an image are those that a walk along an active or full page meets, that carry a
value under a valid key, and that pass their checksum.

## Main statements

* `Partition.image_program_status`, `Partition.image_program_content`, `Partition.image_erase`: what
  programming and erasing cells does to the image.
* `Partition.live_setStatus`, `Partition.live_setContent`: what becomes of the live records.
-/

namespace RingStore

/-- The pages of a partition as the flash has them. -/
structure Image where
  /-- What a status byte stands for, if anything. -/
  status : Nat → Option PageStatus
  content : Nat → Bytes

namespace Image

/-- The image with another status of a page. -/
def setStatus (img : Image) (page : Nat) (status : PageStatus) : Image :=
  { img with status := Function.update img.status page (some status) }

/-- The image with another content of a page. -/
def setContent (img : Image) (page : Nat) (content : Bytes) : Image :=
  { img with content := Function.update img.content page content }

/-- A content after an erase of `count` bytes of its page, behind the first `skipped` ones.  The
status byte is the first byte of the page. -/
def wiped (content : Bytes) (skipped count : Nat) : Bytes :=
  content.mapIdx fun i b => if skipped ≤ i + 1 ∧ i + 1 < skipped + count then 0xFF else b

/-- The image after an erase of a part of a page. -/
def erasePart (img : Image) (page skipped count : Nat) : Image where
  status := Function.update img.status page
    (if skipped = 0 ∧ 0 < count then some .blank else img.status page)
  content := Function.update img.content page (wiped (img.content page) skipped count)

/-- The image after an erase of a page. -/
def erase (img : Image) (page : Nat) : Image where
  status := Function.update img.status page (some .blank)
  content := Function.update img.content page (List.replicate (img.content page).length 0xFF)

variable {img : Image} {page other : Nat} {status : PageStatus} {content : Bytes}

@[simp] theorem status_setStatus_self : (img.setStatus page status).status page = some status :=
  Function.update_self _ _ _

theorem status_setStatus_of_ne (h : other ≠ page) :
    (img.setStatus page status).status other = img.status other :=
  Function.update_of_ne h _ _

@[simp] theorem content_setStatus : (img.setStatus page status).content = img.content := rfl

@[simp] theorem content_setContent_self : (img.setContent page content).content page = content :=
  Function.update_self _ _ _

theorem content_setContent_of_ne (h : other ≠ page) :
    (img.setContent page content).content other = img.content other :=
  Function.update_of_ne h _ _

@[simp] theorem status_erase_self : (img.erase page).status page = some .blank :=
  Function.update_self _ _ _

theorem status_erase_of_ne (h : other ≠ page) : (img.erase page).status other = img.status other :=
  Function.update_of_ne h _ _

@[simp] theorem content_erase_self :
    (img.erase page).content page = List.replicate (img.content page).length 0xFF :=
  Function.update_self _ _ _

theorem content_erase_of_ne (h : other ≠ page) :
    (img.erase page).content other = img.content other :=
  Function.update_of_ne h _ _

theorem status_erasePart_self (img : Image) (page skipped count : Nat) :
    (img.erasePart page skipped count).status page = some .blank ∨
      (img.erasePart page skipped count).status page = img.status page := by
  have hself : (img.erasePart page skipped count).status page =
      if skipped = 0 ∧ 0 < count then some .blank else img.status page :=
    Function.update_self _ _ _
  rw [hself]
  split
  · exact Or.inl rfl
  · exact Or.inr rfl

theorem status_erasePart_of_ne {skipped count : Nat} (h : other ≠ page) :
    (img.erasePart page skipped count).status other = img.status other :=
  Function.update_of_ne h _ _

@[simp] theorem content_erasePart_self {skipped count : Nat} :
    (img.erasePart page skipped count).content page = wiped (img.content page) skipped count :=
  Function.update_self _ _ _

theorem content_erasePart_of_ne {skipped count : Nat} (h : other ≠ page) :
    (img.erasePart page skipped count).content other = img.content other :=
  Function.update_of_ne h _ _

theorem setStatus_setStatus (first : PageStatus) :
    (img.setStatus page first).setStatus page status = img.setStatus page status := by
  rw [setStatus, setStatus, setStatus, Function.update_idem]

theorem setContent_setContent (first : Bytes) :
    (img.setContent page first).setContent page content = img.setContent page content := by
  rw [setContent, setContent, setContent, Function.update_idem]

theorem setStatus_eq (img : Image) (page : Nat) (status : PageStatus) :
    img.setStatus page status =
      ⟨Function.update img.status page (some status),
        Function.update img.content page (img.content page)⟩ := by
  rw [Function.update_eq_self]
  rfl

theorem setContent_eq (img : Image) (page : Nat) (content : Bytes) :
    img.setContent page content =
      ⟨Function.update img.status page (img.status page),
        Function.update img.content page content⟩ := by
  rw [Function.update_eq_self]
  rfl

theorem setStatus_self (h : img.status page = some status) : img.setStatus page status = img := by
  rw [setStatus, ← h, Function.update_eq_self]

theorem setContent_self (img : Image) (page : Nat) : img.setContent page (img.content page) = img := by
  rw [setContent, Function.update_eq_self]

theorem isBlank_wiped {content : Bytes} (h : isBlank content = true) (skipped count : Nat) :
    isBlank (wiped content skipped count) = true := by
  rw [isBlank_iff] at h ⊢
  intro b hb
  obtain ⟨i, hi, rfl⟩ := List.mem_iff_getElem.mp hb
  simp only [wiped, List.getElem_mapIdx]
  split
  · rfl
  · exact h _ (List.getElem_mem _)

theorem erasePart_zero (img : Image) (page skipped : Nat) : img.erasePart page skipped 0 = img := by
  have hwiped : wiped (img.content page) skipped 0 = img.content page := by
    refine List.ext_getElem? fun i => ?_
    rw [wiped, List.getElem?_mapIdx]
    have hout : ¬(skipped ≤ i + 1 ∧ i + 1 < skipped) := by omega
    simp [hout]
  rw [erasePart, hwiped, if_neg (by omega), Function.update_eq_self, Function.update_eq_self]

/-- An erase of a part that reaches over the whole page. -/
theorem erasePart_of_lt {count : Nat} (h : (img.content page).length < count) :
    img.erasePart page 0 count = img.erase page := by
  have hwiped : wiped (img.content page) 0 count =
      List.replicate (img.content page).length 0xFF := by
    refine List.eq_replicate_iff.mpr ⟨List.length_mapIdx, fun b hb => ?_⟩
    obtain ⟨i, hi, rfl⟩ := List.mem_iff_getElem.mp hb
    rw [wiped, List.length_mapIdx] at hi
    simp only [wiped, List.getElem_mapIdx]
    rw [if_pos (by omega)]
  rw [erasePart, erase, hwiped, if_pos ⟨rfl, by omega⟩]

/-- The page has a known status and carries the ring-start marker. -/
def MarkedAt (img : Image) (page : Nat) : Prop :=
  ∃ status, img.status page = some status ∧ status.ringStart = true

/-- Some page with a known status carries the ring-start marker. -/
def Marked (count : Nat) (img : Image) : Prop :=
  ∃ page < count, ∃ status, img.status page = some status ∧ status.ringStart = true

/-- The records of a page. -/
def log (img : Image) (page : Nat) : Log := Log.parse (img.content page)

end Image

namespace Partition

variable {p : Partition}

/-! ## Addresses -/

theorem pageAddress_add_le {page other : Nat} (h : page < other) :
    p.pageAddress page + p.pageSize ≤ p.pageAddress other := by
  have hmul : (page + 1) * p.pageSize ≤ other * p.pageSize := Nat.mul_le_mul_right _ h
  rw [Nat.add_mul, Nat.one_mul] at hmul
  rw [pageAddress, pageAddress]
  omega

theorem pageAddress_add_le_end {page : Nat} (h : page < p.pageCount) :
    p.pageAddress page + p.pageSize ≤ p.base + p.size := pageAddress_add_le h

theorem statusSize_add_contentSize : statusSize + p.contentSize = p.pageSize :=
  Nat.add_sub_of_le (Nat.le_trans (by decide) p.minPageSize_le)

theorem contentAddress_add_le {page offset : Nat} (h : offset ≤ p.contentSize) :
    p.contentAddress page offset ≤ p.pageAddress page + p.pageSize := by
  have hsize := p.statusSize_add_contentSize
  rw [contentAddress]
  omega

/-- The status byte of a page lies in front of its content, and away from all other pages. -/
theorem status_not_mem_content {page offset length : Nat} (h : offset + length ≤ p.contentSize)
    (other : Nat) : p.pageAddress other < p.contentAddress page offset ∨
      p.contentAddress page offset + length ≤ p.pageAddress other := by
  have haddress : p.contentAddress page (offset + length) ≤
      p.pageAddress page + p.pageSize := contentAddress_add_le h
  have hpos : 0 < statusSize := Nat.one_pos
  rw [contentAddress] at haddress ⊢
  rcases Nat.lt_trichotomy other page with hlt | rfl | hlt
  · have hle := p.pageAddress_add_le hlt
    omega
  · omega
  · have hle := p.pageAddress_add_le hlt
    omega

/-! ## The image of cells -/

/-- The partition as some cells show it. -/
def image (p : Partition) (cells : Cells) : Image where
  status page := cells[p.pageAddress page]?.bind PageStatus.ofByte?
  content page := cells.slice (p.contentAddress page 0) p.contentSize

theorem getElem?_content (p : Partition) (cells : Cells) (page i : Nat) :
    ((p.image cells).content page)[i]? =
      if i < p.contentSize then cells[p.contentAddress page i]? else none := by
  have h := Cells.getElem?_slice cells (p.contentAddress page 0) p.contentSize i
  rwa [contentAddress, Nat.add_zero, ← contentAddress] at h

/-- Two ranges of addresses in different pages do not meet. -/
theorem pageAddress_ne {page other a b : Nat} (h : other ≠ page) (ha : a < p.pageSize)
    (hb : b < p.pageSize) : p.pageAddress other + a ≠ p.pageAddress page + b := by
  rcases Nat.lt_or_gt_of_ne h with hlt | hlt
  · have hle := p.pageAddress_add_le hlt
    omega
  · have hle := p.pageAddress_add_le hlt
    omega

theorem length_content {cells : Cells} {page : Nat} (h : page < p.pageCount)
    (hcells : p.base + p.size ≤ cells.size) :
    ((p.image cells).content page).length = p.contentSize := by
  have hend := p.pageAddress_add_le_end h
  have hsize := p.statusSize_add_contentSize
  simp only [image, Cells.slice, Array.length_toList, Array.size_extract, contentAddress]
  omega

/-- A page whose content is all there lies within the cells. -/
theorem lt_size_of_length_content {cells : Cells} {page : Nat}
    (h : ((p.image cells).content page).length = p.contentSize) : p.pageAddress page < cells.size := by
  have hsize := p.statusSize_add_contentSize
  have hmin : 6 ≤ p.pageSize := p.minPageSize_le
  have hone : statusSize = 1 := rfl
  simp only [image, Cells.slice, Array.length_toList, Array.size_extract, contentAddress] at h
  omega

/-- An image is changed at one page only if the cells are. -/
theorem image_eq_of_forall {cells after : Cells} {page : Nat}
    {status : Option PageStatus} {content : Bytes}
    (hother : ∀ other i, other ≠ page → i < p.pageSize →
      after[p.pageAddress other + i]? = cells[p.pageAddress other + i]?)
    (hstatus : after[p.pageAddress page]?.bind PageStatus.ofByte? = status)
    (hcontent : (p.image after).content page = content) :
    p.image after =
      ⟨Function.update (p.image cells).status page status,
        Function.update (p.image cells).content page content⟩ := by
  have hsize := p.statusSize_add_contentSize
  have hpos := p.pageSize_pos
  have hstatuses : (p.image after).status =
      Function.update (p.image cells).status page status := by
    funext other
    by_cases heq : other = page
    · subst heq
      rw [Function.update_self]
      exact hstatus
    · rw [Function.update_of_ne heq]
      have hcell := hother other 0 heq hpos
      rw [Nat.add_zero] at hcell
      simp only [image, hcell]
  have hcontents : (p.image after).content =
      Function.update (p.image cells).content page content := by
    funext other
    by_cases heq : other = page
    · subst heq
      rw [Function.update_self]
      exact hcontent
    · rw [Function.update_of_ne heq]
      refine List.ext_getElem? fun i => ?_
      rw [getElem?_content, getElem?_content]
      split
      · have hcell := hother other (statusSize + i) heq (by omega)
        rwa [← Nat.add_assoc] at hcell
      · rfl
  rw [← hstatuses, ← hcontents]

/-- Programming the status byte of a page changes no content, whatever byte was there. -/
theorem content_program_status (cells : Cells) (page : Nat) (byte : UInt8) :
    (p.image (cells.program (p.pageAddress page) [byte])).content = (p.image cells).content := by
  funext other
  refine List.ext_getElem? fun i => ?_
  rw [getElem?_content, getElem?_content]
  split
  · next hi =>
    have hfits : i + [byte].length ≤ p.contentSize := hi
    have hout : Cells.byteAt (p.pageAddress page) [byte] (p.contentAddress other i) = 0xFF := by
      rcases p.status_not_mem_content hfits page with hlt | hlt
      · exact Cells.byteAt_of_le hlt
      · exact Cells.byteAt_of_lt _ hlt
    rw [Cells.getElem?_program, hout]
    simp [Cells.and_ones]
  · rfl

/-- Programming a status that clears bits of the old one gives the new one. -/
theorem image_program_status {cells : Cells} {page : Nat} {old status : PageStatus}
    (hold : (p.image cells).status page = some old)
    (hclear : old.toByte &&& status.toByte = status.toByte) :
    p.image (cells.program (p.pageAddress page) [status.toByte]) =
      (p.image cells).setStatus page status := by
  have hsize := p.statusSize_add_contentSize
  have hpos := p.pageSize_pos
  obtain ⟨byte, hbyte, hof⟩ := Option.bind_eq_some_iff.mp hold
  have hat : Cells.byteAt (p.pageAddress page) [status.toByte] (p.pageAddress page) =
      status.toByte := Cells.byteAt_add (p.pageAddress page) [status.toByte] 0
  rw [Image.setStatus_eq]
  refine image_eq_of_forall ?_ ?_ ?_
  · -- The cells of other pages meet ones, which leave them as they are.
    intro other i hne hi
    rw [Cells.getElem?_program]
    have hout : Cells.byteAt (p.pageAddress page) [status.toByte] (p.pageAddress other + i) =
        0xFF := by
      have haddress := p.pageAddress_ne hne hi hpos
      rcases Nat.lt_or_ge (p.pageAddress other + i) (p.pageAddress page) with hlt | hge
      · exact Cells.byteAt_of_lt _ hlt
      · refine Cells.byteAt_of_le ?_
        rw [List.length_singleton]
        omega
    rw [hout]
    simp [Cells.and_ones]
  · rw [Cells.getElem?_program, hbyte, hat, Option.map_some, ← PageStatus.toByte_ofByte? hof, hclear]
    exact PageStatus.ofByte?_toByte status
  · rw [content_program_status]

/-- Programming a range of a content. -/
theorem image_program_content {cells : Cells} {page offset : Nat} {bytes : Bytes}
    (h : offset + bytes.length ≤ p.contentSize) :
    p.image (cells.program (p.contentAddress page offset) bytes) =
      (p.image cells).setContent page
        (programmed ((p.image cells).content page) offset bytes) := by
  have hsize := p.statusSize_add_contentSize
  have hone : statusSize = 1 := rfl
  have hpos := p.pageSize_pos
  rw [Image.setContent_eq]
  refine image_eq_of_forall ?_ ?_ ?_
  · intro other i hne hi
    rw [Cells.getElem?_program]
    have hout : Cells.byteAt (p.contentAddress page offset) bytes (p.pageAddress other + i) =
        0xFF := by
      rcases Nat.lt_or_ge (p.pageAddress other + i) (p.contentAddress page offset) with hlt | hge
      · exact Cells.byteAt_of_lt _ hlt
      · refine Cells.byteAt_of_le ?_
        rw [contentAddress] at hge ⊢
        rcases Nat.lt_or_gt_of_ne hne with hlt | hlt
        · have hle := p.pageAddress_add_le hlt
          omega
        · have hle := p.pageAddress_add_le hlt
          omega
    rw [hout]
    simp [Cells.and_ones]
  · rw [Cells.getElem?_program, Cells.byteAt_of_lt]
    · simp [Cells.and_ones, image]
    · rw [contentAddress]
      omega
  · refine List.ext_getElem? fun i => ?_
    rw [getElem?_content, getElem?_programmed, getElem?_content]
    split
    · have hbyte : Cells.byteAt (p.contentAddress page offset) bytes (p.contentAddress page i) =
          Cells.byteAt offset bytes i := by
        rw [Cells.byteAt, Cells.byteAt, contentAddress, contentAddress,
          Nat.add_sub_add_left]
        simp only [Nat.add_le_add_iff_left]
      rw [Cells.getElem?_program, hbyte]
    · rfl

/-- Erasing a part of a page. -/
theorem image_erase {cells : Cells} {page skipped count : Nat}
    (hcell : p.pageAddress page < cells.size) (h : skipped + count ≤ p.pageSize) :
    p.image (cells.erase (p.pageAddress page + skipped) count) =
      (p.image cells).erasePart page skipped count := by
  have hsize := p.statusSize_add_contentSize
  have hone : statusSize = 1 := rfl
  refine image_eq_of_forall ?_ ?_ ?_
  · intro other i hne hi
    rw [Cells.getElem?_erase, if_neg]
    rcases Nat.lt_or_gt_of_ne hne with hlt | hlt
    · have hle := p.pageAddress_add_le hlt
      omega
    · have hle := p.pageAddress_add_le hlt
      omega
  · rw [Cells.getElem?_erase]
    by_cases hzero : skipped = 0 ∧ 0 < count
    · rw [if_pos (by omega), if_pos hzero, Array.getElem?_eq_getElem hcell, Option.map_some,
        Option.bind_some, ← PageStatus.toByte_blank]
      exact PageStatus.ofByte?_toByte .blank
    · rw [if_neg (by omega), if_neg hzero]
      rfl
  · refine List.ext_getElem? fun i => ?_
    rw [getElem?_content, Image.wiped, List.getElem?_mapIdx, getElem?_content]
    split
    · rw [Cells.getElem?_erase]
      have hrange : (p.pageAddress page + skipped ≤ p.contentAddress page i ∧
          p.contentAddress page i < p.pageAddress page + skipped + count) ↔
          (skipped ≤ i + 1 ∧ i + 1 < skipped + count) := by
        rw [contentAddress]
        omega
      by_cases hin : skipped ≤ i + 1 ∧ i + 1 < skipped + count
      · rw [if_pos (hrange.mpr hin)]
        simp [hin]
      · rw [if_neg (fun hc => hin (hrange.mp hc))]
        simp [hin]
    · rfl

/-! ## Live records -/

/-- The live records of all pages, with their offsets. -/
abbrev Holdings := Nat → List (Nat × Record)

/-- The live records of the pages of an image. -/
def live (p : Partition) (img : Image) : Holdings := fun page =>
  if page < p.pageCount ∧ (img.status page).any (·.kind.holdsRecords) = true then
    (img.log page).liveRecords p.chip.checksum
  else []

variable {img : Image} {page : Nat} {status : PageStatus}

theorem live_eq (hpage : page < p.pageCount) (hstatus : img.status page = some status)
    (hkind : status.kind.holdsRecords = true) :
    p.live img page = (img.log page).liveRecords p.chip.checksum := by
  rw [live, if_pos ⟨hpage, by rw [hstatus]; exact hkind⟩]

theorem live_eq_nil (hstatus : img.status page = some status)
    (hkind : status.kind.holdsRecords = false) : p.live img page = [] := by
  rw [live, if_neg]
  rintro ⟨-, hany⟩
  rw [hstatus, Option.any_some, hkind] at hany
  cases hany

/-- The live records of a page depend on that page only. -/
theorem live_congr {img img' : Image} {page : Nat} (hstatus : img'.status page = img.status page)
    (hcontent : img'.content page = img.content page) : p.live img' page = p.live img page := by
  rw [live, live, Image.log, Image.log, hstatus, hcontent]

theorem lt_of_mem_live {entry : Nat × Record} (h : entry ∈ p.live img page) :
    page < p.pageCount := by
  by_contra hnot
  rw [live, if_neg fun hc => hnot hc.1] at h
  cases h

/-- Live records of a page follow one another. -/
theorem pairwise_live (img : Image) (page : Nat) :
    (p.live img page).Pairwise fun x y => x.1 + headerSize ≤ y.1 := by
  rw [live]
  split
  · refine List.Pairwise.filter _ ((Log.pairwise_locate 0 _).imp fun hle => ?_)
    exact Nat.le_trans (Nat.add_le_add_left (Nat.le_add_right headerSize _) _) hle
  · exact List.Pairwise.nil

theorem nodup_live (img : Image) (page : Nat) : (p.live img page).Nodup := by
  refine (p.pairwise_live img page).imp fun {x y} hle heq => ?_
  have hpos : x.1 < x.1 + headerSize := Nat.lt_add_of_pos_right (by decide)
  exact absurd (heq ▸ hle) (Nat.not_le.mpr hpos)

/-- Between stages that hold records, a change of status does not matter; a page without live
records may move on to any stage. -/
theorem live_setStatus {old : PageStatus} (hold : img.status page = some old)
    (h : status.kind.holdsRecords = old.kind.holdsRecords ∨
      (img.log page).liveRecords p.chip.checksum = []) :
    p.live (img.setStatus page status) = p.live img := by
  funext other
  by_cases heq : other = page
  · subst heq
    rw [live, live, Image.status_setStatus_self, hold, Option.any_some, Option.any_some]
    rcases h with hkind | hnil
    · rw [hkind]
      rfl
    · have hlog : (img.setStatus other status).log other = img.log other := rfl
      rw [hlog, hnil, ite_self, ite_self]
  · exact live_congr (Image.status_setStatus_of_ne heq) rfl

theorem live_setContent {content : Bytes} :
    p.live (img.setContent page content) =
      Function.update (p.live img) page
        (if page < p.pageCount ∧ (img.status page).any (·.kind.holdsRecords) = true then
          (Log.parse content).liveRecords p.chip.checksum else []) := by
  funext other
  by_cases heq : other = page
  · subst heq
    rw [Function.update_self, live, Image.log, Image.content_setContent_self]
    rfl
  · rw [Function.update_of_ne heq]
    exact live_congr rfl (Image.content_setContent_of_ne heq)

/-- A content that agrees with the old one has the same live records. -/
theorem live_setContent_of_agrees {content : Bytes}
    (h : Log.Agrees p.chip.checksum (img.log page) (Log.parse content)) :
    p.live (img.setContent page content) = p.live img := by
  rw [live_setContent, h.live_eq]
  exact Function.update_eq_self page (p.live img)

/-- An erase takes the live records of its page. -/
theorem live_erase : p.live (img.erase page) = Function.update (p.live img) page [] := by
  funext other
  by_cases heq : other = page
  · subst heq
    rw [Function.update_self]
    exact live_eq_nil Image.status_erase_self rfl
  · rw [Function.update_of_ne heq]
    exact live_congr (Image.status_erase_of_ne heq) (Image.content_erase_of_ne heq)

theorem live_erase_of_nil (h : p.live img page = []) : p.live (img.erase page) = p.live img := by
  rw [live_erase, ← h, Function.update_eq_self]

end Partition

end RingStore
