import RingStore.Proofs.Conduct
import RingStore.Proofs.Image

/-!
# Accesses to pages, seen on the image

The accesses of the store are widened to the granularities of the chip.  Where these divide the page
size, a widened access stays within its page, and its padding changes nothing.  So every access reads
or changes one page of the image, and an access that is torn does a part of that change.

`AccessM.Ensures` states what a program of accesses does to the image.  It leaves the cells out: from
here on only images are talked about.

## Main statements

* `Partition.ensures_readPage`, `Partition.ensures_readContent`: what a read gives.
* `Partition.ensures_writeStatus`, `Partition.ensures_writeContent`, `Partition.ensures_erasePage`:
  what a write or an erase makes of the image, and what is left of it when it is torn.
-/

namespace RingStore

/-- The granularities of the chip divide the page size, and addresses fit into 32 bits. -/
structure Partition.Usable (p : Partition) : Prop where
  readSize_dvd : p.chip.readSize ∣ p.pageSize
  writeSize_dvd : p.chip.writeSize ∣ p.pageSize
  end_lt : p.base + p.size < 2 ^ 32

/-- Cells that reach as far as the partition and show it with an image. -/
structure Partition.Shows (p : Partition) (img : Image) (cells : Cells) : Prop where
  end_le : p.base + p.size ≤ cells.size
  image_eq : p.image cells = img

/-! ## Rounding within a page -/

theorem le_alignDown {g a n : Nat} (hg : g ∣ a) (h : a ≤ n) (hn : n < 2 ^ 32) :
    a ≤ alignDown n g := by
  obtain ⟨q, rfl⟩ := hg
  rw [alignDown_eq (by rw [maxWord]; omega), Nat.mul_comm]
  rcases Nat.eq_zero_or_pos g with rfl | hpos
  · simp
  · refine Nat.mul_le_mul_right g ((Nat.le_div_iff_mul_le hpos).mpr ?_)
    rwa [Nat.mul_comm]

theorem alignUp_le {g b n : Nat} (hg : g ∣ b) (h : n ≤ b) : alignUp n g ≤ b := by
  obtain ⟨q, rfl⟩ := hg
  rw [alignUp_eq]
  rcases Nat.eq_zero_or_pos g with rfl | hpos
  · simp
  · rw [Nat.mul_comm g q]
    refine Nat.mul_le_mul_right g (Nat.le_of_lt_succ ((Nat.div_lt_iff_lt_mul hpos).mpr ?_))
    rw [Nat.succ_mul, Nat.mul_comm]
    omega

theorem le_alignUp {g n : Nat} (hpos : 0 < g) (hg : g ≤ maxWord) (hn : n ≤ 2 ^ 33) :
    n ≤ alignUp n g := by
  rw [alignUp_eq]
  by_cases hmax : n + (g - 1) ≤ maxWord
  · rw [Nat.min_eq_left hmax]
    have hdiv := Nat.div_add_mod (n + (g - 1)) g
    have hmod := Nat.mod_lt (n + (g - 1)) hpos
    rw [Nat.mul_comm] at hdiv
    omega
  · -- The granularity is larger than the size by far, and rounding up gives the granularity.
    rw [Nat.min_eq_right (by omega)]
    have hone : 1 ≤ maxWord / g := (Nat.one_le_div_iff hpos).mpr hg
    have hle : 1 * g ≤ maxWord / g * g := Nat.mul_le_mul_right g hone
    rw [maxWord] at hmax
    omega

theorem Chip.toNat_busAddress {position : Nat} (h : position < 2 ^ 32) :
    (Chip.busAddress position).toNat = position :=
  UInt32.toNat_ofNat_of_lt' h

namespace Partition

variable {p : Partition} {page g : Nat}

theorem dvd_pageAddress (hg : g ∣ p.pageSize) : g ∣ p.pageAddress page :=
  Nat.dvd_add (Nat.dvd_trans hg p.pageSize_dvd) (Nat.dvd_trans hg (Nat.dvd_mul_left _ _))

theorem granularity_pos (hg : g ∣ p.pageSize) : 0 < g := Nat.pos_of_dvd_of_pos hg p.pageSize_pos

theorem granularity_le (hg : g ∣ p.pageSize) : g ≤ maxWord :=
  Nat.le_trans (Nat.le_of_dvd p.pageSize_pos hg) (Nat.le_trans p.pageSize_le (by decide))

/-- A widened range lies around its range and within the page. -/
theorem widened_bounds (hu : p.Usable) (hg : g ∣ p.pageSize) (hpage : page < p.pageCount)
    {start stop : Nat} (hstart : p.pageAddress page ≤ start) (hle : start ≤ stop)
    (hstop : stop ≤ p.pageAddress page + p.pageSize) :
    p.pageAddress page ≤ alignDown start g ∧ alignDown start g ≤ start ∧
      stop ≤ alignUp stop g ∧ alignUp stop g ≤ p.pageAddress page + p.pageSize ∧
      p.pageAddress page + p.pageSize < 2 ^ 32 := by
  have hend := p.pageAddress_add_le_end hpage
  have hlt := hu.end_lt
  refine ⟨le_alignDown (dvd_pageAddress hg) hstart (by omega), alignDown_le _ _,
    le_alignUp (granularity_pos hg) (granularity_le hg) (by omega), ?_, by omega⟩
  exact alignUp_le (Nat.dvd_add (dvd_pageAddress hg) hg) hstop

end Partition

theorem Cells.take_drop_slice (cells : Cells) {lower length skipped count : Nat}
    (h : skipped + count ≤ length) :
    ((cells.slice lower length).drop skipped).take count = cells.slice (lower + skipped) count := by
  refine List.ext_getElem? fun i => ?_
  rw [List.getElem?_take, List.getElem?_drop, getElem?_slice, getElem?_slice]
  by_cases hi : i < count
  · rw [if_pos hi, if_pos hi, if_pos (by omega), Nat.add_assoc]
  · rw [if_neg hi, if_neg hi]

/-- Programming depends on the byte that each cell meets. -/
theorem Cells.program_congr {cells : Cells} {start start' : Nat} {bytes bytes' : Bytes}
    (h : ∀ position, byteAt start bytes position = byteAt start' bytes' position) :
    cells.program start bytes = cells.program start' bytes' := by
  refine Array.ext_getElem? fun position => ?_
  rw [getElem?_program, getElem?_program, h]

theorem Cells.byteAt_part (start skipped count : Nat) (bytes : Bytes) (position : Nat) :
    byteAt (start + skipped) ((bytes.drop skipped).take count) position =
      if start + skipped ≤ position ∧ position < start + skipped + count then
        byteAt start bytes position
      else 0xFF := by
  rcases Nat.lt_or_ge position (start + skipped) with hlt | hge
  · rw [byteAt_of_lt _ hlt, if_neg (by omega)]
  · obtain ⟨i, rfl⟩ := Nat.exists_eq_add_of_le hge
    rw [byteAt_add, List.getD_eq_getElem?_getD, List.getElem?_take]
    rw [Nat.add_assoc start, byteAt_add, List.getD_eq_getElem?_getD, List.getElem?_drop]
    by_cases hi : i < count
    · rw [if_pos hi, if_pos (by omega)]
    · rw [if_neg hi, if_neg (by omega), Option.getD_none]

/-- Ones behind the bytes of a write leave their cells as they are. -/
theorem Cells.byteAt_append_ones (start : Nat) (bytes : Bytes) (n position : Nat) :
    byteAt start (bytes ++ List.replicate n 0xFF) position = byteAt start bytes position := by
  rcases Nat.lt_or_ge position start with hlt | hge
  · rw [byteAt_of_lt _ hlt, byteAt_of_lt _ hlt]
  · obtain ⟨i, rfl⟩ := Nat.exists_eq_add_of_le hge
    rw [byteAt_add, byteAt_add, List.getD_eq_getElem?_getD, List.getD_eq_getElem?_getD]
    rcases Nat.lt_or_ge i bytes.length with hlt | hge'
    · rw [List.getElem?_append_left hlt]
    · rw [List.getElem?_append_right hge', List.getElem?_eq_none hge', List.getElem?_replicate]
      split <;> rfl

/-- Ones in front of the bytes of a write move it on. -/
theorem Cells.byteAt_ones_append (start n : Nat) (bytes : Bytes) (position : Nat) :
    byteAt start (List.replicate n 0xFF ++ bytes) position = byteAt (start + n) bytes position := by
  rcases Nat.lt_or_ge position start with hlt | hge
  · rw [byteAt_of_lt _ hlt, byteAt_of_lt _ (by omega)]
  · obtain ⟨i, rfl⟩ := Nat.exists_eq_add_of_le hge
    rw [byteAt_add, List.getD_eq_getElem?_getD]
    rcases Nat.lt_or_ge i n with hlt | hge'
    · rw [List.getElem?_append_left (by simpa using hlt), byteAt_of_lt _ (by omega),
        List.getElem?_replicate, if_pos hlt, Option.getD_some]
    · obtain ⟨k, rfl⟩ := Nat.exists_eq_add_of_le hge'
      rw [List.getElem?_append_right (by simp), List.length_replicate, Nat.add_sub_cancel_left,
        ← Nat.add_assoc, byteAt_add, List.getD_eq_getElem?_getD]

/-- The padding of a write meets its cells with ones. -/
theorem Chip.byteAt_padded {chip : Chip} {start : Nat} (bytes : Bytes) (position : Nat)
    (hlower : alignDown start chip.writeSize ≤ start) :
    Cells.byteAt (alignDown start chip.writeSize) (chip.padded start bytes) position =
      Cells.byteAt start bytes position := by
  rw [padded, Cells.byteAt_append_ones, Cells.byteAt_ones_append, Nat.add_sub_cancel' hlower]

/-! ## Widened accesses -/

theorem Chip.readWidened_eq (chip : Chip) {position start : Nat} (length : Nat)
    (h : (busAddress position).toNat = start) :
    chip.readWidened position length =
      .request (.read (busAddress (alignDown start chip.readSize))
          (alignUp (start + length) chip.readSize - alignDown start chip.readSize))
        fun answer => .done (answer.map fun bytes =>
          (bytes.drop (start - alignDown start chip.readSize)).take length) := by
  subst h
  rfl

theorem Chip.writePadded_eq (chip : Chip) {position start : Nat} (bytes : Bytes)
    (h : (busAddress position).toNat = start) :
    chip.writePadded position bytes =
      .request (.write (busAddress (alignDown start chip.writeSize)) (chip.padded start bytes))
        .done := by
  subst h
  rfl

namespace Partition

variable {p : Partition} {conduct : Conduct} {inv : Cells → Prop} {cells : Cells}
  {page position : Nat}

theorem always_readWidened (hu : p.Usable) (hpage : page < p.pageCount) {length : Nat}
    (hlow : p.pageAddress page ≤ position)
    (hhigh : position + length ≤ p.pageAddress page + p.pageSize)
    {post : Option Bytes → Cells → Prop} (hinv : inv cells)
    (hok : position + length ≤ cells.size → post (some (cells.slice position length)) cells)
    (hfail : (conduct = .reliable → cells.size < p.pageAddress page + p.pageSize) →
      post none cells) :
    (p.chip.readWidened position length).Always conduct inv cells post := by
  obtain ⟨-, hlower, hupper, hupper', hend⟩ := widened_bounds hu hu.readSize_dvd hpage hlow
    (Nat.le_add_right position length) hhigh
  have hposition : (Chip.busAddress position).toNat = position :=
    Chip.toNat_busAddress (by omega)
  rw [Chip.readWidened_eq _ _ hposition]
  generalize alignDown position p.chip.readSize = lower at hlower
  generalize alignUp (position + length) p.chip.readSize = upper at hupper hupper'
  have hlow' : (Chip.busAddress lower).toNat = lower := Chip.toNat_busAddress (by omega)
  intro answer after hresponds
  cases answer with
  | none =>
    obtain ⟨hrefused, rfl⟩ := hresponds
    refine ⟨hinv, hfail fun hreliable => ?_⟩
    have hlt := hrefused hreliable
    omega
  | some bytes =>
    obtain ⟨hsize, rfl, rfl⟩ := hresponds
    refine ⟨hinv, ?_⟩
    show post (some (((after.slice (Chip.busAddress lower).toNat (upper - lower)).drop
      (position - lower)).take length)) after
    rw [hlow', Cells.take_drop_slice _ (by omega), Nat.add_sub_cancel' hlower]
    exact hok (by omega)

theorem always_writePadded (hu : p.Usable) (hpage : page < p.pageCount) {bytes : Bytes}
    (hlow : p.pageAddress page ≤ position)
    (hhigh : position + bytes.length ≤ p.pageAddress page + p.pageSize)
    (hcells : p.base + p.size ≤ cells.size) {post : Bool → Cells → Prop}
    (hok : inv (cells.program position bytes) ∧ post true (cells.program position bytes))
    (hfail : conduct ≠ .reliable → ∀ skipped count, conduct.MaySplit count →
      inv (cells.program (position + skipped) ((bytes.drop skipped).take count)) ∧
        post false (cells.program (position + skipped) ((bytes.drop skipped).take count))) :
    (p.chip.writePadded position bytes).Always conduct inv cells post := by
  obtain ⟨-, hlower, hupper, hupper', hend⟩ := widened_bounds hu hu.writeSize_dvd hpage hlow
    (Nat.le_add_right position bytes.length) hhigh
  have hpage' := p.pageAddress_add_le_end hpage
  have hposition : (Chip.busAddress position).toNat = position :=
    Chip.toNat_busAddress (by omega)
  have hbyte := fun i => Chip.byteAt_padded bytes i hlower
  have hlength : (p.chip.padded position bytes).length =
      alignUp (position + bytes.length) p.chip.writeSize -
        alignDown position p.chip.writeSize := by
    simp only [Chip.padded, List.length_append, List.length_replicate]
    omega
  rw [Chip.writePadded_eq _ _ hposition]
  generalize alignUp (position + bytes.length) p.chip.writeSize = upper at hupper hupper' hlength
  generalize alignDown position p.chip.writeSize = lower at hlower hbyte hlength
  have hlow' : (Chip.busAddress lower).toNat = lower := Chip.toNat_busAddress (by omega)
  intro answer after hresponds
  cases answer with
  | true =>
    obtain ⟨-, rfl⟩ := hresponds
    rw [hlow', Cells.program_congr hbyte]
    exact hok
  | false =>
    obtain ⟨hrefused, skipped, count, htear, rfl⟩ := hresponds
    have hnot : conduct ≠ .reliable := by
      intro hreliable
      have hlt := hrefused hreliable
      omega
    -- The padding changes no cell, so a part of the padded bytes acts like a part of the bytes.
    have hpart : cells.program ((Chip.busAddress lower).toNat + skipped)
        (((p.chip.padded position bytes).drop skipped).take count) =
        cells.program (position + (lower + skipped - position))
          ((bytes.drop (lower + skipped - position)).take
            (lower + skipped + count - (position + (lower + skipped - position)))) := by
      rw [hlow']
      refine Cells.program_congr fun i => ?_
      rw [Cells.byteAt_part, Cells.byteAt_part, hbyte]
      by_cases hi : i < position
      · rw [Cells.byteAt_of_lt _ hi, ite_self, ite_self]
      · by_cases hin : lower + skipped ≤ i ∧ i < lower + skipped + count
        · rw [if_pos hin, if_pos (by omega)]
        · rw [if_neg hin, if_neg (by omega)]
    rw [hpart]
    refine hfail hnot _ _ fun hconduct => ?_
    have hzero := htear hconduct
    omega

end Partition

/-! ## Programs of accesses -/

namespace AccessM

variable {α β : Type} {p : Partition} {conduct : Conduct} {inv : Image → Prop} {img : Image}

/-- A program of accesses keeps an invariant of the image and ends in a postcondition, or with a
refused access. -/
def Ensures (p : Partition) (conduct : Conduct) (inv : Image → Prop) (x : AccessM α) (img : Image)
    (post : α → Image → Prop) : Prop :=
  ∀ cells, p.Shows img cells → inv img →
    x.run.Always conduct (fun c => inv (p.image c)) cells fun result c =>
      match result with
      | .ok a => post a (p.image c)
      | .error error => error = .ioFailure ∧ conduct ≠ .reliable

theorem ensures_pure {a : α} {post : α → Image → Prop} (h : post a img) :
    Ensures p conduct inv (pure a) img post := by
  rintro cells ⟨-, rfl⟩ -
  exact h

theorem Ensures.bind {x : AccessM α} {f : α → AccessM β} {mid : α → Image → Prop}
    {post : β → Image → Prop} (hx : Ensures p conduct inv x img mid)
    (hf : ∀ a img', mid a img' → Ensures p conduct inv (f a) img' post) :
    Ensures p conduct inv (x >>= f) img post := by
  intro cells hshows hinv
  rw [ExceptT.run_bind, FlashM.always_bind]
  have hkeep := (hx cells hshows hinv).keep (hshows.image_eq ▸ hinv)
  refine hkeep.mono (fun _ h => h) ?_
  rintro (error | a) after ⟨hafter, hsize, hmid⟩
  · exact hmid
  · exact hf a _ hmid after ⟨hsize ▸ hshows.end_le, rfl⟩ hafter

theorem Ensures.mono {x : AccessM α} {post post' : α → Image → Prop}
    (hx : Ensures p conduct inv x img post) (h : ∀ a img', post a img' → post' a img') :
    Ensures p conduct inv x img post' := by
  intro cells hshows hinv
  refine (hx cells hshows hinv).mono (fun _ h => h) ?_
  rintro (error | a) after hpost
  · exact hpost
  · exact h a _ hpost

/-- The invariant may be used. -/
theorem ensures_of_inv {x : AccessM α} {post : α → Image → Prop}
    (h : inv img → Ensures p conduct inv x img post) : Ensures p conduct inv x img post :=
  fun cells hshows hinv => h hinv cells hshows hinv

/-- A program over a list keeps what each of its steps keeps. -/
theorem ensures_forM {f : β → AccessM Unit} (motive : List β → Image → Prop)
    (hstep : ∀ b rest img, motive (b :: rest) img →
      Ensures p conduct inv (f b) img fun _ img' => motive rest img')
    {bs : List β} (h : motive bs img) :
    Ensures p conduct inv (bs.forM f) img fun _ img' => motive [] img' := by
  induction bs generalizing img with
  | nil => exact ensures_pure h
  | cons b rest ih =>
    exact (hstep b rest img h).bind fun _ _ hrest => ih hrest

end AccessM

namespace Partition

open AccessM

variable {p : Partition} {conduct : Conduct} {inv : Image → Prop} {img : Image}
  {page offset : Nat}

theorem Shows.length_content {cells : Cells} (h : p.Shows img cells) (hpage : page < p.pageCount) :
    (img.content page).length = p.contentSize := by
  rw [← h.image_eq]
  exact p.length_content hpage h.end_le

/-- A content has the size that the partition gives it. -/
theorem ensures_of_length {α : Type} {x : AccessM α} {post : α → Image → Prop}
    (h : (∀ page < p.pageCount, (img.content page).length = p.contentSize) →
      Ensures p conduct inv x img post) : Ensures p conduct inv x img post :=
  fun cells hshows hinv => h (fun _ hpage => hshows.length_content hpage) cells hshows hinv

theorem run_ofBytes (access : FlashM (Option Bytes)) :
    (ofBytes access).run = access >>= fun answer =>
      match answer with
      | some bytes => pure (.ok bytes)
      | none => pure (.error .ioFailure) := by
  rw [ofBytes, ExceptT.run_bind]
  show (Except.ok <$> access) >>= _ = _
  rw [bind_map_left]
  congr 1

theorem run_ofGrant (access : FlashM Bool) :
    (ofGrant access).run = access >>= fun granted =>
      if granted then pure (.ok ()) else pure (.error .ioFailure) := by
  rw [ofGrant, ExceptT.run_bind]
  show (Except.ok <$> access) >>= _ = _
  rw [bind_map_left]
  congr 1

theorem ensures_ofBytes {access : FlashM (Option Bytes)} {post : Bytes → Image → Prop}
    (h : ∀ cells, p.Shows img cells → inv img →
      access.Always conduct (fun c => inv (p.image c)) cells fun answer c =>
        match answer with
        | some bytes => post bytes (p.image c)
        | none => conduct ≠ .reliable) :
    Ensures p conduct inv (ofBytes access) img post := by
  intro cells hshows hinv
  rw [run_ofBytes, FlashM.always_bind]
  refine (h cells hshows hinv).mono (fun _ hc => hc) ?_
  rintro (_ | bytes) c hpost
  · exact ⟨rfl, hpost⟩
  · exact hpost

theorem ensures_ofGrant {access : FlashM Bool} {post : Image → Prop}
    (h : ∀ cells, p.Shows img cells → inv img →
      access.Always conduct (fun c => inv (p.image c)) cells fun answer c =>
        if answer then post (p.image c) else conduct ≠ .reliable) :
    Ensures p conduct inv (ofGrant access) img fun _ => post := by
  intro cells hshows hinv
  rw [run_ofGrant, FlashM.always_bind]
  refine (h cells hshows hinv).mono (fun _ hc => hc) ?_
  rintro (_ | _) c hpost
  · exact ⟨rfl, hpost⟩
  · exact hpost

/-- A page is read with its status byte in front. -/
theorem slice_page {cells : Cells} (hpage : page < p.pageCount)
    (hcells : p.base + p.size ≤ cells.size) : ∃ byte,
      cells.slice (p.pageAddress page) p.pageSize = byte :: (p.image cells).content page ∧
        PageStatus.ofByte? byte = (p.image cells).status page := by
  have hend := p.pageAddress_add_le_end hpage
  have hsize := p.statusSize_add_contentSize
  have hpos := p.pageSize_pos
  have hlt : p.pageAddress page < cells.size := by omega
  refine ⟨cells[p.pageAddress page], List.ext_getElem? fun i => ?_, ?_⟩
  · rw [Cells.getElem?_slice]
    cases i with
    | zero => rw [if_pos hpos, Nat.add_zero, Array.getElem?_eq_getElem hlt]; rfl
    | succ i =>
      rw [List.getElem?_cons_succ, getElem?_content, contentAddress, statusSize, Nat.add_assoc,
        Nat.add_comm 1 i]
      have hiff : i + 1 < p.pageSize ↔ i < p.contentSize := by
        rw [← hsize, statusSize]
        omega
      simp only [hiff]
  · simp only [image, Array.getElem?_eq_getElem hlt, Option.bind_some]

theorem ensures_readPage (hu : p.Usable) (hpage : page < p.pageCount) :
    Ensures p conduct inv (p.readPage page) img fun bytes img' =>
      img' = img ∧ ∃ byte, bytes = byte :: img.content page ∧
        PageStatus.ofByte? byte = img.status page := by
  refine ensures_ofBytes fun cells hshows hinv => ?_
  have hend := p.pageAddress_add_le_end hpage
  have hcells := hshows.end_le
  refine always_readWidened hu hpage (Nat.le_refl _) (Nat.le_refl _)
    (hshows.image_eq ▸ hinv) (fun _ => ⟨hshows.image_eq, ?_⟩) fun hfail hreliable => ?_
  · rw [← hshows.image_eq]
    exact slice_page hpage hcells
  · have hlt := hfail hreliable
    omega

theorem ensures_readContent (hu : p.Usable) (hpage : page < p.pageCount) {length : Nat}
    (h : offset + length ≤ p.contentSize) :
    Ensures p conduct inv (p.readContent page offset length) img fun bytes img' =>
      img' = img ∧ bytes = ((img.content page).drop offset).take length := by
  have hend := p.pageAddress_add_le_end hpage
  rw [readContent, if_neg (by omega)]
  split
  · next hzero =>
    rw [hzero]
    exact ensures_pure ⟨rfl, rfl⟩
  · refine ensures_ofBytes fun cells hshows hinv => ?_
    have hcells := hshows.end_le
    have haddress : p.contentAddress page (offset + length) ≤
      p.pageAddress page + p.pageSize := contentAddress_add_le h
    have hlow : p.pageAddress page ≤ p.contentAddress page offset := by
      rw [contentAddress]
      omega
    refine always_readWidened hu hpage hlow ?_ (hshows.image_eq ▸ hinv)
      (fun _ => ⟨hshows.image_eq, ?_⟩) fun hfail hreliable => ?_
    · rw [contentAddress] at haddress ⊢
      omega
    · rw [← hshows.image_eq, image, Cells.take_drop_slice _ h]
      rfl
    · have hlt := hfail hreliable
      omega

/-- A status is written whole or not at all. -/
theorem ensures_writeStatus (hu : p.Usable) (hpage : page < p.pageCount) {old status : PageStatus}
    (hold : img.status page = some old) (hclear : old.toByte &&& status.toByte = status.toByte)
    (hinv' : inv (img.setStatus page status)) :
    Ensures p conduct inv (p.writeStatus page status) img fun _ img' =>
      img' = img.setStatus page status := by
  refine ensures_ofGrant fun cells hshows hinv => ?_
  have hpos := p.pageSize_pos
  have himage : p.image (cells.program (p.pageAddress page) [status.toByte]) =
      img.setStatus page status := by
    rw [← hshows.image_eq]
    exact image_program_status (hshows.image_eq ▸ hold) hclear
  refine always_writePadded hu hpage (Nat.le_refl _) ?_ hshows.end_le ?_ ?_
  · rw [List.length_singleton]
    omega
  · rw [himage]
    exact ⟨hinv', rfl⟩
  · intro hnot skipped count _
    refine ⟨?_, hnot⟩
    -- A part of a single byte is all of it or nothing.
    have hpart : ([status.toByte].drop skipped).take count = [] ∨
        skipped = 0 ∧ ([status.toByte].drop skipped).take count = [status.toByte] := by
      cases skipped with
      | succ skipped => left; simp
      | zero => cases count <;> simp
    rcases hpart with hnil | ⟨rfl, hall⟩
    · rw [hnil]
      exact hshows.image_eq ▸ hinv
    · rw [hall, Nat.add_zero, himage]
      exact hinv'

/-- A write within a content may be torn. -/
theorem ensures_writeContent (hu : p.Usable) (hpage : page < p.pageCount) {bytes : Bytes}
    (hne : bytes ≠ []) (h : offset + bytes.length ≤ p.contentSize)
    (hinv' : inv (img.setContent page (programmed (img.content page) offset bytes)))
    (htorn : conduct.SplitsWrites → ∀ skipped count,
      inv (img.setContent page (programmed (img.content page) (offset + skipped)
        ((bytes.drop skipped).take count)))) :
    Ensures p conduct inv (p.writeContent page offset bytes) img fun _ img' =>
      img' = img.setContent page (programmed (img.content page) offset bytes) := by
  rw [writeContent, if_neg (by omega), if_neg hne]
  refine ensures_ofGrant fun cells hshows hinv => ?_
  have haddress : p.contentAddress page (offset + bytes.length) ≤
      p.pageAddress page + p.pageSize := contentAddress_add_le h
  have hlow : p.pageAddress page ≤ p.contentAddress page offset := by
    rw [contentAddress]
    omega
  refine always_writePadded hu hpage hlow ?_ hshows.end_le ?_ ?_
  · rw [contentAddress] at haddress ⊢
    omega
  · rw [image_program_content h, hshows.image_eq]
    exact ⟨hinv', rfl⟩
  · intro hnot skipped count htear
    refine ⟨?_, hnot⟩
    have hadd : p.contentAddress page offset + skipped = p.contentAddress page (offset + skipped) :=
      Nat.add_assoc _ _ _
    by_cases hrange : skipped ≤ bytes.length
    · rw [hadd, image_program_content (by rw [List.length_take, List.length_drop]; omega),
        hshows.image_eq]
      by_cases hconduct : conduct.SplitsWrites
      · exact htorn hconduct skipped count
      · rw [htear hconduct, List.take_zero, programmed_nil, Image.setContent_self]
        exact hinv
    · rw [List.drop_eq_nil_of_le (by omega), List.take_nil]
      exact hshows.image_eq ▸ hinv

theorem ensures_writeTombstone (hu : p.Usable) (hpage : page < p.pageCount)
    (h : offset + headerSize ≤ p.contentSize)
    (hinv' : inv (img.setContent page
      (programmed (img.content page) (offset + keyOffset) tombstoneBytes)))
    (htorn : conduct.SplitsWrites → ∀ skipped count,
      inv (img.setContent page (programmed (img.content page) (offset + keyOffset + skipped)
        ((tombstoneBytes.drop skipped).take count)))) :
    Ensures p conduct inv (p.writeTombstone page offset) img fun _ img' =>
      img' = img.setContent page
        (programmed (img.content page) (offset + keyOffset) tombstoneBytes) :=
  ensures_writeContent hu hpage (by simp [tombstoneBytes, littleEndian]) h hinv' htorn

/-- An erase may be torn. -/
theorem ensures_erasePage (hu : p.Usable) (hpage : page < p.pageCount)
    (hinv' : inv (img.erase page))
    (htorn : conduct = .tearing → ∀ skipped count, inv (img.erasePart page skipped count)) :
    Ensures p conduct inv (p.erasePage page) img fun _ img' => img' = img.erase page := by
  refine ensures_ofGrant fun cells hshows hinv => ?_
  have hend := p.pageAddress_add_le_end hpage
  have hlt := hu.end_lt
  have hpos := p.pageSize_pos
  have hcells := hshows.end_le
  have hstart : (Chip.busAddress (p.pageAddress page)).toNat = p.pageAddress page :=
    Chip.toNat_busAddress (by omega)
  have hstop : (Chip.busAddress (p.pageAddress page + p.pageSize)).toNat =
      p.pageAddress page + p.pageSize := Chip.toNat_busAddress (by omega)
  intro answer after hresponds
  cases answer with
  | true =>
    obtain ⟨-, rfl⟩ := hresponds
    have himage : p.image (cells.erase (p.pageAddress page) p.pageSize) = img.erase page := by
      have hpart : p.image (cells.erase (p.pageAddress page + 0) p.pageSize) =
          (p.image cells).erasePart page 0 p.pageSize := image_erase (by omega) (by omega)
      have hsize := p.statusSize_add_contentSize
      rw [Nat.add_zero, hshows.image_eq] at hpart
      rw [hpart, Image.erasePart_of_lt]
      rw [hshows.length_content hpage, ← hsize, statusSize]
      omega
    rw [hstart, hstop, Nat.add_sub_cancel_left]
    refine ⟨?_, himage⟩
    show inv (p.image _)
    rw [himage]
    exact hinv'
  | false =>
    obtain ⟨hrefused, skipped, count, htear, hpart, rfl⟩ := hresponds
    rw [hstart, hstop, Nat.add_sub_cancel_left] at hpart
    rw [hstart]
    refine ⟨?_, ?_⟩
    · show inv (p.image _)
      rw [image_erase (by omega) hpart, hshows.image_eq]
      by_cases hconduct : conduct = .tearing
      · exact htorn hconduct skipped count
      · rw [htear hconduct, Image.erasePart_zero]
        exact hinv
    · intro hreliable
      rcases hrefused hreliable with hlt' | hlt'
      · rw [UInt32.lt_iff_toNat_lt, hstart, hstop] at hlt'
        omega
      · rw [hstop] at hlt'
        omega

end Partition

end RingStore
