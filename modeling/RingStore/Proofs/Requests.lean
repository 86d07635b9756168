import RingStore.Proofs.Access
import RingStore.Proofs.Steps

/-!
# What a store asks of its chip

Every access of a store is one of a few kinds: it reads a range within a page, it programs a status
byte, a record or a tombstone, padded with `0xFF` on both sides, or it erases a page.  `Partition.Heeds`
says that of an access, and of a granted write that the requested bytes stand in the flash afterwards.

The first part holds whatever the chip answers, as long as a read gives as many bytes as were asked for;
the flash may change its bytes as it likes between two accesses.  The last part needs a *lawful* chip,
on which accesses have the effects of flash accesses, torn ones included.  Both are shown together, and
`lawful : Prop` stands for the second case.

## Main statements

* `Cells.slice_program`: programming gives the requested bytes if it needs no bit to be set.
* `Partition.abides_readPage`, `Partition.abides_writeStatus`, `Partition.abides_writeRecord`,
  `Partition.abides_erasePage`: the accesses to pages are of these kinds.
-/

namespace RingStore

/-! ## Answers -/

/-- A read gives as many bytes as it was asked for. -/
def Access.Fills : (access : Access) → access.Answer → Prop
  | .read _ length, some bytes => bytes.length = length
  | .read _ _, none => True
  | .write _ _, _ => True
  | .erase _ _, _ => True

theorem Cells.length_slice {cells : Cells} {start length : Nat} (h : start + length ≤ cells.size) :
    (cells.slice start length).length = length := by
  rw [slice, Array.length_toList, Array.size_extract]
  omega

theorem Conduct.Responds.fills {conduct : Conduct} {cells after : Cells} {access : Access}
    {answer : access.Answer} (h : conduct.Responds cells access answer after) :
    access.Fills answer := by
  cases access with
  | read start length =>
    cases answer with
    | none => trivial
    | some bytes =>
      obtain ⟨hsize, rfl, -⟩ := h
      exact Cells.length_slice hsize
  | write start bytes => trivial
  | erase start stop => trivial

/-- The answers of a chip that fills its reads, and that behaves as flash does if it is lawful. -/
def Answers (lawful : Prop) : Reaction := fun cells access answer after =>
  access.Fills answer ∧ (lawful → Conduct.tearing.Responds cells access answer after)

/-! ## Writes that need no bit to be set -/

namespace Cells

/-- Programming these bytes from a position on needs no bit to be set. -/
def Takes (cells : Cells) (start : Nat) (bytes : Bytes) : Prop :=
  ∀ (i : Nat) (old byte : UInt8), cells[start + i]? = some old → bytes[i]? = some byte →
    old &&& byte = byte

variable {cells : Cells} {start : Nat} {bytes : Bytes}

/-- **Programming gives the requested bytes** if it needs no bit to be set. -/
theorem slice_program (h : cells.Takes start bytes) (hsize : start + bytes.length ≤ cells.size) :
    (cells.program start bytes).slice start bytes.length = bytes := by
  refine List.ext_getElem? fun i => ?_
  rw [getElem?_slice]
  by_cases hi : i < bytes.length
  · have hbyte : bytes[i]? = some bytes[i] := List.getElem?_eq_getElem hi
    have hcell : cells[start + i]? = some cells[start + i] := Array.getElem?_eq_getElem (by omega)
    rw [if_pos hi, getElem?_program, byteAt_add, List.getD_eq_getElem?_getD, hcell, hbyte,
      Option.map_some, Option.getD_some, h i _ _ hcell hbyte]
  · rw [if_neg hi, List.getElem?_eq_none (Nat.le_of_not_lt hi)]

theorem takes_singleton {old byte : UInt8} (hold : cells[start]? = some old)
    (hclear : old &&& byte = byte) : cells.Takes start [byte] := by
  intro i old' byte' hcell hbyte
  cases i with
  | zero =>
    rw [Nat.add_zero, hold] at hcell
    cases hcell
    cases hbyte
    exact hclear
  | succ i => cases hbyte

/-- Unprogrammed cells take everything. -/
theorem takes_of_blank (h : ∀ i < bytes.length, ∀ old, cells[start + i]? = some old → old = 0xFF) :
    cells.Takes start bytes := by
  intro i old byte hcell hbyte
  obtain ⟨hi, -⟩ := List.getElem?_eq_some_iff.mp hbyte
  rw [h i hi old hcell, UInt8.and_comm]
  exact and_ones byte

/-- Every cell takes a zero. -/
theorem takes_tombstone (cells : Cells) (start : Nat) : cells.Takes start tombstoneBytes := by
  intro i old byte _ hbyte
  have hmem : byte ∈ ([0, 0] : Bytes) := List.mem_of_getElem? hbyte
  obtain rfl : byte = 0 := by simpa using hmem
  exact UInt8.and_zero

/-- A programmed cell holds the requested byte. -/
theorem getElem?_program_of_takes {i : Nat} {byte : UInt8} (h : cells.Takes start bytes)
    (hbyte : bytes[i]? = some byte) (hcell : start + i < cells.size) :
    (cells.program start bytes)[start + i]? = some byte := by
  have hold : cells[start + i]? = some cells[start + i] := Array.getElem?_eq_getElem hcell
  rw [getElem?_program, byteAt_add, List.getD_eq_getElem?_getD, hold, hbyte, Option.map_some,
    Option.getD_some, h i _ _ hold hbyte]

/-- Cells in front of or behind the range of a write stay as they are. -/
theorem getElem?_program_of_not_mem {position : Nat}
    (h : position < start ∨ start + bytes.length ≤ position) :
    (cells.program start bytes)[position]? = cells[position]? := by
  have hout : byteAt start bytes position = 0xFF := by
    rcases h with hlt | hle
    · exact byteAt_of_lt _ hlt
    · exact byteAt_of_le hle
  rw [getElem?_program, hout]
  cases cells[position]? <;> simp [and_ones]

end Cells

/-! ## Widened ranges -/

/-- The granularities of a chip are words of 64 bits and not zero. -/
structure Chip.Granular (chip : Chip) : Prop where
  readSize_pos : 1 ≤ chip.readSize
  readSize_le : chip.readSize ≤ maxWord
  writeSize_pos : 1 ≤ chip.writeSize
  writeSize_le : chip.writeSize ≤ maxWord

theorem Chip.toNat_busAddress_lt (position : Nat) : (Chip.busAddress position).toNat < 2 ^ 32 :=
  (Chip.busAddress position).toNat_lt

/-- A widened range begins at or before its range and ends at or behind it. -/
theorem Chip.widened (g position count : Nat) (hpos : 1 ≤ g) (hg : g ≤ maxWord)
    (hcount : count ≤ maxPageSize) :
    (busAddress (alignDown (busAddress position).toNat g)).toNat =
        alignDown (busAddress position).toNat g ∧
      alignDown (busAddress position).toNat g ≤ (busAddress position).toNat ∧
      (busAddress position).toNat + count ≤ alignUp ((busAddress position).toNat + count) g := by
  have hlt := toNat_busAddress_lt position
  have hlower := alignDown_le (busAddress position).toNat g
  have hcount' : count ≤ 65535 := hcount
  exact ⟨toNat_busAddress (by omega), hlower, le_alignUp hpos hg (by omega)⟩

namespace Partition

/-! ## The kinds of accesses -/

/-- A range of addresses that lies within a page. -/
def Spans (p : Partition) (position count : Nat) : Prop :=
  ∃ page < p.pageCount, p.pageAddress page ≤ position ∧
    position + count ≤ p.pageAddress page + p.pageSize

/-- The bytes that a store asks to be programmed, and where. -/
inductive Requests (p : Partition) : Nat → Bytes → Prop
  /-- The status byte of a page. -/
  | status {page : Nat} (hpage : page < p.pageCount) (status : PageStatus) :
      Requests p (p.pageAddress page) [status.toByte]
  /-- A record whose length byte stands for the length of its payload. -/
  | record {page offset : Nat} {key : UInt16} {payload : Bytes} (hpage : page < p.pageCount)
      (hkey : isValidKey key = true) (hne : payload ≠ [])
      (hlength : (Header.ofPayload p.chip.checksum key payload).length.toNat = payload.length)
      (hfits : offset + (headerSize + payload.length) ≤ p.contentSize) :
      Requests p (p.contentAddress page offset)
        (Record.ofPayload p.chip.checksum key payload).toBytes
  /-- The key of a dropped record. -/
  | tombstone {page offset : Nat} (hpage : page < p.pageCount)
      (hfits : offset + headerSize ≤ p.contentSize) :
      Requests p (p.contentAddress page (offset + keyOffset)) tombstoneBytes

/-- A read of a range within a page, widened on both sides. -/
def Fetches (p : Partition) (start : UInt32) (length : Nat) : Prop :=
  ∃ position count front back, p.Spans position count ∧
    start.toNat + front = (Chip.busAddress position).toNat ∧ length = front + count + back

/-- A write of requested bytes, padded on both sides up to the granularity of writes. -/
structure Pads (p : Partition) (start : UInt32) (bytes : Bytes) (position : Nat) (requested : Bytes) :
    Prop where
  request : p.Requests position requested
  padding : ∃ front back, start.toNat + front = (Chip.busAddress position).toNat ∧
    bytes = List.replicate front 0xFF ++ requested ++ List.replicate back 0xFF
  begins : start.toNat = alignDown (Chip.busAddress position).toNat p.chip.writeSize
  ends : start.toNat + bytes.length =
    alignUp ((Chip.busAddress position).toNat + requested.length) p.chip.writeSize
  /-- The padded range ends at or behind the request. -/
  request_le : (Chip.busAddress position).toNat + requested.length ≤ start.toNat + bytes.length

/-- An erase of a page. -/
def Clears (p : Partition) (start stop : UInt32) : Prop :=
  ∃ page < p.pageCount, start = Chip.busAddress (p.pageAddress page) ∧
    stop = Chip.busAddress (p.pageAddress page + p.pageSize)

/-- An access of one of the kinds that a store asks for. -/
def Asks (p : Partition) : Access → Prop
  | .read start length => p.Fetches start length
  | .write start bytes => ∃ position requested, p.Pads start bytes position requested
  | .erase start stop => p.Clears start stop

/-- An access of these kinds.  After a granted write to a lawful chip the requested bytes, which are all
but the padding, stand in the flash. -/
def Heeds (p : Partition) (lawful : Prop) : Check
  | .read start length, _, _ => p.Fetches start length
  | .write start bytes, granted, after =>
    ∃ position requested, p.Pads start bytes position requested ∧
      (lawful → granted = true →
        after.slice (Chip.busAddress position).toNat requested.length = requested)
  | .erase start stop, _, _ => p.Clears start stop

theorem Heeds.asks {p : Partition} {lawful : Prop} {access : Access} {answer : access.Answer}
    {after : Cells} (h : p.Heeds lawful access answer after) : p.Asks access := by
  cases access with
  | read start length => exact h
  | write start bytes =>
    obtain ⟨position, requested, hpads, -⟩ := h
    exact ⟨position, requested, hpads⟩
  | erase start stop => exact h

/-- The granularities are words, and the partition is usable if the chip is to be lawful. -/
structure Workable (p : Partition) (lawful : Prop) : Prop where
  granular : p.chip.Granular
  usable : lawful → p.Usable

theorem Usable.granular {p : Partition} (h : p.Usable) : p.chip.Granular :=
  ⟨granularity_pos h.readSize_dvd, granularity_le h.readSize_dvd, granularity_pos h.writeSize_dvd,
    granularity_le h.writeSize_dvd⟩

theorem Usable.workable {p : Partition} (h : p.Usable) (lawful : Prop) : p.Workable lawful :=
  ⟨h.granular, fun _ => h⟩

variable {p : Partition} {lawful : Prop} {page offset position count : Nat} {bytes : Bytes}

theorem Spans.le_maxPageSize (h : p.Spans position count) : count ≤ maxPageSize := by
  obtain ⟨page, -, hlow, hhigh⟩ := h
  have hmax := p.pageSize_le
  omega

theorem Spans.le_end (h : p.Spans position count) :
    p.base ≤ position ∧ position + count ≤ p.base + p.size := by
  obtain ⟨page, hpage, hlow, hhigh⟩ := h
  have hend := p.pageAddress_add_le_end hpage
  rw [pageAddress] at hlow
  rw [pageAddress] at hhigh hend
  omega

theorem spans_page (hpage : page < p.pageCount) : p.Spans (p.pageAddress page) p.pageSize :=
  ⟨page, hpage, Nat.le_refl _, Nat.le_refl _⟩

theorem spans_content (hpage : page < p.pageCount) (h : offset + count ≤ p.contentSize) :
    p.Spans (p.contentAddress page offset) count := by
  have haddress : p.contentAddress page (offset + count) ≤ p.pageAddress page + p.pageSize :=
    contentAddress_add_le h
  rw [contentAddress] at haddress
  exact ⟨page, hpage, by rw [contentAddress]; omega, by rw [contentAddress]; omega⟩

theorem length_record (checksum : Checksum) (key : UInt16) (payload : Bytes) :
    (Record.ofPayload checksum key payload).toBytes.length = headerSize + payload.length := by
  rw [Record.toBytes, List.length_append, Header.length_toBytes]
  rfl

/-- What is programmed lies within a page. -/
theorem Requests.spans (h : p.Requests position bytes) : p.Spans position bytes.length := by
  cases h with
  | status hpage status =>
    have hpos := p.pageSize_pos
    exact ⟨_, hpage, Nat.le_refl _, by rw [List.length_singleton]; omega⟩
  | record hpage hkey hne hlength hfits =>
    rw [length_record]
    exact spans_content hpage hfits
  | tombstone hpage hfits => exact spans_content hpage hfits

/-- The address of a range is the one the chip gets, as a usable partition ends below `2 ^ 32`. -/
theorem Spans.toNat_busAddress (hu : p.Usable) (h : p.Spans position count) :
    (Chip.busAddress position).toNat = position :=
  Chip.toNat_busAddress (Nat.lt_of_le_of_lt (Nat.le_trans (Nat.le_add_right _ _) h.le_end.2) hu.end_lt)

end Partition

/-! ## Programs of accesses -/

namespace AccessM

variable {α β : Type} {p : Partition} {lawful : Prop} {cells : Cells}

/-- Every access is one that a store asks for, and the program ends in a postcondition or with an error
that callers may meet. -/
def Abides (p : Partition) (lawful : Prop) (x : AccessM α) (cells : Cells)
    (post : α → Cells → Prop) : Prop :=
  x.run.Abides (Answers lawful) (p.Heeds lawful) cells fun result after =>
    match result with
    | .ok a => post a after
    | .error error => error ≠ .inconsistent

theorem abides_pure {a : α} {post : α → Cells → Prop} (h : post a cells) :
    Abides p lawful (pure a) cells post := h

theorem abides_throw {error : Error} {post : α → Cells → Prop} (h : error ≠ .inconsistent) :
    Abides p lawful (throw error) cells post := h

theorem Abides.bind {x : AccessM α} {f : α → AccessM β} {mid : α → Cells → Prop}
    {post : β → Cells → Prop} (hx : Abides p lawful x cells mid)
    (hf : ∀ a after, mid a after → Abides p lawful (f a) after post) :
    Abides p lawful (x >>= f) cells post := by
  rw [Abides, ExceptT.run_bind, FlashM.abides_bind]
  refine hx.mono ?_
  rintro (error | a) after hmid
  · exact hmid
  · exact hf a after hmid

theorem Abides.mono {x : AccessM α} {post post' : α → Cells → Prop}
    (hx : Abides p lawful x cells post) (h : ∀ a after, post a after → post' a after) :
    Abides p lawful x cells post' := by
  refine FlashM.Abides.mono hx ?_
  rintro (error | a) after hpost
  · exact hpost
  · exact h a after hpost

/-- A program over a list keeps what each of its steps keeps. -/
theorem abides_forM {f : β → AccessM Unit} (inv : Cells → Prop)
    (hstep : ∀ b cells, inv cells → Abides p lawful (f b) cells fun _ after => inv after)
    (bs : List β) (h : inv cells) : Abides p lawful (bs.forM f) cells fun _ after => inv after := by
  induction bs generalizing cells with
  | nil => exact abides_pure h
  | cons b rest ih => exact (hstep b cells h).bind fun _ _ hrest => ih hrest

end AccessM

namespace Partition

open AccessM

variable {p : Partition} {lawful : Prop} {page offset position : Nat} {cells : Cells}

/-- A range within a page is read whole, and on a lawful chip the bytes are those of the cells. -/
theorem abides_readWidened (hw : p.Workable lawful) {length : Nat} (hspan : p.Spans position length) :
    Abides p lawful (ofBytes (p.chip.readWidened position length)) cells fun bytes after =>
      bytes.length = length ∧ (lawful → bytes = cells.slice position length ∧ after = cells) := by
  obtain ⟨start, hstart⟩ : ∃ start, (Chip.busAddress position).toNat = start := ⟨_, rfl⟩
  obtain ⟨hlow, hlower, hupper⟩ := Chip.widened p.chip.readSize position length
    hw.granular.readSize_pos hw.granular.readSize_le hspan.le_maxPageSize
  rw [Abides, run_ofBytes, FlashM.abides_bind, Chip.readWidened_eq _ _ hstart]
  rw [hstart] at hlow hlower hupper
  generalize alignDown start p.chip.readSize = lower at hlow hlower
  generalize alignUp (start + length) p.chip.readSize = upper at hupper
  rintro answer after ⟨hfills, hresponds⟩
  refine ⟨⟨position, length, start - lower, upper - (start + length), hspan, ?_, by omega⟩, ?_⟩
  · rw [hlow, hstart]
    omega
  · cases answer with
    | none => exact nofun
    | some bytes =>
      have hlength : bytes.length = upper - lower := hfills
      show ((bytes.drop (start - lower)).take length).length = length ∧ (lawful →
        (bytes.drop (start - lower)).take length = cells.slice position length ∧ after = cells)
      refine ⟨?_, fun hlawful => ?_⟩
      · rw [List.length_take, List.length_drop]
        omega
      · have hposition : start = position :=
          hstart.symm.trans (hspan.toNat_busAddress (hw.usable hlawful))
        obtain ⟨-, rfl, rfl⟩ := hresponds hlawful
        rw [hlow, Cells.take_drop_slice _ (by omega), Nat.add_sub_cancel' hlower, hposition]
        exact ⟨rfl, rfl⟩

/-- A requested write is padded on both sides, and a lawful chip programs it where the cells take it. -/
theorem abides_writePadded (hw : p.Workable lawful) {bytes : Bytes}
    (hrequest : p.Requests position bytes) (htakes : lawful → cells.Takes position bytes) :
    Abides p lawful (ofGrant (p.chip.writePadded position bytes)) cells fun _ after =>
      lawful → after = cells.program position bytes ∧ position + bytes.length ≤ cells.size := by
  have hspan := hrequest.spans
  obtain ⟨start, hstart⟩ : ∃ start, (Chip.busAddress position).toNat = start := ⟨_, rfl⟩
  obtain ⟨hlow, hlower, hupper⟩ := Chip.widened p.chip.writeSize position bytes.length
    hw.granular.writeSize_pos hw.granular.writeSize_le hspan.le_maxPageSize
  rw [Abides, run_ofGrant, FlashM.abides_bind, Chip.writePadded_eq _ _ hstart]
  rw [hstart] at hlow hlower hupper
  rintro answer after ⟨-, hresponds⟩
  have hlength : (p.chip.padded start bytes).length =
      alignUp (start + bytes.length) p.chip.writeSize - alignDown start p.chip.writeSize := by
    simp only [Chip.padded, List.length_append, List.length_replicate]
    omega
  have hpads : p.Pads (Chip.busAddress (alignDown start p.chip.writeSize)) (p.chip.padded start bytes)
      position bytes := by
    refine ⟨hrequest, ⟨start - alignDown start p.chip.writeSize,
      alignUp (start + bytes.length) p.chip.writeSize - (start + bytes.length), ?_, rfl⟩, ?_, ?_, ?_⟩
    · rw [hlow, hstart]
      omega
    · rw [hlow, hstart]
    · rw [hlow, hstart]
      omega
    · rw [hlow, hstart]
      omega
  have hprogram : lawful → answer = true →
      start = position ∧ after = cells.program position bytes ∧
        position + bytes.length ≤ cells.size := by
    intro hlawful hgranted
    have hposition : start = position :=
      hstart.symm.trans (hspan.toNat_busAddress (hw.usable hlawful))
    subst hgranted
    obtain ⟨hsize, rfl⟩ := hresponds hlawful
    rw [hlow] at hsize ⊢
    rw [Cells.program_congr fun i => Chip.byteAt_padded bytes i hlower, hposition]
    exact ⟨rfl, rfl, by omega⟩
  refine ⟨⟨position, bytes, hpads, fun hlawful hgranted => ?_⟩, ?_⟩
  · obtain ⟨hposition, rfl, hsize⟩ := hprogram hlawful hgranted
    rw [hstart, hposition]
    exact Cells.slice_program (htakes hlawful) hsize
  · cases answer with
    | false =>
      show Error.ioFailure ≠ .inconsistent
      decide
    | true => exact fun hlawful => (hprogram hlawful rfl).2

/-! ## Pages -/

theorem abides_readPage (hw : p.Workable lawful) (hpage : page < p.pageCount) :
    Abides p lawful (p.readPage page) cells fun bytes after =>
      bytes.length = p.pageSize ∧
        (lawful → bytes = cells.slice (p.pageAddress page) p.pageSize ∧ after = cells) :=
  abides_readWidened hw (spans_page hpage)

theorem abides_readContent (hw : p.Workable lawful) (hpage : page < p.pageCount) (length : Nat) :
    Abides p lawful (p.readContent page offset length) cells fun bytes after =>
      bytes.length = length ∧ (lawful → after = cells) := by
  rw [readContent]
  split
  · exact abides_throw (by decide)
  · next hfits =>
    split
    · next hzero => exact abides_pure ⟨hzero.symm, fun _ => rfl⟩
    · refine (abides_readWidened hw (spans_content hpage (Nat.le_of_not_lt hfits))).mono ?_
      exact fun _ _ h => ⟨h.1, fun hlawful => (h.2 hlawful).2⟩

theorem abides_writeStatus (hw : p.Workable lawful) (hpage : page < p.pageCount)
    (status : PageStatus) (htakes : lawful → cells.Takes (p.pageAddress page) [status.toByte]) :
    Abides p lawful (p.writeStatus page status) cells fun _ after =>
      lawful → after = cells.program (p.pageAddress page) [status.toByte] ∧
        p.pageAddress page < cells.size :=
  abides_writePadded hw (.status hpage status) htakes

theorem abides_erasePage (hw : p.Workable lawful) (hpage : page < p.pageCount) :
    Abides p lawful (p.erasePage page) cells fun _ after =>
      lawful → after = cells.erase (p.pageAddress page) p.pageSize ∧
        p.pageAddress page + p.pageSize ≤ cells.size := by
  rw [Abides, erasePage, run_ofGrant, FlashM.abides_bind]
  rintro answer after ⟨-, hresponds⟩
  refine ⟨⟨page, hpage, rfl, rfl⟩, ?_⟩
  cases answer with
  | false => exact nofun
  | true =>
    intro hlawful
    have hend := p.pageAddress_add_le_end hpage
    have hlt := (hw.usable hlawful).end_lt
    obtain ⟨hsize, rfl⟩ := hresponds hlawful
    rw [Chip.toNat_busAddress (by omega), Chip.toNat_busAddress (by omega), Nat.add_sub_cancel_left]
    rw [Chip.toNat_busAddress (by omega)] at hsize
    exact ⟨rfl, hsize⟩

/-- A record is programmed where the content is blank behind the others. -/
theorem abides_writeRecord (hw : p.Workable lawful) (hpage : page < p.pageCount) {key : UInt16}
    {payload : Bytes} (hkey : isValidKey key = true) (hne : payload ≠ [])
    (hlength : payload.length ≤ p.maxPayload)
    (htakes : lawful → cells.Takes (p.contentAddress page offset)
      (Record.ofPayload p.chip.checksum key payload).toBytes) :
    Abides p lawful
      (p.writeContent page offset (Record.ofPayload p.chip.checksum key payload).toBytes) cells
      fun _ after => offset + (headerSize + payload.length) ≤ p.contentSize ∧
        (lawful → after = cells.program (p.contentAddress page offset)
          (Record.ofPayload p.chip.checksum key payload).toBytes) := by
  rw [writeContent, length_record]
  split
  · exact abides_throw (by decide)
  · next hfits =>
    have hfilled : (Record.ofPayload p.chip.checksum key payload).toBytes ≠ [] :=
      List.cons_ne_nil _ _
    rw [if_neg hfilled]
    have hbyte : (Header.ofPayload p.chip.checksum key payload).length.toNat = payload.length := by
      have hmax : payload.length ≤ 254 := Nat.le_trans hlength (Nat.min_le_right _ _)
      exact UInt8.toNat_ofNat_of_lt' (show _ < 256 by omega)
    have hrequest : p.Requests (p.contentAddress page offset)
        (Record.ofPayload p.chip.checksum key payload).toBytes :=
      .record hpage hkey hne hbyte (Nat.le_of_not_lt hfits)
    refine (abides_writePadded hw hrequest htakes).mono fun _ _ h => ?_
    exact ⟨Nat.le_of_not_lt hfits, fun hlawful => (h hlawful).1⟩

theorem abides_writeTombstone (hw : p.Workable lawful) (hpage : page < p.pageCount) :
    Abides p lawful (p.writeTombstone page offset) cells fun _ after =>
      offset + keyOffset + tombstoneBytes.length ≤ p.contentSize ∧
        (lawful →
          after = cells.program (p.contentAddress page (offset + keyOffset)) tombstoneBytes) := by
  rw [writeTombstone, writeContent]
  split
  · exact abides_throw (by decide)
  · next hfits =>
    rw [if_neg (by decide)]
    have hrequest : p.Requests (p.contentAddress page (offset + keyOffset)) tombstoneBytes :=
      .tombstone hpage (Nat.le_of_not_lt hfits)
    refine (abides_writePadded hw hrequest fun _ => Cells.takes_tombstone _ _).mono fun _ _ h => ?_
    exact ⟨Nat.le_of_not_lt hfits, fun hlawful => (h hlawful).1⟩

end Partition

end RingStore
