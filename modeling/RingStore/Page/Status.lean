/-!
# Page status

The first byte of a page is its status.  Seven bits hold the stage of the page's life, the eighth
one is cleared on the page at which the ring starts.  Each stage clears further bits of the one
before, so a page moves on by programming the byte in place.

## Main statements

* `PageStatus.ofByte?_toByte`: a written status is read back.
* `PageStatus.toByte_ofByte?`: no other byte reads as that status.
* `PageKind.code_and_code_next`: moving on only clears bits.
-/

namespace RingStore

/-- The stages of a page's life. -/
inductive PageKind where
  /-- Nothing was programmed since the last erase. -/
  | erased
  /-- The page takes new records. -/
  | active
  /-- The page takes no more records, but still holds live ones. -/
  | full
  /-- No record of the page is live, it waits for its erase. -/
  | unavailable
  deriving DecidableEq, Repr

namespace PageKind

/-- The seven bits that stand for a stage. -/
def code : PageKind → UInt8
  | erased => 0x7F
  | active => 0x7E
  | full => 0x7C
  | unavailable => 0x00

/-- The stage that seven bits stand for, if any. -/
def ofCode? (code : UInt8) : Option PageKind :=
  if code = erased.code then some erased
  else if code = active.code then some active
  else if code = full.code then some full
  else if code = unavailable.code then some unavailable
  else none

@[simp] theorem ofCode?_code (kind : PageKind) : ofCode? kind.code = some kind := by
  cases kind <;> rfl

theorem code_of_ofCode? {byte : UInt8} {kind : PageKind} (h : ofCode? byte = some kind) :
    kind.code = byte := by
  unfold ofCode? at h
  split at h
  · next e => cases h; exact e.symm
  · split at h
    · next e => cases h; exact e.symm
    · split at h
      · next e => cases h; exact e.symm
      · split at h
        · next e => cases h; exact e.symm
        · cases h

/-- The stage that follows. -/
def next : PageKind → PageKind
  | erased => active
  | active => full
  | full => unavailable
  | unavailable => unavailable

/-- **Moving on to the next stage only clears bits.** -/
theorem code_and_code_next (kind : PageKind) : kind.code &&& kind.next.code = kind.next.code := by
  cases kind <;> rfl

/-- Only pages that took records and were not emptied can hold live ones. -/
def holdsRecords : PageKind → Bool
  | active | full => true
  | erased | unavailable => false

theorem holdsRecords_iff {kind : PageKind} : kind.holdsRecords = true ↔ kind = active ∨ kind = full := by
  cases kind <;> simp [holdsRecords]

theorem ne_erased_of_holdsRecords {kind : PageKind} (h : kind.holdsRecords = true) :
    kind ≠ erased := by
  rintro rfl
  cases h

end PageKind

/-- The stage of a page and whether the ring starts there. -/
structure PageStatus where
  kind : PageKind
  ringStart : Bool
  deriving DecidableEq, Repr

namespace PageStatus

/-- The status of a page right after its erase. -/
def blank : PageStatus := ⟨.erased, false⟩

/-- The status at another stage, with its marker kept. -/
def withKind (status : PageStatus) (kind : PageKind) : PageStatus := { status with kind }

/-- The status with the ring-start marker. -/
def withMarker (status : PageStatus) : PageStatus := { status with ringStart := true }

/-- The status byte: bit 7 is cleared on the page at which the ring starts. -/
def toByte (status : PageStatus) : UInt8 :=
  (if status.ringStart then 0x00 else 0x80) ||| status.kind.code

/-- Reads a status byte; an unknown stage gives nothing. -/
def ofByte? (byte : UInt8) : Option PageStatus :=
  (PageKind.ofCode? (byte &&& 0x7F)).map fun kind => ⟨kind, byte &&& 0x80 == 0⟩

@[simp] theorem toByte_blank : blank.toByte = 0xFF := rfl

@[simp] theorem ofByte?_toByte (status : PageStatus) : ofByte? status.toByte = some status := by
  obtain ⟨kind, ringStart⟩ := status
  cases kind <;> cases ringStart <;> rfl

/-- A byte is its top bit and its seven low bits. -/
theorem topBit_or_lowBits (byte : UInt8) :
    (if (byte &&& 0x80 == 0) = true then (0x00 : UInt8) else 0x80) ||| (byte &&& 0x7F) = byte := by
  have h : ∀ n : Fin 256, (if (UInt8.ofFin n &&& 0x80 == 0) = true then (0x00 : UInt8) else 0x80) |||
      (UInt8.ofFin n &&& 0x7F) = UInt8.ofFin n := by decide +kernel
  exact h byte.toFin

theorem toByte_ofByte? {byte : UInt8} {status : PageStatus} (h : ofByte? byte = some status) :
    status.toByte = byte := by
  obtain ⟨kind, hkind, rfl⟩ := Option.map_eq_some_iff.mp h
  unfold toByte
  rw [PageKind.code_of_ofCode? hkind]
  exact topBit_or_lowBits byte

end PageStatus

end RingStore
