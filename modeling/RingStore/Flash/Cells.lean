import RingStore.Bytes

/-!
# The cells of a flash

Programming a byte clears bits and never sets one, an erase sets all of them.  `Cells.program` and
`Cells.erase` say that for ranges, `Cells.overwrite` and `Cells.flip` change a byte in ways that no
access can: they stand for damage and for preparing a flash.

## Main statements

* `Cells.getElem?_program`, `Cells.getElem?_erase`, `Cells.getElem?_overwrite`: every cell after a
  change, in terms of the cell before; `Cells.getElem?_slice`: what a range shows of them.
* `Cells.size_program`, `Cells.size_erase`, …: nothing changes the number of cells.
-/

namespace RingStore

/-- The bytes of a flash, in address order. -/
abbrev Cells := Array UInt8

namespace Cells

/-- Replaces bytes from a position on. -/
def overwrite (cells : Cells) (start : Nat) : Bytes → Cells
  | [] => cells
  | b :: rest => overwrite (cells.setIfInBounds start b) (start + 1) rest

/-- Cells that hold one byte everywhere but in the given parts. -/
def ofImage (size : Nat) (fill : UInt8) (parts : List (Nat × Bytes)) : Cells :=
  parts.foldl (fun cells part => overwrite cells part.1 part.2) (Array.replicate size fill)

/-- The bytes of a range. -/
def slice (cells : Cells) (start length : Nat) : Bytes :=
  (cells.extract start (start + length)).toList

/-- Clears the bits that are zero in the given bytes, from a position on. -/
def program (cells : Cells) (start : Nat) : Bytes → Cells
  | [] => cells
  | b :: rest => program (cells.modify start (· &&& b)) (start + 1) rest

/-- Sets `length` bytes to `0xFF` from a position on. -/
def erase (cells : Cells) (start : Nat) : Nat → Cells
  | 0 => cells
  | length + 1 => erase (cells.setIfInBounds start 0xFF) (start + 1) length

/-- Inverts the bits of one byte that are set in a mask. -/
def flip (cells : Cells) (position : Nat) (mask : UInt8) : Cells :=
  cells.modify position (· ^^^ mask)

@[simp] theorem size_program (cells : Cells) (start : Nat) (bytes : Bytes) :
    (cells.program start bytes).size = cells.size := by
  induction bytes generalizing cells start with
  | nil => rfl
  | cons b rest ih => rw [program, ih, Array.size_modify]

@[simp] theorem size_erase (cells : Cells) (start length : Nat) :
    (cells.erase start length).size = cells.size := by
  induction length generalizing cells start with
  | zero => rfl
  | succ length ih => rw [erase, ih, Array.size_setIfInBounds]

@[simp] theorem size_overwrite (cells : Cells) (start : Nat) (bytes : Bytes) :
    (cells.overwrite start bytes).size = cells.size := by
  induction bytes generalizing cells start with
  | nil => rfl
  | cons b rest ih => rw [overwrite, ih, Array.size_setIfInBounds]

@[simp] theorem size_flip (cells : Cells) (position : Nat) (mask : UInt8) :
    (cells.flip position mask).size = cells.size := Array.size_modify

/-! ## Single cells -/

/-- The byte that a string laid down at `start` has at a position; `0xFF` outside of it. -/
def byteAt (start : Nat) (bytes : Bytes) (position : Nat) : UInt8 :=
  if start ≤ position then bytes.getD (position - start) 0xFF else 0xFF

theorem byteAt_cons (start : Nat) (b : UInt8) (rest : Bytes) (position : Nat) :
    byteAt start (b :: rest) position =
      if position = start then b else byteAt (start + 1) rest position := by
  unfold byteAt
  by_cases heq : position = start
  · simp [heq]
  · by_cases hle : start ≤ position
    · obtain ⟨distance, rfl⟩ : ∃ distance, position = start + 1 + distance :=
        ⟨position - (start + 1), by omega⟩
      have hsub : start + 1 + distance - start = distance + 1 := by omega
      simp [heq, hle, hsub]
    · simp [heq, hle, show ¬start + 1 ≤ position by omega]

theorem and_ones (b : UInt8) : b &&& 0xFF = b := UInt8.and_neg_one

/-- **Programming clears the bits that are zero in the given bytes**, and no others. -/
theorem getElem?_program (cells : Cells) (start : Nat) (bytes : Bytes) (position : Nat) :
    (cells.program start bytes)[position]? =
      cells[position]?.map (· &&& byteAt start bytes position) := by
  induction bytes generalizing cells start with
  | nil => simp [program, byteAt, and_ones]
  | cons b rest ih =>
    rw [program, ih, byteAt_cons, Array.getElem?_modify]
    by_cases heq : position = start
    · subst heq
      have hout : byteAt (position + 1) rest position = 0xFF := if_neg (by omega)
      simp [hout, and_ones, Function.comp_def]
    · simp [heq, Ne.symm heq]

/-- **An erase sets the cells of its range** and leaves the others as they are. -/
theorem getElem?_erase (cells : Cells) (start length position : Nat) :
    (cells.erase start length)[position]? =
      if start ≤ position ∧ position < start + length then cells[position]?.map fun _ => 0xFF
      else cells[position]? := by
  induction length generalizing cells start with
  | zero =>
    rw [erase, if_neg (by omega)]
  | succ length ih =>
    rw [erase, ih, Array.getElem?_setIfInBounds]
    by_cases heq : start = position
    · subst heq
      have hout : ¬(start + 1 ≤ start ∧ start < start + 1 + length) := by omega
      have hin : start ≤ start ∧ start < start + (length + 1) := by omega
      rw [if_neg hout, if_pos rfl, if_pos hin]
      by_cases hlt : start < cells.size
      · simp [hlt]
      · simp [hlt]
    · rw [if_neg heq]
      by_cases hin : start ≤ position ∧ position < start + (length + 1)
      · rw [if_pos (by omega), if_pos hin]
      · rw [if_neg (by omega), if_neg hin]

theorem getElem?_overwrite (cells : Cells) (start : Nat) (bytes : Bytes) (position : Nat) :
    (cells.overwrite start bytes)[position]? =
      if start ≤ position ∧ position < start + bytes.length then
        cells[position]?.map fun _ => byteAt start bytes position
      else cells[position]? := by
  induction bytes generalizing cells start with
  | nil =>
    have hout : ¬(start ≤ position ∧ position < start + ([] : Bytes).length) := by simp
    rw [overwrite, if_neg hout]
  | cons b rest ih =>
    rw [overwrite, ih, Array.getElem?_setIfInBounds, List.length_cons, byteAt_cons]
    by_cases heq : start = position
    · subst heq
      have hout : ¬(start + 1 ≤ start ∧ start < start + 1 + rest.length) := by omega
      have hin : start ≤ start ∧ start < start + (rest.length + 1) := by omega
      rw [if_neg hout, if_pos rfl, if_pos hin, if_pos rfl]
      by_cases hlt : start < cells.size
      · simp [hlt]
      · simp [hlt]
    · rw [if_neg heq, if_neg (Ne.symm heq)]
      by_cases hin : start ≤ position ∧ position < start + (rest.length + 1)
      · rw [if_pos (by omega), if_pos hin]
      · rw [if_neg (by omega), if_neg hin]

/-- A range has the bytes of its cells, as far as there are cells. -/
theorem getElem?_slice (cells : Cells) (start length index : Nat) :
    (cells.slice start length)[index]? = if index < length then cells[start + index]? else none := by
  rw [slice, Array.getElem?_toList, Array.getElem?_extract]
  by_cases hlength : index < length
  · rw [if_pos hlength]
    by_cases hcell : start + index < cells.size
    · rw [if_pos (by omega)]
    · rw [if_neg (by omega), Array.getElem?_eq_none (by omega)]
  · rw [if_neg hlength, if_neg (by omega)]

/-- The 32-bit FNV-1a hash of all bytes. -/
def fingerprint (cells : Cells) : UInt32 :=
  cells.foldl (fun hash b => (hash ^^^ b.toUInt32) * 0x01000193) 0x811c9dc5

end Cells

end RingStore
