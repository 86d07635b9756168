import RingStore.Error
import RingStore.Flash.Chip
import RingStore.Page.Record

/-!
# Partitions

A store lives in a partition of the chip: a run of equal pages that begins at a multiple of the page
size.  A `Partition` carries the proofs that its numbers fit, and `Partition.create` is the only
check of a caller's numbers.

## Main statements

* `Partition.create_eq_ok_iff`: exactly the numbers that fit are accepted, and they are kept.
-/

namespace RingStore

/-- The status byte in front of a page's content. -/
def statusSize : Nat := 1

/-- The smallest page has room for its status and one record of one byte. -/
def minPageSize : Nat := statusSize + minRecordSize

/-- Offsets within a page fit into 16 bits. -/
def maxPageSize : Nat := 0xFFFF

/-- Page numbers fit into 16 bits. -/
def maxPageCount : Nat := 0xFFFF

/-- A run of pages on a chip. -/
structure Partition where
  chip : Chip
  /-- The address of the first page. -/
  base : Nat
  pageSize : Nat
  pageCount : Nat
  eraseSize_pos : 0 < chip.eraseSize
  eraseSize_dvd : chip.eraseSize ∣ pageSize
  minPageSize_le : minPageSize ≤ pageSize
  pageSize_le : pageSize ≤ maxPageSize
  pageSize_dvd : pageSize ∣ base
  pageCount_pos : 0 < pageCount
  pageCount_le : pageCount ≤ maxPageCount
  end_le : base + pageCount * pageSize ≤ chip.capacity

namespace Partition

/-- Checks a partition of `size` bytes at `offset`: first the page size, then the offset, then the
size. -/
def create (chip : Chip) (offset size pageSize : Nat) : Except Error Partition :=
  if hpage : 0 < chip.eraseSize ∧ chip.eraseSize ∣ pageSize ∧
      minPageSize ≤ pageSize ∧ pageSize ≤ maxPageSize then
    if hoffset : pageSize ∣ offset then
      if hsize : 0 < size ∧ pageSize ∣ size ∧ size / pageSize ≤ maxPageCount ∧
          offset + size ≤ chip.capacity then
        .ok
          { chip
            base := offset
            pageSize
            pageCount := size / pageSize
            eraseSize_pos := hpage.1
            eraseSize_dvd := hpage.2.1
            minPageSize_le := hpage.2.2.1
            pageSize_le := hpage.2.2.2
            pageSize_dvd := hoffset
            pageCount_pos :=
              Nat.div_pos (Nat.le_of_dvd hsize.1 hsize.2.1)
                (Nat.lt_of_lt_of_le (by decide) hpage.2.2.1)
            pageCount_le := hsize.2.2.1
            end_le := by
              rw [Nat.div_mul_cancel hsize.2.1]
              exact hsize.2.2.2 }
      else .error .invalidPartitionSize
    else .error .invalidPartitionOffset
  else .error .invalidPageSize

/-- The bytes of a page that hold records. -/
def contentSize (p : Partition) : Nat := p.pageSize - statusSize

/-- The longest payload that fits into a page of this partition. -/
def maxPayload (p : Partition) : Nat := min (p.contentSize - headerSize) maxPayloadLength

/-- The address of a page. -/
def pageAddress (p : Partition) (page : Nat) : Nat := p.base + page * p.pageSize

theorem pageSize_pos (p : Partition) : 0 < p.pageSize :=
  Nat.lt_of_lt_of_le (by decide) p.minPageSize_le

/-- A payload that may be stored fits on a page behind its header. -/
theorem headerSize_add_le {p : Partition} {payload : Bytes} (hne : payload ≠ [])
    (hlength : payload.length ≤ p.maxPayload) : headerSize + payload.length ≤ p.contentSize := by
  have hle : payload.length ≤ p.contentSize - headerSize := Nat.le_trans hlength (Nat.min_le_left _ _)
  have hpos : 0 < payload.length := List.length_pos_iff.mpr hne
  omega

/-- The size of a partition in bytes. -/
def size (p : Partition) : Nat := p.pageCount * p.pageSize

theorem create_eq_ok_iff {chip : Chip} {offset size pageSize : Nat} {p : Partition} :
    create chip offset size pageSize = .ok p ↔
      p.chip = chip ∧ p.base = offset ∧ p.pageSize = pageSize ∧ p.size = size := by
  constructor
  · intro h
    unfold create at h
    split at h
    · split at h
      · split at h
        · next hsize =>
          cases h
          exact ⟨rfl, rfl, rfl, Nat.div_mul_cancel hsize.2.1⟩
        · cases h
      · cases h
    · cases h
  · rintro ⟨rfl, rfl, rfl, rfl⟩
    have hcount : p.size / p.pageSize = p.pageCount := Nat.mul_div_cancel _ p.pageSize_pos
    have hpage : 0 < p.chip.eraseSize ∧ p.chip.eraseSize ∣ p.pageSize ∧
        minPageSize ≤ p.pageSize ∧ p.pageSize ≤ maxPageSize :=
      ⟨p.eraseSize_pos, p.eraseSize_dvd, p.minPageSize_le, p.pageSize_le⟩
    have hsize : 0 < p.size ∧ p.pageSize ∣ p.size ∧ p.size / p.pageSize ≤ maxPageCount ∧
        p.base + p.size ≤ p.chip.capacity :=
      ⟨Nat.mul_pos p.pageCount_pos p.pageSize_pos, Nat.dvd_mul_left _ _,
        hcount.symm ▸ p.pageCount_le, p.end_le⟩
    rw [create, dif_pos hpage, dif_pos p.pageSize_dvd, dif_pos hsize]
    simp only [hcount]

end Partition

end RingStore
