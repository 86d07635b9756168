import RingStore.Checksum

/-!
# The flash chip as the store sees it

A chip is read and programmed in multiples of two granularities and erased in blocks.  It claims a
capacity and may bring its own checksum unit.
-/

namespace RingStore

/-- What the store has to know about a chip.  All sizes are bytes. -/
structure Chip where
  /-- Reads begin and end at multiples of this size. -/
  readSize : Nat
  /-- Writes begin and end at multiples of this size. -/
  writeSize : Nat
  /-- The erase block. -/
  eraseSize : Nat
  /-- The size the chip claims to have. -/
  capacity : Nat
  /-- The checksum kept with each record. -/
  checksum : Checksum

end RingStore
