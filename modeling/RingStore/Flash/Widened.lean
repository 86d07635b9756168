import RingStore.Alignment
import RingStore.Flash.Chip
import RingStore.Flash.Program

/-!
# Accesses at the chip's granularity

A chip takes reads and writes at multiples of its granularities only.  A read is widened to such a
range and the requested bytes are cut out of the answer.  A write is padded with `0xFF` on both
sides: programming ones leaves the neighbouring cells as they are.  Addresses reach the chip as
words of 32 bits, so a start address is taken modulo `2 ^ 32` before it is widened.
-/

namespace RingStore.Chip

/-- The address that a position gets on the chip's bus. -/
def busAddress (position : Nat) : UInt32 := UInt32.ofNat position

/-- Reads bytes through a range widened to the read granularity. -/
def readWidened (chip : Chip) (position length : Nat) : FlashM (Option Bytes) := do
  let start := (busAddress position).toNat
  let lower := alignDown start chip.readSize
  let upper := alignUp (start + length) chip.readSize
  let answer ← FlashM.ask (.read (busAddress lower) (upper - lower))
  return answer.map fun bytes => (bytes.drop (start - lower)).take length

/-- A write padded with `0xFF` to the write granularity. -/
def padded (chip : Chip) (start : Nat) (bytes : Bytes) : Bytes :=
  let lower := alignDown start chip.writeSize
  let stop := start + bytes.length
  let upper := alignUp stop chip.writeSize
  List.replicate (start - lower) 0xFF ++ bytes ++ List.replicate (upper - stop) 0xFF

/-- Programs bytes through a range widened to the write granularity. -/
def writePadded (chip : Chip) (position : Nat) (bytes : Bytes) : FlashM Bool :=
  let start := (busAddress position).toNat
  FlashM.ask (.write (busAddress (alignDown start chip.writeSize)) (chip.padded start bytes))

/-- Erases a range; both of its ends reach the chip as bus addresses. -/
def eraseRange (start stop : Nat) : FlashM Bool :=
  FlashM.ask (.erase (busAddress start) (busAddress stop))

end RingStore.Chip
