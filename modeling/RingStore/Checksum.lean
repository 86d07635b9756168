import RingStore.Bytes

/-!
# Checksums

A record carries one byte of checksum over its payload.  The checksum is a function of a start
value and the payload; a chip may bring its own.  The usual one is CRC-8/MAXIM: a shift register
with the reflected polynomial `0x8C`, fed with the least significant bit of each byte first.

## Main statements

* `Checksum.maxim_append`: a payload may be fed piece by piece.
-/

namespace RingStore

/-- A checksum takes a start value and a payload. -/
abbrev Checksum := UInt8 → Bytes → UInt8

namespace Checksum

/-- One step of the shift register: the bit shifted out decides whether the polynomial is added. -/
def shiftBit (register : UInt8) : UInt8 :=
  if register &&& 1 = 0 then register >>> 1 else (register >>> 1) ^^^ 0x8C

/-- Feeding one byte adds it to the register and shifts eight times. -/
def feed (register byte : UInt8) : UInt8 := Nat.repeat shiftBit 8 (register ^^^ byte)

/-- CRC-8/MAXIM. -/
def maxim : Checksum := fun start payload => payload.foldl feed start

/-- The sum modulo two of the start value and all bytes. -/
def xorSum : Checksum := fun start payload => payload.foldl (· ^^^ ·) start

theorem maxim_append (start : UInt8) (a b : Bytes) :
    maxim start (a ++ b) = maxim (maxim start a) b := List.foldl_append

end Checksum

end RingStore
