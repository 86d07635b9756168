/-!
# Byte strings

Records, pages and flash accesses are byte strings.  Numbers inside them are little-endian:
`littleEndian n v` writes the low `n` bytes of `v` and `ofLittleEndian` reads a number back.

## Main statements

* `ofLittleEndian_littleEndian`: reading what was written gives the number modulo `wordBound n`.
* `littleEndian_ofLittleEndian`: writing what was read gives the bytes again.
-/

namespace RingStore

/-- A string of bytes. -/
abbrev Bytes := List UInt8

/-- A blank string holds nothing but unprogrammed bytes. -/
def isBlank (bytes : Bytes) : Bool := bytes.all (· == 0xFF)

theorem isBlank_iff {bytes : Bytes} : isBlank bytes = true ↔ ∀ b ∈ bytes, b = 0xFF := by
  simp [isBlank]

/-! ## Little-endian numbers -/

/-- The low `n` bytes of a number, least significant byte first. -/
def littleEndian : Nat → Nat → Bytes
  | 0, _ => []
  | n + 1, v => UInt8.ofNat v :: littleEndian n (v / 256)

/-- The number that a byte string stands for, least significant byte first. -/
def ofLittleEndian : Bytes → Nat
  | [] => 0
  | b :: rest => b.toNat + 256 * ofLittleEndian rest

/-- The number of values that so many bytes can have. -/
def wordBound : Nat → Nat
  | 0 => 1
  | n + 1 => 256 * wordBound n

@[simp] theorem length_littleEndian (n v : Nat) : (littleEndian n v).length = n := by
  induction n generalizing v with
  | zero => rfl
  | succ n ih => simp [littleEndian, ih]

theorem ofLittleEndian_lt (bytes : Bytes) : ofLittleEndian bytes < wordBound bytes.length := by
  induction bytes with
  | nil => exact Nat.zero_lt_one
  | cons b rest ih =>
    have hb : b.toNat < 256 := b.toNat_lt
    simp only [ofLittleEndian, List.length_cons, wordBound]
    omega

theorem ofLittleEndian_littleEndian (n v : Nat) :
    ofLittleEndian (littleEndian n v) = v % wordBound n := by
  induction n generalizing v with
  | zero => simp [littleEndian, ofLittleEndian, wordBound, Nat.mod_one]
  | succ n ih =>
    have hb : (UInt8.ofNat v).toNat = v % 256 := UInt8.toNat_ofNat'
    rw [littleEndian, ofLittleEndian, ih, hb, wordBound, Nat.mod_mul]

theorem littleEndian_ofLittleEndian (bytes : Bytes) :
    littleEndian bytes.length (ofLittleEndian bytes) = bytes := by
  induction bytes with
  | nil => rfl
  | cons b rest ih =>
    have hb : b.toNat < 256 := b.toNat_lt
    have hdiv : (b.toNat + 256 * ofLittleEndian rest) / 256 = ofLittleEndian rest := by omega
    have hlow : UInt8.ofNat (b.toNat + 256 * ofLittleEndian rest) = b := by
      apply UInt8.toNat_inj.mp
      rw [UInt8.toNat_ofNat']
      omega
    rw [ofLittleEndian, List.length_cons, littleEndian, hdiv, hlow, ih]

end RingStore
