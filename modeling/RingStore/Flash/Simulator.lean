import RingStore.Flash.Cells
import RingStore.Flash.Device

/-!
# A simulated flash

The simulator keeps the cells in memory, counts the accesses that succeed and notes every access in
a log.  Two kinds of trouble can be set up.  A fault plan gives limits: once so many accesses, writes
or erases have succeeded, the next one fails.  A write or erase that fails at a limit may still
take effect on the first or the last few bytes of its range.  A decay inverts bits of one byte as
soon as enough accesses have succeeded.

An access is treated in this order: a decay that is due, the bounds of the array, the limits, and
only then the access itself.
-/

namespace RingStore

/-- When accesses begin to fail.  The limits are counts of successful accesses. -/
structure FaultPlan where
  /-- No access succeeds from this count of accesses on. -/
  ops : Option Nat := none
  /-- No write succeeds from this count of writes on. -/
  writes : Option Nat := none
  /-- No erase succeeds from this count of erases on. -/
  erases : Option Nat := none
  /-- The plan ends with the first access that fails. -/
  once : Bool := false
  /-- So many bytes of a failing write or erase take effect. -/
  torn : Nat := 0
  /-- Those bytes are the last ones of the range, not the first ones. -/
  tail : Bool := false

/-- Bits of one byte that invert by themselves. -/
structure Decay where
  /-- The count of successful accesses from which on the decay happens. -/
  due : Nat
  position : Nat
  mask : UInt8

/-- An access and whether it succeeded. -/
structure Event where
  access : Access
  succeeded : Bool

/-- A flash in memory. -/
structure Simulator where
  cells : Cells
  /-- Successful accesses of any kind. -/
  ops : Nat := 0
  /-- Successful writes. -/
  writes : Nat := 0
  /-- Successful erases. -/
  erases : Nat := 0
  plan : FaultPlan := {}
  decay : Option Decay := none
  /-- The accesses since the log was last cleared. -/
  log : Array Event := #[]

namespace FaultPlan

/-- A limit holds back an access as soon as the count has reached it. -/
def reached (limit : Option Nat) (count : Nat) : Bool := limit.any (· ≤ count)

/-- The part of `length` bytes on which a failing access still takes effect, as the number of bytes
before it and the number of bytes in it. -/
def tornPart (plan : FaultPlan) (length : Nat) : Nat × Nat :=
  let count := min plan.torn length
  (if plan.tail then length - count else 0, count)

/-- The part lies within the access. -/
theorem tornPart_le (plan : FaultPlan) (length : Nat) :
    (plan.tornPart length).1 + (plan.tornPart length).2 ≤ length := by
  simp only [tornPart]
  split <;> omega

end FaultPlan

namespace Simulator

/-! ## Accesses -/

/-- Carries out a decay that is due. -/
def settle (flash : Simulator) : Simulator :=
  match flash.decay with
  | none => flash
  | some decay =>
    if decay.due ≤ flash.ops then
      { flash with cells := flash.cells.flip decay.position decay.mask, decay := none }
    else flash

/-- Notes an access that failed; a plan for a single failure ends with it. -/
def noteFailure (flash : Simulator) (access : Access) : Simulator :=
  { flash with
    log := flash.log.push ⟨access, false⟩
    plan := if flash.plan.once then {} else flash.plan }

/-- Notes and counts an access that succeeded. -/
def noteSuccess (flash : Simulator) (access : Access) : Simulator :=
  { flash with
    log := flash.log.push ⟨access, true⟩
    ops := flash.ops + 1 }

/-- The limit on accesses of any kind is reached. -/
def isExhausted (flash : Simulator) : Bool := FaultPlan.reached flash.plan.ops flash.ops

/-- Answers a read. -/
def read (flash : Simulator) (start : UInt32) (length : Nat) : Option Bytes × Simulator :=
  let flash := flash.settle
  if start.toNat + length > flash.cells.size || flash.isExhausted then
    (none, flash.noteFailure (.read start length))
  else
    (some (flash.cells.slice start.toNat length), flash.noteSuccess (.read start length))

/-- Answers a write. -/
def write (flash : Simulator) (start : UInt32) (bytes : Bytes) : Bool × Simulator :=
  let flash := flash.settle
  if start.toNat + bytes.length > flash.cells.size then
    (false, flash.noteFailure (.write start bytes))
  else if flash.isExhausted || FaultPlan.reached flash.plan.writes flash.writes then
    let (skipped, count) := flash.plan.tornPart bytes.length
    let part := (bytes.drop skipped).take count
    let flash := { flash with cells := flash.cells.program (start.toNat + skipped) part }
    (false, flash.noteFailure (.write start bytes))
  else
    let flash :=
      { flash with
        cells := flash.cells.program start.toNat bytes
        writes := flash.writes + 1 }
    (true, flash.noteSuccess (.write start bytes))

/-- Answers an erase. -/
def erase (flash : Simulator) (start stop : UInt32) : Bool × Simulator :=
  let flash := flash.settle
  let length := stop.toNat - start.toNat
  if start > stop || stop.toNat > flash.cells.size then
    (false, flash.noteFailure (.erase start stop))
  else if flash.isExhausted || FaultPlan.reached flash.plan.erases flash.erases then
    let (skipped, count) := flash.plan.tornPart length
    let flash := { flash with cells := flash.cells.erase (start.toNat + skipped) count }
    (false, flash.noteFailure (.erase start stop))
  else
    let flash :=
      { flash with
        cells := flash.cells.erase start.toNat length
        erases := flash.erases + 1 }
    (true, flash.noteSuccess (.erase start stop))

/-- The simulator as a device. -/
def device : Device Simulator
  | .read start length, flash => flash.read start length
  | .write start bytes, flash => flash.write start bytes
  | .erase start stop, flash => flash.erase start stop

/-! ## Setting up trouble -/

/-- Changes to a simulated flash that are not accesses. -/
inductive Intervention where
  /-- Replaces bytes, setting and clearing bits. -/
  | overwrite (position : Nat) (bytes : Bytes)
  /-- Inverts bits of one byte. -/
  | flip (position : Nat) (mask : UInt8)
  /-- Schedules a decay after some more accesses. -/
  | decay (after position : Nat) (mask : UInt8)
  /-- Lets accesses fail; the limits count from now on. -/
  | fault (plan : FaultPlan)
  /-- Lets all accesses succeed again. -/
  | heal

/-- Carries out an intervention. -/
def intervene (flash : Simulator) : Intervention → Simulator
  | .overwrite position bytes => { flash with cells := flash.cells.overwrite position bytes }
  | .flip position mask => { flash with cells := flash.cells.flip position mask }
  | .decay after position mask => { flash with decay := some ⟨flash.ops + after, position, mask⟩ }
  | .fault plan =>
    { flash with
      plan :=
        { plan with
          ops := plan.ops.map (flash.ops + ·)
          writes := plan.writes.map (flash.writes + ·)
          erases := plan.erases.map (flash.erases + ·) } }
  | .heal => { flash with plan := {} }

/-- Empties the log. -/
def clearLog (flash : Simulator) : Simulator := { flash with log := #[] }

end Simulator

end RingStore
