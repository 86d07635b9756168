import RingStore.Engine.Reclaim

/-!
# Lookups

A lookup visits the pages from the head backward and the records of each page in log order.  It may
meet several copies of a key, left behind by writes that were cut short.  The first page met that
holds a copy decides, and on that page the last copy does.  All other copies are dropped on the way,
and so is every copy that fails its checksum.

A walk along a page ends, since every record has at least the size of its header.
-/

namespace RingStore

/-- The copy of a key that counts. -/
structure Found where
  location : Location
  payload : Bytes
  deriving DecidableEq, Repr

namespace Engine

/-- Reads the header of a record. -/
def readHeader (p : Partition) (location : Location) : EngineM Header := do
  match Header.take? (← perform (p.readContent location.page location.offset headerSize)) with
  | some (header, _) => pure header
  | none => throw .inconsistent

/-- Reads the payload of a record. -/
def readPayload (p : Partition) (location : Location) (header : Header) : EngineM Bytes :=
  perform (p.readContent location.page (location.offset + headerSize) header.length.toNat)

/-- Visits the records of a page in log order, from an offset on and as long as their headers lie
below a limit.  The visitor decides whether the walk goes on. -/
def walk {σ : Type} (p : Partition) (page limit : Nat)
    (visit : σ → Location → Header → EngineM (ForInStep σ)) (offset : Nat) (state : σ) :
    EngineM σ :=
  if _hlimit : offset + headerSize ≤ limit then do
    let header ← readHeader p ⟨page, offset⟩
    if header.length = endOfLog then pure state
    else
      match ← visit state ⟨page, offset⟩ header with
      | .done state => pure state
      | .yield state => walk p page limit visit (offset + header.recordSize) state
  else pure state
termination_by limit - offset
decreasing_by
  have hsize := header.recordSize_pos
  simp only [headerSize] at _hlimit
  omega

/-- Visits the records of a page if it can hold live ones. -/
def walkPage {σ : Type} (p : Partition) (visit : σ → Location → Header → EngineM (ForInStep σ))
    (state : σ) (page : Nat) : EngineM σ := do
  let entry ← pageAt page
  if entry.kind.holdsRecords then walk p page entry.used visit 0 state else pure state

/-- Visits the records of all pages, newest page first. -/
def walkAll {σ : Type} (p : Partition) (visit : σ → Location → Header → EngineM (ForInStep σ))
    (state : σ) : EngineM σ := do
  (← get).searchOrder.foldlM (walkPage p visit) state

/-- Compares a record with the best copy so far and drops the one that does not count. -/
def examine (p : Partition) (key : UInt16) (best : Option Found) (location : Location)
    (header : Header) : EngineM (ForInStep (Option Found)) := do
  if header.carriesValue ∧ header.key = key then
    let payload ← readPayload p location header
    if header.verify p.chip.checksum payload then
      match best with
      | none => return .yield (some ⟨location, payload⟩)
      | some current =>
        if current.location.page = location.page then
          drop p current.location .deferred
          return .yield (some ⟨location, payload⟩)
        else
          drop p location .deferred
          return .yield best
    else
      drop p location .deferred
      return .yield best
  else return .yield best

/-- Looks up the copy of a key that counts and drops all others. -/
def find (p : Partition) (key : UInt16) : EngineM (Option Found) :=
  walkAll p (examine p key) none

/-- The payload stored under a key. -/
def payloadOf (p : Partition) (key : UInt16) : EngineM (Option Bytes) := do
  if isValidKey key then return (← find p key).map (·.payload) else throw .invalidArgument

/-- The length of the payload stored under a key. -/
def lengthOf (p : Partition) (key : UInt16) : EngineM (Option Nat) :=
  return (← payloadOf p key).map (·.length)

/-- Copies the payload stored under a key to the front of a buffer, as far as it fits, and counts
the bytes copied. -/
def readItem (p : Partition) (key : UInt16) (buffer : Bytes) : EngineM (Nat × Bytes) := do
  if isValidKey key ∧ buffer ≠ [] then
    match ← find p key with
    | none => return (0, buffer)
    | some item =>
      let count := min item.payload.length buffer.length
      return (count, item.payload.take count ++ buffer.drop count)
  else throw .invalidArgument

end Engine

end RingStore
