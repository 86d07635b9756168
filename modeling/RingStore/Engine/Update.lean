import RingStore.Engine.Lookup

/-!
# Writing and deleting

A value is appended to the active page.  If it does not fit there, an erased page is opened in its
place; if none is erased, a page that waits for its erase is reclaimed first.  The copy stored before
is dropped only after the new one was appended.
-/

namespace RingStore.Engine

/-- An erased page, reclaimed from the pages that wait for their erase if none is left. -/
def claimErased (p : Partition) : EngineM Nat := do
  match (← get).nextErased? with
  | some page => pure page
  | none =>
    match (← get).pending? with
    | none => throw .outOfSpace
    | some page =>
      reclaim p page
      match (← get).nextErased? with
      | some page => pure page
      | none => throw .outOfSpace

/-- Opens an erased page for appends and closes the one that was open. -/
def openNext (p : Partition) (active : Option Nat) : EngineM Nat := do
  let target ← claimErased p
  active.forM (close p)
  let entry ← pageAt target
  setStatus p target (entry.status.withKind .active)
  modify ({ · with head := target })
  return target

/-- The active page, if it has room for so many bytes. -/
def activeWithRoom (p : Partition) (active : Option Nat) (needed : Nat) :
    EngineM (Option Nat) := do
  match active with
  | some page => return if needed ≤ (← freeBytes p page) then some page else none
  | none => return none

/-- The page that a payload of a length goes to. -/
def selectPage (p : Partition) (length : Nat) : EngineM Nat := do
  let active := (← get).active?
  match ← activeWithRoom p active (headerSize + length) with
  | some page => return page
  | none => openNext p active

/-- Closes a page that no record fits into any more. -/
def closeIfFull (p : Partition) (page : Nat) : EngineM Unit := do
  if (← pageAt page).kind = .active then
    if (← freeBytes p page) < minRecordSize then close p page

/-- Stores a payload under a key.  A payload that is stored already does not touch the flash. -/
def writeItem (p : Partition) (key : UInt16) (payload : Bytes) : EngineM Unit := do
  if isValidKey key ∧ payload ≠ [] ∧ payload.length ≤ p.maxPayload then
    let old ← find p key
    if old.map (·.payload) = some payload then return
    let page ← selectPage p payload.length
    append p page key payload
    old.forM fun item => drop p item.location .immediate
    closeIfFull p page
  else throw .invalidArgument

/-- Drops a record of the key and counts it.  The walk ends with the page: dropping its last live
record may erase it. -/
def remove (p : Partition) (key : UInt16) (removed : Nat) (location : Location) (header : Header) :
    EngineM (ForInStep Nat) := do
  if header.carriesValue ∧ header.key = key then
    drop p location .immediate
    if (← pageAt location.page).kind.holdsRecords then return .yield (removed + 1)
    else return .done (removed + 1)
  else return .yield removed

/-- Deletes all copies of a key and returns their number. -/
def deleteItem (p : Partition) (key : UInt16) : EngineM Nat := do
  if isValidKey key then walkAll p (remove p key) 0 else throw .invalidArgument

end RingStore.Engine
