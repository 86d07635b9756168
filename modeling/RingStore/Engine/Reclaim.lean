import RingStore.Engine.Basic

/-!
# Giving pages back

A page is erased once none of its records is live.  If the ring starts there, the marker is handed to
the next used page before the erase, so a reset in between leaves two markers.  Where no other page is
used, the page is erased and marked again.

Dropping the last live record of a full page empties it.  On the paths that write or delete, the page
is erased at once; a lookup leaves it to the sweep.
-/

namespace RingStore

/-- Where a record begins. -/
structure Location where
  page : Nat
  /-- The offset of the header within the page's content. -/
  offset : Nat
  deriving DecidableEq, Repr

/-- What becomes of a full page whose last live record is dropped. -/
inductive ReclaimPolicy where
  /-- It is erased at once. -/
  | immediate
  /-- It waits for the sweep. -/
  | deferred
  deriving DecidableEq, Repr

namespace Engine

/-- Erases a page without live records and hands on the ring-start marker if the page has it. -/
def reclaim (p : Partition) (page : Nat) : EngineM Unit := do
  let entry ← pageAt page
  if entry.status.ringStart then
    match (← get).successor? page with
    | some next =>
      let successor ← pageAt next
      setStatus p next successor.status.withMarker
      modify ({ · with ringStart := next })
      erasePage p page
    | none =>
      erasePage p page
      setStatus p page PageStatus.blank.withMarker
  else erasePage p page

/-- Drops a record.  Its bytes stay in place until the page is erased. -/
def drop (p : Partition) (location : Location) (policy : ReclaimPolicy) : EngineM Unit := do
  let entry ← pageAt location.page
  perform (p.writeTombstone location.page location.offset)
  let live := entry.live - 1
  modify (·.set location.page { entry with live })
  if live = 0 then
    match entry.kind, policy with
    | .full, .immediate => reclaim p location.page
    | .full, .deferred => setStatus p location.page (entry.status.withKind .unavailable)
    | _, _ => pure ()

/-- Erases a page if it waits for that, and counts it. -/
def sweepPage (p : Partition) (reclaimed page : Nat) : EngineM Nat := do
  if (← pageAt page).kind = .unavailable then
    reclaim p page
    return reclaimed + 1
  else return reclaimed

/-- Erases all pages that wait for it and returns their number. -/
def sweep (p : Partition) : EngineM Nat := do
  (List.range (← get).count).foldlM (sweepPage p) 0

end Engine

end RingStore
