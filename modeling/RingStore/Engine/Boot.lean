import RingStore.Engine.Basic
import RingStore.Page.Log

/-!
# The boot scan

The scan reads every page once and rebuilds the page table.  On the way it finishes what a reset cut
short:

* a page with an unknown status byte, or one that claims to be erased and is not, is erased;
* a damaged record is dropped;
* an active page with garbage behind its records is closed, and a full page without live records
  waits for its erase;
* of several pages with the ring-start marker one is kept, and a partition without any is formatted;
* of several active pages the one furthest from the ring start stays active.

Only formatting erases active or full pages.
-/

namespace RingStore

namespace Partition

/-- Moves a page on to a stage if that is due, and gives its status afterwards. -/
def advanceIf (p : Partition) (page : Nat) (due : Bool) (status : PageStatus) (kind : PageKind) :
    AccessM PageStatus :=
  if due then do
    p.writeStatus page (status.withKind kind)
    return status.withKind kind
  else return status

/-- Rebuilds what the table says of an active or full page from its content. -/
def recoverPage (p : Partition) (page : Nat) (status : PageStatus) (content : Bytes) :
    AccessM Page := do
  let log := Log.parse content
  let live := log.live p.chip.checksum
  (log.damaged p.chip.checksum).forM (p.writeTombstone page)
  let status ← p.advanceIf page (status.kind == .active && !log.isClean) status .full
  let status ← p.advanceIf page (status.kind == .full && live == 0) status .unavailable
  return ⟨status, log.used, live⟩

/-- Erases a page whose erase was cut short, with its marker kept. -/
def finishErase (p : Partition) (page : Nat) (status : PageStatus) : AccessM Unit := do
  p.erasePage page
  if status.ringStart then p.writeStatus page status

/-- Finishes what a reset cut short in a page, given its bytes. -/
def settlePage (p : Partition) (page : Nat) (status : PageStatus) (content : Bytes) :
    AccessM Page :=
  match status.kind with
  | .erased =>
    if isBlank content then return ⟨status, 0, 0⟩
    else do
      p.finishErase page status
      return ⟨status, 0, 0⟩
  | .unavailable => return ⟨status, p.contentSize, 0⟩
  | .active | .full => p.recoverPage page status content

/-- Reads a page and finishes what a reset cut short in it. -/
def loadPage (p : Partition) (page : Nat) : AccessM Page := do
  match ← p.readPage page with
  | [] => throw .inconsistent
  | byte :: content =>
    match PageStatus.ofByte? byte with
    | some status => p.settlePage page status content
    | none => do
      p.erasePage page
      return .blank

end Partition

namespace Engine

/-- Adds the next page to the table. -/
def loadNext (p : Partition) (page : Nat) : EngineM Unit := do
  let entry ← perform (p.loadPage page)
  modify (·.push entry)

/-- Erases a page unless nothing was ever written to it. -/
def wipe (p : Partition) (page : Nat) : EngineM Unit := do
  let entry ← pageAt page
  if entry.status ≠ .blank ∨ entry.used ≠ 0 then erasePage p page

/-- Erases all pages and starts the ring at the first one. -/
def format (p : Partition) : EngineM Unit := do
  (List.range (← get).count).forM (wipe p)
  setStatus p 0 ⟨.active, true⟩
  modify ({ · with ringStart := 0, head := 0 })

/-- Erases a page that kept its marker when the marker was handed on. -/
def dropStaleMarker (p : Partition) (ringStart page : Nat) : EngineM Unit := do
  let entry ← pageAt page
  if page ≠ ringStart ∧ entry.kind.holdsRecords = false then erasePage p page

/-- Settles at which page the ring starts.  A hand-over that was cut short leaves the marker on the
emptied page as well, so pages with records come first. -/
def settleRingStart (p : Partition) : EngineM Unit := do
  let t ← get
  let marked := (List.range t.count).filter t.isMarked
  let holding := marked.find? fun page => (t.kind? page).any (·.holdsRecords)
  match holding.or marked.head? with
  | none => format p
  | some start =>
    marked.forM (dropStaleMarker p start)
    modify ({ · with ringStart := start })

/-- Closes an active page unless it is the given one. -/
def closeOther (p : Partition) (newest : Option Nat) (page : Nat) : EngineM Unit := do
  let entry ← pageAt page
  if entry.kind = .active ∧ newest ≠ some page then close p page

/-- Settles which page appends go to and where searches begin. -/
def settleHead (p : Partition) : EngineM Unit := do
  let t ← get
  let newest := t.lastInRing? (t.isKind .active)
  (List.range t.count).forM (closeOther p newest)
  modify fun t =>
    { t with head := (newest.or (t.lastInRing? (!t.isKind .erased ·))).getD t.ringStart }

/-- Scans the partition and rebuilds the page table. -/
def load (p : Partition) : EngineM Unit := do
  modify ({ · with pages := #[] })
  (List.range p.pageCount).forM (loadNext p)
  settleRingStart p
  settleHead p

end Engine

end RingStore
