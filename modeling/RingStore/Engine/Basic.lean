import RingStore.Partition.Access
import RingStore.Table

/-!
# The engine: accesses that keep the page table

`EngineM` programs access the chip and keep the page table.  The table outlives a failure: each
operation below changes the table only after the access it stands for has succeeded, so a failing
program leaves the table as the accesses before the failure made it.

A page number beyond the table, or a counter beyond 16 bits, ends the program with
`Error.inconsistent`.
-/

namespace RingStore

/-- Programs over the chip and the page table that may fail; the table outlives a failure. -/
abbrev EngineM := ExceptT Error (StateT Table FlashM)

/-- The counters of a page fit into 16 bits. -/
def maxCounter : Nat := 0xFFFF

namespace Engine

/-- Runs accesses that do not look at the table. -/
def perform {α : Type} (accesses : AccessM α) : EngineM α :=
  ExceptT.mk (StateT.lift accesses.run)

/-- What the table says of a page. -/
def pageAt (page : Nat) : EngineM Page := do
  match (← get).pages[page]? with
  | some entry => pure entry
  | none => throw .inconsistent

/-- Moves a page to another status. -/
def setStatus (p : Partition) (page : Nat) (status : PageStatus) : EngineM Unit := do
  let entry ← pageAt page
  perform (p.writeStatus page status)
  modify (·.set page { entry with status })

/-- Erases a page. -/
def erasePage (p : Partition) (page : Nat) : EngineM Unit := do
  let _ ← pageAt page
  perform (p.erasePage page)
  modify (·.set page .blank)

/-- The bytes of a page that no record takes yet. -/
def freeBytes (p : Partition) (page : Nat) : EngineM Nat := do
  let entry ← pageAt page
  if entry.used ≤ p.contentSize then pure (p.contentSize - entry.used) else throw .inconsistent

/-- Appends a record to a page with a single write. -/
def append (p : Partition) (page : Nat) (key : UInt16) (payload : Bytes) : EngineM Unit := do
  let entry ← pageAt page
  let bytes := (Record.ofPayload p.chip.checksum key payload).toBytes
  perform (p.writeContent page entry.used bytes)
  let used := entry.used + bytes.length
  let live := entry.live + 1
  if used ≤ maxCounter ∧ live ≤ maxCounter then modify (·.set page { entry with used, live })
  else throw .inconsistent

/-- Closes a page for appends.  A page without live records goes straight on to wait for its
erase. -/
def close (p : Partition) (page : Nat) : EngineM Unit := do
  let entry ← pageAt page
  setStatus p page (entry.status.withKind .full)
  if entry.live = 0 then setStatus p page (entry.status.withKind .unavailable)

end Engine

end RingStore
