import RingStore.Flash.Widened
import RingStore.Page.Status
import RingStore.Partition

/-!
# Accesses to the pages of a partition

The store touches the chip in five ways: it reads a whole page, reads or writes a range of a page's
content, writes a status byte, and erases a page.  A range that does not lie within the content is
refused, and an empty one needs no access.  A failure of the chip is `Error.ioFailure`.
-/

namespace RingStore

/-- Programs over the chip that may fail. -/
abbrev AccessM := ExceptT Error FlashM

namespace AccessM

/-- Turns a refused write or erase into a failure. -/
def ofGrant (access : FlashM Bool) : AccessM Unit := do
  if ← access then pure () else throw .ioFailure

/-- Turns a refused read into a failure. -/
def ofBytes (access : FlashM (Option Bytes)) : AccessM Bytes := do
  match ← access with
  | some bytes => pure bytes
  | none => throw .ioFailure

end AccessM

namespace Partition

/-- Reads a page with its status byte. -/
def readPage (p : Partition) (page : Nat) : AccessM Bytes :=
  AccessM.ofBytes (p.chip.readWidened (p.pageAddress page) p.pageSize)

/-- The address of an offset within a page's content. -/
def contentAddress (p : Partition) (page offset : Nat) : Nat :=
  p.pageAddress page + statusSize + offset

/-- Reads a range of a page's content. -/
def readContent (p : Partition) (page offset length : Nat) : AccessM Bytes :=
  if p.contentSize < offset + length then throw .invalidArgument
  else if length = 0 then pure []
  else AccessM.ofBytes (p.chip.readWidened (p.contentAddress page offset) length)

/-- Programs a range of a page's content. -/
def writeContent (p : Partition) (page offset : Nat) (bytes : Bytes) : AccessM Unit :=
  if p.contentSize < offset + bytes.length then throw .invalidArgument
  else if bytes = [] then pure ()
  else AccessM.ofGrant (p.chip.writePadded (p.contentAddress page offset) bytes)

/-- Programs the status byte of a page. -/
def writeStatus (p : Partition) (page : Nat) (status : PageStatus) : AccessM Unit :=
  AccessM.ofGrant (p.chip.writePadded (p.pageAddress page) [status.toByte])

/-- Erases a page with its status byte. -/
def erasePage (p : Partition) (page : Nat) : AccessM Unit :=
  AccessM.ofGrant (Chip.eraseRange (p.pageAddress page) (p.pageAddress page + p.pageSize))

/-- Drops the record that begins at an offset of a page's content. -/
def writeTombstone (p : Partition) (page offset : Nat) : AccessM Unit :=
  p.writeContent page (offset + keyOffset) tombstoneBytes

end Partition

end RingStore
