/-!
# Causes of failure

Every operation of the store fails for one of the causes below.  `Error.inconsistent` is not one
that callers meet: it stands for a page table that does not describe the partition, and the engine
raises it in place of a read outside the table or a counter beyond its range.
-/

namespace RingStore

/-- Why an operation failed. -/
inductive Error where
  /-- The partition does not begin at a multiple of the page size. -/
  | invalidPartitionOffset
  /-- The partition is empty, not a whole number of pages, too long, or beyond the chip's end. -/
  | invalidPartitionSize
  /-- The page size is not a multiple of the erase size or outside the supported range. -/
  | invalidPageSize
  /-- A reserved key, an empty buffer, or a range that does not fit. -/
  | invalidArgument
  /-- The partition was not scanned yet. -/
  | notInitialized
  /-- The chip refused an access. -/
  | ioFailure
  /-- No page is free and none can be reclaimed. -/
  | outOfSpace
  /-- A stored value does not have the requested type. -/
  | corrupt
  /-- The page table contradicts itself. -/
  | inconsistent
  deriving DecidableEq, Repr

/-- The text shown for a failure. -/
def Error.message : Error → String
  | invalidPartitionOffset => "invalid partition offset"
  | invalidPartitionSize => "invalid partition size"
  | invalidPageSize => "invalid page size"
  | invalidArgument => "invalid argument"
  | notInitialized => "not initialized"
  | ioFailure => "flash i/o failure"
  | outOfSpace => "out of space"
  | corrupt => "corrupted data"
  | inconsistent => "inconsistent page table"

end RingStore
