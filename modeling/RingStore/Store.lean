import RingStore.Engine.Boot
import RingStore.Engine.Update
import RingStore.Firmware
import RingStore.Usage

/-!
# The store

A store is a partition, its page table, and a phase.  Nothing is read before the first `init`.  An
operation during which the chip fails leaves the table out of step with the flash, so the store is
marked as faulted and the next operation scans the partition again before it does its work.

`Store.guarded` adds that care to an engine program, `Store.direct` runs one on the table as it is.

## Main statements

* `Store.run_guarded_unready`: before a scan, an operation fails and touches nothing.
* `Store.run_recover_ready`: a table that describes the flash is not scanned again.
-/

namespace RingStore

/-- How far the page table can be trusted. -/
inductive Phase where
  /-- The partition was not scanned, or the last scan by `init` failed. -/
  | unready
  /-- The table describes the flash. -/
  | ready
  /-- An access failed, the partition has to be scanned again. -/
  | faulted
  deriving DecidableEq, Repr

/-- A store of values under 16-bit keys. -/
structure Store where
  partition : Partition
  table : Table
  phase : Phase

/-- Programs over the chip and the store that may fail; the store outlives a failure. -/
abbrev StoreM := ExceptT Error (StateT Store FlashM)

namespace Store

/-- A store over a partition that was not scanned yet. -/
def ofPartition (partition : Partition) : Store := ⟨partition, .empty, .unready⟩

/-- Creates a store on a run of bytes of a chip.  A page is an erase block unless another size is
given. -/
def create (chip : Chip) (offset size : Nat) (pageSize : Option Nat) : Except Error Store :=
  (Partition.create chip offset size (pageSize.getD chip.eraseSize)).map ofPartition

/-- Runs an engine program on the table as it is. -/
def direct {α : Type} (op : Partition → EngineM α) : StoreM α :=
  ExceptT.mk fun store => do
    let (result, table) ← (op store.partition).run.run store.table
    return (result, { store with table })

/-- Moves to another phase. -/
def setPhase (phase : Phase) : StoreM Unit := modify fun store => { store with phase }

/-- Scans the partition. -/
def init : StoreM Unit := do
  setPhase .unready
  direct Engine.load
  setPhase .ready

/-- Scans the partition again if an access failed since the last scan. -/
def recover : StoreM Unit := do
  match (← get).phase with
  | .unready => throw .notInitialized
  | .ready => return
  | .faulted =>
    direct Engine.load
    setPhase .ready

/-- Marks the store as faulted if the chip failed. -/
def noteFailure (error : Error) : StoreM Unit :=
  if error = .ioFailure then setPhase .faulted else pure ()

/-- Runs an engine program on a table that describes the flash, and notes if the chip fails. -/
def guarded {α : Type} (op : Partition → EngineM α) : StoreM α := do
  recover
  tryCatch (direct op) fun error => do
    noteFailure error
    throw error

theorem run_recover_ready {store : Store} (h : store.phase = .ready) :
    recover.run.run store = pure (.ok (), store) := by
  obtain ⟨partition, table, phase⟩ := store
  cases h
  rfl

theorem run_recover_unready {store : Store} (h : store.phase = .unready) :
    recover.run.run store = pure (.error .notInitialized, store) := by
  obtain ⟨partition, table, phase⟩ := store
  cases h
  rfl

/-- **Before a scan, an operation fails and touches nothing.** -/
theorem run_guarded_unready {α : Type} {store : Store} (h : store.phase = .unready)
    (op : Partition → EngineM α) :
    (guarded op).run.run store = pure (.error .notInitialized, store) := by
  rw [guarded, ExceptT.run_bind, StateT.run_bind, run_recover_unready h, pure_bind]
  rfl

/-! ## Operations -/

/-- Copies a value to the front of a buffer and counts the bytes copied; zero means that the key is
absent. -/
def readItem (key : UInt16) (buffer : Bytes) : StoreM (Nat × Bytes) :=
  guarded (Engine.readItem · key buffer)

/-- Stores a value under a key. -/
def writeItem (key : UInt16) (payload : Bytes) : StoreM Unit :=
  guarded (Engine.writeItem · key payload)

/-- Deletes all copies of a key and counts them. -/
def deleteItem (key : UInt16) : StoreM Nat := guarded (Engine.deleteItem · key)

/-- Erases the pages that lookups have emptied and counts them. -/
def sweep : StoreM Nat := guarded Engine.sweep

/-- The length of the value under a key. -/
def itemLength (key : UInt16) : StoreM (Option Nat) := guarded (Engine.lengthOf · key)

/-- The longest value that can be stored. -/
def maxPayload (store : Store) : Nat := store.partition.maxPayload

/-- Reports on the pages. -/
def usage : StoreM Usage := guarded fun _ => return .ofTable (← get)

end Store

/-! ## Typed values -/

namespace Engine

variable {α : Type} [Storable α]

/-- Reads the value of a type under a key. -/
def fetch (key : UInt16) (p : Partition) : EngineM (Option α) := do
  match ← payloadOf p key with
  | none => return none
  | some bytes =>
    match Storable.decode bytes with
    | .ok value => return some value
    | .error error => throw error

/-- Stores a value of a type under a key. -/
def put (key : UInt16) (value : α) (p : Partition) : EngineM Unit :=
  writeItem p key (Storable.encode value)

end Engine

/-- The two ways to reach typed values. -/
inductive Route where
  /-- Through the guard. -/
  | guarded
  /-- On the table as it is. -/
  | direct
  deriving DecidableEq, Repr

namespace Store

variable {α : Type}

/-- Runs an engine program on a route. -/
def onRoute (route : Route) (op : Partition → EngineM α) : StoreM α :=
  match route with
  | .guarded => guarded op
  | .direct => direct op

/-- Reads the value of a type under a key. -/
def fetch [Storable α] (route : Route) (key : UInt16) : StoreM (Option α) :=
  onRoute route (Engine.fetch key)

/-- Stores a value of a type under a key. -/
def put [Storable α] (route : Route) (key : UInt16) (value : α) : StoreM Unit :=
  onRoute route (Engine.put key value)

/-- Reads the firmware metadata. -/
def firmware : StoreM (Option FirmwareInfo) := fetch .guarded SystemKey.firmware.code

/-- Stores the firmware metadata. -/
def setFirmware (info : FirmwareInfo) : StoreM Unit := put .guarded SystemKey.firmware.code info

end Store

end RingStore
