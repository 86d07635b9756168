import RingStore.Store
import RingStore.Value

/-!
# Sessions

An `Operation` is a call of a store together with its arguments, and its `Answer` is what the call
gives.  A `Session` is one place for a store: requests create a store there, start it anew as after a
loss of power, or call it.

## Main statements

* `Session.handle_call_of_store_eq_none`: without a store no call does anything.
-/

namespace RingStore

/-- A call of a store. -/
inductive Operation where
  | init
  | readItem (key : UInt16) (buffer : Bytes)
  | writeItem (key : UInt16) (payload : Bytes)
  | deleteItem (key : UInt16)
  | sweep
  | itemLength (key : UInt16)
  | maxPayload
  | fetch (route : Route) (key : UInt16) (type : ValueType)
  | put (route : Route) (key : UInt16) (value : Value)
  | firmware
  | setFirmware (info : FirmwareInfo)
  | usage

/-- What a call gives. -/
inductive Answer where
  /-- The call gives nothing but its success. -/
  | done
  | count (count : Nat)
  /-- The number of bytes copied and the buffer afterwards. -/
  | copied (count : Nat) (buffer : Bytes)
  | length (length : Option Nat)
  | value (value : Option Value)
  | firmware (info : Option FirmwareInfo)
  | usage (usage : Usage)

/-- Carries out a call. -/
def Operation.run : Operation → StoreM Answer
  | init => do
    Store.init
    return .done
  | readItem key buffer => do
    let (count, buffer) ← Store.readItem key buffer
    return .copied count buffer
  | writeItem key payload => do
    Store.writeItem key payload
    return .done
  | deleteItem key => return .count (← Store.deleteItem key)
  | sweep => return .count (← Store.sweep)
  | itemLength key => return .length (← Store.itemLength key)
  | maxPayload => return .count (← get).maxPayload
  | fetch route key type => do
    let content : Option type.Content ← Store.fetch route key
    return .value (content.map (⟨type, ·⟩))
  | put route key value => do
    Store.put route key value.content
    return .done
  | firmware => return .firmware (← Store.firmware)
  | setFirmware info => do
    Store.setFirmware info
    return .done
  | usage => return .usage (← Store.usage)

/-- Where a store is created.  A page is an erase block unless a size is given. -/
structure Placement where
  offset : Nat
  size : Nat
  pageSize : Option Nat

/-- A place for one store on a chip. -/
structure Session where
  chip : Chip
  /-- Where a store was last asked for. -/
  placement : Placement
  store : Option Store

/-- What a session can be asked for. -/
inductive Request where
  /-- Drops the store and creates one elsewhere. -/
  | create (placement : Placement)
  /-- Drops the store, creates it again at the same place and scans the partition. -/
  | reboot
  /-- Calls the store. -/
  | call (operation : Operation)

/-- What a session replies. -/
inductive Reply where
  /-- A store was created or not; this needs no access to the chip. -/
  | created (result : Except Error Unit)
  /-- There is no store to call. -/
  | noStore
  /-- The store was called. -/
  | answered (result : Except Error Answer)

namespace Session

/-- A session on a chip, without a store. -/
def ofChip (chip : Chip) : Session := ⟨chip, ⟨0, 0, none⟩, none⟩

/-- Creates a store at the place last asked for. -/
def newStore (session : Session) : Except Error Store :=
  Store.create session.chip session.placement.offset session.placement.size
    session.placement.pageSize

/-- Calls a store and keeps it. -/
def callStore (session : Session) (store : Store) (operation : Operation) :
    FlashM (Reply × Session) := do
  let (result, store) ← operation.run.run.run store
  return (.answered result, { session with store := some store })

/-- Handles a request. -/
def handle (session : Session) : Request → FlashM (Reply × Session)
  | .create placement =>
    let session := { session with placement }
    match session.newStore with
    | .ok store => return (.created (.ok ()), { session with store := some store })
    | .error error => return (.created (.error error), { session with store := none })
  | .reboot =>
    match session.newStore with
    | .ok store => session.callStore store .init
    | .error error => return (.created (.error error), { session with store := none })
  | .call operation =>
    match session.store with
    | some store => session.callStore store operation
    | none => return (.noStore, session)

theorem handle_call_of_store_eq_none {session : Session} (h : session.store = none)
    (operation : Operation) : session.handle (.call operation) = pure (.noStore, session) := by
  simp only [handle, h]

end Session

end RingStore
