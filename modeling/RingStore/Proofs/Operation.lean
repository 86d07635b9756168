import RingStore.Proofs.Engine.Update
import RingStore.Session

/-!
# What the operations are to the keys

An operation looks a key up, stores a payload under one, removes one, or leaves all keys alone.
`Operation.purpose` says which of these it is and how its result shows the value that it met.  What an
operation does to the live records is a matter of its purpose and of the order in which it searches the
pages: `Purpose.Effect` relates the live records after it to those before, and `Purpose.Leads` says
which ones may be met on the way.

`Operation.program?` is the engine program of an operation that goes through the guard.

## Main statements

* `Operation.run_eq_guarded`: an operation is its engine program run through the guard.
* `Operation.concludes_program`: an engine program has the effect of its purpose.
-/

namespace RingStore

open RingStore.Partition (Holdings)

/-- The call does not go around the guard. -/
def Operation.KeepsGuard : Operation → Prop
  | .fetch route _ _ => route = .guarded
  | .put route _ _ => route = .guarded
  | _ => True

/-- What an operation is to the keys of a store. -/
inductive Purpose where
  /-- A lookup, whether its arguments are in order, and its result in terms of the value that is stored
  under the key. -/
  | lookup (key : UInt16) (accepted : Bool) (view : Option Bytes → Except Error Answer)
  | store (key : UInt16) (payload : Bytes)
  | remove (key : UInt16)
  /-- All keys keep their values. -/
  | upkeep

namespace Purpose

/-- The arguments are in order. -/
def Accepted (p : Partition) : Purpose → Prop
  | lookup _ accepted _ => accepted = true
  | store key payload => isValidKey key = true ∧ payload ≠ [] ∧ payload.length ≤ p.maxPayload
  | remove key => isValidKey key = true
  | upkeep => True

/-- The live records before and after, and the result between them.  Arguments that are not in order are
refused, and nothing is done. -/
def Effect (p : Partition) (order : List Nat) (L : Holdings) (purpose : Purpose)
    (result : Except Error Answer) (L' : Holdings) : Prop :=
  (¬purpose.Accepted p ∧ result = .error .invalidArgument ∧ L' = L) ∨
  purpose.Accepted p ∧
    match purpose with
    | lookup key _ view => ∃ v, L.Stored key v ∧
        (∀ page entry, L.Newest key order page entry → v = some entry.2.payload) ∧
        L.Update key v L' ∧ result = view v
    | store key payload =>
      result = .ok .done ∧ L.Update key (some payload) L' ∨
        result = .error .outOfSpace ∧ ∃ v, L.Stored key v ∧ L.Update key v L'
    | remove key =>
      result = .ok (.count (L.copies key (List.range p.pageCount))) ∧ L.Update key none L'
    | upkeep => (∃ answer, result = .ok answer) ∧ L' = L

/-- The live records that may be met on the way. -/
def Leads (conduct : Conduct) (checksum : Checksum) (order : List Nat) (L : Holdings)
    (purpose : Purpose) (L' : Holdings) : Prop :=
  match purpose with
  | lookup key _ _ => L.Sought conduct checksum key order L'
  | store key payload => L.Renewed conduct checksum key payload L'
  | remove key => L.Passes conduct checksum key (· = none) L'
  | upkeep => L' = L

theorem leads_refl (conduct : Conduct) (checksum : Checksum) (order : List Nat) (L : Holdings)
    (purpose : Purpose) : purpose.Leads conduct checksum order L L := by
  cases purpose with
  | upkeep => rfl
  | lookup key => exact .refl conduct checksum L key order
  | store key payload => exact (Holdings.Sought.refl conduct checksum L key order).renewed payload
  | remove key => exact .whole (.refl L key _)

end Purpose

namespace Operation

/-- What is shown of a value of a type. -/
def showValue (type : ValueType) (v : Option Bytes) : Except Error Answer :=
  (Engine.decoded v).map fun content : Option type.Content => .value (content.map (⟨type, ·⟩))

/-- What is shown of the firmware metadata. -/
def showFirmware (v : Option Bytes) : Except Error Answer := (Engine.decoded v).map .firmware

/-- What is shown of a value that is copied to a buffer. -/
def showCopy (buffer : Bytes) (v : Option Bytes) : Except Error Answer :=
  .ok (.copied (Engine.copied buffer v).1 (Engine.copied buffer v).2)

/-- What an operation is to the keys. -/
def purpose : Operation → Purpose
  | readItem key buffer => .lookup key (isValidKey key && buffer != []) (showCopy buffer)
  | writeItem key payload => .store key payload
  | deleteItem key => .remove key
  | itemLength key => .lookup key (isValidKey key) fun v => .ok (.length (v.map (·.length)))
  | fetch _ key type => .lookup key (isValidKey key) (showValue type)
  | put _ key value => .store key (Storable.encode value.content)
  | firmware => .lookup SystemKey.firmware.code true showFirmware
  | setFirmware info => .store SystemKey.firmware.code (Storable.encode info)
  | init | sweep | maxPayload | usage => .upkeep

/-! ## Operations as engine programs -/

/-- The engine program of an operation that goes through the guard. -/
def program? : Operation → Option (Partition → EngineM Answer)
  | readItem key buffer =>
    some fun p => (fun answer => .copied answer.1 answer.2) <$> Engine.readItem p key buffer
  | writeItem key payload => some fun p => (fun _ => .done) <$> Engine.writeItem p key payload
  | deleteItem key => some fun p => .count <$> Engine.deleteItem p key
  | sweep => some fun p => .count <$> Engine.sweep p
  | itemLength key => some fun p => .length <$> Engine.lengthOf p key
  | fetch _ key type =>
    some fun p => (fun content : Option type.Content => .value (content.map (⟨type, ·⟩))) <$>
      Engine.fetch key p
  | put _ key value => some fun p => (fun _ => .done) <$> Engine.put key value.content p
  | firmware => some fun p => .firmware <$> Engine.fetch SystemKey.firmware.code p
  | setFirmware info => some fun p => (fun _ => .done) <$> Engine.put SystemKey.firmware.code info p
  | usage => some fun _ => (fun t => .usage (.ofTable t)) <$> get
  | init | maxPayload => none

/-- An operation that has to do with a key is an engine program. -/
theorem program?_ne_none {operation : Operation} (h : operation.purpose ≠ .upkeep) :
    operation.program? ≠ none := by
  cases operation <;> first | exact Option.some_ne_none _ | exact absurd rfl h

end Operation

namespace Store

variable {α β : Type}

theorem map_direct (f : α → β) (op : Partition → EngineM α) :
    f <$> direct op = direct fun p => f <$> op p := by
  refine ExceptT.ext (StateT.ext fun store => ?_)
  rw [ExceptT.run_map, StateT.run_map]
  show _ <$> (_ >>= _) = (StateT.run (ExceptT.run (f <$> op store.partition)) store.table >>= _)
  rw [ExceptT.run_map, StateT.run_map, map_bind, bind_map_left]
  rfl

/-- What is made of a result may as well be made of it within the guard. -/
theorem map_guarded (f : α → β) (op : Partition → EngineM α) :
    f <$> guarded op = guarded fun p => f <$> op p := by
  rw [guarded, guarded, map_bind, ← map_direct]
  congr 1
  funext _
  refine ExceptT.ext ?_
  rw [ExceptT.run_map, ExceptT.run_tryCatch, ExceptT.run_tryCatch, ExceptT.run_map, map_bind,
    bind_map_left]
  congr 1
  funext result
  cases result with
  | ok a => rfl
  | error error =>
    show _ <$> (ExceptT.run (noteFailure error >>= fun _ => throw error)) = _
    rw [← ExceptT.run_map, map_bind]
    rfl

end Store

namespace Operation

/-- **An operation is its engine program**, run through the guard. -/
theorem run_eq_guarded {operation : Operation} (h : operation.KeepsGuard)
    {x : Partition → EngineM Answer} (hx : operation.program? = some x) :
    operation.run = Store.guarded x := by
  cases operation <;> cases hx <;> try cases h
  all_goals exact Store.map_guarded _ _

end Operation

namespace Operation

variable {p : Partition} {key : UInt16}

theorem accepted_readItem_iff {buffer : Bytes} :
    (readItem key buffer).purpose.Accepted p ↔ isValidKey key = true ∧ buffer ≠ [] := by
  simp [purpose, Purpose.Accepted]

/-- **Arguments that are not in order are refused** before anything is done. -/
theorem program_eq_throw {operation : Operation} {x : Partition → EngineM Answer}
    (hx : operation.program? = some x) (hnot : ¬operation.purpose.Accepted p) :
    x p = throw .invalidArgument := by
  have hpayload : ∀ key, ¬isValidKey key = true →
      Engine.payloadOf p key = throw .invalidArgument := fun _ hkey => if_neg hkey
  have hwrite : ∀ key payload, ¬(Purpose.store key payload).Accepted p →
      Engine.writeItem p key payload = throw .invalidArgument := fun _ _ hargs => if_neg hargs
  cases operation <;> cases hx <;> dsimp only
  case readItem key buffer =>
    have hread : Engine.readItem p key buffer = throw .invalidArgument :=
      if_neg (accepted_readItem_iff.not.mp hnot)
    rw [hread]
    rfl
  case writeItem key payload =>
    rw [hwrite key payload hnot]
    rfl
  case deleteItem key =>
    have hdelete : Engine.deleteItem p key = throw .invalidArgument := if_neg hnot
    rw [hdelete]
    rfl
  case itemLength key =>
    rw [Engine.lengthOf, hpayload key hnot]
    rfl
  case fetch route key type =>
    rw [Engine.fetch, hpayload key hnot]
    rfl
  case put route key value =>
    rw [Engine.put, hwrite key _ hnot]
    rfl
  case setFirmware info =>
    rw [Engine.put, hwrite _ _ hnot]
    rfl
  case sweep | firmware | usage => exact absurd (by trivial) hnot

end Operation

/-! ## The effects of the engine programs -/

theorem eq_error_of_map {α β : Type} {f : α → β} {x : Except Error α} {error : Error}
    (h : x.map f = .error error) : x = .error error := by
  cases x with
  | ok a => cases h
  | error e =>
    cases h
    rfl

theorem Storable.eq_corrupt_of_decodeWord {width : Nat} {bytes : Bytes} {error : Error}
    (h : decodeWord width bytes = .error error) : error = .corrupt := by
  unfold decodeWord at h
  split at h
  · cases h
  · cases h
    rfl

/-- A stored value is read back or it is not one of its type. -/
theorem ValueType.eq_corrupt_of_decode (type : ValueType) {bytes : Bytes} {error : Error}
    (h : (Storable.decode bytes : Except Error type.Content) = .error error) : error = .corrupt := by
  cases type with
  | boolean =>
    rcases bytes with _ | ⟨byte, _ | ⟨next, rest⟩⟩
    · cases h
      rfl
    · cases h
    · cases h
      rfl
  | unsigned width => cases width <;> exact Storable.eq_corrupt_of_decodeWord (eq_error_of_map h)
  | signed width =>
    cases width <;> exact Storable.eq_corrupt_of_decodeWord (eq_error_of_map (eq_error_of_map h))
  | bytes => cases h
  | firmware =>
    have h : FirmwareInfo.ofBytes? bytes = .error error := h
    unfold FirmwareInfo.ofBytes? at h
    split at h
    · cases h
    · cases h
      rfl

namespace Engine

open EngineM RingStore.Partition

/-- A program ends with a table that mirrors the flash and has an effect on the live records, whether
it succeeds or fails, unless the chip refuses an access. -/
def Concludes (p : Partition) (conduct : Conduct) (inv : Image → Prop) (x : EngineM Answer) (t : Table)
    (img : Image) (effect : Except Error Answer → Holdings → Prop) : Prop :=
  Ensures p conduct inv x t img
    (fun answer t' img' => t'.Mirrors p img' ∧ effect (.ok answer) (p.live img'))
    (fun error t' img' => error ≠ .ioFailure ∧ t'.Mirrors p img' ∧ effect (.error error) (p.live img'))

variable {p : Partition} {conduct : Conduct} {anchored : Prop} {allowed : Holdings → Prop}
  {inv : Image → Prop} {t : Table} {img : Image} {key : UInt16}

theorem concludes_readItem (hu : p.Usable) (h : t.Mirrors p img) {buffer : Bytes}
    (haccepted : (Operation.readItem key buffer).purpose.Accepted p)
    (hallowed : ∀ L', (p.live img).Sought conduct p.chip.checksum key t.searchOrder L' →
      conduct ≠ .tearing → allowed L') :
    Concludes p conduct (p.Secure conduct anchored allowed)
      ((fun answer => .copied answer.1 answer.2) <$> readItem p key buffer) t img
      ((Operation.readItem key buffer).purpose.Effect p t.searchOrder (p.live img)) := by
  refine Ensures.map _ ((ensures_readItem hu h key buffer hallowed).mono ?_ ?_)
  · rintro answer t' img' ⟨v, hread, rfl⟩
    exact ⟨hread.mirrors, Or.inr ⟨haccepted, v, hread.stored, hread.newest, hread.update, rfl⟩⟩
  · rintro error t' img' ⟨-, hnot, -⟩
    exact absurd (Operation.accepted_readItem_iff.mp haccepted) hnot

theorem concludes_lengthOf (hu : p.Usable) (h : t.Mirrors p img) (hkey : isValidKey key = true)
    (hallowed : ∀ L', (p.live img).Sought conduct p.chip.checksum key t.searchOrder L' →
      conduct ≠ .tearing → allowed L') :
    Concludes p conduct (p.Secure conduct anchored allowed) (.length <$> lengthOf p key) t img
      ((Operation.itemLength key).purpose.Effect p t.searchOrder (p.live img)) := by
  refine Ensures.map _ ((ensures_lengthOf hu h key hallowed).mono ?_ ?_)
  · rintro length t' img' ⟨v, hread, rfl⟩
    exact ⟨hread.mirrors, Or.inr ⟨hkey, v, hread.stored, hread.newest, hread.update, rfl⟩⟩
  · rintro error t' img' ⟨-, hnot, -⟩
    exact absurd hkey hnot

/-- A value that does not decode is corrupt. -/
theorem ne_ioFailure_of_decoded {α : Type} [Storable α] {v : Option Bytes} {error : Error}
    (hcorrupt : ∀ bytes error, (Storable.decode bytes : Except Error α) = .error error →
      error = .corrupt) (h : decoded (α := α) v = .error error) : error ≠ .ioFailure := by
  cases v with
  | none => cases h
  | some bytes =>
    rw [hcorrupt bytes error (eq_error_of_map h)]
    nofun

theorem concludes_fetch {α : Type} [Storable α] (hu : p.Usable) (h : t.Mirrors p img)
    (hkey : isValidKey key = true)
    (hallowed : ∀ L', (p.live img).Sought conduct p.chip.checksum key t.searchOrder L' →
      conduct ≠ .tearing → allowed L')
    (hcorrupt : ∀ bytes error, (Storable.decode bytes : Except Error α) = .error error →
      error = .corrupt) (answer : Option α → Answer) :
    Concludes p conduct (p.Secure conduct anchored allowed) (answer <$> fetch key p) t img
      ((Purpose.lookup key (isValidKey key) fun v => (decoded v).map answer).Effect p
        t.searchOrder (p.live img)) := by
  refine Ensures.map _ ((ensures_fetch hu h key hallowed).mono ?_ ?_)
  · rintro value t' img' ⟨v, hread, hvalue⟩
    refine ⟨hread.mirrors, Or.inr ⟨hkey, v, hread.stored, hread.newest, hread.update, ?_⟩⟩
    show _ = (decoded v).map answer
    rw [hvalue]
    rfl
  · rintro error t' img' (⟨-, hnot, -⟩ | ⟨v, hread, herror⟩)
    · exact absurd hkey hnot
    · refine ⟨ne_ioFailure_of_decoded hcorrupt herror, hread.mirrors,
        Or.inr ⟨hkey, v, hread.stored, hread.newest, hread.update, ?_⟩⟩
      show _ = (decoded v).map answer
      rw [herror]
      rfl

theorem concludes_writeItem (hu : p.Usable) (h : t.Mirrors p img) {payload : Bytes}
    (haccepted : (Purpose.store key payload).Accepted p)
    (hallowed : ∀ L', (p.live img).Renewed conduct p.chip.checksum key payload L' →
      conduct ≠ .tearing → allowed L') :
    Concludes p conduct (p.Secure conduct anchored allowed)
      ((fun _ => .done) <$> writeItem p key payload) t img
      ((Purpose.store key payload).Effect p t.searchOrder (p.live img)) := by
  refine Ensures.map _ ((ensures_writeItem hu h key payload hallowed).mono ?_ ?_)
  · rintro _ t' img' ⟨hmirrors, hupdate⟩
    exact ⟨hmirrors, Or.inr ⟨haccepted, Or.inl ⟨rfl, hupdate⟩⟩⟩
  · rintro error t' img' (⟨-, hnot, -⟩ | ⟨rfl, -, v, hsettled⟩)
    · exact absurd haccepted hnot
    · exact ⟨nofun, hsettled.mirrors,
        Or.inr ⟨haccepted, Or.inr ⟨rfl, v, hsettled.stored, hsettled.update⟩⟩⟩

theorem concludes_deleteItem (hu : p.Usable) (h : t.Mirrors p img) (hkey : isValidKey key = true)
    (hallowed : ∀ L', (p.live img).Passes conduct p.chip.checksum key (· = none) L' →
      conduct ≠ .tearing → allowed L') :
    Concludes p conduct (p.Secure conduct anchored allowed) (.count <$> deleteItem p key) t img
      ((Operation.deleteItem key).purpose.Effect p t.searchOrder (p.live img)) := by
  refine Ensures.map _ ((ensures_deleteItem hu h key hallowed).mono ?_ ?_)
  · rintro removed t' img' ⟨hmirrors, hupdate, rfl, -⟩
    exact ⟨hmirrors, Or.inr ⟨hkey, rfl, hupdate⟩⟩
  · rintro error t' img' ⟨-, hnot, -⟩
    exact absurd hkey hnot

end Engine

namespace Operation

open EngineM

variable {p : Partition} {conduct : Conduct} {anchored : Prop} {allowed : Holdings → Prop} {t : Table}
  {img : Image} {operation : Operation} {x : Partition → EngineM Answer} (hu : p.Usable)
  (h : t.Mirrors p img) (hx : operation.program? = some x)
  (hallowed : ∀ L', operation.purpose.Leads conduct p.chip.checksum t.searchOrder (p.live img) L' →
    conduct ≠ .tearing → allowed L')

include hu h hx hallowed

theorem concludes_program_of_accepted (haccepted : operation.purpose.Accepted p) :
    Engine.Concludes p conduct (p.Secure conduct anchored allowed) (x p) t img
      (operation.purpose.Effect p t.searchOrder (p.live img)) := by
  cases operation <;> cases hx
  case readItem key buffer => exact Engine.concludes_readItem hu h haccepted hallowed
  case writeItem key payload => exact Engine.concludes_writeItem hu h haccepted hallowed
  case deleteItem key => exact Engine.concludes_deleteItem hu h haccepted hallowed
  case sweep =>
    refine Ensures.map _ ((Engine.ensures_sweep hu h).weaken ?_)
    rintro count t' img' ⟨hmirrors, hlive, -⟩
    exact ⟨hmirrors, Or.inr ⟨trivial, ⟨_, rfl⟩, hlive⟩⟩
  case itemLength key => exact Engine.concludes_lengthOf hu h haccepted hallowed
  case fetch route key type =>
    exact Engine.concludes_fetch hu h haccepted hallowed (fun _ _ => type.eq_corrupt_of_decode) _
  case put route key value => exact Engine.concludes_writeItem hu h haccepted hallowed
  case firmware =>
    exact Engine.concludes_fetch hu h rfl hallowed (fun _ _ => ValueType.firmware.eq_corrupt_of_decode) _
  case setFirmware info => exact Engine.concludes_writeItem hu h haccepted hallowed
  case usage => exact ensures_get_bind (ensures_pure ⟨h, Or.inr ⟨trivial, ⟨_, rfl⟩, rfl⟩⟩)

/-- **An engine program has the effect of its purpose.** -/
theorem concludes_program :
    Engine.Concludes p conduct (p.Secure conduct anchored allowed) (x p) t img
      (operation.purpose.Effect p t.searchOrder (p.live img)) := by
  by_cases haccepted : operation.purpose.Accepted p
  · exact concludes_program_of_accepted hu h hx hallowed haccepted
  · rw [program_eq_throw hx haccepted]
    exact ensures_throw ⟨nofun, h, Or.inl ⟨haccepted, rfl, rfl⟩⟩

end Operation

end RingStore
