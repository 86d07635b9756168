import RingStore.Proofs.Readings
import RingStore.Proofs.SecondBoot
import RingStore.Proofs.TypedWrites

/-!
# Typed records

A value that was written keeps its bytes until its key is written or removed: scans, sweeps, and all that
is done to other keys leave them as they are.  So a typed lookup depends on these bytes only.  As the type
that was written it gives the value back, and as any other type it gives what the bytes stand for there, or
finds that they are none of its values.

## Main statements

* `Session.Bears.serve`: a key keeps its value as long as no request is for it.
* `Session.typed_records`: what is read of a value that was written, as any type.
-/

namespace RingStore

open RingStore.Partition (Holdings)

/-! ## What is done to other keys -/

namespace Purpose

/-- The value of a key is not stored and not removed; it may be looked up. -/
def Spares (key : UInt16) : Purpose → Prop
  | store other _ => other ≠ key
  | remove other => other ≠ key
  | lookup .. | upkeep => True

variable {p : Partition} {order : List Nat} {L L' : Holdings} {purpose : Purpose} {key : UInt16}
  {result : Except Error Answer} {v : Option Bytes}

/-- **What is done to other keys leaves a key at its value.** -/
theorem Effect.keeps (h : purpose.Effect p order L result L') (hspares : purpose.Spares key)
    (hbears : L.Update key v L) : L'.Update key v L' := by
  rcases h with ⟨-, -, rfl⟩ | ⟨-, heffect⟩
  · exact hbears
  · cases purpose with
    | lookup other accepted view =>
      obtain ⟨w, hstored, -, hupdate, -⟩ := heffect
      by_cases heq : key = other
      · subst heq
        obtain rfl := hbears.eq_of_stored hstored
        exact hupdate.settled
      · exact hbears.carry heq hupdate.others
    | store other payload =>
      have hne : key ≠ other := fun heq => hspares heq.symm
      rcases heffect with ⟨-, hupdate⟩ | ⟨-, w, -, hupdate⟩
      · exact hbears.carry hne hupdate.others
      · exact hbears.carry hne hupdate.others
    | remove other => exact hbears.carry (fun heq => hspares heq.symm) heffect.2.others
    | upkeep =>
      obtain ⟨-, rfl⟩ := heffect
      exact hbears

end Purpose

/-- The request is not for another value of a key; the store stays where it is. -/
def Request.Spares (key : UInt16) : Request → Prop
  | .create _ => False
  | .reboot => True
  | .call operation => operation.purpose.Spares key

theorem Operation.purpose_onGuard (operation : Operation) :
    operation.onGuard.purpose = operation.purpose := by
  cases operation <;> rfl

theorem Request.Spares.onGuard {key : UInt16} {request : Request} (h : request.Spares key) :
    request.onGuard.KeepsGuard ∧ request.onGuard.Spares key := by
  cases request with
  | create placement => exact h.elim
  | reboot => exact ⟨trivial, trivial⟩
  | call operation =>
    refine ⟨operation.keepsGuard_onGuard, ?_⟩
    show operation.onGuard.purpose.Spares key
    rw [operation.purpose_onGuard]
    exact h

/-! ## Runs -/

namespace Session

variable {p : Partition} {session : Session} {store : Store} {flash : Flash} {cells : Cells}
  {key : UInt16} {route : Route} {v : Option Bytes}

/-- A session with a store that is ready, where a key has one value. -/
def Bears (p : Partition) (key : UInt16) (v : Option Bytes) (session : Session) (cells : Cells) : Prop :=
  ∃ store, session.Keeps p store ∧ store.Sound p (p.image cells) ∧ p.base + p.size ≤ cells.size ∧
    store.phase = .ready ∧ (p.live (p.image cells)).Update key v (p.live (p.image cells))

theorem Bears.ready (h : session.Bears p key v cells) : session.Ready p cells := by
  obtain ⟨store, hsession, hsound, hfits, hphase, -⟩ := h
  exact ⟨store, hsession, hsound, hfits, hphase⟩

/-- A request that is not for a key leaves it its value. -/
theorem always_handle_bears (hu : p.Usable) {request : Request} (hkeeps : request.KeepsGuard)
    (hspares : request.Spares key) (h : session.Bears p key v cells) :
    (session.handle request).Always .reliable (fun _ => True) cells fun answer after =>
      answer.2.Bears p key v after := by
  obtain ⟨store, hsession, hsound, hfits, hphase, hbears⟩ := h
  refine (always_handle_of_ready hu hsession hkeeps hsound hfits hphase).mono (fun _ hc => hc) ?_
  rintro answer after ⟨target, operation, result, store', hcalls, htarget, -, hsession', hsound', hfits',
    houtcome⟩
  refine ⟨store', hsession', hsound', hfits', ?_⟩
  generalize p.image after = img' at houtcome
  cases houtcome with
  | failed hconduct => exact absurd rfl hconduct
  | unscanned hunready hprogram =>
    rcases htarget with hready | rfl
    · exact absurd (hready.symm.trans hunready) nofun
    · exact absurd rfl hprogram
  | told hoperation => exact ⟨htarget.resolve_right (hoperation ▸ nofun), hbears⟩
  | scanned _ hphase' hlive => exact ⟨hphase', hlive (Or.inl trivial) ▸ hbears⟩
  | concluded _ hprogram hphase' hbegins heffect =>
    have hspares' : operation.purpose.Spares key := by
      cases hcalls with
      | reboot => exact absurd rfl hprogram
      | call => exact hspares
    exact ⟨hphase', heffect.keeps hspares' (hbegins.live_eq trivial ▸ hbears)⟩

/-- **A run in which no request is for a key leaves it its value.** -/
theorem Bears.serve (hu : p.Usable) (h : session.Bears p key v flash.cells)
    (hflash : flash.Follows .reliable) {requests : List Request}
    (hrequests : ∀ request ∈ requests, request.Spares key) :
    let run := (session.serve requests).run Flash.device flash
    run.1.2.Bears p key v run.2.cells ∧ run.2.Follows .reliable := by
  have hstep : ∀ request ∈ requests, ∀ (s : Unit) (session : Session) (cells : Cells),
      session.Bears p key v cells →
        (session.handle request.onGuard).Always .reliable (fun _ => True) cells fun answer after =>
          ∃ s' : Unit, True ∧ answer.2.Bears p key v after := by
    intro request hrequest s session cells hbears
    obtain ⟨hkeeps, hspares⟩ := (hrequests request hrequest).onGuard
    refine (always_handle_bears hu hkeeps hspares hbears).mono (fun _ hc => hc) ?_
    exact fun _ _ hafter => ⟨(), trivial, hafter⟩
  obtain ⟨-, -, hlast⟩ := serve_of_onGuard (fun _ _ _ _ => True) (fun _ => Bears p key v)
    (fun _ _ _ hbears => hbears.ready.unfailing hu) hstep (s := ()) h hflash
  exact hlast

/-- A write that succeeds gives a key the bytes of the value. -/
theorem always_put_bears (hu : p.Usable) (h : session.Ready p cells) (value : Value) :
    (session.handle (.call (.put .guarded key value))).Always .reliable (fun _ => True) cells
      fun answer after => answer.1 = .answered (.ok .done) → isValidKey key = true ∧
        answer.2.Bears p key (some (Storable.encode value.content)) after := by
  obtain ⟨store, hsession, hsound, hfits, hphase⟩ := h
  have hkeeps : (Request.call (.put .guarded key value)).KeepsGuard := rfl
  refine (always_handle_of_ready hu hsession hkeeps hsound hfits hphase).mono (fun _ hc => hc) ?_
  rintro answer after ⟨target, operation, result, store', hcalls, htarget, hreply, hsession', hsound',
    hfits', houtcome⟩ hdone
  obtain rfl := Reply.answered.inj (hreply.symm.trans hdone)
  cases hcalls
  generalize himg : p.image after = img' at houtcome
  cases houtcome with
  | concluded _ _ hphase' _ heffect =>
    rcases heffect with ⟨-, hnot, -⟩ | ⟨⟨hkey, -⟩, ⟨-, hupdate⟩ | ⟨hnot, -⟩⟩
    · cases hnot
    · subst himg
      exact ⟨hkey, store', hsession', hsound', hfits', hphase', hupdate.settled⟩
    · cases hnot
  | scanned hoperation => cases hoperation

/-- A write of a value that is too long is refused before any access. -/
theorem steps_put_of_long (h : session.Ready p flash.cells) {value : Value}
    (hlong : p.maxPayload < (Storable.encode value.content).length) :
    let call := session.handle (.call (.put route key value))
    (call.run Flash.device flash).1.1 = .answered (.error .invalidArgument) ∧
      call.steps Flash.device flash = [] := by
  obtain ⟨store, hsession, hsound, -, hphase⟩ := h
  obtain ⟨x, hx⟩ : ∃ x, (Operation.put route key value).program? = some x := ⟨_, rfl⟩
  have hthrow : x p = throw .invalidArgument :=
    Operation.program_eq_throw hx fun haccepted => Nat.not_le_of_lt hlong haccepted.2.2
  cases route with
  | guarded =>
    have hkeeps : (Operation.put .guarded key value).KeepsGuard := rfl
    rw [handle_call_of_ready hsession hsound.partition_eq hphase hkeeps hx, hthrow]
    exact ⟨rfl, rfl⟩
  | direct =>
    have hdirect : (Operation.put .direct key value).route? = some .direct := rfl
    rw [handle_call_of_direct hsession hsound.partition_eq
      (Operation.not_keepsGuard_of_route hdirect) hx, hthrow]
    exact ⟨rfl, rfl⟩

/-- A typed lookup of a key that has a value. -/
theorem Bears.fetch (hu : p.Usable) (h : session.Bears p key v flash.cells)
    (hflash : flash.Follows .reliable) (hkey : isValidKey key = true) (type : ValueType) :
    ((session.handle (.call (.fetch route key type))).run Flash.device flash).1.1 =
      .answered (Operation.showValue type v) := by
  obtain ⟨store, hsession, hsound, hfits, hphase, hbears⟩ := h
  exact (Flash.run_of_always hflash (always_fetch_of_settled hu hsession hsound.partition_eq hphase
    (hsound.mirrors hphase) hfits hkey hbears route type)).1

end Session

/-- What is shown of bytes as a value of a type that they have the width of. -/
theorem Operation.showValue_of_fits {type : ValueType} {stored : Bytes} (h : type.Fits stored) :
    ∃ content, type.Reads stored content ∧
      showValue type (some stored) = .ok (.value (some ⟨type, content⟩)) := by
  obtain ⟨content, hdecode, hreads⟩ := ValueType.decode_of_fits h
  refine ⟨content, hreads, ?_⟩
  rw [showValue, Engine.decoded, hdecode]
  rfl

/-- What is shown of them as a value of another type. -/
theorem Operation.showValue_of_not_fits {type : ValueType} {stored : Bytes} (h : ¬type.Fits stored) :
    showValue type (some stored) = .error .corrupt := by
  rw [showValue, Engine.decoded, ValueType.decode_of_not_fits h]
  rfl

namespace Session

variable {p : Partition} {session : Session} {flash : Flash}

/-- **A value that was written is read back as what it was, and as any other type for what its bytes stand
for there**, now and after any requests that are not for its key, on either route.  Bytes that do not have
the width of a type are none of its values.  A value that is too long is refused before any access.  The
firmware records are the strings of 48 bytes. -/
theorem typed_records (hu : p.Usable) (hstarted : session.Started p flash) {requests : List Request}
    (hrequests : ∀ request ∈ requests, request.Stays) (route : Route) (key : UInt16) (value : Value) :
    let run := (session.serve requests).run Flash.device flash
    let call := run.1.2.handle (.call (.put route key value))
    let put := call.run Flash.device run.2
    let stored := Storable.encode value.content
    (p.maxPayload < stored.length →
      put.1.1 = .answered (.error .invalidArgument) ∧ call.steps Flash.device run.2 = []) ∧
    (put.1.1 = .answered (.ok .done) →
      ∀ more : List Request, (∀ request ∈ more, request.Spares key) →
        let later := (put.1.2.serve more).run Flash.device put.2
        let fetch (again : Route) (type : ValueType) :=
          ((later.1.2.handle (.call (.fetch again key type))).run Flash.device later.2).1.1
        (∀ again, fetch again value.type = .answered (.ok (.value (some value)))) ∧
        ∀ again type,
          (type.Fits stored → ∃ content, type.Reads stored content ∧
            fetch again type = .answered (.ok (.value (some ⟨type, content⟩)))) ∧
          (¬type.Fits stored → fetch again type = .answered (.error .corrupt))) ∧
    (∀ info : FirmwareInfo, info.toBytes.length = 48 ∧ FirmwareInfo.ofBytes? info.toBytes = .ok info) ∧
    ∀ bytes : Bytes,
      (bytes.length = 48 → ∃ info, FirmwareInfo.ofBytes? bytes = .ok info ∧ info.toBytes = bytes) ∧
      (bytes.length ≠ 48 → FirmwareInfo.ofBytes? bytes = .error .corrupt) := by
  intro run call put stored
  obtain ⟨hready, hfollows⟩ := hstarted.serve hu hrequests
  refine ⟨steps_put_of_long hready, fun hput more hmore => ?_, fun info => ?_, fun bytes => ?_⟩
  · -- The write is followed on the route through the guard, which does not differ.
    obtain ⟨hbears, hfollows', -⟩ := Flash.run_of_always hfollows (always_put_bears hu hready value)
    have hroutes : call.run Flash.device run.2 =
        (run.1.2.handle (.call (.put .guarded key value))).run Flash.device run.2 :=
      run_handle_onGuard (hready.unfailing hu) hfollows _
    rw [← hroutes] at hbears hfollows'
    obtain ⟨hkey, hbears⟩ := hbears hput
    obtain ⟨hlater, hfollows''⟩ := hbears.serve hu hfollows' hmore
    intro later fetch
    have hfetch : ∀ again type,
        fetch again type = .answered (Operation.showValue type (some stored)) := fun again type =>
      hlater.fetch hu hfollows'' hkey type
    refine ⟨fun again => ?_, fun again type => ⟨fun hfits => ?_, fun hnot => ?_⟩⟩
    · rw [hfetch, Operation.showValue_encode]
    · obtain ⟨content, hreads, hshow⟩ := Operation.showValue_of_fits hfits
      exact ⟨content, hreads, by rw [hfetch, hshow]⟩
    · rw [hfetch, Operation.showValue_of_not_fits hnot]
  · exact ⟨info.length_toBytes, info.ofBytes?_toBytes⟩
  · refine ⟨fun hlength => ?_, FirmwareInfo.ofBytes?_of_length_ne⟩
    obtain ⟨info, hinfo, -, hback⟩ := FirmwareInfo.ofBytes?_of_length hlength
    exact ⟨info, hinfo, hback⟩

/-- A negative number of two bytes is written around the guard.  After a reboot it is read back, as an
unsigned number it is another one, and it is no number of four bytes. -/
theorem typed_records_small :
    let start := (small.handle (.call .init)).run Flash.device (Flash.erased fun _ => .granted)
    let run := (start.1.2.serve [.call .usage]).run Flash.device start.2
    let value : Value := ⟨.signed .w16, (-2 : Int16)⟩
    let put := (run.1.2.handle (.call (.put .direct 5 value))).run Flash.device run.2
    let later := (put.1.2.serve [.reboot, .call (.deleteItem 6)]).run Flash.device put.2
    let fetch (again : Route) (type : ValueType) :=
      ((later.1.2.handle (.call (.fetch again 5 type))).run Flash.device later.2).1.1
    Partition.small.Usable ∧ Started .small start.1.2 start.2 ∧
      (∀ request ∈ [Request.call .usage], request.Stays) ∧ put.1.1 = .answered (.ok .done) ∧
      (∀ request ∈ [Request.reboot, .call (.deleteItem 6)], request.Spares 5) ∧
      fetch .guarded value.type = .answered (.ok (.value (some value))) ∧
      (∃ n : UInt16, n.toNat = 65534 ∧
        fetch .guarded (.unsigned .w16) = .answered (.ok (.value (some ⟨.unsigned .w16, n⟩)))) ∧
      fetch .direct (.unsigned .w32) = .answered (.error .corrupt) := by
  intro start
  have hstarted : Started .small start.1.2 start.2 :=
    started_of_init keeps_small (fun _ => trivial) (Reply.eq_done (by decide +kernel))
  have hrequests : ∀ request ∈ [Request.call .usage], request.Stays := by
    simp [Request.Stays]
  have hspares : ∀ request ∈ [Request.reboot, .call (.deleteItem 6)], request.Spares 5 := by
    simp [Request.Spares, Operation.purpose, Purpose.Spares]
  have hput :
      let run := (start.1.2.serve [.call .usage]).run Flash.device start.2
      let call := run.1.2.handle (.call (.put .direct 5 ⟨.signed .w16, (-2 : Int16)⟩))
      (call.run Flash.device run.2).1.1 = .answered (.ok .done) :=
    Reply.eq_done (by decide +kernel)
  have hfits : (ValueType.unsigned .w16).Fits (Storable.encode (-2 : Int16)) := by
    rintro _ ⟨⟩
    rfl
  have hnot : ¬(ValueType.unsigned .w32).Fits (Storable.encode (-2 : Int16)) :=
    fun h => absurd (h 4 rfl) (by decide)
  have hnumber : number (Storable.encode (-2 : Int16)) = 65534 := by decide
  obtain ⟨hsame, hother⟩ := (typed_records Partition.usable_small hstarted hrequests .direct 5
    ⟨.signed .w16, (-2 : Int16)⟩).2.1 hput _ hspares
  obtain ⟨n, hreads, hfetch⟩ := (hother .guarded (.unsigned .w16)).1 hfits
  exact ⟨Partition.usable_small, hstarted, hrequests, hput, hspares, hsame .guarded,
    ⟨n, hreads.trans hnumber, hfetch⟩, (hother .direct (.unsigned .w32)).2 hnot⟩

end Session

end RingStore
