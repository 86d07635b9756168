import RingStore.Proofs.Engine.AbideBoot
import RingStore.Proofs.Engine.AbideUpdate
import RingStore.Proofs.FaultFree

/-!
# Runs stay in range

A run of calls and reboots on any chip: it refuses whatever accesses it likes, gives whatever bytes it
likes, and calls go through the guard or around it, also before the first scan and after one that has
broken off.  All numbers of the store stay in range, no call fails because the table contradicts itself,
and every access is one of the known kinds.

The table is looked at between two requests.  That is enough for the time in between: an access that is
refused ends its call and leaves the table as it was when the access was asked for, and the statements
below are about all ways in which accesses may be refused.

## Main statements

* `Operation.abides_program`: the engine programs of all operations keep a table in range.
* `Session.abides_serve`: a run abides, on any chip and on a lawful one.
* `Session.run_in_range`: the statement about runs on a device.
-/

namespace RingStore

/-! ## Engine programs -/

namespace Engine

open EngineM

variable {p : Partition} {lawful : Prop} {count : Nat} {t : Table} {cells : Cells}

theorem abides_lengthOf (hw : p.Workable lawful) (h : t.Stands p lawful count cells)
    (key : UInt16) :
    Abides p lawful (lengthOf p key) t cells fun _ t' after => t'.Stands p lawful count after :=
  (abides_payloadOf hw h key).bind fun _ _ _ h' => abides_pure h'

/-- A value that does not decode is corrupt. -/
theorem abides_fetch {α : Type} [Storable α] (hw : p.Workable lawful)
    (h : t.Stands p lawful count cells) (key : UInt16)
    (hcorrupt : ∀ bytes error, (Storable.decode bytes : Except Error α) = .error error →
      error = .corrupt) :
    Abides p lawful (fetch (α := α) key p) t cells fun _ t' after =>
      t'.Stands p lawful count after := by
  unfold fetch
  refine (abides_payloadOf hw h key).bind fun value t' after h' => ?_
  cases value with
  | none => exact abides_pure h'
  | some bytes =>
    dsimp only
    split
    · exact abides_pure h'
    · next error herror =>
      rw [hcorrupt bytes error herror]
      exact abides_throw nofun h'.coherent

end Engine

/-- A usage report that an operation gives is one on the table it leaves. -/
def Answer.Reports (answer : Answer) (t : Table) : Prop :=
  ∀ usage, answer = .usage usage → usage = .ofTable t

namespace Operation

open Engine EngineM

variable {p : Partition} {lawful : Prop} {count : Nat} {t : Table} {cells : Cells}

/-- **The engine programs keep a table in range**, and on a lawful chip they need a table that mirrors
the flash. -/
theorem abides_program (hw : p.Workable lawful) (h : t.Stands p lawful count cells)
    (hreliable : Reliable p lawful t cells) {operation : Operation} {x : Partition → EngineM Answer}
    (hx : operation.program? = some x) :
    Abides p lawful (x p) t cells fun answer t' after =>
      t'.Stands p lawful count after ∧ answer.Reports t' := by
  -- No answer but a usage report is one.
  have hplain : ∀ {α : Type} {f : α → Answer} {y : EngineM α}, (∀ a usage, f a ≠ .usage usage) →
      (Abides p lawful y t cells fun _ t' after => t'.Stands p lawful count after) →
        Abides p lawful (f <$> y) t cells fun answer t' after =>
          t'.Stands p lawful count after ∧ answer.Reports t' := fun hf hy =>
    .map _ (hy.mono fun a _ _ h' => ⟨h', fun usage heq => absurd heq (hf a usage)⟩)
  cases operation <;> cases hx
  case readItem key buffer => exact hplain nofun (abides_readItem hw h key buffer)
  case writeItem key payload => exact hplain nofun (abides_writeItem hw h hreliable key payload)
  case deleteItem key => exact hplain nofun (abides_deleteItem hw h key)
  case sweep => exact hplain nofun (abides_sweep hw h)
  case itemLength key => exact hplain nofun (abides_lengthOf hw h key)
  case fetch route key type =>
    exact hplain nofun (abides_fetch hw h key fun _ _ => type.eq_corrupt_of_decode)
  case put route key value => exact hplain nofun (abides_writeItem hw h hreliable key _)
  case firmware =>
    exact hplain nofun (abides_fetch hw h _ fun _ _ => ValueType.firmware.eq_corrupt_of_decode)
  case setFirmware info => exact hplain nofun (abides_writeItem hw h hreliable _ _)
  case usage =>
    refine abides_pure ⟨h, fun usage heq => ?_⟩
    cases heq
    rfl

end Operation

/-! ## Calls -/

namespace Store

/-- A store of a partition whose table is coherent. -/
structure InRange (p : Partition) (store : Store) : Prop where
  partition_eq : store.partition = p
  table : store.table.Coherent p

/-- How a call ends. -/
structure Ends (p : Partition) (result : Except Error Answer) (store : Store) : Prop where
  ne_inconsistent : result ≠ .error .inconsistent
  inRange : store.InRange p
  reports : ∀ answer, result = .ok answer → answer.Reports store.table

variable {p : Partition} {lawful : Prop} {store : Store} {operation : Operation} {cells : Cells}

theorem inRange_ofPartition (p : Partition) : (ofPartition p).InRange p :=
  ⟨rfl, Table.coherent_empty p⟩

/-- A scan that succeeds makes a store that mirrors its flash, which is then large enough. -/
theorem always_load (hu : p.Usable) (t : Table) (cells : Cells) :
    ((Engine.load p).run.run t).Always .tearing (fun _ => True) cells fun result after =>
      ∀ u, result.1 = .ok u → p.base + p.size ≤ after.size ∧
        result.2.Mirrors p (p.image after) := by
  by_cases hfits : p.base + p.size ≤ cells.size
  · have hload : EngineM.Ensures p .tearing (p.Secure .tearing False fun _ => True) (Engine.load p) t
        (p.image cells) _ _ := Engine.ensures_load hu (by nofun) (Or.inr fun _ => trivial)
    refine ((hload cells ⟨hfits, rfl⟩ (p.secure_of_unasked _ _)).keep
      (p.secure_of_unasked _ _)).mono (fun _ _ => trivial) ?_
    rintro ⟨error | _, t'⟩ after ⟨-, hsize, hresult⟩
    · exact nofun
    · exact fun _ _ => ⟨hsize ▸ hfits, hresult.1⟩
  · refine (Engine.fails_load hu (Nat.lt_of_not_le hfits) t cells rfl).mono (fun _ hc => hc) ?_
    exact fun result after hnot u hok => absurd hok (hnot u)

/-- A scan of a lawful chip that succeeds makes a table to rely on. -/
theorem abides_load (hw : p.Workable lawful) {t : Table} (h : t.Coherent p) :
    EngineM.Abides p lawful (Engine.load p) t cells fun _ t' after =>
      t'.Stands p lawful p.pageCount after ∧ Engine.Reliable p lawful t' after := by
  have hload : EngineM.Abides p lawful (Engine.load p) t cells fun _ t' after =>
      t'.Stands p lawful p.pageCount after := Engine.abides_load hw h
  refine (hload.and_always (fun _ _ _ _ hanswers hlawful => hanswers.2 hlawful) fun hlawful =>
    always_load (hw.usable hlawful) t cells).mono ?_
  rintro ⟨error | u, t'⟩ after ⟨hpost, hlawful⟩
  · exact hpost
  · exact ⟨hpost, fun hl => hlawful hl u rfl⟩

/-- What a call makes of the store if it runs an engine program on the table. -/
theorem abides_program (hw : p.Workable lawful) {t : Table} (h : t.Coherent p)
    (hreliable : Engine.Reliable p lawful t cells) {x : Partition → EngineM Answer}
    (hx : operation.program? = some x) (phaseAfter : Except Error Answer → Phase) :
    ((x p).run.run t >>= fun result =>
      pure (result.1, (⟨p, result.2, phaseAfter result.1⟩ : Store))).Abides
        (Answers lawful) (p.Heeds lawful) cells fun result _ => Ends p result.1 result.2 := by
  have hstands : t.Stands p lawful t.count cells :=
    ⟨h, Engine.stamped_of_reliable hreliable, rfl⟩
  rw [FlashM.abides_bind]
  refine FlashM.Abides.mono (operation.abides_program hw hstands hreliable hx) ?_
  rintro ⟨error | answer, t'⟩ after hpost
  · exact ⟨fun heq => hpost.1 (Except.error.inj heq), ⟨rfl, hpost.2⟩, nofun⟩
  · refine ⟨nofun, ⟨rfl, hpost.1.coherent⟩, fun a heq => ?_⟩
    cases heq
    exact hpost.2

theorem abides_guarded (hw : p.Workable lawful) (h : store.InRange p)
    (hready : store.phase = .ready → Engine.Reliable p lawful store.table cells)
    {x : Partition → EngineM Answer} (hx : operation.program? = some x) :
    ((guarded x).run.run store).Abides (Answers lawful) (p.Heeds lawful) cells fun result _ =>
      Ends p result.1 result.2 := by
  obtain ⟨rfl, ht⟩ := h
  cases hphase : store.phase with
  | unready =>
    rw [run_guarded_unready hphase]
    exact ⟨nofun, ⟨rfl, ht⟩, nofun⟩
  | ready =>
    rw [run_guarded_ready hphase]
    exact abides_program hw ht (hready hphase) hx phaseAfter
  | faulted =>
    -- The scan comes first, and the program runs on what it has left.
    rw [run_guarded_faulted hphase, FlashM.abides_bind]
    refine FlashM.Abides.mono (abides_load hw ht) ?_
    rintro ⟨error | _, t'⟩ after hpost
    · exact ⟨fun heq => hpost.1 (Except.error.inj heq), ⟨rfl, hpost.2⟩, nofun⟩
    · obtain ⟨hstands, hreliable'⟩ := hpost
      dsimp only
      rw [run_guarded_ready rfl]
      exact abides_program hw hstands.coherent hreliable' hx phaseAfter

theorem abides_init (hw : p.Workable lawful) (h : store.InRange p) :
    (Operation.init.run.run.run store).Abides (Answers lawful) (p.Heeds lawful) cells
      fun result _ => Ends p result.1 result.2 := by
  obtain ⟨rfl, ht⟩ := h
  rw [run_init, FlashM.abides_bind]
  refine FlashM.Abides.mono (abides_load hw ht) ?_
  rintro ⟨error | _, t'⟩ after hpost
  · exact ⟨fun heq => hpost.1 (Except.error.inj heq), ⟨rfl, hpost.2⟩, nofun⟩
  · refine ⟨nofun, ⟨rfl, hpost.1.coherent⟩, fun answer heq usage husage => ?_⟩
    cases heq
    cases husage

/-- **A call keeps a store in range** on either route.  On a lawful chip the guard has to be kept. -/
theorem abides_run (hw : p.Workable lawful) (h : store.InRange p)
    (hkeeps : lawful → operation.KeepsGuard)
    (hready : store.phase = .ready → Engine.Reliable p lawful store.table cells) :
    (operation.run.run.run store).Abides (Answers lawful) (p.Heeds lawful) cells fun result _ =>
      Ends p result.1 result.2 := by
  by_cases hguard : operation.KeepsGuard
  · cases hx : operation.program? with
    | some x =>
      rw [operation.run_eq_guarded hguard hx]
      exact abides_guarded hw h hready hx
    | none =>
      cases operation with
      | init => exact abides_init hw h
      | maxPayload =>
        refine ⟨nofun, h, fun answer heq usage husage => ?_⟩
        cases heq
        cases husage
      | _ => cases hx
  · obtain ⟨x, hx⟩ := operation.exists_program hguard
    obtain ⟨rfl, ht⟩ := h
    rw [operation.run_eq_direct hguard hx]
    exact abides_program hw ht (fun hl => absurd (hkeeps hl) hguard) hx fun _ => store.phase

end Store

/-! ## Arithmetic -/

/-- The numbers of a usage report fit into 16 bits. -/
def Usage.Fits (usage : Usage) : Prop :=
  usage.erased ≤ maxCounter ∧ usage.active ≤ maxCounter ∧ usage.full ≤ maxCounter ∧
    usage.unavailable ≤ maxCounter

theorem Table.InRange.fits_usage {p : Partition} {t : Table} (h : t.InRange p) :
    (Usage.ofTable t).Fits := by
  have hsum := Usage.counts_ofTable t
  have hcount := h.count_le
  have hmax : p.pageCount ≤ maxCounter := p.pageCount_le
  exact ⟨by omega, by omega, by omega, by omega⟩

/-- A reply of a call that has not met a table in contradiction with itself; the numbers of a report fit
into 16 bits. -/
def Reply.InRange (reply : Reply) : Prop :=
  reply ≠ .answered (.error .inconsistent) ∧
    ∀ usage, reply = .answered (.ok (.usage usage)) → usage.Fits

namespace Session

variable {p : Partition} {lawful : Prop} {session : Session} {store : Store} {operation : Operation}
  {request : Request} {cells : Cells}

/-- A session with a store in range, which is sound if the chip is lawful. -/
def InRange (p : Partition) (lawful : Prop) (session : Session) (cells : Cells) : Prop :=
  ∃ store, session.Keeps p store ∧ store.InRange p ∧ (lawful → session.Sound p cells)

theorem Keeps.inRange (h : session.Keeps p (.ofPartition p)) (lawful : Prop) (cells : Cells) :
    session.InRange p lawful cells :=
  ⟨_, h, Store.inRange_ofPartition p, fun _ => ⟨_, h, ⟨rfl, nofun⟩, nofun⟩⟩

/-- The store of a sound session mirrors the flash once it is ready. -/
theorem Sound.reliable (h : session.Sound p cells) (hsession : session.Keeps p store)
    (hphase : store.phase = .ready) :
    p.base + p.size ≤ cells.size ∧ store.table.Mirrors p (p.image cells) := by
  obtain ⟨store', hsession', hsound, hfits⟩ := h
  obtain rfl := Option.some.inj (hsession.store_eq.symm.trans hsession'.store_eq)
  exact ⟨hfits hphase, hsound.mirrors hphase⟩

theorem abides_callStore (hw : p.Workable lawful) (hsession : session.newStore = .ok (.ofPartition p))
    (h : store.InRange p) (hkeeps : lawful → operation.KeepsGuard)
    (hready : store.phase = .ready → Engine.Reliable p lawful store.table cells) :
    (session.callStore store operation).Abides (Answers lawful) (p.Heeds lawful) cells
      fun answer _ => answer.1.InRange ∧ ∃ store', answer.2.Keeps p store' ∧ store'.InRange p := by
  rw [callStore, FlashM.abides_bind]
  refine FlashM.Abides.mono (Store.abides_run hw h hkeeps hready) ?_
  rintro ⟨result, store'⟩ after hends
  refine ⟨⟨fun heq => hends.ne_inconsistent (Reply.answered.inj heq), fun usage heq => ?_⟩,
    store', ⟨hsession, rfl⟩, hends.inRange⟩
  rw [hends.reports _ (Reply.answered.inj heq) usage rfl]
  exact hends.inRange.table.toInRange.fits_usage

/-- A request keeps a session in range.  On a lawful chip calls have to keep the guard. -/
theorem abides_handle (hw : p.Workable lawful) (hrequest : request.Stays)
    (hkeeps : lawful → request.KeepsGuard) (h : session.InRange p lawful cells) :
    (session.handle request).Abides (Answers lawful) (p.Heeds lawful) cells fun answer after =>
      answer.1.InRange ∧ answer.2.InRange p lawful after := by
  obtain ⟨store, hsession, hstore, hsound⟩ := h
  have hhandle : (session.handle request).Abides (Answers lawful) (p.Heeds lawful) cells
      fun answer _ => answer.1.InRange ∧ ∃ store', answer.2.Keeps p store' ∧ store'.InRange p := by
    cases request with
    | create placement => exact hrequest.elim
    | reboot =>
      simp only [handle, hsession.newStore_eq]
      refine abides_callStore hw hsession.newStore_eq (Store.inRange_ofPartition p)
        (fun _ => trivial) fun hphase => ?_
      cases hphase
    | call operation =>
      simp only [handle, hsession.store_eq]
      exact abides_callStore hw hsession.newStore_eq hstore hkeeps fun hphase hl =>
        (hsound hl).reliable hsession hphase
  refine (hhandle.and_always (fun _ _ _ _ hanswers hl => hanswers.2 hl) fun hl =>
    always_handle_sound (hw.usable hl) (hkeeps hl) (hsound hl)).mono ?_
  rintro answer after ⟨⟨hreply, store', hsession', hstore'⟩, hsound'⟩
  exact ⟨hreply, store', hsession', hstore', hsound'⟩

/-- **A run keeps a session in range**, and every access is one of the known kinds. -/
theorem abides_serve (hw : p.Workable lawful) {requests : List Request}
    (hrequests : ∀ request ∈ requests, request.Stays ∧ (lawful → request.KeepsGuard))
    (h : session.InRange p lawful cells) :
    (session.serve requests).Abides (Answers lawful) (p.Heeds lawful) cells fun answer after =>
      (∀ reply ∈ answer.1, reply.InRange) ∧ answer.2.InRange p lawful after := by
  induction requests generalizing session cells with
  | nil => exact ⟨by simp, h⟩
  | cons request rest ih =>
    obtain ⟨⟨hstays, hkeeps⟩, hrest⟩ := List.forall_mem_cons.mp hrequests
    rw [serve, FlashM.abides_bind]
    refine (abides_handle hw hstays hkeeps h).mono ?_
    rintro ⟨reply, session₁⟩ after ⟨hreply, hafter⟩
    rw [FlashM.abides_bind]
    refine (ih hrest hafter).mono ?_
    rintro ⟨replies, session₂⟩ last ⟨hreplies, hlast⟩
    exact ⟨List.forall_mem_cons.mpr ⟨hreply, hreplies⟩, hlast⟩

end Session

/-- A device whose reads give as many bytes as they are asked for. -/
def Device.Fills {σ : Type} (device : Device σ) : Prop :=
  ∀ (access : Access) (s : σ), access.Fills (device access s).1

theorem Flash.fills_device : Device.Fills device := fun access flash =>
  (responds_device flash.follows_tearing access).fills

namespace Session

variable {p : Partition} {session : Session} {requests : List Request} {σ : Type} {device : Device σ}

/-- A run on a device that fills its reads keeps a session in range. -/
theorem InRange.serve (hchip : p.chip.Granular) (h : session.InRange p False #[])
    (hrequests : ∀ request ∈ requests, request.Stays) (hdevice : device.Fills) (s : σ) :
    let run := (session.serve requests).run device s
    (∀ reply ∈ run.1.1, reply.InRange) ∧ run.1.2.InRange p False #[] ∧
      ∀ step ∈ (session.serve requests).steps device s, p.Asks step.access := by
  have habides := abides_serve ⟨hchip, False.elim⟩
    (fun request hrequest => ⟨hrequests request hrequest, False.elim⟩) h
  have hanswers : ∀ (access : Access) (s : σ), Answers False #[] access (device access s).1 #[] :=
    fun access s => ⟨hdevice access s, False.elim⟩
  obtain ⟨⟨hreplies, hlast⟩, hsteps⟩ := FlashM.run_of_abides (fun _ => #[]) hanswers habides
  exact ⟨hreplies, hlast, fun step hstep => (hsteps step hstep).asks⟩

end Session

end RingStore
