import RingStore.Proofs.Sweep

/-!
# Repeating an operation

Whatever an operation has met, it leaves its key settled: a store leaves one copy with its payload, a
removal leaves none, and a lookup drops all copies but one.  On such a flash the same operation is at
rest: it finds what it would do to be done, and only looks.  A sweep leaves no page that waits for it.

## Main statements

* `Engine.peeks_writeItem`, `Engine.peeks_sweep`: a store and a sweep with nothing to do only look.
* `Operation.rests_lookup`, `Operation.rests_store`: an operation that finds its effect is at rest.
* `Session.repetition_idle`: after any run, what is done twice makes no write and no erase the second time.
-/

namespace RingStore

/-! ## Engine programs with nothing to do -/

namespace Engine

open EngineM RingStore.Partition

variable {p : Partition} {t : Table} {img : Image} {key : UInt16} {fail : Error → Table → Prop}

/-- **A payload that is stored as the only one of its key is not written again.** -/
theorem peeks_writeItem (hu : p.Usable) (h : t.Mirrors p img) {payload : Bytes}
    (haccepted : (Purpose.store key payload).Accepted p)
    (hsettled : (p.live img).Update key (some payload) (p.live img)) :
    Peeks p (writeItem p key payload) t img (fun _ t' => t' = t) fail := by
  have hargs : isValidKey key = true ∧ payload ≠ [] ∧ payload.length ≤ p.maxPayload := haccepted
  unfold writeItem
  rw [if_pos hargs]
  refine (peeks_find hu h hsettled).bind ?_
  rintro best _ ⟨rfl, hvalue, -⟩
  rw [if_pos hvalue]
  exact peeks_pure rfl

/-- A sweep passes pages that do not wait for their erase. -/
theorem peeks_sweepPages (h : t.count = p.pageCount)
    (hnone : ∀ page, t.isKind .unavailable page = false) {pages : List Nat}
    (hpages : ∀ page ∈ pages, page < p.pageCount) (count : Nat) :
    Peeks p (pages.foldlM (sweepPage p) count) t img (fun count' t' => t' = t ∧ count' = count) fail := by
  induction pages with
  | nil => exact peeks_pure ⟨rfl, rfl⟩
  | cons page rest ih =>
    obtain ⟨hpage, hrest⟩ := List.forall_mem_cons.mp hpages
    obtain ⟨entry, hentry⟩ := Table.exists_entry (h ▸ hpage)
    have hkind : entry.kind ≠ .unavailable := fun heq =>
      absurd (Table.isKind_iff.mpr ⟨entry, hentry, heq⟩) (by simp [hnone])
    have hstep : Peeks p (sweepPage p count page) t img (fun count' t' => t' = t ∧ count' = count)
        fail := by
      unfold sweepPage
      refine peeks_pageAt_bind hentry ?_
      rw [if_neg hkind]
      exact peeks_pure ⟨rfl, rfl⟩
    rw [List.foldlM_cons]
    refine hstep.bind ?_
    rintro _ _ ⟨rfl, rfl⟩
    exact ih hrest

/-- **A sweep without a page that waits for it only looks.** -/
theorem peeks_sweep (h : t.count = p.pageCount)
    (hnone : ∀ page, t.isKind .unavailable page = false) :
    Peeks p (sweep p) t img (fun count t' => t' = t ∧ count = 0) fail := by
  unfold sweep
  refine peeks_get_bind (peeks_sweepPages h hnone (fun page hpage => ?_) 0)
  exact h ▸ List.mem_range.mp hpage

/-- A program only looks, and ends with a result and with the table as it was. -/
def Rests (p : Partition) (x : EngineM Answer) (t : Table) (img : Image)
    (result : Except Error Answer) : Prop :=
  Peeks p x t img (fun answer t' => t' = t ∧ .ok answer = result)
    fun error t' => t' = t ∧ .error error = result

/-- The value of a settled key is shown without a change. -/
theorem rests_fetch {α : Type} [Storable α] (hu : p.Usable) (h : t.Mirrors p img)
    (hkey : isValidKey key = true) {v : Option Bytes}
    (hsettled : (p.live img).Update key v (p.live img)) (answer : Option α → Answer) :
    Rests p (answer <$> fetch key p) t img ((decoded v).map answer) := by
  refine .map _ ((peeks_fetch hu h hsettled hkey).mono ?_ ?_)
  · rintro value t' ⟨ht, hvalue⟩
    exact ⟨ht, by rw [hvalue]; rfl⟩
  · rintro error t' ⟨ht, herror⟩
    exact ⟨ht, by rw [herror]; rfl⟩

theorem rests_deleteItem (hu : p.Usable) (h : t.Mirrors p img) (hkey : isValidKey key = true)
    (hnone : (p.live img).Stored key none) :
    Rests p (.count <$> deleteItem p key) t img (.ok (.count 0)) := by
  refine .map _ ((peeks_deleteItem hu h hkey hnone).mono ?_ fun _ _ => id)
  rintro removed t' ⟨ht, rfl⟩
  exact ⟨ht, rfl⟩

theorem rests_sweep (h : t.count = p.pageCount)
    (hnone : ∀ page, t.isKind .unavailable page = false) :
    Rests p (.count <$> sweep p) t img (.ok (.count 0)) := by
  refine .map _ ((peeks_sweep h hnone).mono ?_ fun _ _ => id)
  rintro removed t' ⟨ht, rfl⟩
  exact ⟨ht, rfl⟩

end Engine

/-! ## Operations whose effect is there -/

namespace Operation

open Engine EngineM

variable {p : Partition} {t : Table} {img : Image} {operation : Operation}
  {x : Partition → EngineM Answer} {key : UInt16}

/-- A call whose arguments are not in order is refused without an access. -/
theorem rests_of_not_accepted (hx : operation.program? = some x)
    (hnot : ¬operation.purpose.Accepted p) : Rests p (x p) t img (.error .invalidArgument) := by
  rw [program_eq_throw hx hnot]
  exact peeks_throw ⟨rfl, rfl⟩

/-- **A lookup of a settled key only looks**, and shows its value. -/
theorem rests_lookup (hu : p.Usable) (h : t.Mirrors p img) (hx : operation.program? = some x)
    {view : Option Bytes → Except Error Answer} (hlookup : operation.purpose = .lookup key true view)
    {v : Option Bytes} (hsettled : (p.live img).Update key v (p.live img)) :
    Rests p (x p) t img (view v) := by
  cases operation <;> cases hx <;> try cases hlookup
  case readItem buffer =>
    obtain ⟨rfl, haccepted, rfl⟩ := Purpose.lookup.inj hlookup
    rw [Bool.and_eq_true, bne_iff_ne] at haccepted
    refine .map _ ((peeks_readItem hu h hsettled haccepted.1 haccepted.2).mono ?_ fun _ _ => id)
    rintro answer t' ⟨ht, rfl⟩
    exact ⟨ht, rfl⟩
  case itemLength =>
    obtain ⟨rfl, hkey, rfl⟩ := Purpose.lookup.inj hlookup
    refine .map _ ((peeks_lengthOf hu h hsettled hkey).mono ?_ fun _ _ => id)
    rintro length t' ⟨ht, rfl⟩
    exact ⟨ht, rfl⟩
  case fetch route type =>
    obtain ⟨rfl, hkey, rfl⟩ := Purpose.lookup.inj hlookup
    exact rests_fetch hu h hkey hsettled _
  case firmware => exact rests_fetch hu h rfl hsettled _

/-- **A store of the payload that is there only looks.** -/
theorem rests_store (hu : p.Usable) (h : t.Mirrors p img) (hx : operation.program? = some x)
    {payload : Bytes} (hstore : operation.purpose = .store key payload)
    (haccepted : operation.purpose.Accepted p)
    (hsettled : (p.live img).Update key (some payload) (p.live img)) :
    Rests p (x p) t img (.ok .done) := by
  have hwrite : ∀ key payload, (Purpose.store key payload).Accepted p →
      (p.live img).Update key (some payload) (p.live img) →
        Rests p ((fun _ => .done) <$> Engine.writeItem p key payload) t img (.ok .done) := by
    intro key payload haccepted hsettled
    refine .map _ ((peeks_writeItem hu h haccepted hsettled).mono ?_ fun _ _ => id)
    exact fun _ _ ht => ⟨ht, rfl⟩
  rw [hstore] at haccepted
  cases operation <;> cases hx <;> try cases hstore
  all_goals exact hwrite _ _ haccepted hsettled

end Operation

/-! ## Calls that are repeated -/

namespace Session

variable {p : Partition} {session : Session} {flash : Flash} {operation : Operation}
  {x : Partition → EngineM Answer} {key : UInt16}

/-- What a call has replied, and the session and the flash after it. -/
abbrev called (session : Session) (flash : Flash) (operation : Operation) : (Reply × Session) × Flash :=
  (session.handle (.call operation)).run Flash.device flash

/-- A call gives a result without a write and without an erase, and the report on the pages stays as it
is. -/
structure Idle (session : Session) (flash : Flash) (operation : Operation)
    (result : Except Error Answer) : Prop where
  reply_eq : (session.called flash operation).1.1 = .answered result
  reads : ∀ step ∈ (session.handle (.call operation)).steps Flash.device flash,
    step.access.isRead = true
  report_eq : (session.called flash operation).1.2.report (session.called flash operation).2 =
    session.report flash

/-- On either route a call of a store that is ready runs its engine program, and leaves a store that is
ready unless an access fails. -/
theorem exists_handle_call {store : Store} (hsession : session.Keeps p store)
    (hpartition : store.partition = p) (hphase : store.phase = .ready)
    (hx : operation.program? = some x) : ∃ phaseAfter : Except Error Answer → Phase,
      (∀ result, result ≠ .error .ioFailure → phaseAfter result = .ready) ∧
      session.handle (.call operation) = (x p).run.run store.table >>= fun result =>
        pure (.answered result.1,
          { session with store := some ⟨p, result.2, phaseAfter result.1⟩ }) := by
  by_cases hkeeps : operation.KeepsGuard
  · refine ⟨Store.phaseAfter, fun result hresult => ?_,
      handle_call_of_ready hsession hpartition hphase hkeeps hx⟩
    cases result with
    | ok answer => rfl
    | error error => exact Store.phaseAfter_error fun heq => hresult (congrArg Except.error heq)
  · refine ⟨fun _ => .ready, fun _ _ => rfl, ?_⟩
    rw [handle_call_of_direct hsession hpartition hkeeps hx, hpartition, hphase]

/-- The report of a store that is ready is made from its table. -/
theorem report_of_ready {store : Store} (hsession : session.Keeps p store)
    (hpartition : store.partition = p) (hphase : store.phase = .ready) (flash : Flash) :
    session.report flash = some (.ofTable store.table) := by
  have hkeeps : Operation.usage.KeepsGuard := trivial
  rw [report, handle_call_of_ready hsession hpartition hphase hkeeps rfl]
  rfl

/-- **A call that is at rest is idle.** -/
theorem idle_of_rests (hu : p.Usable) (hready : session.Ready p flash.cells)
    (hflash : flash.Follows .reliable) (hx : operation.program? = some x)
    {result : Except Error Answer}
    (hrests : ∀ store, session.Keeps p store → store.table.Mirrors p (p.image flash.cells) →
      Engine.Rests p (x p) store.table (p.image flash.cells) result) :
    session.Idle flash operation result := by
  obtain ⟨keeper, hkeeper, -, -, hunfailing⟩ := hready.unfailing hu
  obtain ⟨store, hsession, hsound, hfits, hphase⟩ := hready
  obtain rfl : keeper = store := Option.some.inj (hkeeper.store_eq.symm.trans hsession.store_eq)
  obtain ⟨phaseAfter, hphaseAfter, hhandle⟩ :=
    exists_handle_call hsession hsound.partition_eq hphase hx
  have hpeeks : ((x p).run.run keeper.table).Peeks flash.cells fun ended =>
      ended = (result, keeper.table) := by
    refine (hrests keeper hsession (hsound.mirrors hphase) flash.cells ⟨hfits, rfl⟩).mono ?_
    rintro ⟨error | answer, t'⟩ ⟨rfl, rfl⟩ <;> rfl
  have halways : ((x p).run.run keeper.table).Always .reliable (fun _ => True) flash.cells _ :=
    hpeeks.always trivial
  obtain ⟨⟨hended, -⟩, -⟩ := Flash.run_of_always hflash halways
  obtain ⟨hresult, -⟩ := Flash.run_of_always hflash (hunfailing operation x hx)
  rw [hended] at hresult
  have hcalled : (session.called flash operation).1 =
      (.answered result, { session with store := some ⟨p, keeper.table, .ready⟩ }) := by
    rw [called, hhandle, FlashM.run_bind, FlashM.run_pure, hended, hphaseAfter result hresult]
  have hkeeps : (session.called flash operation).1.2.Keeps p ⟨p, keeper.table, .ready⟩ := by
    rw [hcalled]
    exact ⟨hsession.newStore_eq, rfl⟩
  refine ⟨by rw [hcalled], ?_, ?_⟩
  · have hpeeks' : (session.handle (.call operation)).Peeks flash.cells fun _ => True := by
      rw [hhandle, FlashM.peeks_bind]
      exact hpeeks.mono fun _ _ => trivial
    exact hpeeks'.isRead_of_mem_steps hflash
  · rw [report_of_ready hkeeps rfl rfl, report_of_ready hsession hsound.partition_eq hphase]

/-- What a call of a store that is ready leaves: a store that is ready, and the effect of the call. -/
theorem called_of_ready (hu : p.Usable) (hready : session.Ready p flash.cells)
    (hflash : flash.Follows .reliable) (hx : operation.program? = some x) :
    let after := session.called flash operation
    after.1.2.Ready p after.2.cells ∧ after.2.Follows .reliable ∧
      ∃ result order, after.1.1 = .answered result ∧
        operation.purpose.Effect p order (p.live (p.image flash.cells)) result
          (p.live (p.image after.2.cells)) := by
  intro after
  obtain ⟨store, hsession, hsound, hfits, hphase⟩ := id hready
  have hmirrors := hsound.mirrors hphase
  have hx' : operation.onGuard.program? = some x := operation.program?_onGuard.trans hx
  have hconcludes : Engine.Concludes p .reliable (p.Secure .reliable True fun _ => True) (x p)
      store.table (p.image flash.cells) _ :=
    Operation.concludes_program hu hmirrors hx fun _ _ _ => trivial
  have hcall := always_call_of_ready hsession hsound.partition_eq hfits hphase
    operation.keepsGuard_onGuard hx' (hmirrors.secure _ _) hconcludes
  obtain ⟨⟨hfits', result, t', hreply, hkeeps, hpost⟩, hfollows, -⟩ :=
    Flash.run_of_always hflash hcall
  have hroute : after = (session.handle (.call operation.onGuard)).run Flash.device flash :=
    run_handle_onGuard (hready.unfailing hu) hflash (.call operation)
  rw [← hroute] at hfits' hreply hkeeps hpost hfollows
  obtain ⟨hmirrors', hphase', heffect⟩ : t'.Mirrors p (p.image after.2.cells) ∧
      Store.phaseAfter result = .ready ∧
      operation.purpose.Effect p store.table.searchOrder (p.live (p.image flash.cells)) result
        (p.live (p.image after.2.cells)) := by
    cases result with
    | ok answer => exact ⟨hpost.1, rfl, hpost.2⟩
    | error error => exact ⟨hpost.2.1, Store.phaseAfter_error hpost.1, hpost.2.2⟩
  exact ⟨⟨_, hkeeps, ⟨rfl, fun _ => hmirrors'⟩, hfits', hphase'⟩, hfollows, result, _, hreply, heffect⟩

/-- After a lookup of a key, its value is settled: any other lookup shows the same one and is idle. -/
theorem idle_of_lookup (hu : p.Usable) (hready : session.Ready p flash.cells)
    (hflash : flash.Follows .reliable) {accepted : Bool} {view : Option Bytes → Except Error Answer}
    (hlookup : operation.purpose = .lookup key accepted view) :
    let after := session.called flash operation
    ∃ result, after.1.1 = .answered result ∧ after.1.2.Idle after.2 operation result ∧
      (accepted = true → ∃ v, result = view v ∧ ∀ (other : Operation) (view' : Option Bytes →
        Except Error Answer), other.purpose = .lookup key true view' →
          after.1.2.Idle after.2 other (view' v)) := by
  intro after
  have hprogram : ∀ other : Operation, ∀ {accepted view}, other.purpose = .lookup key accepted view →
      ∃ x, other.program? = some x := fun other _ _ hother =>
    Option.ne_none_iff_exists'.mp (Operation.program?_ne_none (by simp [hother]))
  obtain ⟨x, hx⟩ := hprogram operation hlookup
  obtain ⟨hready', hfollows, result, order, hreply, heffect⟩ := called_of_ready hu hready hflash hx
  refine ⟨result, hreply, ?_⟩
  rcases heffect with ⟨hnot, rfl, -⟩ | ⟨haccepted, heffect⟩
  · refine ⟨idle_of_rests hu hready' hfollows hx fun _ _ _ =>
      Operation.rests_of_not_accepted hx hnot, fun htrue => ?_⟩
    rw [hlookup] at hnot
    exact absurd htrue hnot
  · rw [hlookup] at haccepted heffect
    obtain rfl : accepted = true := haccepted
    obtain ⟨v, -, -, hupdate, rfl⟩ := heffect
    have hother : ∀ (other : Operation) (view' : Option Bytes → Except Error Answer),
        other.purpose = .lookup key true view' → after.1.2.Idle after.2 other (view' v) := by
      intro other view' hpurpose
      obtain ⟨y, hy⟩ := hprogram other hpurpose
      exact idle_of_rests hu hready' hfollows hy fun _ _ hmirrors =>
        Operation.rests_lookup hu hmirrors hy hpurpose hupdate.settled
    exact ⟨hother operation view hlookup, fun _ => ⟨v, rfl, hother⟩⟩

/-- A store that has succeeded is idle when it is repeated. -/
theorem idle_of_store (hu : p.Usable) (hready : session.Ready p flash.cells)
    (hflash : flash.Follows .reliable) {payload : Bytes}
    (hstore : operation.purpose = .store key payload) :
    let after := session.called flash operation
    after.1.1 = .answered (.ok .done) → after.1.2.Idle after.2 operation (.ok .done) := by
  intro after hdone
  obtain ⟨x, hx⟩ := Option.ne_none_iff_exists'.mp
    (operation.program?_ne_none (by simp [hstore]))
  obtain ⟨hready', hfollows, result, order, hreply, heffect⟩ := called_of_ready hu hready hflash hx
  obtain rfl : result = .ok .done := Reply.answered.inj (hreply.symm.trans hdone)
  obtain ⟨hnot, herror, -⟩ | ⟨haccepted, heffect⟩ := heffect
  · cases herror
  · refine idle_of_rests hu hready' hfollows hx fun _ _ hmirrors => ?_
    rw [hstore] at heffect
    obtain ⟨-, hupdate⟩ | ⟨herror, -⟩ := heffect
    · exact Operation.rests_store hu hmirrors hx hstore haccepted hupdate.settled
    · cases herror

/-- After a removal, another one of its key is idle. -/
theorem idle_of_removal (hu : p.Usable) (hready : session.Ready p flash.cells)
    (hflash : flash.Follows .reliable) (hkey : isValidKey key = true) :
    let after := session.called flash (.deleteItem key)
    after.1.2.Idle after.2 (.deleteItem key) (.ok (.count 0)) := by
  intro after
  have hx : (Operation.deleteItem key).program? = some _ := rfl
  obtain ⟨hready', hfollows, result, order, -, heffect⟩ := called_of_ready hu hready hflash hx
  obtain ⟨hnot, -⟩ | ⟨-, -, hupdate⟩ := heffect
  · exact absurd hkey hnot
  · exact idle_of_rests hu hready' hfollows hx fun _ _ hmirrors =>
      Engine.rests_deleteItem hu hmirrors hkey hupdate.stored

/-- After a sweep, another one is idle. -/
theorem idle_of_sweep (hu : p.Usable) (hready : session.Ready p flash.cells)
    (hflash : flash.Follows .reliable) :
    let after := session.called flash .sweep
    after.1.2.Idle after.2 .sweep (.ok (.count 0)) := by
  intro after
  have hx : Operation.sweep.program? = some _ := rfl
  obtain ⟨hready', hfollows, -⟩ := called_of_ready hu hready hflash hx
  obtain ⟨store, hsession, hsound, hfits, hphase⟩ := id hready
  obtain ⟨⟨swept, hswept, -, hsweep⟩, -⟩ :=
    Flash.run_of_always hflash (always_sweep hu hsession hsound hfits hphase)
  refine idle_of_rests hu hready' hfollows hx fun store' hsession' hmirrors => ?_
  obtain rfl : swept = store' := Option.some.inj (hswept.store_eq.symm.trans hsession'.store_eq)
  exact Engine.rests_sweep hmirrors.count_eq hsweep.none_waits

/-- **Repeating an operation does not wear the flash**, after any run from any content of the flash.  A
store that has succeeded succeeds again, a second removal of a key and a second sweep find nothing, and
all lookups of a key after the first one show the same value.  Each of these makes no write and no erase,
and leaves the report on the pages as it is. -/
theorem repetition_idle (hu : p.Usable) (hstarted : session.Started p flash)
    {requests : List Request} (hrequests : ∀ request ∈ requests, request.Stays) :
    let run := (session.serve requests).run Flash.device flash
    let after := fun operation => run.1.2.called run.2 operation
    (∀ operation key payload, operation.purpose = .store key payload →
      (after operation).1.1 = .answered (.ok .done) →
        (after operation).1.2.Idle (after operation).2 operation (.ok .done)) ∧
    (∀ key, isValidKey key = true → (after (.deleteItem key)).1.2.Idle (after (.deleteItem key)).2
      (.deleteItem key) (.ok (.count 0))) ∧
    (after .sweep).1.2.Idle (after .sweep).2 .sweep (.ok (.count 0)) ∧
    ∀ operation key accepted view, operation.purpose = .lookup key accepted view →
      ∃ result, (after operation).1.1 = .answered result ∧
        (after operation).1.2.Idle (after operation).2 operation result ∧
        (accepted = true → ∃ v, result = view v ∧ ∀ (other : Operation) (view' : Option Bytes →
          Except Error Answer), other.purpose = .lookup key true view' →
            (after operation).1.2.Idle (after operation).2 other (view' v)) := by
  intro run after
  obtain ⟨hready, hfollows⟩ := hstarted.serve hu hrequests
  exact ⟨fun _ _ _ hstore => idle_of_store hu hready hfollows hstore,
    fun _ hkey => idle_of_removal hu hready hfollows hkey, idle_of_sweep hu hready hfollows,
    fun _ _ _ _ hlookup => idle_of_lookup hu hready hfollows hlookup⟩

/-- Of two copies a lookup drops one, which takes a write.  The second lookup gives the same value. -/
theorem repetition_idle_small :
    let start := (small.handle (.call .init)).run Flash.device (.steady (doubled [1, 2, 3] [1, 2, 3]))
    let run := (start.1.2.serve [.call .usage]).run Flash.device start.2
    let lookup : Operation := .readItem 2 [0, 0, 0, 0]
    let after := run.1.2.called run.2 lookup
    Partition.small.Usable ∧ Started .small start.1.2 start.2 ∧
      (∀ request ∈ [Request.call .usage], request.Stays) ∧
      ((run.1.2.handle (.call lookup)).steps Flash.device run.2).any (!·.access.isRead) = true ∧
      after.1.1.copied? = some (3, [1, 2, 3, 0]) ∧
      ∃ result, after.1.1 = .answered result ∧ after.1.2.Idle after.2 lookup result := by
  intro start run lookup after
  have hstarted : Started .small start.1.2 start.2 :=
    started_of_init keeps_small (fun _ => trivial) (Reply.eq_done (by decide +kernel))
  have hrequests : ∀ request ∈ [Request.call .usage], request.Stays := by
    simp [Request.Stays]
  obtain ⟨-, -, -, hlookup⟩ := repetition_idle Partition.usable_small hstarted hrequests
  obtain ⟨result, hreply, hidle, -⟩ := hlookup lookup 2 _ _ rfl
  exact ⟨Partition.usable_small, hstarted, hrequests, by decide +kernel, by decide +kernel, result,
    hreply, hidle⟩

end Session

end RingStore
