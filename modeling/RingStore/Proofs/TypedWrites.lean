import RingStore.Proofs.FaultFree

/-!
# Typed values on both routes

A typed value may be written and read through the guard or around it.  A call around the guard runs on
the page table as it is, and if an access fails during it, nothing notes that the table is out of step
with the flash.  `Standing` follows from the replies of a run whether the table may be out of step, and
whether the guard knows.

A write that succeeds has stored its value as long as the table was in step, or the guard knew that it
was not and the write went through it.  In any other case a write may succeed on a table that does not
describe the flash, and what it wrote may be unreadable.

## Main statements

* `Session.Stands.serve`: the standing says of the store what it should, however the flash behaves.
* `Session.put_then_fetch`: a value that was written is read back, on either route.
* `Session.unnoticed_put_lost`: around the guard, a write that succeeds may be lost.
-/

namespace RingStore

open RingStore.Partition (Holdings)

/-! ## Standings -/

/-- What a reply gives of a typed value, as it is stored. -/
def Reply.shown? : Reply → Option (Option Bytes)
  | answered (.ok (.value value)) => some (value.map fun value => Storable.encode value.content)
  | _ => none

/-- The route on which a call runs an engine program. -/
def Operation.route? : Operation → Option Route
  | .fetch route _ _ => some route
  | .put route _ _ => some route
  | .init | .maxPayload => none
  | _ => some .guarded

/-- What is known of a page table from the replies of a run. -/
inductive Standing where
  /-- It describes the flash. -/
  | inStep
  /-- It may be out of step with the flash, and the next call through the guard scans the partition. -/
  | flagged
  /-- It may be out of step with the flash, and the guard need not know. -/
  | astray
  deriving DecidableEq

namespace Standing

/-- A call on a route may rely on the table. -/
def trusts : Standing → Route → Bool
  | inStep, _ => true
  | flagged, .guarded => true
  | _, _ => false

/-- The standing after a call on a route, given whether an access failed in it. -/
def called (standing : Standing) : Route → Bool → Standing
  | .guarded, true => flagged
  | .guarded, false => if standing = flagged then inStep else standing
  | .direct, true => if standing = inStep then astray else standing
  | .direct, false => standing

/-- The standing after a scan. -/
def scanned {α : Type} : Except Error α → Standing
  | .ok _ => inStep
  | .error _ => astray

/-- The standing after a request and its reply. -/
def after (standing : Standing) : Request × Reply → Standing
  | (.reboot, .answered result) => scanned result
  | (.call operation, .answered result) =>
    match operation.route?, operation with
    | some route, _ => standing.called route (Reply.answered result).isRefused
    | none, .init => scanned result
    | none, _ => standing
  | _ => astray

/-- What a standing says of a store. -/
def Describes (p : Partition) : Standing → Store → Image → Prop
  | inStep, store, img => store.phase = .ready ∧ store.table.Mirrors p img
  | flagged, store, _ => store.phase = .faulted
  | astray, _, _ => True

variable {p : Partition} {standing : Standing} {store : Store} {img : Image}

/-- A store that the guard may rely on is sound and was scanned. -/
theorem Describes.sound (h : standing.Describes p store img) (hpartition : store.partition = p)
    (htrusts : standing.trusts .guarded = true) : store.Sound p img ∧ store.phase ≠ .unready := by
  cases standing with
  | inStep => exact ⟨⟨hpartition, fun _ => h.2⟩, h.1 ▸ nofun⟩
  | flagged =>
    have h : store.phase = .faulted := h
    exact ⟨⟨hpartition, fun hready => by rw [h] at hready; cases hready⟩, h ▸ nofun⟩
  | astray => cases htrusts

end Standing

/-! ## Calls on either route -/

/-- A call through the guard keeps the partition, and marks the store as faulted if an access fails. -/
theorem Store.always_guarded {α : Type} {conduct : Conduct} (op : Partition → EngineM α) (store : Store)
    (cells : Cells) :
    ((guarded op).run.run store).Always conduct (fun _ => True) cells fun result _ =>
      result.2.partition = store.partition ∧
        (result.1 = .error .ioFailure → result.2.phase = .faulted) := by
  have hready : ∀ (ready : Store) (cells : Cells), ready.phase = .ready →
      ((guarded op).run.run ready).Always conduct (fun _ => True) cells fun result _ =>
        result.2.partition = ready.partition ∧
          (result.1 = .error .ioFailure → result.2.phase = .faulted) := by
    intro ready cells hphase
    rw [run_guarded_ready hphase, FlashM.always_bind]
    refine (FlashM.always_size _ cells).mono (fun _ hc => hc) ?_
    rintro ⟨result, t⟩ after -
    exact ⟨rfl, fun hfailed => hfailed ▸ rfl⟩
  cases hphase : store.phase with
  | unready =>
    rw [run_guarded_unready hphase]
    exact ⟨rfl, nofun⟩
  | ready => exact hready store cells hphase
  | faulted =>
    rw [run_guarded_faulted hphase, FlashM.always_bind]
    refine (FlashM.always_size _ cells).mono (fun _ hc => hc) ?_
    rintro ⟨error | _, t⟩ after -
    · exact ⟨rfl, fun _ => hphase⟩
    · exact hready _ after rfl

/-- A call has had its effect, on a table that describes the flash. -/
structure Store.Concluded (p : Partition) (operation : Operation) (result : Except Error Answer)
    (store : Store) (img : Image) : Prop where
  ready : store.phase = .ready
  mirrors : store.table.Mirrors p img
  effect : ∃ order L, operation.purpose.Effect p order L result (p.live img)

namespace Store.Outcome

variable {p : Partition} {conduct : Conduct} {anchored : Prop} {operation : Operation}
  {store store' : Store} {img img' : Image} {result : Except Error Answer}

/-- A call of a store that was scanned before has its effect unless an access fails. -/
theorem called (h : Outcome p conduct anchored operation store img result store' img')
    (hsound : store'.Sound p img') (hphase : store.phase ≠ .unready)
    (hroute : operation.route? ≠ none) (hresult : result ≠ .error .ioFailure) :
    Concluded p operation result store' img' := by
  cases h with
  | failed => exact absurd rfl hresult
  | unscanned hunready => exact absurd hunready hphase
  | told hoperation =>
    subst hoperation
    exact absurd rfl hroute
  | scanned hoperation =>
    subst hoperation
    exact absurd rfl hroute
  | concluded _ _ hphase' _ heffect => exact ⟨hphase', hsound.mirrors hphase', _, _, heffect⟩

/-- A scan brings the table into step unless it fails. -/
theorem describes (h : Outcome p conduct anchored .init store img result store' img')
    (hsound : store'.Sound p img') : (Standing.scanned result).Describes p store' img' := by
  cases h with
  | failed => trivial
  | unscanned _ hprogram => exact absurd rfl hprogram
  | told hoperation => cases hoperation
  | scanned _ hphase => exact ⟨hphase, hsound.mirrors hphase⟩
  | concluded _ hprogram => exact absurd rfl hprogram

end Store.Outcome

/-- Through the guard a call notes a failed access, around it the phase stays as it is. -/
def Route.Notes (result : Except Error Answer) (before after : Phase) : Route → Prop
  | guarded => result = .error .ioFailure → after = .faulted
  | direct => after = before

/-- What a call on a route leaves of the standing. -/
theorem Standing.describes_called {p : Partition} {standing : Standing} {store store' : Store}
    {img img' : Image} {operation : Operation} {route : Route} {result : Except Error Answer}
    (hbefore : standing.Describes p store img)
    (hphase : route.Notes result store.phase store'.phase)
    (hconcluded : standing.trusts route = true → result ≠ .error .ioFailure →
      store'.Concluded p operation result img') :
    (standing.called route (Reply.answered result).isRefused).Describes p store' img' := by
  by_cases hfailed : result = .error .ioFailure
  · subst hfailed
    cases route with
    | guarded => exact hphase rfl
    | direct =>
      cases standing with
      | inStep => trivial
      | flagged => exact hphase.trans hbefore
      | astray => trivial
  · have hnot : (Reply.answered result).isRefused = false := by
      obtain error | answer := result
      · cases error <;> first | rfl | exact absurd rfl hfailed
      · rfl
    rw [hnot]
    cases standing with
    | inStep =>
      have hcalled := hconcluded (by cases route <;> rfl) hfailed
      cases route <;> exact ⟨hcalled.ready, hcalled.mirrors⟩
    | flagged =>
      cases route with
      | guarded =>
        have hcalled := hconcluded rfl hfailed
        exact ⟨hcalled.ready, hcalled.mirrors⟩
      | direct => exact hphase.trans hbefore
    | astray => cases route <;> trivial

namespace Operation

variable {operation : Operation}

theorem keepsGuard_of_route (h : operation.route? = some .guarded) : operation.KeepsGuard := by
  cases operation <;> cases h <;> trivial

theorem not_keepsGuard_of_route (h : operation.route? = some .direct) : ¬operation.KeepsGuard := by
  cases operation <;> cases h <;> exact nofun

/-- What is shown of the bytes of a value is the value. -/
theorem showValue_encode (value : Value) :
    showValue value.type (some (Storable.encode value.content)) = .ok (.value (some value)) := by
  rw [showValue, Engine.decoded, Storable.decode_encode]
  rfl

/-- A call on a route is an engine program. -/
theorem exists_program_of_route {route : Route} (h : operation.route? = some route) :
    ∃ x, operation.program? = some x := by
  cases operation <;> first | exact ⟨_, rfl⟩ | cases h

end Operation

namespace Session

variable {p : Partition} {session : Session} {store : Store} {standing : Standing} {flash : Flash}
  {cells : Cells} {operation : Operation} {route : Route}

/-- A session with a store of a partition, of which a standing is known. -/
def Stands (p : Partition) (standing : Standing) (session : Session) (cells : Cells) : Prop :=
  ∃ store, session.Keeps p store ∧ store.partition = p ∧ p.base + p.size ≤ cells.size ∧
    standing.Describes p store (p.image cells)

/-- **A call that may rely on the table has its effect** unless an access fails. -/
theorem always_call_of_trusts (hu : p.Usable) (hsession : session.Keeps p store)
    (hpartition : store.partition = p) (hfits : p.base + p.size ≤ cells.size)
    (hdescribes : standing.Describes p store (p.image cells))
    (hroute : operation.route? = some route) (htrusts : standing.trusts route = true) :
    (session.handle (.call operation)).Always .tearing (fun _ => True) cells fun answer after =>
      ∃ result store', answer.1 = .answered result ∧ answer.2.Keeps p store' ∧
        (result ≠ .error .ioFailure → store'.Concluded p operation result (p.image after)) := by
  obtain ⟨x, hx⟩ := operation.exists_program_of_route hroute
  cases route with
  | guarded =>
    obtain ⟨hsound, hphase⟩ := hdescribes.sound hpartition htrusts
    have hkeeps := operation.keepsGuard_of_route hroute
    have hrun : StoreM.Ensures p .tearing (p.Secure .tearing False fun _ => True) operation.run store
        (p.image cells) fun result store' img' => store'.Sound p img' ∧
          Store.Outcome p .tearing False operation store (p.image cells) result store' img' :=
      Store.ensures_run hu (by nofun) (Or.inr fun _ => trivial) hkeeps hsound fun _ _ _ _ _ _ => trivial
    refine (always_handle hsession (.call hkeeps) (hrun cells ⟨hfits, rfl⟩ (p.secure_of_unasked _ _))).mono
      (fun _ _ => trivial) ?_
    rintro answer after ⟨result, store', hreply, hsession', hsound', houtcome⟩
    exact ⟨result, store', hreply, hsession', houtcome.called hsound' hphase (by rw [hroute]; nofun)⟩
  | direct =>
    cases standing with
    | flagged => cases htrusts
    | astray => cases htrusts
    | inStep =>
      obtain ⟨hphase, hmirrors⟩ := hdescribes
      have hconcludes : Engine.Concludes p .tearing (p.Secure .tearing False fun _ => True) (x p)
          store.table (p.image cells) _ :=
        operation.concludes_program hu hmirrors hx fun _ _ _ => trivial
      rw [handle_call_of_direct hsession hpartition (operation.not_keepsGuard_of_route hroute) hx,
        FlashM.always_bind]
      refine (hconcludes cells ⟨hfits, rfl⟩ (p.secure_of_unasked _ _)).mono (fun _ _ => trivial) ?_
      rintro ⟨error | answer, t'⟩ after hresult
      · refine ⟨_, { store with table := t' }, rfl, ⟨hsession.newStore_eq, rfl⟩, fun herror => ?_⟩
        obtain ⟨-, hmirrors', heffect⟩ := hresult.resolve_left fun hfailed => herror (hfailed.1 ▸ rfl)
        exact ⟨hphase, hmirrors', _, _, heffect⟩
      · exact ⟨_, { store with table := t' }, rfl, ⟨hsession.newStore_eq, rfl⟩,
          fun _ => ⟨hphase, hresult.1, _, _, hresult.2⟩⟩

/-- What a call does to the store in any case. -/
theorem always_call (hsession : session.Keeps p store) (hpartition : store.partition = p)
    (hroute : operation.route? = some route) :
    (session.handle (.call operation)).Always .tearing (fun _ => True) cells fun answer after =>
      ∃ result store', answer.1 = .answered result ∧ answer.2.Keeps p store' ∧
        store'.partition = p ∧ after.size = cells.size ∧
        route.Notes result store.phase store'.phase := by
  obtain ⟨x, hx⟩ := operation.exists_program_of_route hroute
  cases route with
  | guarded =>
    have hkeeps := operation.keepsGuard_of_route hroute
    have hguarded : (((Store.guarded x).run.run store).Always .tearing (fun _ => True) cells _) :=
      Store.always_guarded x store cells
    have hrun := hguarded.keep trivial
    rw [← operation.run_eq_guarded hkeeps hx] at hrun
    refine (always_handle hsession (.call hkeeps) hrun).mono (fun _ hc => hc) ?_
    rintro answer after ⟨result, store', hreply, hsession', -, hsize, hpartition', hfailed⟩
    exact ⟨result, store', hreply, hsession', hpartition'.trans hpartition, hsize, hfailed⟩
  | direct =>
    rw [handle_call_of_direct hsession hpartition (operation.not_keepsGuard_of_route hroute) hx,
      FlashM.always_bind]
    refine (FlashM.always_size _ cells).mono (fun _ hc => hc) ?_
    rintro ⟨result, t'⟩ after hsize
    exact ⟨result, { store with table := t' }, rfl, ⟨hsession.newStore_eq, rfl⟩, hpartition, hsize, rfl⟩

/-- A request for a scan. -/
theorem always_handle_scan (hu : p.Usable) {request : Request} {target : Store}
    (hsession : session.Keeps p store) (hcalls : request.Calls p store target .init)
    (htarget : target.partition = p) (hfits : p.base + p.size ≤ cells.size) :
    (session.handle request).Always .tearing (fun _ => True) cells fun answer after =>
      ∃ result, answer.1 = .answered result ∧ answer.2.Stands p (.scanned result) after := by
  have hrun : StoreM.Ensures p .tearing (p.Secure .tearing False fun _ => True) Operation.init.run target
      (p.image cells) _ :=
    Store.ensures_run_init hu (by nofun) (Or.inr fun _ => trivial) htarget
  refine (always_handle hsession hcalls ((hrun cells ⟨hfits, rfl⟩ (p.secure_of_unasked _ _)).keep
    (p.secure_of_unasked _ _))).mono (fun _ _ => trivial) ?_
  rintro answer after ⟨result, store', hreply, hsession', -, hsize, hsound, houtcome⟩
  exact ⟨result, hreply, store', hsession', hsound.partition_eq, hsize ▸ hfits, houtcome.describes hsound⟩

/-- **A request leaves the standing that its reply shows**, however the flash behaves. -/
theorem always_handle_stands (hu : p.Usable) {request : Request} (hrequest : request.Stays)
    (h : session.Stands p standing cells) :
    (session.handle request).Always .tearing (fun _ => True) cells fun answer after =>
      answer.2.Stands p (standing.after (request, answer.1)) after := by
  obtain ⟨store, hsession, hpartition, hfits, hdescribes⟩ := h
  cases request with
  | create placement => exact hrequest.elim
  | reboot =>
    refine (always_handle_scan hu hsession .reboot rfl hfits).mono (fun _ hc => hc) ?_
    rintro ⟨reply, session'⟩ after ⟨result, rfl, hstands⟩
    exact hstands
  | call operation =>
    cases hroute : operation.route? with
    | none =>
      cases operation with
      | init =>
        refine (always_handle_scan hu hsession (.call trivial) hpartition hfits).mono
          (fun _ hc => hc) ?_
        rintro ⟨reply, session'⟩ after ⟨result, rfl, hstands⟩
        exact hstands
      | maxPayload =>
        simp only [handle, hsession.store_eq]
        exact ⟨store, ⟨hsession.newStore_eq, rfl⟩, hpartition, hfits, hdescribes⟩
      | _ => cases hroute
    | some route =>
      have hany : (session.handle (.call operation)).Always .tearing (fun _ => True) cells _ :=
        always_call hsession hpartition hroute
      have hcall : (session.handle (.call operation)).Always .tearing (fun _ => True) cells
          fun answer after => ∃ result store', answer.1 = .answered result ∧ answer.2.Keeps p store' ∧
            (standing.trusts route = true → result ≠ .error .ioFailure →
              store'.Concluded p operation result (p.image after)) := by
        by_cases htrusts : standing.trusts route = true
        · refine (always_call_of_trusts hu hsession hpartition hfits hdescribes hroute htrusts).mono
            (fun _ hc => hc) ?_
          rintro answer after ⟨result, store', hreply, hsession', hconcluded⟩
          exact ⟨result, store', hreply, hsession', fun _ => hconcluded⟩
        · refine hany.mono (fun _ hc => hc) ?_
          rintro answer after ⟨result, store', hreply, hsession', -⟩
          exact ⟨result, store', hreply, hsession', fun hnot => absurd hnot htrusts⟩
      refine (hany.and hcall).mono (fun _ hc => hc) ?_
      rintro ⟨reply, session'⟩ after ⟨⟨result, store', rfl, hsession', hpartition', hsize, hphase⟩,
        result', other, hreply, hother, hconcluded⟩
      obtain rfl := Reply.answered.inj hreply
      obtain rfl := Option.some.inj (hsession'.store_eq.symm.trans hother.store_eq)
      refine ⟨store', hsession', hpartition', hsize ▸ hfits, ?_⟩
      simp only [Standing.after, hroute]
      exact Standing.describes_called hdescribes hphase hconcluded

/-- **A run leaves the standing that its replies show**, however the flash behaves. -/
theorem Stands.serve (hu : p.Usable) (h : session.Stands p standing flash.cells)
    {requests : List Request} (hrequests : ∀ request ∈ requests, request.Stays) :
    let run := (session.serve requests).run Flash.device flash
    run.1.2.Stands p ((requests.zip run.1.1).foldl Standing.after standing) run.2.cells := by
  induction requests generalizing session flash standing with
  | nil => exact h
  | cons request rest ih =>
    obtain ⟨hrequest, hrest⟩ := List.forall_mem_cons.mp hrequests
    have hafter := (Flash.run_of_always flash.follows_tearing (always_handle_stands hu hrequest h)).1
    have hlast := ih hafter hrest
    simp only [Session.serve, FlashM.run_bind, FlashM.run_pure]
    exact hlast

/-! ## Reading back -/

/-- The value of a key that has only one is shown as one of any type, on either route. -/
theorem always_fetch_of_settled (hu : p.Usable) (hsession : session.Keeps p store)
    (hpartition : store.partition = p) (hphase : store.phase = .ready)
    (hmirrors : store.table.Mirrors p (p.image cells)) (hfits : p.base + p.size ≤ cells.size)
    {key : UInt16} (hkey : isValidKey key = true) {v : Option Bytes} {L : Holdings}
    (hupdate : L.Update key v (p.live (p.image cells))) (route : Route) (type : ValueType) :
    (session.handle (.call (.fetch route key type))).Always .reliable (fun _ => True) cells
      fun answer _ => answer.1 = .answered (Operation.showValue type v) := by
  obtain ⟨x, hx⟩ : ∃ x, (Operation.fetch route key type).program? = some x := ⟨_, rfl⟩
  have hconcludes : Engine.Concludes p .reliable (p.Secure .reliable False fun _ => True) (x p)
      store.table (p.image cells) _ :=
    Operation.concludes_program hu hmirrors hx fun _ _ _ => trivial
  have hvalue : ∀ result L', (Operation.fetch route key type).purpose.Effect p
      store.table.searchOrder (p.live (p.image cells)) result L' →
        result = Operation.showValue type v := by
    rintro result L' (⟨hnot, -⟩ | ⟨-, v', hstored, -, -, rfl⟩)
    · exact absurd hkey hnot
    · rw [hupdate.eq_of_stored hstored]
  have hhandle : ∃ next : Except Error Answer × Table → Session,
      session.handle (.call (.fetch route key type)) =
        (x p).run.run store.table >>= fun result => pure (.answered result.1, next result) := by
    cases route with
    | guarded =>
      have hkeeps : (Operation.fetch .guarded key type).KeepsGuard := rfl
      exact ⟨_, handle_call_of_ready hsession hpartition hphase hkeeps hx⟩
    | direct =>
      have hdirect : (Operation.fetch .direct key type).route? = some .direct := rfl
      exact ⟨_, handle_call_of_direct hsession hpartition (Operation.not_keepsGuard_of_route hdirect) hx⟩
  obtain ⟨next, hnext⟩ := hhandle
  rw [hnext, FlashM.always_bind]
  refine (hconcludes cells ⟨hfits, rfl⟩ (p.secure_of_unasked _ _)).mono
    (fun _ _ => trivial) ?_
  rintro ⟨error | answer, t'⟩ after hresult
  · rcases hresult with ⟨-, hconduct⟩ | ⟨-, -, heffect⟩
    · exact absurd rfl hconduct
    · exact congrArg Reply.answered (hvalue _ _ heffect)
  · exact congrArg Reply.answered (hvalue _ _ hresult.2)

/-- A value that is stored as the only one of its key is read back on either route. -/
theorem always_fetch_of_update (hu : p.Usable) (hsession : session.Keeps p store)
    (hpartition : store.partition = p) (hphase : store.phase = .ready)
    (hmirrors : store.table.Mirrors p (p.image cells)) (hfits : p.base + p.size ≤ cells.size)
    {key : UInt16} (hkey : isValidKey key = true) {value : Value} {L : Holdings}
    (hupdate : L.Update key (some (Storable.encode value.content)) (p.live (p.image cells)))
    (route : Route) :
    (session.handle (.call (.fetch route key value.type))).Always .reliable (fun _ => True) cells
      fun answer _ => answer.1 = .answered (.ok (.value (some value))) := by
  rw [← Operation.showValue_encode value]
  exact always_fetch_of_settled hu hsession hpartition hphase hmirrors hfits hkey hupdate route value.type

end Session

namespace Session

variable {p : Partition} {session : Session} {flash : Flash} {key : UInt16} {route : Route}

/-- **A value that was written is read back** by a lookup that follows and in which no access fails,
on either route.  Until the write, accesses may be refused and torn in any way, and calls may go around
the guard; the write may rely on the page table if the replies show that it is in step with the flash,
or if the write goes through a guard that knows better. -/
theorem put_then_fetch (hu : p.Usable) (hsession : session.Keeps p (.ofPartition p))
    (hfits : p.base + p.size ≤ flash.cells.size) {requests : List Request}
    (hrequests : ∀ request ∈ requests, request.Stays) (value : Value) :
    let run := (session.serve requests).run Flash.device flash
    let standing := (requests.zip run.1.1).foldl Standing.after .astray
    let put := (run.1.2.handle (.call (.put route key value))).run Flash.device run.2
    standing.trusts route = true → put.1.1 = .answered (.ok .done) → ∀ again : Route,
      ((put.1.2.handle (.call (.fetch again key value.type))).run Flash.device (.steady put.2.cells)).1.1 =
        .answered (.ok (.value (some value))) := by
  intro run standing put htrusts hput again
  have hfirst : session.Stands p .astray flash.cells := ⟨_, hsession, rfl, hfits, trivial⟩
  obtain ⟨store, hkeeps, hpartition, hfits', hdescribes⟩ := hfirst.serve hu hrequests
  have hroute : (Operation.put route key value).route? = some route := rfl
  obtain ⟨⟨⟨result, store', hreply, hkeeps', hconcluded⟩, ⟨result', other, -, hother, hpartition',
    hsize, -⟩⟩, -⟩ := Flash.run_of_always run.2.follows_tearing
      ((always_call_of_trusts hu hkeeps hpartition hfits' hdescribes hroute htrusts).and
        (always_call hkeeps hpartition hroute))
  obtain rfl := Option.some.inj (hkeeps'.store_eq.symm.trans hother.store_eq)
  obtain rfl := Reply.answered.inj (hput.symm.trans hreply)
  obtain ⟨hphase, hmirrors, order, L, heffect⟩ := hconcluded nofun
  rcases heffect with ⟨-, hnot, -⟩ | ⟨⟨hkey, -⟩, ⟨-, hupdate⟩ | ⟨hnot, -⟩⟩
  · cases hnot
  · have hsteady : (Flash.steady put.2.cells).Follows .reliable := fun _ => trivial
    exact (Flash.run_of_always hsteady (always_fetch_of_update hu hkeeps' hpartition' hphase hmirrors
      (hsize ▸ hfits') hkey hupdate again)).1
  · cases hnot

/-- A write is torn.  The next one scans the partition first, and its value is read around the guard. -/
theorem put_then_fetch_small :
    let flash := Flash.erased fun n => if n = 3 then .refused 0 5 else .granted
    let requests : List Request :=
      [.call .init, .call (.put .guarded 5 ⟨.unsigned .w8, (15 : UInt8)⟩)]
    let value : Value := ⟨.unsigned .w8, (240 : UInt8)⟩
    let run := (small.serve requests).run Flash.device flash
    let standing := (requests.zip run.1.1).foldl Standing.after .astray
    let put := (run.1.2.handle (.call (.put .guarded 5 value))).run Flash.device run.2
    Partition.small.Usable ∧ small.Keeps .small (.ofPartition .small) ∧
      Partition.small.base + Partition.small.size ≤ flash.cells.size ∧
      (∀ request ∈ requests, request.Stays) ∧ standing = .flagged ∧
      put.1.1 = .answered (.ok .done) ∧
      ((put.1.2.handle (.call (.fetch .direct 5 value.type))).run Flash.device (.steady put.2.cells)).1.1 =
        .answered (.ok (.value (some value))) := by
  have hrequests : ∀ request ∈ [Request.call .init,
      .call (.put .guarded 5 ⟨.unsigned .w8, (15 : UInt8)⟩)], request.Stays := by
    simp [Request.Stays]
  refine ⟨Partition.usable_small, keeps_small, by decide, hrequests, by decide +kernel,
    Reply.eq_done (by decide +kernel), ?_⟩
  exact put_then_fetch Partition.usable_small keeps_small (by decide) hrequests _ (by decide +kernel)
    (Reply.eq_done (by decide +kernel)) .direct

/-- **After an unnoticed failure, a write that succeeds may be lost.**  A write around the guard is torn,
and nothing notes it.  The next write goes through the guard and succeeds, but its record is programmed
over what was torn, and the lookup that follows finds nothing. -/
theorem unnoticed_put_lost :
    let flash := Partition.pair.erased fun n => if n = 3 then .refused 0 5 else .granted
    let requests : List Request :=
      [.call .init, .call (.put .direct 5 ⟨.unsigned .w8, (15 : UInt8)⟩)]
    let value : Value := ⟨.unsigned .w8, (240 : UInt8)⟩
    let run := ((ofPartition .pair).serve requests).run Flash.device flash
    let standing := (requests.zip run.1.1).foldl Standing.after .astray
    let put := (run.1.2.handle (.call (.put .guarded 5 value))).run Flash.device run.2
    let fetch :=
      (put.1.2.handle (.call (.fetch .guarded 5 value.type))).run Flash.device (.steady put.2.cells)
    Partition.pair.Usable ∧ (ofPartition .pair).Keeps .pair (.ofPartition .pair) ∧
      run.1.1.map Reply.error? = [none, some .ioFailure] ∧ standing = .astray ∧
      put.1.1 = .answered (.ok .done) ∧ fetch.1.1.shown? = some none :=
  ⟨Partition.usable_pair, keeps_ofPartition .pair, by decide +kernel, by decide +kernel,
    Reply.eq_done (by decide +kernel), by decide +kernel⟩

end Session

end RingStore
