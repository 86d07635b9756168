import RingStore.Proofs.MapRefinement

/-!
# Runs in which no access fails

On a flash that refuses no access a store that was scanned stays ready, so the guard has nothing to do
and a call may as well go around it.  A run from a store that is ready may therefore use both routes, and it
leaves one that is ready.  From a formatted partition it leaves live records that represent a map.

## Main statements

* `Session.run_handle_onGuard`: the two routes do not differ.
* `Session.serve_of_onGuard`: a run on both routes, from its steps on one.
* `Session.Ready.serve`: a run from a store that is ready leaves one that is ready.
* `Session.Holds.serve`: the replies of a run from a store that holds a map are those of the map.
-/

namespace RingStore

/-! ## The two routes -/

namespace Operation

variable {operation : Operation}

/-- The call on the route through the guard. -/
def onGuard : Operation → Operation
  | fetch _ key type => fetch .guarded key type
  | put _ key value => put .guarded key value
  | operation => operation

theorem keepsGuard_onGuard (operation : Operation) : operation.onGuard.KeepsGuard := by
  cases operation <;> trivial

theorem onGuard_of_keepsGuard (h : operation.KeepsGuard) : operation.onGuard = operation := by
  cases operation <;> first | rfl | (cases h; rfl)

theorem program?_onGuard (operation : Operation) : operation.onGuard.program? = operation.program? := by
  cases operation <;> rfl

/-- A call that goes around the guard is an engine program. -/
theorem exists_program (h : ¬operation.KeepsGuard) : ∃ x, operation.program? = some x := by
  cases operation <;> first | exact ⟨_, rfl⟩ | exact absurd trivial h

/-- Around the guard an operation is its engine program, run on the table as it is. -/
theorem run_eq_direct (h : ¬operation.KeepsGuard) {x : Partition → EngineM Answer}
    (hx : operation.program? = some x) : operation.run = Store.direct x := by
  cases operation <;> cases hx
  case fetch route key type =>
    cases route with
    | guarded => exact absurd rfl h
    | direct => exact Store.map_direct _ _
  case put route key value =>
    cases route with
    | guarded => exact absurd rfl h
    | direct => exact Store.map_direct _ _
  all_goals exact absurd trivial h

end Operation

namespace Request

/-- The request on the route through the guard. -/
def onGuard : Request → Request
  | call operation => .call operation.onGuard
  | request => request

/-- The request does not ask for a store elsewhere. -/
def Stays : Request → Prop
  | .create _ => False
  | _ => True

theorem Stays.keepsGuard_onGuard {request : Request} (h : request.Stays) :
    request.onGuard.KeepsGuard := by
  cases request with
  | create placement => exact h.elim
  | reboot => trivial
  | call operation => exact operation.keepsGuard_onGuard

end Request

namespace Contents

variable {p : Partition} {s s' : Option Contents} {m : Contents} {request : Request} {reply : Reply}

/-- To a map the routes are the same. -/
theorem Step.of_onGuard (h : Step p s request.onGuard reply s') : Step p s request reply s' := by
  cases request with
  | call operation =>
    cases reply with
    | answered result => cases operation <;> cases s <;> exact h
    | _ => exact h.elim
  | _ => exact h

/-- Once there is a map, there is one. -/
theorem Step.exists_eq_some (h : Step p (some m) request reply s') : ∃ m', s' = some m' := by
  cases request with
  | create placement => exact h.elim
  | reboot =>
    cases reply with
    | answered result => exact ⟨_, h.2⟩
    | _ => exact h.elim
  | call operation =>
    cases reply with
    | answered result =>
      cases operation
      case init | maxPayload => exact ⟨_, h.2⟩
      all_goals
        obtain ⟨m', -, rfl⟩ := h
        exact ⟨m', rfl⟩
    | _ => exact h.elim

end Contents

namespace Session

variable {p : Partition} {session : Session} {store : Store} {operation : Operation} {flash : Flash}
  {m : Contents}

/-! ## Calls of a store that is ready -/

/-- A call of a store that is ready runs its engine program. -/
theorem handle_call_of_ready (hsession : session.Keeps p store) (hpartition : store.partition = p)
    (hphase : store.phase = .ready) (hkeeps : operation.KeepsGuard) {x : Partition → EngineM Answer}
    (hx : operation.program? = some x) :
    session.handle (.call operation) = (x p).run.run store.table >>= fun result =>
      pure (.answered result.1,
        { session with store := some ⟨p, result.2, Store.phaseAfter result.1⟩ }) := by
  obtain ⟨partition, table, phase⟩ := store
  cases hpartition
  rw [handle_eq_callStore hsession (.call hkeeps), callStore, operation.run_eq_guarded hkeeps hx,
    Store.run_guarded_ready hphase, bind_assoc]
  rfl

/-- A call that goes around the guard runs its engine program. -/
theorem handle_call_of_direct (hsession : session.Keeps p store) (hpartition : store.partition = p)
    (hdirect : ¬operation.KeepsGuard) {x : Partition → EngineM Answer}
    (hx : operation.program? = some x) :
    session.handle (.call operation) = (x p).run.run store.table >>= fun result =>
      pure (.answered result.1, { session with store := some { store with table := result.2 } }) := by
  obtain ⟨partition, table, phase⟩ := store
  cases hpartition
  simp only [handle, hsession.store_eq, callStore, operation.run_eq_direct hdirect hx]
  show (_ >>= _) >>= _ = _
  rw [bind_assoc]
  rfl

/-- A session with a store that is ready, and cells that its table mirrors. -/
def Ready (p : Partition) (session : Session) (cells : Cells) : Prop :=
  ∃ store, session.Keeps p store ∧ store.Sound p (p.image cells) ∧ p.base + p.size ≤ cells.size ∧
    store.phase = .ready

theorem Holds.ready {cells : Cells} (h : session.Holds p (some m) cells) : session.Ready p cells := by
  obtain ⟨store, hsession, hsound, hfits, hphase, -⟩ := h
  exact ⟨store, hsession, hsound, hfits, hphase⟩

/-- A session with a store that is ready, and cells on which no call fails for an access. -/
def Unfailing (p : Partition) (session : Session) (cells : Cells) : Prop :=
  ∃ store, session.Keeps p store ∧ store.partition = p ∧ store.phase = .ready ∧
    ∀ (operation : Operation) (x : Partition → EngineM Answer), operation.program? = some x →
      ((x p).run.run store.table).Always .reliable (fun _ => True) cells fun result _ =>
        result.1 ≠ .error .ioFailure

/-- A program that ends with other errors only does not fail for an access. -/
theorem always_ne_ioFailure {x : EngineM Answer} {inv : Image → Prop} {t : Table} {cells : Cells}
    {post : EngineM.Post Answer} {fail : EngineM.Post Error} (hfits : p.base + p.size ≤ cells.size)
    (hinv : inv (p.image cells)) (h : EngineM.Ensures p .reliable inv x t (p.image cells) post fail)
    (hfail : ∀ error t' img', fail error t' img' → error ≠ .ioFailure) :
    (x.run.run t).Always .reliable (fun _ => True) cells fun result _ =>
      result.1 ≠ .error .ioFailure := by
  refine (h cells ⟨hfits, rfl⟩ hinv).mono (fun _ _ => trivial) ?_
  rintro ⟨error | answer, t'⟩ after hpost
  · rcases hpost with ⟨-, hconduct⟩ | hpost
    · exact absurd rfl hconduct
    · exact fun herror => hfail error t' _ hpost (Except.error.inj herror)
  · nofun

theorem Ready.unfailing {cells : Cells} (hu : p.Usable) (h : session.Ready p cells) :
    session.Unfailing p cells := by
  obtain ⟨store, hsession, hsound, hfits, hphase⟩ := h
  refine ⟨store, hsession, hsound.partition_eq, hphase, fun operation x hx => ?_⟩
  have hmirrors := hsound.mirrors hphase
  have hconcludes : Engine.Concludes p .reliable (p.Secure .reliable True fun _ => True) (x p)
      store.table (p.image cells) _ :=
    operation.concludes_program hu hmirrors hx fun _ _ _ => trivial
  exact always_ne_ioFailure hfits (hmirrors.secure _ _) hconcludes fun _ _ _ hfail => hfail.1

/-- **The two routes do not differ** as long as no access fails: the guard would not mark the store as
faulted. -/
theorem run_handle_onGuard (h : session.Unfailing p flash.cells) (hflash : flash.Follows .reliable)
    (request : Request) :
    (session.handle request).run Flash.device flash =
      (session.handle request.onGuard).run Flash.device flash := by
  obtain ⟨store, hsession, hpartition, hphase, hunfailing⟩ := h
  cases request with
  | create placement => rfl
  | reboot => rfl
  | call operation =>
    by_cases hkeeps : operation.KeepsGuard
    · rw [Request.onGuard, operation.onGuard_of_keepsGuard hkeeps]
    · obtain ⟨x, hx⟩ := operation.exists_program hkeeps
      obtain ⟨hresult, -⟩ := Flash.run_of_always hflash (hunfailing operation x hx)
      rw [handle_call_of_direct hsession hpartition hkeeps hx, Request.onGuard,
        handle_call_of_ready hsession hpartition hphase operation.keepsGuard_onGuard
          (operation.program?_onGuard.trans hx), FlashM.run_bind, FlashM.run_bind]
      generalize ((x p).run.run store.table).run Flash.device flash = last at hresult
      obtain ⟨partition, table, phase⟩ := store
      cases hpartition
      cases hphase
      obtain ⟨⟨error | answer, t'⟩, flash'⟩ := last
      · have herror : error ≠ .ioFailure := fun heq => hresult (congrArg Except.error heq)
        simp only [Store.phaseAfter_error herror, FlashM.run_pure]
      · rfl

/-- **A call of a store that is ready ends as its engine program does.** -/
theorem always_call_of_ready {cells : Cells} (hsession : session.Keeps p store)
    (hpartition : store.partition = p) (hfits : p.base + p.size ≤ cells.size)
    (hphase : store.phase = .ready) (hkeeps : operation.KeepsGuard) {x : Partition → EngineM Answer}
    (hx : operation.program? = some x) {inv : Image → Prop} {post : EngineM.Post Answer}
    {fail : EngineM.Post Error} (hinv : inv (p.image cells))
    (h : EngineM.Ensures p .reliable inv (x p) store.table (p.image cells) post fail) :
    (session.handle (.call operation)).Always .reliable (fun _ => True) cells fun answer after =>
      p.base + p.size ≤ after.size ∧ ∃ result t', answer.1 = .answered result ∧
        answer.2.Keeps p ⟨p, t', Store.phaseAfter result⟩ ∧
        match result with
        | .ok a => post a t' (p.image after)
        | .error error => fail error t' (p.image after) := by
  rw [handle_call_of_ready hsession hpartition hphase hkeeps hx, FlashM.always_bind]
  refine ((h cells ⟨hfits, rfl⟩ hinv).keep hinv).mono (fun _ _ => trivial) ?_
  rintro ⟨error | answer, t'⟩ after ⟨-, hsize, hpost⟩
  · rcases hpost with ⟨-, hconduct⟩ | hpost
    · exact absurd rfl hconduct
    · exact ⟨hsize ▸ hfits, _, t', rfl, ⟨hsession.newStore_eq, rfl⟩, hpost⟩
  · exact ⟨hsize ▸ hfits, _, t', rfl, ⟨hsession.newStore_eq, rfl⟩, hpost⟩

/-! ## Runs -/

/-- **The replies of a run on both routes are those of another machine**, if the reply to each request on
the route through the guard is. -/
theorem serve_of_onGuard {σ : Type} (step : σ → Request → Reply → σ → Prop)
    (motive : σ → Session → Cells → Prop)
    (hunfailing : ∀ s session cells, motive s session cells → session.Unfailing p cells)
    {requests : List Request}
    (hstep : ∀ request ∈ requests, ∀ s session cells, motive s session cells →
      (session.handle request.onGuard).Always .reliable (fun _ => True) cells fun answer after =>
        ∃ s', step s request answer.1 s' ∧ motive s' answer.2 after)
    {s : σ} (h : motive s session flash.cells) (hflash : flash.Follows .reliable) :
    let run := (session.serve requests).run Flash.device flash
    ∃ s', Trace step s requests run.1.1 s' ∧ motive s' run.1.2 run.2.cells ∧
      run.2.Follows .reliable := by
  induction requests generalizing session flash s with
  | nil => exact ⟨s, .nil _, h, hflash⟩
  | cons request rest ih =>
    obtain ⟨hrequest, hrest⟩ := List.forall_mem_cons.mp hstep
    obtain ⟨⟨s₁, hreply, hafter⟩, hflash', -⟩ :=
      Flash.run_of_always hflash (hrequest s session flash.cells h)
    rw [← run_handle_onGuard (hunfailing s session flash.cells h) hflash] at hreply hafter hflash'
    obtain ⟨s', htrace, hlast⟩ := ih hrest hafter hflash'
    simp only [Session.serve, FlashM.run_bind, FlashM.run_pure]
    exact ⟨s', .cons hreply htrace, hlast⟩

/-- A store that is ready stays ready. -/
theorem always_handle_ready (hu : p.Usable) {cells : Cells} {request : Request}
    (hrequest : request.KeepsGuard) (h : session.Ready p cells) :
    (session.handle request).Always .reliable (fun _ => True) cells fun answer after =>
      answer.2.Ready p after := by
  obtain ⟨store, hsession, hsound, hfits, hphase⟩ := h
  refine (always_handle_of_ready hu hsession hrequest hsound hfits hphase).mono (fun _ hc => hc) ?_
  rintro answer after ⟨target, operation, result, store', -, htarget, -, hsession', hsound', hfits',
    houtcome⟩
  refine ⟨store', hsession', hsound', hfits', ?_⟩
  generalize p.image after = img' at houtcome
  cases houtcome with
  | failed hconduct => exact absurd rfl hconduct
  | unscanned hunready hprogram =>
    rcases htarget with hready | rfl
    · exact hready
    · exact absurd rfl hprogram
  | told hoperation => exact htarget.resolve_right (hoperation ▸ nofun)
  | scanned _ hphase' => exact hphase'
  | concluded _ _ hphase' => exact hphase'

/-- **A run from a store that is ready leaves one that is ready.** -/
theorem Ready.serve (hu : p.Usable) (h : session.Ready p flash.cells) (hflash : flash.Follows .reliable)
    {requests : List Request} (hrequests : ∀ request ∈ requests, request.Stays) :
    let run := (session.serve requests).run Flash.device flash
    run.1.2.Ready p run.2.cells ∧ run.2.Follows .reliable := by
  have hstep : ∀ request ∈ requests, ∀ (s : Unit) (session : Session) (cells : Cells),
      session.Ready p cells →
        (session.handle request.onGuard).Always .reliable (fun _ => True) cells fun answer after =>
          ∃ s' : Unit, True ∧ answer.2.Ready p after := by
    intro request hrequest s session cells hready
    refine (always_handle_ready hu (hrequests request hrequest).keepsGuard_onGuard hready).mono
      (fun _ hc => hc) ?_
    exact fun _ _ hafter => ⟨(), trivial, hafter⟩
  obtain ⟨-, -, hlast⟩ := serve_of_onGuard (fun _ _ _ _ => True) (fun _ => Ready p)
    (fun _ _ _ hready => hready.unfailing hu) hstep (s := ()) h hflash
  exact hlast

/-- A run from a store that holds a map leaves one that holds a map, and its replies are those of the
map. -/
theorem Holds.serve (hu : p.Usable) (h : session.Holds p (some m) flash.cells)
    (hflash : flash.Follows .reliable) {requests : List Request}
    (hrequests : ∀ request ∈ requests, request.Stays) :
    let run := (session.serve requests).run Flash.device flash
    ∃ m', Trace (Contents.Step p) (some m) requests run.1.1 (some m') ∧
      run.1.2.Holds p (some m') run.2.cells ∧ run.2.Follows .reliable := by
  have hstep : ∀ request ∈ requests, ∀ (s : Option Contents) (session : Session) (cells : Cells),
      (∃ m, s = some m ∧ session.Holds p (some m) cells) →
        (session.handle request.onGuard).Always .reliable (fun _ => True) cells fun answer after =>
          ∃ s', Contents.Step p s request answer.1 s' ∧
            ∃ m, s' = some m ∧ answer.2.Holds p (some m) after := by
    rintro request hrequest _ session cells ⟨m, rfl, hm⟩
    refine (always_handle_holds hu (hrequests request hrequest).keepsGuard_onGuard hm).mono
      (fun _ _ => trivial) ?_
    rintro answer after ⟨s', hstep, hafter⟩
    obtain ⟨m', rfl⟩ := hstep.exists_eq_some
    exact ⟨some m', hstep.of_onGuard, m', rfl, hafter⟩
  obtain ⟨_, htrace, ⟨m', rfl, hlast⟩, hfollows⟩ :=
    serve_of_onGuard _ _ (fun _ _ _ hmotive => hmotive.choose_spec.2.ready.unfailing hu) hstep
      ⟨m, rfl, h⟩ hflash
  exact ⟨m', htrace, hlast, hfollows⟩

end Session

end RingStore
