import RingStore.Proofs.Engine.Boot
import RingStore.Proofs.Engine.Reach
import RingStore.Proofs.Operation

/-!
# Calls of a store

Between two calls a store is `Store.Sound`: as long as it is ready, its page table mirrors the flash.
A call keeps that however the flash behaves.  `Store.Outcome` lists the ways in which a call ends, with
what is known of the live records in each of them.

## Main statements

* `Store.ensures_run`: every call keeps a store sound and ends in one of these ways.
* `Store.always_run_of_short`: on a flash that ends within the partition, a store never gets ready.
-/

namespace RingStore

open RingStore.Partition (Holdings)

variable {α β : Type}

namespace Store

variable {store : Store}

/-! ## Runs of the guard -/

/-- The phase in which a program leaves a store that was ready. -/
def phaseAfter : Except Error α → Phase
  | .error .ioFailure => .faulted
  | _ => .ready

theorem phaseAfter_error {error : Error} (h : error ≠ .ioFailure) :
    phaseAfter (.error error : Except Error α) = .ready := by
  cases error <;> first | rfl | exact absurd rfl h

theorem run_direct_bind (op : Partition → EngineM α) (f : α → StoreM β) (store : Store) :
    (direct op >>= f).run.run store = (op store.partition).run.run store.table >>= fun result =>
      match result with
      | (.ok a, t) => (f a).run.run { store with table := t }
      | (.error error, t) => pure (.error error, { store with table := t }) := by
  rw [ExceptT.run_bind, StateT.run_bind]
  show (_ >>= _) >>= _ = _
  rw [bind_assoc]
  congr 1
  funext result
  obtain ⟨error | a, t⟩ := result
  · rfl
  · rfl

theorem run_guarded_ready (h : store.phase = .ready) (op : Partition → EngineM α) :
    (guarded op).run.run store = (op store.partition).run.run store.table >>= fun result =>
      pure (result.1, { store with table := result.2, phase := phaseAfter result.1 }) := by
  obtain ⟨partition, table, phase⟩ := store
  cases h
  rw [guarded, ExceptT.run_bind, StateT.run_bind, run_recover_ready rfl, pure_bind]
  show (ExceptT.run (tryCatch (direct op) _)).run _ = _
  rw [ExceptT.run_tryCatch, StateT.run_bind]
  show (_ >>= _) >>= _ = _
  rw [bind_assoc]
  congr 1
  funext result
  obtain ⟨error | a, t⟩ := result
  · cases error <;> rfl
  · rfl

theorem run_recover_faulted (h : store.phase = .faulted) :
    recover.run.run store = (Engine.load store.partition).run.run store.table >>= fun result =>
      match result with
      | (.ok _, t) => pure (.ok (), { store with table := t, phase := .ready })
      | (.error error, t) => pure (.error error, { store with table := t }) := by
  obtain ⟨partition, table, phase⟩ := store
  cases h
  have hrecover : recover.run.run ⟨partition, table, .faulted⟩ =
      (direct Engine.load >>= fun _ => setPhase .ready).run.run ⟨partition, table, .faulted⟩ := rfl
  rw [hrecover, run_direct_bind]
  congr 1
  funext result
  obtain ⟨error | _, t⟩ := result
  · rfl
  · rfl

/-- A store is recovered first, and a scan that fails ends the call. -/
theorem run_guarded (op : Partition → EngineM α) (store : Store) :
    (guarded op).run.run store = recover.run.run store >>= fun result =>
      match result with
      | (.ok _, ready) => (guarded op).run.run ready
      | (.error error, store') => pure (.error error, store') := by
  cases h : store.phase with
  | unready => rw [run_guarded_unready h, run_recover_unready h, pure_bind]
  | ready => rw [run_recover_ready h, pure_bind]
  | faulted =>
    rw [guarded, ExceptT.run_bind, StateT.run_bind, run_recover_faulted h, bind_assoc, bind_assoc]
    congr 1
    funext result
    obtain ⟨error | _, t⟩ := result
    · rfl
    · rfl

/-- A faulted store is scanned first. -/
theorem run_guarded_faulted (h : store.phase = .faulted) (op : Partition → EngineM α) :
    (guarded op).run.run store = (Engine.load store.partition).run.run store.table >>= fun result =>
      match result with
      | (.ok _, t) => (guarded op).run.run { store with table := t, phase := .ready }
      | (.error error, t) => pure (.error error, { store with table := t }) := by
  rw [run_guarded, run_recover_faulted h, bind_assoc]
  congr 1
  funext result
  obtain ⟨error | _, t⟩ := result
  · rfl
  · rfl

theorem run_init (store : Store) :
    Operation.init.run.run.run store =
      (Engine.load store.partition).run.run store.table >>= fun result =>
        match result with
        | (.ok _, t) => pure (.ok .done, { store with table := t, phase := .ready })
        | (.error error, t) => pure (.error error, { store with table := t, phase := .unready }) := by
  have hinit : Operation.init.run = setPhase .unready >>= fun _ => direct Engine.load >>= fun _ =>
      setPhase .ready >>= fun _ => pure .done := by
    rw [Operation.run, init, bind_assoc]
    simp only [bind_assoc]
  rw [hinit]
  refine (run_direct_bind Engine.load (fun _ => setPhase .ready >>= fun _ => pure Answer.done)
    ⟨store.partition, store.table, .unready⟩).trans ?_
  congr 1
  funext result
  obtain ⟨error | _, t⟩ := result
  · rfl
  · rfl

end Store

/-! ## Statements about calls -/

/-- Every run keeps an invariant of the image after each access and ends in a postcondition. -/
def StoreM.Ensures (p : Partition) (conduct : Conduct) (inv : Image → Prop) (x : StoreM α)
    (store : Store) (img : Image) (post : Except Error α → Store → Image → Prop) : Prop :=
  ∀ cells, p.Shows img cells → inv img →
    (x.run.run store).Always conduct (fun c => inv (p.image c)) cells fun result c =>
      post result.1 result.2 (p.image c)

namespace Store

/-- A store whose table mirrors the flash as long as it is ready. -/
structure Sound (p : Partition) (store : Store) (img : Image) : Prop where
  partition_eq : store.partition = p
  mirrors : store.phase = .ready → store.table.Mirrors p img

/-- What the program of an operation begins with, now or after another scan: the live records, and an
order of the pages in which the active one comes first. -/
structure Begins (p : Partition) (conduct : Conduct) (anchored : Prop) (img : Image)
    (order : List Nat) (L : Holdings) : Prop where
  live_eq : anchored → L = p.live img
  first : anchored → ¬conduct.SplitsWrites → ∀ page < p.pageCount, img.IsActive page →
    order.head? = some page

/-- How a call ends. -/
inductive Outcome (p : Partition) (conduct : Conduct) (anchored : Prop) (operation : Operation)
    (store : Store) (img : Image) : Except Error Answer → Store → Image → Prop
  /-- The chip has refused an access. -/
  | failed {store' : Store} {img' : Image} (hconduct : conduct ≠ .reliable)
      (hphase : store'.phase ≠ .ready) :
      Outcome p conduct anchored operation store img (.error .ioFailure) store' img'
  /-- The store was not scanned before. -/
  | unscanned (hphase : store.phase = .unready) (hprogram : operation.program? ≠ none) :
      Outcome p conduct anchored operation store img (.error .notInitialized) store img
  /-- The call needs no access. -/
  | told (hoperation : operation = .maxPayload) :
      Outcome p conduct anchored operation store img (.ok (.count p.maxPayload)) store img
  /-- The partition was scanned. -/
  | scanned {store' : Store} {img' : Image} (hoperation : operation = .init)
      (hphase : store'.phase = .ready)
      (hlive : anchored ∨ img.Marked p.pageCount → p.live img' = p.live img)
      (hformat : ¬img.Marked p.pageCount → p.live img' = fun _ => [])
      (honce : ¬img.Marked p.pageCount → store'.table.MarkedOnce) :
      Outcome p conduct anchored operation store img (.ok .done) store' img'
  /-- The operation had its effect on the records that were live before, or after another scan. -/
  | concluded {result : Except Error Answer} {store' : Store} {img' : Image} {order : List Nat}
      {L : Holdings} (hbefore : store.phase ≠ .unready) (hprogram : operation.program? ≠ none)
      (hphase : store'.phase = .ready) (hbegins : Begins p conduct anchored img order L)
      (heffect : operation.purpose.Effect p order L result (p.live img')) :
      Outcome p conduct anchored operation store img result store' img'

variable {p : Partition} {conduct : Conduct} {anchored : Prop} {allowed : Holdings → Prop}
  {inv : Image → Prop} {store : Store} {img : Image}

/-- On a store that is ready, the program of an operation has its effect unless the chip refuses an
access. -/
theorem ensures_guarded_ready (hu : p.Usable) {operation : Operation}
    {x : Partition → EngineM Answer} (hx : operation.program? = some x) (hsound : store.Sound p img)
    (hready : store.phase = .ready)
    (hallowed : ∀ L', operation.purpose.Leads conduct p.chip.checksum store.table.searchOrder
      (p.live img) L' → conduct ≠ .tearing → allowed L') :
    StoreM.Ensures p conduct (p.Secure conduct anchored allowed) (guarded x) store img
      fun result store' img' => store'.Sound p img' ∧
        (result = .error .ioFailure ∧ conduct ≠ .reliable ∧ store'.phase ≠ .ready ∨
          store'.phase = .ready ∧
            operation.purpose.Effect p store.table.searchOrder (p.live img) result (p.live img')) := by
  intro cells hshows hinv
  have hconcludes : Engine.Concludes p conduct (p.Secure conduct anchored allowed) (x p)
      store.table img (operation.purpose.Effect p store.table.searchOrder (p.live img)) :=
    operation.concludes_program hu (hsound.mirrors hready) hx hallowed
  rw [run_guarded_ready hready, hsound.partition_eq, FlashM.always_bind]
  refine (hconcludes cells hshows hinv).mono (fun _ hc => hc) ?_
  rintro ⟨error | answer, t'⟩ after h
  · rcases h with ⟨rfl, hconduct⟩ | ⟨herror, hmirrors', heffect⟩
    · exact ⟨⟨rfl, nofun⟩, Or.inl ⟨rfl, hconduct, nofun⟩⟩
    · exact ⟨⟨rfl, fun _ => hmirrors'⟩, Or.inr ⟨phaseAfter_error herror, heffect⟩⟩
  · obtain ⟨hmirrors', heffect⟩ := h
    exact ⟨⟨rfl, fun _ => hmirrors'⟩, Or.inr ⟨rfl, heffect⟩⟩

/-- Before an operation a store is recovered, or the call ends there. -/
theorem ensures_recover (hu : p.Usable) (hsplit : conduct ≠ .splitting)
    (hmode : anchored ∨ ∀ L, allowed L) (hsound : store.Sound p img) {operation : Operation}
    (hprogram : operation.program? ≠ none) :
    StoreM.Ensures p conduct (p.Secure conduct anchored allowed) recover store img
      fun result store' img' => store'.Sound p img' ∧
        match result with
        | .ok _ => store.phase ≠ .unready ∧ store'.phase = .ready ∧
            Begins p conduct anchored img store'.table.searchOrder (p.live img')
        | .error error => Outcome p conduct anchored operation store img (.error error) store' img' := by
  intro cells hshows hinv
  cases hphase : store.phase with
  | unready =>
    have himage := hshows.image_eq
    subst himage
    rw [run_recover_unready hphase]
    exact ⟨hsound, .unscanned hphase hprogram⟩
  | ready =>
    have himage := hshows.image_eq
    subst himage
    rw [run_recover_ready hphase]
    exact ⟨hsound, nofun, hphase, fun _ => rfl,
      fun _ _ _ => (hsound.mirrors hphase).head?_searchOrder⟩
  | faulted =>
    rw [run_recover_faulted hphase, hsound.partition_eq, FlashM.always_bind]
    refine (Engine.ensures_load (t := store.table) hu hsplit hmode cells hshows hinv).mono
      (fun _ hc => hc) ?_
    rintro ⟨error | _, t'⟩ after h
    · obtain ⟨rfl, hconduct⟩ := h.resolve_right id
      exact ⟨⟨rfl, hphase ▸ nofun⟩, .failed hconduct (hphase ▸ nofun)⟩
    · obtain ⟨hmirrors, hlive, -, hactive, -⟩ := h
      exact ⟨⟨rfl, fun _ => hmirrors⟩, nofun, rfl, fun hanchored => hlive (Or.inl hanchored),
        fun hanchored hwhole page hpage hk =>
          hmirrors.head?_searchOrder hpage (hactive hanchored hwhole page hpage hk)⟩

theorem ensures_run_guarded (hu : p.Usable) (hsplit : conduct ≠ .splitting)
    (hmode : anchored ∨ ∀ L, allowed L) {operation : Operation} {x : Partition → EngineM Answer}
    (hx : operation.program? = some x) (hsound : store.Sound p img)
    (hallowed : ∀ order L L', Begins p conduct anchored img order L →
      operation.purpose.Leads conduct p.chip.checksum order L L' → conduct ≠ .tearing →
        allowed L') :
    StoreM.Ensures p conduct (p.Secure conduct anchored allowed) (guarded x) store img
      fun result store' img' => store'.Sound p img' ∧
        Outcome p conduct anchored operation store img result store' img' := by
  have hprogram : operation.program? ≠ none := by
    rw [hx]
    nofun
  intro cells hshows hinv
  have hrecover := (ensures_recover hu hsplit hmode hsound hprogram cells hshows hinv).keep
    (hshows.image_eq ▸ hinv)
  rw [run_guarded, FlashM.always_bind]
  refine hrecover.mono (fun _ hc => hc) ?_
  rintro ⟨error | _, ready⟩ scanned ⟨hscanned, hsize, hsound', h⟩
  · exact ⟨hsound', h⟩
  · obtain ⟨hbefore, hready, hbegins⟩ := h
    refine (ensures_guarded_ready hu hx hsound' hready (fun L' => hallowed _ _ L' hbegins) scanned
      ⟨hsize ▸ hshows.end_le, rfl⟩ hscanned).mono (fun _ hc => hc) ?_
    rintro ⟨result, store'⟩ after ⟨hsound'', h⟩
    refine ⟨hsound'', ?_⟩
    rcases h with ⟨rfl, hconduct, hphase⟩ | ⟨hphase, heffect⟩
    · exact .failed hconduct hphase
    · exact .concluded hbefore hprogram hphase hbegins heffect

theorem ensures_run_init (hu : p.Usable) (hsplit : conduct ≠ .splitting)
    (hmode : anchored ∨ ∀ L, allowed L) (hpartition : store.partition = p) :
    StoreM.Ensures p conduct (p.Secure conduct anchored allowed) Operation.init.run store img
      fun result store' img' => store'.Sound p img' ∧
        Outcome p conduct anchored .init store img result store' img' := by
  intro cells hshows hinv
  rw [run_init, hpartition, FlashM.always_bind]
  refine (Engine.ensures_load hu hsplit hmode cells hshows hinv).mono (fun _ hc => hc) ?_
  rintro ⟨error | _, t'⟩ after h
  · obtain ⟨rfl, hconduct⟩ := h.resolve_right id
    exact ⟨⟨rfl, nofun⟩, .failed hconduct nofun⟩
  · obtain ⟨hmirrors, hlive, hformat, -⟩ := h
    rw [← hshows.image_eq] at *
    exact ⟨⟨rfl, fun _ => hmirrors⟩, .scanned rfl rfl hlive (fun hunmarked => (hformat hunmarked).1)
      fun hunmarked => (hformat hunmarked).2⟩

/-- **A call keeps a store sound**, and ends in one of the ways that are listed. -/
theorem ensures_run (hu : p.Usable) (hsplit : conduct ≠ .splitting)
    (hmode : anchored ∨ ∀ L, allowed L) {operation : Operation} (hkeeps : operation.KeepsGuard)
    (hsound : store.Sound p img)
    (hallowed : ∀ order L L', Begins p conduct anchored img order L →
      operation.purpose.Leads conduct p.chip.checksum order L L' → conduct ≠ .tearing →
        allowed L') :
    StoreM.Ensures p conduct (p.Secure conduct anchored allowed) operation.run store img
      fun result store' img' => store'.Sound p img' ∧
        Outcome p conduct anchored operation store img result store' img' := by
  cases hx : operation.program? with
  | some x =>
    rw [operation.run_eq_guarded hkeeps hx]
    exact ensures_run_guarded hu hsplit hmode hx hsound hallowed
  | none =>
    cases operation with
    | init => exact ensures_run_init hu hsplit hmode hsound.partition_eq
    | maxPayload =>
      intro cells hshows hinv
      have himage := hshows.image_eq
      subst himage
      refine ⟨hsound, ?_⟩
      show Outcome p conduct anchored .maxPayload store _ (.ok (.count store.partition.maxPayload))
        store _
      rw [hsound.partition_eq]
      exact .told rfl
    | _ => cases hx

/-! ## A flash that ends within the partition -/

/-- **A store on a flash that is too small never gets ready.** -/
theorem always_run_of_short (conduct : Conduct) (hu : p.Usable) (operation : Operation)
    (hkeeps : operation.KeepsGuard) (hpartition : store.partition = p) (hphase : store.phase ≠ .ready)
    {cells : Cells} (hshort : cells.size < p.base + p.size) :
    (operation.run.run.run store).Always conduct (fun _ => True) cells fun result _ =>
      result.2.partition = p ∧ result.2.phase ≠ .ready ∧
        (operation = .init → ∀ answer, result.1 ≠ .ok answer) := by
  have hload : EngineM.Fails conduct cells.size (Engine.load p) := Engine.fails_load hu hshort
  cases hx : operation.program? with
  | some x =>
    have hinit : operation ≠ .init := by
      rintro rfl
      cases hx
    rw [operation.run_eq_guarded hkeeps hx]
    cases hphase' : store.phase with
    | unready =>
      rw [run_guarded_unready hphase']
      exact ⟨hpartition, hphase, fun heq => absurd heq hinit⟩
    | ready => exact absurd hphase' hphase
    | faulted =>
      rw [run_guarded_faulted hphase', hpartition, FlashM.always_bind]
      refine (hload store.table cells rfl).mono (fun _ hc => hc) ?_
      rintro ⟨error | _, t'⟩ after hnot
      · exact ⟨rfl, hphase' ▸ nofun, fun heq => absurd heq hinit⟩
      · exact absurd rfl (hnot ())
  | none =>
    cases operation with
    | init =>
      rw [run_init, hpartition, FlashM.always_bind]
      refine (hload store.table cells rfl).mono (fun _ hc => hc) ?_
      rintro ⟨error | _, t'⟩ after hnot
      · exact ⟨rfl, nofun, fun _ => nofun⟩
      · exact absurd rfl (hnot ())
    | maxPayload => exact ⟨hpartition, hphase, nofun⟩
    | _ => cases hx

end Store

end RingStore
