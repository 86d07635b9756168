import RingStore.Proofs.BootScan
import RingStore.Proofs.CrashSafety
import RingStore.Proofs.MapRefinement

/-!
# What is read after an interrupted operation

An operation on a store that holds a map is interrupted, and its last write may have taken effect on a
part of its bytes only.  The partition is scanned again, and no more accesses are refused.  Under each
key the store then has one of the values that the live records admit: a lookup shows one of them and
settles which one it is, a write or removal replaces them all.

## Main statements

* `Outcomes.Admits.meets`: an operation does to the live records what it does to the values they admit.
* `Session.trace_of_admits`, `Session.trace_of_represented`: a run goes on after a reboot with what the live
  records admit, or with the map that they represent.
* `Session.recovers`: a run goes on after an interrupted operation with what the live records admit.
-/

namespace RingStore

open RingStore.Partition (Holdings)

/-- One access is refused; if it is a write, its first bytes are programmed. -/
def Fate.tornAt (access count : Nat) : Nat → Fate := fun n =>
  if n = access then .split 0 count else .granted

theorem Fate.allows_tornAt (access count n : Nat) : Conduct.splitting.Allows (tornAt access count n) := by
  rw [tornAt]
  split
  · exact ⟨nofun, fun hwhole => absurd (Or.inl rfl) hwhole⟩
  · trivial

namespace Outcomes

/-- The result of an operation on a store that has one of several values under each key, and the values
it may have afterwards.  Arguments that are not in order are refused, and nothing is done. -/
def Meets (p : Partition) (P : Outcomes) (purpose : Purpose) (result : Except Error Answer)
    (P' : Outcomes) : Prop :=
  (¬purpose.Accepted p ∧ result = .error .invalidArgument ∧ P' = P) ∨
  purpose.Accepted p ∧
    match purpose with
    | .lookup key _ view => ∃ v ∈ P key, result = view v ∧ P' = Function.update P key {v}
    | .store key payload =>
      result = .ok .done ∧ P' = Function.update P key {some payload} ∨
        result = .error .outOfSpace ∧ ∃ v ∈ P key, P' = Function.update P key {v}
    | .remove key => (∃ count, result = .ok (.count count)) ∧ P' = Function.update P key {none}
    | .upkeep => (∃ answer, result = .ok answer) ∧ P' = P

/-- The result of a call. -/
def Called (p : Partition) (operation : Operation) (P : Outcomes) (result : Except Error Answer)
    (P' : Outcomes) : Prop :=
  match operation with
  | .init => result = .ok .done ∧ P' = P
  | .maxPayload => result = .ok (.count p.maxPayload) ∧ P' = P
  | operation => P.Meets p operation.purpose result P'

/-- The reply to a request.  A reboot scans the partition again. -/
def Served (p : Partition) (P : Outcomes) : Request → Reply → Outcomes → Prop
  | .call operation, .answered result, P' => Called p operation P result P'
  | .reboot, .answered result, P' => Called p .init P result P'
  | _, _, _ => False

variable {p : Partition} {P : Outcomes} {L L' : Holdings} {operation : Operation}
  {store store' : Store} {img img' : Image} {result : Except Error Answer}

/-- **An operation does to the live records what it does to the values they admit.** -/
theorem Admits.meets (h : P.Admits L) {order : List Nat} {purpose : Purpose}
    (heffect : purpose.Effect p order L result L') :
    ∃ P', P.Meets p purpose result P' ∧ P'.Admits L' := by
  rcases heffect with ⟨hnot, rfl, rfl⟩ | ⟨haccepted, heffect⟩
  · exact ⟨P, Or.inl ⟨hnot, rfl, rfl⟩, h⟩
  · cases purpose with
    | lookup key accepted view =>
      obtain ⟨v, hstored, -, hupdate, rfl⟩ := heffect
      exact ⟨_, Or.inr ⟨haccepted, v, h key v hstored, rfl, rfl⟩, h.fixed hupdate⟩
    | store key payload =>
      rcases heffect with ⟨rfl, hupdate⟩ | ⟨rfl, v, hstored, hupdate⟩
      · exact ⟨_, Or.inr ⟨haccepted, Or.inl ⟨rfl, rfl⟩⟩, h.fixed hupdate⟩
      · exact ⟨_, Or.inr ⟨haccepted, Or.inr ⟨rfl, v, h key v hstored, rfl⟩⟩, h.fixed hupdate⟩
    | remove key =>
      obtain ⟨rfl, hupdate⟩ := heffect
      exact ⟨_, Or.inr ⟨haccepted, ⟨_, rfl⟩, rfl⟩, h.fixed hupdate⟩
    | upkeep =>
      obtain ⟨hok, rfl⟩ := heffect
      exact ⟨P, Or.inr ⟨haccepted, hok, rfl⟩, h⟩

/-- A call of a store that is ready. -/
theorem Admits.called (h : P.Admits (p.live img)) (hphase : store.phase = .ready ∨ operation = .init)
    (houtcome : Store.Outcome p .reliable True operation store img result store' img') :
    ∃ P', Called p operation P result P' ∧ store'.phase = .ready ∧ P'.Admits (p.live img') := by
  cases houtcome with
  | failed hconduct => exact absurd rfl hconduct
  | unscanned hunready hprogram =>
    rcases hphase with hready | rfl
    · rw [hready] at hunready
      cases hunready
    · exact absurd rfl hprogram
  | told hoperation =>
    subst hoperation
    exact ⟨P, ⟨rfl, rfl⟩, hphase.resolve_right nofun, h⟩
  | scanned hoperation hphase' hlive =>
    subst hoperation
    exact ⟨P, ⟨rfl, rfl⟩, hphase', hlive (Or.inl trivial) ▸ h⟩
  | concluded _ hprogram hphase' hbegins heffect =>
    obtain ⟨P', hmeets, hadmits⟩ := h.meets (hbegins.live_eq trivial ▸ heffect)
    refine ⟨P', ?_, hphase', hadmits⟩
    cases operation <;> first | exact hmeets | exact absurd rfl hprogram

end Outcomes

/-- After requests to a store that holds a map, it holds a map. -/
theorem Contents.exists_of_trace {p : Partition} {m : Contents} {requests : List Request}
    {replies : List Reply} {s : Option Contents}
    (h : Session.Trace (Step p) (some m) requests replies s) : ∃ m', s = some m' := by
  generalize hstart : some m = first at h
  induction h generalizing m with
  | nil => exact ⟨m, hstart.symm⟩
  | @cons s s₁ s' request reply rest replies hstep hrest ih =>
    subst hstart
    have hcalled : ∀ operation result, Called p operation (some m) result s₁ → ∃ m₁, s₁ = some m₁ := by
      intro operation result hcalled
      cases operation <;> first | exact ⟨_, hcalled.2⟩ | exact hcalled.imp fun _ h => h.2
    obtain ⟨m₁, rfl⟩ : ∃ m₁, s₁ = some m₁ := by
      cases request with
      | create placement => cases hstep
      | reboot =>
        cases reply with
        | answered result => exact hcalled .init result hstep
        | _ => cases hstep
      | call operation =>
        cases reply with
        | answered result => exact hcalled operation result hstep
        | _ => cases hstep
    exact ih rfl

namespace Session

variable {p : Partition} {session : Session} {store : Store} {cells : Cells} {flash : Flash}
  {P : Outcomes} {operation : Operation}

/-- A session with a ready store, in which some values are admissible under each key. -/
def Admits (p : Partition) (P : Outcomes) (session : Session) (cells : Cells) : Prop :=
  ∃ store, session.Keeps p store ∧ store.Sound p (p.image cells) ∧ p.base + p.size ≤ cells.size ∧
    store.phase = .ready ∧ P.Admits (p.live (p.image cells))

theorem always_handle_served (hu : p.Usable) {request : Request} (hrequest : request.KeepsGuard)
    (h : session.Admits p P cells) :
    (session.handle request).Always .reliable (fun _ => True) cells fun answer after =>
      ∃ P', Outcomes.Served p P request answer.1 P' ∧ answer.2.Admits p P' after := by
  obtain ⟨store, hkeeps, hsound, hfits, hphase, hadmits⟩ := h
  refine (always_handle_of_ready hu hkeeps hrequest hsound hfits hphase).mono (fun _ _ => trivial) ?_
  rintro ⟨reply, session'⟩ after ⟨target, operation, result, store', hcalls, htarget, rfl, hkeeps',
    hsound', hfits', houtcome⟩
  obtain ⟨P', hcalled, hphase', hadmits'⟩ := hadmits.called htarget houtcome
  refine ⟨P', ?_, store', hkeeps', hsound', hfits', hphase', hadmits'⟩
  cases hcalls with
  | reboot => exact hcalled
  | call => exact hcalled

/-- **A reboot scans an anchored flash without loss**, whatever the state of the store. -/
theorem always_handle_rescanned (hu : p.Usable) (hkeeps : session.Keeps p store)
    (hsound : store.Sound p (p.image cells)) (hfits : p.base + p.size ≤ cells.size)
    (hanchored : (p.image cells).Anchored p.pageCount) :
    (session.handle .reboot).Always .reliable (fun _ => True) cells fun answer after =>
      answer.1 = .answered (.ok .done) ∧ p.live (p.image after) = p.live (p.image cells) ∧
        ∃ store', answer.2.Keeps p store' ∧ store'.Sound p (p.image after) ∧
          p.base + p.size ≤ after.size ∧ store'.phase = .ready := by
  refine (always_handle_of_sound hu (by nofun) (Or.inr fun _ => trivial) hkeeps .reboot hsound hfits
    (p.secure_of_unasked _ _) fun _ _ _ _ _ _ => trivial).mono (fun _ _ => trivial) ?_
  rintro ⟨reply, session'⟩ after ⟨result, store', rfl, hkeeps', hsound', hfits', -, houtcome⟩
  obtain ⟨rfl, hphase, hlive⟩ := houtcome.scan hanchored.marked_or_live_eq_nil
  exact ⟨rfl, hlive, store', hkeeps', hsound', hfits', hphase⟩

/-- After a reboot the values are admissible that the live records admitted. -/
theorem always_handle_rebooted (hu : p.Usable) (hkeeps : session.Keeps p store)
    (hsound : store.Sound p (p.image cells)) (hfits : p.base + p.size ≤ cells.size)
    (hanchored : (p.image cells).Anchored p.pageCount)
    (hadmits : P.Admits (p.live (p.image cells))) :
    (session.handle .reboot).Always .reliable (fun _ => True) cells fun answer after =>
      ∃ P', Outcomes.Served p P .reboot answer.1 P' ∧ answer.2.Admits p P' after := by
  refine (always_handle_rescanned hu hkeeps hsound hfits hanchored).mono (fun _ _ => trivial) ?_
  rintro ⟨reply, session'⟩ after ⟨rfl, hlive, store', hkeeps', hsound', hfits', hphase⟩
  exact ⟨P, ⟨rfl, rfl⟩, store', hkeeps', hsound', hfits', hphase, hlive.symm ▸ hadmits⟩

/-- **After a reboot a run goes on with the values that the live records admit.** -/
theorem trace_of_admits (hu : p.Usable) (hkeeps : session.Keeps p store)
    (hsound : store.Sound p (p.image cells)) (hfits : p.base + p.size ≤ cells.size)
    (hanchored : (p.image cells).Anchored p.pageCount) (hadmits : P.Admits (p.live (p.image cells)))
    {after : List Request} (hafter : ∀ request ∈ after, request.KeepsGuard) :
    ∃ P', Trace (Outcomes.Served p) P (.reboot :: after)
      ((session.serve (.reboot :: after)).run Flash.device (.steady cells)).1.1 P' := by
  have hsteady : (Flash.steady cells).Follows .reliable := fun _ => trivial
  have hrebooted := always_serve_cons
    (always_handle_rebooted hu hkeeps hsound hfits hanchored hadmits) fun _ _ _ hready =>
      always_serve (Outcomes.Served p) (Admits p)
        (fun _ _ _ _ hrequest h => always_handle_served hu hrequest h) hafter hready
  obtain ⟨⟨P', htrace, -⟩, -⟩ := Flash.run_of_always hsteady hrebooted
  exact ⟨P', htrace⟩

/-- **After a reboot a run goes on with the map** that the live records represent. -/
theorem trace_of_represented (hu : p.Usable) (hkeeps : session.Keeps p store)
    (hsound : store.Sound p (p.image cells)) (hfits : p.base + p.size ≤ cells.size)
    (hanchored : (p.image cells).Anchored p.pageCount) {m : Contents}
    (hm : m.Represented (p.live (p.image cells))) {after : List Request}
    (hafter : ∀ request ∈ after, request.KeepsGuard) :
    ∃ s, Trace (Contents.Step p) (some m) (.reboot :: after)
      ((session.serve (.reboot :: after)).run Flash.device (.steady cells)).1.1 s := by
  have hsteady : (Flash.steady cells).Follows .reliable := fun _ => trivial
  have hfirst : (session.handle .reboot).Always .reliable (fun _ => True) cells fun answer after =>
      ∃ s, Contents.Step p (some m) .reboot answer.1 s ∧ answer.2.Holds p s after := by
    refine (always_handle_rescanned hu hkeeps hsound hfits hanchored).mono (fun _ _ => trivial) ?_
    rintro ⟨reply, session'⟩ after ⟨rfl, hlive, store', hkeeps', hsound', hfits', hphase⟩
    exact ⟨some m, ⟨rfl, rfl⟩, store', hkeeps', hsound', hfits', hphase, hlive.symm ▸ hm⟩
  have hrebooted := always_serve_cons hfirst fun _ _ _ hholds =>
    always_serve (Contents.Step p) (Holds p)
      (fun _ _ _ _ hrequest h => always_handle_holds hu hrequest h) hafter hholds
  obtain ⟨⟨s, htrace, -⟩, -⟩ := Flash.run_of_always hsteady hrebooted
  exact ⟨s, htrace⟩

/-- An operation on a ready store whose accesses may be refused, with writes that take effect in part. -/
theorem always_handle_split (hu : p.Usable) (hkeeps : session.Keeps p store)
    (hsound : store.Sound p (p.image cells)) (hfits : p.base + p.size ≤ cells.size)
    (hphase : store.phase = .ready) (hguard : operation.KeepsGuard)
    (hprogram : operation.program? ≠ none) :
    (session.handle (.call operation)).Always .splitting (fun _ => True) cells fun answer after =>
      ∃ store', answer.2.Keeps p store' ∧ store'.Sound p (p.image after) ∧
        p.base + p.size ≤ after.size ∧ (p.image after).Anchored p.pageCount ∧
        ∃ order, operation.purpose.Leads .splitting p.chip.checksum order (p.live (p.image cells))
          (p.live (p.image after)) := by
  obtain ⟨x, hx⟩ := Option.ne_none_iff_exists'.mp hprogram
  have hsplits : ¬¬Conduct.splitting.SplitsWrites := fun hwhole => hwhole (Or.inl rfl)
  have hsecure : p.Secure .splitting True (fun L => ∃ order, operation.purpose.Leads .splitting
      p.chip.checksum order (p.live (p.image cells)) L) (p.image cells) :=
    ⟨fun _ => (hsound.mirrors hphase).anchored, fun _ => ⟨[], operation.purpose.leads_refl _ _ _ _⟩,
      fun _ hwhole => absurd hwhole hsplits⟩
  have hrun := Store.ensures_guarded_ready hu hx hsound hphase (fun L' hleads _ => ⟨_, hleads⟩) cells
    ⟨hfits, rfl⟩ hsecure
  rw [← operation.run_eq_guarded hguard hx] at hrun
  refine (always_handle hkeeps (.call hguard) (hrun.keep hsecure)).mono (fun _ _ => trivial) ?_
  rintro answer after ⟨result, store', -, hkeeps', hsecure', hsize, hsound', -⟩
  exact ⟨store', hkeeps', hsound', hsize ▸ hfits, hsecure'.anchored trivial, hsecure'.allowed nofun⟩

/-- **After an interrupted operation** a store goes on with what its live records admit.  Before it the
store holds a map, and the operation leads from the records of that map to those that are live now. -/
theorem recovers (hu : p.Usable) (hformatted : Formatted p session flash)
    (hflash : flash.Follows .reliable) {before after : List Request}
    (hbefore : ∀ request ∈ before, request.KeepsGuard)
    (hafter : ∀ request ∈ after, request.KeepsGuard) (hguard : operation.KeepsGuard)
    (hprogram : operation.program? ≠ none) {fates : Nat → Fate}
    (hfates : ∀ n, Conduct.splitting.Allows (fates n)) :
    let start := (session.serve before).run Flash.device flash
    let torn := (start.1.2.handle (.call operation)).run Flash.device ⟨start.2.cells, fates⟩
    ∃ m : Contents, Trace (Contents.Step p) (some .empty) before start.1.1 (some m) ∧
      m.Represented (p.live (p.image start.2.cells)) ∧
      (∃ order, operation.purpose.Leads .splitting p.chip.checksum order
        (p.live (p.image start.2.cells)) (p.live (p.image torn.2.cells))) ∧
      ∀ P : Outcomes, P.Admits (p.live (p.image torn.2.cells)) →
        ∃ P', Trace (Outcomes.Served p) P (.reboot :: after)
          ((torn.1.2.serve (.reboot :: after)).run Flash.device (.steady torn.2.cells)).1.1 P' := by
  intro start torn
  have hserve := always_serve (Contents.Step p) (Holds p)
    (fun _ _ _ _ hrequest h => always_handle_holds hu hrequest h) hbefore (hformatted.holds hu)
  obtain ⟨⟨s, htrace, hholds⟩, -⟩ := Flash.run_of_always hflash hserve
  obtain ⟨m, rfl⟩ := Contents.exists_of_trace htrace
  obtain ⟨store, hkeeps, hsound, hfits, hphase, hrepresented⟩ := hholds
  have hsplits : Flash.Follows ⟨start.2.cells, fates⟩ .splitting := hfates
  have hsplit := always_handle_split hu hkeeps hsound hfits hphase hguard hprogram
  obtain ⟨⟨store', hkeeps', hsound', hfits', hanchored, hleads⟩, -⟩ :=
    Flash.run_of_always hsplits hsplit
  refine ⟨m, htrace, hrepresented, hleads, fun P hadmits => ?_⟩
  exact trace_of_admits hu hkeeps' hsound' hfits' hanchored hadmits hafter

end Session

end RingStore
