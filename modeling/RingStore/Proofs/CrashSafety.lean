import Mathlib.Data.Set.Insert
import RingStore.Proofs.Session

/-!
# What a lookup may find after interrupted operations

An operation that is interrupted leaves the value of its key undecided between the one before and the one
it was about to store.  `Outcomes` are the values that are admissible for each key.  A write or removal
that succeeds settles them, one that is interrupted adds its own, and a lookup that succeeds leaves those
that agree with its result.

## Main statements

* `Outcomes.Admits.effect`: an operation keeps to the outcomes of its keys.
* `Session.lookups_admissible`: in any run, a lookup that succeeds has an admissible outcome.
-/

namespace RingStore

open RingStore.Partition (Holdings)

/-- The values that a lookup of each key may find. -/
abbrev Outcomes := UInt16 → Set (Option Bytes)

namespace Outcomes

/-- Every key is absent. -/
def absent : Outcomes := fun _ => {none}

/-- The outcomes after an operation with a result. -/
def after (P : Outcomes) (purpose : Purpose) (result : Except Error Answer) : Outcomes :=
  match purpose, result with
  | .lookup key _ view, .ok answer =>
    Function.update P key {v | v ∈ P key ∧ view v = .ok answer}
  | .store key payload, .ok _ => Function.update P key {some payload}
  | .store key payload, .error .ioFailure => Function.update P key (insert (some payload) (P key))
  | .remove key, .ok _ => Function.update P key {none}
  | .remove key, .error .ioFailure => Function.update P key (insert none (P key))
  | _, _ => P

/-- A lookup that succeeds shows an admissible value. -/
def Permits (P : Outcomes) (purpose : Purpose) (result : Except Error Answer) : Prop :=
  match purpose, result with
  | .lookup key _ view, .ok answer => ∃ v ∈ P key, view v = .ok answer
  | _, _ => True

/-- The outcomes before and after a request. -/
def Step (P : Outcomes) : Request → Reply → Outcomes → Prop
  | .call operation, .answered result, P' =>
    P.Permits operation.purpose result ∧ P' = P.after operation.purpose result
  | .reboot, .answered _, P' => P' = P
  | _, _, _ => False

/-- Whatever may be found among the live records is admissible. -/
def Admits (P : Outcomes) (L : Holdings) : Prop := ∀ key v, L.Stored key v → v ∈ P key

variable {P : Outcomes} {L L' : Holdings} {key : UInt16} {v : Option Bytes}

theorem admits_absent : absent.Admits fun _ => [] := by
  intro key v hv
  cases v with
  | none => rfl
  | some payload =>
    obtain ⟨page, entry, hcopy, -⟩ := hv
    cases hcopy.1

namespace Admits

/-- Only one key has other values than before. -/
theorem update (h : P.Admits L) (values : Set (Option Bytes)) (hothers : L.SameBut key L')
    (hvalues : ∀ v, L'.Stored key v → v ∈ values) :
    Admits (Function.update P key values) L' := by
  intro other v hv
  by_cases heq : other = key
  · subst heq
    rw [Function.update_self]
    exact hvalues v hv
  · rw [Function.update_of_ne heq]
    exact h other v ((hothers.stored_iff heq v).mp hv)

/-- A key was settled at a value. -/
theorem fixed (h : P.Admits L) (hupdate : L.Update key v L') :
    Admits (Function.update P key {v}) L' :=
  h.update {v} hupdate.others fun _ hw => hupdate.eq_of_stored hw

/-- A key was settled at a value it had before. -/
theorem settled (h : P.Admits L) (hstored : L.Stored key v) (hupdate : L.Update key v L') :
    P.Admits L' := by
  have hsame := h.update (P key) hupdate.others fun w hw => by
    rw [hupdate.eq_of_stored hw]
    exact h key v hstored
  rwa [Function.update_eq_self] at hsame

/-- On the way of an operation, the values are admissible that are so after its interruption. -/
theorem leads {purpose : Purpose} {checksum : Checksum} {order : List Nat} (h : P.Admits L)
    (hleads : purpose.Leads .refusing checksum order L L') :
    (P.after purpose (.error .ioFailure)).Admits L' := by
  cases purpose with
  | lookup key accepted view =>
    have hbetween := (Holdings.Sought.passes hleads).between nofun
    have hsame := h.update (P key) hbetween.others fun w hw =>
      h key w ((hbetween.stored w hw).resolve_right id)
    rwa [Function.update_eq_self] at hsame
  | store key payload =>
    have hbetween := (Holdings.Renewed.passes hleads).between nofun
    refine h.update _ hbetween.others fun w hw => ?_
    exact (hbetween.stored w hw).elim (fun hold => Or.inr (h key w hold)) Or.inl
  | remove key =>
    have hbetween := Holdings.Passes.between hleads nofun
    refine h.update _ hbetween.others fun w hw => ?_
    exact (hbetween.stored w hw).elim (fun hold => Or.inr (h key w hold)) Or.inl
  | upkeep => exact hleads ▸ h

/-- **An operation keeps to the outcomes of its keys.** -/
theorem effect {p : Partition} {order : List Nat} {purpose : Purpose}
    {result : Except Error Answer} (h : P.Admits L) (heffect : purpose.Effect p order L result L') :
    P.Permits purpose result ∧ (P.after purpose result).Admits L' := by
  rcases heffect with ⟨-, rfl, rfl⟩ | ⟨-, heffect⟩
  · cases purpose <;> exact ⟨trivial, h⟩
  · cases purpose with
    | lookup key accepted view =>
      obtain ⟨v, hstored, -, hupdate, rfl⟩ := heffect
      cases hview : view v with
      | ok answer =>
        refine ⟨⟨v, h key v hstored, hview⟩, h.update _ hupdate.others fun w hw => ?_⟩
        rw [hupdate.eq_of_stored hw]
        exact ⟨h key v hstored, hview⟩
      | error error => exact ⟨trivial, h.settled hstored hupdate⟩
    | store key payload =>
      rcases heffect with ⟨rfl, hupdate⟩ | ⟨rfl, v, hstored, hupdate⟩
      · exact ⟨trivial, h.fixed hupdate⟩
      · exact ⟨trivial, h.settled hstored hupdate⟩
    | remove key =>
      obtain ⟨rfl, hupdate⟩ := heffect
      exact ⟨trivial, h.fixed hupdate⟩
    | upkeep =>
      obtain ⟨⟨answer, rfl⟩, rfl⟩ := heffect
      exact ⟨trivial, h⟩

/-- A call keeps to the outcomes, whichever way it ends. -/
theorem outcome {p : Partition} {operation : Operation} {store store' : Store} {img img' : Image}
    {result : Except Error Answer} (h : P.Admits (p.live img))
    (hway : (P.after operation.purpose (.error .ioFailure)).Admits (p.live img'))
    (houtcome : Store.Outcome p .refusing True operation store img result store' img') :
    P.Permits operation.purpose result ∧ (P.after operation.purpose result).Admits (p.live img') := by
  cases houtcome with
  | failed => exact ⟨by cases operation.purpose <;> trivial, hway⟩
  | unscanned =>
    cases operation.purpose <;> exact ⟨trivial, h⟩
  | told hoperation =>
    subst hoperation
    exact ⟨trivial, h⟩
  | scanned hoperation _ hlive =>
    subst hoperation
    exact ⟨trivial, hlive (Or.inl trivial) ▸ h⟩
  | concluded _ _ _ hbegins heffect => exact h.effect (hbegins.live_eq trivial ▸ heffect)

end Admits

/-- The outcome of a lookup that shows the value whole is settled. -/
theorem after_lookup_self {accepted : Bool} {view : Option Bytes → Except Error Answer}
    {answer : Answer} (hv : v ∈ P key) (hview : view v = .ok answer)
    (hwhole : ∀ w, view w = .ok answer → w = v) :
    P.after (.lookup key accepted view) (.ok answer) key = {v} := by
  refine (Function.update_self _ _ _).trans (Set.ext fun w => ⟨fun hw => hwhole w hw.2, ?_⟩)
  rintro rfl
  exact ⟨hv, hview⟩

end Outcomes

namespace Session

variable {p : Partition} {session : Session} {flash : Flash} {P : Outcomes}

/-- A request keeps to the outcomes of all keys. -/
theorem always_handle_admits (hu : p.Usable) {request : Request} (hrequest : request.KeepsGuard)
    {cells : Cells} (h : session.Secure p .refusing P.Admits cells) :
    (session.handle request).Always .refusing (fun _ => True) cells fun answer after =>
      ∃ P', Outcomes.Step P request answer.1 P' ∧ answer.2.Secure p .refusing P'.Admits after := by
  obtain ⟨store, hkeeps, hsound, hfits, hsecure⟩ := h
  obtain ⟨target, operation, hcalls⟩ := hrequest.calls p store
  have hadmits : P.Admits (p.live (p.image cells)) := hsecure.allowed nofun
  -- After each access the outcomes are those after an interruption, which include all others.
  refine (always_handle_of_sound hu (by nofun) (Or.inl trivial) hkeeps hcalls hsound hfits
    ⟨hsecure.anchored, fun _ => hadmits.leads (operation.purpose.leads_refl _ p.chip.checksum [] _),
      hsecure.orderly⟩
    fun _ L L' hbegins hleads _ => hadmits.leads (hbegins.live_eq trivial ▸ hleads)).mono
      (fun _ _ => trivial) ?_
  rintro ⟨reply, session'⟩ after ⟨result, store', rfl, hkeeps', hsound', hfits', hsecure', houtcome⟩
  obtain ⟨hpermits, hadmits'⟩ := hadmits.outcome (hsecure'.allowed nofun) houtcome
  refine ⟨P.after operation.purpose result, ?_, store', hkeeps', hsound', hfits',
    hsecure'.anchored, fun _ => hadmits', hsecure'.orderly⟩
  cases hcalls with
  | reboot => rfl
  | call => exact ⟨hpermits, rfl⟩

/-- **A lookup that succeeds has an admissible outcome**, in any run on a partition that was formatted
in which accesses are refused but not torn. -/
theorem lookups_admissible (hu : p.Usable) (hformatted : Formatted p session flash)
    (hflash : flash.Follows .refusing) {requests : List Request}
    (hrequests : ∀ request ∈ requests, request.KeepsGuard) :
    ∃ P, Trace Outcomes.Step .absent requests
      ((session.serve requests).run Flash.device flash).1.1 P := by
  have hfirst : session.Secure p .refusing Outcomes.absent.Admits flash.cells :=
    hformatted.secure hu .refusing Outcomes.admits_absent
  have hserve := always_serve Outcomes.Step (fun P session => session.Secure p .refusing P.Admits)
    (fun _ _ _ _ hrequest h => always_handle_admits hu hrequest h) hrequests hfirst
  obtain ⟨⟨P, htrace, -⟩, -⟩ := Flash.run_of_always hflash hserve
  exact ⟨P, htrace⟩

/-- A write is interrupted, and its key is looked up. -/
theorem lookups_admissible_small :
    let start := formatting fun n => if n = 9 then .refused 0 0 else .granted
    let requests : List Request :=
      [.call (.writeItem 2 [7]), .call (.writeItem 2 [8]), .call (.readItem 2 [0, 0])]
    Partition.small.Usable ∧ Formatted .small start.1.2 start.2 ∧ start.2.Follows .refusing ∧
      ∃ P, Trace Outcomes.Step .absent requests
        ((start.1.2.serve requests).run Flash.device start.2).1.1 P := by
  have hformatted : Formatted .small (formatting fun n => if n = 9 then .refused 0 0 else .granted).1.2
      (formatting fun n => if n = 9 then .refused 0 0 else .granted).2 :=
    formatted_small (by rfl)
  have hrequests : ∀ request ∈ [Request.call (.writeItem 2 [7]), .call (.writeItem 2 [8]),
      .call (.readItem 2 [0, 0])], request.KeepsGuard := by
    simp [Request.KeepsGuard, Operation.KeepsGuard]
  have hflash := follows_formatting (Conduct.refusing_allows_at 9)
  exact ⟨Partition.usable_small, hformatted, hflash,
    lookups_admissible Partition.usable_small hformatted hflash hrequests⟩

end Session

end RingStore
