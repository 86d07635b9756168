import RingStore.Proofs.FaultFree
import RingStore.Proofs.Ledger

/-!
# Reboots go unnoticed

A reboot makes the page table anew.  If no page is active then, the head is found by the order of the
ring alone, and it need not be the page that it was: the store goes on with other pages than it would
have without the reboot, and the flash is another one from there on.  But a scan that finds the flash in
order finds the same values and the same stock of pages.  So the ledger stays, and since it decides all
replies, no reply shows that there was a reboot.

## Main statements

* `Session.always_handle_tallies`: the ledger decides the reply to a request, and a reboot keeps it.
* `Session.reboots_unnoticed`: runs that make the same calls get the same replies to them.
-/

namespace RingStore

namespace Request

/-- The call that is made, unless the request is another one. -/
def operation? : Request → Option Operation
  | call operation => some operation
  | _ => none

/-- The request is a reboot, or a call that asks for no report on the pages. -/
def Plain : Request → Prop
  | create _ => False
  | call .usage => False
  | _ => True

theorem Plain.stays {request : Request} (h : request.Plain) : request.Stays := by
  cases request with
  | create placement => exact h
  | _ => trivial

theorem Plain.onGuard {request : Request} (h : request.Plain) : request.onGuard.Plain := by
  cases request with
  | create placement => exact h
  | reboot => trivial
  | call operation => cases operation <;> exact h

theorem Plain.ne_usage {operation : Operation} (h : (call operation).Plain) :
    operation ≠ .usage := by
  rintro rfl
  exact h

end Request

namespace Ledger

/-- The reply to a request, and the ledger afterwards. -/
def Step (p : Partition) (s : Ledger) : Request → Reply → Ledger → Prop
  | .call operation, reply, s' =>
    reply = .answered (s.call p operation).1 ∧ s' = (s.call p operation).2
  | .reboot, reply, s' => reply = .answered (.ok .done) ∧ s' = s
  | .create _, _, _ => False

theorem call_onGuard (p : Partition) (s : Ledger) (operation : Operation) :
    s.call p operation.onGuard = s.call p operation := by
  cases operation <;> rfl

/-- To a ledger the routes are the same. -/
theorem Step.of_onGuard {p : Partition} {s s' : Ledger} {request : Request} {reply : Reply}
    (h : s.Step p request.onGuard reply s') : s.Step p request reply s' := by
  cases request with
  | call operation =>
    show reply = .answered (s.call p operation).1 ∧ s' = (s.call p operation).2
    rw [← call_onGuard]
    exact h
  | _ => exact h

/-- The replies to calls that are made one after the other. -/
def replies (p : Partition) (s : Ledger) : List Operation → List Reply
  | [] => []
  | operation :: rest => .answered (s.call p operation).1 :: (s.call p operation).2.replies p rest

end Ledger

namespace Session

variable {p : Partition} {session : Session} {store : Store} {s s' : Ledger} {cells : Cells}
  {flash : Flash} {requests requests' : List Request}

/-- Of the replies to some requests, those to calls. -/
def callReplies (requests : List Request) (replies : List Reply) : List Reply :=
  (requests.zip replies).filterMap fun exchange => exchange.1.operation?.map fun _ => exchange.2

/-- The calls alone decide the replies to them. -/
theorem callReplies_of_trace {replies : List Reply} (h : Trace (Ledger.Step p) s requests replies s') :
    callReplies requests replies = s.replies p (requests.filterMap Request.operation?) := by
  induction h with
  | nil s => rfl
  | @cons s s₁ s' request reply rest replies hstep _ ih =>
    cases request with
    | create placement => exact hstep.elim
    | reboot =>
      obtain ⟨-, rfl⟩ := hstep
      exact ih
    | call operation =>
      obtain ⟨rfl, rfl⟩ := hstep
      exact congrArg (_ :: ·) ih

/-- A session with a store that is ready, over a table and a flash that keep a ledger. -/
def Tallies (p : Partition) (s : Ledger) (session : Session) (cells : Cells) : Prop :=
  ∃ store, session.Keeps p store ∧ store.partition = p ∧ store.phase = .ready ∧
    p.base + p.size ≤ cells.size ∧ s.Kept p store.table (p.image cells)

theorem Tallies.holds (h : session.Tallies p s cells) : session.Holds p (some s.contents) cells := by
  obtain ⟨store, hsession, hpartition, hphase, hfits, hkept⟩ := h
  exact ⟨store, hsession, ⟨hpartition, fun _ => hkept.mirrors⟩, hfits, hphase, hkept.represented⟩

/-- After formatting, a ledger is kept. -/
theorem Formatted.tallies (hu : p.Usable) (h : Formatted p session flash) :
    ∃ s, session.Tallies p s flash.cells := by
  obtain ⟨store, hkeeps, hsound, hfits, hphase, hlive, honce⟩ := h.ready hu
  exact ⟨⟨.empty, store.table.stock (p.live (p.image flash.cells))⟩, store, hkeeps, hsound.partition_eq,
    hphase, hfits, hsound.mirrors hphase, honce, hlive ▸ Contents.represented_empty, rfl⟩

/-- **Another scan keeps the ledger**, and leaves the flash as it is. -/
theorem always_rescan (hu : p.Usable) {t : Table} (h : s.Kept p t (p.image cells))
    (hfits : p.base + p.size ≤ cells.size) {target : Store} (htarget : target.partition = p) :
    (Operation.init.run.run.run target).Always .reliable (fun _ => True) cells fun result after =>
      result.1 = .ok .done ∧ result.2.partition = p ∧ result.2.phase = .ready ∧ after = cells ∧
        s.Kept p result.2.table (p.image after) := by
  have hpeeks : EngineM.Peeks p (Engine.load p) target.table (p.image cells)
      (fun _ t' => t.Rescanned p t') fun _ _ => False :=
    Engine.peeks_load hu h.mirrors h.once.startsFirst (Or.inl h.once) target.table
  have hsame : (((Engine.load p).run.run target.table).Always .reliable (fun _ => True) cells _) :=
    (hpeeks cells ⟨hfits, rfl⟩).always trivial
  have hload : EngineM.Ensures p .reliable (p.Secure .reliable True fun _ => True) (Engine.load p)
      target.table (p.image cells) _ _ := Engine.ensures_load hu (by nofun) (Or.inl trivial)
  rw [Store.run_init, htarget, FlashM.always_bind]
  refine (hsame.and (hload cells ⟨hfits, rfl⟩ (h.mirrors.secure _ _))).mono (fun _ _ => trivial) ?_
  -- The one lemma says that the scan only looks, the other that its table mirrors what it sees.
  rintro ⟨error | _, t'⟩ after ⟨⟨hrescanned, rfl⟩, hresult⟩
  · exact hrescanned.elim
  · obtain ⟨hmirrors, -⟩ := hresult
    exact ⟨rfl, rfl, rfl, rfl, hmirrors, hrescanned.sameMarkers.markedOnce h.once, h.represented,
      hrescanned.stock_eq.trans h.stock_eq⟩

/-- A request for a scan. -/
theorem always_handle_rescan (hu : p.Usable) (hsession : session.Keeps p store)
    (hkept : s.Kept p store.table (p.image cells)) (hfits : p.base + p.size ≤ cells.size)
    {request : Request} {target : Store} (hcalls : request.Calls p store target .init)
    (htarget : target.partition = p) :
    (session.handle request).Always .reliable (fun _ => True) cells fun answer after =>
      answer.1 = .answered (.ok .done) ∧ answer.2.Tallies p s after := by
  refine (always_handle hsession hcalls (always_rescan hu hkept hfits htarget)).mono (fun _ hc => hc) ?_
  rintro answer after ⟨_, store', hreply, hsession', rfl, hpartition, hphase, rfl, hkept'⟩
  exact ⟨hreply, store', hsession', hpartition, hphase, hfits, hkept'⟩

/-- A call of a store that is ready, by its engine program. -/
theorem always_call_tallies (hu : p.Usable) (h : session.Tallies p s cells) {operation : Operation}
    (hkeeps : operation.KeepsGuard) {x : Partition → EngineM Answer} (hx : operation.program? = some x)
    (hplain : operation ≠ .usage) :
    (session.handle (.call operation)).Always .reliable (fun _ => True) cells fun answer after =>
      answer.1 = .answered (s.call p operation).1 ∧
        answer.2.Tallies p (s.call p operation).2 after := by
  obtain ⟨store, hsession, hpartition, hphase, hfits, hkept⟩ := h
  have hfollows : Engine.Follows p (x p) store.table (p.image cells) (s.call p operation) :=
    Engine.follows_program hu hkept hx hplain
  refine (always_call_of_ready hsession hpartition hfits hphase hkeeps hx
    (hkept.mirrors.secure _ _) hfollows).mono (fun _ hc => hc) ?_
  rintro answer after ⟨hfits', result, t', hreply, hsession', hresult⟩
  have hnext : (s.call p operation).1 = result ∧ (s.call p operation).2.Kept p t' (p.image after) ∧
      Store.phaseAfter result = .ready := by
    cases result with
    | ok answer => exact ⟨hresult.1, hresult.2, rfl⟩
    | error error => exact ⟨hresult.2.1, hresult.2.2, Store.phaseAfter_error hresult.1⟩
  obtain ⟨rfl, hkept', hphase'⟩ := hnext
  exact ⟨hreply, _, hsession', rfl, hphase', hfits', hkept'⟩

/-- **The ledger decides the reply to a request**, and a reboot keeps it. -/
theorem always_handle_tallies (hu : p.Usable) {request : Request} (hplain : request.Plain)
    (hkeeps : request.KeepsGuard) (h : session.Tallies p s cells) :
    (session.handle request).Always .reliable (fun _ => True) cells fun answer after =>
      ∃ s', s.Step p request answer.1 s' ∧ answer.2.Tallies p s' after := by
  obtain ⟨store, hsession, hpartition, hphase, hfits, hkept⟩ := id h
  cases request with
  | create placement => exact hplain.elim
  | reboot =>
    refine (always_handle_rescan hu hsession hkept hfits .reboot rfl).mono (fun _ hc => hc) ?_
    rintro answer after ⟨hreply, hafter⟩
    exact ⟨s, ⟨hreply, rfl⟩, hafter⟩
  | call operation =>
    have hkeeps : operation.KeepsGuard := hkeeps
    cases hx : operation.program? with
    | some x =>
      refine (always_call_tallies hu h hkeeps hx hplain.ne_usage).mono (fun _ hc => hc) ?_
      rintro answer after ⟨hreply, hafter⟩
      exact ⟨_, ⟨hreply, rfl⟩, hafter⟩
    | none =>
      cases operation with
      | init =>
        refine (always_handle_rescan hu hsession hkept hfits (.call hkeeps) hpartition).mono
          (fun _ hc => hc) ?_
        rintro answer after ⟨hreply, hafter⟩
        exact ⟨s, ⟨hreply, rfl⟩, hafter⟩
      | maxPayload =>
        refine (always_handle_maxPayload hsession hpartition).mono (fun _ hc => hc) ?_
        rintro answer after ⟨hreply, hsession', rfl⟩
        exact ⟨s, ⟨hreply, rfl⟩, store, hsession', hpartition, hphase, hfits, hkept⟩
      | _ => cases hx

/-- The replies to the calls of a run are those that the ledger gives to the calls. -/
theorem Tallies.serve (hu : p.Usable) (h : session.Tallies p s flash.cells)
    (hflash : flash.Follows .reliable) (hrequests : ∀ request ∈ requests, request.Plain) :
    callReplies requests ((session.serve requests).run Flash.device flash).1.1 =
      s.replies p (requests.filterMap Request.operation?) := by
  have hstep : ∀ request ∈ requests, ∀ (s : Ledger) (session : Session) (cells : Cells),
      session.Tallies p s cells →
        (session.handle request.onGuard).Always .reliable (fun _ => True) cells fun answer after =>
          ∃ s', s.Step p request answer.1 s' ∧ answer.2.Tallies p s' after := by
    intro request hrequest s session cells htallies
    have hplain := hrequests request hrequest
    refine (always_handle_tallies hu hplain.onGuard hplain.stays.keepsGuard_onGuard htallies).mono
      (fun _ hc => hc) ?_
    rintro answer after ⟨s', hreply, hafter⟩
    exact ⟨s', hreply.of_onGuard, hafter⟩
  obtain ⟨s', htrace, -⟩ :=
    serve_of_onGuard _ _ (fun _ _ _ htallies => htallies.holds.ready.unfailing hu) hstep h hflash
  exact callReplies_of_trace htrace

/-- **Runs that make the same calls get the same replies to them**, wherever the partition is scanned anew
in between. -/
theorem reboots_unnoticed (hu : p.Usable) (hformatted : session.Formatted p flash)
    (hflash : flash.Follows .reliable) (hrequests : ∀ request ∈ requests, request.Plain)
    (hrequests' : ∀ request ∈ requests', request.Plain)
    (hcalls : requests.filterMap Request.operation? = requests'.filterMap Request.operation?) :
    callReplies requests ((session.serve requests).run Flash.device flash).1.1 =
      callReplies requests' ((session.serve requests').run Flash.device flash).1.1 := by
  obtain ⟨s, htallies⟩ := hformatted.tallies hu
  rw [htallies.serve hu hflash hrequests, htallies.serve hu hflash hrequests', hcalls]

/-- Both pages are filled and emptied again.  After a reboot the other one of them is opened first, and
yet it is the same write that finds no space. -/
theorem reboots_unnoticed_small :
    let start := formatting fun _ => .granted
    let before : List Request := [.call (.writeItem 10 [1, 1, 1]), .call (.writeItem 11 [2, 2, 2]),
      .call (.deleteItem 11), .call (.deleteItem 10)]
    let after : List Request := [.call (.writeItem 12 [3, 3, 3]), .call (.put .direct 13 ⟨.bytes, [4, 4, 4]⟩),
      .call (.writeItem 14 [5])]
    let run := (start.1.2.serve (before ++ after)).run Flash.device start.2
    let rebooted := (start.1.2.serve (before ++ .reboot :: after)).run Flash.device start.2
    Partition.small.Usable ∧ Formatted .small start.1.2 start.2 ∧ start.2.Follows .reliable ∧
      (∀ request ∈ before ++ after, request.Plain) ∧
      (∀ request ∈ before ++ .reboot :: after, request.Plain) ∧
      (before ++ after).filterMap Request.operation? =
        (before ++ .reboot :: after).filterMap Request.operation? ∧
      run.2.cells ≠ rebooted.2.cells ∧
      run.1.1.map Reply.error? = [none, none, none, none, none, none, some .outOfSpace] ∧
      callReplies (before ++ after) run.1.1 = callReplies (before ++ .reboot :: after) rebooted.1.1 := by
  intro start before after run rebooted
  have hformatted : Formatted .small start.1.2 start.2 := formatted_small (by rfl)
  have hflash : start.2.Follows .reliable := follows_formatting fun _ => trivial
  have hrequests : ∀ request ∈ before ++ after, request.Plain := by
    simp [before, after, Request.Plain]
  have hrequests' : ∀ request ∈ before ++ .reboot :: after, request.Plain := by
    simp [before, after, Request.Plain]
  exact ⟨Partition.usable_small, hformatted, hflash, hrequests, hrequests', rfl, by decide +kernel,
    by decide +kernel,
    reboots_unnoticed Partition.usable_small hformatted hflash hrequests hrequests' rfl⟩

end Session

end RingStore
