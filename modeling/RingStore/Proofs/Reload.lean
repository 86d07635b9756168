import RingStore.Proofs.Session
import RingStore.Proofs.Steps

/-!
# Recovery and reboot

A call of a store that is marked as faulted scans the partition before it does its work.  The scan
finds in memory whatever the failed call has left: a table that is out of step with the flash, or one
that another scan has filled in part.  It forgets all of that.  It empties the table, it settles the
ring start and then the head, and it looks at neither of them before it has set it.  So the call does
what it would do after a reboot.

`FlashM.Matches` compares two programs access by access, and `EngineM.Tracks` is the statement that a
program does the same on two page tables which agree in part.

## Main statements

* `Engine.load_matches`: a scan does not depend on the table that it begins with.
* `Session.init_matches_reboot`: a call of `init` is a reboot.
* `Session.recovery_eq_reboot`: any other call of a faulted store is a reboot and then the call.
-/

namespace RingStore

/-! ## Programs with the same accesses -/

namespace FlashM

variable {α β γ δ σ : Type} {rel : α → β → Prop}

/-- The programs ask for the same accesses, whatever the answers are, and end with related results. -/
inductive Matches (rel : α → β → Prop) : FlashM α → FlashM β → Prop
  | done {a : α} {b : β} (h : rel a b) : Matches rel (.done a) (.done b)
  | request {access : Access} {next : access.Answer → FlashM α} {next' : access.Answer → FlashM β}
      (h : ∀ answer, Matches rel (next answer) (next' answer)) :
      Matches rel (.request access next) (.request access next')

theorem matches_self {rel : α → α → Prop} (x : FlashM α) (h : ∀ a, rel a a) : x.Matches rel x := by
  induction x with
  | done a => exact .done (h a)
  | request access next ih => exact .request ih

theorem Matches.bind {x : FlashM α} {y : FlashM β} {f : α → FlashM γ} {g : β → FlashM δ}
    {post : γ → δ → Prop} (h : x.Matches rel y) (hnext : ∀ a b, rel a b → (f a).Matches post (g b)) :
    (x >>= f).Matches post (y >>= g) := by
  induction h with
  | done hrel => exact hnext _ _ hrel
  | request _ ih => exact .request ih

/-- On a device, programs that match take the same steps and end in the same state. -/
theorem Matches.run {x : FlashM α} {y : FlashM β} (h : x.Matches rel y) (device : Device σ) (s : σ) :
    rel (x.run device s).1 (y.run device s).1 ∧ (x.run device s).2 = (y.run device s).2 ∧
      x.steps device s = y.steps device s := by
  induction h generalizing s with
  | done hrel => exact ⟨hrel, rfl, rfl⟩
  | request _ ih =>
    obtain ⟨hrel, hlast, hsteps⟩ := ih _ _
    exact ⟨hrel, hlast, congrArg (_ :: ·) hsteps⟩

end FlashM

/-! ## Programs on two tables -/

/-- The tables agree in their pages, and in the start of the ring if that is settled. -/
structure Table.Alike (settled : Prop) (t t' : Table) : Prop where
  pages_eq : t.pages = t'.pages
  ringStart_eq : settled → t.ringStart = t'.ringStart

namespace EngineM

open Engine

variable {α β : Type} {settled : Prop} {pre mid post : Table → Table → Prop}

/-- On related tables the program asks for the same accesses and ends in the same way.  The tables are
related again unless it fails. -/
def Tracks (x : EngineM α) (pre post : Table → Table → Prop) : Prop :=
  ∀ t t', pre t t' → (x.run.run t).Matches
    (fun r r' => r.1 = r'.1 ∧ ∀ a, r.1 = .ok a → post r.2 r'.2) (x.run.run t')

theorem tracks_pure (a : α) : Tracks (pure a) post post := fun _ _ h => .done ⟨rfl, fun _ _ => h⟩

theorem tracks_throw (error : Error) : Tracks (throw error : EngineM α) pre post :=
  fun _ _ _ => .done ⟨rfl, nofun⟩

theorem Tracks.bind {x : EngineM α} {f : α → EngineM β} (hx : Tracks x pre mid)
    (hf : ∀ a, Tracks (f a) mid post) : Tracks (x >>= f) pre post := by
  intro t t' h
  rw [run_bind, run_bind]
  refine (hx t t' h).bind ?_
  rintro ⟨error | a, t₁⟩ ⟨result, t₁'⟩ ⟨rfl, hmid⟩
  · exact .done ⟨rfl, nofun⟩
  · exact hf a t₁ t₁' (hmid a rfl)

theorem tracks_perform (x : AccessM α) : Tracks (perform x) post post := fun _ _ h =>
  (FlashM.matches_self x.run fun _ => rfl).bind fun _ _ heq => .done ⟨heq, fun _ _ => h⟩

theorem tracks_modify {g : Table → Table} (h : ∀ t t', pre t t' → post (g t) (g t')) :
    Tracks (modify g) pre post := fun t t' hpre => .done ⟨rfl, fun _ _ => h t t' hpre⟩

/-- What a program reads off the table has to be the same on both. -/
theorem tracks_get_bind {f : Table → EngineM α} (heq : ∀ t t', pre t t' → f t = f t')
    (hf : ∀ t, Tracks (f t) pre post) : Tracks (get >>= f) pre post := by
  intro t t' h
  show ((f t).run.run t).Matches _ ((f t').run.run t')
  rw [← heq t t' h]
  exact hf t t t' h

theorem tracks_forM {f : β → EngineM Unit} (hf : ∀ b, Tracks (f b) post post) (bs : List β) :
    Tracks (bs.forM f) post post := by
  induction bs with
  | nil => exact tracks_pure _
  | cons b rest ih => exact (hf b).bind fun _ => ih

theorem tracks_pageAt_bind {page : Nat} {f : Page → EngineM α}
    (hf : ∀ entry, Tracks (f entry) (Table.Alike settled) post) :
    Tracks (pageAt page >>= f) (Table.Alike settled) post := by
  rw [pageAt, bind_assoc]
  refine tracks_get_bind (fun t t' h => ?_) fun t => ?_
  · rw [h.pages_eq]
  · cases t.pages[page]? with
    | none => exact tracks_throw _
    | some entry => exact hf entry

theorem tracks_set (page : Nat) (entry : Page) :
    Tracks (modify (·.set page entry)) (Table.Alike settled) (Table.Alike settled) :=
  tracks_modify fun _ _ h => ⟨by simp only [Table.set, h.pages_eq], h.ringStart_eq⟩

end EngineM

/-! ## The scan -/

namespace Engine

open EngineM

variable {settled : Prop}

theorem tracks_setStatus (p : Partition) (page : Nat) (status : PageStatus) :
    Tracks (setStatus p page status) (Table.Alike settled) (Table.Alike settled) :=
  tracks_pageAt_bind fun _ => (tracks_perform _).bind fun _ => tracks_set _ _

theorem tracks_erasePage (p : Partition) (page : Nat) :
    Tracks (erasePage p page) (Table.Alike settled) (Table.Alike settled) :=
  tracks_pageAt_bind fun _ => (tracks_perform _).bind fun _ => tracks_set _ _

theorem tracks_close (p : Partition) (page : Nat) :
    Tracks (close p page) (Table.Alike settled) (Table.Alike settled) := by
  refine tracks_pageAt_bind fun entry => (tracks_setStatus p page _).bind fun _ => ?_
  split
  · exact tracks_setStatus p page _
  · exact tracks_pure _

theorem tracks_loadNext (p : Partition) (page : Nat) :
    Tracks (loadNext p page) (Table.Alike settled) (Table.Alike settled) :=
  (tracks_perform _).bind fun _ =>
    tracks_modify fun _ _ h => ⟨by simp only [Table.push, h.pages_eq], h.ringStart_eq⟩

theorem tracks_wipe (p : Partition) (page : Nat) :
    Tracks (wipe p page) (Table.Alike settled) (Table.Alike settled) := by
  refine tracks_pageAt_bind fun entry => ?_
  split
  · exact tracks_erasePage p page
  · exact tracks_pure _

theorem tracks_dropStaleMarker (p : Partition) (ringStart page : Nat) :
    Tracks (dropStaleMarker p ringStart page) (Table.Alike settled) (Table.Alike settled) := by
  refine tracks_pageAt_bind fun entry => ?_
  split
  · exact tracks_erasePage p page
  · exact tracks_pure _

theorem tracks_closeOther (p : Partition) (newest : Option Nat) (page : Nat) :
    Tracks (closeOther p newest page) (Table.Alike settled) (Table.Alike settled) := by
  refine tracks_pageAt_bind fun entry => ?_
  split
  · exact tracks_close p page
  · exact tracks_pure _

/-- Formatting settles where the ring starts. -/
theorem tracks_format (p : Partition) :
    Tracks (format p) (Table.Alike False) (Table.Alike True) := by
  have hwipe : Tracks (get >>= fun t => (List.range t.count).forM (wipe p)) (Table.Alike False)
      (Table.Alike False) :=
    tracks_get_bind (fun t t' h => by rw [Table.count, Table.count, h.pages_eq]) fun t =>
      tracks_forM (tracks_wipe p) _
  have hsettle : Tracks (modify ({ · with ringStart := 0, head := 0 })) (Table.Alike False)
      (Table.Alike True) := tracks_modify fun _ _ h => ⟨h.pages_eq, fun _ => rfl⟩
  exact hwipe.bind fun _ => (tracks_setStatus p 0 _).bind fun _ => hsettle

theorem tracks_settleRingStart (p : Partition) :
    Tracks (settleRingStart p) (Table.Alike False) (Table.Alike True) := by
  refine tracks_get_bind (fun t t' h => ?_) fun t => ?_
  · obtain ⟨pages, ringStart, head⟩ := t
    obtain ⟨pages', ringStart', head'⟩ := t'
    obtain rfl : pages = pages' := h.pages_eq
    rfl
  · dsimp only
    split
    · exact tracks_format p
    · exact (tracks_forM (tracks_dropStaleMarker p _) _).bind fun _ =>
        tracks_modify fun _ _ h => ⟨h.pages_eq, fun _ => rfl⟩

/-- The head follows from the pages and the start of the ring. -/
theorem tracks_settleHead (p : Partition) : Tracks (settleHead p) (Table.Alike True) Eq := by
  have hsame : ∀ t t' : Table, t.Alike True t' → ∃ head, t' = { t with head } := by
    rintro ⟨pages, ringStart, head⟩ ⟨pages', ringStart', head'⟩ h
    obtain rfl : pages = pages' := h.pages_eq
    obtain rfl : ringStart = ringStart' := h.ringStart_eq trivial
    exact ⟨head', rfl⟩
  refine tracks_get_bind (fun t t' h => ?_) fun t => ?_
  · obtain ⟨head, rfl⟩ := hsame t t' h
    rfl
  · refine (tracks_forM (tracks_closeOther p _) _).bind fun _ => tracks_modify fun t t' h => ?_
    obtain ⟨head, rfl⟩ := hsame t t' h
    rfl

/-- **A scan does not depend on the table that it begins with.**  If it succeeds, nothing is left of
that table. -/
theorem load_matches (p : Partition) (t t' : Table) :
    ((load p).run.run t).Matches (fun r r' => r.1 = r'.1 ∧ ∀ u, r.1 = .ok u → r.2 = r'.2)
      ((load p).run.run t') := by
  have hload : Tracks (load p) (fun _ _ => True) Eq := by
    have hclear : Tracks (modify fun t => { t with pages := #[] }) (fun _ _ => True)
        (Table.Alike False) := tracks_modify fun _ _ _ => ⟨rfl, False.elim⟩
    exact hclear.bind fun _ => (tracks_forM (tracks_loadNext p) _).bind fun _ =>
      (tracks_settleRingStart p).bind fun _ => tracks_settleHead p
  exact hload t t' trivial

end Engine

/-! ## Calls and reboots -/

namespace Session

variable {p : Partition} {session : Session} {store : Store} {operation : Operation}

/-- Drops the store, creates it again and scans the partition, and calls the store if that has
succeeded. -/
def rebootThen (session : Session) (operation : Operation) : FlashM (Reply × Session) := do
  let (reply, session) ← session.handle .reboot
  match reply with
  | .answered (.ok _) => session.handle (.call operation)
  | _ => return (reply, session)

/-- A reboot is a scan with an empty table. -/
theorem handle_reboot (hsession : session.newStore = .ok (.ofPartition p)) :
    session.handle .reboot = (Engine.load p).run.run .empty >>= fun result =>
      match result with
      | (.ok _, t) => pure (.answered (.ok .done), { session with store := some ⟨p, t, .ready⟩ })
      | (.error error, t) =>
        pure (.answered (.error error), { session with store := some ⟨p, t, .unready⟩ }) := by
  simp only [handle, hsession]
  rw [callStore, Store.run_init, bind_assoc]
  congr 1
  funext result
  obtain ⟨error | u, t⟩ := result
  · rfl
  · rfl

/-- A call of `init` is a reboot as well, whatever is known of the store. -/
theorem init_matches_reboot (hsession : session.Keeps p store) (hpartition : store.partition = p) :
    (session.handle (.call .init)).Matches
      (fun answer answer' => answer.1 = answer'.1 ∧
        ∀ result, answer.1 = .answered (.ok result) → answer.2 = answer'.2)
      (session.handle .reboot) := by
  obtain ⟨partition, table, phase⟩ := store
  cases hpartition
  rw [handle_reboot hsession.newStore_eq]
  simp only [handle, hsession.store_eq, callStore]
  rw [Store.run_init, bind_assoc]
  refine (Engine.load_matches _ table .empty).bind ?_
  rintro ⟨error | u, t⟩ ⟨result, t'⟩ ⟨rfl, htable⟩
  · refine .done ⟨rfl, fun result heq => ?_⟩
    cases heq
  · obtain rfl : t = t' := htable u rfl
    exact .done ⟨rfl, fun _ _ => rfl⟩

/-- A call of a faulted store is a scan with the table that is left, and then the call. -/
theorem handle_call_of_faulted (hsession : session.Keeps p store) (hpartition : store.partition = p)
    (hphase : store.phase = .faulted) (hkeeps : operation.KeepsGuard)
    {x : Partition → EngineM Answer} (hx : operation.program? = some x) :
    session.handle (.call operation) = (Engine.load p).run.run store.table >>= fun result =>
      match result with
      | (.ok _, t) => session.callStore ⟨p, t, .ready⟩ operation
      | (.error error, t) =>
        pure (.answered (.error error), { session with store := some ⟨p, t, .faulted⟩ }) := by
  obtain ⟨partition, table, phase⟩ := store
  cases hpartition
  cases hphase
  simp only [handle, hsession.store_eq, callStore, operation.run_eq_guarded hkeeps hx]
  rw [Store.run_guarded_faulted rfl, bind_assoc]
  congr 1
  funext result
  obtain ⟨error | u, t⟩ := result
  · rfl
  · rfl

/-- So is a reboot and then the call, but for the table that the scan begins with. -/
theorem rebootThen_eq (hsession : session.newStore = .ok (.ofPartition p)) :
    session.rebootThen operation = (Engine.load p).run.run .empty >>= fun result =>
      match result with
      | (.ok _, t) => session.callStore ⟨p, t, .ready⟩ operation
      | (.error error, t) =>
        pure (.answered (.error error), { session with store := some ⟨p, t, .unready⟩ }) := by
  rw [rebootThen, handle_reboot hsession, bind_assoc]
  congr 1
  funext result
  obtain ⟨error | u, t⟩ := result
  · rfl
  · rfl

/-- **Recovery is a reboot.**  A call of a store that is marked as faulted asks the device for the
same accesses, leaves it in the same state and gets the same reply as a reboot and then, if that
succeeds, the call.  Nothing is known of the page table, and the device may be any.  If the scan
succeeds, the store is the same afterwards, with its table; if not, it stays marked as faulted.

The operation is any that needs the partition to be scanned: all but the scan itself and the question
for the longest payload, which takes no access. -/
theorem recovery_eq_reboot (hsession : session.Keeps p store) (hpartition : store.partition = p)
    (hphase : store.phase = .faulted) (hkeeps : operation.KeepsGuard)
    (hprogram : operation.program? ≠ none) {σ : Type} (device : Device σ) (s : σ) :
    let recovered := session.handle (.call operation)
    let rebooted := session.rebootThen operation
    let scanned := ((session.handle .reboot).run device s).1.1
    (recovered.run device s).1.1 = (rebooted.run device s).1.1 ∧
      (recovered.run device s).2 = (rebooted.run device s).2 ∧
      recovered.steps device s = rebooted.steps device s ∧
      (scanned = .answered (.ok .done) ∧ (recovered.run device s).1.2 = (rebooted.run device s).1.2 ∨
        ∃ error store', scanned = .answered (.error error) ∧
          (recovered.run device s).1.1 = .answered (.error error) ∧
          (recovered.run device s).1.2.Keeps p store' ∧ store'.phase = .faulted) := by
  obtain ⟨x, hx⟩ := Option.ne_none_iff_exists'.mp hprogram
  intro recovered rebooted scanned
  obtain ⟨⟨hresult, htable⟩, hlast, hsteps⟩ :=
    (Engine.load_matches p store.table .empty).run device s
  simp only [recovered, rebooted, scanned, handle_reboot hsession.newStore_eq,
    rebootThen_eq hsession.newStore_eq, handle_call_of_faulted hsession hpartition hphase hkeeps hx,
    FlashM.run_bind, FlashM.steps_bind, hlast, hsteps]
  generalize ((Engine.load p).run.run store.table).run device s = left at hresult htable
  generalize ((Engine.load p).run.run .empty).run device s = right at hresult htable
  obtain ⟨⟨error | u, t⟩, s₁⟩ := left
  · obtain ⟨⟨result, t'⟩, s₁'⟩ := right
    obtain rfl : .error error = result := hresult
    exact ⟨rfl, rfl, rfl, Or.inr ⟨error, _, rfl, rfl, ⟨hsession.newStore_eq, rfl⟩, rfl⟩⟩
  · obtain ⟨⟨result, t'⟩, s₁'⟩ := right
    obtain rfl : .ok u = result := hresult
    obtain rfl : t = t' := htable u rfl
    exact ⟨rfl, rfl, rfl, Or.inl ⟨rfl, rfl⟩⟩

/-- A record was torn, and its length byte is missing.  The table that is left has one page of two, and
a head beyond them.  Another write is recovered, and the chip refuses one of its accesses. -/
theorem recovery_eq_reboot_small :
    let store : Store := ⟨.small, ⟨#[⟨⟨.full, false⟩, 3, 1⟩], 5, 9⟩, .faulted⟩
    let session := { small with store := some store }
    let operation : Operation := .writeItem 5 [9]
    let flash : Flash := ⟨#[0x7E, 0xFF, 7, 5, 0, 0xFF, 0xFF, 0xFF, 0xFF, 0xFF, 0xFF, 0xFF, 0xFF, 0xFF,
      0xFF, 0xFF], fun n => if n = 5 then .refused 0 2 else .granted⟩
    let recovered := session.handle (.call operation)
    let rebooted := session.rebootThen operation
    let scanned := ((session.handle .reboot).run Flash.device flash).1.1
    session.Keeps .small store ∧ store.partition = .small ∧ store.phase = .faulted ∧
      operation.KeepsGuard ∧ operation.program? ≠ none ∧
      (recovered.run Flash.device flash).1.1.error? = some .ioFailure ∧
      (recovered.run Flash.device flash).1.1 = (rebooted.run Flash.device flash).1.1 ∧
      (recovered.run Flash.device flash).2 = (rebooted.run Flash.device flash).2 ∧
      recovered.steps Flash.device flash = rebooted.steps Flash.device flash ∧
      (scanned = .answered (.ok .done) ∧
          (recovered.run Flash.device flash).1.2 = (rebooted.run Flash.device flash).1.2 ∨
        ∃ error store', scanned = .answered (.error error) ∧
          (recovered.run Flash.device flash).1.1 = .answered (.error error) ∧
          (recovered.run Flash.device flash).1.2.Keeps .small store' ∧ store'.phase = .faulted) := by
  intro store session operation flash
  have hsession : session.Keeps .small store := ⟨keeps_small.newStore_eq, rfl⟩
  have hkeeps : operation.KeepsGuard := trivial
  have hprogram : operation.program? ≠ none := nofun
  exact ⟨hsession, rfl, rfl, hkeeps, hprogram, by decide +kernel,
    recovery_eq_reboot hsession rfl rfl hkeeps hprogram Flash.device flash⟩

end Session

end RingStore
