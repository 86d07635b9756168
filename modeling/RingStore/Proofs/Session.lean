import RingStore.Proofs.Store

/-!
# Runs of a session

A run is a list of requests that are handled one after the other: calls of the store, and reboots, which
drop the store and create it anew.  `Session.Trace` relates the requests and replies of a run by the
steps of another machine, which has states of its own.

## Main statements

* `Session.always_serve`: a run keeps what each request keeps, and its replies are those of another
  machine if each reply is.
* `Session.Formatted.ready`: after the scan that formats a partition, no record is live.
-/

namespace RingStore

open RingStore.Partition (Holdings)

/-- A request carries out an operation on a store of the partition, without going around its guard. -/
inductive Request.Calls (p : Partition) (store : Store) : Request → Store → Operation → Prop
  | reboot : Calls p store .reboot (.ofPartition p) .init
  | call {operation : Operation} (hkeeps : operation.KeepsGuard) :
      Calls p store (.call operation) store operation

/-- The request is a reboot, or a call that does not go around the guard. -/
def Request.KeepsGuard : Request → Prop
  | .create _ => False
  | .reboot => True
  | .call operation => operation.KeepsGuard

variable {p : Partition} {store target : Store} {operation : Operation} {request : Request}
  {conduct : Conduct} {inv : Cells → Prop} {cells : Cells}

theorem Request.KeepsGuard.calls (h : request.KeepsGuard) (p : Partition) (store : Store) :
    ∃ target operation, request.Calls p store target operation := by
  cases request with
  | create placement => exact h.elim
  | reboot => exact ⟨_, _, .reboot⟩
  | call operation => exact ⟨_, _, .call h⟩

theorem Request.Calls.keepsGuard (h : request.Calls p store target operation) :
    operation.KeepsGuard := by
  cases h with
  | reboot => trivial
  | call hkeeps => exact hkeeps

namespace Session

variable {session : Session}

/-- A session with a store of a partition, in which a reboot creates another one of the same. -/
structure Keeps (p : Partition) (store : Store) (session : Session) : Prop where
  newStore_eq : session.newStore = .ok (.ofPartition p)
  store_eq : session.store = some store

theorem handle_eq_callStore (hsession : session.Keeps p store)
    (h : request.Calls p store target operation) :
    session.handle request = session.callStore target operation := by
  cases h with
  | reboot => simp only [handle, hsession.newStore_eq]
  | call => simp only [handle, hsession.store_eq]

/-- What a call ensures is ensured by the request for it. -/
theorem always_handle {post : Except Error Answer × Store → Cells → Prop}
    (hsession : session.Keeps p store) (hcalls : request.Calls p store target operation)
    (h : (operation.run.run.run target).Always conduct inv cells post) :
    (session.handle request).Always conduct inv cells fun answer after =>
      ∃ result store', answer.1 = .answered result ∧ answer.2.Keeps p store' ∧
        post (result, store') after := by
  rw [handle_eq_callStore hsession hcalls, callStore, FlashM.always_bind]
  refine h.mono (fun _ hc => hc) ?_
  rintro ⟨result, store'⟩ after hpost
  exact ⟨result, store', rfl, ⟨hsession.newStore_eq, rfl⟩, hpost⟩

/-- The call that asks for the longest payload makes no access. -/
theorem always_handle_maxPayload (hsession : session.Keeps p store) (hpartition : store.partition = p) :
    (session.handle (.call .maxPayload)).Always conduct inv cells fun answer after =>
      answer.1 = .answered (.ok (.count p.maxPayload)) ∧ answer.2.Keeps p store ∧ after = cells := by
  have hrun : (Operation.maxPayload.run.run.run store).Always conduct inv cells fun result after =>
      result = (.ok (.count p.maxPayload), store) ∧ after = cells := by
    subst hpartition
    exact ⟨rfl, rfl⟩
  have hkeeps : Operation.maxPayload.KeepsGuard := trivial
  refine (always_handle hsession (.call hkeeps) hrun).mono (fun _ hc => hc) ?_
  rintro answer after ⟨result, store', hreply, hsession', heq, hafter⟩
  obtain ⟨rfl, rfl⟩ := Prod.mk.inj heq
  exact ⟨hreply, hsession', hafter⟩

/-- A request to a session with a sound store is answered, and the store is sound afterwards. -/
theorem always_handle_of_sound {anchored : Prop} {allowed : Holdings → Prop} (hu : p.Usable)
    (hsplit : conduct ≠ .splitting) (hmode : anchored ∨ ∀ L, allowed L)
    (hsession : session.Keeps p store) (hcalls : request.Calls p store target operation)
    (hsound : store.Sound p (p.image cells)) (hfits : p.base + p.size ≤ cells.size)
    (hsecure : p.Secure conduct anchored allowed (p.image cells))
    (hallowed : ∀ order L L', Store.Begins p conduct anchored (p.image cells) order L →
      operation.purpose.Leads conduct p.chip.checksum order L L' → conduct ≠ .tearing →
        allowed L') :
    (session.handle request).Always conduct
      (fun c => p.Secure conduct anchored allowed (p.image c)) cells fun answer after =>
        ∃ result store', answer.1 = .answered result ∧ answer.2.Keeps p store' ∧
          store'.Sound p (p.image after) ∧ p.base + p.size ≤ after.size ∧
          p.Secure conduct anchored allowed (p.image after) ∧
          Store.Outcome p conduct anchored operation target (p.image cells) result store'
            (p.image after) := by
  have htarget : target.Sound p (p.image cells) := by
    cases hcalls with
    | reboot => exact ⟨rfl, nofun⟩
    | call => exact hsound
  have hrun := (Store.ensures_run hu hsplit hmode hcalls.keepsGuard htarget hallowed cells ⟨hfits, rfl⟩
    hsecure).keep hsecure
  refine (always_handle hsession hcalls hrun).mono (fun _ hc => hc) ?_
  rintro answer after ⟨result, store', hreply, hkeeps, hafter, hsize, hsound', houtcome⟩
  exact ⟨result, store', hreply, hkeeps, hsound', hsize ▸ hfits, hafter, houtcome⟩

/-- A request to a session with a ready store is answered if no access is refused. -/
theorem always_handle_of_ready (hu : p.Usable) (hsession : session.Keeps p store)
    (hrequest : request.KeepsGuard) (hsound : store.Sound p (p.image cells))
    (hfits : p.base + p.size ≤ cells.size) (hphase : store.phase = .ready) :
    (session.handle request).Always .reliable (fun _ => True) cells fun answer after =>
      ∃ target operation result store', request.Calls p store target operation ∧
        (target.phase = .ready ∨ operation = .init) ∧ answer.1 = .answered result ∧
        answer.2.Keeps p store' ∧ store'.Sound p (p.image after) ∧ p.base + p.size ≤ after.size ∧
        Store.Outcome p .reliable True operation target (p.image cells) result store'
          (p.image after) := by
  obtain ⟨target, operation, hcalls⟩ := hrequest.calls p store
  have htarget : target.phase = .ready ∨ operation = .init := by
    cases hcalls with
    | reboot => exact Or.inr rfl
    | call => exact Or.inl hphase
  refine (always_handle_of_sound hu (by nofun) (Or.inl trivial) hsession hcalls hsound hfits
    ((hsound.mirrors hphase).secure _ _) fun _ _ _ _ _ _ => trivial).mono (fun _ _ => trivial) ?_
  rintro answer after ⟨result, store', hreply, hsession', hsound', hfits', -, houtcome⟩
  exact ⟨target, operation, result, store', hcalls, htarget, hreply, hsession', hsound', hfits',
    houtcome⟩

/-- Handles requests one after the other. -/
def serve (session : Session) : List Request → FlashM (List Reply × Session)
  | [] => pure ([], session)
  | request :: rest => do
    let (reply, session) ← session.handle request
    let (replies, session) ← session.serve rest
    return (reply :: replies, session)

/-- The steps of a machine that take such requests and give such replies. -/
inductive Trace {σ : Type} (step : σ → Request → Reply → σ → Prop) :
    σ → List Request → List Reply → σ → Prop
  | nil (s : σ) : Trace step s [] [] s
  | cons {s s₁ s' : σ} {request : Request} {reply : Reply} {rest : List Request}
      {replies : List Reply} (hstep : step s request reply s₁)
      (hrest : Trace step s₁ rest replies s') :
      Trace step s (request :: rest) (reply :: replies) s'

variable {σ : Type} {step : σ → Request → Reply → σ → Prop} {motive : σ → Session → Cells → Prop}

/-- A run handles its first request and then the others. -/
theorem always_serve_cons {rest : List Request} {s : σ}
    (hfirst : (session.handle request).Always conduct inv cells fun answer after =>
      ∃ s₁, step s request answer.1 s₁ ∧ motive s₁ answer.2 after)
    (hrest : ∀ s₁ session₁ after, motive s₁ session₁ after →
      (session₁.serve rest).Always conduct inv after fun answer last =>
        ∃ s', Trace step s₁ rest answer.1 s' ∧ motive s' answer.2 last) :
    (session.serve (request :: rest)).Always conduct inv cells fun answer last =>
      ∃ s', Trace step s (request :: rest) answer.1 s' ∧ motive s' answer.2 last := by
  rw [serve, FlashM.always_bind]
  refine hfirst.mono (fun _ hc => hc) ?_
  rintro ⟨reply, session₁⟩ after ⟨s₁, hreply, hafter⟩
  rw [FlashM.always_bind]
  refine (hrest s₁ session₁ after hafter).mono (fun _ hc => hc) ?_
  rintro ⟨replies, session₂⟩ last ⟨s', htrace, hlast⟩
  exact ⟨s', .cons hreply htrace, hlast⟩

/-- **The replies of a run are those of another machine**, if the reply to each request is. -/
theorem always_serve (step : σ → Request → Reply → σ → Prop) (motive : σ → Session → Cells → Prop)
    (hstep : ∀ s request session cells, request.KeepsGuard → motive s session cells →
      (session.handle request).Always conduct inv cells fun answer after =>
        ∃ s', step s request answer.1 s' ∧ motive s' answer.2 after)
    {requests : List Request} (hrequests : ∀ request ∈ requests, request.KeepsGuard) {s : σ}
    (h : motive s session cells) :
    (session.serve requests).Always conduct inv cells fun answer after =>
      ∃ s', Trace step s requests answer.1 s' ∧ motive s' answer.2 after := by
  induction requests generalizing s session cells with
  | nil => exact ⟨s, .nil s, h⟩
  | cons request rest ih =>
    obtain ⟨hrequest, hrest⟩ := List.forall_mem_cons.mp hrequests
    exact always_serve_cons (hstep s request session cells hrequest h) fun _ _ _ hafter =>
      ih hrest hafter

/-- A run keeps what each request keeps. -/
theorem always_serve_of_keep {motive : Session → Cells → Prop}
    (hstep : ∀ request session cells, request.KeepsGuard → motive session cells →
      (session.handle request).Always conduct inv cells fun answer after => motive answer.2 after)
    {requests : List Request} (hrequests : ∀ request ∈ requests, request.KeepsGuard)
    (h : motive session cells) :
    (session.serve requests).Always conduct inv cells fun answer after => motive answer.2 after := by
  have hserve : (session.serve requests).Always conduct inv cells fun answer after =>
      ∃ s : Unit, Trace (fun _ _ _ _ => True) () requests answer.1 s ∧ motive answer.2 after := by
    refine always_serve _ (fun _ => motive) (fun _ request session cells hrequest hbefore => ?_)
      hrequests h
    refine (hstep request session cells hrequest hbefore).mono (fun _ hc => hc) ?_
    exact fun _ _ hafter => ⟨(), trivial, hafter⟩
  refine hserve.mono (fun _ hc => hc) ?_
  rintro ⟨replies, session'⟩ after ⟨_, -, hafter⟩
  exact hafter

/-! ## A session whose partition was formatted -/

/-- A session with a sound store, on a flash that no scan formats and whose live records are allowed. -/
def Secure (p : Partition) (conduct : Conduct) (allowed : Holdings → Prop) (session : Session)
    (cells : Cells) : Prop :=
  ∃ store, session.Keeps p store ∧ store.Sound p (p.image cells) ∧ p.base + p.size ≤ cells.size ∧
    p.Secure conduct True allowed (p.image cells)

/-- A session whose first scan has found no page with the marker and has succeeded, and its flash. -/
def Formatted (p : Partition) (session : Session) (flash : Flash) : Prop :=
  ∃ (first : Session) (foreign : Flash), first.Keeps p (.ofPartition p) ∧
    ¬(p.image foreign.cells).Marked p.pageCount ∧
    (first.handle (.call .init)).run Flash.device foreign =
      ((.answered (.ok .done), session), flash)

/-- After formatting, the store is ready, no record is live, and one page carries the marker. -/
theorem Formatted.ready (hu : p.Usable) {flash : Flash} (h : Formatted p session flash) :
    ∃ store, session.Keeps p store ∧ store.Sound p (p.image flash.cells) ∧
      p.base + p.size ≤ flash.cells.size ∧ store.phase = .ready ∧
      p.live (p.image flash.cells) = (fun _ => []) ∧ store.table.MarkedOnce := by
  obtain ⟨first, foreign, hfirst, hunmarked, hrun⟩ := h
  have hcalls : (Request.call .init).Calls p (.ofPartition p) (.ofPartition p) .init :=
    .call trivial
  have hinit : (Operation.init.run.run.run (.ofPartition p)).Always .tearing (fun _ => True)
      foreign.cells fun result after => result.1 = .ok .done → result.2.phase = .ready ∧
        result.2.Sound p (p.image after) ∧ p.base + p.size ≤ after.size ∧
        p.live (p.image after) = (fun _ => []) ∧ result.2.table.MarkedOnce := by
    by_cases hfits : p.base + p.size ≤ foreign.cells.size
    · have hcall : StoreM.Ensures p .tearing (p.Secure .tearing False fun _ => True)
          Operation.init.run (.ofPartition p) (p.image foreign.cells) fun result store' img' =>
            store'.Sound p img' ∧ Store.Outcome p .tearing False .init (.ofPartition p)
              (p.image foreign.cells) result store' img' :=
        Store.ensures_run hu (by nofun) (Or.inr fun _ => trivial) trivial ⟨rfl, nofun⟩
          fun _ _ _ _ _ _ => trivial
      have hkeep := (hcall foreign.cells ⟨hfits, rfl⟩ (p.secure_of_unasked _ _)).keep
        (p.secure_of_unasked _ _)
      refine hkeep.mono (fun _ _ => trivial) ?_
      rintro ⟨result, store'⟩ after ⟨-, hsize, hsound, houtcome⟩ rfl
      cases houtcome with
      | scanned _ hphase _ hformat honce =>
        exact ⟨hphase, hsound, hsize ▸ hfits, hformat hunmarked, honce hunmarked⟩
      | concluded hbefore => exact absurd rfl hbefore
    · -- A flash that ends within the partition is not scanned with success.
      have hphase : (Store.ofPartition p).phase ≠ .ready := nofun
      refine (Store.always_run_of_short .tearing hu .init trivial rfl hphase
        (Nat.lt_of_not_le hfits)).mono (fun _ hc => hc) ?_
      rintro result after ⟨-, -, hnot⟩ hok
      exact absurd hok (hnot rfl _)
  have hhandle := always_handle hfirst hcalls hinit
  obtain ⟨⟨result, store, hreply, hkeeps, hready⟩, -⟩ :=
    Flash.run_of_always foreign.follows_tearing hhandle
  rw [hrun] at hreply hkeeps hready
  obtain ⟨hphase, hsound, hfits, hlive, honce⟩ := hready (Reply.answered.inj hreply).symm
  exact ⟨store, hkeeps, hsound, hfits, hphase, hlive, honce⟩

/-- No scan formats what is written after formatting. -/
theorem Formatted.secure (hu : p.Usable) {flash : Flash} (h : Formatted p session flash)
    (conduct : Conduct) {allowed : Holdings → Prop} (hallowed : allowed fun _ => []) :
    session.Secure p conduct allowed flash.cells := by
  obtain ⟨store, hkeeps, hsound, hfits, hphase, hlive, -⟩ := h.ready hu
  exact ⟨store, hkeeps, hsound, hfits, fun _ => (hsound.mirrors hphase).anchored,
    fun _ => hlive ▸ hallowed, fun _ _ => (hsound.mirrors hphase).orderly⟩

end Session

/-! ## Partitions that nothing was written to -/

/-- A flash that goes up to the end of the partition and that nothing was written to. -/
def Partition.erased (p : Partition) (fates : Nat → Fate) : Flash :=
  ⟨.replicate (p.base + p.size) 0xFF, fates⟩

theorem Partition.unmarked_erased (p : Partition) (fates : Nat → Fate) :
    ¬(p.image (p.erased fates).cells).Marked p.pageCount := by
  rintro ⟨page, hpage, status, hstatus, hring⟩
  have hstatus : (Array.replicate (p.base + p.size) (0xFF : UInt8))[p.pageAddress page]?.bind
      PageStatus.ofByte? = some status := hstatus
  have hle := p.pageAddress_add_le_end hpage
  have hpos := p.pageSize_pos
  rw [Array.getElem?_replicate, if_pos (by omega)] at hstatus
  cases hstatus
  cases hring

namespace Session

/-- A session that has created a store on the partition. -/
def ofPartition (p : Partition) : Session :=
  ⟨p.chip, ⟨p.base, p.size, some p.pageSize⟩, some (.ofPartition p)⟩

theorem keeps_ofPartition (p : Partition) : (ofPartition p).Keeps p (.ofPartition p) := by
  have hcreate : Partition.create p.chip p.base p.size p.pageSize = .ok p :=
    Partition.create_eq_ok_iff.mpr ⟨rfl, rfl, rfl, rfl⟩
  refine ⟨?_, rfl⟩
  show (Partition.create p.chip p.base p.size p.pageSize).map _ = _
  rw [hcreate]
  rfl

/-- The first scan of a partition that nothing was written to. -/
def formattingOf (p : Partition) (fates : Nat → Fate) : (Reply × Session) × Flash :=
  ((ofPartition p).handle (.call .init)).run Flash.device (p.erased fates)

theorem formatted_of_done {p : Partition} {fates : Nat → Fate}
    (h : (formattingOf p fates).1.1 = .answered (.ok .done)) :
    Formatted p (formattingOf p fates).1.2 (formattingOf p fates).2 := by
  have hrun : formattingOf p fates =
      ((.answered (.ok .done), (formattingOf p fates).1.2), (formattingOf p fates).2) := by
    rw [← h]
  exact ⟨ofPartition p, p.erased fates, keeps_ofPartition p, p.unmarked_erased fates, hrun⟩

theorem follows_formattingOf (p : Partition) {fates : Nat → Fate} {conduct : Conduct}
    (h : ∀ n, conduct.Allows (fates n)) : (formattingOf p fates).2.Follows conduct := by
  have hflash : (p.erased fates).Follows conduct := h
  exact (Flash.run_of_always hflash (FlashM.always_size _ _)).2.1

end Session

/-! ## Small partitions -/

/-- A chip may refuse a single access without effect. -/
theorem Conduct.refusing_allows_at (access n : Nat) :
    Conduct.refusing.Allows (if n = access then .refused 0 0 else .granted) := by
  split
  · exact ⟨nofun, fun _ => rfl⟩
  · trivial

/-- What a reply gives of a value that was copied to a buffer. -/
def Reply.copied? : Reply → Option (Nat × Bytes)
  | answered (.ok (.copied count buffer)) => some (count, buffer)
  | _ => none

/-- The cause for which a call has failed. -/
def Reply.error? : Reply → Option Error
  | answered (.error error) => some error
  | _ => none

theorem Reply.eq_error {reply : Reply} {error : Error} (h : reply.error? = some error) :
    reply = .answered (.error error) := by
  unfold error? at h
  split at h
  · rw [Option.some.inj h]
  · cases h

/-- The call has succeeded and gives nothing else. -/
def Reply.isDone : Reply → Bool
  | answered (.ok .done) => true
  | _ => false

theorem Reply.eq_done {reply : Reply} (h : reply.isDone = true) : reply = .answered (.ok .done) := by
  unfold isDone at h
  split at h
  · rfl
  · cases h

/-- The chip has refused an access. -/
def Reply.isRefused : Reply → Bool
  | answered (.error .ioFailure) => true
  | _ => false

/-- Sixteen bytes, accessed one by one and erased by eight. -/
def Chip.small : Chip := ⟨1, 1, 8, 16, .xorSum⟩

/-- Two pages of eight bytes. -/
def Partition.small : Partition where
  chip := .small
  base := 0
  pageSize := 8
  pageCount := 2
  eraseSize_pos := by decide
  eraseSize_dvd := by decide
  minPageSize_le := by decide
  pageSize_le := by decide
  pageSize_dvd := by decide
  pageCount_pos := by decide
  pageCount_le := by decide
  end_le := by decide

theorem Partition.usable_small : Partition.small.Usable := ⟨by decide, by decide, by decide⟩

/-- A flash of this size that nothing was written to. -/
def Flash.erased (fates : Nat → Fate) : Flash := Partition.small.erased fates

/-- A session that has created a store on the small partition. -/
def Session.small : Session := .ofPartition .small

theorem Session.keeps_small : Session.small.Keeps .small (.ofPartition .small) :=
  keeps_ofPartition .small

/-- The first scan of an erased flash. -/
def Session.formatting (fates : Nat → Fate) : (Reply × Session) × Flash := formattingOf .small fates

theorem Session.formatted_small {fates : Nat → Fate}
    (h : (formatting fates).1.1 = .answered (.ok .done)) :
    Formatted .small (formatting fates).1.2 (formatting fates).2 :=
  formatted_of_done h

theorem Session.follows_formatting {fates : Nat → Fate} {conduct : Conduct}
    (h : ∀ n, conduct.Allows (fates n)) : (formatting fates).2.Follows conduct :=
  follows_formattingOf .small h

/-- So many pages of sixteen bytes, which are accessed byte by byte and erased one by one. -/
def Partition.row (count : Nat) (hpos : 0 < count) (hle : count ≤ maxPageCount) : Partition where
  chip := ⟨1, 1, 16, count * 16, .maxim⟩
  base := 0
  pageSize := 16
  pageCount := count
  eraseSize_pos := Nat.succ_pos 15
  eraseSize_dvd := Nat.dvd_refl 16
  minPageSize_le := by decide
  pageSize_le := by decide
  pageSize_dvd := Nat.dvd_zero 16
  pageCount_pos := hpos
  pageCount_le := hle
  end_le := Nat.le_of_eq (Nat.zero_add _)

theorem Partition.usable_row {count : Nat} (hpos : 0 < count) (hle : count ≤ maxPageCount) :
    (row count hpos hle).Usable := by
  refine ⟨Nat.one_dvd _, Nat.one_dvd _, ?_⟩
  have hle : count ≤ 0xFFFF := hle
  show 0 + count * 16 < 2 ^ 32
  omega

/-- One page of sixteen bytes. -/
def Partition.lone : Partition := .row 1 (by decide) (by decide)

theorem Partition.usable_lone : Partition.lone.Usable := usable_row (by decide) (by decide)

/-- Two pages of sixteen bytes. -/
def Partition.pair : Partition := .row 2 (by decide) (by decide)

theorem Partition.usable_pair : Partition.pair.Usable := usable_row (by decide) (by decide)

/-- Three pages of sixteen bytes. -/
def Partition.trio : Partition := .row 3 (by decide) (by decide)

theorem Partition.usable_trio : Partition.trio.Usable := usable_row (by decide) (by decide)

end RingStore
