import RingStore.Proofs.Compaction

/-!
# Which of two copies counts

A write that is refused after its append leaves two copies of its key.  A lookup searches the pages from
the head backward, and the first copy that it meets is the one that counts.  The new copy is the last one
on its page, so it counts as long as no older copy is on a page that comes before.  That is so while its
page is the active one, also after a reboot, and while pages are opened in the order of the ring.  Pages
are opened out of that order when others were given back, and then an older copy may come first.

## Main statements

* `Store.run_in_order`: a call has its effect in the order in which the next lookup searches the pages.
* `Session.meetsFirst_of_isActive`: the active page comes first in that order.
* `Session.newest_copy_read`: as long as no older copy comes first whenever the key is looked up, the new
  copy is what lookups show, and otherwise an older one is.
* `Session.stale_copy_read`: after another page was opened, a lookup may show the older copy.
-/

namespace RingStore

open RingStore.Partition (Holdings)

namespace Partition.Holdings

variable {L₀ L L' : Holdings} {key : UInt16} {page : Nat} {payload : Bytes} {order : List Nat}

/-- No copy of the key is on a page that comes before the page in the order. -/
def Foremost (L : Holdings) (key : UInt16) (order : List Nat) (page : Nat) : Prop :=
  ∀ other e, L.Copy key other e → order.idxOf page ≤ order.idxOf other

/-- The last copy of a key on a page has a payload, and all copies on other pages are from before. -/
structure Overlaid (L₀ : Holdings) (key : UInt16) (page : Nat) (payload : Bytes) (L : Holdings) :
    Prop where
  last : ∃ entry, L.Copy key page entry ∧ (∀ e, L.Copy key page e → e.1 ≤ entry.1) ∧
    entry.2.payload = payload
  older : ∀ other e, L.Copy key other e → other ≠ page → L₀.Copy key other e

namespace Overlaid

/-- If no other page with a copy comes before, the last copy on the page is the newest one. -/
theorem newest (h : Overlaid L₀ key page payload L) (hforemost : L.Foremost key order page) :
    ∃ entry, L.Newest key order page entry ∧ entry.2.payload = payload := by
  obtain ⟨entry, hcopy, hlast, hpayload⟩ := h.last
  exact ⟨entry, ⟨hcopy, hlast, hforemost⟩, hpayload⟩

/-- If another page with a copy comes before, the newest copy is one from before. -/
theorem exists_older (h : Overlaid L₀ key page payload L) (hnot : ¬L.Foremost key order page) :
    ∃ other entry, L.Newest key order other entry ∧ L₀.Copy key other entry := by
  obtain ⟨entry, hcopy, -⟩ := h.last
  obtain ⟨other, e, hnewest⟩ := hcopy.exists_newest order
  refine ⟨other, e, hnewest, h.older other e hnewest.copy ?_⟩
  rintro rfl
  exact hnot hnewest.first

theorem of_copy (h : Overlaid L₀ key page payload L)
    (hlast : ∀ entry, L.Copy key page entry → (∀ e, L.Copy key page e → e.1 ≤ entry.1) →
      L'.Copy key page entry)
    (hcopy : ∀ other e, L'.Copy key other e → L.Copy key other e) :
    Overlaid L₀ key page payload L' := by
  obtain ⟨entry, hentry, hbehind, hpayload⟩ := h.last
  exact ⟨⟨entry, hlast entry hentry hbehind, fun e he => hbehind e (hcopy page e he), hpayload⟩,
    fun other e he => h.older other e (hcopy other e he)⟩

theorem sameBut {other : UInt16} (h : Overlaid L₀ key page payload L) (hsame : SameBut other L L')
    (hne : other ≠ key) : Overlaid L₀ key page payload L' := by
  have hcopy : ∀ at_ e, L'.Copy key at_ e ↔ L.Copy key at_ e := fun at_ e =>
    and_congr_left fun hkey => hsame at_ e (hkey ▸ hne.symm)
  exact h.of_copy (fun entry hentry _ => (hcopy page entry).mpr hentry) fun at_ e => (hcopy at_ e).mp

theorem sought {conduct : Conduct} {checksum : Checksum} (h : Overlaid L₀ key page payload L)
    (hsought : L.Sought conduct checksum key order L') (hforemost : L.Foremost key order page) :
    Overlaid L₀ key page payload L' :=
  h.of_copy (fun entry hcopy hlast => (hsought.newest page entry ⟨hcopy, hlast, hforemost⟩).copy)
    hsought.copy

end Overlaid

end Partition.Holdings

namespace Purpose

variable {p : Partition} {L₀ L L' : Holdings} {key : UInt16} {page : Nat} {payload : Bytes}
  {order : List Nat} {purpose : Purpose} {result : Except Error Answer}

/-- The operation looks the key up. -/
def Reads (key : UInt16) : Purpose → Prop
  | lookup other _ _ => other = key
  | _ => False

/-- The operation stores a payload under the key or removes the key. -/
def Changes (key : UInt16) : Purpose → Prop
  | store other _ => other = key
  | remove other => other = key
  | _ => False

/-- If the operation looks the key up and succeeds, it shows a payload. -/
def Shows (key : UInt16) (payload : Bytes) (purpose : Purpose) (reply : Reply) : Prop :=
  match purpose with
  | lookup other _ view => other = key → ∀ answer, reply = .answered (.ok answer) →
      view (some payload) = .ok answer
  | _ => True

theorem shows_of_not_reads (h : ¬purpose.Reads key) (reply : Reply) :
    purpose.Shows key payload reply := by
  cases purpose with
  | lookup other accepted view => exact fun heq => absurd heq h
  | _ => trivial

theorem shows_of_error (error : Error) : purpose.Shows key payload (.answered (.error error)) := by
  cases purpose with
  | lookup other accepted view => exact fun _ _ => nofun
  | _ => trivial

/-- What goes on with other keys leaves the new copy in place. -/
theorem Leads.overlaid_of_not_reads {conduct : Conduct} {checksum : Checksum}
    (hconduct : conduct ≠ .splitting) (hleads : purpose.Leads conduct checksum order L L')
    (hreads : ¬purpose.Reads key) (hchanges : ¬purpose.Changes key)
    (h : L₀.Overlaid key page payload L) : L₀.Overlaid key page payload L' := by
  cases purpose with
  | lookup other accepted view =>
    exact h.sameBut ((Holdings.Sought.passes hleads).between hconduct).others hreads
  | store other value =>
    exact h.sameBut ((Holdings.Renewed.passes hleads).between hconduct).others hchanges
  | remove other => exact h.sameBut (Holdings.Passes.between hleads hconduct).others hchanges
  | upkeep =>
    obtain rfl : L' = L := hleads
    exact h

/-- So does a lookup that meets it first. -/
theorem Leads.overlaid_of_reads {conduct : Conduct} {checksum : Checksum}
    (hleads : purpose.Leads conduct checksum order L L') (hreads : purpose.Reads key)
    (hforemost : L.Foremost key order page) (h : L₀.Overlaid key page payload L) :
    L₀.Overlaid key page payload L' := by
  cases purpose with
  | lookup other accepted view =>
    obtain rfl : other = key := hreads
    exact h.sought hleads hforemost
  | _ => exact hreads.elim

/-- A lookup shows the copy that it meets first. -/
theorem Effect.shows {entry : Nat × Record} (heffect : purpose.Effect p order L result L')
    (h : L.Newest key order page entry) :
    purpose.Shows key entry.2.payload (.answered result) := by
  cases purpose with
  | lookup other accepted view =>
    rintro rfl answer hreply
    obtain rfl : result = .ok answer := Reply.answered.inj hreply
    rcases heffect with ⟨-, hrefused, -⟩ | ⟨-, v, -, hnewest, -, hview⟩
    · cases hrefused
    · rw [hview, hnewest page entry h]
  | _ => trivial

end Purpose

/-! ## The order of a search -/

namespace Store

variable {p : Partition} {store : Store} {flash : Flash} {allowed : Holdings → Prop}
  {operation : Operation}

/-- The order in which the next lookup searches the pages: it is settled when the store is recovered.
There is none if that fails. -/
def nextOrder? (store : Store) (flash : Flash) : Option (List Nat) :=
  let recovered := ((recover.run.run store).run Flash.device flash).1
  recovered.1.toOption.map fun _ => recovered.2.table.searchOrder

/-- **A call has its effect in the order that is next**, or it fails. -/
theorem run_in_order (hu : p.Usable) (hflash : flash.Follows .refusing)
    (hguard : operation.KeepsGuard) (hprogram : operation.program? ≠ none)
    (hsound : store.Sound p (p.image flash.cells)) (hfits : p.base + p.size ≤ flash.cells.size)
    (hsecure : p.Secure .refusing True allowed (p.image flash.cells))
    (hallowed : ∀ order L', store.nextOrder? flash = some order →
      operation.purpose.Leads .refusing p.chip.checksum order (p.live (p.image flash.cells)) L' →
        allowed L') :
    let last := (operation.run.run.run store).run Flash.device flash
    last.2.Follows .refusing ∧ last.1.2.Sound p (p.image last.2.cells) ∧
      p.base + p.size ≤ last.2.cells.size ∧
      p.Secure .refusing True allowed (p.image last.2.cells) ∧
      ((∃ error, last.1.1 = .error error) ∨ ∃ order, store.nextOrder? flash = some order ∧
        operation.purpose.Effect p order (p.live (p.image flash.cells)) last.1.1
          (p.live (p.image last.2.cells))) := by
  obtain ⟨x, hx⟩ := Option.ne_none_iff_exists'.mp hprogram
  intro last
  have hlast : last = ((guarded x).run.run store).run Flash.device flash := by
    rw [← operation.run_eq_guarded hguard hx]
  have hrecover := (ensures_recover hu (by nofun) (Or.inl trivial) hsound hprogram flash.cells
    ⟨hfits, rfl⟩ hsecure).keep hsecure
  obtain ⟨⟨hsecure', hsize, hsound', hrecovered⟩, hflash', -⟩ := Flash.run_of_always hflash hrecover
  rw [run_guarded, FlashM.run_bind] at hlast
  rcases hrun : (recover.run.run store).run Flash.device flash with ⟨⟨error | _, ready⟩, scanned⟩
  · rw [hrun] at hlast hsecure' hsize hsound' hflash'
    replace hlast : last = ((.error error, ready), scanned) := hlast
    rw [hlast]
    exact ⟨hflash', hsound', hsize ▸ hfits, hsecure', Or.inl ⟨error, rfl⟩⟩
  · rw [hrun] at hlast hsecure' hsize hsound' hflash' hrecovered
    obtain ⟨-, hready, hbegins⟩ := hrecovered
    have horder : store.nextOrder? flash = some ready.table.searchOrder := by
      rw [nextOrder?, hrun]
      rfl
    have hlive := hbegins.live_eq trivial
    have hcall := (ensures_guarded_ready hu hx hsound' hready
      (fun L' hleads _ => hallowed _ L' horder (hlive ▸ hleads)) scanned.cells
      ⟨hsize ▸ hfits, rfl⟩ hsecure').keep hsecure'
    obtain ⟨⟨hsecure'', hsize', hsound'', h⟩, hflash'', -⟩ := Flash.run_of_always hflash' hcall
    rw [← hlast] at hsecure'' hsize' hsound'' hflash'' h
    refine ⟨hflash'', hsound'', hsize' ▸ hsize ▸ hfits, hsecure'', ?_⟩
    rcases h with ⟨hrefused, -⟩ | ⟨-, heffect⟩
    · exact Or.inl ⟨_, hrefused⟩
    · exact Or.inr ⟨_, horder, hlive ▸ heffect⟩

/-- The active page comes first. -/
theorem head?_nextOrder (hu : p.Usable) (hflash : flash.Follows .refusing)
    (hsound : store.Sound p (p.image flash.cells)) (hfits : p.base + p.size ≤ flash.cells.size)
    (hsecure : p.Secure .refusing True allowed (p.image flash.cells)) {order : List Nat}
    (horder : store.nextOrder? flash = some order) {page : Nat} (hpage : page < p.pageCount)
    (hactive : (p.image flash.cells).IsActive page) : order.head? = some page := by
  have hprogram : Operation.sweep.program? ≠ none := Option.some_ne_none _
  obtain ⟨⟨-, h⟩, -⟩ := Flash.run_of_always hflash
    (ensures_recover hu (by nofun) (Or.inl trivial) hsound hprogram flash.cells ⟨hfits, rfl⟩ hsecure)
  rw [nextOrder?] at horder
  rcases hrun : (recover.run.run store).run Flash.device flash with ⟨⟨error | _, ready⟩, scanned⟩
  · rw [hrun] at horder
    cases horder
  · rw [hrun] at horder h
    cases horder
    obtain ⟨-, -, hbegins⟩ := h
    exact hbegins.first trivial (by rintro (h | h) <;> cases h) page hpage hactive

end Store

/-- What a request is to the keys; a reboot is nothing to them. -/
def Request.purpose : Request → Purpose
  | .call operation => operation.purpose
  | _ => .upkeep

/-- If the request looks the key up and succeeds, the reply shows a payload. -/
def Request.Shows (key : UInt16) (payload : Bytes) (request : Request) (reply : Reply) : Prop :=
  request.purpose.Shows key payload reply

theorem Request.Calls.purpose_eq {p : Partition} {request : Request} {store target : Store}
    {operation : Operation} (h : request.Calls p store target operation) :
    request.purpose = operation.purpose := by
  cases h <;> rfl

theorem Request.exists_call_of_reads {request : Request} {key : UInt16}
    (h : request.purpose.Reads key) :
    ∃ operation, request = .call operation ∧ operation.program? ≠ none := by
  cases request with
  | call operation =>
    refine ⟨operation, rfl, operation.program?_ne_none fun hupkeep => ?_⟩
    rw [purpose, hupkeep] at h
    exact h
  | _ => exact h.elim

namespace Session

variable {p : Partition} {session : Session} {store : Store} {flash : Flash} {request : Request}
  {operation : Operation} {L₀ : Holdings} {key : UInt16} {page : Nat} {payload : Bytes}
  {allowed : Holdings → Prop}

/-- The order in which the next lookup of a session searches the pages. -/
def nextOrder? (session : Session) (flash : Flash) : Option (List Nat) :=
  session.store.bind (·.nextOrder? flash)

/-- The next lookup of the key comes to the page before it comes to another page with a copy. -/
def MeetsFirst (p : Partition) (key : UInt16) (page : Nat) (session : Session) (flash : Flash) :
    Prop :=
  ∀ order, session.nextOrder? flash = some order →
    (p.live (p.image flash.cells)).Foremost key order page

/-- Whenever a run looks the key up, it comes to the page before it comes to another page with a copy. -/
def ReadsFirst (p : Partition) (key : UInt16) (page : Nat) : Session → Flash → List Request → Prop
  | _, _, [] => True
  | session, flash, request :: rest =>
    let last := (session.handle request).run Flash.device flash
    (request.purpose.Reads key → session.MeetsFirst p key page flash) ∧
      ReadsFirst p key page last.1.2 last.2 rest

theorem Keeps.nextOrder?_eq (h : session.Keeps p store) (flash : Flash) :
    session.nextOrder? flash = store.nextOrder? flash := by
  rw [nextOrder?, h.store_eq, Option.bind_some]

/-- **A lookup comes to the active page first**, whether the store is ready or has to be recovered. -/
theorem meetsFirst_of_isActive (hu : p.Usable) (hflash : flash.Follows .refusing)
    (h : session.Secure p .refusing allowed flash.cells) (hpage : page < p.pageCount)
    (hactive : (p.image flash.cells).IsActive page) : session.MeetsFirst p key page flash := by
  obtain ⟨store, hkeeps, hsound, hfits, hsecure⟩ := h
  intro order horder other e he
  rw [hkeeps.nextOrder?_eq] at horder
  obtain ⟨rest, rfl⟩ := List.head?_eq_some_iff.mp
    (store.head?_nextOrder hu hflash hsound hfits hsecure horder hpage hactive)
  rw [List.idxOf_cons_self]
  exact Nat.zero_le _

/-- A call has its effect in the order that is next, or it fails. -/
theorem handle_in_order (hu : p.Usable) (hflash : flash.Follows .refusing)
    (hguard : operation.KeepsGuard) (hprogram : operation.program? ≠ none)
    (hkeeps : session.Keeps p store) (hsound : store.Sound p (p.image flash.cells))
    (hfits : p.base + p.size ≤ flash.cells.size)
    (hsecure : p.Secure .refusing True allowed (p.image flash.cells))
    (hallowed : ∀ order L', session.nextOrder? flash = some order →
      operation.purpose.Leads .refusing p.chip.checksum order (p.live (p.image flash.cells)) L' →
        allowed L') :
    let last := (session.handle (.call operation)).run Flash.device flash
    last.2.Follows .refusing ∧ last.1.2.Secure p .refusing allowed last.2.cells ∧
      ∃ result, last.1.1 = .answered result ∧
        ((∃ error, result = .error error) ∨ ∃ order, session.nextOrder? flash = some order ∧
          operation.purpose.Effect p order (p.live (p.image flash.cells)) result
            (p.live (p.image last.2.cells))) := by
  intro last
  simp only [hkeeps.nextOrder?_eq] at hallowed ⊢
  obtain ⟨hflash', hsound', hfits', hsecure', hresult⟩ :=
    Store.run_in_order hu hflash hguard hprogram hsound hfits hsecure hallowed
  have hlast : last = ((.answered ((operation.run.run.run store).run Flash.device flash).1.1,
      { session with store := some ((operation.run.run.run store).run Flash.device flash).1.2 }),
      ((operation.run.run.run store).run Flash.device flash).2) := by
    show (session.handle (.call operation)).run Flash.device flash = _
    rw [handle_eq_callStore hkeeps (.call hguard), callStore, FlashM.run_bind]
    rfl
  rw [hlast]
  exact ⟨hflash', ⟨_, ⟨hkeeps.newStore_eq, rfl⟩, hsound', hfits', hsecure'⟩, _, rfl, hresult⟩

/-- A request that does not change the key keeps the new copy and shows it, if a lookup of the key comes
to its page first. -/
theorem handle_overlaid (hu : p.Usable) (hflash : flash.Follows .refusing)
    (hrequest : request.KeepsGuard) (hchanges : ¬request.purpose.Changes key)
    (hmeets : request.purpose.Reads key → session.MeetsFirst p key page flash)
    (h : session.Secure p .refusing (L₀.Overlaid key page payload) flash.cells) :
    let last := (session.handle request).run Flash.device flash
    request.Shows key payload last.1.1 ∧
      last.1.2.Secure p .refusing (L₀.Overlaid key page payload) last.2.cells ∧
      last.2.Follows .refusing := by
  obtain ⟨store, hkeeps, hsound, hfits, hsecure⟩ := h
  have hoverlaid : L₀.Overlaid key page payload (p.live (p.image flash.cells)) :=
    hsecure.allowed nofun
  by_cases hreads : request.purpose.Reads key
  · obtain ⟨operation, rfl, hprogram⟩ := Request.exists_call_of_reads hreads
    have hforemost := hmeets hreads
    obtain ⟨hflash', hsecure', result, hreply, hresult⟩ :=
      handle_in_order hu hflash hrequest hprogram hkeeps hsound hfits hsecure
        fun order L' horder hleads => hleads.overlaid_of_reads hreads (hforemost order horder) hoverlaid
    refine ⟨?_, hsecure', hflash'⟩
    rw [hreply]
    rcases hresult with ⟨error, rfl⟩ | ⟨order, horder, heffect⟩
    · exact Purpose.shows_of_error error
    · obtain ⟨entry, hnewest, rfl⟩ := hoverlaid.newest (hforemost order horder)
      exact heffect.shows hnewest
  · obtain ⟨target, operation, hcalls⟩ := hrequest.calls p store
    refine ⟨Purpose.shows_of_not_reads hreads _, ?_⟩
    rw [hcalls.purpose_eq] at hchanges hreads
    obtain ⟨⟨result, store', -, hkeeps', hsound', hfits', hsecure', -⟩, hflash', -⟩ :=
      Flash.run_of_always hflash (always_handle_of_sound hu (by nofun) (Or.inl trivial) hkeeps hcalls
        hsound hfits hsecure fun order L L' hbegins hleads _ =>
          hleads.overlaid_of_not_reads (by nofun) hreads hchanges (hbegins.live_eq trivial ▸ hoverlaid))
    exact ⟨⟨store', hkeeps', hsound', hfits', hsecure'⟩, hflash'⟩

/-- A lookup that comes to another page with a copy first shows one from before. -/
theorem handle_shows_older (hu : p.Usable) (hflash : flash.Follows .refusing)
    (hguard : operation.KeepsGuard) (hreads : operation.purpose.Reads key)
    (hnot : ¬session.MeetsFirst p key page flash)
    (h : session.Secure p .refusing (L₀.Overlaid key page payload) flash.cells) :
    ∃ older, L₀.Stored key (some older) ∧ Request.Shows key older (.call operation)
      ((session.handle (.call operation)).run Flash.device flash).1.1 := by
  obtain ⟨store, hkeeps, hsound, hfits, hsecure⟩ := h
  obtain ⟨_, hcall, hprogram⟩ :=
    Request.exists_call_of_reads (show (Request.call operation).purpose.Reads key from hreads)
  obtain rfl := Request.call.inj hcall
  have hoverlaid : L₀.Overlaid key page payload (p.live (p.image flash.cells)) :=
    hsecure.allowed nofun
  simp only [MeetsFirst, not_forall] at hnot
  obtain ⟨order, horder, hnot⟩ := hnot
  obtain ⟨other, entry, hnewest, hcopy⟩ := hoverlaid.exists_older hnot
  refine ⟨entry.2.payload, ⟨other, entry, hcopy, rfl⟩, ?_⟩
  have hsecure' : p.Secure .refusing True (fun _ => True) (p.image flash.cells) :=
    ⟨hsecure.anchored, fun _ => trivial, hsecure.orderly⟩
  obtain ⟨-, -, result, hreply, hresult⟩ :=
    handle_in_order hu hflash hguard hprogram hkeeps hsound hfits hsecure' fun _ _ _ _ => trivial
  show operation.purpose.Shows key entry.2.payload _
  rw [hreply]
  rcases hresult with ⟨error, rfl⟩ | ⟨order', horder', heffect⟩
  · exact Purpose.shows_of_error error
  · obtain rfl := Option.some.inj (horder.symm.trans horder')
    exact heffect.shows hnewest

/-- A run that does not change the key keeps the new copy and shows it, if each lookup of the key comes
to its page first. -/
theorem serve_overlaid (hu : p.Usable) (hflash : flash.Follows .refusing) {requests : List Request}
    (hrequests : ∀ request ∈ requests, request.KeepsGuard)
    (hchanges : ∀ request ∈ requests, ¬request.purpose.Changes key)
    (hfirst : session.ReadsFirst p key page flash requests)
    (h : session.Secure p .refusing (L₀.Overlaid key page payload) flash.cells) :
    let last := (session.serve requests).run Flash.device flash
    List.Forall₂ (Request.Shows key payload) requests last.1.1 ∧
      last.1.2.Secure p .refusing (L₀.Overlaid key page payload) last.2.cells ∧
      last.2.Follows .refusing := by
  induction requests generalizing session flash with
  | nil => exact ⟨.nil, h, hflash⟩
  | cons request rest ih =>
    obtain ⟨hrequest, hrest⟩ := List.forall_mem_cons.mp hrequests
    obtain ⟨hchange, hchanges⟩ := List.forall_mem_cons.mp hchanges
    obtain ⟨hmeets, hfirst⟩ := hfirst
    obtain ⟨hshows, hafter, hflash'⟩ := handle_overlaid hu hflash hrequest hchange hmeets h
    obtain ⟨hshown, hlast⟩ := ih hflash' hrest hchanges hfirst hafter
    simp only [serve, FlashM.run_bind, FlashM.run_pure]
    exact ⟨.cons hshows hshown, hlast⟩

/-- A copy that a write has appended is the last one on its page, and the only new one. -/
theorem always_handle_appended (hu : p.Usable) (hguard : operation.KeepsGuard)
    (hstore : operation.purpose = .store key payload) {cells : Cells}
    (hnew : ¬(p.live (p.image cells)).Stored key (some payload))
    (h : session.Secure p .refusing (fun _ => True) cells) :
    (session.handle (.call operation)).Always .refusing (fun _ => True) cells fun answer after =>
      ∀ entry, (p.live (p.image after)).Copy key page entry → entry.2.payload = payload →
        answer.2.Secure p .refusing ((p.live (p.image cells)).Overlaid key page payload) after := by
  obtain ⟨store, hsession, hsound, hfits, hsecure⟩ := h
  have hstart : p.Secure .refusing True
      (fun L => ∀ page entry, L.Copy key page entry → entry.2.payload = payload →
        (p.live (p.image cells)).Overlaid key page payload L) (p.image cells) := by
    refine ⟨hsecure.anchored, fun _ page entry hcopy hpayload => ?_, hsecure.orderly⟩
    exact absurd ⟨page, entry, hcopy, hpayload⟩ hnew
  refine (always_handle_of_sound hu (by nofun) (Or.inl trivial) hsession (.call hguard) hsound hfits
    hstart fun order L L' hbegins hleads _ page entry hcopy hpayload => ?_).mono
      (fun _ _ => trivial) ?_
  · rw [hstore] at hleads
    have hextended := Holdings.Renewed.extended hleads
    rw [hbegins.live_eq trivial] at hextended
    have hfresh : ¬(p.live (p.image cells)).Copy key page entry := fun hold =>
      hnew ⟨page, entry, hold, hpayload⟩
    exact ⟨⟨entry, hcopy, (hextended.behind page entry hcopy).resolve_left hfresh, hpayload⟩,
      fun other e he hne => ((hextended.single page entry other e hcopy he).resolve_left
        hfresh).resolve_right fun hsame => hne hsame.1.symm⟩
  · rintro answer after ⟨result, store', -, hsession', hsound', hfits', hsecure', -⟩ entry hcopy hpayload
    exact ⟨store', hsession', hsound', hfits', hsecure'.anchored,
      fun hnot => hsecure'.allowed hnot page entry hcopy hpayload, hsecure'.orderly⟩

/-- **A write whose append has reached the flash is read back**, whichever way it ended, by every lookup
of its key that succeeds, as long as no request changes the key and no lookup of it comes to an older copy
first.  Operations on other keys and reboots may come in between, and any access may be refused.  The first
lookup that does come to an older copy first shows one that was stored before the write. -/
theorem newest_copy_read (hu : p.Usable) (hformatted : Formatted p session flash)
    (hflash : flash.Follows .refusing) {before after : List Request}
    (hbefore : ∀ request ∈ before, request.KeepsGuard)
    (hafter : ∀ request ∈ after, request.KeepsGuard) (hguard : operation.KeepsGuard)
    (hstore : operation.purpose = .store key payload)
    (hchanges : ∀ request ∈ after, ¬request.purpose.Changes key) {entry : Nat × Record} :
    let start := (session.serve before).run Flash.device flash
    let written := (start.1.2.handle (.call operation)).run Flash.device start.2
    ¬(p.live (p.image start.2.cells)).Stored key (some payload) →
      (p.live (p.image written.2.cells)).Copy key page entry → entry.2.payload = payload →
        written.1.2.ReadsFirst p key page written.2 after →
          let last := (written.1.2.serve after).run Flash.device written.2
          List.Forall₂ (Request.Shows key payload) after last.1.1 ∧
            ∀ lookup : Operation, lookup.KeepsGuard → lookup.purpose.Reads key →
              ¬last.1.2.MeetsFirst p key page last.2 →
                ∃ older ≠ payload, (p.live (p.image start.2.cells)).Stored key (some older) ∧
                  Request.Shows key older (.call lookup)
                    ((last.1.2.handle (.call lookup)).run Flash.device last.2).1.1 := by
  intro start written hnew hcopy hpayload hreads last
  have hfirst : session.Secure p .refusing (fun _ => True) flash.cells :=
    hformatted.secure hu .refusing trivial
  have hserve : (session.serve before).Always .refusing (fun _ => True) flash.cells
      fun answer after => answer.2.Secure p .refusing (fun _ => True) after := by
    refine always_serve_of_keep ?_ hbefore hfirst
    rintro request session cells hrequest ⟨store, hsession, hsound, hfits, hsecure⟩
    obtain ⟨target, operation, hcalls⟩ := hrequest.calls p store
    refine (always_handle_of_sound hu (by nofun) (Or.inl trivial) hsession hcalls hsound hfits hsecure
      fun _ _ _ _ _ _ => trivial).mono (fun _ _ => trivial) ?_
    rintro answer after ⟨result, store', -, hsession', hsound', hfits', hsecure', -⟩
    exact ⟨store', hsession', hsound', hfits', hsecure'⟩
  obtain ⟨hstart, hflash₁, -⟩ := Flash.run_of_always hflash hserve
  obtain ⟨happended, hflash₂, -⟩ :=
    Flash.run_of_always hflash₁ (always_handle_appended hu hguard hstore hnew hstart)
  obtain ⟨hshows, hlast, hflash₃⟩ :=
    serve_overlaid hu hflash₂ hafter hchanges hreads (happended entry hcopy hpayload)
  refine ⟨hshows, fun lookup hguard' hlookup hnot => ?_⟩
  obtain ⟨older, hstored, hshown⟩ := handle_shows_older hu hflash₃ hguard' hlookup hnot hlast
  refine ⟨older, ?_, hstored, hshown⟩
  rintro rfl
  exact hnew hstored

/-- What comes first in a given order. -/
theorem meetsFirst_of_order (order : List Nat) (horder : session.nextOrder? flash = some order)
    (h : ∀ other < p.pageCount, ∀ e ∈ p.live (p.image flash.cells) other, e.2.header.key = key →
      order.idxOf page ≤ order.idxOf other) : session.MeetsFirst p key page flash := by
  intro order' horder' other e he
  obtain rfl := Option.some.inj (horder.symm.trans horder')
  exact h other (p.lt_of_mem_live he.1) e he.1 he.2

/-- Three values, each of which fills a page, and the first one is removed again. -/
def fillThenFree : List Request :=
  [.call (.writeItem 10 (.replicate 7 10)), .call (.writeItem 2 (.replicate 7 1)),
    .call (.writeItem 11 (.replicate 7 11)), .call (.deleteItem 10)]

/-- A write is refused before it drops the old copy.  The new copy is read back if a lookup comes to it
before another page is opened, and from then on.  It is not if that page is opened first. -/
theorem newest_copy_read_trio :
    let start := formattingOf .trio fun n => if n = 26 then .refused 0 0 else .granted
    let stored := (start.1.2.serve fillThenFree).run Flash.device start.2
    let written := (stored.1.2.handle (.call (.writeItem 2 (.replicate 7 2)))).run Flash.device stored.2
    let entry : Nat × Record := (0, ⟨⟨7, 0xF2, 2⟩, .replicate 7 2⟩)
    let read : Operation := .readItem 2 (.replicate 7 0)
    let free : Request := .call (.deleteItem 11)
    let reopen : Request := .call (.writeItem 12 (.replicate 7 12))
    let kept := [.reboot, free, .call read, reopen, .call read]
    let passed := (written.1.2.serve [free, reopen]).run Flash.device written.2
    Partition.trio.Usable ∧ Formatted .trio start.1.2 start.2 ∧ start.2.Follows .refusing ∧
      ¬(Partition.trio.live (Partition.trio.image stored.2.cells)).Stored 2 (some (.replicate 7 2)) ∧
      (Partition.trio.live (Partition.trio.image written.2.cells)).Copy 2 0 entry ∧
      written.1.1.isRefused = true ∧ written.1.2.ReadsFirst .trio 2 0 written.2 kept ∧
      List.Forall₂ (Request.Shows 2 (.replicate 7 2)) kept
        ((written.1.2.serve kept).run Flash.device written.2).1.1 ∧
      ¬passed.1.2.MeetsFirst .trio 2 0 passed.2 ∧
      ∃ older ≠ .replicate 7 2,
        (Partition.trio.live (Partition.trio.image stored.2.cells)).Stored 2 (some older) ∧
        Request.Shows 2 older (.call read)
          ((passed.1.2.handle (.call read)).run Flash.device passed.2).1.1 := by
  intro start stored written entry read free reopen kept passed
  have hformatted : Formatted .trio start.1.2 start.2 :=
    formatted_of_done (Reply.eq_done (by decide +kernel))
  have hflash : start.2.Follows .refusing := follows_formattingOf .trio (Conduct.refusing_allows_at 26)
  have hbefore : ∀ request ∈ fillThenFree, request.KeepsGuard := by
    simp [fillThenFree, Request.KeepsGuard, Operation.KeepsGuard]
  have hkept : ∀ request ∈ kept, request.KeepsGuard ∧ ¬request.purpose.Changes 2 := by
    simp [kept, read, free, reopen, Request.KeepsGuard, Operation.KeepsGuard, Request.purpose,
      Operation.purpose, Purpose.Changes]
  have hpassed : ∀ request ∈ [free, reopen], request.KeepsGuard ∧ ¬request.purpose.Changes 2 := by
    simp [free, reopen, Request.KeepsGuard, Operation.KeepsGuard, Request.purpose,
      Operation.purpose, Purpose.Changes]
  have hvalues : ∀ page < 3, ∀ e ∈ Partition.trio.live (Partition.trio.image stored.2.cells) page,
      e.2.payload ≠ .replicate 7 2 := by
    decide +kernel
  have hnew : ¬(Partition.trio.live (Partition.trio.image stored.2.cells)).Stored 2
      (some (.replicate 7 2)) := by
    rintro ⟨page, e, hcopy, hpayload⟩
    exact hvalues page (Partition.lt_of_mem_live hcopy.1) e hcopy.1 hpayload
  have hmem : entry ∈ Partition.trio.live (Partition.trio.image written.2.cells) 0 := by
    decide +kernel
  have hfirst : written.1.2.ReadsFirst .trio 2 0 written.2 kept :=
    ⟨False.elim, False.elim,
      fun _ => meetsFirst_of_order [0, 2, 1] (by decide +kernel) (by decide +kernel), False.elim,
      fun _ => meetsFirst_of_order [2, 1, 0] (by decide +kernel) (by decide +kernel), trivial⟩
  have hunread : written.1.2.ReadsFirst .trio 2 0 written.2 [free, reopen] :=
    ⟨False.elim, False.elim, trivial⟩
  -- The second page has the old copy, and the search comes to it before it comes to the first page.
  have hold : ((0, ⟨⟨7, 0x79, 2⟩, .replicate 7 1⟩) : Nat × Record) ∈
      Partition.trio.live (Partition.trio.image passed.2.cells) 1 := by
    decide +kernel
  have horder : passed.1.2.nextOrder? passed.2 = some [2, 1, 0] := by decide +kernel
  have hnot : ¬passed.1.2.MeetsFirst .trio 2 0 passed.2 := fun h =>
    absurd (h _ horder 1 _ ⟨hold, rfl⟩) (by decide)
  obtain ⟨hshows, -⟩ := newest_copy_read Partition.usable_trio hformatted hflash hbefore
    (fun r hr => (hkept r hr).1) (by trivial) rfl (fun r hr => (hkept r hr).2) hnew ⟨hmem, rfl⟩ rfl
    hfirst
  obtain ⟨-, holder⟩ := newest_copy_read Partition.usable_trio hformatted hflash hbefore
    (fun r hr => (hpassed r hr).1) (by trivial) rfl (fun r hr => (hpassed r hr).2) hnew ⟨hmem, rfl⟩ rfl
    hunread
  exact ⟨Partition.usable_trio, hformatted, hflash, hnew, ⟨hmem, rfl⟩, by decide +kernel, hfirst,
    hshows, hnot, holder read trivial rfl hnot⟩

/-- **An older copy may be read again.**  A write is refused before it drops the old copy of its key.
Then a page is given back and opened for another key, and the search meets the old copy first, although
nothing has changed the key. -/
theorem stale_copy_read :
    let start := formattingOf .trio fun n => if n = 26 then .refused 0 0 else .granted
    let stored := (start.1.2.serve fillThenFree).run Flash.device start.2
    let written := (stored.1.2.handle (.call (.writeItem 2 (.replicate 7 2)))).run Flash.device stored.2
    let entry : Nat × Record := (0, ⟨⟨7, 0xF2, 2⟩, .replicate 7 2⟩)
    let after : List Request := [.call (.deleteItem 11), .call (.writeItem 12 (.replicate 7 12)),
      .call (.readItem 2 (.replicate 7 0))]
    Partition.trio.Usable ∧ Formatted .trio start.1.2 start.2 ∧ start.2.Follows .refusing ∧
      written.1.1.isRefused = true ∧
      (Partition.trio.live (Partition.trio.image written.2.cells)).Copy 2 0 entry ∧
      (∀ request ∈ after, request.KeepsGuard ∧ ¬request.purpose.Changes 2) ∧
      ((written.1.2.serve after).run Flash.device written.2).1.1.map Reply.copied? =
        [none, none, some (7, .replicate 7 1)] := by
  intro start stored written entry after
  have hafter : ∀ request ∈ after, request.KeepsGuard ∧ ¬request.purpose.Changes 2 := by
    simp [after, Request.KeepsGuard, Operation.KeepsGuard, Request.purpose, Operation.purpose,
      Purpose.Changes]
  have hmem : entry ∈ Partition.trio.live (Partition.trio.image written.2.cells) 0 := by
    decide +kernel
  exact ⟨Partition.usable_trio, formatted_of_done (Reply.eq_done (by decide +kernel)),
    follows_formattingOf .trio (Conduct.refusing_allows_at 26), by decide +kernel, ⟨hmem, rfl⟩, hafter,
    by decide +kernel⟩

end Session

end RingStore
