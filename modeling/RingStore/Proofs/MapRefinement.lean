import Mathlib.Algebra.BigOperators.Group.List.Basic
import Mathlib.Data.List.Nodup
import RingStore.Proofs.Session

/-!
# A store is a map

On a flash that refuses no access a store behaves as a map from keys to byte strings.  A lookup shows what
the map has under its key, a write that is accepted replaces it or finds no space, a removal drops it, and
nothing else changes the map, neither another scan nor a reboot.

The live records represent a map if each key has a single copy there, with the value that the map has, or
none.

## Main statements

* `Contents.Represented.effect`: an operation does to the live records what it does to the map.
* `Session.refines_map`: the replies of any run are those of a map.
-/

namespace RingStore

open RingStore.Partition (Holdings)

namespace Partition.Holdings

variable {L L' : Holdings} {key other : UInt16} {v : Option Bytes}

/-- A key that was settled at a value has no other. -/
theorem Update.settled (h : L.Update key v L') : L'.Update key v L' :=
  ⟨.refl key L', h.stored, h.sole⟩

/-- What is done to one key leaves the others at their values. -/
theorem Update.carry (h : L.Update other v L) (hne : other ≠ key) (hothers : SameBut key L L') :
    L'.Update other v L' := by
  have hcopy : ∀ page entry, L'.Copy other page entry → L.Copy other page entry := by
    rintro page entry ⟨hmem, hkey⟩
    exact ⟨(hothers page entry (hkey ▸ hne)).mp hmem, hkey⟩
  refine ⟨.refl other L', (hothers.stored_iff hne _).mpr h.stored, ?_⟩
  intro page entry page' entry' hfirst hsecond
  exact h.sole page entry page' entry' (hcopy page entry hfirst) (hcopy page' entry' hsecond)

end Partition.Holdings

/-- The value of every key. -/
abbrev Contents := UInt16 → Option Bytes

namespace Contents

/-- No key has a value. -/
def empty : Contents := fun _ => none

/-- The result of an operation on a map, and the map afterwards.  Arguments that are not in order are
refused, and nothing is done. -/
def Meets (p : Partition) (m : Contents) (purpose : Purpose) (result : Except Error Answer)
    (m' : Contents) : Prop :=
  (¬purpose.Accepted p ∧ result = .error .invalidArgument ∧ m' = m) ∨
  purpose.Accepted p ∧
    match purpose with
    | .lookup key _ view => result = view (m key) ∧ m' = m
    | .store key payload =>
      result = .ok .done ∧ m' = Function.update m key (some payload) ∨
        result = .error .outOfSpace ∧ m' = m
    | .remove key =>
      result = .ok (.count (if (m key).isSome then 1 else 0)) ∧ m' = Function.update m key none
    | .upkeep => (∃ answer, result = .ok answer) ∧ m' = m

/-- The result of a call.  Before the first scan there is no map. -/
def Called (p : Partition) (operation : Operation) (s : Option Contents)
    (result : Except Error Answer) (s' : Option Contents) : Prop :=
  match operation, s with
  | .init, s => result = .ok .done ∧ s' = some (s.getD empty)
  | .maxPayload, s => result = .ok (.count p.maxPayload) ∧ s' = s
  | _, none => result = .error .notInitialized ∧ s' = none
  | operation, some m => ∃ m', m.Meets p operation.purpose result m' ∧ s' = some m'

/-- The reply to a request.  A reboot scans the partition again. -/
def Step (p : Partition) (s : Option Contents) : Request → Reply → Option Contents → Prop
  | .call operation, .answered result, s' => Called p operation s result s'
  | .reboot, .answered result, s' => Called p .init s result s'
  | _, _, _ => False

/-- A write concerns no other key. -/
theorem exists_of_step_store {p : Partition} {m : Contents} {operation : Operation} {key : UInt16}
    {payload : Bytes} {reply : Reply} {s' : Option Contents}
    (hstore : operation.purpose = .store key payload)
    (h : Step p (some m) (.call operation) reply s') : ∃ v, s' = some (Function.update m key v) := by
  cases reply with
  | answered result =>
    obtain ⟨m', hmeets, rfl⟩ : ∃ m', m.Meets p operation.purpose result m' ∧ s' = some m' := by
      cases operation <;> first | exact h | cases hstore
    rw [hstore] at hmeets
    rcases hmeets with ⟨-, -, rfl⟩ | ⟨-, ⟨-, rfl⟩ | ⟨-, rfl⟩⟩
    · exact ⟨m' key, by rw [Function.update_eq_self]⟩
    · exact ⟨some payload, rfl⟩
    · exact ⟨m' key, by rw [Function.update_eq_self]⟩
  | _ => exact h.elim

/-- A removal leaves the key without a value. -/
theorem eq_of_step_delete {p : Partition} {m : Contents} {key : UInt16} {reply : Reply}
    {s' : Option Contents} (hkey : isValidKey key = true)
    (h : Step p (some m) (.call (.deleteItem key)) reply s') :
    s' = some (Function.update m key none) := by
  cases reply with
  | answered result =>
    obtain ⟨m', hmeets, rfl⟩ := h
    rcases hmeets with ⟨hnot, -⟩ | ⟨-, -, rfl⟩
    · exact absurd hkey hnot
    · rfl
  | _ => exact h.elim

/-- Each key that has a value has a single copy of it, the others have none. -/
def Represented (m : Contents) (L : Holdings) : Prop := ∀ key, L.Update key (m key) L

variable {m : Contents} {L L' : Holdings} {key : UInt16} {v : Option Bytes}

theorem represented_empty : empty.Represented fun _ => [] := by
  refine fun key => ⟨.refl key _, ?_, ?_⟩
  · rintro page entry ⟨hmem, -⟩
    cases hmem
  · rintro page entry page' entry' ⟨hmem, -⟩
    cases hmem

namespace Represented

/-- A lookup finds what the map has. -/
theorem eq_of_stored (h : m.Represented L) (hstored : L.Stored key v) : v = m key :=
  (h key).eq_of_stored hstored

/-- A key is settled at a value. -/
theorem update (h : m.Represented L) (hupdate : L.Update key v L') :
    Represented (Function.update m key v) L' := by
  intro other
  by_cases heq : other = key
  · subst heq
    rw [Function.update_self]
    exact hupdate.settled
  · rw [Function.update_of_ne heq]
    exact (h other).carry heq hupdate.others

/-- A key is settled at the value it has. -/
theorem settled (h : m.Represented L) (hstored : L.Stored key v) (hupdate : L.Update key v L') :
    m.Represented L' := by
  have hsame := h.update hupdate
  rwa [h.eq_of_stored hstored, Function.update_eq_self] at hsame

variable {p : Partition} {img : Image}

/-- A removal counts the copy of a key that has a value. -/
theorem copies_eq (h : m.Represented (p.live img)) (key : UInt16) :
    (p.live img).copies key (List.range p.pageCount) = if (m key).isSome then 1 else 0 := by
  have hzero : ∀ page, (∀ entry, ¬(p.live img).Copy key page entry) →
      (p.live img page).countP (·.2.header.key == key) = 0 := by
    intro page hnone
    refine List.countP_eq_zero.mpr fun entry hentry hkey => ?_
    exact hnone entry ⟨hentry, by simpa using hkey⟩
  have hupdate := h key
  rw [Holdings.copies]
  cases hvalue : m key with
  | none =>
    rw [hvalue] at hupdate
    refine List.sum_eq_zero fun n hn => ?_
    obtain ⟨page, -, rfl⟩ := List.mem_map.mp hn
    exact hzero page (hupdate.stored page)
  | some payload =>
    rw [hvalue] at hupdate
    -- The page of the only copy counts one, all other pages none.
    obtain ⟨page, entry, hcopy, -⟩ := hupdate.stored
    have hone : (p.live img page).countP (·.2.header.key == key) = 1 := by
      rw [← List.count_eq_one_of_mem (p.nodup_live img page) hcopy.1]
      refine List.countP_congr fun other hother => ?_
      rw [beq_iff_eq, beq_iff_eq]
      refine ⟨fun hkey => (hupdate.sole _ _ _ _ ⟨hother, hkey⟩ hcopy).2, ?_⟩
      rintro rfl
      exact hcopy.2
    have hsum := List.sum_map_eq_nsmul_single page
      (fun other => (p.live img other).countP (·.2.header.key == key))
      fun other hne (_ : other ∈ List.range p.pageCount) =>
        hzero other fun e he => hne (hupdate.sole _ _ _ _ he hcopy).1
    have hpage := List.mem_range.mpr (p.lt_of_mem_live hcopy.1)
    rw [hsum, List.count_eq_one_of_mem List.nodup_range hpage, one_nsmul]
    exact hone

/-- **An operation does to the live records what it does to the map.** -/
theorem effect (h : m.Represented (p.live img)) {order : List Nat} {purpose : Purpose}
    {result : Except Error Answer} (heffect : purpose.Effect p order (p.live img) result L') :
    ∃ m', m.Meets p purpose result m' ∧ m'.Represented L' := by
  rcases heffect with ⟨hnot, rfl, rfl⟩ | ⟨haccepted, heffect⟩
  · exact ⟨m, Or.inl ⟨hnot, rfl, rfl⟩, h⟩
  · cases purpose with
    | lookup key accepted view =>
      obtain ⟨v, hstored, -, hupdate, rfl⟩ := heffect
      refine ⟨m, Or.inr ⟨haccepted, ?_, rfl⟩, h.settled hstored hupdate⟩
      rw [h.eq_of_stored hstored]
    | store key payload =>
      rcases heffect with ⟨rfl, hupdate⟩ | ⟨rfl, v, hstored, hupdate⟩
      · exact ⟨_, Or.inr ⟨haccepted, Or.inl ⟨rfl, rfl⟩⟩, h.update hupdate⟩
      · exact ⟨m, Or.inr ⟨haccepted, Or.inr ⟨rfl, rfl⟩⟩, h.settled hstored hupdate⟩
    | remove key =>
      obtain ⟨rfl, hupdate⟩ := heffect
      refine ⟨_, Or.inr ⟨haccepted, ?_, rfl⟩, h.update hupdate⟩
      rw [h.copies_eq key]
    | upkeep =>
      obtain ⟨hok, rfl⟩ := heffect
      exact ⟨m, Or.inr ⟨haccepted, hok, rfl⟩, h⟩

end Represented

/-- Before the first scan the flash is not formatted; afterwards its live records represent the map. -/
def Holds (p : Partition) (s : Option Contents) (store : Store) (img : Image) : Prop :=
  match s with
  | none => store.phase = .unready ∧ ¬img.Marked p.pageCount
  | some m => store.phase = .ready ∧ m.Represented (p.live img)

variable {p : Partition} {operation : Operation} {store store' : Store} {img img' : Image}
  {result : Except Error Answer}

/-- A call before the first scan. -/
theorem called_of_unready (hphase : store.phase = .unready) (hunmarked : ¬img.Marked p.pageCount)
    (houtcome : Store.Outcome p .reliable False operation store img result store' img') :
    ∃ s', Called p operation none result s' ∧ Holds p s' store' img' := by
  cases houtcome with
  | failed hconduct => exact absurd rfl hconduct
  | unscanned _ hprogram =>
    refine ⟨none, ?_, hphase, hunmarked⟩
    cases operation <;> first | exact ⟨rfl, rfl⟩ | exact absurd rfl hprogram
  | told hoperation =>
    subst hoperation
    exact ⟨none, ⟨rfl, rfl⟩, hphase, hunmarked⟩
  | scanned hoperation hphase' _ hformat =>
    subst hoperation
    exact ⟨some empty, ⟨rfl, rfl⟩, hphase', hformat hunmarked ▸ represented_empty⟩
  | concluded hbefore => exact absurd hphase hbefore

/-- A call after it. -/
theorem called_of_ready (h : m.Represented (p.live img))
    (hphase : store.phase = .ready ∨ operation = .init)
    (houtcome : Store.Outcome p .reliable True operation store img result store' img') :
    ∃ s', Called p operation (some m) result s' ∧ Holds p s' store' img' := by
  cases houtcome with
  | failed hconduct => exact absurd rfl hconduct
  | unscanned hunready hprogram =>
    rcases hphase with hready | rfl
    · rw [hready] at hunready
      cases hunready
    · exact absurd rfl hprogram
  | told hoperation =>
    subst hoperation
    exact ⟨some m, ⟨rfl, rfl⟩, hphase.resolve_right nofun, h⟩
  | scanned hoperation hphase' hlive =>
    subst hoperation
    exact ⟨some m, ⟨rfl, rfl⟩, hphase', hlive (Or.inl trivial) ▸ h⟩
  | concluded _ hprogram hphase' hbegins heffect =>
    obtain ⟨m', hmeets, hrepresented⟩ := h.effect (hbegins.live_eq trivial ▸ heffect)
    refine ⟨some m', ?_, hphase', hrepresented⟩
    cases operation <;> first | exact ⟨m', hmeets, rfl⟩ | exact absurd rfl hprogram

/-- A request does what its call does. -/
theorem step_of_called {request : Request} {target : Store} {s s' : Option Contents}
    (hcalls : request.Calls p store target operation) (h : Called p operation s result s') :
    Step p s request (.answered result) s' := by
  cases hcalls with
  | reboot => exact h
  | call => exact h

end Contents

namespace Session

variable {p : Partition} {session : Session} {cells : Cells}

/-- A session with a sound store that holds a map. -/
def Holds (p : Partition) (s : Option Contents) (session : Session) (cells : Cells) : Prop :=
  ∃ store, session.Keeps p store ∧ store.Sound p (p.image cells) ∧ p.base + p.size ≤ cells.size ∧
    Contents.Holds p s store (p.image cells)

theorem always_handle_holds (hu : p.Usable) {s : Option Contents} {request : Request}
    (hrequest : request.KeepsGuard) (h : session.Holds p s cells) :
    (session.handle request).Always .reliable (fun _ => True) cells fun answer after =>
      ∃ s', Contents.Step p s request answer.1 s' ∧ answer.2.Holds p s' after := by
  obtain ⟨store, hkeeps, hsound, hfits, hholds⟩ := h
  cases s with
  | none =>
    obtain ⟨target, operation, hcalls⟩ := hrequest.calls p store
    -- Before the first scan the flash need not be anchored, and there are no values to keep.
    have htarget : target.phase = .unready := by
      cases hcalls with
      | reboot => rfl
      | call => exact hholds.1
    refine (always_handle_of_sound hu (by nofun) (Or.inr fun _ => trivial) hkeeps hcalls hsound hfits
      (p.secure_of_unasked _ _) fun _ _ _ _ _ _ => trivial).mono (fun _ _ => trivial) ?_
    rintro ⟨reply, session'⟩ after ⟨result, store', rfl, hkeeps', hsound', hfits', -, houtcome⟩
    obtain ⟨s', hcalled, hholds'⟩ := Contents.called_of_unready htarget hholds.2 houtcome
    exact ⟨s', Contents.step_of_called hcalls hcalled, store', hkeeps', hsound', hfits', hholds'⟩
  | some m =>
    refine (always_handle_of_ready hu hkeeps hrequest hsound hfits hholds.1).mono
      (fun _ _ => trivial) ?_
    rintro ⟨reply, session'⟩ after ⟨target, operation, result, store', hcalls, htarget, rfl, hkeeps',
      hsound', hfits', houtcome⟩
    obtain ⟨s', hcalled, hholds'⟩ := Contents.called_of_ready hholds.2 htarget houtcome
    exact ⟨s', Contents.step_of_called hcalls hcalled, store', hkeeps', hsound', hfits', hholds'⟩

/-- After formatting, the live records represent the empty map. -/
theorem Formatted.holds (hu : p.Usable) {flash : Flash} (h : Formatted p session flash) :
    session.Holds p (some .empty) flash.cells := by
  obtain ⟨store, hkeeps, hsound, hfits, hphase, hlive, -⟩ := h.ready hu
  exact ⟨store, hkeeps, hsound, hfits, hphase, hlive ▸ Contents.represented_empty⟩

/-- **The replies of a run are those of a map**, which is empty after the first scan. -/
theorem refines_map (hu : p.Usable) (hsession : session.Keeps p (.ofPartition p)) {flash : Flash}
    (hflash : flash.Follows .reliable) (hfits : p.base + p.size ≤ flash.cells.size)
    (hunmarked : ¬(p.image flash.cells).Marked p.pageCount) {requests : List Request}
    (hrequests : ∀ request ∈ requests, request.KeepsGuard) :
    ∃ s, Trace (Contents.Step p) none requests
      ((session.serve requests).run Flash.device flash).1.1 s := by
  have hfirst : session.Holds p none flash.cells :=
    ⟨_, hsession, ⟨rfl, nofun⟩, hfits, rfl, hunmarked⟩
  have hserve := always_serve (Contents.Step p) (Holds p)
    (fun _ _ _ _ hrequest h => always_handle_holds hu hrequest h) hrequests hfirst
  obtain ⟨⟨s, htrace, -⟩, -⟩ := Flash.run_of_always hflash hserve
  exact ⟨s, htrace⟩

/-- A value is written, and read after a reboot. -/
theorem refines_map_small :
    let flash := Flash.erased fun _ => .granted
    let requests : List Request :=
      [.call .init, .call (.writeItem 2 [7]), .reboot, .call (.readItem 2 [0, 0])]
    Partition.small.Usable ∧ small.Keeps .small (.ofPartition .small) ∧ flash.Follows .reliable ∧
      Partition.small.base + Partition.small.size ≤ flash.cells.size ∧
      ¬(Partition.small.image flash.cells).Marked Partition.small.pageCount ∧
      ∃ s, Trace (Contents.Step .small) none requests
        ((small.serve requests).run Flash.device flash).1.1 s := by
  have hflash : (Flash.erased fun _ => .granted).Follows .reliable := fun _ => trivial
  have hfits : Partition.small.base + Partition.small.size ≤
      (Flash.erased fun _ => .granted).cells.size := by
    decide
  have hrequests : ∀ request ∈ [Request.call .init, .call (.writeItem 2 [7]), .reboot,
      .call (.readItem 2 [0, 0])], request.KeepsGuard := by
    simp [Request.KeepsGuard, Operation.KeepsGuard]
  exact ⟨Partition.usable_small, keeps_small, hflash, hfits, Partition.small.unmarked_erased _,
    refines_map Partition.usable_small keeps_small hflash hfits (Partition.small.unmarked_erased _) hrequests⟩

end Session

end RingStore
