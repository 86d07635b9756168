import Mathlib.Data.Finset.Card
import RingStore.Proofs.Engine.Allocate
import RingStore.Proofs.FaultFree

/-!
# When a write finds no space

A write of a new value fails for want of space exactly if no page has room for its record and none can
be opened: every page is active or full, and the active one, if there is one, has too few bytes free.
Such a write has not changed a byte of the flash, and the store is as it was.

Every full page holds a live record, and no two of them one of the same key.  So while there are two
pages more than keys, some page can always be opened.

## Main statements

* `Contents.Represented.pageCount_le`: without room, all pages but one hold records of different keys.
* `Session.outOfSpace_iff_exhausted`: when a write finds no space, and what it then leaves.
-/

namespace RingStore

open RingStore.Partition (Holdings)

variable {p : Partition} {m : Contents} {key : UInt16} {payload : Bytes}

/-- **Without room, all pages but one hold records of different keys.** -/
theorem Contents.Represented.pageCount_le {t : Table} {img : Image} {needed : Nat}
    (h : m.Represented (p.live img)) (hmirrors : t.Mirrors p img)
    (hexhausted : Engine.Exhausted p needed t) {keys : Finset UInt16}
    (hkeys : ∀ key, m key ≠ none → key ∈ keys) : p.pageCount ≤ keys.card + 1 := by
  have hheld : ∀ page ∈ (Finset.range p.pageCount).erase t.head,
      ∃ key ∈ keys, ∃ e, (p.live img).Copy key page e := by
    intro page hpage
    obtain ⟨hne, hlt⟩ := Finset.mem_erase.mp hpage
    obtain ⟨entry, hentry⟩ := Table.exists_entry (hmirrors.count_eq ▸ Finset.mem_range.mp hlt)
    have hfull : entry.kind = .full := by
      obtain ⟨herased, hunavailable⟩ := hexhausted.used page entry hentry
      cases hkind : entry.kind with
      | erased => exact absurd hkind herased
      | active => exact absurd (hmirrors.ordered.eq_head page entry hentry hkind) hne
      | full => rfl
      | unavailable => exact absurd hkind hunavailable
    obtain ⟨e, he⟩ := List.exists_mem_of_ne_nil _ (hmirrors.live_ne_nil hentry hfull)
    refine ⟨e.2.header.key, hkeys _ fun hnone => ?_, e, he, rfl⟩
    have hstored := (h e.2.header.key).stored
    rw [hnone] at hstored
    exact hstored page e ⟨he, rfl⟩
  choose! held hmem hcopy using hheld
  -- A key has a single copy, so different pages hold different keys.
  have hcard := Finset.card_le_card_of_injOn held hmem fun page hpage other hother heq => by
    obtain ⟨e, he⟩ := hcopy page hpage
    obtain ⟨e', he'⟩ := hcopy other hother
    exact ((h (held page)).sole page e other e' he (heq ▸ he')).1
  have hhead : t.head ∈ Finset.range p.pageCount :=
    Finset.mem_range.mpr (hmirrors.count_eq ▸ hmirrors.ordered.head_lt)
  rw [Finset.card_erase_of_mem hhead, Finset.card_range] at hcard
  omega

namespace Session

variable {session : Session} {store : Store} {cells : Cells} {flash : Flash}

/-- A write is accepted if its key and its payload are in order. -/
abbrev Accepts (p : Partition) (key : UInt16) (payload : Bytes) : Prop :=
  isValidKey key = true ∧ payload ≠ [] ∧ payload.length ≤ p.maxPayload

/-- A write to a store that is ready runs its engine program. -/
theorem handle_write_of_ready (hsession : session.Keeps p store) (hsound : store.Sound p (p.image cells))
    (hphase : store.phase = .ready) :
    session.handle (.call (.writeItem key payload)) =
      ((fun _ => Answer.done) <$> Engine.writeItem p key payload).run.run store.table >>= fun result =>
        pure (.answered result.1,
          { session with store := some ⟨p, result.2, Store.phaseAfter result.1⟩ }) :=
  handle_call_of_ready hsession hsound.partition_eq hphase
    (show (Operation.writeItem key payload).KeepsGuard from trivial) rfl

section Writes

variable (hu : p.Usable) (hsession : session.Keeps p store) (hsound : store.Sound p (p.image cells))
  (hfits : p.base + p.size ≤ cells.size) (hphase : store.phase = .ready)
  (hm : m.Represented (p.live (p.image cells))) (hargs : Accepts p key payload)

include hu hsession hsound hfits hphase hm hargs

/-- A write of the value that a key has succeeds. -/
theorem always_write_of_stored (hstored : m key = some payload) :
    (session.handle (.call (.writeItem key payload))).Always .reliable (fun _ => True) cells
      fun answer _ => answer.1 = .answered (.ok .done) := by
  have hpeeks : EngineM.Peeks p ((fun _ => .done) <$> Engine.writeItem p key payload) store.table
      (p.image cells) (fun (answer : Answer) _ => answer = .done) fun _ _ => False :=
    .map _ ((Engine.peeks_writeItem_of_stored hu (hsound.mirrors hphase) (hm key) hargs hstored).mono
      (fun _ _ _ => rfl) fun _ _ hfail => hfail)
  rw [handle_write_of_ready hsession hsound hphase, FlashM.always_bind]
  refine ((hpeeks cells ⟨hfits, rfl⟩).always trivial).mono (fun _ hc => hc) ?_
  rintro ⟨error | answer, t'⟩ after ⟨hresult, rfl⟩
  · exact hresult.elim
  · obtain rfl := hresult
    rfl

/-- **A write that finds no room fails** and leaves the flash and the store as they were. -/
theorem always_write_of_exhausted (hnew : m key ≠ some payload)
    (hexhausted : Engine.Exhausted p (headerSize + payload.length) store.table) :
    (session.handle (.call (.writeItem key payload))).Always .reliable (fun _ => True) cells
      fun answer after => answer = (.answered (.error .outOfSpace), session) ∧ after = cells := by
  have hpeeks : EngineM.Peeks p ((fun _ => .done) <$> Engine.writeItem p key payload) store.table
      (p.image cells) (fun (_ : Answer) _ => False) fun error t' =>
        error = .outOfSpace ∧ t' = store.table :=
    .map _ (Engine.peeks_writeItem_of_exhausted hu (hsound.mirrors hphase) (hm key) hargs hnew
      hexhausted)
  rw [handle_write_of_ready hsession hsound hphase, FlashM.always_bind]
  refine ((hpeeks cells ⟨hfits, rfl⟩).always trivial).mono (fun _ hc => hc) ?_
  rintro ⟨error | answer, t'⟩ after ⟨hresult, rfl⟩
  · obtain ⟨rfl, rfl⟩ := hresult
    have hstore : some ⟨p, store.table, .ready⟩ = session.store := by
      rw [hsession.store_eq, ← hsound.partition_eq, ← hphase]
    refine ⟨?_, rfl⟩
    show (_, { session with store := some ⟨p, store.table, .ready⟩ }) = (_, session)
    rw [hstore]
  · exact hresult.elim

/-- **A write that finds room succeeds.** -/
theorem always_write_of_room (hnew : m key ≠ some payload)
    (hroom : ¬Engine.Exhausted p (headerSize + payload.length) store.table) :
    (session.handle (.call (.writeItem key payload))).Always .reliable (fun _ => True) cells
      fun answer _ => answer.1 = .answered (.ok .done) := by
  have hmirrors := hsound.mirrors hphase
  have hwrite : EngineM.Ensures p .reliable (p.Secure .reliable True fun _ => True)
      ((fun _ => .done) <$> Engine.writeItem p key payload) store.table (p.image cells)
      (fun (answer : Answer) _ _ => answer = .done) EngineM.noError :=
    .map _ ((Engine.ensures_writeItem_of_room hu hmirrors (hm key) hargs hnew hroom).mono
      (fun _ _ _ _ => rfl) fun _ _ _ hfail => hfail)
  rw [handle_write_of_ready hsession hsound hphase, FlashM.always_bind]
  refine (hwrite cells ⟨hfits, rfl⟩ (hmirrors.secure _ _)).mono (fun _ _ => trivial) ?_
  rintro ⟨error | answer, t'⟩ after hresult
  · rcases hresult with ⟨-, hconduct⟩ | hfalse
    · exact absurd rfl hconduct
    · exact hfalse.elim
  · obtain rfl := hresult
    rfl

end Writes

/-- **A write of a new value finds no space exactly if no page is erased or waits for its erase and no
active page has as many bytes free as the record takes.**  Otherwise it succeeds.  If it finds none,
the flash and the store, its page table included, are as before.  While there are two pages more than
keys, every write succeeds. -/
theorem outOfSpace_iff_exhausted (hu : p.Usable) (hformatted : session.Formatted p flash)
    (hflash : flash.Follows .reliable) {requests : List Request}
    (hrequests : ∀ request ∈ requests, request.Stays) (hargs : Accepts p key payload) :
    let run := (session.serve requests).run Flash.device flash
    let write := (run.1.2.handle (.call (.writeItem key payload))).run Flash.device run.2
    ∃ store m, run.1.2.store = some store ∧
      Trace (Contents.Step p) (some .empty) requests run.1.1 (some m) ∧
      (m key ≠ some payload →
        (write.1.1 = .answered (.error .outOfSpace) ↔
          Engine.Exhausted p (headerSize + payload.length) store.table) ∧
        (write.1.1 ≠ .answered (.error .outOfSpace) → write.1.1 = .answered (.ok .done)) ∧
        (write.1.1 = .answered (.error .outOfSpace) →
          write.2.cells = run.2.cells ∧ write.1.2 = run.1.2)) ∧
      ∀ keys : Finset UInt16, (∀ k, m k ≠ none → k ∈ keys) → keys.card + 2 ≤ p.pageCount →
        write.1.1 = .answered (.ok .done) := by
  obtain ⟨m, htrace, ⟨store, hkeeps, hsound, hfits, hphase, hm⟩, hfollows⟩ :=
    (hformatted.holds hu).serve hu hflash hrequests
  have hroom := fun hnew hroom => (Flash.run_of_always hfollows
    (always_write_of_room hu hkeeps hsound hfits hphase hm hargs hnew hroom)).1
  have hexhausted := fun hnew hexhausted => (Flash.run_of_always hfollows
    (always_write_of_exhausted hu hkeeps hsound hfits hphase hm hargs hnew hexhausted)).1
  have hne : (Reply.answered (.ok .done)) ≠ .answered (.error .outOfSpace) := nofun
  refine ⟨store, m, hkeeps.store_eq, htrace, fun hnew => ?_, fun keys hkeys hcard => ?_⟩
  · by_cases hspace : Engine.Exhausted p (headerSize + payload.length) store.table
    · obtain ⟨hanswer, hcells⟩ := hexhausted hnew hspace
      have hreply := congrArg Prod.fst hanswer
      exact ⟨iff_of_true hreply hspace, fun hnot => absurd hreply hnot,
        fun _ => ⟨hcells, congrArg Prod.snd hanswer⟩⟩
    · have hreply := hroom hnew hspace
      exact ⟨iff_of_false (hreply ▸ hne) hspace, fun _ => hreply,
        fun hnot => absurd (hreply.symm.trans hnot) hne⟩
  · by_cases hstored : m key = some payload
    · exact (Flash.run_of_always hfollows
        (always_write_of_stored hu hkeeps hsound hfits hphase hm hargs hstored)).1
    · refine hroom hstored fun hspace => ?_
      have hle := hm.pageCount_le (hsound.mirrors hphase) hspace hkeys
      omega

/-- Three pages are filled one after the other.  A further value finds no space once all are full, and
there is room for it after the first one. -/
theorem outOfSpace_iff_exhausted_trio :
    let start := formattingOf .trio fun _ => .granted
    let fill : List Request := [.call (.writeItem 10 (.replicate 7 1)),
      .call (.put .direct 11 ⟨.bytes, .replicate 7 2⟩), .call (.writeItem 12 (.replicate 7 3))]
    let full := (start.1.2.serve fill).run Flash.device start.2
    let refused := (full.1.2.handle (.call (.writeItem 13 [4]))).run Flash.device full.2
    let first := (start.1.2.serve (fill.take 1)).run Flash.device start.2
    let granted := (first.1.2.handle (.call (.writeItem 13 [4]))).run Flash.device first.2
    Partition.trio.Usable ∧ Formatted .trio start.1.2 start.2 ∧ start.2.Follows .reliable ∧
      (∀ request ∈ fill, request.Stays) ∧ Accepts .trio 13 [4] ∧
      (∃ store m, full.1.2.store = some store ∧
        Trace (Contents.Step .trio) (some .empty) fill full.1.1 (some m) ∧ m 13 ≠ some [4] ∧
        refused.1.1 = .answered (.error .outOfSpace) ∧
        Engine.Exhausted .trio (headerSize + [4].length) store.table ∧
        refused.2.cells = full.2.cells ∧ refused.1.2 = full.1.2) ∧
      ∃ m, Trace (Contents.Step .trio) (some .empty) (fill.take 1) first.1.1 (some m) ∧
        (∀ k, m k ≠ none → k ∈ ({10} : Finset UInt16)) ∧
        ({10} : Finset UInt16).card + 2 ≤ Partition.trio.pageCount ∧
        granted.1.1 = .answered (.ok .done) := by
  intro start fill full refused first granted
  have hformatted : Formatted .trio start.1.2 start.2 :=
    formatted_of_done (Reply.eq_done (by decide +kernel))
  have hflash : start.2.Follows .reliable := follows_formattingOf .trio fun _ => trivial
  have hrequests : ∀ request ∈ fill, request.Stays := by
    simp [fill, Request.Stays]
  have hargs : Accepts .trio 13 [4] := by decide
  obtain ⟨store, m, hstore, htrace, hspace, -⟩ :=
    outOfSpace_iff_exhausted Partition.usable_trio hformatted hflash hrequests hargs
  have hnew : m 13 ≠ some [4] := by
    generalize full.1.1 = replies at htrace
    dsimp only [fill] at htrace
    rcases htrace with _ | ⟨h₁, _ | ⟨h₂, _ | ⟨h₃, _ | _⟩⟩⟩
    obtain ⟨u, rfl⟩ := Contents.exists_of_step_store rfl h₁
    obtain ⟨v, rfl⟩ := Contents.exists_of_step_store rfl h₂
    obtain ⟨w, hlast⟩ := Contents.exists_of_step_store rfl h₃
    rw [Option.some.inj hlast, Function.update_of_ne (by decide), Function.update_of_ne (by decide),
      Function.update_of_ne (by decide)]
    exact (Option.some_ne_none _).symm
  have hrefused : refused.1.1 = .answered (.error .outOfSpace) := Reply.eq_error (by decide +kernel)
  obtain ⟨hiff, -, hsame⟩ := hspace hnew
  obtain ⟨-, m', -, htrace', -, hbound⟩ := outOfSpace_iff_exhausted Partition.usable_trio hformatted
    hflash (fun request hrequest => hrequests request (List.mem_of_mem_take hrequest)) hargs
  have hkeys : ∀ k, m' k ≠ none → k ∈ ({10} : Finset UInt16) := by
    intro k hk
    generalize first.1.1 = replies at htrace'
    dsimp only [fill, List.take] at htrace'
    rcases htrace' with _ | ⟨h₁, _ | _⟩
    obtain ⟨u, hlast⟩ := Contents.exists_of_step_store rfl h₁
    rw [Option.some.inj hlast] at hk
    rw [Finset.mem_singleton]
    by_contra hne
    exact hk (Function.update_of_ne hne _ _)
  exact ⟨Partition.usable_trio, hformatted, hflash, hrequests, hargs,
    ⟨store, m, hstore, htrace, hnew, hrefused, hiff.mp hrefused, hsame hrefused⟩, m', htrace', hkeys,
    Nat.le_refl 3, hbound _ hkeys (Nat.le_refl 3)⟩

end Session

end RingStore
