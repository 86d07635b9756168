import RingStore.Proofs.Engine.Fine
import RingStore.Proofs.FaultFree

/-!
# The granularities of a chip

A chip may be read and programmed in units of any size that divides the page size.  The store cannot be
told from one on a chip that is accessed byte by byte, neither by its callers nor by its flash: the
replies are the same, the page table is the same, and so are the bytes of the flash after every access.

A widened write covers bytes next to those that it is meant for: other records, or the status byte.  It
programs ones there.  A widened read covers them as well, and they are cut off.  Both stay within their
page.

## Main statements

* `Session.agrees_serve`: a run of calls and reboots does the same at any granularity.
* `Session.granularity_transparent`: the statement about the run on a flash.
-/

namespace RingStore

/-! ## Stores -/

namespace Store

variable {p : Partition} {store : Store} {operation : Operation}

/-- The store on a chip that is accessed byte by byte. -/
def fine (store : Store) : Store := { store with partition := store.partition.fine }

/-- A store of a partition whose table has no more pages than the partition. -/
structure Within (p : Partition) (store : Store) : Prop where
  partition_eq : store.partition = p
  count_le : store.table.count ≤ p.pageCount

theorem within_ofPartition (p : Partition) : (ofPartition p).Within p := ⟨rfl, Nat.zero_le _⟩

/-- Calls that have the same result and leave the same table and phase. -/
abbrev SameCall (p : Partition) (call call' : Except Error Answer × Store) : Prop :=
  call' = (call.1, call.2.fine) ∧ call.2.Within p

/-- The program of an operation, and what it makes of the store. -/
theorem agrees_program (hu : p.Usable) {t : Table} (ht : t.count ≤ p.pageCount)
    {x : Partition → EngineM Answer} (hx : operation.program? = some x)
    (phaseAfter : Except Error Answer → Phase) :
    FlashM.Agrees p (SameCall p)
      ((x p).run.run t >>= fun result =>
        pure (result.1, (⟨p, result.2, phaseAfter result.1⟩ : Store)))
      ((x p.fine).run.run t >>= fun result =>
        pure (result.1, (⟨p.fine, result.2, phaseAfter result.1⟩ : Store))) := by
  refine (Operation.agrees_program hu hx t ht).bind ?_
  rintro ⟨error | answer, t'⟩ _ ⟨rfl, ht'⟩
  · exact FlashM.agrees_pure ⟨rfl, rfl, ht'⟩
  · exact FlashM.agrees_pure ⟨rfl, rfl, ht'⟩

theorem agrees_guarded (hu : p.Usable) (h : store.Within p) {x : Partition → EngineM Answer}
    (hx : operation.program? = some x) :
    FlashM.Agrees p (SameCall p) ((guarded x).run.run store) ((guarded x).run.run store.fine) := by
  obtain ⟨partition, table, phase⟩ := store
  obtain ⟨rfl, ht⟩ := h
  cases phase with
  | unready =>
    rw [run_guarded_unready rfl, run_guarded_unready rfl]
    exact FlashM.agrees_pure ⟨rfl, rfl, ht⟩
  | ready =>
    rw [run_guarded_ready rfl, run_guarded_ready rfl]
    exact agrees_program hu ht hx phaseAfter
  | faulted =>
    -- The scan comes first, and the program runs on the table that it has left.
    rw [run_guarded_faulted rfl, run_guarded_faulted rfl]
    refine (Engine.agrees_load hu table ht).bind ?_
    rintro ⟨error | _, t'⟩ _ ⟨rfl, ht'⟩
    · exact FlashM.agrees_pure ⟨rfl, rfl, ht'⟩
    · dsimp only
      rw [run_guarded_ready rfl, run_guarded_ready rfl]
      exact agrees_program hu ht' hx phaseAfter

theorem agrees_init (hu : p.Usable) (h : store.Within p) :
    FlashM.Agrees p (SameCall p) (Operation.init.run.run.run store)
      (Operation.init.run.run.run store.fine) := by
  obtain ⟨partition, table, phase⟩ := store
  obtain ⟨rfl, ht⟩ := h
  rw [run_init, run_init]
  refine (Engine.agrees_load hu table ht).bind ?_
  rintro ⟨error | _, t'⟩ _ ⟨rfl, ht'⟩
  · exact FlashM.agrees_pure ⟨rfl, rfl, ht'⟩
  · exact FlashM.agrees_pure ⟨rfl, rfl, ht'⟩

/-- **A call** does the same at any granularity, on either route. -/
theorem agrees_run (hu : p.Usable) (h : store.Within p) (operation : Operation) :
    FlashM.Agrees p (SameCall p) (operation.run.run.run store)
      (operation.run.run.run store.fine) := by
  by_cases hguard : operation.KeepsGuard
  · cases hx : operation.program? with
    | some x =>
      rw [operation.run_eq_guarded hguard hx]
      exact agrees_guarded hu h hx
    | none =>
      cases operation with
      | init => exact agrees_init hu h
      | maxPayload => exact FlashM.agrees_pure ⟨rfl, h⟩
      | _ => cases hx
  · obtain ⟨x, hx⟩ := operation.exists_program hguard
    obtain ⟨partition, table, phase⟩ := store
    obtain ⟨rfl, ht⟩ := h
    rw [operation.run_eq_direct hguard hx]
    exact agrees_program hu ht hx fun _ => phase

end Store

/-! ## Sessions -/

/-- The same numbers are accepted at any granularity. -/
theorem Store.create_fine {chip : Chip} {offset size : Nat} {pageSize : Option Nat} {p : Partition}
    (h : Store.create chip offset size pageSize = .ok (.ofPartition p)) :
    Store.create chip.fine offset size pageSize = .ok (.ofPartition p.fine) := by
  unfold Store.create at h ⊢
  have heq : chip.fine.eraseSize = chip.eraseSize := rfl
  rw [heq]
  cases hcreate : Partition.create chip offset size (pageSize.getD chip.eraseSize) with
  | error error =>
    rw [hcreate] at h
    cases h
  | ok q =>
    rw [hcreate] at h
    obtain rfl : q = p := congrArg Store.partition (Except.ok.inj h)
    obtain ⟨hchip, hbase, hpage, hsize⟩ := Partition.create_eq_ok_iff.mp hcreate
    have hfine : Partition.create chip.fine offset size (pageSize.getD chip.eraseSize) = .ok q.fine :=
      Partition.create_eq_ok_iff.mpr ⟨congrArg Chip.fine hchip, hbase, hpage, hsize⟩
    rw [hfine]
    rfl

namespace Session

variable {p : Partition} {session : Session} {store : Store} {request : Request}
  {requests : List Request} {flash : Flash}

/-- The session on a chip that is accessed byte by byte. -/
def fine (session : Session) : Session :=
  { session with
    chip := session.chip.fine
    store := session.store.map Store.fine }

theorem Keeps.fine (h : session.Keeps p store) : session.fine.Keeps p.fine store.fine := by
  refine ⟨Store.create_fine h.newStore_eq, ?_⟩
  show session.store.map Store.fine = some store.fine
  rw [h.store_eq]
  rfl

/-- A session with a store of the partition. -/
def Within (p : Partition) (session : Session) : Prop :=
  ∃ store, session.Keeps p store ∧ store.Within p

theorem agrees_callStore (hu : p.Usable) (hsession : session.newStore = .ok (.ofPartition p))
    (h : store.Within p) (operation : Operation) :
    FlashM.Agrees p
      (fun answer answer' => answer' = (answer.1, answer.2.fine) ∧ answer.2.Within p)
      (session.callStore store operation) (session.fine.callStore store.fine operation) := by
  refine (Store.agrees_run hu h operation).bind ?_
  rintro ⟨result, store'⟩ _ ⟨rfl, hstore'⟩
  exact FlashM.agrees_pure ⟨rfl, store', ⟨hsession, rfl⟩, hstore'⟩

/-- A request does the same at any granularity. -/
theorem agrees_handle (hu : p.Usable) (hrequest : request.Stays) (h : session.Within p) :
    FlashM.Agrees p
      (fun answer answer' => answer' = (answer.1, answer.2.fine) ∧ answer.2.Within p)
      (session.handle request) (session.fine.handle request) := by
  obtain ⟨store, hsession, hstore⟩ := h
  cases request with
  | create placement => exact hrequest.elim
  | reboot =>
    simp only [handle, hsession.newStore_eq, hsession.fine.newStore_eq]
    exact agrees_callStore hu hsession.newStore_eq (Store.within_ofPartition p) .init
  | call operation =>
    simp only [handle, hsession.store_eq, hsession.fine.store_eq]
    exact agrees_callStore hu hsession.newStore_eq hstore operation

/-- **A run** does the same at any granularity. -/
theorem agrees_serve (hu : p.Usable) (hrequests : ∀ request ∈ requests, request.Stays)
    (h : session.Within p) :
    FlashM.Agrees p
      (fun answer answer' => answer' = (answer.1, answer.2.fine) ∧ answer.2.Within p)
      (session.serve requests) (session.fine.serve requests) := by
  induction requests generalizing session with
  | nil => exact FlashM.agrees_pure ⟨rfl, h⟩
  | cons request rest ih =>
    obtain ⟨hrequest, hrest⟩ := List.forall_mem_cons.mp hrequests
    refine (agrees_handle hu hrequest h).bind ?_
    rintro ⟨reply, session₁⟩ _ ⟨rfl, h₁⟩
    refine (ih hrest h₁).bind ?_
    rintro ⟨replies, session₂⟩ _ ⟨rfl, h₂⟩
    exact FlashM.agrees_pure ⟨rfl, h₂⟩

/-- **The granularities of the chip are not seen.**  The partition is any that `Partition.create`
accepts, whose end lies below `2 ^ 32` and whose page size is a multiple of both granularities.  The
flash may hold anything, as long as it reaches as far as the partition, and the accesses with given
numbers are refused without effect.  A store that is used in the same way on a chip that is read and
programmed byte by byte gives the same replies, has the same page table and phase in the end, and takes
the flash through the same states, access by access.  The requests are any calls and reboots, so the
tables are the same after each of them. -/
theorem granularity_transparent (hu : p.Usable) (hsession : session.Keeps p (.ofPartition p))
    (hrequests : ∀ request ∈ requests, request.Stays) (hflash : flash.Follows .refusing)
    (hfits : p.base + p.size ≤ flash.cells.size) :
    let coarse := (session.serve requests).run Flash.device flash
    let fine := (session.fine.serve requests).run Flash.device flash
    session.fine.Keeps p.fine (.ofPartition p.fine) ∧
      fine.1.1 = coarse.1.1 ∧
      (∃ store, coarse.1.2.Keeps p store ∧ fine.1.2.Keeps p.fine store.fine) ∧
      fine.2 = coarse.2 ∧
      (session.fine.serve requests).visited Flash.device flash =
        (session.serve requests).visited Flash.device flash := by
  obtain ⟨⟨hanswer, store, hstore, -⟩, hlast, hvisited⟩ :=
    agrees_serve hu hrequests ⟨_, hsession, Store.within_ofPartition p⟩ flash hflash hfits
  intro coarse fine
  have hfine : fine.1 = (coarse.1.1, coarse.1.2.fine) := hanswer
  rw [hfine]
  exact ⟨hsession.fine, rfl, ⟨store, hstore, hstore.fine⟩, hlast.symm, hvisited.symm⟩

end Session

/-! ## Granularities that are no powers of two -/

/-- Four pages of fifteen bytes that are read by three bytes and programmed by five. -/
def Partition.uneven : Partition where
  chip := ⟨3, 5, 15, 64, .xorSum⟩
  base := 0
  pageSize := 15
  pageCount := 4
  eraseSize_pos := by decide
  eraseSize_dvd := by decide
  minPageSize_le := by decide
  pageSize_le := by decide
  pageSize_dvd := by decide
  pageCount_pos := by decide
  pageCount_le := by decide
  end_le := by decide

/-- A session that has created a store there. -/
def Session.uneven : Session := .ofPartition .uneven

/-- A value is written to a flash that holds garbage, and written anew.  The drop of the first copy is
refused, and the next call has to scan the partition again. -/
theorem Session.granularity_transparent_uneven :
    let flash : Flash := ⟨.replicate 60 0x5A, fun n => if n = 13 then .refused 0 0 else .granted⟩
    let requests : List Request := [.call .init, .call (.writeItem 5 [1, 2]),
      .call (.writeItem 5 [3]), .reboot, .call (.readItem 5 [0, 0]), .call (.deleteItem 5)]
    let coarse := (uneven.serve requests).run Flash.device flash
    let fine := (uneven.fine.serve requests).run Flash.device flash
    Partition.uneven.Usable ∧ uneven.Keeps .uneven (.ofPartition .uneven) ∧
      (∀ request ∈ requests, request.Stays) ∧ flash.Follows .refusing ∧
      Partition.uneven.base + Partition.uneven.size ≤ flash.cells.size ∧
      coarse.1.1.map Reply.error? = [none, none, some .ioFailure, none, none, none] ∧
      uneven.fine.Keeps Partition.uneven.fine (.ofPartition Partition.uneven.fine) ∧
      fine.1.1 = coarse.1.1 ∧
      (∃ store, coarse.1.2.Keeps .uneven store ∧ fine.1.2.Keeps Partition.uneven.fine store.fine) ∧
      fine.2 = coarse.2 ∧
      (uneven.fine.serve requests).visited Flash.device flash =
        (uneven.serve requests).visited Flash.device flash := by
  intro flash requests
  have hu : Partition.uneven.Usable := ⟨by decide, by decide, by decide⟩
  have hsession : uneven.Keeps .uneven (.ofPartition .uneven) := keeps_ofPartition .uneven
  have hrequests : ∀ request ∈ requests, request.Stays := by simp [requests, Request.Stays]
  have hflash : flash.Follows .refusing := Conduct.refusing_allows_at 13
  have hfits : Partition.uneven.base + Partition.uneven.size ≤ flash.cells.size := by decide
  exact ⟨hu, hsession, hrequests, hflash, hfits, by decide +kernel,
    granularity_transparent hu hsession hrequests hflash hfits⟩

end RingStore
