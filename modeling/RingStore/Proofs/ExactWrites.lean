import RingStore.Proofs.Bounds

/-!
# Writes that succeed

A flash clears bits when it is programmed and sets them only when it is erased, so a write that the chip
has granted may leave other bytes than it was asked for.  The store never asks for such a write: records
go to unprogrammed cells, a tombstone is all zeros, and a status byte has the bits of every later one.
All of this rests on the page table, which has to be right after accesses were refused and torn.

## Main statements

* `Session.writes_exact`: after a granted write, the requested bytes stand in the flash.
-/

namespace RingStore

/-- The address and the bytes of a write that was granted. -/
def Step.granted? {σ : Type} : Step σ → Option (UInt32 × Bytes)
  | ⟨.write start bytes, true, _⟩ => some (start, bytes)
  | _ => none

theorem Step.exists_of_granted {σ : Type} {steps : List (Step σ)} {start : UInt32} {bytes : Bytes}
    (h : (start, bytes) ∈ steps.filterMap granted?) :
    ∃ after, ⟨.write start bytes, true, after⟩ ∈ steps := by
  obtain ⟨⟨access, answer, after⟩, hmem, hgranted⟩ := List.mem_filterMap.mp h
  cases access with
  | read start length => cases hgranted
  | write start bytes =>
    cases answer <;> cases hgranted
    exact ⟨after, hmem⟩
  | erase start stop => cases hgranted

/-- A call that keeps the guard leaves the store at its place. -/
theorem Request.KeepsGuard.stays {request : Request} (h : request.KeepsGuard) : request.Stays := by
  cases request with
  | create placement => exact h
  | reboot => trivial
  | call operation => trivial

namespace Session

variable {p : Partition} {session : Session} {requests : List Request}

/-- **A granted write leaves the bytes that were asked for**, in every run of a store on a usable
partition.  The write is one of a status byte, a record or a tombstone, with `0xFF` on both sides of it,
and these bytes stand in the flash afterwards.  The flash may begin with any contents, and accesses may
be refused and torn. -/
theorem writes_exact (hu : p.Usable) (hsession : session.Keeps p (.ofPartition p))
    (hrequests : ∀ request ∈ requests, request.KeepsGuard) (flash : Flash) {start : UInt32}
    {bytes : Bytes} {after : Flash}
    (hwrite : (⟨.write start bytes, true, after⟩ : Step Flash) ∈
      (session.serve requests).steps Flash.device flash) :
    ∃ position requested front back, p.Requests position requested ∧
      start.toNat + front = position ∧
      bytes = List.replicate front 0xFF ++ requested ++ List.replicate back 0xFF ∧
      after.cells.slice position requested.length = requested := by
  have habides := abides_serve (hu.workable True)
    (fun request hrequest => ⟨(hrequests request hrequest).stays, fun _ => hrequests request hrequest⟩)
    (hsession.inRange True flash.cells)
  have hanswers : ∀ (access : Access) (flash : Flash), Answers True flash.cells access
      (Flash.device access flash).1 (Flash.device access flash).2.cells := fun access flash =>
    have hresponds := Flash.responds_device flash.follows_tearing access
    ⟨hresponds.fills, fun _ => hresponds⟩
  obtain ⟨-, hsteps⟩ := FlashM.run_of_abides Flash.cells hanswers habides
  obtain ⟨position, requested, hpads, hexact⟩ := hsteps _ hwrite
  have hrequest := hpads.request
  obtain ⟨front, back, hstart, hbytes⟩ := hpads.padding
  rw [hrequest.spans.toNat_busAddress hu] at hstart hexact
  exact ⟨position, requested, front, back, hrequest, hstart, hbytes, hexact trivial rfl⟩

/-- A record is torn, and its length byte is missing.  The next write scans the partition again, which
closes the page, and its record goes to the other page. -/
theorem writes_exact_small :
    let flash := Flash.erased fun n => if n = 3 then .refused 1 3 else .granted
    let requests : List Request := [.call .init, .call (.writeItem 5 [7]), .call (.writeItem 5 [9])]
    Partition.small.Usable ∧ small.Keeps .small (.ofPartition .small) ∧
      (∀ request ∈ requests, request.KeepsGuard) ∧
      ∃ after : Flash, ⟨.write 9 [1, 9, 5, 0, 9], true, after⟩ ∈
          (small.serve requests).steps Flash.device flash ∧
        ∃ position requested front back, Partition.small.Requests position requested ∧
          (9 : UInt32).toNat + front = position ∧
          [1, 9, 5, 0, 9] = List.replicate front 0xFF ++ requested ++ List.replicate back 0xFF ∧
          after.cells.slice position requested.length = requested := by
  intro flash requests
  have hrequests : ∀ request ∈ requests, request.KeepsGuard := by
    simp [requests, Request.KeepsGuard, Operation.KeepsGuard]
  obtain ⟨after, hwrite⟩ : ∃ after, ⟨.write 9 [1, 9, 5, 0, 9], true, after⟩ ∈
      (small.serve requests).steps Flash.device flash := Step.exists_of_granted (by decide +kernel)
  exact ⟨Partition.usable_small, keeps_small, hrequests, after, hwrite,
    writes_exact Partition.usable_small keeps_small hrequests flash hwrite⟩

end Session

end RingStore
