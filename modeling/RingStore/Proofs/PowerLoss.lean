import RingStore.Proofs.Session

/-!
# A power loss never makes a scan format data away

A scan formats a partition in which no page carries the ring-start marker.  Once a partition was
formatted, there is no instant between two accesses at which that would lose a record: wherever a run is
cut off, and whichever writes and erases are torn before, a page carries the marker or no record is live.

The flash stays `Image.Anchored` at all these instants, in the midst of a hand-over of the marker too.

## Main statements

* `Session.marked_or_empty`: after each access of a run, the marker is there or no record is live.
-/

namespace RingStore

namespace Session

variable {p : Partition} {session : Session} {flash : Flash} {requests : List Request}

/-- A request leaves the flash anchored, whichever of its accesses fail and take effect in part. -/
theorem always_handle_secure (hu : p.Usable) {request : Request} {cells : Cells}
    (hrequest : request.KeepsGuard) (h : session.Secure p .tearing (fun _ => True) cells) :
    (session.handle request).Always .tearing
      (fun c => p.Secure .tearing True (fun _ => True) (p.image c)) cells fun answer after =>
        answer.2.Secure p .tearing (fun _ => True) after := by
  obtain ⟨store, hkeeps, hsound, hfits, hsecure⟩ := h
  obtain ⟨target, operation, hcalls⟩ := hrequest.calls p store
  refine (always_handle_of_sound hu (by nofun) (Or.inl trivial) hkeeps hcalls hsound hfits hsecure
    fun _ _ _ _ _ _ => trivial).mono (fun _ hc => hc) ?_
  rintro answer after ⟨result, store', -, hkeeps', hsound', hfits', hsecure', -⟩
  exact ⟨store', hkeeps', hsound', hfits', hsecure'⟩

/-- **The marker is there or no record is live**, after each access of any run on a partition that was
formatted. -/
theorem marked_or_empty (hu : p.Usable) (hformatted : Formatted p session flash)
    (hrequests : ∀ request ∈ requests, request.KeepsGuard) :
    ∀ s ∈ (session.serve requests).visited Flash.device flash,
      (p.image s.cells).Marked p.pageCount ∨ ∀ page, p.live (p.image s.cells) page = [] := by
  have hfirst : session.Secure p .tearing (fun _ => True) flash.cells :=
    hformatted.secure hu .tearing trivial
  have hserve : (session.serve requests).Always .tearing
      (fun c => p.Secure .tearing True (fun _ => True) (p.image c)) flash.cells fun answer after =>
        answer.2.Secure p .tearing (fun _ => True) after := by
    refine always_serve_of_keep (fun request session cells hrequest h => ?_) hrequests hfirst
    exact always_handle_secure hu hrequest h
  obtain ⟨-, -, hvisited⟩ := Flash.run_of_always flash.follows_tearing hserve
  exact fun s hs => ((hvisited s hs).anchored trivial).marked_or_live_eq_nil

/-- The first write is torn behind two bytes of its record.  Later the marker is handed over to the second
page, and the erase of the first one is torn. -/
theorem marked_or_empty_small :
    let start := formatting fun n =>
      if n = 3 then .refused 0 2 else if n = 15 then .refused 0 5 else .granted
    let requests : List Request := [.call (.writeItem 2 [7]), .reboot, .call (.writeItem 2 [7]),
      .call (.writeItem 3 [8]), .reboot]
    let run := start.1.2.serve requests
    Partition.small.Usable ∧ Formatted .small start.1.2 start.2 ∧
      (∀ request ∈ requests, request.KeepsGuard) ∧
      (run.run Flash.device start.2).1.1.map Reply.error? =
        [some .ioFailure, none, none, some .ioFailure, none] ∧
      ∀ s ∈ run.visited Flash.device start.2, (Partition.small.image s.cells).Marked 2 ∨
        ∀ page, Partition.small.live (Partition.small.image s.cells) page = [] := by
  intro start requests run
  have hrequests : ∀ request ∈ requests, request.KeepsGuard := by
    simp [requests, Request.KeepsGuard, Operation.KeepsGuard]
  have hformatted : Formatted .small start.1.2 start.2 :=
    formatted_small (Reply.eq_done (by decide +kernel))
  exact ⟨Partition.usable_small, hformatted, hrequests, by decide +kernel,
    marked_or_empty Partition.usable_small hformatted hrequests⟩

end Session

end RingStore
