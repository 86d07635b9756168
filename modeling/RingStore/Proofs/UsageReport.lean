import RingStore.Proofs.FreedSpace
import RingStore.Proofs.SecondBoot

/-!
# The report after a reboot

A store counts the bytes and the live records of a page as it appends and drops them, and a scan counts
them anew.  The two agree on all pages but those that wait for their erase: a store knows how far the
records of such a page reach if it has closed the page itself, a scan does not look into the page and
takes it to be filled.

## Main statements

* `Session.report_of_reboot`: after any run a reboot only reads, and what it reports.
* `Session.report_changes`: a run after which a reboot changes the report.
-/

namespace RingStore

namespace Session

variable {p : Partition} {session : Session} {s : Ledger} {cells : Cells} {flash : Flash}

/-- A report is given, and nothing else changes. -/
theorem always_handle_usage (h : session.Tallies p s cells) :
    (session.handle (.call .usage)).Always .reliable (fun _ => True) cells fun answer after =>
      answer.2.Tallies p s after := by
  obtain ⟨store, hsession, hpartition, hphase, hfits, hkept⟩ := h
  have hkeeps : Operation.usage.KeepsGuard := trivial
  rw [handle_call_of_ready hsession hpartition hphase hkeeps rfl]
  exact ⟨_, ⟨hsession.newStore_eq, rfl⟩, rfl, rfl, hfits, hkept⟩

/-- A ledger is kept by every request. -/
theorem always_handle_keep (hu : p.Usable) {request : Request} (hkeeps : request.KeepsGuard)
    (h : session.Tallies p s cells) :
    (session.handle request).Always .reliable (fun _ => True) cells fun answer after =>
      ∃ s', answer.2.Tallies p s' after := by
  have hplain : request.Plain ∨ request = .call .usage := by
    cases request with
    | create placement => exact hkeeps.elim
    | reboot => exact Or.inl trivial
    | call operation => cases operation <;> first | exact Or.inl trivial | exact Or.inr rfl
  rcases hplain with hplain | rfl
  · refine (always_handle_tallies hu hplain hkeeps h).mono (fun _ hc => hc) ?_
    rintro answer after ⟨s', -, hafter⟩
    exact ⟨s', hafter⟩
  · exact (always_handle_usage h).mono (fun _ hc => hc) fun _ _ hafter => ⟨s, hafter⟩

/-- A run keeps a ledger, on either route. -/
theorem Tallies.serve_keep (hu : p.Usable) (h : session.Tallies p s flash.cells)
    (hflash : flash.Follows .reliable) {requests : List Request}
    (hrequests : ∀ request ∈ requests, request.Stays) :
    let run := (session.serve requests).run Flash.device flash
    ∃ s', run.1.2.Tallies p s' run.2.cells ∧ run.2.Follows .reliable := by
  have hstep : ∀ request ∈ requests, ∀ (s : Ledger) (session : Session) (cells : Cells),
      session.Tallies p s cells →
        (session.handle request.onGuard).Always .reliable (fun _ => True) cells fun answer after =>
          ∃ s', True ∧ answer.2.Tallies p s' after := by
    intro request hrequest s session cells htallies
    refine (always_handle_keep hu (hrequests request hrequest).keepsGuard_onGuard htallies).mono
      (fun _ hc => hc) ?_
    rintro answer after ⟨s', hafter⟩
    exact ⟨s', trivial, hafter⟩
  obtain ⟨s', -, hlast, hfollows⟩ := serve_of_onGuard (fun _ _ _ _ => True) _
    (fun _ _ _ htallies => htallies.holds.ready.unfailing hu) hstep h hflash
  exact ⟨s', hlast, hfollows⟩

/-- The state is one that a scan might have left. -/
theorem Tallies.booted (h : session.Tallies p s cells) :
    ∃ store, Booted p store session cells ∧ store.table.Tidy := by
  obtain ⟨store, hsession, hpartition, hphase, hfits, hkept⟩ := h
  exact ⟨store, ⟨hsession, hpartition, hphase, hfits, hkept.mirrors, hkept.once.startsFirst⟩,
    Or.inl hkept.once⟩

/-- **A reboot after any run only reads**, and it reports what was reported before, except that the pages
which wait for their erase are taken to be filled.  So it gives the same report exactly if they are. -/
theorem report_of_reboot (hu : p.Usable) (hformatted : session.Formatted p flash)
    (hflash : flash.Follows .reliable) {requests : List Request}
    (hrequests : ∀ request ∈ requests, request.Stays) :
    let run := (session.serve requests).run Flash.device flash
    let reboot := (run.1.2.handle .reboot).run Flash.device run.2
    reboot.1.1 = .answered (.ok .done) ∧
      (∀ step ∈ (run.1.2.handle .reboot).steps Flash.device run.2, step.access.isRead = true) ∧
      ∃ usage, run.1.2.report run.2 = some usage ∧
        reboot.1.2.report reboot.2 = some (usage.rescanned p) ∧
        (reboot.1.2.report reboot.2 = run.1.2.report run.2 ↔
          ∀ entry ∈ usage.pages, entry.kind = .unavailable → entry.used = p.contentSize) := by
  intro run reboot
  obtain ⟨s, htallies⟩ := hformatted.tallies hu
  obtain ⟨s', hrun, hfollows⟩ := htallies.serve_keep hu hflash hrequests
  obtain ⟨store, hbooted, htidy⟩ := hrun.booted
  obtain ⟨hreply, -, hreads, -⟩ := hbooted.scan_idle_iff hu hfollows .reboot
  have hreport : reboot.1.2.report reboot.2 = some ((Usage.ofTable store.table).rescanned p) :=
    hbooted.report_scan hu hfollows .reboot htidy
  refine ⟨hreply, hreads.mpr htidy, .ofTable store.table, hbooted.report_eq _, hreport, ?_⟩
  rw [hreport, hbooted.report_eq, Option.some_inj]
  exact Usage.rescanned_eq_iff

/-- A value is written on each route, with a report in between, and one of the two is removed. -/
theorem report_of_reboot_small :
    let start := formatting fun _ => .granted
    let requests : List Request := [.call (.writeItem 10 [1, 1, 1]), .call .usage,
      .call (.put .direct 11 ⟨.bytes, [2, 2, 2]⟩), .call (.deleteItem 11)]
    let run := (start.1.2.serve requests).run Flash.device start.2
    let reboot := (run.1.2.handle .reboot).run Flash.device run.2
    Partition.small.Usable ∧ Formatted .small start.1.2 start.2 ∧ start.2.Follows .reliable ∧
      (∀ request ∈ requests, request.Stays) ∧
      reboot.1.1 = .answered (.ok .done) ∧
      (∀ step ∈ (run.1.2.handle .reboot).steps Flash.device run.2, step.access.isRead = true) ∧
      ∃ usage, run.1.2.report run.2 = some usage ∧
        reboot.1.2.report reboot.2 = some (usage.rescanned .small) ∧
        (reboot.1.2.report reboot.2 = run.1.2.report run.2 ↔
          ∀ entry ∈ usage.pages, entry.kind = .unavailable →
            entry.used = Partition.small.contentSize) := by
  intro start requests run reboot
  have hformatted : Formatted .small start.1.2 start.2 := formatted_small (by rfl)
  have hflash : start.2.Follows .reliable := follows_formatting fun _ => trivial
  have hrequests : ∀ request ∈ requests, request.Stays := by
    simp [requests, Request.Stays]
  exact ⟨Partition.usable_small, hformatted, hflash, hrequests,
    report_of_reboot Partition.usable_small hformatted hflash hrequests⟩

/-- **A reboot may change the report.**  A record is dropped while its page is active.  The next record
does not fit there, so the page is closed and waits for its erase.  Six of its bytes are reported to be
taken, and all of them after a reboot. -/
theorem report_changes :
    let flash := Partition.pair.erased fun _ => .granted
    let requests : List Request := [.call .init, .call (.writeItem 1 [7, 7]), .call (.deleteItem 1),
      .call (.writeItem 2 [9, 9, 9, 9, 9, 9, 9, 9])]
    let run := ((ofPartition .pair).serve requests).run Flash.device flash
    let reboot := (run.1.2.handle .reboot).run Flash.device run.2
    Partition.pair.Usable ∧ flash.Follows .reliable ∧
      run.1.1.map Reply.error? = [none, none, none, none] ∧ reboot.1.1.isDone = true ∧
      run.1.2.report run.2 =
        some ⟨0, 0, 1, 1, [⟨⟨.unavailable, true⟩, 6, 0⟩, ⟨⟨.full, false⟩, 12, 1⟩], 0, none⟩ ∧
      reboot.1.2.report reboot.2 =
        some ⟨0, 0, 1, 1, [⟨⟨.unavailable, true⟩, 15, 0⟩, ⟨⟨.full, false⟩, 12, 1⟩], 0, none⟩ :=
  ⟨Partition.usable_pair, fun _ => trivial, by decide +kernel, by decide +kernel, by decide +kernel,
    by decide +kernel⟩

end Session

end RingStore
