import RingStore.Proofs.Session

/-!
# The page table is faithful to the flash

Whatever the flash held in the beginning and whichever accesses were refused or torn since then, the page
table of a store that is ready describes the flash byte by byte: the status bytes, the records that a
walk along each page meets, and the bytes behind them.

## Main statements

* `Session.faithful_of_ready`: after any run, the page table of a store that is ready is faithful.
-/

namespace RingStore

/-- An entry of the page table says of a page what the cells say. -/
structure Page.Faithful (p : Partition) (cells : Cells) (page : Nat) (entry : Page) : Prop where
  status_eq : cells[p.pageAddress page]? = some entry.status.toByte
  blank_of_erased : entry.kind = .erased →
    (∀ i < p.contentSize, cells[p.contentAddress page i]? = some 0xFF) ∧
      entry.used = 0 ∧ entry.live = 0
  /-- The walk from the first record on ends where the entry says. -/
  used_eq : entry.kind.holdsRecords = true →
    ((p.image cells).log page).used = entry.used ∧ entry.used ≤ p.contentSize
  live_eq : entry.kind.holdsRecords = true →
    entry.live = ((p.image cells).log page).records.countP (·.header.carriesValue)
  sound : entry.kind.holdsRecords = true → ∀ record ∈ ((p.image cells).log page).records,
    record.header.carriesValue = true →
      record.header.key ≠ blankKey ∧ record.header.verify p.chip.checksum record.payload = true
  blank_behind : entry.kind = .active →
    ∀ i, entry.used ≤ i → i < p.contentSize → cells[p.contentAddress page i]? = some 0xFF
  held : entry.kind = .full → 1 ≤ entry.live

/-- The page table describes the pages of a partition in the cells. -/
structure Table.Faithful (p : Partition) (t : Table) (cells : Cells) : Prop where
  count_eq : t.count = p.pageCount
  entries : ∀ (page : Nat) (entry : Page), t.pages[page]? = some entry → entry.Faithful p cells page
  eq_head : ∀ (page : Nat) (entry : Page), t.pages[page]? = some entry → entry.kind = .active →
    page = t.head
  marked : ∃ entry, t.pages[t.ringStart]? = some entry ∧ entry.status.ringStart = true

variable {p : Partition} {cells : Cells} {page : Nat} {entry : Page}

/-- A blank stretch of a content is blank in the cells. -/
theorem Partition.getElem?_of_isBlank_drop {start : Nat}
    (hlength : ((p.image cells).content page).length = p.contentSize)
    (h : isBlank (((p.image cells).content page).drop start) = true) {i : Nat} (hstart : start ≤ i)
    (hi : i < p.contentSize) : cells[p.contentAddress page i]? = some 0xFF := by
  have hget := p.getElem?_content cells page i
  rw [if_pos hi] at hget
  have hlt : i < ((p.image cells).content page).length := hlength ▸ hi
  rw [← hget, List.getElem?_eq_getElem hlt]
  refine congrArg some (isBlank_iff.mp h _ (List.mem_iff_getElem?.mpr ⟨i - start, ?_⟩))
  rw [List.getElem?_drop, Nat.add_sub_cancel' hstart, List.getElem?_eq_getElem hlt]

theorem Page.Describes.faithful (hpage : page < p.pageCount) (hfits : p.base + p.size ≤ cells.size)
    (hstatus : (p.image cells).status page = some entry.status)
    (h : entry.Describes p.chip.checksum ((p.image cells).content page))
    (hheld : entry.kind = .full → 0 < entry.live) : entry.Faithful p cells page := by
  have hlength := p.length_content hpage hfits
  have hsound : entry.kind.holdsRecords = true → ∀ record ∈ ((p.image cells).log page).records,
      record.header.carriesValue = true → record.isLive p.chip.checksum = true :=
    fun hholds => Log.damaged_eq_nil_iff.mp (h.sound hholds)
  constructor
  · obtain ⟨byte, hbyte, hof⟩ := Option.bind_eq_some_iff.mp hstatus
    rw [hbyte, PageStatus.toByte_ofByte? hof]
  · intro herased
    obtain ⟨hblank, hused, hlive⟩ := h.blank_of_erased herased
    refine ⟨fun i hi => ?_, hused, hlive⟩
    exact Partition.getElem?_of_isBlank_drop hlength (by rwa [List.drop_zero]) (Nat.zero_le i) hi
  · intro hholds
    have hle := Log.used_le ((p.image cells).content page)
    rw [hlength, ← h.used_eq hholds] at hle
    exact ⟨(h.used_eq hholds).symm, hle⟩
  · intro hholds
    rw [h.live_eq hholds]
    refine List.countP_congr fun record hrecord => ⟨Record.carriesValue_of_isLive, ?_⟩
    exact hsound hholds record hrecord
  · intro hholds record hrecord hcarries
    have hlive := hsound hholds record hrecord hcarries
    rw [Record.isLive, Bool.and_eq_true, Bool.and_eq_true, bne_iff_ne] at hlive
    exact ⟨hlive.1.2, hlive.2⟩
  · intro hactive i hused hi
    have hholds : entry.kind.holdsRecords = true := by
      rw [hactive]
      rfl
    -- Behind the last record lies the tail of the log.
    have htail := Log.drop_span ((p.image cells).log page).records [] (List.append_nil _).symm
    have hclean : isBlank (Log.parse ((p.image cells).content page)).tail = true := h.clean hactive
    rw [← Log.used_eq_span, List.flatMap_nil, List.nil_append] at htail
    rw [← htail] at hclean
    exact Partition.getElem?_of_isBlank_drop hlength hclean
      (Nat.le_trans (Nat.le_of_eq (h.used_eq hholds).symm) hused) hi
  · exact hheld

theorem Table.Mirrors.faithful {t : Table} (h : t.Mirrors p (p.image cells))
    (hfits : p.base + p.size ≤ cells.size) : t.Faithful p cells := by
  refine ⟨h.count_eq, fun page entry hentry => ?_, h.ordered.eq_head,
    isMarked_iff.mp h.ordered.marked⟩
  obtain ⟨hstatus, hdescribes⟩ := h.tracks page entry hentry
  exact hdescribes.faithful (h.count_eq ▸ lt_count hentry) hfits hstatus (h.held page entry hentry)

namespace Session

/-- A session with a sound store.  On a flash that ends within the partition the store is not ready. -/
def Sound (p : Partition) (session : Session) (cells : Cells) : Prop :=
  ∃ store, session.Keeps p store ∧ store.Sound p (p.image cells) ∧
    (store.phase = .ready → p.base + p.size ≤ cells.size)

theorem always_handle_sound (hu : p.Usable) {session : Session} {request : Request}
    (hrequest : request.KeepsGuard) (h : session.Sound p cells) :
    (session.handle request).Always .tearing (fun _ => True) cells fun answer after =>
      answer.2.Sound p after := by
  obtain ⟨store, hsession, hsound, hready⟩ := h
  obtain ⟨target, operation, hcalls⟩ := hrequest.calls p store
  by_cases hfits : p.base + p.size ≤ cells.size
  · have hhandle : (session.handle request).Always .tearing
        (fun c => p.Secure .tearing False (fun _ => True) (p.image c)) cells fun answer after =>
          ∃ result store', answer.1 = .answered result ∧ answer.2.Keeps p store' ∧
            store'.Sound p (p.image after) ∧ p.base + p.size ≤ after.size ∧ _ ∧ _ :=
      always_handle_of_sound hu (by nofun) (Or.inr fun _ => trivial) hsession hcalls hsound hfits
        (p.secure_of_unasked _ _) fun _ _ _ _ _ _ => trivial
    refine hhandle.mono (fun _ _ => trivial) ?_
    rintro answer after ⟨result, store', -, hkeeps, hsound', hfits', -⟩
    exact ⟨store', hkeeps, hsound', fun _ => hfits'⟩
  · -- Where no scan succeeds, the store is not ready, and nothing is said of its table.
    have htarget : target.partition = p ∧ target.phase ≠ .ready := by
      cases hcalls with
      | reboot => exact ⟨rfl, nofun⟩
      | call => exact ⟨hsound.partition_eq, fun hphase => hfits (hready hphase)⟩
    refine (always_handle hsession hcalls (Store.always_run_of_short .tearing hu operation
      hcalls.keepsGuard htarget.1 htarget.2 (Nat.lt_of_not_le hfits))).mono (fun _ hc => hc) ?_
    rintro answer after ⟨result, store', -, hkeeps, hpartition, hphase, -⟩
    exact ⟨store', hkeeps, ⟨hpartition, fun heq => absurd heq hphase⟩, fun heq => absurd heq hphase⟩

/-- **The page table of a store that is ready is faithful to the flash**, after any run. -/
theorem faithful_of_ready (hu : p.Usable) {session : Session}
    (hsession : session.Keeps p (.ofPartition p)) {requests : List Request}
    (hrequests : ∀ request ∈ requests, request.KeepsGuard) (flash : Flash) :
    let last := (session.serve requests).run Flash.device flash
    ∃ store, last.1.2.Keeps p store ∧
      (store.phase = .ready → store.table.Faithful p last.2.cells) := by
  have hfirst : session.Sound p flash.cells := ⟨_, hsession, ⟨rfl, nofun⟩, nofun⟩
  have hserve := always_serve_of_keep
    (fun _ _ _ hrequest hsound => always_handle_sound hu hrequest hsound) hrequests hfirst
  obtain ⟨⟨store, hkeeps, hsound, hready⟩, -⟩ :=
    Flash.run_of_always flash.follows_tearing hserve
  exact ⟨store, hkeeps, fun hphase => (hsound.mirrors hphase).faithful (hready hphase)⟩

/-- A torn access ends the first scan, and a reboot follows. -/
theorem faithful_of_ready_small :
    let flash := Flash.erased fun n => if n = 2 then .refused 0 1 else .granted
    let last := (small.serve [.call .init, .reboot]).run Flash.device flash
    Partition.small.Usable ∧ small.Keeps .small (.ofPartition .small) ∧
      ∃ store, last.1.2.Keeps .small store ∧ store.phase = .ready ∧
        store.table.Faithful .small last.2.cells := by
  have hrequests : ∀ request ∈ [Request.call .init, .reboot], request.KeepsGuard := by
    simp [Request.KeepsGuard, Operation.KeepsGuard]
  obtain ⟨store, hkeeps, hfaithful⟩ :=
    faithful_of_ready Partition.usable_small keeps_small hrequests
      (Flash.erased fun n => if n = 2 then .refused 0 1 else .granted)
  have hphase : ((small.serve [.call .init, .reboot]).run Flash.device
      (Flash.erased fun n => if n = 2 then .refused 0 1 else .granted)).1.2.store.map (·.phase) =
        some .ready := by
    decide +kernel
  rw [hkeeps.store_eq] at hphase
  have hready : store.phase = .ready := Option.some.inj hphase
  exact ⟨Partition.usable_small, keeps_small, store, hkeeps, hready, hfaithful hready⟩

end Session

end RingStore
