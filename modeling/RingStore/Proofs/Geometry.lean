import RingStore.Proofs.Bounds

/-!
# Geometries

A partition is accepted if its numbers fit the claimed capacity of the chip, which is a matter of 64-bit
numbers.  Accesses carry addresses of 32 bits, and an erase also the address behind its range.
`Partition.Works` is what a caller may expect of a partition on an array that has the claimed capacity:
no call fails for an access, and every access reaches the address that it was computed for.

Of the partitions that are accepted exactly those work that end below `2 ^ 32`.  One that ends there has
a last page that cannot be erased, since the address behind it is zero to the chip.  One that goes on
beyond it meets the cells at the beginning of the array.

## Main statements

* `Session.always_handle_intact`: on a flash that refuses no access a call fails for none.
* `Session.works_iff_end_lt`: exactly the partitions that end below `2 ^ 32` work.
* `Session.last_page_not_erased`: a partition that is accepted and does not work.
-/

namespace RingStore

namespace Partition

variable {p : Partition}

/-- The access reaches the address that it was computed for: a range within a page that is read, with
some bytes around it, what is programmed in a page, padded on both sides, or a page that is erased. -/
def Reaches (p : Partition) : Access → Prop
  | .read start length => ∃ position count front back, p.Spans position count ∧
      start.toNat + front = position ∧ length = front + count + back
  | .write start bytes => ∃ position requested front back, p.Requests position requested ∧
      start.toNat + front = position ∧
      bytes = List.replicate front 0xFF ++ requested ++ List.replicate back 0xFF
  | .erase start stop => ∃ page < p.pageCount, start.toNat = p.pageAddress page ∧
      stop.toNat = p.pageAddress page + p.pageSize

/-- Below `2 ^ 32` no address is cut off. -/
theorem reaches_of_asks (hu : p.Usable) {access : Access} (h : p.Asks access) : p.Reaches access := by
  cases access with
  | read start length =>
    obtain ⟨position, count, front, back, hspans, hstart, hlength⟩ := h
    exact ⟨position, count, front, back, hspans, hspans.toNat_busAddress hu ▸ hstart, hlength⟩
  | write start bytes =>
    obtain ⟨position, requested, hpads⟩ := h
    obtain ⟨front, back, hstart, hbytes⟩ := hpads.padding
    exact ⟨position, requested, front, back, hpads.request,
      hpads.request.spans.toNat_busAddress hu ▸ hstart, hbytes⟩
  | erase start stop =>
    obtain ⟨page, hpage, rfl, rfl⟩ := h
    have hend := p.pageAddress_add_le_end hpage
    have hlt := hu.end_lt
    exact ⟨page, hpage, Chip.toNat_busAddress (by omega), Chip.toNat_busAddress (by omega)⟩

/-- What may be expected of a partition on an array that has the claimed capacity, whatever the array
holds: no call fails for an access, and every access reaches the address that it was computed for. -/
def Works (p : Partition) : Prop :=
  ∀ (session : Session) (requests : List Request) (flash : Flash),
    session.Keeps p (.ofPartition p) → (∀ request ∈ requests, request.Stays) →
      flash.Follows .reliable → flash.cells.size = p.chip.capacity →
        (∀ reply ∈ ((session.serve requests).run Flash.device flash).1.1,
          reply ≠ .answered (.error .ioFailure)) ∧
          ∀ step ∈ (session.serve requests).steps Flash.device flash, p.Reaches step.access

end Partition

/-! ## A store that was never scanned -/

namespace Engine

variable {p : Partition} {key : UInt16}

/-- An empty table has no page to look at. -/
theorem run_find_empty (p : Partition) (key : UInt16) :
    (find p key).run.run .empty = pure (.ok none, .empty) := rfl

theorem run_fetch_empty {α : Type} [Storable α] (hkey : isValidKey key = true) :
    (fetch (α := α) key p).run.run .empty = pure (.ok none, .empty) := by
  have hpayload : (payloadOf p key).run.run .empty = pure (.ok none, .empty) := by
    rw [payloadOf, if_pos hkey, EngineM.run_bind, run_find_empty]
    rfl
  rw [fetch, EngineM.run_bind, hpayload]
  rfl

/-- An empty table has no room. -/
theorem run_writeItem_empty {payload : Bytes}
    (h : isValidKey key = true ∧ payload ≠ [] ∧ payload.length ≤ p.maxPayload) :
    (writeItem p key payload).run.run .empty = pure (.error .outOfSpace, .empty) := by
  rw [writeItem, if_pos h, EngineM.run_bind, run_find_empty]
  rfl

end Engine

namespace Operation

variable {operation : Operation} {p : Partition} {x : Partition → EngineM Answer}

theorem run_accepted_empty (h : ¬operation.KeepsGuard) (hx : operation.program? = some x)
    (haccepted : operation.purpose.Accepted p) :
    ∃ result, result ≠ .error .ioFailure ∧ (x p).run.run .empty = pure (result, .empty) := by
  cases operation <;> cases hx <;> try exact absurd trivial h
  case fetch route key type =>
    refine ⟨.ok (.value none), nofun, ?_⟩
    dsimp only
    rw [map_eq_pure_bind, EngineM.run_bind, Engine.run_fetch_empty haccepted]
    rfl
  case put route key value =>
    refine ⟨.error .outOfSpace, nofun, ?_⟩
    dsimp only
    rw [map_eq_pure_bind, EngineM.run_bind, Engine.put, Engine.run_writeItem_empty haccepted]
    rfl

/-- On an empty table a call around the guard needs no access. -/
theorem run_program_empty (h : ¬operation.KeepsGuard) (hx : operation.program? = some x)
    (p : Partition) :
    ∃ result, result ≠ .error .ioFailure ∧ (x p).run.run .empty = pure (result, .empty) := by
  by_cases haccepted : operation.purpose.Accepted p
  · exact run_accepted_empty h hx haccepted
  · rw [program_eq_throw hx haccepted]
    exact ⟨.error .invalidArgument, nofun, rfl⟩

end Operation

/-! ## Runs in which no access fails -/

/-- A scan can end in one way only on a flash that refuses no access. -/
theorem Store.Outcome.ready_of_init {p : Partition} {anchored : Prop} {store store' : Store}
    {img img' : Image} {result : Except Error Answer}
    (h : Outcome p .reliable anchored .init store img result store' img') :
    result = .ok .done ∧ store'.phase = .ready := by
  cases h with
  | failed hconduct => exact absurd rfl hconduct
  | unscanned _ hprogram => exact absurd rfl hprogram
  | told hoperation => cases hoperation
  | scanned _ hphase => exact ⟨rfl, hphase⟩
  | concluded _ hprogram => exact absurd rfl hprogram

namespace Session

variable {p : Partition} {session : Session} {store target : Store} {operation : Operation}
  {request : Request} {flash : Flash} {cells : Cells}

/-- A store that was not used yet, or one that is ready and mirrors the flash. -/
def Intact (p : Partition) (session : Session) (cells : Cells) : Prop :=
  p.base + p.size ≤ cells.size ∧ ∃ store, session.Keeps p store ∧
    (store = .ofPartition p ∨ store.phase = .ready ∧ store.Sound p (p.image cells))

/-- What is expected of a request. -/
def Succeeds (p : Partition) (answer : Reply × Session) (after : Cells) : Prop :=
  answer.1 ≠ .answered (.error .ioFailure) ∧ answer.2.Intact p after

/-- A scan leaves a store that is ready. -/
theorem always_scan_intact (hu : p.Usable) (hfits : p.base + p.size ≤ cells.size)
    (hsession : session.Keeps p store) (hcalls : request.Calls p store target .init)
    (hpartition : target.partition = p) :
    (session.handle request).Always .reliable (fun _ => True) cells (Succeeds p) := by
  have hinit : StoreM.Ensures p .reliable (p.Secure .reliable False fun _ => True)
      Operation.init.run target (p.image cells) _ :=
    Store.ensures_run_init hu (by nofun) (Or.inr fun _ => trivial) hpartition
  refine (always_handle hsession hcalls ((hinit cells ⟨hfits, rfl⟩ (p.secure_of_unasked _ _)).keep
    (p.secure_of_unasked _ _))).mono (fun _ _ => trivial) ?_
  rintro answer after ⟨result, store', hreply, hkeeps, -, hsize, hsound, houtcome⟩
  obtain ⟨rfl, hphase⟩ := houtcome.ready_of_init
  exact ⟨by rw [hreply]; nofun, hsize ▸ hfits, store', hkeeps, Or.inr ⟨hphase, hsound⟩⟩

/-- A store that is ready stays ready. -/
theorem always_call_intact (hu : p.Usable) (hfits : p.base + p.size ≤ cells.size)
    (hsession : session.Keeps p store) (hsound : store.Sound p (p.image cells))
    (hphase : store.phase = .ready) (hkeeps : operation.KeepsGuard)
    {x : Partition → EngineM Answer} (hx : operation.program? = some x) :
    (session.handle (.call operation)).Always .reliable (fun _ => True) cells (Succeeds p) := by
  have hmirrors := hsound.mirrors hphase
  have hconcludes : Engine.Concludes p .reliable (p.Secure .reliable True fun _ => True) (x p)
      store.table (p.image cells) _ :=
    operation.concludes_program hu hmirrors hx fun _ _ _ => trivial
  rw [handle_call_of_ready hsession hsound.partition_eq hphase hkeeps hx, FlashM.always_bind]
  refine ((hconcludes cells ⟨hfits, rfl⟩ (hmirrors.secure _ _)).keep (hmirrors.secure _ _)).mono
    (fun _ _ => trivial) ?_
  rintro ⟨error | answer, t'⟩ after ⟨-, hsize, h⟩
  · rcases h with ⟨-, hconduct⟩ | ⟨herror, hmirrors', -⟩
    · exact absurd rfl hconduct
    · exact ⟨fun heq => herror (Except.error.inj (Reply.answered.inj heq)), hsize ▸ hfits, _,
        ⟨hsession.newStore_eq, rfl⟩,
        Or.inr ⟨Store.phaseAfter_error herror, rfl, fun _ => hmirrors'⟩⟩
  · exact ⟨nofun, hsize ▸ hfits, _, ⟨hsession.newStore_eq, rfl⟩, Or.inr ⟨rfl, rfl, fun _ => h.1⟩⟩

/-- **A request fails for no access** on a flash that refuses none, and leaves a store as intact as
before. -/
theorem always_handle_intact (hu : p.Usable) (h : session.Intact p cells) (hkeeps : request.KeepsGuard) :
    (session.handle request).Always .reliable (fun _ => True) cells (Succeeds p) := by
  obtain ⟨hfits, store, hsession, hstore⟩ := h
  have hpartition : store.partition = p := by
    rcases hstore with rfl | ⟨-, hsound⟩
    · rfl
    · exact hsound.partition_eq
  cases request with
  | create placement => exact hkeeps.elim
  | reboot => exact always_scan_intact hu hfits hsession .reboot rfl
  | call operation =>
    cases hx : operation.program? with
    | some x =>
      rcases hstore with rfl | ⟨hphase, hsound⟩
      · rw [handle_eq_callStore hsession (.call hkeeps), callStore, operation.run_eq_guarded hkeeps hx,
          Store.run_guarded_unready rfl]
        exact ⟨by simp, hfits, _, ⟨hsession.newStore_eq, rfl⟩, Or.inl rfl⟩
      · exact always_call_intact hu hfits hsession hsound hphase hkeeps hx
    | none =>
      cases operation with
      | init => exact always_scan_intact hu hfits hsession (.call trivial) hpartition
      | maxPayload =>
        have hcalls : (Request.call .maxPayload).Calls p store store .maxPayload := .call trivial
        rw [handle_eq_callStore hsession hcalls]
        exact ⟨by simp, hfits, _, ⟨hsession.newStore_eq, rfl⟩, hstore⟩
      | _ => cases hx

/-- A call around the guard of a store that was not used yet. -/
theorem handle_direct_unused (hsession : session.Keeps p (.ofPartition p))
    (hdirect : ¬operation.KeepsGuard) : ∃ result, result ≠ .error .ioFailure ∧
      session.handle (.call operation) = pure (.answered result, session) := by
  obtain ⟨x, hx⟩ := operation.exists_program hdirect
  obtain ⟨result, hresult, hrun⟩ := operation.run_program_empty hdirect hx p
  refine ⟨result, hresult, ?_⟩
  have hsame : { session with store := some { Store.ofPartition p with table := .empty } } =
      session := by
    obtain ⟨chip, placement, store⟩ := session
    cases hsession.store_eq
    rfl
  rw [handle_call_of_direct hsession rfl hdirect hx]
  show StateT.run (ExceptT.run (x p)) .empty >>= _ = _
  rw [hrun, pure_bind, hsame]

/-- On both routes a request fails for no access. -/
theorem run_handle_intact (hu : p.Usable) (h : session.Intact p flash.cells)
    (hflash : flash.Follows .reliable) (hstays : request.Stays) :
    let handled := (session.handle request).run Flash.device flash
    Succeeds p handled.1 handled.2.cells ∧ handled.2.Follows .reliable := by
  have hguarded := Flash.run_of_always hflash
    (always_handle_intact hu h hstays.keepsGuard_onGuard)
  obtain ⟨hfits, store, hsession, hstore⟩ := id h
  rcases hstore with rfl | ⟨hphase, hsound⟩
  · by_cases hkeeps : request.KeepsGuard
    · obtain ⟨hpost, hfollows, -⟩ := Flash.run_of_always hflash (always_handle_intact hu h hkeeps)
      exact ⟨hpost, hfollows⟩
    · cases request with
      | create placement => exact hstays.elim
      | reboot => exact absurd trivial hkeeps
      | call operation =>
        obtain ⟨result, hresult, hhandle⟩ := handle_direct_unused hsession hkeeps
        rw [hhandle]
        exact ⟨⟨fun heq => hresult (Reply.answered.inj heq), h⟩, hflash⟩
  · have hready : session.Ready p flash.cells := ⟨store, hsession, hsound, hfits, hphase⟩
    rw [run_handle_onGuard (hready.unfailing hu) hflash]
    exact ⟨hguarded.1, hguarded.2.1⟩

/-- **A run fails for no access** on a flash that refuses none. -/
theorem run_serve_intact (hu : p.Usable) (h : session.Intact p flash.cells)
    (hflash : flash.Follows .reliable) {requests : List Request}
    (hrequests : ∀ request ∈ requests, request.Stays) :
    ∀ reply ∈ ((session.serve requests).run Flash.device flash).1.1,
      reply ≠ .answered (.error .ioFailure) := by
  induction requests generalizing session flash with
  | nil => exact nofun
  | cons request rest ih =>
    obtain ⟨hstays, hrest⟩ := List.forall_mem_cons.mp hrequests
    obtain ⟨⟨hreply, hafter⟩, hfollows⟩ := run_handle_intact hu h hflash hstays
    simp only [serve, FlashM.run_bind, FlashM.run_pure, List.forall_mem_cons]
    exact ⟨hreply, ih hafter hfollows hrest⟩

/-- A usable partition works. -/
theorem works_of_usable (hu : p.Usable) : p.Works := by
  intro session requests flash hsession hrequests hflash hcapacity
  have hintact : session.Intact p flash.cells :=
    ⟨hcapacity ▸ p.end_le, _, hsession, Or.inl rfl⟩
  obtain ⟨-, -, hasks⟩ := (hsession.inRange False #[]).serve hu.granular hrequests
    Flash.fills_device flash
  exact ⟨run_serve_intact hu hintact hflash hrequests,
    fun step hstep => Partition.reaches_of_asks hu (hasks step hstep)⟩

end Session

/-! ## A page that goes up to the end of the addresses -/

namespace Partition

open AccessM

variable {p : Partition} {page : Nat} {cells : Cells}

/-- A page that begins below `2 ^ 32` is read where it lies, even if it ends above. -/
theorem run_readPage_steady (hread : p.chip.readSize ∣ p.pageSize) (hlow : p.pageAddress page < 2 ^ 32)
    (hcells : p.pageAddress page + p.pageSize ≤ cells.size) :
    (p.readPage page).run.run Flash.device (.steady cells) =
      (.ok (cells.slice (p.pageAddress page) p.pageSize), .steady cells) := by
  have hmax : p.pageSize ≤ 65535 := p.pageSize_le
  have hdvd : p.chip.readSize ∣ p.pageAddress page := dvd_pageAddress hread
  have hposition : (Chip.busAddress (p.pageAddress page)).toNat = p.pageAddress page :=
    Chip.toNat_busAddress hlow
  have hlower : alignDown (p.pageAddress page) p.chip.readSize = p.pageAddress page :=
    Nat.le_antisymm (alignDown_le _ _) (le_alignDown hdvd (Nat.le_refl _) hlow)
  have hupper : alignUp (p.pageAddress page + p.pageSize) p.chip.readSize =
      p.pageAddress page + p.pageSize :=
    Nat.le_antisymm (alignUp_le (Nat.dvd_add hdvd hread) (Nat.le_refl _))
      (le_alignUp (granularity_pos hread) (granularity_le hread) (by omega))
  have hlength : (cells.slice (p.pageAddress page) p.pageSize).length = p.pageSize :=
    Cells.length_slice hcells
  rw [readPage, run_ofBytes, FlashM.run_bind, Chip.readWidened_eq _ _ hposition, hlower, hupper,
    Nat.add_sub_cancel_left, Nat.sub_self]
  simp only [FlashM.run, Flash.device, Flash.steady, hposition, if_pos hcells, Option.map_some,
    List.drop_zero, List.take_of_length_le (Nat.le_of_eq hlength)]
  rfl

/-- On these cells all pages in front of one are blank, and that one goes up to the end of the addresses
and has an unknown status byte. -/
structure Across (p : Partition) (page : Nat) (cells : Cells) : Prop where
  page_lt : page < p.pageCount
  begins : p.pageAddress page < 2 ^ 32
  ends : 2 ^ 32 ≤ p.pageAddress page + p.pageSize
  fits : p.base + p.size ≤ cells.size
  before : ∀ other < page, isBlank (cells.slice (p.pageAddress other) p.pageSize) = true
  unknown : cells[p.pageAddress page]? = some 0x55

/-- Nothing has to be done to a blank page. -/
theorem run_loadPage_blank (hread : p.chip.readSize ∣ p.pageSize) (hlow : p.pageAddress page < 2 ^ 32)
    (hcells : p.pageAddress page + p.pageSize ≤ cells.size)
    (hblank : isBlank (cells.slice (p.pageAddress page) p.pageSize) = true) :
    (p.loadPage page).run.run Flash.device (.steady cells) =
      (.ok ⟨.blank, 0, 0⟩, .steady cells) := by
  have hlength := Cells.length_slice hcells
  have hpos := p.pageSize_pos
  rw [loadPage, ExceptT.run_bind, FlashM.run_bind, run_readPage_steady hread hlow hcells]
  cases hbytes : cells.slice (p.pageAddress page) p.pageSize with
  | nil =>
    rw [hbytes, List.length_nil] at hlength
    omega
  | cons byte content =>
    rw [hbytes, isBlank_iff, List.forall_mem_cons] at hblank
    obtain ⟨rfl, hcontent⟩ := hblank
    have hsettle : p.settlePage page .blank content = pure ⟨.blank, 0, 0⟩ :=
      if_pos (isBlank_iff.mpr hcontent)
    show (p.settlePage page .blank content).run.run _ _ = _
    rw [hsettle]
    rfl

/-- The page cannot be erased: to the chip, the address behind it lies in front of it. -/
theorem run_loadPage_across (hread : p.chip.readSize ∣ p.pageSize) (h : p.Across page cells) :
    ((p.loadPage page).run.run Flash.device (.steady cells)).1 = .error .ioFailure := by
  have hmax : p.pageSize ≤ 65535 := p.pageSize_le
  have hend := p.pageAddress_add_le_end h.page_lt
  have hbegins := h.begins
  have hends := h.ends
  have hpos := p.pageSize_pos
  have hcells : p.pageAddress page + p.pageSize ≤ cells.size := Nat.le_trans hend h.fits
  have hhead : (cells.slice (p.pageAddress page) p.pageSize)[0]? = some 0x55 := by
    rw [Cells.getElem?_slice, if_pos hpos, Nat.add_zero]
    exact h.unknown
  have hstop : (Chip.busAddress (p.pageAddress page + p.pageSize)).toNat =
      p.pageAddress page + p.pageSize - 2 ^ 32 := by
    rw [Chip.busAddress, UInt32.toNat_ofNat']
    omega
  have hlt : ¬(Chip.busAddress (p.pageAddress page) ≤
      Chip.busAddress (p.pageAddress page + p.pageSize) ∧
        (Chip.busAddress (p.pageAddress page + p.pageSize)).toNat ≤ cells.size) := by
    rw [UInt32.le_iff_toNat_le, hstop, Chip.toNat_busAddress hbegins]
    omega
  rw [loadPage, ExceptT.run_bind, FlashM.run_bind, run_readPage_steady hread hbegins hcells]
  cases hbytes : cells.slice (p.pageAddress page) p.pageSize with
  | nil =>
    rw [hbytes] at hhead
    cases hhead
  | cons byte content =>
    rw [hbytes] at hhead
    obtain rfl : byte = 0x55 := Option.some.inj hhead
    show ((p.erasePage page >>= fun _ => pure Page.blank).run.run Flash.device (.steady cells)).1 = _
    rw [ExceptT.run_bind, FlashM.run_bind, erasePage, run_ofGrant, FlashM.run_bind]
    simp only [Chip.eraseRange, FlashM.ask, FlashM.run, Flash.device, Flash.steady, if_neg hlt]
    rfl

end Partition

namespace Engine

open EngineM

variable {p : Partition} {page : Nat} {cells : Cells}

theorem run_loadNext (t : Table) (flash : Flash) :
    ((loadNext p page).run.run t).run Flash.device flash =
      match (p.loadPage page).run.run Flash.device flash with
      | (.ok entry, flash') => ((.ok (), t.push entry), flash')
      | (.error error, flash') => ((.error error, t), flash') := by
  rw [loadNext, run_bind]
  show ((((p.loadPage page).run >>= fun result => pure (result, t)) >>= _).run Flash.device flash) = _
  rw [bind_assoc, FlashM.run_bind]
  rcases (p.loadPage page).run.run Flash.device flash with ⟨error | entry, flash'⟩ <;> rfl

/-- A program that fails does not go on. -/
theorem run_bind_of_error {α β : Type} {x : EngineM α} (f : α → EngineM β) {t : Table} {flash : Flash}
    {error : Error} (h : ((x.run.run t).run Flash.device flash).1.1 = .error error) :
    ((((x >>= f).run.run t).run Flash.device flash).1.1) = .error error := by
  rw [run_bind, FlashM.run_bind]
  rcases hrun : (x.run.run t).run Flash.device flash with ⟨⟨error' | a, t'⟩, flash'⟩
  · rw [hrun] at h
    cases h
    rfl
  · rw [hrun] at h
    cases h

theorem run_loadNext_across (hread : p.chip.readSize ∣ p.pageSize) (h : p.Across page cells)
    (t : Table) :
    (((loadNext p page).run.run t).run Flash.device (.steady cells)).1.1 = .error .ioFailure := by
  have hfails := Partition.run_loadPage_across hread h
  rw [run_loadNext]
  rcases hpage : (p.loadPage page).run.run Flash.device (.steady cells) with ⟨error | entry, flash'⟩
  · rw [hpage] at hfails
    cases hfails
    rfl
  · rw [hpage] at hfails
    cases hfails

/-- The scan loads the pages before as blank ones, and is refused at the page. -/
theorem run_forM_loadNext_across (hread : p.chip.readSize ∣ p.pageSize) (h : p.Across page cells)
    {passed : List Nat} (hpassed : ∀ other ∈ passed, other < page) (rest : List Nat) (t : Table) :
    ((((passed ++ page :: rest).forM (loadNext p)).run.run t).run Flash.device
      (.steady cells)).1.1 = .error .ioFailure := by
  have hcons : ∀ (next : Nat) (rest : List Nat), (next :: rest).forM (loadNext p) =
      loadNext p next >>= fun _ => rest.forM (loadNext p) := fun _ _ => rfl
  induction passed generalizing t with
  | nil =>
    rw [List.nil_append, hcons]
    exact run_bind_of_error _ (run_loadNext_across hread h t)
  | cons other passed ih =>
    obtain ⟨hother, hpassed'⟩ := List.forall_mem_cons.mp hpassed
    have hle := p.pageAddress_add_le hother
    have hbegins := h.begins
    have hend := p.pageAddress_add_le_end h.page_lt
    have hfits := h.fits
    rw [List.cons_append, hcons, run_bind, FlashM.run_bind, run_loadNext,
      Partition.run_loadPage_blank hread (by omega) (by omega) (h.before other hother)]
    exact ih hpassed' _

/-- **The scan does not get past the page.** -/
theorem run_load_across (hread : p.chip.readSize ∣ p.pageSize) (h : p.Across page cells) (t : Table) :
    (((load p).run.run t).run Flash.device (.steady cells)).1.1 = .error .ioFailure := by
  obtain ⟨rest, hrange⟩ : ∃ rest, List.range p.pageCount = List.range page ++ page :: rest := by
    obtain ⟨n, hn⟩ := Nat.exists_eq_add_of_lt h.page_lt
    refine ⟨(List.range n).map (page + 1 + ·), ?_⟩
    rw [hn, Nat.add_right_comm, List.range_add, List.range_succ, List.append_assoc]
    rfl
  have hscan := run_forM_loadNext_across hread h (fun _ hother => List.mem_range.mp hother) rest
    { t with pages := #[] }
  rw [← hrange] at hscan
  unfold load
  rw [run_bind]
  exact run_bind_of_error _ hscan

end Engine

/-! ## Partitions that do not work -/

namespace FlashM

variable {α β σ : Type} {device : Device σ} {access : Access}

/-- The access that a program asks for first. -/
def first? : FlashM α → Option Access
  | done _ => none
  | request access _ => some access

theorem first?_bind {x : FlashM α} (h : x.first? = some access) (f : α → FlashM β) :
    (x >>= f).first? = some access := by
  cases x with
  | done a => cases h
  | request asked next => exact h

theorem exists_step_of_first? {x : FlashM α} (h : x.first? = some access) (device : Device σ) (s : σ) :
    ∃ step ∈ x.steps device s, step.access = access := by
  cases x with
  | done a => cases h
  | request asked next =>
    cases h
    exact ⟨_, List.mem_cons_self, rfl⟩

end FlashM

namespace Session

variable {p : Partition} {page : Nat} {cells : Cells}

theorem handle_init (p : Partition) :
    (ofPartition p).handle (.call .init) = (Engine.load p).run.run .empty >>= fun result =>
      pure (.answered (result.1.map fun _ => .done),
        { ofPartition p with
          store := some ⟨p, result.2, if result.1.isOk then .ready else .unready⟩ }) := by
  have hcalls : (Request.call .init).Calls p (.ofPartition p) (.ofPartition p) .init := .call trivial
  rw [handle_eq_callStore (keeps_ofPartition p) hcalls, callStore, Store.run_init, bind_assoc]
  congr 1
  funext result
  obtain ⟨error | u, t'⟩ := result <;> rfl

/-- The scan is refused an erase if a page has to be erased that goes up to the end of the addresses. -/
theorem init_fails_across (hread : p.chip.readSize ∣ p.pageSize) (h : p.Across page cells) :
    (((ofPartition p).handle (.call .init)).run Flash.device (.steady cells)).1.1 =
      .answered (.error .ioFailure) := by
  have hload := Engine.run_load_across hread h .empty
  rw [handle_init, FlashM.run_bind]
  rcases hrun : (((Engine.load p).run.run .empty).run Flash.device (.steady cells)) with
    ⟨⟨error | u, t'⟩, flash'⟩
  · rw [hrun] at hload
    cases hload
    rfl
  · rw [hrun] at hload
    cases hload

/-- A scan begins with a read of the first page, at the address that the chip gets for it. -/
theorem first?_init (p : Partition) :
    ((ofPartition p).handle (.call .init)).first? =
      some (.read
        (Chip.busAddress (alignDown (Chip.busAddress p.base).toNat p.chip.readSize))
        (alignUp ((Chip.busAddress p.base).toNat + p.pageSize) p.chip.readSize -
          alignDown (Chip.busAddress p.base).toNat p.chip.readSize)) := by
  have hbase : p.pageAddress 0 = p.base := by rw [Partition.pageAddress, Nat.zero_mul, Nat.add_zero]
  have hpage : (p.readPage 0).run.first? = some (.read
      (Chip.busAddress (alignDown (Chip.busAddress p.base).toNat p.chip.readSize))
      (alignUp ((Chip.busAddress p.base).toNat + p.pageSize) p.chip.readSize -
        alignDown (Chip.busAddress p.base).toNat p.chip.readSize)) := by
    rw [Partition.readPage, hbase]
    rfl
  obtain ⟨n, hn⟩ := Nat.exists_eq_add_of_lt p.pageCount_pos
  have hrange : List.range p.pageCount = 0 :: (List.range n).map Nat.succ := by
    rw [hn, Nat.zero_add, List.range_succ_eq_map]
  rw [handle_init]
  refine FlashM.first?_bind ?_ _
  unfold Engine.load
  rw [EngineM.run_bind]
  show FlashM.first? ((((List.range p.pageCount).forM (Engine.loadNext p) >>= fun _ => _).run.run _)) = _
  rw [hrange, EngineM.run_bind]
  refine FlashM.first?_bind ?_ _
  show FlashM.first? ((Engine.loadNext p 0 >>= fun _ => _).run.run _) = _
  rw [EngineM.run_bind]
  refine FlashM.first?_bind ?_ _
  rw [Engine.loadNext, EngineM.run_bind]
  refine FlashM.first?_bind (FlashM.first?_bind ?_ _) _
  rw [Partition.loadPage, ExceptT.run_bind]
  exact FlashM.first?_bind hpage _

/-- Beyond the addresses of the chip the first page is read where it does not lie. -/
theorem not_reaches_of_le (hread : p.chip.readSize ∣ p.pageSize) (hbase : 2 ^ 32 ≤ p.base) :
    ¬p.Reaches (.read
      (Chip.busAddress (alignDown (Chip.busAddress p.base).toNat p.chip.readSize))
      (alignUp ((Chip.busAddress p.base).toNat + p.pageSize) p.chip.readSize -
        alignDown (Chip.busAddress p.base).toNat p.chip.readSize)) := by
  rintro ⟨position, count, front, back, hspans, hstart, hlength⟩
  have hmax : p.pageSize ≤ 65535 := p.pageSize_le
  have hgranularity : p.chip.readSize ≤ p.pageSize := Nat.le_of_dvd p.pageSize_pos hread
  have hposition := hspans.le_end.1
  have hcut : (Chip.busAddress p.base).toNat + 2 ^ 32 ≤ p.base := by
    rw [Chip.busAddress, UInt32.toNat_ofNat']
    omega
  have hlower := alignDown_le (Chip.busAddress p.base).toNat p.chip.readSize
  have hlt := Chip.toNat_busAddress_lt p.base
  have hupper : alignUp ((Chip.busAddress p.base).toNat + p.pageSize) p.chip.readSize ≤
      (Chip.busAddress p.base).toNat + p.pageSize + (p.chip.readSize - 1) := by
    rw [alignUp_eq]
    exact Nat.le_trans (Nat.div_mul_le_self _ _) (Nat.min_le_left _ _)
  rw [Chip.toNat_busAddress (by omega)] at hstart
  omega

/-- The cells of an array that is blank but for the status byte of one page. -/
def spoiled (p : Partition) (page : Nat) : Cells :=
  (Array.replicate p.chip.capacity 0xFF).setIfInBounds (p.pageAddress page) 0x55

theorem size_spoiled (p : Partition) (page : Nat) : (spoiled p page).size = p.chip.capacity := by
  rw [spoiled, Array.size_setIfInBounds, Array.size_replicate]

theorem across_spoiled (hpage : page < p.pageCount) (hbegins : p.pageAddress page < 2 ^ 32)
    (hends : 2 ^ 32 ≤ p.pageAddress page + p.pageSize) : p.Across page (spoiled p page) := by
  have hcapacity := p.end_le
  have hend := p.pageAddress_add_le_end hpage
  have hpos := p.pageSize_pos
  have hsize : p.size = p.pageCount * p.pageSize := rfl
  refine ⟨hpage, hbegins, hends, size_spoiled p page ▸ hcapacity, fun other hother => ?_, ?_⟩
  · rw [isBlank_iff]
    intro b hb
    obtain ⟨i, hi⟩ := List.mem_iff_getElem?.mp hb
    have hle := p.pageAddress_add_le hother
    rw [Cells.getElem?_slice] at hi
    split at hi
    · rw [spoiled, Array.getElem?_setIfInBounds_ne (by omega), Array.getElem?_replicate] at hi
      split at hi
      · exact (Option.some.inj hi).symm
      · cases hi
    · cases hi
  · rw [spoiled, Array.getElem?_setIfInBounds_self_of_lt]
    rw [Array.size_replicate]
    omega

/-- A partition that does not end below `2 ^ 32` does not work: on the way it meets the end of the
addresses, or it lies beyond it altogether. -/
theorem not_works_of_le (hread : p.chip.readSize ∣ p.pageSize) (hend : 2 ^ 32 ≤ p.base + p.size) :
    ¬p.Works := by
  intro hworks
  have hrequests : ∀ request ∈ ([.call .init] : List Request), request.Stays := by
    simp [Request.Stays]
  have hrun : ∀ cells : Cells, cells.size = p.chip.capacity → _ := fun cells hcells =>
    hworks (ofPartition p) [.call .init] (.steady cells) (keeps_ofPartition p) hrequests
      (fun _ => trivial) hcells
  by_cases hbase : p.base < 2 ^ 32
  · -- Some page begins below the end of the addresses and goes up to it.
    have hpos := p.pageSize_pos
    have hdiv := Nat.div_add_mod (2 ^ 32 - p.base - 1) p.pageSize
    have hmod := Nat.mod_lt (2 ^ 32 - p.base - 1) hpos
    have hsize : p.size = p.pageSize * p.pageCount := Nat.mul_comm _ _
    generalize hpage : (2 ^ 32 - p.base - 1) / p.pageSize = page at hdiv
    have haddress : p.pageAddress page = p.base + p.pageSize * page := by
      rw [Partition.pageAddress, Nat.mul_comm]
    have hlt : page < p.pageCount := by
      refine Nat.lt_of_mul_lt_mul_left (a := p.pageSize) ?_
      omega
    have hacross := across_spoiled hlt (by omega) (by omega)
    obtain ⟨hreplies, -⟩ := hrun (spoiled p page) (size_spoiled p page)
    refine hreplies _ ?_ (init_fails_across hread hacross)
    simp only [serve, FlashM.run_bind, FlashM.run_pure, List.mem_singleton]
  · obtain ⟨-, hsteps⟩ := hrun (.replicate p.chip.capacity 0xFF) Array.size_replicate
    obtain ⟨step, hstep, haccess⟩ := FlashM.exists_step_of_first?
      (FlashM.first?_bind (first?_init p) _) Flash.device (.steady (.replicate p.chip.capacity 0xFF))
    have hreaches := hsteps step hstep
    rw [haccess] at hreaches
    exact not_reaches_of_le hread (Nat.le_of_not_lt hbase) hreaches

/-- **Exactly the accepted partitions that end below `2 ^ 32` work**: whatever the array holds, no call
fails as long as the flash refuses only accesses that do not lie within the array, and every access
reaches the address that it was computed for. -/
theorem works_iff_end_lt (hread : p.chip.readSize ∣ p.pageSize)
    (hwrite : p.chip.writeSize ∣ p.pageSize) : p.Works ↔ p.base + p.size < 2 ^ 32 :=
  ⟨fun hworks => Nat.lt_of_not_le fun hle => not_works_of_le hread hle hworks,
    fun hend => works_of_usable ⟨hread, hwrite, hend⟩⟩

theorem works_iff_end_lt_small :
    Partition.small.chip.readSize ∣ Partition.small.pageSize ∧
      Partition.small.chip.writeSize ∣ Partition.small.pageSize ∧ Partition.small.Works :=
  ⟨by decide, by decide, (works_iff_end_lt (by decide) (by decide)).mpr (by decide)⟩

end Session

/-! ## The last page of a chip -/

/-- A chip with as many cells as there are addresses. -/
def Chip.whole : Chip := ⟨1, 1, 16, 2 ^ 32, .maxim⟩

/-- The last page of such a chip. -/
def Partition.topmost : Partition :=
  { Partition.lone with
    chip := .whole
    base := 2 ^ 32 - 16
    eraseSize_pos := by decide
    eraseSize_dvd := by decide
    pageSize_dvd := by decide
    end_le := by decide }

/-- **A partition that is accepted and does not work.**  It is the last page of a chip that has the
claimed capacity.  The page holds no known status, so the first scan asks for its erase, with zero for
the address behind it, and the flash refuses an erase that ends in front of its start. -/
theorem Session.last_page_not_erased :
    let flash : Flash := .steady (.replicate (2 ^ 32) 0x55)
    Partition.create .whole (2 ^ 32 - 16) 16 16 = .ok .topmost ∧ Chip.whole.readSize ∣ 16 ∧
      Chip.whole.writeSize ∣ 16 ∧ flash.cells.size = Chip.whole.capacity ∧ flash.Follows .reliable ∧
      (((ofPartition .topmost).handle (.call .init)).run Flash.device flash).1.1 =
        .answered (.error .ioFailure) := by
  have hsize : (Array.replicate (2 ^ 32) (0x55 : UInt8)).size = 2 ^ 32 := Array.size_replicate
  have hacross : Partition.topmost.Across 0 (.replicate (2 ^ 32) 0x55) := by
    refine ⟨by decide, by decide, by decide, ?_, nofun, ?_⟩
    · rw [hsize]
      decide
    · rw [Array.getElem?_replicate, if_pos (by decide)]
  exact ⟨Partition.create_eq_ok_iff.mpr ⟨rfl, rfl, rfl, rfl⟩, by decide, by decide, hsize,
    fun _ => trivial, init_fails_across (by decide) hacross⟩

end RingStore
