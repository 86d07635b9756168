import RingStore.Proofs.BootScan
import RingStore.Proofs.Checksum
import RingStore.Proofs.Engine.Damage
import RingStore.Proofs.FaultFree

/-!
# Damage to one payload stays there

A byte of the payload or the checksum byte of a live record is changed behind the store's back, whether the
store is down or runs.  With the usual checksum the change is always noticed: from then on the store behaves
as a map that has no value under the key of that record and that is otherwise as it was.  The only trace of
the damage is that a removal of the key may count the damaged record once.

## Main statements

* `Marred.ensures_program`: what the operations do on a flash with a damaged record.
* `Session.Withstands.serve`: the replies of a run on such a flash.
* `Session.damage_contained`: damage to one payload costs one value, and nothing else.
-/

namespace RingStore

open EngineM Engine

/-! ## Lookups as programs -/

theorem EngineM.ensures_ofExcept {α : Type} {p : Partition} {conduct : Conduct} {inv : Image → Prop}
    {t : Table} {img : Image} {result : Except Error α} {post : Post α} {fail : Post Error}
    (hok : ∀ a, result = .ok a → post a t img) (herror : ∀ error, result = .error error → fail error t img) :
    Ensures p conduct inv (MonadExcept.ofExcept result) t img post fail := by
  cases result with
  | ok a => exact ensures_pure (hok a rfl)
  | error error => exact ensures_throw (herror error rfl)

namespace Engine

variable {p : Partition} {key : UInt16}

theorem payloadOf_eq (hkey : isValidKey key = true) :
    payloadOf p key = find p key >>= fun best => pure (best.map (·.payload)) := if_pos hkey

/-- A typed lookup decodes what is found. -/
theorem map_fetch_eq {α : Type} [Storable α] (hkey : isValidKey key = true)
    (answer : Option α → Answer) :
    answer <$> (fetch key p : EngineM (Option α)) = find p key >>= fun best =>
      MonadExcept.ofExcept ((decoded (best.map (·.payload))).map answer) := by
  rw [fetch, payloadOf_eq hkey, bind_assoc, map_bind]
  congr 1
  funext best
  rw [pure_bind]
  cases best with
  | none => rfl
  | some f =>
    dsimp only [Option.map_some, decoded]
    cases (Storable.decode f.payload : Except Error α) <;> rfl

end Engine

namespace Operation

variable {p : Partition} {operation : Operation} {x : Partition → EngineM Answer} {key : UInt16}
  {accepted : Bool} {view : Option Bytes → Except Error Answer}

/-- **A lookup shows what is found.** -/
theorem program_eq_find (hx : operation.program? = some x)
    (hpurpose : operation.purpose = .lookup key accepted view) (haccepted : operation.purpose.Accepted p) :
    x p = find p key >>= fun best => MonadExcept.ofExcept (view (best.map (·.payload))) := by
  cases operation <;> cases hx <;> cases hpurpose
  case readItem buffer =>
    dsimp only
    rw [Engine.readItem, if_pos (accepted_readItem_iff.mp haccepted), map_bind]
    congr 1
    funext best
    cases best <;> rfl
  case itemLength =>
    dsimp only
    rw [Engine.lengthOf, payloadOf_eq haccepted, bind_assoc, map_bind]
    rfl
  case fetch route type => exact map_fetch_eq haccepted _
  case firmware => exact map_fetch_eq rfl _

/-- What a lookup shows is no failure of an access. -/
theorem ne_ioFailure_of_view (hpurpose : operation.purpose = .lookup key accepted view)
    {v : Option Bytes} {error : Error} (h : view v = .error error) : error ≠ .ioFailure := by
  cases operation <;> cases hpurpose
  case readItem buffer => cases h
  case itemLength => cases h
  case fetch route type =>
    exact ne_ioFailure_of_decoded (fun _ _ => type.eq_corrupt_of_decode) (eq_error_of_map h)
  case firmware =>
    exact ne_ioFailure_of_decoded (fun _ _ => ValueType.firmware.eq_corrupt_of_decode)
      (eq_error_of_map h)

end Operation

/-! ## A map that has lost a value -/

/-- A map that may have lost a value to damage, and whether the damaged record may still be there. -/
structure Salvage where
  contents : Contents
  damaged : Bool

namespace Salvage

/-- The reply of a map that may have lost the value of a key.  It is that of the map as it is, but for a
removal that counts the damaged record. -/
inductive Step (p : Partition) (key : UInt16) : Salvage → Request → Reply → Salvage → Prop
  /-- The request does what it does to a map.  The damaged record is gone at the latest when the key has a
  value again. -/
  | kept {s s' : Salvage} {request : Request} {reply : Reply}
      (hstep : Contents.Step p (some s.contents) request reply (some s'.contents))
      (hdamaged : s'.damaged = true → s.damaged = true ∧ s'.contents key = none) :
      Step p key s request reply s'
  /-- The damaged record is removed and counted. -/
  | removed {m : Contents} (habsent : m key = none) :
      Step p key ⟨m, true⟩ (.call (.deleteItem key)) (.answered (.ok (.count 1))) ⟨m, false⟩

/-- The table and the flash are sound, or they are but for the damaged record. -/
def Withstands (p : Partition) (key : UInt16) (s : Salvage) (t : Table) (img : Image) : Prop :=
  s.contents.Backed p t img ∨ s.damaged = true ∧ ∃ location intact other,
    intact.header.key = key ∧ Marred p s.contents location intact other t img

/-- The result of an engine program. -/
def Yields (p : Partition) (m : Contents) (key : UInt16) (operation : Operation)
    (result : Except Error Answer) (t : Table) (img : Image) : Prop :=
  (∃ m', m.Meets p operation.purpose result m' ∧ Withstands p key ⟨m', true⟩ t img) ∨
  operation = .deleteItem key ∧ result = .ok (.count 1) ∧ m.Backed p t img

end Salvage

namespace Marred

open Salvage (Withstands Yields)

variable {p : Partition} {m : Contents} {location : Location} {intact other : Record} {t : Table}
  {img : Image} {key : UInt16} {operation : Operation} {x : Partition → EngineM Answer}

theorem withstands (h : Marred p m location intact other t img) :
    Withstands p intact.header.key ⟨m, true⟩ t img := Or.inr ⟨rfl, location, intact, other, rfl, h⟩

/-- **A lookup** shows what the map has. -/
theorem ensures_lookup (hu : p.Usable) (h : Marred p m location intact other t img)
    (view : Option Bytes → Except Error Answer) :
    Ensures p .reliable p.Unasked
      (find p key >>= fun best => MonadExcept.ofExcept (view (best.map (·.payload)))) t img
      (fun answer t' img' => view (m key) = .ok answer ∧
        Withstands p intact.header.key ⟨m, true⟩ t' img')
      (fun error t' img' => view (m key) = .error error ∧
        Withstands p intact.header.key ⟨m, true⟩ t' img') := by
  by_cases hkey : key = intact.header.key
  · subst hkey
    refine (h.ensures_find_damaged hu).lift.bind ?_
    rintro _ t' img' ⟨rfl, hbacked⟩
    rw [h.absent]
    exact ensures_ofExcept (fun _ hok => ⟨hok, Or.inl hbacked⟩) fun _ herror => ⟨herror, Or.inl hbacked⟩
  · refine (h.ensures_find_other hu hkey).lift.bind ?_
    rintro best t' img' ⟨⟨rfl, rfl⟩, hbest, -⟩
    rw [hbest]
    exact ensures_ofExcept (fun _ hok => ⟨hok, h.withstands⟩) fun _ herror => ⟨herror, h.withstands⟩

/-- **A write** stores its payload or finds no room. -/
theorem ensures_writeItem (hu : p.Usable) (h : Marred p m location intact other t img) {payload : Bytes}
    (hargs : isValidKey key = true ∧ payload ≠ [] ∧ payload.length ≤ p.maxPayload) :
    Ensures p .reliable p.Unasked (writeItem p key payload) t img
      (fun _ t' img' => Withstands p intact.header.key ⟨Function.update m key (some payload), true⟩ t' img')
      (fun error t' img' => error = .outOfSpace ∧
        Withstands p intact.header.key ⟨m, true⟩ t' img') := by
  rw [writeItem_eq hargs]
  by_cases hkey : key = intact.header.key
  · subst hkey
    refine (h.ensures_find_damaged hu).lift.bind ?_
    rintro _ t' img' ⟨rfl, hbacked⟩
    have hcleared : Cleared (p.live img') intact.header.key none (p.live img') :=
      hbacked.represented.cleared h.absent.symm nofun
    refine (Engine.ensures_renew hu hbacked.mirrors hcleared hargs fun _ _ _ => trivial).mono ?_ ?_
    · rintro _ t'' img'' ⟨hmirrors, hupdate⟩
      exact Or.inl ⟨hmirrors, hbacked.represented.update hupdate⟩
    · rintro error t'' img'' ⟨rfl, -, rfl, rfl⟩
      exact ⟨rfl, Or.inl hbacked⟩
  · refine (h.ensures_find_other hu hkey).lift.bind ?_
    rintro old t' img' ⟨⟨rfl, rfl⟩, hold, hfound⟩
    refine (h.ensures_renew hu hkey hold hfound hargs).mono ?_ ?_
    · exact fun _ _ _ hmarred => hmarred.withstands
    · exact fun _ _ _ hspent => ⟨hspent.1, hspent.2.withstands⟩

/-- A write as an operation. -/
theorem ensures_store (hu : p.Usable) (h : Marred p m location intact other t img) {payload : Bytes}
    (hpurpose : operation.purpose = .store key payload) (haccepted : operation.purpose.Accepted p) :
    Ensures p .reliable p.Unasked ((fun _ => .done) <$> writeItem p key payload) t img
      (fun answer => Yields p m intact.header.key operation (.ok answer))
      (fun error t' img' => error ≠ .ioFailure ∧
        Yields p m intact.header.key operation (.error error) t' img') := by
  rw [hpurpose] at haccepted
  refine Ensures.map _ ((h.ensures_writeItem hu haccepted).mono ?_ ?_)
  · intro _ t' img' hwithstands
    refine Or.inl ⟨_, ?_, hwithstands⟩
    rw [hpurpose]
    exact Or.inr ⟨haccepted, Or.inl ⟨rfl, rfl⟩⟩
  · rintro _ t' img' ⟨rfl, hwithstands⟩
    refine ⟨nofun, Or.inl ⟨m, ?_, hwithstands⟩⟩
    rw [hpurpose]
    exact Or.inr ⟨haccepted, Or.inr ⟨rfl, rfl⟩⟩

/-- A lookup as an operation. -/
theorem ensures_look (hu : p.Usable) (h : Marred p m location intact other t img)
    (hx : operation.program? = some x) {accepted : Bool} {view : Option Bytes → Except Error Answer}
    (hpurpose : operation.purpose = .lookup key accepted view) (haccepted : operation.purpose.Accepted p) :
    Ensures p .reliable p.Unasked (x p) t img
      (fun answer => Yields p m intact.header.key operation (.ok answer))
      (fun error t' img' => error ≠ .ioFailure ∧
        Yields p m intact.header.key operation (.error error) t' img') := by
  have hmeets : ∀ result, view (m key) = result → m.Meets p operation.purpose result m := by
    rintro _ rfl
    rw [hpurpose] at haccepted ⊢
    exact Or.inr ⟨haccepted, rfl, rfl⟩
  rw [operation.program_eq_find hx hpurpose haccepted]
  refine (h.ensures_lookup hu view).mono ?_ ?_
  · rintro answer t' img' ⟨hok, hwithstands⟩
    exact Or.inl ⟨m, hmeets _ hok, hwithstands⟩
  · rintro error t' img' ⟨herror, hwithstands⟩
    exact ⟨operation.ne_ioFailure_of_view hpurpose herror, Or.inl ⟨m, hmeets _ herror, hwithstands⟩⟩

/-- A removal as an operation. -/
theorem ensures_removal (hu : p.Usable) (h : Marred p m location intact other t img)
    (hvalid : isValidKey key = true) :
    Ensures p .reliable p.Unasked (.count <$> deleteItem p key) t img
      (fun answer => Yields p m intact.header.key (.deleteItem key) (.ok answer))
      (fun error t' img' => error ≠ .ioFailure ∧
        Yields p m intact.header.key (.deleteItem key) (.error error) t' img') := by
  by_cases hkey : key = intact.header.key
  · subst hkey
    refine Ensures.map _ ((h.ensures_deleteItem_damaged hu hvalid).weaken ?_)
    rintro _ t' img' ⟨rfl, hbacked⟩
    exact Or.inr ⟨rfl, rfl, hbacked⟩
  · refine Ensures.map _ ((h.ensures_deleteItem_other hu hkey hvalid).weaken ?_)
    rintro _ t' img' ⟨rfl, hmarred⟩
    exact Or.inl ⟨_, Or.inr ⟨hvalid, rfl, rfl⟩, hmarred.withstands⟩

/-- **An engine program** on a flash with a damaged record. -/
theorem ensures_program (hu : p.Usable) (h : Marred p m location intact other t img)
    (hx : operation.program? = some x) :
    Ensures p .reliable p.Unasked (x p) t img
      (fun answer => Yields p m intact.header.key operation (.ok answer))
      (fun error t' img' => error ≠ .ioFailure ∧
        Yields p m intact.header.key operation (.error error) t' img') := by
  by_cases haccepted : operation.purpose.Accepted p
  · cases operation
    case readItem | itemLength | fetch | firmware => exact h.ensures_look hu hx rfl haccepted
    case writeItem | put | setFirmware =>
      cases hx
      exact h.ensures_store hu rfl haccepted
    case deleteItem =>
      cases hx
      exact h.ensures_removal hu haccepted
    case sweep =>
      cases hx
      refine Ensures.map _ ((h.ensures_sweep hu).weaken ?_)
      exact fun _ _ _ hmarred => Or.inl ⟨m, Or.inr ⟨trivial, ⟨_, rfl⟩, rfl⟩, hmarred.withstands⟩
    case usage =>
      cases hx
      exact ensures_get_bind (ensures_pure
        (Or.inl ⟨m, Or.inr ⟨trivial, ⟨_, rfl⟩, rfl⟩, h.withstands⟩))
    case init | maxPayload => cases hx
  · rw [operation.program_eq_throw hx haccepted]
    exact ensures_throw ⟨nofun, Or.inl ⟨m, Or.inl ⟨haccepted, rfl, rfl⟩, h.withstands⟩⟩

end Marred

/-! ## Damage to one byte -/

namespace Record

variable {record : Record}

/-- A live record may have another payload of the same length, with its checksum. -/
theorem isLive_withPayload {checksum : Checksum} (h : record.isLive checksum = true) {payload : Bytes}
    (hlength : payload.length = record.payload.length) :
    isLive checksum ⟨{ record.header with crc := checksum 0 payload }, payload⟩ = true := by
  simp only [isLive, Header.verify, Bool.and_eq_true, beq_iff_eq] at h ⊢
  exact ⟨h.1, hlength.trans h.2.1, trivial⟩

theorem length_payload_pos {checksum : Checksum} (h : record.isLive checksum = true) :
    0 < record.payload.length := by
  simp only [isLive, Header.carriesValue, Header.isVoid, Header.verify, Bool.and_eq_true, beq_iff_eq,
    Bool.not_eq_true', beq_eq_false_iff_ne] at h
  rw [h.2.1]
  exact Nat.pos_of_ne_zero fun hzero => h.1.1.2 (UInt8.toNat_inj.mp hzero)

theorem xor_ne_self {byte mask : UInt8} (h : mask ≠ 0) : byte ^^^ mask ≠ byte := fun heq =>
  h ((UInt8.xor_right_inj byte).mp (heq.trans UInt8.xor_zero.symm))

/-- A change behind the first part of a list. -/
theorem modify_append (first rest : Bytes) (k : Nat) (f : UInt8 → UInt8) :
    (first ++ rest).modify (first.length + k) f = first ++ rest.modify k f := by
  induction first with
  | nil => rw [List.nil_append, List.length_nil, Nat.zero_add, List.nil_append]
  | cons byte first ih =>
    rw [List.length_cons, Nat.add_right_comm, List.cons_append, List.modify_succ_cons, ih,
      List.cons_append]

/-- **A live record with one byte changed**, in its payload or its checksum, has the header of one live
record and the payload of another one.  The usual checksum tells these two apart. -/
theorem exists_mixed (h : record.isLive .maxim = true) {i : Nat}
    (hi : i = 1 ∨ headerSize ≤ i ∧ i < record.toBytes.length) {mask : UInt8} (hmask : mask ≠ 0) :
    ∃ intact other : Record, intact.isLive .maxim = true ∧ other.isLive .maxim = true ∧
      intact.header = { record.header with crc := intact.header.crc } ∧
      other.header = { record.header with crc := other.header.crc } ∧
      other.header.crc ≠ intact.header.crc ∧
      (intact.mixed other).toBytes = record.toBytes.modify i (· ^^^ mask) := by
  rcases hi with rfl | ⟨hge, hlt⟩
  · -- The checksum that is found is that of another payload.
    obtain ⟨payload, hlength, hcrc⟩ :=
      Checksum.exists_maxim_eq (length_payload_pos h) 0 (record.header.crc ^^^ mask)
    refine ⟨record, _, h, isLive_withPayload h hlength, rfl, rfl, ?_, ?_⟩
    · rw [hcrc]
      exact xor_ne_self hmask
    · rw [mixed, hcrc]
      rfl
  · -- The payload that is found has another checksum.
    obtain ⟨k, rfl⟩ := Nat.exists_eq_add_of_le hge
    rw [toBytes, List.length_append, Header.length_toBytes, Nat.add_lt_add_iff_left] at hlt
    obtain ⟨before, byte, after, hpayload, -, hmodify⟩ := List.exists_of_modify (· ^^^ mask) hlt
    have hlength : (record.payload.modify k (· ^^^ mask)).length = record.payload.length :=
      List.length_modify _ _ _
    refine ⟨_, record, isLive_withPayload h hlength, h, rfl, rfl, ?_, ?_⟩
    · have hcrc : record.header.crc = Checksum.maxim 0 record.payload := by
        simp only [isLive, Header.verify, Bool.and_eq_true, beq_iff_eq] at h
        exact h.2.2.symm
      rw [hcrc, hmodify]
      conv => lhs; rw [hpayload]
      exact Checksum.maxim_ne_of_ne 0 before after (xor_ne_self hmask).symm
    · have hmodified := modify_append record.header.toBytes record.payload k (· ^^^ mask)
      rw [Header.length_toBytes] at hmodified
      exact hmodified.symm

end Record

/-! ## Runs on a flash with a damaged record -/

namespace Salvage

variable {p : Partition} {key : UInt16} {s s' : Salvage} {request : Request} {reply : Reply}

/-- To the map the routes are the same. -/
theorem Step.of_onGuard (h : Step p key s request.onGuard reply s') : Step p key s request reply s' := by
  generalize hguard : request.onGuard = guarded at h
  cases h with
  | kept hstep hdamaged => exact .kept (hguard ▸ hstep).of_onGuard hdamaged
  | removed habsent =>
    have hrequest : request = .call (.deleteItem key) := by
      cases request with
      | call operation =>
        cases operation <;> cases hguard
        rfl
      | _ => cases hguard
    exact hrequest ▸ .removed habsent

end Salvage

namespace Session

variable {p : Partition} {key : UInt16} {s : Salvage} {session : Session} {cells : Cells}

/-- A session with a store that is ready, on a flash that is sound but for a damaged record. -/
def Withstands (p : Partition) (key : UInt16) (s : Salvage) (session : Session) (cells : Cells) :
    Prop :=
  ∃ store, session.Keeps p store ∧ store.partition = p ∧ store.phase = .ready ∧
    p.base + p.size ≤ cells.size ∧ s.Withstands p key store.table (p.image cells)

/-- A session that holds a map has lost nothing. -/
theorem Holds.withstands {m : Contents} (h : session.Holds p (some m) cells) (key : UInt16) :
    session.Withstands p key ⟨m, false⟩ cells := by
  obtain ⟨store, hsession, hsound, hfits, hphase, hrepresented⟩ := h
  exact ⟨store, hsession, hsound.partition_eq, hphase, hfits,
    Or.inl ⟨hsound.mirrors hphase, hrepresented⟩⟩

/-- A session on a sound flash answers as a map. -/
theorem always_handle_backed (hu : p.Usable) {store : Store} {m : Contents} {request : Request}
    (hrequest : request.KeepsGuard) (hsession : session.Keeps p store) (hpartition : store.partition = p)
    (hphase : store.phase = .ready) (hfits : p.base + p.size ≤ cells.size)
    (hbacked : m.Backed p store.table (p.image cells)) (damaged : Bool) :
    (session.handle request).Always .reliable (fun _ => True) cells fun answer after =>
      ∃ s', Salvage.Step p key ⟨m, damaged⟩ request answer.1 s' ∧ answer.2.Withstands p key s' after := by
  have hholds : session.Holds p (some m) cells :=
    ⟨store, hsession, ⟨hpartition, fun _ => hbacked.mirrors⟩, hfits, hphase, hbacked.represented⟩
  refine (always_handle_holds hu hrequest hholds).mono (fun _ hc => hc) ?_
  rintro answer after ⟨s', hstep, hafter⟩
  obtain ⟨m', rfl⟩ := hstep.exists_eq_some
  exact ⟨⟨m', false⟩, .kept hstep nofun, hafter.withstands key⟩

section Damaged

variable {store target : Store} {m : Contents} {location : Location} {intact other : Record}
  {operation : Operation} {request : Request} (hsession : session.Keeps p store)
  (hpartition : store.partition = p) (hphase : store.phase = .ready)
  (hfits : p.base + p.size ≤ cells.size)
  (hmarred : Marred p m location intact other store.table (p.image cells))

include hsession hpartition hphase hfits hmarred

omit hphase in
/-- **Another scan** finds the damage and drops the record. -/
theorem always_handle_scan_marred (hu : p.Usable) (hcalls : request.Calls p store target .init) :
    (session.handle request).Always .reliable (fun _ => True) cells fun answer after =>
      ∃ s', Salvage.Step p intact.header.key ⟨m, true⟩ request answer.1 s' ∧
        answer.2.Withstands p intact.header.key s' after := by
  have htarget : target.partition = p := by
    cases hcalls with
    | reboot => rfl
    | call => exact hpartition
  have hinit : StoreM.Ensures p .reliable p.Unasked Operation.init.run target (p.image cells)
      fun result store' img' => store'.Sound p img' ∧
        Store.Outcome p .reliable False .init target (p.image cells) result store' img' :=
    Store.ensures_run_init hu (by nofun) (Or.inr fun _ => trivial) htarget
  have hrun := (hinit cells ⟨hfits, rfl⟩ (p.secure_of_unasked _ _)).keep (p.secure_of_unasked _ _)
  refine (always_handle hsession hcalls hrun).mono (fun _ _ => trivial) ?_
  rintro ⟨reply, session'⟩ after ⟨result, store', rfl, hsession', -, hsize, hsound, houtcome⟩
  have hmarked : (p.image cells).Marked p.pageCount := hmarred.sustains_intact.mirrors.marked
  obtain ⟨rfl, hphase', hlive⟩ := houtcome.scan (Or.inl hmarked)
  have hrepresented : m.Represented (p.live (p.image after)) := hlive ▸ hmarred.represented
  have hstep : Contents.Step p (some m) request (.answered (.ok .done)) (some m) :=
    Contents.step_of_called hcalls ⟨rfl, rfl⟩
  exact ⟨⟨m, false⟩, .kept hstep nofun, store', hsession', hsound.partition_eq, hphase', hsize ▸ hfits,
    Or.inl ⟨hsound.mirrors hphase', hrepresented⟩⟩

/-- **A call** of an engine program. -/
theorem always_handle_call_marred (hu : p.Usable) (hkeeps : operation.KeepsGuard)
    {x : Partition → EngineM Answer} (hx : operation.program? = some x) :
    (session.handle (.call operation)).Always .reliable (fun _ => True) cells fun answer after =>
      ∃ s', Salvage.Step p intact.header.key ⟨m, true⟩ (.call operation) answer.1 s' ∧
        answer.2.Withstands p intact.header.key s' after := by
  refine (always_call_of_ready hsession hpartition hfits hphase hkeeps hx (p.secure_of_unasked _ _)
    (hmarred.ensures_program hu hx)).mono (fun _ hc => hc) ?_
  rintro ⟨reply, session'⟩ after ⟨hfits', result, t', rfl, hsession', hpost⟩
  have hanswers : Salvage.Yields p m intact.header.key operation result t' (p.image after) ∧
      Store.phaseAfter result = .ready := by
    cases result with
    | ok answer => exact ⟨hpost, rfl⟩
    | error error => exact ⟨hpost.2, Store.phaseAfter_error hpost.1⟩
  obtain ⟨⟨m', hmeets, hwithstands⟩ | ⟨rfl, rfl, hbacked⟩, hphase'⟩ := hanswers
  · have hstep : Contents.Step p (some m) (.call operation) (.answered result) (some m') := by
      cases operation <;> first | exact ⟨m', hmeets, rfl⟩ | cases hx
    rcases hwithstands with hbacked | ⟨-, hmarred'⟩
    · exact ⟨⟨m', false⟩, .kept hstep nofun, _, hsession', rfl, hphase', hfits', Or.inl hbacked⟩
    · obtain ⟨at_, first, second, hkey, hmarred'⟩ := id hmarred'
      exact ⟨⟨m', true⟩, .kept hstep fun _ => ⟨rfl, hkey ▸ hmarred'.absent⟩, _, hsession', rfl, hphase',
        hfits', Or.inr ⟨rfl, at_, first, second, hkey, hmarred'⟩⟩
  · exact ⟨⟨m, false⟩, .removed hmarred.absent, _, hsession', rfl, hphase', hfits', Or.inl hbacked⟩

/-- A call that needs no access. -/
theorem always_handle_maxPayload_marred :
    (session.handle (.call .maxPayload)).Always .reliable (fun _ => True) cells fun answer after =>
      ∃ s', Salvage.Step p intact.header.key ⟨m, true⟩ (.call .maxPayload) answer.1 s' ∧
        answer.2.Withstands p intact.header.key s' after := by
  refine (always_handle_maxPayload hsession hpartition).mono (fun _ hc => hc) ?_
  rintro ⟨reply, session'⟩ after ⟨rfl, hsession', rfl⟩
  exact ⟨⟨m, true⟩, .kept ⟨rfl, rfl⟩ fun _ => ⟨rfl, hmarred.absent⟩, store, hsession', hpartition, hphase,
    hfits, hmarred.withstands⟩

end Damaged

/-- **A request** is answered as by a map that may have lost a value. -/
theorem always_handle_withstands (hu : p.Usable) {request : Request} (hrequest : request.KeepsGuard)
    (h : session.Withstands p key s cells) :
    (session.handle request).Always .reliable (fun _ => True) cells fun answer after =>
      ∃ s', Salvage.Step p key s request answer.1 s' ∧ answer.2.Withstands p key s' after := by
  obtain ⟨store, hsession, hpartition, hphase, hfits, hbacked | hmarred⟩ := h
  · exact always_handle_backed hu hrequest hsession hpartition hphase hfits hbacked s.damaged
  · obtain ⟨m, damaged⟩ := s
    obtain ⟨rfl, location, intact, other, rfl, hmarred⟩ := hmarred
    cases request with
    | create placement => exact hrequest.elim
    | reboot => exact always_handle_scan_marred hsession hpartition hfits hmarred hu .reboot
    | call operation =>
      cases hx : operation.program? with
      | some x => exact always_handle_call_marred hsession hpartition hphase hfits hmarred hu hrequest hx
      | none =>
        cases operation <;> try cases hx
        · exact always_handle_scan_marred hsession hpartition hfits hmarred hu (.call trivial)
        · exact always_handle_maxPayload_marred hsession hpartition hphase hfits hmarred

/-- No call fails for an access. -/
theorem Withstands.unfailing (hu : p.Usable) (h : session.Withstands p key s cells) :
    session.Unfailing p cells := by
  obtain ⟨store, hsession, hpartition, hphase, hfits, hbacked | ⟨-, location, intact, other, -, hmarred⟩⟩ := h
  · have hready : session.Ready p cells :=
      ⟨store, hsession, ⟨hpartition, fun _ => hbacked.mirrors⟩, hfits, hphase⟩
    exact hready.unfailing hu
  · refine ⟨store, hsession, hpartition, hphase, fun operation x hx => ?_⟩
    exact always_ne_ioFailure hfits (p.secure_of_unasked _ _) (hmarred.ensures_program hu hx)
      fun _ _ _ hfail => hfail.1

/-- **The replies of a run** are those of a map that may have lost a value. -/
theorem Withstands.serve (hu : p.Usable) {flash : Flash} (h : session.Withstands p key s flash.cells)
    (hflash : flash.Follows .reliable) {requests : List Request}
    (hrequests : ∀ request ∈ requests, request.Stays) :
    ∃ s', Trace (Salvage.Step p key) s requests
      ((session.serve requests).run Flash.device flash).1.1 s' := by
  have hstep : ∀ request ∈ requests, ∀ (s : Salvage) (session : Session) (cells : Cells),
      session.Withstands p key s cells →
        (session.handle request.onGuard).Always .reliable (fun _ => True) cells fun answer after =>
          ∃ s', Salvage.Step p key s request answer.1 s' ∧ answer.2.Withstands p key s' after := by
    intro request hrequest s session cells hwithstands
    refine (always_handle_withstands hu (hrequests request hrequest).keepsGuard_onGuard hwithstands).mono
      (fun _ hc => hc) ?_
    rintro answer after ⟨s', hreply, hafter⟩
    exact ⟨s', hreply.of_onGuard, hafter⟩
  obtain ⟨s', htrace, -⟩ := serve_of_onGuard _ _ (fun _ _ _ hwithstands => hwithstands.unfailing hu)
    hstep h hflash
  exact ⟨s', htrace⟩

/-- **Damage to one byte** of a live record leaves a session that has lost no value but that of the
record. -/
theorem Holds.withstands_flip {m : Contents} (hchecksum : p.chip.checksum = .maxim)
    (h : session.Holds p (some m) cells) {page offset : Nat} {record : Record}
    (hlive : (offset, record) ∈ p.live (p.image cells) page) {i : Nat}
    (hi : i = 1 ∨ headerSize ≤ i ∧ i < record.size) {mask : UInt8} (hmask : mask ≠ 0) :
    session.Withstands p record.header.key ⟨Function.update m record.header.key none, true⟩
      (cells.flip (p.contentAddress page (offset + i)) mask) := by
  obtain ⟨store, hsession, hsound, hfits, hphase, hrepresented⟩ := h
  have hbacked : m.Backed p store.table (p.image cells) := ⟨hsound.mirrors hphase, hrepresented⟩
  have hs : Sustains p m ⟨page, offset⟩ record store.table (p.image cells) := hbacked.sustains_self hlive
  have hroom := hs.bytes.1
  have hrecord := hs.isLive
  rw [hchecksum] at hrecord
  rw [← hs.wellFormed.length_toBytes] at hi
  obtain ⟨intact, other, hintact, hother, hheader, hheader', hcrc, hmixed⟩ :=
    Record.exists_mixed hrecord hi hmask
  rw [← hchecksum] at hintact hother
  have hlt : i < record.toBytes.length := by
    rcases hi with rfl | hi
    · rw [hs.wellFormed.length_toBytes]
      exact Nat.lt_of_lt_of_le (by decide) (Nat.le_add_right headerSize _)
    · exact hi.2
  rw [(show p.Shows (p.image cells) cells from ⟨hfits, rfl⟩).length_content hs.lt_pageCount] at hroom
  have himage := Partition.image_flip hroom hs.bytes.2 hlt mask
  have hmarred : Marred p _ ⟨page, offset⟩ intact other store.table _ :=
    hbacked.marred hlive hintact hother hheader hheader' hcrc
  refine ⟨store, hsession, hsound.partition_eq, hphase, by rwa [Cells.size_flip], ?_⟩
  rw [himage, ← hmixed]
  exact Or.inr ⟨rfl, _, intact, other, by rw [hheader], hmarred⟩

/-- **Damage to one payload costs one value and nothing else.**  After any run on a formatted partition, a
byte of the payload or the checksum byte of a live record is changed.  From then on, reboots included, the
replies are those of a map that has lost the value of that key only, but for one removal that may count the
damaged record. -/
theorem damage_contained (hu : p.Usable) (hchecksum : p.chip.checksum = .maxim) {flash : Flash}
    (hformatted : session.Formatted p flash) (hflash : flash.Follows .reliable)
    {earlier : List Request} (hearlier : ∀ request ∈ earlier, request.Stays) :
    let run := (session.serve earlier).run Flash.device flash
    ∃ m, Trace (Contents.Step p) (some .empty) earlier run.1.1 (some m) ∧
      ∀ page offset record, (offset, record) ∈ p.live (p.image run.2.cells) page →
        m record.header.key = some record.payload ∧
        ∀ i mask later, (i = 1 ∨ headerSize ≤ i ∧ i < record.size) → mask ≠ 0 →
          (∀ request ∈ later, Request.Stays request) →
            let damaged : Flash := { run.2 with
              cells := run.2.cells.flip (p.contentAddress page (offset + i)) mask }
            ∃ s, Trace (Salvage.Step p record.header.key)
              ⟨Function.update m record.header.key none, true⟩ later
              ((run.1.2.serve later).run Flash.device damaged).1.1 s := by
  intro run
  obtain ⟨m, htrace, hholds, hfollows⟩ := (hformatted.holds hu).serve hu hflash hearlier
  refine ⟨m, htrace, fun page offset record hlive => ⟨?_, fun i mask later hi hmask hlater => ?_⟩⟩
  · obtain ⟨store, -, hsound, -, hphase, hrepresented⟩ := hholds
    have hbacked : m.Backed p store.table (p.image run.2.cells) := ⟨hsound.mirrors hphase, hrepresented⟩
    exact hbacked.eq_some hlive
  · intro damaged
    have hdamaged : damaged.Follows .reliable := hfollows
    exact (hholds.withstands_flip hchecksum hlive hi hmask).serve hu hdamaged hlater

/-- Two values are written and a bit of the first one is inverted.  It is gone, the second one is not, and
there may be another one under the first key. -/
theorem damage_contained_pair :
    let start := formattingOf .pair fun _ => .granted
    let earlier : List Request := [.call (.writeItem 5 [1, 2]), .call (.writeItem 9 [3])]
    let run := (start.1.2.serve earlier).run Flash.device start.2
    let record : Record := .ofPayload .maxim 5 [1, 2]
    let damaged : Flash := { run.2 with
      cells := run.2.cells.flip (Partition.pair.contentAddress 0 (0 + 4)) 0x10 }
    let later : List Request := [.call (.readItem 9 [0]), .call (.readItem 5 [0, 0]),
      .call (.writeItem 5 [4]), .reboot, .call (.readItem 5 [0, 0])]
    Partition.pair.Usable ∧ Partition.pair.chip.checksum = .maxim ∧ Formatted .pair start.1.2 start.2 ∧
      start.2.Follows .reliable ∧ (∀ request ∈ earlier, request.Stays) ∧
      (0, record) ∈ Partition.pair.live (Partition.pair.image run.2.cells) 0 ∧
      (headerSize ≤ 4 ∧ 4 < record.size) ∧ (0x10 : UInt8) ≠ 0 ∧ (∀ request ∈ later, request.Stays) ∧
      ∃ m s, m 5 = some [1, 2] ∧ Trace (Salvage.Step .pair 5) ⟨Function.update m 5 none, true⟩ later
        ((run.1.2.serve later).run Flash.device damaged).1.1 s := by
  intro start earlier run record damaged later
  have hformatted : Formatted .pair start.1.2 start.2 :=
    formatted_of_done (Reply.eq_done (by decide +kernel))
  have hflash : start.2.Follows .reliable := follows_formattingOf .pair fun _ => trivial
  have hearlier : ∀ request ∈ earlier, request.Stays := by
    simp [earlier, Request.Stays]
  have hlater : ∀ request ∈ later, request.Stays := by
    simp [later, Request.Stays]
  have hlive : (0, record) ∈ Partition.pair.live (Partition.pair.image run.2.cells) 0 := by
    decide +kernel
  obtain ⟨m, -, hdamage⟩ := damage_contained Partition.usable_pair rfl hformatted hflash hearlier
  obtain ⟨hvalue, hcontained⟩ := hdamage 0 0 record hlive
  obtain ⟨s, htrace⟩ := hcontained 4 0x10 later (Or.inr (by decide)) (by decide) hlater
  exact ⟨Partition.usable_pair, rfl, hformatted, hflash, hearlier, hlive, by decide, by decide, hlater,
    m, s, hvalue, htrace⟩

end Session

end RingStore
