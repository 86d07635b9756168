import RingStore.Proofs.Engine.Warrant
import RingStore.Proofs.FaultFree
import RingStore.Proofs.PowerLoss
import RingStore.Proofs.TornAppend

/-!
# What a torn erase leaves

A page is erased when no record of it claims a value any more, so an erase that is cut short has nothing to
lose.  If it got as far as the status byte, another scan finds an erased page that is not blank, and erases
it again.  If it has taken the rear part of the page only, another scan finds the records in front of the
cut, and the one across it as `Record.cut`: without its rear bytes.

That record was dropped, so its key is zero.  A cut within the key leaves the lower byte of it, which makes
a key that callers may use, in front of a payload that is blank; and the checksum does not cover the key.

## Main statements

* `Log.mem_locate_parse_cut`: the records of a content that was erased from some byte on.
* `Partition.Spent.smeared`: the live records after a part of a spent page was erased.
* `Session.torn_erase_read`: what is read after a torn erase, and what the same erase leaves if it has no
  effect at all.
* `Session.torn_erase_misread`: a key is read that was never used.
-/

namespace RingStore

open RingStore.Partition (Holdings)

/-! ## Records that were erased from some byte on -/

/-- The key of a dropped record whose upper byte was erased. -/
def smearKey : UInt16 := Key.unfinished tombstoneKey

namespace Record

/-- A record that was never written: an erase has left its header behind, with one byte of the key. -/
def IsSmear (record : Record) : Prop :=
  record.header.key = smearKey ∧ ∃ count, record.payload = List.replicate count 0xFF

variable {checksum : Checksum} {record : Record} {count : Nat}

theorem cutPayload_append_of_le {first : Bytes} (h : first.length ≤ count) (second : Bytes) :
    cutPayload (first ++ second) count = first ++ cutPayload second (count - first.length) := by
  rw [cutPayload, cutPayload, List.take_append, List.take_of_length_le h, List.length_append,
    List.append_assoc, show first.length + second.length - count =
      second.length - (count - first.length) by omega]

theorem cutPayload_append_of_ge {first : Bytes} (h : count ≤ first.length) (second : Bytes) :
    cutPayload (first ++ second) count =
      cutPayload first count ++ List.replicate second.length 0xFF := by
  rw [cutPayload, cutPayload, List.take_append_of_le_length h, List.append_assoc,
    List.replicate_append_replicate, List.length_append, show first.length + second.length - count =
      first.length - count + second.length by omega]

theorem cutPayload_zero (payload : Bytes) :
    cutPayload payload 0 = List.replicate payload.length 0xFF := by
  rw [cutPayload, List.take_zero, List.nil_append, Nat.sub_zero]

/-- **A cut record without a value passes for a live one** only if the cut is within the key. -/
theorem smear_of_isLive (hvoid : record.header.carriesValue = false)
    (hlive : (record.cut count).isLive checksum = true) :
    count = keyOffset + 1 ∧ (record.cut count).IsSmear := by
  rw [isLive, Bool.and_eq_true, Bool.and_eq_true, bne_iff_ne, Header.carriesValue, Bool.and_eq_true,
    Bool.not_eq_true', Bool.not_eq_true', Header.isTombstone, beq_eq_false_iff_ne] at hlive
  obtain ⟨⟨⟨htombstone, hfilled⟩, hblank⟩, -⟩ := hlive
  -- The length byte is there, so the record was dropped.
  have hdropped : record.header.key = tombstoneKey := by
    by_contra hkey
    have hcarries : record.header.carriesValue = true := by
      rw [Header.carriesValue, Bool.and_eq_true, Bool.not_eq_true', Bool.not_eq_true',
        Header.isTombstone, beq_eq_false_iff_ne]
      exact ⟨hkey, hfilled⟩
    rw [hcarries] at hvoid
    cases hvoid
  have hkey : (record.cut count).header.key = if 4 ≤ count then record.header.key
      else if count = 3 then Key.unfinished record.header.key else blankKey := rfl
  have hcount : count = 3 := by
    by_contra hne
    by_cases hfull : 4 ≤ count
    · exact htombstone (by rw [hkey, if_pos hfull, hdropped])
    · exact hblank (by rw [hkey, if_neg hfull, if_neg hne])
  subst hcount
  exact ⟨rfl, congrArg Key.unfinished hdropped, _, cutPayload_zero record.payload⟩

end Record

namespace Log

variable {content tail : Bytes} {records : List Record} {entry : Nat × Record}

/-- Whether a log begins with a record depends on its first byte and on its length. -/
theorem records_eq_nil_iff : (parse content).records = [] ↔
    ∀ b ∈ content.head?, b = endOfLog ∨ content.length < headerSize + b.toNat := by
  have hhead : ∀ {header : Header} {rest : Bytes}, Header.take? content = some (header, rest) →
      content.head? = some header.length ∧ content.length = headerSize + rest.length := fun h =>
    ⟨by rw [← Header.toBytes_of_take? h]; rfl, Header.length_of_take? h⟩
  fun_cases parse content with
  | case1 h =>
    refine iff_of_true rfl fun b _ => Or.inr (Nat.lt_of_lt_of_le ?_ (Nat.le_add_right headerSize _))
    match content with
    | [] | [_] | [_, _] | [_, _, _] => simp [headerSize]
    | _ :: _ :: _ :: _ :: _ => cases h
  | case2 header rest h hlength =>
    rw [(hhead h).1]
    refine iff_of_true rfl ?_
    rintro b ⟨⟩
    exact Or.inl hlength
  | case3 header rest h hlength payload hshort =>
    obtain ⟨hfirst, htotal⟩ := hhead h
    rw [hfirst]
    refine iff_of_true rfl ?_
    rintro b ⟨⟩
    rw [List.length_take] at hshort
    exact Or.inr (by omega)
  | case4 header rest h hlength payload hshort log =>
    obtain ⟨hfirst, htotal⟩ := hhead h
    rw [hfirst]
    refine iff_of_false (List.cons_ne_nil _ _) fun hnone => ?_
    rw [List.length_take] at hshort
    rcases hnone _ rfl with hend | hlt
    · exact hlength hend
    · omega

/-- A tail that was erased from some byte on is a tail. -/
theorem records_parse_cut_of_nil (h : (parse tail).records = []) (count : Nat) :
    (parse (Record.cutPayload tail count)).records = [] := by
  rcases Nat.eq_zero_or_pos count with rfl | hpos
  · rw [Record.cutPayload_zero, parse_of_isBlank (isBlank_replicate _)]
  · have hhead : (Record.cutPayload tail count).head? = tail.head? := by
      cases tail with
      | nil => rw [Record.cutPayload_of_le (Nat.zero_le _)]
      | cons b rest =>
        obtain ⟨count, rfl⟩ := Nat.exists_eq_add_of_le' hpos
        rfl
    rw [records_eq_nil_iff] at h ⊢
    rwa [hhead, Record.length_cutPayload]

/-- The records in front of a tail, erased from some byte on. -/
theorem mem_locate_cut (hwf : ∀ r ∈ records, r.WellFormed) (htail : (parse tail).records = [])
    {start count : Nat} (h : entry ∈ locate start
      (parse (Record.cutPayload (records.flatMap Record.toBytes ++ tail) count)).records) :
    entry ∈ locate start records ∨
      ∃ r, (entry.1, r) ∈ locate start records ∧ entry.2 = r.cut (start + count - entry.1) := by
  induction records generalizing start count with
  | nil =>
    rw [List.flatMap_nil, List.nil_append, records_parse_cut_of_nil htail] at h
    cases h
  | cons record rest ih =>
    have hrecord := hwf record (by simp)
    have hsize : record.toBytes.length = record.size := hrecord.length_toBytes
    rw [List.flatMap_cons, List.append_assoc] at h
    by_cases hin : record.size ≤ count
    · -- The record is in front of the cut.
      rw [Record.cutPayload_append_of_le (hsize ▸ hin), parse_toBytes_append hrecord, hsize] at h
      rcases List.mem_cons.mp h with rfl | hmem
      · exact Or.inl (List.mem_cons_self ..)
      · rcases ih (fun r hr => hwf r (by simp [hr])) hmem with hold | ⟨r, hr, hcut⟩
        · exact Or.inl (List.mem_cons_of_mem _ hold)
        · refine Or.inr ⟨r, List.mem_cons_of_mem _ hr, ?_⟩
          rw [hcut, show record.header.recordSize = record.size from rfl,
            show start + record.size + (count - record.size) = start + count by omega]
    · rw [Record.cutPayload_append_of_ge (by omega)] at h
      rcases Nat.eq_zero_or_pos count with rfl | hpos
      · rw [Record.cutPayload_zero, List.replicate_append_replicate,
          parse_of_isBlank (isBlank_replicate _)] at h
        cases h
      · -- The cut is within the record, and nothing is left behind it.
        rw [Record.cutPayload, ← record.toBytes_cut hpos, parse_toBytes_append (hrecord.cut count),
          parse_of_isBlank (isBlank_replicate _)] at h
        obtain rfl := List.mem_singleton.mp h
        refine Or.inr ⟨record, List.mem_cons_self .., ?_⟩
        rw [Nat.add_sub_cancel_left]

/-- **A content that was erased from some byte on** has the records in front of it, and a part of the one
across it. -/
theorem mem_locate_parse_cut {count : Nat}
    (h : entry ∈ locate 0 (parse (Record.cutPayload content count)).records) :
    entry ∈ locate 0 (parse content).records ∨
      ∃ r, (entry.1, r) ∈ locate 0 (parse content).records ∧ entry.2 = r.cut (count - entry.1) := by
  rw [eq_flatMap_append content] at h
  have hcut := mem_locate_cut (fun r hr => wellFormed_of_mem_parse hr)
    (congrArg Log.records (parse_tail content)) h
  rwa [Nat.zero_add] at hcut

end Log

/-! ## Pages that were erased from some byte on -/

/-- An erase that gets to the end of a page leaves the bytes in front of it. -/
theorem Image.wiped_eq_cutPayload {content : Bytes} {skipped count : Nat} (hskipped : 0 < skipped)
    (hend : content.length < skipped + count) :
    wiped content skipped count = Record.cutPayload content (skipped - 1) := by
  refine List.ext_getElem? fun i => ?_
  rw [wiped, List.getElem?_mapIdx, Record.cutPayload, List.getElem?_append, List.length_take]
  by_cases hi : i < content.length
  · rw [List.getElem?_eq_getElem hi, Option.map_some]
    by_cases hfront : i < skipped - 1
    · rw [if_neg (by omega), if_pos (by omega), List.getElem?_take_of_lt hfront,
        List.getElem?_eq_getElem hi]
    · rw [if_pos (by omega), if_neg (by omega), List.getElem?_replicate, if_pos (by omega)]
  · rw [List.getElem?_eq_none (by omega), if_neg (by omega), List.getElem?_replicate,
      if_neg (by omega)]
    rfl

namespace Partition

variable {p : Partition} {img : Image} {page : Nat}

namespace Holdings

/-- The live records after a part of a page was erased that held none of them.  A part of a dropped record
may have come to life, if the erase has begun within its key. -/
structure Smeared (page skipped : Nat) (L L' : Holdings) : Prop where
  nil : L page = []
  others : ∀ other, other ≠ page → L' other = L other
  smears : ∀ entry ∈ L' page, skipped = entry.1 + headerSize ∧ entry.2.IsSmear

end Holdings

/-- Nothing is live on a page that is spent. -/
theorem Spent.live_eq_nil (h : p.Spent page img) : p.live img page = [] := by
  refine List.eq_nil_iff_forall_not_mem.mpr fun entry hentry => ?_
  have hcarried : entry ∈ p.carried img page := by
    rw [live] at hentry
    rw [carried]
    split at hentry
    · next hholds =>
      rw [if_pos hholds]
      obtain ⟨hmem, hlive⟩ := List.mem_filter.mp hentry
      exact List.mem_filter.mpr ⟨hmem, Record.carriesValue_of_isLive hlive⟩
    · cases hentry
  rw [h.carried_eq] at hcarried
  cases hcarried

/-- **A spent page of which the front or the rear part is erased** holds at most a smear. -/
theorem Spent.smeared (h : p.Spent page img) {skipped count : Nat}
    (hpart : skipped = 0 ∨ (img.content page).length < skipped + count) :
    Holdings.Smeared page skipped (p.live img) (p.live (img.erasePart page skipped count)) := by
  refine ⟨h.live_eq_nil, fun other hne => live_congr (Image.status_erasePart_of_ne hne)
    (Image.content_erasePart_of_ne hne), fun entry hentry => ?_⟩
  rcases Nat.eq_zero_or_pos skipped with rfl | hskipped
  · exfalso
    rcases Nat.eq_zero_or_pos count with rfl | hcount
    · rw [Image.erasePart_zero, h.live_eq_nil] at hentry
      cases hentry
    · -- The status byte is erased.
      have hblank : (img.erasePart page 0 count).status page = some .blank :=
        (Function.update_self _ _ _).trans (if_pos ⟨rfl, hcount⟩)
      rw [p.live_eq_nil hblank rfl] at hentry
      cases hentry
  · have hwiped := Image.wiped_eq_cutPayload hskipped (hpart.resolve_left (Nat.ne_of_gt hskipped))
    have hstatus : (img.erasePart page skipped count).status page = img.status page :=
      (Function.update_self _ _ _).trans (if_neg fun hzero => Nat.ne_of_gt hskipped hzero.1)
    rw [live, Image.log, Image.content_erasePart_self, hwiped, hstatus] at hentry
    split at hentry
    · next hholds =>
      obtain ⟨hmem, hlive⟩ := List.mem_filter.mp hentry
      -- No record of the page claims a value.
      have hvoid : ∀ e ∈ Log.locate 0 (img.log page).records, e.2.header.carriesValue = false := by
        intro e he
        by_contra hcarries
        have hcarried : e ∈ p.carried img page := by
          rw [carried, if_pos hholds]
          exact List.mem_filter.mpr ⟨he, by simpa using hcarries⟩
        rw [h.carried_eq] at hcarried
        cases hcarried
      rcases Log.mem_locate_parse_cut hmem with hold | ⟨r, hr, hcut⟩
      · have hcarries := Record.carriesValue_of_isLive hlive
        rw [hvoid entry hold] at hcarries
        cases hcarries
      · rw [hcut] at hlive ⊢
        obtain ⟨hcount, hsmear⟩ := Record.smear_of_isLive (hvoid _ hr) hlive
        refine ⟨?_, hsmear⟩
        rw [keyOffset] at hcount
        rw [headerSize]
        omega
    · cases hentry

end Partition

/-! ## Values -/

namespace Contents

variable {m : Contents} {L L' : Holdings} {page skipped : Nat}

/-- Live records with a single copy of each key represent a map. -/
theorem exists_represented (h : L.Single) : ∃ m : Contents, m.Represented L := by
  have hvalue : ∀ key, ∃ v, L.Stored key v := by
    intro key
    by_cases hcopy : ∃ page entry, L.Copy key page entry
    · obtain ⟨page, entry, hcopy⟩ := hcopy
      exact ⟨some entry.2.payload, page, entry, hcopy, rfl⟩
    · exact ⟨none, fun page entry hentry => hcopy ⟨page, entry, hentry⟩⟩
  choose m hm using hvalue
  exact ⟨m, fun key => ⟨.refl key L, hm key, h key⟩⟩

theorem Represented.single (h : m.Represented L) : L.Single := fun key => (h key).sole

/-- The values that are admissible after an erase was torn: those of the map, and a blank one under the key
of a smear if the erase has begun behind a header. -/
def smeared (m : Contents) (skipped : Nat) : Outcomes := fun key =>
  {v | v = m key ∨
    headerSize ≤ skipped ∧ key = smearKey ∧ ∃ count, v = some (List.replicate count 0xFF)}

/-- **A torn erase** of a page without live records leaves the values as they are, but for a smear. -/
theorem Represented.admits_smeared (h : m.Represented L) (hsmeared : L.Smeared page skipped L') :
    (m.smeared skipped).Admits L' := by
  intro key v hv
  cases v with
  | none =>
    refine Or.inl (h.eq_of_stored fun other entry hcopy => ?_)
    have hne : other ≠ page := by
      rintro rfl
      rw [Holdings.Copy, hsmeared.nil] at hcopy
      cases hcopy.1
    exact hv other entry ⟨hsmeared.others other hne ▸ hcopy.1, hcopy.2⟩
  | some payload =>
    obtain ⟨other, entry, ⟨hmem, hkey⟩, rfl⟩ := hv
    by_cases heq : other = page
    · subst heq
      obtain ⟨hskipped, hsmear, count, hblank⟩ := hsmeared.smears entry hmem
      exact Or.inr ⟨by omega, hkey.symm.trans hsmear, count, congrArg some hblank⟩
    · rw [hsmeared.others other heq] at hmem
      exact Or.inl (h.eq_of_stored ⟨other, entry, ⟨hmem, hkey⟩, rfl⟩)

end Contents

/-! ## Runs -/

/-- A page whose erase was due and was refused, and what it leaves if it takes effect on a part. -/
theorem Partition.Due.exists_page {p : Partition} (hu : p.Usable) {start stop : UInt32} {cells : Cells}
    {due : Nat → Image → Prop} (h : p.Due due start stop cells) (hfits : p.base + p.size ≤ cells.size) :
    ∃ page < p.pageCount, start.toNat = p.pageAddress page ∧
      stop.toNat = p.pageAddress page + p.pageSize ∧ due page (p.image cells) ∧
      ∀ skipped count, skipped ≤ p.pageSize →
        p.image (Flash.device (.erase start stop) ⟨cells, Fate.erasedAt 0 skipped count⟩).2.cells =
          (p.image cells).erasePart page skipped (min count (p.pageSize - skipped)) := by
  obtain ⟨page, hpage, rfl, rfl, hdue⟩ := h
  have hend := p.pageAddress_add_le_end hpage
  have hlt := hu.end_lt
  have hpos := p.pageSize_pos
  have hstart : (Chip.busAddress (p.pageAddress page)).toNat = p.pageAddress page :=
    Chip.toNat_busAddress (by omega)
  have hstop : (Chip.busAddress (p.pageAddress page + p.pageSize)).toNat =
      p.pageAddress page + p.pageSize := Chip.toNat_busAddress (by omega)
  refine ⟨page, hpage, hstart, hstop, hdue, fun skipped count hskipped => ?_⟩
  have hrange : Chip.busAddress (p.pageAddress page) ≤
      Chip.busAddress (p.pageAddress page + p.pageSize) := by
    rw [UInt32.le_iff_toNat_le, hstart, hstop]
    omega
  rw [Flash.device_erase_refused hrange (by omega), hstart, hstop, Nat.add_sub_cancel_left]
  exact Partition.image_erase (by omega) (by omega)

namespace Session

variable {p : Partition} {session : Session} {store : Store} {flash : Flash} {cells : Cells}
  {operation : Operation}

/-- **Whenever a call asks for an erase, the page is spent**, and the call fails if it is refused. -/
theorem warranted_handle (hu : p.Usable) (hkeeps : session.Keeps p store)
    (hsound : store.Sound p (p.image cells)) (hfits : p.base + p.size ≤ cells.size)
    (hphase : store.phase = .ready) (hsingle : (p.live (p.image cells)).Single)
    (hguard : operation.KeepsGuard) (hprogram : operation.program? ≠ none) :
    (session.handle (.call operation)).Warranted (p.Due p.Spent)
      (·.1 = .answered (.error .ioFailure)) cells := by
  obtain ⟨x, hx⟩ := Option.ne_none_iff_exists'.mp hprogram
  have hwarranted := Engine.warranted_program hu (hsound.mirrors hphase) hsingle hx cells ⟨hfits, rfl⟩
  rw [handle_eq_callStore hkeeps (.call hguard), callStore, operation.run_eq_guarded hguard hx,
    Store.run_guarded_ready hphase, hsound.partition_eq, bind_assoc]
  refine FlashM.warranted_bind hwarranted ?_ (FlashM.always_size _ cells) fun _ _ _ => trivial
  rintro ⟨_, t⟩ rfl
  exact ⟨_, rfl, rfl⟩

/-- **A call whose erase is torn** ends as if that erase had no effect at all.  The page had no live records,
and it has none afterwards but a smear. -/
theorem run_torn_erase (hu : p.Usable) (hkeeps : session.Keeps p store)
    (hsound : store.Sound p (p.image cells)) (hfits : p.base + p.size ≤ cells.size)
    (hphase : store.phase = .ready) (hsingle : (p.live (p.image cells)).Single)
    (hguard : operation.KeepsGuard) (hprogram : operation.program? ≠ none) {index skipped count : Nat}
    (hpart : skipped = 0 ∨ skipped + count = p.pageSize) {first last : UInt32} :
    let call := session.handle (.call operation)
    let spared := call.run Flash.device ⟨cells, Fate.erasedAt index 0 0⟩
    let torn := call.run Flash.device ⟨cells, Fate.erasedAt index skipped count⟩
    ((call.steps Flash.device ⟨cells, Fate.erasedAt index skipped count⟩)[index]?).map Step.access =
        some (.erase first last) →
      torn.1 = spared.1 ∧ torn.1.1 = .answered (.error .ioFailure) ∧
        (p.live (p.image spared.2.cells)).Single ∧
        ∃ page < p.pageCount, first.toNat = p.pageAddress page ∧
          last.toNat = p.pageAddress page + p.pageSize ∧
          (p.live (p.image spared.2.cells)).Smeared page skipped (p.live (p.image torn.2.cells)) := by
  intro call spared torn herase
  -- The call goes as far as the erase, and the page is spent there.
  have hwarranted := warranted_handle hu hkeeps hsound hfits hphase hsingle hguard hprogram
  obtain ⟨answer, reached, hanswer, hdue, hsize, hrun⟩ := Flash.run_of_warranted hwarranted herase
  have hreached : p.base + p.size ≤ reached.size := hsize ▸ hfits
  obtain ⟨page, hpage, hfirst, hlast, hspent, himage⟩ := hdue.exists_page hu hreached
  have hspared : p.image spared.2.cells = p.image reached := by
    rw [congrArg Prod.snd (hrun 0 0), himage 0 0 (Nat.zero_le _), Nat.zero_min, Image.erasePart_zero]
  have htorn : p.image torn.2.cells =
      (p.image reached).erasePart page skipped (min count (p.pageSize - skipped)) := by
    rw [congrArg Prod.snd (hrun skipped count), himage skipped count (by omega)]
  have hanswers : ∀ skipped count,
      (call.run Flash.device ⟨cells, Fate.erasedAt index skipped count⟩).1 = answer := fun _ _ =>
    congrArg Prod.fst (hrun _ _)
  refine ⟨(hanswers skipped count).trans (hanswers 0 0).symm,
    (congrArg Prod.fst (hanswers skipped count)).trans hanswer, ?_, page, hpage, hfirst, hlast, ?_⟩
  · rw [hspared]
    exact hspent.single
  · rw [hspared, htorn]
    refine hspent.smeared (hpart.imp_right fun hend => ?_)
    have hlength := Partition.length_content hpage hreached
    have hstatus := p.statusSize_add_contentSize
    rw [statusSize] at hstatus
    omega

/-- **After a torn erase** the store has the values that it has if the erase fails without any effect, and
nothing is live on the page.  Only a key that is a smear may be read with a blank payload, and only if the
erase has begun within the key of a dropped record. -/
theorem torn_erase_read (hu : p.Usable) (hformatted : Formatted p session flash)
    (hflash : flash.Follows .reliable) {before after : List Request}
    (hbefore : ∀ request ∈ before, request.Stays)
    (hafter : ∀ request ∈ after, request.KeepsGuard) (hguard : operation.KeepsGuard)
    (hprogram : operation.program? ≠ none) {index skipped count : Nat}
    (hpart : skipped = 0 ∨ skipped + count = p.pageSize) {first last : UInt32} :
    let start := (session.serve before).run Flash.device flash
    let call := start.1.2.handle (.call operation)
    let spared := call.run Flash.device ⟨start.2.cells, Fate.erasedAt index 0 0⟩
    let torn := call.run Flash.device ⟨start.2.cells, Fate.erasedAt index skipped count⟩
    let booted := (torn.1.2.handle .reboot).run Flash.device (.steady torn.2.cells)
    ((call.steps Flash.device ⟨start.2.cells, Fate.erasedAt index skipped count⟩)[index]?).map
        Step.access = some (.erase first last) →
      torn.1 = spared.1 ∧ torn.1.1 = .answered (.error .ioFailure) ∧
      ∃ (m : Contents) (page : Nat) (s' : Option Contents) (P' : Outcomes),
        m.Represented (p.live (p.image spared.2.cells)) ∧
        Trace (Contents.Step p) (some m) (.reboot :: after)
          ((spared.1.2.serve (.reboot :: after)).run Flash.device (.steady spared.2.cells)).1.1 s' ∧
        Trace (Outcomes.Served p) (m.smeared skipped) (.reboot :: after)
          ((torn.1.2.serve (.reboot :: after)).run Flash.device (.steady torn.2.cells)).1.1 P' ∧
        page < p.pageCount ∧ first.toNat = p.pageAddress page ∧
        last.toNat = p.pageAddress page + p.pageSize ∧
        ∀ entry ∈ p.live (p.image booted.2.cells) page,
          skipped = entry.1 + headerSize ∧ entry.2.IsSmear := by
  intro start call spared torn booted herase
  obtain ⟨m₀, -, ⟨store, hkeeps, hsound, hfits, hphase, hrepresented⟩, -⟩ :=
    (hformatted.holds hu).serve hu hflash hbefore
  obtain ⟨hsame, hrefused, hsingle, page, hpage, hfirst, hlast, hsmeared⟩ :=
    run_torn_erase hu hkeeps hsound hfits hphase hrepresented.single hguard hprogram hpart herase
  obtain ⟨m, hm⟩ := Contents.exists_represented hsingle
  -- Whether the erase is torn or not, the ring stays anchored.
  have hstart : start.1.2.Secure p .tearing (fun _ => True) start.2.cells :=
    ⟨store, hkeeps, hsound, hfits, (hsound.mirrors hphase).secure _ _⟩
  have hsecure : call.Always .tearing _ start.2.cells fun answer after =>
      answer.2.Secure p .tearing (fun _ => True) after :=
    always_handle_secure hu (show Request.KeepsGuard (.call operation) from hguard) hstart
  obtain ⟨⟨storeₛ, hkeepsₛ, hsoundₛ, hfitsₛ, hsecureₛ⟩, -⟩ :=
    Flash.run_of_always (Flash.follows_tearing ⟨start.2.cells, Fate.erasedAt index 0 0⟩) hsecure
  obtain ⟨⟨storeₜ, hkeepsₜ, hsoundₜ, hfitsₜ, hsecureₜ⟩, -⟩ :=
    Flash.run_of_always (Flash.follows_tearing ⟨start.2.cells, Fate.erasedAt index skipped count⟩) hsecure
  obtain ⟨s', hcontents⟩ := trace_of_represented hu hkeepsₛ hsoundₛ hfitsₛ (hsecureₛ.anchored trivial)
    hm hafter
  have hanchored := hsecureₜ.anchored trivial
  obtain ⟨P', houtcomes⟩ := trace_of_admits hu hkeepsₜ hsoundₜ hfitsₜ hanchored
    (hm.admits_smeared hsmeared) hafter
  have hsteady : (Flash.steady torn.2.cells).Follows .reliable := fun _ => trivial
  obtain ⟨⟨-, hlive, -⟩, -⟩ := Flash.run_of_always hsteady
    (always_handle_rescanned hu hkeepsₜ hsoundₜ hfitsₜ hanchored)
  exact ⟨hsame, hrefused, m, page, s', P', hm, hcontents, houtcomes, hpage, hfirst, hlast,
    fun entry hentry => hsmeared.smears entry (hlive ▸ hentry)⟩

/-- The removal of an only value gives its page back, and the erase is torn within the key of its record. -/
theorem torn_erase_read_small :
    let start := formatting fun _ => .granted
    let stored := (start.1.2.serve [.call (.writeItem 2 [7])]).run Flash.device start.2
    let call := stored.1.2.handle (.call (.deleteItem 2))
    let spared := call.run Flash.device ⟨stored.2.cells, Fate.erasedAt 2 0 0⟩
    let torn := call.run Flash.device ⟨stored.2.cells, Fate.erasedAt 2 4 4⟩
    let booted := (torn.1.2.handle .reboot).run Flash.device (.steady torn.2.cells)
    let after : List Request := [.call (.readItem 2 [0, 0]), .call (.readItem smearKey [0, 0])]
    Partition.small.Usable ∧ Formatted .small start.1.2 start.2 ∧ start.2.Follows .reliable ∧
      ((call.steps Flash.device ⟨stored.2.cells, Fate.erasedAt 2 4 4⟩)[2]?).map Step.access =
        some (.erase 0 8) ∧
      torn.1 = spared.1 ∧ torn.1.1 = .answered (.error .ioFailure) ∧
      ∃ (m : Contents) (page : Nat) (s' : Option Contents) (P' : Outcomes),
        m.Represented (Partition.small.live (Partition.small.image spared.2.cells)) ∧
        Trace (Contents.Step .small) (some m) (.reboot :: after)
          ((spared.1.2.serve (.reboot :: after)).run Flash.device (.steady spared.2.cells)).1.1 s' ∧
        Trace (Outcomes.Served .small) (m.smeared 4) (.reboot :: after)
          ((torn.1.2.serve (.reboot :: after)).run Flash.device (.steady torn.2.cells)).1.1 P' ∧
        page < Partition.small.pageCount ∧ (0 : UInt32).toNat = Partition.small.pageAddress page ∧
        (8 : UInt32).toNat = Partition.small.pageAddress page + Partition.small.pageSize ∧
        ∀ entry ∈ Partition.small.live (Partition.small.image booted.2.cells) page,
          4 = entry.1 + headerSize ∧ entry.2.IsSmear := by
  intro start stored call spared torn booted after
  have hformatted : Formatted .small start.1.2 start.2 := formatted_small (by rfl)
  have hflash : start.2.Follows .reliable := follows_formatting fun _ => trivial
  have hbefore : ∀ request ∈ [Request.call (.writeItem 2 [7])], request.Stays := by
    simp [Request.Stays]
  have hafter : ∀ request ∈ after, request.KeepsGuard := by
    simp [after, Request.KeepsGuard, Operation.KeepsGuard]
  have hprogram : (Operation.deleteItem 2).program? ≠ none := Option.some_ne_none _
  have herase : ((call.steps Flash.device ⟨stored.2.cells, Fate.erasedAt 2 4 4⟩)[2]?).map Step.access =
      some (.erase 0 8) := by
    decide +kernel
  exact ⟨Partition.usable_small, hformatted, hflash, herase,
    torn_erase_read Partition.usable_small hformatted hflash hbefore hafter (by trivial) hprogram
      (Or.inr rfl) herase⟩

/-- **A torn erase may bring a key to life**, although it was never used.  A payload of ones is removed, the
erase of its page takes effect from the upper byte of the key on, and the checksum of the record fits. -/
theorem torn_erase_misread :
    let start := formattingOf .pair fun _ => .granted
    let stored := (start.1.2.handle (.call (.writeItem 5 (.replicate 11 0xFF)))).run Flash.device start.2
    let call := stored.1.2.handle (.call (.deleteItem 5))
    let spared := call.run Flash.device ⟨stored.2.cells, Fate.erasedAt 2 0 0⟩
    let torn := call.run Flash.device ⟨stored.2.cells, Fate.erasedAt 2 4 12⟩
    let booted := (torn.1.2.handle .reboot).run Flash.device (.steady torn.2.cells)
    let after : List Request := [.reboot, .call (.readItem smearKey (.replicate 12 0))]
    Partition.pair.Usable ∧ Formatted .pair start.1.2 start.2 ∧ stored.1.1.isDone = true ∧
      spared.1.1.isRefused = true ∧ torn.1.1.isRefused = true ∧
      ((call.steps Flash.device ⟨stored.2.cells, Fate.erasedAt 2 4 12⟩)[2]?).map Step.access =
        some (.erase 0 16) ∧
      ((spared.1.2.serve after).run Flash.device (.steady spared.2.cells)).1.1.map Reply.copied? =
        [none, some (0, .replicate 12 0)] ∧
      ((torn.1.2.serve after).run Flash.device (.steady torn.2.cells)).1.1.map Reply.copied? =
        [none, some (11, .replicate 11 0xFF ++ [0])] ∧
      (Partition.pair.live (Partition.pair.image booted.2.cells) 0).map (·.2.header.key) =
        [smearKey] := by
  intro start stored call spared torn booted after
  exact ⟨Partition.usable_pair, formatted_of_done (Reply.eq_done (by decide +kernel)),
    by decide +kernel, by decide +kernel, by decide +kernel, by decide +kernel, by decide +kernel,
    by decide +kernel, by decide +kernel⟩

end Session

end RingStore
