import RingStore.Engine.Lookup
import RingStore.Proofs.Image

/-!
# What live records say of the keys

The live records of a partition are all that a reader can see.  Several of them may be copies of one
key, left behind by writes that were cut short; `Holdings.Stored` says what a lookup may then find.
`Holdings.Between` relates the live records during an operation on a key to those before it, and
`Holdings.Update` relates those after the operation: all other keys have the same records.

A lookup keeps one copy of its key and drops all others.  `Holdings.Searched` says which copies are
left while it goes on; it is the invariant of its walk.

## Main statements

* `Searched.skip`, `Searched.first`, `Searched.replace`, `Searched.discard`: the steps of a lookup.
* `Searched.update`: at its end, one copy is left and no other key is touched.
* `Heeds.eq_some`: the copy that is left is the newest one.
* `Update.added`, `Update.replaced`: the last steps of a write.
* `Purged.update`: the end of a removal.
-/

namespace RingStore.Partition.Holdings

variable {L L₁ L' : Holdings} {key : UInt16} {page offset : Nat} {entry : Nat × Record}

/-- The live records with one more on a page. -/
def added (L : Holdings) (page offset : Nat) (record : Record) : Holdings :=
  Function.update L page (L page ++ [(offset, record)])

/-- The live records without the one that begins at a location. -/
def without (L : Holdings) (location : Location) : Holdings :=
  Function.update L location.page ((L location.page).filter (·.1 != location.offset))

theorem mem_added {record : Record} {other : Nat} :
    entry ∈ L.added page offset record other ↔
      entry ∈ L other ∨ other = page ∧ entry = (offset, record) := by
  rw [added]
  by_cases heq : other = page
  · subst heq
    rw [Function.update_self, List.mem_append, List.mem_singleton]
    simp
  · rw [Function.update_of_ne heq]
    simp [heq]

theorem mem_without {location : Location} :
    entry ∈ L.without location page ↔
      entry ∈ L page ∧ (⟨page, entry.1⟩ : Location) ≠ location := by
  obtain ⟨at_, offset⟩ := location
  rw [without]
  by_cases heq : page = at_
  · subst heq
    rw [Function.update_self, List.mem_filter, bne_iff_ne]
    simp
  · rw [Function.update_of_ne heq]
    simp [heq]

/-- A content with one live record more. -/
theorem live_setContent_appended {p : Partition} {img : Image} {content : Bytes} {tail : Bytes}
    {status : PageStatus} {record : Record} (hpage : page < p.pageCount)
    (hstatus : img.status page = some status) (hholds : status.kind.holdsRecords = true)
    (hlive : record.isLive p.chip.checksum = true)
    (hparse : Log.parse content = ⟨(img.log page).records ++ [record], tail⟩) :
    p.live (img.setContent page content) = (p.live img).added page (img.log page).used record := by
  rw [live_setContent, if_pos ⟨hpage, by rw [hstatus]; exact hholds⟩, hparse,
    Log.liveRecords_append _ _ _ _ (img.log page).tail hlive, added, p.live_eq hpage hstatus hholds,
    Log.used_eq_span]

/-- A content one of whose records was dropped. -/
theorem live_setContent_dropped {p : Partition} {img : Image} {content : Bytes} {tail : Bytes}
    {status : PageStatus} {before after : List Record} {record : Record}
    (hpage : page < p.pageCount) (hstatus : img.status page = some status)
    (hholds : status.kind.holdsRecords = true)
    (hrecords : (img.log page).records = before ++ record :: after)
    (hparse : Log.parse content = ⟨before ++ record.dropped :: after, tail⟩) :
    p.live (img.setContent page content) = (p.live img).without ⟨page, Log.span before⟩ := by
  have hlog : img.log page = ⟨before ++ record :: after, (img.log page).tail⟩ := by
    rw [← hrecords]
  rw [live_setContent, if_pos ⟨hpage, by rw [hstatus]; exact hholds⟩, hparse,
    Log.liveRecords_dropped _ _ _ _ _ (img.log page).tail, ← hlog, without,
    p.live_eq hpage hstatus hholds]

/-- A content with a record in the place of another one of its size. -/
theorem mem_live_exchanged {p : Partition} {img : Image} {content : Bytes} {tail : Bytes}
    {status : PageStatus} {before after : List Record} {record other : Record}
    (hpage : page < p.pageCount) (hstatus : img.status page = some status)
    (hholds : status.kind.holdsRecords = true)
    (hrecords : (img.log page).records = before ++ record :: after) (hsize : other.size = record.size)
    (hparse : Log.parse content = ⟨before ++ other :: after, tail⟩) {at_ : Nat} :
    entry ∈ p.live (img.setContent page content) at_ ↔
      entry ∈ (p.live img).without ⟨page, Log.span before⟩ at_ ∨
        other.isLive p.chip.checksum = true ∧ at_ = page ∧ entry = (Log.span before, other) := by
  rw [live_setContent]
  by_cases heq : at_ = page
  · subst heq
    have hexchanged := Log.mem_filter_locate_exchanged (·.isLive p.chip.checksum)
      (Record.isLive_dropped _ record) hsize 0 before after entry
    rw [Function.update_self, if_pos ⟨hpage, by rw [hstatus]; exact hholds⟩, hparse, without,
      Function.update_self, p.live_eq hpage hstatus hholds, Log.liveRecords, Log.liveRecords, hrecords]
    rw [Nat.zero_add] at hexchanged
    simpa using hexchanged
  · rw [Function.update_of_ne heq, without, Function.update_of_ne heq]
    simp [heq]

/-- Records of one page begin at different offsets. -/
def Distinct (L : Holdings) : Prop :=
  ∀ page, ∀ entry ∈ L page, ∀ other ∈ L page, entry.1 = other.1 → entry = other

theorem distinct_live (p : Partition) (img : Image) : (p.live img).Distinct := by
  intro page
  have horder := (p.pairwise_live img page).imp fun hle => Nat.lt_of_lt_of_le
    (Nat.lt_add_of_pos_right (by decide)) hle
  have hne : (p.live img page).Pairwise fun x y => x.1 = y.1 → x = y :=
    horder.imp fun hlt heq => absurd heq (Nat.ne_of_lt hlt)
  have hne' : (p.live img page).Pairwise (flip fun x y => x.1 = y.1 → x = y) :=
    horder.imp fun hlt heq => absurd heq.symm (Nat.ne_of_lt hlt)
  exact fun x hx y hy => List.Pairwise.forall_of_forall_of_flip (fun _ _ _ => rfl) hne hne' hx hy

theorem Distinct.eq_of_location (hL : L.Distinct) {other : Nat} {e : Nat × Record}
    (hentry : entry ∈ L page) (he : e ∈ L other)
    (heq : (⟨page, entry.1⟩ : Location) = ⟨other, e.1⟩) : page = other ∧ entry = e := by
  obtain ⟨rfl, hoffset⟩ := Location.mk.inj heq
  exact ⟨rfl, hL page entry hentry e he hoffset⟩

/-- A live record is a copy of a key. -/
def Copy (L : Holdings) (key : UInt16) (page : Nat) (entry : Nat × Record) : Prop :=
  entry ∈ L page ∧ entry.2.header.key = key

/-- What a lookup of a key may find: the payload of a copy, and nothing only if there is none. -/
def Stored (L : Holdings) (key : UInt16) : Option Bytes → Prop
  | none => ∀ page entry, ¬L.Copy key page entry
  | some payload => ∃ page entry, L.Copy key page entry ∧ entry.2.payload = payload

/-- All keys but one have the same records. -/
def SameBut (key : UInt16) (L L' : Holdings) : Prop :=
  ∀ page entry, entry.2.header.key ≠ key → (entry ∈ L' page ↔ entry ∈ L page)

/-- The live records while an operation on a key goes on, which may leave one of some values. -/
structure Between (L : Holdings) (key : UInt16) (fresh : Option Bytes → Prop) (L' : Holdings) :
    Prop where
  others : SameBut key L L'
  stored : ∀ v, L'.Stored key v → L.Stored key v ∨ fresh v

/-- The live records after an operation that settled the value of a key: there is at most one copy. -/
structure Update (L : Holdings) (key : UInt16) (v : Option Bytes) (L' : Holdings) : Prop where
  others : SameBut key L L'
  stored : L'.Stored key v
  sole : ∀ page entry page' entry', L'.Copy key page entry → L'.Copy key page' entry' →
    page = page' ∧ entry = entry'

theorem SameBut.refl (key : UInt16) (L : Holdings) : SameBut key L L := fun _ _ _ => Iff.rfl

theorem SameBut.trans (h : SameBut key L L₁) (h' : SameBut key L₁ L') : SameBut key L L' :=
  fun page entry hne => (h' page entry hne).trans (h page entry hne)

theorem SameBut.stored_iff (h : SameBut key L L') {other : UInt16} (hne : other ≠ key)
    (v : Option Bytes) : L'.Stored other v ↔ L.Stored other v := by
  have hcopy : ∀ page entry, L'.Copy other page entry ↔ L.Copy other page entry := by
    intro page entry
    refine and_congr_left fun hkey => h page entry ?_
    rwa [hkey]
  cases v with
  | none => simp only [Stored, hcopy]
  | some payload => simp only [Stored, hcopy]

theorem Between.refl (L : Holdings) (key : UInt16) (fresh : Option Bytes → Prop) :
    L.Between key fresh L :=
  ⟨.refl key L, fun _ => Or.inl⟩

theorem Between.trans {fresh : Option Bytes → Prop} (h : L.Between key fresh L₁)
    (h' : L₁.Between key fresh L') : L.Between key fresh L' :=
  ⟨h.others.trans h'.others, fun v hv => (h'.stored v hv).elim (h.stored v) Or.inr⟩

theorem Between.mono {fresh fresh' : Option Bytes → Prop} (h : L.Between key fresh L')
    (hfresh : ∀ v, fresh v → fresh' v) : L.Between key fresh' L' :=
  ⟨h.others, fun v hv => (h.stored v hv).imp_right (hfresh v)⟩

/-- What is stored under some key while an operation on a key goes on. -/
theorem Between.stored_or {fresh : Option Bytes → Prop} (h : L.Between key fresh L')
    {other : UInt16} {v : Option Bytes} (hv : L'.Stored other v) :
    L.Stored other v ∨ other = key ∧ fresh v := by
  by_cases heq : other = key
  · subst heq
    exact (h.stored v hv).imp_right fun hfresh => ⟨rfl, hfresh⟩
  · exact Or.inl ((h.others.stored_iff heq v).mp hv)

/-- After an operation that settled a key, only that value is stored. -/
theorem Update.eq_of_stored {v w : Option Bytes} (h : L.Update key v L') (hw : L'.Stored key w) :
    w = v := by
  have hv := h.stored
  cases v with
  | none =>
    cases w with
    | none => rfl
    | some payload =>
      obtain ⟨page, entry, hcopy, -⟩ := hw
      exact absurd hcopy (hv page entry)
  | some payload =>
    obtain ⟨page, entry, hcopy, rfl⟩ := hv
    cases w with
    | none => exact absurd hcopy (hw page entry)
    | some payload' =>
      obtain ⟨page', entry', hcopy', rfl⟩ := hw
      rw [(h.sole page entry page' entry' hcopy hcopy').2]

theorem Update.between {v : Option Bytes} {fresh : Option Bytes → Prop} (h : L.Update key v L')
    (hv : L.Stored key v ∨ fresh v) : L.Between key fresh L' :=
  ⟨h.others, fun _ hw => h.eq_of_stored hw ▸ hv⟩

/-! ## The steps of a write -/

/-- While an older copy may still be there, the old value or the new one is stored. -/
theorem between_added {record : Record} (hkey : record.header.key = key) :
    L.Between key (· = some record.payload) (L.added page offset record) := by
  refine ⟨fun other e hne => ?_, fun v hv => ?_⟩
  · rw [mem_added]
    refine ⟨fun hmem => hmem.resolve_right ?_, Or.inl⟩
    rintro ⟨-, rfl⟩
    exact hne hkey
  · cases v with
    | none => exact absurd ⟨mem_added.mpr (Or.inr ⟨rfl, rfl⟩), hkey⟩ (hv page (offset, record))
    | some payload =>
      obtain ⟨other, e, ⟨hmem, hkey'⟩, rfl⟩ := hv
      rcases mem_added.mp hmem with hmem | ⟨-, rfl⟩
      · exact Or.inl ⟨other, e, ⟨hmem, hkey'⟩, rfl⟩
      · exact Or.inr rfl

/-- The first copy of a key. -/
theorem Update.added {record : Record} (h : L.Update key none L₁) (hkey : record.header.key = key)
    (page offset : Nat) :
    L.Update key (some record.payload) (L₁.added page offset record) := by
  have hnew : ∀ other e, (L₁.added page offset record).Copy key other e →
      other = page ∧ e = (offset, record) := by
    rintro other e ⟨hmem, hkey'⟩
    exact (mem_added.mp hmem).resolve_left fun hold => h.stored other e ⟨hold, hkey'⟩
  refine ⟨h.others.trans (between_added hkey).others, ?_, ?_⟩
  · exact ⟨page, (offset, record), ⟨mem_added.mpr (Or.inr ⟨rfl, rfl⟩), hkey⟩, rfl⟩
  · intro other e other' e' hcopy hcopy'
    obtain ⟨rfl, rfl⟩ := hnew other e hcopy
    obtain ⟨rfl, rfl⟩ := hnew other' e' hcopy'
    exact ⟨rfl, rfl⟩

/-- A new copy of a key in place of the only one before. -/
theorem Update.replaced {record old : Record} {v : Option Bytes} {location : Location}
    (h : L.Update key v L₁) (hL : L₁.Distinct) (hkey : record.header.key = key)
    (hold : L₁.Copy key location.page (location.offset, old))
    (hne : (⟨page, offset⟩ : Location) ≠ location) :
    L.Update key (some record.payload) ((L₁.added page offset record).without location) := by
  have hnew : ∀ other e, ((L₁.added page offset record).without location).Copy key other e →
      other = page ∧ e = (offset, record) := by
    rintro other e ⟨hmem, hkey'⟩
    obtain ⟨hmem, hne'⟩ := mem_without.mp hmem
    refine (mem_added.mp hmem).resolve_left fun hmem => hne' ?_
    obtain ⟨rfl, rfl⟩ := h.sole _ _ _ _ ⟨hmem, hkey'⟩ hold
    rfl
  refine ⟨fun other e hother => ?_, ?_, ?_⟩
  · rw [mem_without, (between_added hkey).others other e hother, ← h.others other e hother]
    refine ⟨fun hmem => hmem.1, fun hmem => ⟨hmem, fun heq => hother ?_⟩⟩
    -- Only the old copy begins at its location.
    rw [(hL.eq_of_location hmem hold.1 heq).2]
    exact hold.2
  · have hmem : (offset, record) ∈ (L₁.added page offset record).without location page :=
      mem_without.mpr ⟨mem_added.mpr (Or.inr ⟨rfl, rfl⟩), hne⟩
    exact ⟨page, (offset, record), ⟨hmem, hkey⟩, rfl⟩
  · intro other e other' e' hcopy hcopy'
    obtain ⟨rfl, rfl⟩ := hnew other e hcopy
    obtain ⟨rfl, rfl⟩ := hnew other' e' hcopy'
    exact ⟨rfl, rfl⟩

/-! ## The steps of a lookup -/

/-- A copy that a lookup leaves in place: one of another key, or the best copy so far. -/
def Counts (key : UInt16) (best : Option Found) (page : Nat) (entry : Nat × Record) : Prop :=
  entry.2.header.key ≠ key ∨ best.map (·.location) = some ⟨page, entry.1⟩

/-- A lookup has visited all live records but the pending ones, and `best` is what it found. -/
structure Searched (L : Holdings) (key : UInt16) (best : Option Found)
    (pending : Nat → Nat × Record → Prop) (L' : Holdings) : Prop where
  live : ∀ page entry, entry ∈ L' page ↔
    entry ∈ L page ∧ (¬pending page entry → Counts key best page entry)
  absent : best = none → ∀ page entry, L.Copy key page entry → pending page entry
  found : ∀ f, best = some f → ∃ record,
    L.Copy key f.location.page (f.location.offset, record) ∧ record.payload = f.payload ∧
      ¬pending f.location.page (f.location.offset, record)

namespace Searched

variable {best : Option Found} {f : Found} {pending pending' : Nat → Nat × Record → Prop}
  {record : Record}

theorem congr (h : L.Searched key best pending L')
    (hpending : ∀ page entry, entry ∈ L page → (pending' page entry ↔ pending page entry)) :
    L.Searched key best pending' L' := by
  refine ⟨fun page entry => ?_, fun hbest page entry hcopy => ?_, fun f hbest => ?_⟩
  · rw [h.live page entry]
    refine and_congr_right fun hmem => ?_
    rw [hpending page entry hmem]
  · rw [hpending page entry hcopy.1]
    exact h.absent hbest page entry hcopy
  · obtain ⟨record, hcopy, hpayload, hseen⟩ := h.found f hbest
    exact ⟨record, hcopy, hpayload, by rwa [hpending _ _ hcopy.1]⟩

/-- Nothing was visited yet. -/
theorem start (hpending : ∀ page entry, entry ∈ L page → pending page entry) :
    L.Searched key none pending L :=
  ⟨fun page entry => ⟨fun hmem => ⟨hmem, fun hnot => absurd (hpending page entry hmem) hnot⟩,
    fun hmem => hmem.1⟩, fun _ page entry hcopy => hpending page entry hcopy.1, nofun⟩

/-- What is found now was there before. -/
theorem between (h : L.Searched key best pending L') : L.Between key (fun _ => False) L' := by
  refine ⟨fun page entry hne => ?_, fun v hv => Or.inl ?_⟩
  · rw [h.live page entry]
    exact ⟨fun hmem => hmem.1, fun hmem => ⟨hmem, fun _ => Or.inl hne⟩⟩
  · cases v with
    | some payload =>
      obtain ⟨page, entry, hcopy, hpayload⟩ := hv
      exact ⟨page, entry, ⟨((h.live page entry).mp hcopy.1).1, hcopy.2⟩, hpayload⟩
    | none =>
      -- A lookup that met a copy has left one in place, so it has met none.
      cases best with
      | none =>
        intro page entry hcopy
        refine hv page entry ⟨(h.live page entry).mpr ⟨hcopy.1, fun hnot => ?_⟩, hcopy.2⟩
        exact absurd (h.absent rfl page entry hcopy) hnot
      | some f =>
        obtain ⟨record, hcopy, -, -⟩ := h.found f rfl
        exact absurd ⟨(h.live _ _).mpr ⟨hcopy.1, fun _ => Or.inr rfl⟩, hcopy.2⟩
          (hv f.location.page (f.location.offset, record))

/-- At the end, the copy that was found is the only one. -/
theorem update (h : L.Searched key best pending L') (hL : L.Distinct)
    (hdone : ∀ page entry, ¬pending page entry) :
    L.Stored key (best.map (·.payload)) ∧ L.Update key (best.map (·.payload)) L' := by
  have hlive : ∀ page entry, L'.Copy key page entry →
      best.map (·.location) = some ⟨page, entry.1⟩ := by
    intro page entry hcopy
    exact (((h.live page entry).mp hcopy.1).2 (hdone page entry)).resolve_left fun hne => hne hcopy.2
  have hstored : L.Stored key (best.map (·.payload)) ∧ L'.Stored key (best.map (·.payload)) := by
    cases best with
    | none =>
      refine ⟨fun page entry hcopy => hdone page entry (h.absent rfl page entry hcopy), ?_⟩
      intro page entry hcopy
      cases hlive page entry hcopy
    | some f =>
      obtain ⟨record, hcopy, hpayload, -⟩ := h.found f rfl
      have hmem := (h.live f.location.page (f.location.offset, record)).mpr
        ⟨hcopy.1, fun _ => Or.inr rfl⟩
      exact ⟨⟨_, _, hcopy, hpayload⟩, ⟨_, _, ⟨hmem, hcopy.2⟩, hpayload⟩⟩
  refine ⟨hstored.1, h.between.others, hstored.2, fun page entry page' entry' hcopy hcopy' => ?_⟩
  have heq := (hlive page entry hcopy).symm.trans (hlive page' entry' hcopy')
  have hmem := ((h.live page entry).mp hcopy.1).1
  have hmem' := ((h.live page' entry').mp hcopy'.1).1
  exact hL.eq_of_location hmem hmem' (Option.some.inj heq)

/-- The copy found is left in place. -/
theorem copy_of_found (h : L.Searched key (some f) pending L') : ∃ record,
    L'.Copy key f.location.page (f.location.offset, record) := by
  obtain ⟨record, hcopy, -, -⟩ := h.found f rfl
  exact ⟨record, (h.live _ _).mpr ⟨hcopy.1, fun _ => Or.inr rfl⟩, hcopy.2⟩

/-- A record of another key is left in place. -/
theorem skip (h : L.Searched key best
      (fun other e => pending other e ∨ other = page ∧ e = (offset, record)) L')
    (hkey : record.header.key ≠ key) : L.Searched key best pending L' := by
  refine ⟨fun other e => ?_, fun hbest other e hcopy => ?_, fun f hbest => ?_⟩
  · rw [h.live other e]
    refine and_congr_right fun _ => ⟨fun hcounts hnot => ?_, fun hcounts hnot => ?_⟩
    · by_cases heq : other = page ∧ e = (offset, record)
      · exact Or.inl (heq.2 ▸ hkey)
      · exact hcounts fun hpending => hpending.elim hnot heq
    · exact hcounts fun hpending => hnot (Or.inl hpending)
  · refine (h.absent hbest other e hcopy).resolve_right ?_
    rintro ⟨-, rfl⟩
    exact hkey hcopy.2
  · obtain ⟨r, hcopy, hpayload, hseen⟩ := h.found f hbest
    exact ⟨r, hcopy, hpayload, fun hpending => hseen (Or.inl hpending)⟩

/-- The first copy counts for now. -/
theorem first (h : L.Searched key none
      (fun other e => pending other e ∨ other = page ∧ e = (offset, record)) L')
    (hmem : (offset, record) ∈ L page) (hkey : record.header.key = key)
    (hseen : ¬pending page (offset, record)) :
    L.Searched key (some ⟨⟨page, offset⟩, record.payload⟩) pending L' := by
  refine ⟨fun other e => ?_, nofun, fun f hbest => ?_⟩
  · rw [h.live other e]
    refine and_congr_right fun hmem' => ⟨fun hcounts hnot => ?_, fun hcounts hnot => ?_⟩
    · by_cases heq : other = page ∧ e = (offset, record)
      · exact Or.inr (by rw [heq.1, heq.2]; rfl)
      · refine (hcounts fun hpending => hpending.elim hnot heq).imp_right fun hbest => ?_
        cases hbest
    · refine Or.inl fun hkey' => hnot (h.absent rfl other e ⟨hmem', hkey'⟩)
  · cases hbest
    exact ⟨record, ⟨hmem, hkey⟩, rfl, hseen⟩

/-- A later copy of the same page counts in place of an earlier one. -/
theorem replace (h : L.Searched key (some f)
      (fun other e => pending other e ∨ other = page ∧ e = (offset, record)) L') (hL : L.Distinct)
    (hmem : (offset, record) ∈ L page) (hkey : record.header.key = key)
    (hseen : ¬pending page (offset, record)) :
    L.Searched key (some ⟨⟨page, offset⟩, record.payload⟩) pending (L'.without f.location) := by
  obtain ⟨r, hcopy, -, hfound⟩ := h.found f rfl
  -- Only the copy found so far begins at its location.
  have hsole : ∀ other e, e ∈ L other → (⟨other, e.1⟩ : Location) = f.location →
      other = f.location.page ∧ e = (f.location.offset, r) :=
    fun other e hmem' heq => hL.eq_of_location hmem' hcopy.1 heq
  refine ⟨fun other e => ?_, nofun, fun f hbest => ?_⟩
  · rw [mem_without, h.live other e, and_assoc]
    refine and_congr_right fun hmem' => ⟨?_, fun hcounts => ⟨fun hnot => ?_, fun heq => ?_⟩⟩
    · rintro ⟨hcounts, hne⟩ hnot
      by_cases heq : other = page ∧ e = (offset, record)
      · exact Or.inr (by rw [heq.1, heq.2]; rfl)
      · refine (hcounts fun hpending => hpending.elim hnot heq).imp_right fun hbest => ?_
        exact absurd (Option.some.inj hbest).symm hne
    · rcases hcounts fun hpending => hnot (Or.inl hpending) with hne | hbest
      · exact Or.inl hne
      · have heq := hL.eq_of_location hmem' hmem (Option.some.inj hbest).symm
        exact absurd (Or.inr heq) hnot
    · obtain ⟨hpage, rfl⟩ := hsole other e hmem' heq
      subst hpage
      rcases hcounts fun hpending => hfound (Or.inl hpending) with hne | hbest
      · exact hne hcopy.2
      · exact hfound (Or.inr (hL.eq_of_location hcopy.1 hmem (Option.some.inj hbest).symm))
  · cases hbest
    exact ⟨record, ⟨hmem, hkey⟩, rfl, hseen⟩

/-- A copy on another page than the one found is dropped. -/
theorem discard (h : L.Searched key (some f)
      (fun other e => pending other e ∨ other = page ∧ e = (offset, record)) L') (hL : L.Distinct)
    (hmem : (offset, record) ∈ L page) (hkey : record.header.key = key)
    (hseen : ¬pending page (offset, record)) (hpage : f.location.page ≠ page) :
    L.Searched key (some f) pending (L'.without ⟨page, offset⟩) := by
  refine ⟨fun other e => ?_, nofun, fun f' hbest => ?_⟩
  · rw [mem_without, h.live other e, and_assoc]
    refine and_congr_right fun hmem' => ⟨?_, fun hcounts => ⟨fun hnot => ?_, fun heq => ?_⟩⟩
    · rintro ⟨hcounts, hne⟩ hnot
      refine hcounts fun hpending => hpending.elim hnot ?_
      rintro ⟨rfl, rfl⟩
      exact hne rfl
    · exact hcounts fun hpending => hnot (Or.inl hpending)
    · obtain ⟨rfl, rfl⟩ := hL.eq_of_location hmem' hmem heq
      rcases hcounts hseen with hne | hbest
      · exact hne hkey
      · exact hpage (congrArg Location.page (Option.some.inj hbest))
  · obtain ⟨r, hcopy, hpayload, hfound⟩ := h.found f' hbest
    exact ⟨r, hcopy, hpayload, fun hpending => hfound (Or.inl hpending)⟩

end Searched

/-! ## The copy that counts -/

/-- The copy that a search through the pages in some order meets first: no copy is on a page before it,
and on its page it is the last one. -/
structure Newest (L : Holdings) (key : UInt16) (order : List Nat) (page : Nat)
    (entry : Nat × Record) : Prop where
  copy : L.Copy key page entry
  last : ∀ e, L.Copy key page e → e.1 ≤ entry.1
  first : ∀ other e, L.Copy key other e → order.idxOf page ≤ order.idxOf other

/-- A lookup has found the newest copy, or that one is ahead and no copy on another page was found. -/
def Heeds (L : Holdings) (key : UInt16) (order : List Nat) (best : Option Found)
    (pending : Nat → Nat × Record → Prop) : Prop :=
  ∀ page entry, L.Newest key order page entry →
    best = some ⟨⟨page, entry.1⟩, entry.2.payload⟩ ∨
      pending page entry ∧ ∀ f, best = some f → f.location.page = page

/-- The only copy of a key. -/
structure Sole (L : Holdings) (key : UInt16) (page : Nat) (entry : Nat × Record) : Prop where
  copy : L.Copy key page entry
  eq : ∀ other e, L.Copy key other e → other = page ∧ e = entry

/-- In whatever order the pages are searched, the only copy is the newest one. -/
theorem Sole.newest (h : L.Sole key page entry) (order : List Nat) :
    L.Newest key order page entry := by
  refine ⟨h.copy, fun e he => ?_, fun other e he => ?_⟩
  · rw [(h.eq page e he).2]
  · rw [(h.eq other e he).1]

/-- The newest copy stays the newest one as long as it is there and no other appears. -/
theorem Newest.of_copy {order : List Nat} (h : L.Newest key order page entry)
    (hentry : entry ∈ L' page) (hcopy : ∀ other e, L'.Copy key other e → L.Copy key other e) :
    L'.Newest key order page entry :=
  ⟨⟨hentry, h.copy.2⟩, fun e he => h.last e (hcopy page e he),
    fun other e he => h.first other e (hcopy other e he)⟩

theorem Searched.copy {best : Option Found} {pending : Nat → Nat × Record → Prop}
    (h : L.Searched key best pending L') (other : Nat) (e : Nat × Record)
    (hcopy : L'.Copy key other e) : L.Copy key other e :=
  ⟨((h.live other e).mp hcopy.1).1, hcopy.2⟩

/-- A lookup leaves the newest copy in place. -/
theorem Searched.newest {best : Option Found} {pending : Nat → Nat × Record → Prop}
    {order : List Nat} (h : L.Searched key best pending L') (hheeds : L.Heeds key order best pending)
    (hnewest : L.Newest key order page entry) : L'.Newest key order page entry := by
  refine hnewest.of_copy ((h.live page entry).mpr ⟨hnewest.copy.1, fun hseen => Or.inr ?_⟩) h.copy
  rcases hheeds page entry hnewest with hbest | ⟨hahead, -⟩
  · rw [hbest]
    rfl
  · exact absurd hahead hseen

namespace Heeds

variable {best : Option Found} {f : Found} {order : List Nat}
  {pending pending' : Nat → Nat × Record → Prop} {record : Record}

theorem congr (h : L.Heeds key order best pending)
    (hpending : ∀ page entry, entry ∈ L page → (pending' page entry ↔ pending page entry)) :
    L.Heeds key order best pending' := by
  intro page entry hnewest
  rw [hpending page entry hnewest.copy.1]
  exact h page entry hnewest

theorem start (hpending : ∀ page entry, entry ∈ L page → pending page entry) :
    L.Heeds key order none pending :=
  fun page entry hnewest => Or.inr ⟨hpending page entry hnewest.copy.1, nofun⟩

/-- At the end the newest copy was found. -/
theorem eq_some (h : L.Heeds key order best pending) (hdone : ∀ page entry, ¬pending page entry)
    (hnewest : L.Newest key order page entry) :
    best = some ⟨⟨page, entry.1⟩, entry.2.payload⟩ :=
  (h page entry hnewest).resolve_right fun hahead => hdone page entry hahead.1

theorem skip (h : L.Heeds key order best
      fun other e => pending other e ∨ other = page ∧ e = (offset, record))
    (hkey : record.header.key ≠ key) : L.Heeds key order best pending := by
  intro other e hnewest
  refine (h other e hnewest).imp_right fun ⟨hahead, hpage⟩ => ⟨hahead.resolve_right ?_, hpage⟩
  rintro ⟨-, rfl⟩
  exact hkey hnewest.copy.2

theorem first (h : L.Heeds key order none
      fun other e => pending other e ∨ other = page ∧ e = (offset, record))
    (hmem : (offset, record) ∈ L page) (hkey : record.header.key = key)
    (hahead : ∀ other e, pending other e → other = page ∨ order.idxOf page < order.idxOf other) :
    L.Heeds key order (some ⟨⟨page, offset⟩, record.payload⟩) pending := by
  intro other e hnewest
  rcases h other e hnewest with hbest | ⟨hlater | ⟨rfl, rfl⟩, -⟩
  · cases hbest
  · -- This page has a copy, so the newest one is not on a page behind it.
    have hle := hnewest.first page (offset, record) ⟨hmem, hkey⟩
    have hpage : other = page := (hahead other e hlater).resolve_right (Nat.not_lt.mpr hle)
    refine Or.inr ⟨hlater, fun f hf => ?_⟩
    cases hf
    exact hpage.symm
  · exact Or.inl rfl

theorem replace (h : L.Heeds key order (some f)
      fun other e => pending other e ∨ other = page ∧ e = (offset, record))
    (hmem : (offset, record) ∈ L page) (hkey : record.header.key = key)
    (hpage : f.location.page = page) (hlower : f.location.offset < offset) :
    L.Heeds key order (some ⟨⟨page, offset⟩, record.payload⟩) pending := by
  intro other e hnewest
  rcases h other e hnewest with hbest | ⟨hlater | ⟨rfl, rfl⟩, hsame⟩
  · -- The copy found so far lies before this one, so it is not the newest.
    obtain rfl := Option.some.inj hbest
    obtain rfl : other = page := hpage
    exact absurd (hnewest.last (offset, record) ⟨hmem, hkey⟩) (Nat.not_le.mpr hlower)
  · refine Or.inr ⟨hlater, fun f' hf' => ?_⟩
    cases hf'
    exact hpage.symm.trans (hsame f rfl)
  · exact Or.inl rfl

theorem discard (h : L.Heeds key order (some f)
      fun other e => pending other e ∨ other = page ∧ e = (offset, record))
    (hpage : f.location.page ≠ page) : L.Heeds key order (some f) pending := by
  intro other e hnewest
  refine (h other e hnewest).imp_right fun ⟨hahead, hsame⟩ => ⟨hahead.resolve_right ?_, hsame⟩
  rintro ⟨rfl, -⟩
  exact hpage (hsame f rfl)

end Heeds

/-! ## The steps of a removal -/

/-- A removal has dropped all copies of a key but the pending ones. -/
def Purged (L : Holdings) (key : UInt16) (pending : Nat → Nat × Record → Prop) (L' : Holdings) :
    Prop :=
  ∀ page entry, entry ∈ L' page ↔
    entry ∈ L page ∧ (¬pending page entry → entry.2.header.key ≠ key)

namespace Purged

variable {pending pending' : Nat → Nat × Record → Prop} {record : Record}

theorem congr (h : L.Purged key pending L')
    (hpending : ∀ page entry, entry ∈ L page → (pending' page entry ↔ pending page entry)) :
    L.Purged key pending' L' := by
  intro page entry
  rw [h page entry]
  refine and_congr_right fun hmem => ?_
  rw [hpending page entry hmem]

theorem start (hpending : ∀ page entry, entry ∈ L page → pending page entry) :
    L.Purged key pending L :=
  fun page entry => ⟨fun hmem => ⟨hmem, fun hnot => absurd (hpending page entry hmem) hnot⟩,
    fun hmem => hmem.1⟩

theorem between (h : L.Purged key pending L') : L.Between key (· = none) L' := by
  refine ⟨fun page entry hne => ?_, fun v hv => ?_⟩
  · rw [h page entry]
    exact ⟨fun hmem => hmem.1, fun hmem => ⟨hmem, fun _ => hne⟩⟩
  · cases v with
    | none => exact Or.inr rfl
    | some payload =>
      obtain ⟨page, entry, hcopy, hpayload⟩ := hv
      exact Or.inl ⟨page, entry, ⟨((h page entry).mp hcopy.1).1, hcopy.2⟩, hpayload⟩

/-- At the end, no copy is left. -/
theorem update (h : L.Purged key pending L') (hdone : ∀ page entry, ¬pending page entry) :
    L.Update key none L' := by
  have hnone : ∀ page entry, ¬L'.Copy key page entry := fun page entry hcopy =>
    ((h page entry).mp hcopy.1).2 (hdone page entry) hcopy.2
  exact ⟨h.between.others, hnone, fun page entry _ _ hcopy => absurd hcopy (hnone page entry)⟩

theorem skip (h : L.Purged key
      (fun other e => pending other e ∨ other = page ∧ e = (offset, record)) L')
    (hkey : record.header.key ≠ key) : L.Purged key pending L' := by
  intro other e
  rw [h other e]
  refine and_congr_right fun _ => ⟨fun hgone hnot => ?_, fun hgone hnot => ?_⟩
  · by_cases heq : other = page ∧ e = (offset, record)
    · exact heq.2 ▸ hkey
    · exact hgone fun hpending => hpending.elim hnot heq
  · exact hgone fun hpending => hnot (Or.inl hpending)

theorem drop (h : L.Purged key
      (fun other e => pending other e ∨ other = page ∧ e = (offset, record)) L') (hL : L.Distinct)
    (hmem : (offset, record) ∈ L page) (hkey : record.header.key = key)
    (hseen : ¬pending page (offset, record)) :
    L.Purged key pending (L'.without ⟨page, offset⟩) := by
  intro other e
  rw [mem_without, h other e, and_assoc]
  refine and_congr_right fun hmem' => ⟨?_, fun hgone => ⟨fun hnot => ?_, fun heq => ?_⟩⟩
  · rintro ⟨hgone, hne⟩ hnot
    refine hgone fun hpending => hpending.elim hnot ?_
    rintro ⟨rfl, rfl⟩
    exact hne rfl
  · exact hgone fun hpending => hnot (Or.inl hpending)
  · obtain ⟨rfl, rfl⟩ := hL.eq_of_location hmem' hmem heq
    exact hgone hseen hkey

end Purged

/-- The number of copies of a key on some pages. -/
def copies (L : Holdings) (key : UInt16) (pages : List Nat) : Nat :=
  (pages.map fun page => (L page).countP (·.2.header.key == key)).sum

/-- If no copy is counted, there is none. -/
theorem stored_none_of_copies {p : Partition} {img : Image}
    (h : (p.live img).copies key (List.range p.pageCount) = 0) : (p.live img).Stored key none := by
  rintro page entry ⟨hmem, hkey⟩
  have hpage := List.mem_range.mpr (p.lt_of_mem_live hmem)
  have hzero := List.sum_eq_zero_iff_forall_eq_nat.mp h _ (List.mem_map_of_mem hpage)
  exact List.countP_eq_zero.mp hzero entry hmem (beq_iff_eq.mpr hkey)

end RingStore.Partition.Holdings
