import RingStore.Proofs.Damage

/-!
# Operations on a flash with a damaged record

A lookup of the damaged record's key notices the damage and drops the record, and a removal drops it without
noticing.  Either leaves a flash that the table mirrors.  All other operations pass the record over or do
not look at the flash at all, so the damage stays what it is.

## Main statements

* `Marred.ensures_drop`: the damaged record is dropped, and the flash is sound.
* `Marred.ensures_blind`: what a blind program does, from what it does to the sound images.
* `Marred.ensures_find_other`, `Marred.ensures_find_damaged`: lookups.
* `Marred.ensures_deleteItem_other`, `Marred.ensures_deleteItem_damaged`: removals.
-/

namespace RingStore

open EngineM Engine
open RingStore.Partition (Holdings)

/-- A key whose copy is known is ready for a write. -/
theorem Contents.Represented.cleared {m : Contents} {L : Holdings} {key : UInt16} {old : Option Found}
    (h : m.Represented L) (hold : old.map (·.payload) = m key)
    (hfound : ∀ f, old = some f → ∃ r, L.Copy key f.location.page (f.location.offset, r)) :
    Cleared L key old L :=
  ⟨hold ▸ (h key).stored, hold ▸ h key, hfound, fun _ _ hcopy => hcopy, fun _ _ hsole => hsole.copy⟩

namespace Marred

variable {α : Type} {p : Partition} {m : Contents} {location : Location} {intact other : Record}
  {t : Table} {img : Image} {key : UInt16}

/-! ## The damaged record is dropped -/

/-- **The damaged record is dropped**, and the table mirrors the flash again. -/
theorem ensures_drop (hu : p.Usable) (h : Marred p m location intact other t img)
    (policy : ReclaimPolicy) :
    Ensures p .reliable p.Unasked (drop p location policy) t img
      (fun _ t' img' => m.Backed p t' img' ∧ ((policy = .deferred ∨ ∃ e,
          t'.pages[location.page]? = some e ∧ e.kind.holdsRecords = true) →
        ∀ start, location.offset + headerSize ≤ start →
          (img'.content location.page).drop start = (img.content location.page).drop start))
      noError := by
  obtain ⟨entry, before, after, hentry, hholds, hrecords, hoffset, hlog⟩ := h.exists_log (Or.inl rfl)
  have hs := h.sustains_intact
  obtain ⟨hstatus, hdescribes⟩ := hs.mirrors.tracks _ entry hentry
  have hnot : entry.kind ≠ .erased := PageKind.ne_erased_of_holdsRecords hholds
  have hmixed : (img.log location.page).records = before ++ intact.mixed other :: after := by rw [hlog]
  have htail : (img.log location.page).tail =
      ((img.patch location intact.toBytes).log location.page).tail := by rw [hlog]
  have hparse : Log.parse (programmed (img.content location.page) (Log.span before + keyOffset)
      tombstoneBytes) = ⟨before ++ (intact.mixed other).dropped :: after,
        ((img.patch location intact.toBytes).log location.page).tail⟩ :=
    (Log.parse_programmed_tombstone hmixed).trans (congrArg (Log.mk _) htail)
  -- To the sound image, the struck record takes the place of the intact one.
  have hdropped : (intact.mixed other).dropped.size = intact.size := h.size_of (Or.inl rfl)
  have hdescribes' := hdescribes.exchanged hholds hrecords hs.isLive hdropped
    (fun hcarries => by cases hcarries) hparse
  rw [Record.isLive_dropped, if_neg Bool.false_ne_true] at hdescribes'
  have hstruck : struck img location.page (Log.span before) =
      (img.patch location intact.toBytes).setContent location.page (programmed
        (img.content location.page) (Log.span before + keyOffset) tombstoneBytes) := by
    rw [Image.patch, Image.setContent_setContent]
  have htracks : (t.set location.page { entry with live := entry.live - 1 }).Tracks p
      (struck img location.page (Log.span before)) :=
    hstruck ▸ hs.mirrors.tracks.setContent hstatus hdescribes'
  have hbut := (hs.mirrors.but location.page).set hentry htracks rfl hnot
    (hs.mirrors.ordered.eq_head _ entry hentry)
  have hrepresented : m.Represented (p.live (struck img location.page (Log.span before))) :=
    hstruck ▸ hs.represented_of_not_live h.absent hrecords hoffset hdropped Bool.false_ne_true hparse
  have hlocation : location = ⟨location.page, Log.span before⟩ := by rw [← hoffset]
  rw [hoffset]
  conv => arg 4; rw [hlocation]
  have hstatus' : img.status location.page = some entry.status := hstatus
  refine (ensures_strike hu hentry hholds (Partition.ensures_tombstone hu hs.lt_pageCount hstatus' hnot
    hmixed (fun _ => trivial) fun _ _ _ => trivial) hbut policy).weaken ?_
  intro _ t' img' hsettles
  exact ⟨⟨hsettles.mirrors, hsettles.live_eq ▸ hrepresented⟩, fun hpolicy _ hstart =>
    hsettles.drop_eq hpolicy hstart⟩

/-! ## Blind programs -/

/-- What is left beside what the same program leaves of the two sound images. -/
def Alongside (location : Location) (intact other : Record) (img : Image) (post : Record → Post α) :
    Post α := fun a t' img' => ∃ first second,
  img.Beside (img.patch location intact.toBytes) img' first ∧
  img.Beside (img.patch location other.toBytes) img' second ∧ post intact a t' first ∧
  post other a t' second

/-- **A blind program** does to the damaged flash what it does to the sound images. -/
theorem ensures_blind {x : EngineM α} (h : Marred p m location intact other t img) (hx : x.Blind)
    {post : Record → Post α} {fail : Record → Post Error}
    (hrun : ∀ record, record = intact ∨ record = other →
      Ensures p .reliable p.Unasked x t (img.patch location record.toBytes) (post record)
        (fail record)) :
    Ensures p .reliable p.Unasked x t img (Alongside location intact other img post)
      (Alongside location intact other img fail) := by
  have hroom : ∀ {cells : Cells}, p.Shows img cells → ∀ record, record = intact ∨ record = other →
      location.offset + record.toBytes.length ≤ p.contentSize := by
    intro cells hshows record hrecord
    have hs := h.sustains hrecord
    have hbytes := hs.bytes.1
    rwa [Image.content_patch_self, length_patched, hshows.length_content hs.lt_pageCount] at hbytes
  intro cells hshows hinv
  have hfirst := hx.ensures_beside (hroom hshows intact (Or.inl rfl)) (hrun intact (Or.inl rfl))
  have hsecond := hx.ensures_beside (hroom hshows other (Or.inr rfl)) (hrun other (Or.inr rfl))
  refine ((hfirst cells hshows hinv).and (hsecond cells hshows hinv)).mono
    (fun _ _ => p.secure_of_unasked _ _) ?_
  rintro ⟨error | a, t'⟩ after ⟨hpost, hpost'⟩
  · obtain ⟨first, hfirst, hbeside⟩ := hpost.resolve_left fun hrefused => hrefused.2 rfl
    obtain ⟨second, hsecond, hbeside'⟩ := hpost'.resolve_left fun hrefused => hrefused.2 rfl
    exact Or.inr ⟨first, second, hbeside, hbeside', hfirst, hsecond⟩
  · obtain ⟨first, hfirst, hbeside⟩ := hpost
    obtain ⟨second, hsecond, hbeside'⟩ := hpost'
    exact ⟨first, second, hbeside, hbeside', hfirst, hsecond⟩

/-- A sweep leaves the damage as it is. -/
theorem ensures_sweep (hu : p.Usable) (h : Marred p m location intact other t img) :
    Ensures p .reliable p.Unasked (sweep p) t img
      (fun _ t' img' => Marred p m location intact other t' img') noError := by
  have hrun : ∀ record, record = intact ∨ record = other →
      Ensures p .reliable p.Unasked (sweep p) t (img.patch location record.toBytes)
        (fun _ t' img' => Sustains p m location record t' img') noError := by
    intro record hrecord
    have hs := h.sustains hrecord
    refine (Engine.ensures_sweep hu hs.mirrors).imp ?_
    rintro _ t' img' ⟨hmirrors, hlive, -⟩
    exact ⟨⟨hmirrors, hlive ▸ hs.represented⟩, hlive ▸ hs.live⟩
  refine (h.ensures_blind (blind_sweep p) hrun).mono ?_ ?_
  · rintro _ t' img' ⟨first, second, hfirst, hsecond, hintact, hother⟩
    exact h.beside hfirst hsecond hintact hother h.absent
  · rintro error t' img' ⟨-, -, -, -, ⟨⟩, -⟩

/-- A write of another key stores its payload and leaves the damage as it is. -/
theorem ensures_renew (hu : p.Usable) (h : Marred p m location intact other t img)
    (hkey : key ≠ intact.header.key) {payload : Bytes} {old : Option Found}
    (hold : old.map (·.payload) = m key)
    (hfound : ∀ f, old = some f → ∃ r, (p.carried img).Copy key f.location.page (f.location.offset, r))
    (hargs : isValidKey key = true ∧ payload ≠ [] ∧ payload.length ≤ p.maxPayload) :
    Ensures p .reliable p.Unasked (renew p key payload old) t img
      (fun _ t' img' => Marred p (Function.update m key (some payload)) location intact other t' img')
      (fun error t' img' => error = .outOfSpace ∧ Marred p m location intact other t' img') := by
  have hrun : ∀ record, record = intact ∨ record = other →
      Ensures p .reliable p.Unasked (renew p key payload old) t (img.patch location record.toBytes)
        (fun _ t' img' => Sustains p (Function.update m key (some payload)) location record t' img')
        (fun error t' img' => error = .outOfSpace ∧ Sustains p m location record t' img') := by
    intro record hrecord
    have hs := h.sustains hrecord
    have hne : key ≠ record.header.key := h.key_of hrecord ▸ hkey
    have hcleared : Cleared (p.live (img.patch location record.toBytes)) key old
        (p.live (img.patch location record.toBytes)) := by
      refine hs.represented.cleared (by rw [hold, Function.update_of_ne hne]) fun f hf => ?_
      obtain ⟨r, hcopy⟩ := hfound f hf
      exact ⟨r, (h.copy_carried_iff hrecord hkey).mp hcopy⟩
    refine (Engine.ensures_renew hu hs.mirrors hcleared hargs fun _ _ _ => trivial).mono ?_ ?_
    · rintro _ t' img' ⟨hmirrors, hupdate⟩
      exact hs.of_update hne hmirrors hupdate
    · rintro error t' img' ⟨rfl, -, rfl, rfl⟩
      exact ⟨rfl, hs⟩
  refine (h.ensures_blind (blind_renew p key payload old) hrun).mono ?_ ?_
  · rintro _ t' img' ⟨first, second, hfirst, hsecond, hintact, hother⟩
    refine h.beside hfirst hsecond hintact hother ?_
    rw [Function.update_of_ne hkey.symm, h.absent]
  · rintro error t' img' ⟨first, second, hfirst, hsecond, ⟨rfl, hintact⟩, -, hother⟩
    exact ⟨rfl, h.beside hfirst hsecond hintact hother h.absent⟩

/-- The copy of another key is dropped, and the damage is left as it is. -/
theorem ensures_drop_other (hu : p.Usable) (h : Marred p m location intact other t img)
    (hkey : key ≠ intact.header.key) {page offset : Nat} {r : Record}
    (hcopy : (p.carried img).Copy key page (offset, r)) :
    Ensures p .reliable p.Unasked (drop p ⟨page, offset⟩ .immediate) t img
      (fun _ t' img' => Marred p (Function.update m key none) location intact other t' img' ∧
        ((∃ e, t'.pages[page]? = some e ∧ e.kind.holdsRecords = true) →
          ∀ start, offset + headerSize ≤ start →
            (img'.content page).drop start = (img.content page).drop start)) noError := by
  have hrun : ∀ record, record = intact ∨ record = other →
      Ensures p .reliable p.Unasked (drop p ⟨page, offset⟩ .immediate) t
        (img.patch location record.toBytes)
        (fun _ t' img' => Sustains p (Function.update m key none) location record t' img' ∧
          ((∃ e, t'.pages[page]? = some e ∧ e.kind.holdsRecords = true) →
            ∀ start, offset + headerSize ≤ start → (img'.content page).drop start =
              ((img.patch location record.toBytes).content page).drop start)) noError := by
    intro record hrecord
    have hs := h.sustains hrecord
    have hne : key ≠ record.header.key := h.key_of hrecord ▸ hkey
    have hlive := (h.copy_carried_iff hrecord hkey).mp hcopy
    refine (Engine.ensures_drop hu hs.mirrors ⟨page, offset⟩ .immediate hlive.1 (fun _ => trivial)
      fun _ _ _ _ _ => trivial).imp ?_
    intro _ t' img' hdropped
    refine ⟨hs.of_update hne hdropped.mirrors ?_, fun hholds => hdropped.drop_eq (Or.inr hholds)⟩
    rw [hdropped.live_eq]
    exact Holdings.update_of_without (Holdings.distinct_live _ _) hlive (hs.represented key).sole
      fun _ _ => Iff.rfl
  refine (h.ensures_blind (blind_drop p _ _) hrun).mono ?_ ?_
  · rintro _ t' img' ⟨first, second, hfirst, hsecond, ⟨hintact, hkept⟩, hother, hkept'⟩
    refine ⟨h.beside hfirst hsecond hintact hother ?_, fun hholds start hstart =>
      h.drop_eq hfirst hsecond (hkept hholds start hstart) (hkept' hholds start hstart)⟩
    rw [Function.update_of_ne hkey.symm, h.absent]
  · rintro error t' img' ⟨-, -, -, -, ⟨⟩, -⟩

/-! ## Lookups -/

/-- What is stored under another key. -/
theorem eq_of_stored (h : Marred p m location intact other t img) (hkey : key ≠ intact.header.key)
    {v : Option Bytes} (hstored : (p.carried img).Stored key v) : v = m key := by
  have hs := h.sustains_intact
  have hlive : (p.live (img.patch location intact.toBytes)).Stored key v := by
    cases v with
    | none => exact fun page e hcopy => hstored page e ((h.copy_carried_iff (Or.inl rfl) hkey).mpr hcopy)
    | some payload =>
      obtain ⟨page, e, hcopy, hpayload⟩ := hstored
      exact ⟨page, e, (h.copy_carried_iff (Or.inl rfl) hkey).mp hcopy, hpayload⟩
  rw [hs.represented.eq_of_stored hlive, Function.update_of_ne hkey]

/-- **A lookup of another key** finds its value and changes nothing. -/
theorem ensures_find_other (hu : p.Usable) (h : Marred p m location intact other t img)
    (hkey : key ≠ intact.header.key) :
    Ensures p .reliable p.Unasked (find p key) t img
      (fun best t' img' => (t' = t ∧ img' = img) ∧ best.map (·.payload) = m key ∧ ∀ f, best = some f →
        ∃ r, (p.carried img).Copy key f.location.page (f.location.offset, r)) noError := by
  have hs := h.sustains_intact
  unfold find
  refine (ensures_walkOnce hu h.charts (fun best t' img' => (t' = t ∧ img' = img) ∧ ∃ f r,
    best = some f ∧ (p.carried img).Copy key f.location.page (f.location.offset, r) ∧
      r.payload = f.payload) (fun _ _ _ => examine_of_not) (fun page e page' e' hcopy hcopy' => ?_) ?_
    ?_).imp ?_
  · rw [h.copy_carried_iff (Or.inl rfl) hkey] at hcopy hcopy'
    exact (hs.represented key).sole _ _ _ _ hcopy hcopy'
  · rintro best t' img' ⟨⟨rfl, rfl⟩, -⟩
    exact ⟨h.charts, fun _ _ hcopy => hcopy⟩
  · intro page offset record hcopy
    obtain ⟨-, -, -, -, -, -, -, hlive⟩ :=
      exists_record hs.mirrors ((h.copy_carried_iff (Or.inl rfl) hkey).mp hcopy).1
    have hverify : record.header.verify p.chip.checksum record.payload = true := by
      rw [Record.isLive, Bool.and_eq_true] at hlive
      exact hlive.2
    unfold examine
    rw [if_pos ⟨Record.carriesValue_of_isLive hlive, hcopy.2⟩]
    refine Ensures.bind (ensures_readPayload hu hcopy.1) ?_
    rintro _ t' img' ⟨rfl, rfl, rfl⟩
    rw [if_pos hverify]
    exact ensures_pure ⟨⟨⟨rfl, rfl⟩, _, record, rfl, hcopy, rfl⟩, rfl⟩
  · rintro best t' img' (⟨-, hsame, f, r, rfl, hcopy, hpayload⟩ | ⟨hnone, rfl, hsame⟩)
    · refine ⟨hsame, h.eq_of_stored hkey ⟨_, _, hcopy, hpayload⟩, fun f' hf' => ?_⟩
      obtain rfl := Option.some.inj hf'
      exact ⟨r, hcopy⟩
    · refine ⟨hsame, h.eq_of_stored hkey (v := none) hnone, fun f hf => ?_⟩
      cases hf

/-- Where the table mirrors the flash, a key without a value has no record. -/
theorem not_copy_of_backed {t' : Table} {img' : Image} (h : m.Backed p t' img') (habsent : m key = none)
    (page : Nat) (e : Nat × Record) : ¬(p.carried img').Copy key page e := by
  have hstored := (h.represented key).stored
  rw [habsent] at hstored
  rw [h.mirrors.carried_eq]
  exact hstored page e

/-- **A lookup of the damaged key** notices the damage, drops the record and finds nothing. -/
theorem ensures_find_damaged (hu : p.Usable) (h : Marred p m location intact other t img) :
    Ensures p .reliable p.Unasked (find p intact.header.key) t img
      (fun best t' img' => best = none ∧ m.Backed p t' img') noError := by
  unfold find
  refine (ensures_walkOnce hu h.charts (fun best t' img' => best = none ∧ m.Backed p t' img')
    (fun _ _ _ => examine_of_not) (fun page e page' e' hcopy hcopy' => ?_) ?_ ?_).imp ?_
  · obtain ⟨rfl, rfl⟩ := h.copy_carried_self_iff.mp hcopy
    obtain ⟨rfl, rfl⟩ := h.copy_carried_self_iff.mp hcopy'
    exact ⟨rfl, rfl⟩
  · rintro best t' img' ⟨-, hbacked⟩
    exact ⟨hbacked.mirrors.charts, fun page e hcopy =>
      absurd hcopy (not_copy_of_backed hbacked h.absent page e)⟩
  · intro page offset record hcopy
    obtain ⟨rfl, heq⟩ := h.copy_carried_self_iff.mp hcopy
    obtain ⟨rfl, rfl⟩ := Prod.mk.inj heq
    unfold examine
    rw [if_pos ⟨h.carriesValue_mixed, h.key_eq⟩]
    refine Ensures.bind (ensures_readPayload hu hcopy.1) ?_
    rintro _ t' img' ⟨rfl, rfl, rfl⟩
    rw [if_neg h.not_verify_mixed]
    refine (h.ensures_drop hu .deferred).bind ?_
    rintro _ t' img' ⟨hbacked, hkept⟩
    exact ensures_pure ⟨⟨rfl, hbacked⟩, hkept (Or.inl rfl) _ (Nat.add_le_add_left (Nat.le_add_right _ _) _)⟩
  · rintro best t' img' (⟨-, hpost⟩ | ⟨hnone, -⟩)
    · exact hpost
    · exact absurd (h.copy_carried_self_iff.mpr ⟨rfl, rfl⟩) (hnone _ _)

/-! ## Removals -/

/-- A record is dropped and counted. -/
theorem ensures_remove {post : Table → Image → Prop} {page offset : Nat} {record : Record}
    (hkey : record.header.carriesValue = true ∧ record.header.key = key)
    (hdrop : Ensures p .reliable p.Unasked (drop p ⟨page, offset⟩ .immediate) t img
      (fun _ t' img' => (∃ e, t'.pages[page]? = some e) ∧ post t' img' ∧
        ((∃ e, t'.pages[page]? = some e ∧ e.kind.holdsRecords = true) →
          ∀ start, offset + headerSize ≤ start →
            (img'.content page).drop start = (img.content page).drop start)) noError) :
    Ensures p .reliable p.Unasked (remove p key 0 ⟨page, offset⟩ record.header) t img
      (Visited page (fun removed _ t' img' => removed = 1 ∧ post t' img') (offset + record.size) [] img)
      noError := by
  unfold remove
  rw [if_pos hkey]
  refine hdrop.bind ?_
  rintro _ t' img' ⟨⟨e, he⟩, hpost, hkept⟩
  refine ensures_pageAt_bind he ?_
  split
  · next hholds =>
    exact ensures_pure ⟨⟨rfl, hpost⟩, hkept ⟨e, he, hholds⟩ _
      (Nat.add_le_add_left (Nat.le_add_right _ _) _)⟩
  · exact ensures_pure ⟨rfl, hpost⟩

/-- **A removal of another key** counts its copy, drops it, and leaves the damage as it is. -/
theorem ensures_deleteItem_other (hu : p.Usable) (h : Marred p m location intact other t img)
    (hkey : key ≠ intact.header.key) (hvalid : isValidKey key = true) :
    Ensures p .reliable p.Unasked (deleteItem p key) t img
      (fun removed t' img' => removed = (if (m key).isSome then 1 else 0) ∧
        Marred p (Function.update m key none) location intact other t' img') noError := by
  have hs := h.sustains_intact
  unfold deleteItem
  rw [if_pos hvalid]
  refine (ensures_walkOnce hu h.charts (fun removed t' img' => removed = 1 ∧
    Marred p (Function.update m key none) location intact other t' img')
    (fun _ _ _ => remove_of_not) (fun page e page' e' hcopy hcopy' => ?_) ?_ ?_).imp ?_
  · rw [h.copy_carried_iff (Or.inl rfl) hkey] at hcopy hcopy'
    exact (hs.represented key).sole _ _ _ _ hcopy hcopy'
  · rintro removed t' img' ⟨-, hmarred⟩
    refine ⟨hmarred.charts, fun page e hcopy => ?_⟩
    have hnone := hmarred.eq_of_stored hkey (v := some e.2.payload) ⟨page, e, hcopy, rfl⟩
    rw [Function.update_self] at hnone
    cases hnone
  · intro page offset record hcopy
    refine ensures_remove ⟨Partition.carriesValue_of_mem_carried hcopy.1, hcopy.2⟩
      ((h.ensures_drop_other hu hkey hcopy).imp ?_)
    rintro _ t' img' ⟨hmarred, hkept⟩
    have hpage := (Partition.exists_of_mem_carried hcopy.1).1
    exact ⟨Table.exists_entry (hmarred.charts.count_eq ▸ hpage), hmarred, hkept⟩
  · rintro removed t' img' (⟨⟨page, e, hcopy⟩, rfl, hmarred⟩ | ⟨hnone, rfl, rfl, rfl⟩)
    · rw [← h.eq_of_stored hkey (v := some e.2.payload) ⟨page, e, hcopy, rfl⟩]
      exact ⟨rfl, hmarred⟩
    · have habsent := h.eq_of_stored hkey (v := none) hnone
      rw [← habsent, habsent, Function.update_eq_self]
      exact ⟨by rw [← habsent]; rfl, h⟩

/-- **A removal of the damaged key** counts the damaged record and drops it. -/
theorem ensures_deleteItem_damaged (hu : p.Usable) (h : Marred p m location intact other t img)
    (hvalid : isValidKey intact.header.key = true) :
    Ensures p .reliable p.Unasked (deleteItem p intact.header.key) t img
      (fun removed t' img' => removed = 1 ∧ m.Backed p t' img') noError := by
  unfold deleteItem
  rw [if_pos hvalid]
  refine (ensures_walkOnce hu h.charts (fun removed t' img' => removed = 1 ∧ m.Backed p t' img')
    (fun _ _ _ => remove_of_not) (fun page e page' e' hcopy hcopy' => ?_) ?_ ?_).imp ?_
  · obtain ⟨rfl, rfl⟩ := h.copy_carried_self_iff.mp hcopy
    obtain ⟨rfl, rfl⟩ := h.copy_carried_self_iff.mp hcopy'
    exact ⟨rfl, rfl⟩
  · rintro removed t' img' ⟨-, hbacked⟩
    exact ⟨hbacked.mirrors.charts, fun page e hcopy =>
      absurd hcopy (not_copy_of_backed hbacked h.absent page e)⟩
  · intro page offset record hcopy
    obtain ⟨rfl, heq⟩ := h.copy_carried_self_iff.mp hcopy
    obtain ⟨rfl, rfl⟩ := Prod.mk.inj heq
    refine ensures_remove ⟨h.carriesValue_mixed, h.key_eq⟩ ((h.ensures_drop hu .immediate).imp ?_)
    rintro _ t' img' ⟨hbacked, hkept⟩
    exact ⟨Table.exists_entry (hbacked.mirrors.count_eq ▸ h.sustains_intact.lt_pageCount), hbacked,
      fun hholds => hkept (Or.inr hholds)⟩
  · rintro removed t' img' (⟨-, hpost⟩ | ⟨hnone, -⟩)
    · exact hpost
    · exact absurd (h.copy_carried_self_iff.mpr ⟨rfl, rfl⟩) (hnone _ _)

end Marred

end RingStore
