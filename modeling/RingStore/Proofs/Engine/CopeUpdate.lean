import RingStore.Proofs.Engine.Cope

/-!
# Lookups and updates on a flash that holds anything

A lookup takes the lengths of the records from the flash as they come.  `headersFrom` lists the headers
that a walk along a content meets in that way.  Each of them lies within the content, but the record of
the last one may run past its end.  If that record claims to be a value of the key, the lookup asks for
its payload and is refused; `Table.Overruns` says that there is such a record.

## Main statements

* `Engine.copes_walk`: a walk along a page that holds anything.
* `Engine.copes_find`: a lookup fails exactly if it meets a value of the key that runs past its page.
* `Engine.copes_writeItem`, `Engine.copes_deleteItem`: updates.
-/

namespace RingStore

/-! ## Headers among any bytes -/

/-- The headers that a walk along a content meets, with their offsets. -/
def headersFrom (content : Bytes) (limit offset : Nat) : List (Nat × Header) :=
  if _hlimit : offset + headerSize ≤ limit then
    match Header.take? (content.drop offset) with
    | none => []
    | some (header, _) =>
      if header.length = endOfLog then []
      else (offset, header) :: headersFrom content limit (offset + header.recordSize)
  else []
termination_by limit - offset
decreasing_by
  have hsize := header.recordSize_pos
  simp only [headerSize] at _hlimit
  omega

theorem headersFrom_of_limit {content : Bytes} {limit offset : Nat} (h : ¬offset + headerSize ≤ limit) :
    headersFrom content limit offset = [] := by
  rw [headersFrom, dif_neg h]

theorem headersFrom_of_take? {content rest : Bytes} {limit offset : Nat} {header : Header}
    (hlimit : offset + headerSize ≤ limit)
    (htake : Header.take? (content.drop offset) = some (header, rest)) :
    headersFrom content limit offset = if header.length = endOfLog then []
      else (offset, header) :: headersFrom content limit (offset + header.recordSize) := by
  rw [headersFrom, dif_pos hlimit, htake]

/-- What a walk meets depends on the bytes ahead. -/
theorem headersFrom_congr {content content' : Bytes} (limit : Nat) {offset : Nat}
    (h : content.drop offset = content'.drop offset) :
    headersFrom content limit offset = headersFrom content' limit offset := by
  fun_induction headersFrom content limit offset with
  | case1 offset hlimit htake => rw [headersFrom, dif_pos hlimit, ← h, htake]
  | case2 offset hlimit header rest htake hlength =>
    rw [headersFrom_of_take? hlimit (h ▸ htake), if_pos hlength]
  | case3 offset hlimit header rest htake hlength ih =>
    rw [headersFrom_of_take? hlimit (h ▸ htake), if_neg hlength, ih]
    rw [← List.drop_drop, ← List.drop_drop, h]
  | case4 offset hlimit => rw [headersFrom_of_limit hlimit]

/-- A header of a value of the key whose record runs past the end of the content. -/
def RunsOver (p : Partition) (key : UInt16) (met : Nat × Header) : Prop :=
  (met.2.carriesValue = true ∧ met.2.key = key) ∧ p.contentSize < met.1 + met.2.recordSize

/-- Of a value of the key, it is the payload that runs past the end. -/
theorem runsOver_iff {p : Partition} {key : UInt16} {offset : Nat} {header : Header}
    (hvalue : header.carriesValue = true ∧ header.key = key) :
    RunsOver p key (offset, header) ↔ p.contentSize < offset + headerSize + header.length.toNat := by
  rw [RunsOver, Header.recordSize, ← Nat.add_assoc]
  exact and_iff_right hvalue

namespace Table

/-- A walk along the page meets a value of the key that runs past the end of the page. -/
def OverrunsAt (p : Partition) (key : UInt16) (t : Table) (img : Image) (page : Nat) : Prop :=
  ∃ entry, t.pages[page]? = some entry ∧ entry.kind.holdsRecords = true ∧
    ∃ met ∈ headersFrom (img.content page) entry.used 0, RunsOver p key met

/-- On some page there is a value of the key that runs past the end of the page. -/
def Overruns (p : Partition) (key : UInt16) (t : Table) (img : Image) : Prop :=
  ∃ page, t.OverrunsAt p key img page

end Table

namespace Engine

open EngineM

variable {σ : Type} {p : Partition} {conduct : Conduct} {count page offset limit : Nat}
  {t t₀ : Table} {img img₀ : Image} {key : UInt16} {fail : Post Error}

/-! ## Walks -/

theorem copes_readHeader (hu : p.Usable) (hpage : page < p.pageCount)
    (hroom : offset + headerSize ≤ p.contentSize) :
    Copes p conduct (readHeader p ⟨page, offset⟩) t img
      (fun header t' img' =>
        (∃ rest, Header.take? ((img.content page).drop offset) = some (header, rest)) ∧
          t' = t ∧ img' = img) fail := by
  refine ensures_of_length fun hlength => ?_
  unfold readHeader
  refine (ensures_perform (Partition.ensures_readContent hu hpage hroom)).bind ?_
  rintro bytes t img ⟨rfl, rfl, hbytes⟩
  have hfour : bytes.length = 4 := by
    rw [hbytes, List.length_take, List.length_drop, hlength page hpage]
    rw [headerSize] at hroom ⊢
    omega
  obtain ⟨length, crc, keyLow, keyHigh, rfl⟩ := List.length_eq_four.mp hfour
  -- So many bytes are a header.
  refine ensures_pure ⟨⟨((img.content page).drop offset).drop headerSize, ?_⟩, rfl, rfl⟩
  rw [← List.take_append_drop headerSize ((img.content page).drop offset), ← hbytes]
  rfl

/-- What holds after a visit, by where the walk goes on. -/
def Stepped (motive : Nat → σ → Table → Image → Prop) (post : Post σ) (next : Nat) :
    Post (ForInStep σ)
  | .yield s, t, img => motive next s t img
  | .done s, t, img => post s t img

/-- **A walk along a page that holds anything** visits the headers that it meets. -/
theorem copes_walk (hu : p.Usable) (hpage : page < p.pageCount) (hlimit : limit ≤ p.contentSize)
    {visit : σ → Location → Header → EngineM (ForInStep σ)}
    (motive : Nat → σ → Table → Image → Prop) {post : Post σ}
    (hvisit : ∀ offset s header t img, motive offset s t img → offset + headerSize ≤ limit →
      headersFrom (img.content page) limit offset =
        (offset, header) :: headersFrom (img.content page) limit (offset + header.recordSize) →
      Copes p conduct (visit s ⟨page, offset⟩ header) t img
        (Stepped motive post (offset + header.recordSize)) fail)
    (hstop : ∀ offset s t img, motive offset s t img →
      headersFrom (img.content page) limit offset = [] → post s t img) {s : σ}
    (h : motive offset s t img) :
    Copes p conduct (walk p page limit visit offset s) t img post fail := by
  -- The induction is on the bytes ahead; every record takes some of them.
  induction hn : limit - offset using Nat.strongRecOn generalizing offset s t img with
  | ind n ih =>
    rw [walk]
    split
    · next hroom =>
      refine (copes_readHeader hu hpage (Nat.le_trans hroom hlimit)).bind ?_
      rintro header _ _ ⟨⟨rest, htake⟩, rfl, rfl⟩
      have hheaders := headersFrom_of_take? hroom htake
      split
      · next hlength => exact ensures_pure (hstop _ _ _ _ h (hheaders.trans (if_pos hlength)))
      · next hlength =>
        refine (hvisit _ _ _ _ _ h hroom (hheaders.trans (if_neg hlength))).bind ?_
        rintro (s' | s') t' img' hstepped
        · exact ensures_pure hstepped
        · have hsize := header.recordSize_pos
          have hheader : 0 < headerSize := by decide
          exact ih (limit - (offset + header.recordSize)) (by omega) hstepped rfl
    · next hroom => exact ensures_pure (hstop _ _ _ _ h (headersFrom_of_limit hroom))

/-! ## Lookups -/

/-- The best copy so far lies on a page of the table that is not ahead, and its header within the
content. -/
def Placed (p : Partition) (count : Nat) (pages : List Nat) (best : Option Found) : Prop :=
  ∀ found, best = some found → found.location.page < count ∧ found.location.page ∉ pages ∧
    found.location.offset + headerSize ≤ p.contentSize

/-- A search has changed nothing on the pages ahead. -/
structure Searching (p : Partition) (t₀ : Table) (img₀ : Image) (pages : List Nat)
    (best : Option Found) (t : Table) (img : Image) : Prop where
  shaped : t.Shaped p t₀.count
  placed : Placed p t₀.count pages best
  entry_eq : ∀ other ∈ pages, t.pages[other]? = t₀.pages[other]?
  content_eq : ∀ other ∈ pages, img.content other = img₀.content other

/-- On its page, a search has changed nothing from an offset on, and the records it has met so far do not
run past the end. -/
structure Inspecting (p : Partition) (key : UInt16) (limit : Nat) (t₀ : Table) (img₀ : Image)
    (page : Nat) (rest : List Nat) (offset : Nat) (best : Option Found) (t : Table) (img : Image) :
    Prop extends Searching p t₀ img₀ rest best t img where
  before : ∀ found, best = some found → found.location.page = page →
    found.location.offset + headerSize ≤ offset
  drop_eq : (img.content page).drop offset = (img₀.content page).drop offset
  passed : ∃ passed, headersFrom (img₀.content page) limit 0 =
    passed ++ headersFrom (img₀.content page) limit offset ∧ ∀ met ∈ passed, ¬RunsOver p key met

namespace Inspecting

variable {rest : List Nat} {best best' : Option Found} {t' : Table} {img' : Image} {header : Header}

/-- What the search meets was there when it began. -/
theorem headers_eq (h : Inspecting p key limit t₀ img₀ page rest offset best t img) :
    headersFrom (img.content page) limit offset = headersFrom (img₀.content page) limit offset :=
  headersFrom_congr limit h.drop_eq

/-- A header that the search meets is one of those that were there when it began. -/
theorem mem_headers (h : Inspecting p key limit t₀ img₀ page rest offset best t img)
    {ahead : List (Nat × Header)}
    (hheaders : headersFrom (img.content page) limit offset = (offset, header) :: ahead) :
    (offset, header) ∈ headersFrom (img₀.content page) limit 0 := by
  obtain ⟨passed, hsplit, -⟩ := h.passed
  rw [hsplit, ← h.headers_eq, hheaders]
  exact List.mem_append_right _ List.mem_cons_self

/-- The search goes on behind a record that does not run past the end. -/
theorem next (h : Inspecting p key limit t₀ img₀ page rest offset best t img) (hfresh : page ∉ rest)
    (hheaders : headersFrom (img.content page) limit offset =
      (offset, header) :: headersFrom (img.content page) limit (offset + header.recordSize))
    (hfits : ¬RunsOver p key (offset, header)) (hshaped : t'.Shaped p t₀.count)
    (huntouched : Untouched page (offset + headerSize) t img t' img')
    (hplaced : Placed p t₀.count rest best')
    (hbefore : ∀ found, best' = some found → found.location.page = page →
      found.location.offset + headerSize ≤ offset + headerSize) :
    Inspecting p key limit t₀ img₀ page rest (offset + header.recordSize) best' t' img' := by
  have hsize : headerSize ≤ header.recordSize := Nat.le_add_right _ _
  have hne : ∀ other ∈ rest, other ≠ page := fun other hother heq => hfresh (heq ▸ hother)
  have hdrop : (img.content page).drop (offset + header.recordSize) =
      (img₀.content page).drop (offset + header.recordSize) := by
    rw [← List.drop_drop, ← List.drop_drop, h.drop_eq]
  obtain ⟨passed, hsplit, hpassed⟩ := h.passed
  refine ⟨⟨hshaped, hplaced,
    fun other hother => (huntouched.entry_eq other (hne other hother)).trans (h.entry_eq other hother),
    fun other hother =>
      (huntouched.content_eq other (hne other hother)).trans (h.content_eq other hother)⟩,
    fun found hfound hp => Nat.le_trans (hbefore found hfound hp) (by omega),
    (huntouched.mono (by omega)).drop_eq.trans hdrop, passed ++ [(offset, header)], ?_, ?_⟩
  · rw [hsplit, ← h.headers_eq, hheaders, headersFrom_congr limit hdrop, List.append_assoc]
    rfl
  · intro met hmet
    rcases List.mem_append.mp hmet with hmem | hmem
    · exact hpassed met hmem
    · rw [List.mem_singleton.mp hmem]
      exact hfits

end Inspecting

/-- A value of the key that runs past the end of its page. -/
def Refused (p : Partition) (key : UInt16) (t₀ : Table) (img₀ : Image) : Post Error :=
  fun error _ _ => error = .invalidArgument ∧ t₀.Overruns p key img₀

theorem readPayload_of_lt {location : Location} {header : Header}
    (hlt : p.contentSize < location.offset + headerSize + header.length.toNat) :
    readPayload p location header = throw .invalidArgument := by
  rw [readPayload, Partition.readContent, if_pos hlt]
  rfl

theorem copes_examine (hu : p.Usable) {rest : List Nat} {best : Option Found} {header : Header}
    {post : Post (Option Found)} (hpage : page < t₀.count) (hfresh : page ∉ rest)
    (hlimit : limit ≤ p.contentSize)
    (hoverruns : (∃ met ∈ headersFrom (img₀.content page) limit 0, RunsOver p key met) →
      t₀.OverrunsAt p key img₀ page)
    (h : Inspecting p key limit t₀ img₀ page rest offset best t img)
    (hroom : offset + headerSize ≤ limit)
    (hheaders : headersFrom (img.content page) limit offset =
      (offset, header) :: headersFrom (img.content page) limit (offset + header.recordSize)) :
    Copes p conduct (examine p key best ⟨page, offset⟩ header) t img
      (Stepped (Inspecting p key limit t₀ img₀ page rest) post (offset + header.recordSize))
      (Refused p key t₀ img₀) := by
  have hcontent : offset + headerSize ≤ p.contentSize := Nat.le_trans hroom hlimit
  have hbefore : ∀ found, best = some found → found.location.page = page →
      found.location.offset + headerSize ≤ offset + headerSize := fun found hfound hp =>
    Nat.le_trans (h.before found hfound hp) (Nat.le_add_right _ _)
  unfold examine
  split
  · next hvalue =>
    by_cases hlt : p.contentSize < offset + headerSize + header.length.toNat
    · -- The payload runs past the end of the content, and asking for it is refused.
      rw [readPayload_of_lt hlt]
      exact ensures_throw ⟨rfl, page, hoverruns ⟨_, h.mem_headers hheaders,
        (runsOver_iff hvalue).mpr hlt⟩⟩
    · have hnext : ∀ {best' t' img'}, t'.Shaped p t₀.count →
          Untouched page (offset + headerSize) t img t' img' → Placed p t₀.count rest best' →
          (∀ found, best' = some found → found.location.page = page →
            found.location.offset + headerSize ≤ offset + headerSize) →
          Inspecting p key limit t₀ img₀ page rest (offset + header.recordSize) best' t' img' :=
        h.next hfresh hheaders (mt (runsOver_iff hvalue).mp hlt)
      refine (ensures_perform (Partition.ensures_readContent hu (h.shaped.lt_pageCount hpage)
        (Nat.le_of_not_lt hlt))).bind ?_
      rintro payload t img ⟨rfl, rfl, -⟩
      -- This copy becomes the best one,
      have hplaced : Placed p t₀.count rest (some ⟨⟨page, offset⟩, payload⟩) := by
        rintro found hfound
        rw [← Option.some.inj hfound]
        exact ⟨hpage, hfresh, hcontent⟩
      have hself : ∀ found, some (⟨⟨page, offset⟩, payload⟩ : Found) = some found →
          found.location.page = page → found.location.offset + headerSize ≤ offset + headerSize := by
        rintro found hfound -
        rw [← Option.some.inj hfound]
      -- or it is dropped.
      have hdropped : Copes p conduct
          (do drop p ⟨page, offset⟩ .deferred; return ForInStep.yield best) t img
          (Stepped (Inspecting p key limit t₀ img₀ page rest) post (offset + header.recordSize))
          (Refused p key t₀ img₀) := by
        refine (copes_drop hu h.shaped hpage hcontent .deferred).bind ?_
        rintro _ t' img' ⟨hshaped, huntouched⟩
        exact ensures_pure (hnext hshaped (huntouched rfl) h.placed hbefore)
      split
      · split
        · exact ensures_pure (hnext h.shaped (.refl _ _ _ _) hplaced hself)
        · next current =>
          obtain ⟨hcount, -, hcurrent⟩ := h.placed current rfl
          split
          · -- The copy found before lies in front of this one.
            next hsame =>
            refine (copes_drop hu h.shaped hcount hcurrent .deferred).bind ?_
            rintro _ t' img' ⟨hshaped, huntouched⟩
            have hmono := (huntouched rfl).mono (hbefore current rfl hsame)
            rw [hsame] at hmono
            exact ensures_pure (hnext hshaped hmono hplaced hself)
          · exact hdropped
      · exact hdropped
  · next hother =>
    exact ensures_pure (h.next hfresh hheaders (fun hover => hother hover.1) h.shaped
      (.refl _ _ _ _) h.placed hbefore)

/-- Between the pages of a lookup: the ring is gone through once, and on no page behind it a value of
the key runs past the end. -/
structure Browsing (p : Partition) (key : UInt16) (t₀ : Table) (img₀ : Image) (pages : List Nat)
    (best : Option Found) (t : Table) (img : Image) : Prop extends
    Searching p t₀ img₀ pages best t img where
  nodup : pages.Nodup
  passed : ∀ page, page ∉ pages → ¬t₀.OverrunsAt p key img₀ page

namespace Browsing

variable {rest : List Nat} {best : Option Found}

/-- The best copy is neither on the page that comes next nor ahead of it. -/
theorem ne_and_not_mem (h : Browsing p key t₀ img₀ (page :: rest) best t img) {found : Found}
    (hfound : best = some found) : found.location.page ≠ page ∧ found.location.page ∉ rest := by
  simpa using (h.placed found hfound).2.1

theorem searching (h : Browsing p key t₀ img₀ (page :: rest) best t img) :
    Searching p t₀ img₀ rest best t img := by
  refine ⟨h.shaped, fun found hfound => ?_, fun other hother => h.entry_eq other (by simp [hother]),
    fun other hother => h.content_eq other (by simp [hother])⟩
  obtain ⟨hcount, -, hroom⟩ := h.placed found hfound
  exact ⟨hcount, (h.ne_and_not_mem hfound).2, hroom⟩

/-- A lookup leaves a page behind on which no value of the key runs past the end. -/
theorem tail (h : Browsing p key t₀ img₀ (page :: rest) best t img) {best' : Option Found}
    {t' : Table} {img' : Image} (h' : Searching p t₀ img₀ rest best' t' img')
    (hnot : ¬t₀.OverrunsAt p key img₀ page) : Browsing p key t₀ img₀ rest best' t' img' := by
  refine ⟨h', (List.nodup_cons.mp h.nodup).2, fun other hother => ?_⟩
  by_cases heq : other = page
  · exact heq ▸ hnot
  · exact h.passed other (by simp [heq, hother])

/-- At the first record of a page, nothing has changed on it. -/
theorem inspecting (h : Browsing p key t₀ img₀ (page :: rest) best t img) (limit : Nat) :
    Inspecting p key limit t₀ img₀ page rest 0 best t img := by
  refine ⟨h.searching, fun found hfound heq => absurd heq (h.ne_and_not_mem hfound).1, ?_, [], rfl,
    by simp⟩
  rw [h.content_eq page (by simp)]

end Browsing

/-- The records of a page end where the walk does, and none of them runs past the end of the page. -/
theorem Inspecting.not_overrunsAt {rest : List Nat} {best : Option Found} {entry : Page}
    (h : Inspecting p key entry.used t₀ img₀ page rest offset best t img)
    (hentry : t₀.pages[page]? = some entry)
    (hend : headersFrom (img.content page) entry.used offset = []) :
    ¬t₀.OverrunsAt p key img₀ page := by
  rintro ⟨entry', hentry', -, met, hmet, hover⟩
  obtain rfl := Option.some.inj (hentry.symm.trans hentry')
  obtain ⟨passed, hsplit, hnot⟩ := h.passed
  rw [hsplit, ← h.headers_eq, hend, List.append_nil] at hmet
  exact hnot met hmet hover

/-- One page of a lookup. -/
theorem copes_walkPage_examine (hu : p.Usable) {rest : List Nat} {best : Option Found}
    (hpage : page < t₀.count) (h : Browsing p key t₀ img₀ (page :: rest) best t img) :
    Copes p conduct (walkPage p (examine p key) best page) t img (Browsing p key t₀ img₀ rest)
      (Refused p key t₀ img₀) := by
  obtain ⟨entry, hentry, hproper⟩ := h.shaped.exists_entry hpage
  have hentry₀ : t₀.pages[page]? = some entry := by
    rw [← h.entry_eq page (by simp), hentry]
  unfold walkPage
  refine ensures_pageAt_bind hentry ?_
  split
  · next hholds =>
    refine copes_walk hu (h.shaped.lt_pageCount hpage) hproper.used_le
      (Inspecting p key entry.used t₀ img₀ page rest) ?_ ?_ (h.inspecting entry.used)
    · intro offset best' header t₂ img₂ hinspecting
      exact copes_examine hu hpage (List.nodup_cons.mp h.nodup).1 hproper.used_le
        (fun hover => ⟨entry, hentry₀, hholds, hover⟩) hinspecting
    · intro offset best' t₂ img₂ hinspecting hend
      exact h.tail hinspecting.toSearching (hinspecting.not_overrunsAt hentry₀ hend)
  · next hholds =>
    refine ensures_pure (h.tail h.searching ?_)
    rintro ⟨entry', hentry', hholds', -⟩
    obtain rfl := Option.some.inj (hentry₀.symm.trans hentry')
    exact hholds hholds'

/-- **A lookup on a flash that holds anything** is refused exactly if it meets a value of the key that
runs past the end of its page. -/
theorem copes_find (hu : p.Usable) (h : t.Shaped p count) (key : UInt16) :
    Copes p conduct (find p key) t img
      (fun best t' _ => t'.Shaped p count ∧ Placed p count [] best ∧ ¬t.Overruns p key img)
      (Refused p key t img) := by
  obtain ⟨hcoherent, rfl⟩ := h
  have hstart : Browsing p key t img t.searchOrder none t img := by
    refine ⟨⟨⟨hcoherent, rfl⟩, nofun, fun _ _ => rfl, fun _ _ => rfl⟩, nodup_ringBackFrom _ _, ?_⟩
    rintro page hpage ⟨entry, hentry, -⟩
    exact hpage (mem_ringBackFrom (Table.lt_count hentry))
  unfold find walkAll
  refine ensures_get_bind ?_
  refine (ensures_foldlM (Browsing p key t img) (fun page hmem rest best t₁ img₁ hbrowsing =>
    copes_walkPage_examine hu (lt_of_mem_ringBackFrom hmem) hbrowsing) hstart).imp ?_
  rintro best t' img' h
  exact ⟨h.shaped, h.placed, fun ⟨page, hover⟩ => h.passed page (by simp) hover⟩

theorem copes_payloadOf (hu : p.Usable) (h : t.Shaped p count) (hkey : isValidKey key = true) :
    Copes p conduct (payloadOf p key) t img (fun _ t' _ => t'.Shaped p count ∧ ¬t.Overruns p key img)
      (Refused p key t img) := by
  unfold payloadOf
  rw [if_pos hkey]
  exact (copes_find hu h key).bind fun _ _ _ hfind => ensures_pure ⟨hfind.1, hfind.2.2⟩

theorem copes_lengthOf (hu : p.Usable) (h : t.Shaped p count) (hkey : isValidKey key = true) :
    Copes p conduct (lengthOf p key) t img (fun _ t' _ => t'.Shaped p count ∧ ¬t.Overruns p key img)
      (Refused p key t img) :=
  (copes_payloadOf hu h hkey).bind fun _ _ _ hpost => ensures_pure hpost

theorem copes_readItem (hu : p.Usable) (h : t.Shaped p count) (hkey : isValidKey key = true)
    {buffer : Bytes} (hbuffer : buffer ≠ []) :
    Copes p conduct (readItem p key buffer) t img
      (fun _ t' _ => t'.Shaped p count ∧ ¬t.Overruns p key img) (Refused p key t img) := by
  unfold readItem
  rw [if_pos ⟨hkey, hbuffer⟩]
  refine (copes_find hu h key).bind ?_
  rintro (_ | found) t' img' ⟨h', -, hnot⟩
  · exact ensures_pure ⟨h', hnot⟩
  · exact ensures_pure ⟨h', hnot⟩

/-! ## Updates -/

/-- Active pages stay active while an erased page is claimed. -/
theorem copes_claimErased (hu : p.Usable) (h : t.Shaped p count)
    (hspace : ∀ t' img', fail .outOfSpace t' img') :
    Copes p conduct (claimErased p) t img
      (fun target t' _ => t'.Shaped p count ∧ target < count ∧ t'.isKind .erased target = true ∧
        ∀ page, t.isKind .active page = true → t'.isKind .active page = true) fail := by
  unfold claimErased
  refine ensures_get_bind ?_
  split
  · next target htarget =>
    obtain ⟨hlt, herased⟩ := lt_of_nextErased? htarget
    exact ensures_pure ⟨h, h.count_eq ▸ hlt, herased, fun _ hactive => hactive⟩
  · refine ensures_get_bind ?_
    split
    · exact ensures_throw (hspace _ _)
    · next pending hpending =>
      have hpage : pending < count :=
        h.count_eq ▸ List.mem_range.mp (List.mem_of_find?_eq_some hpending)
      refine (copes_reclaim hu h hpage).bind ?_
      rintro _ t₁ img₁ ⟨h₁, hbut⟩
      have hactive : ∀ page, t.isKind .active page = true → t₁.isKind .active page = true := by
        intro page hkind
        by_cases heq : page = pending
        · -- The page that was erased waited for that.
          obtain ⟨entry, hentry, hk⟩ := Table.isKind_iff.mp (List.find?_some hpending)
          rw [heq, Table.isKind_eq hentry, hk] at hkind
          cases hkind
        · rw [hbut.isKind heq]
          exact hkind
      refine ensures_get_bind ?_
      split
      · next target htarget =>
        obtain ⟨hlt, herased⟩ := lt_of_nextErased? htarget
        exact ensures_pure ⟨h₁, h₁.count_eq ▸ hlt, herased, hactive⟩
      · exact ensures_throw (hspace _ _)

/-- An active page has room for so many bytes. -/
def HasRoom (p : Partition) (needed : Nat) (t : Table) (page : Nat) : Prop :=
  ∃ entry, t.pages[page]? = some entry ∧ entry.kind = .active ∧ entry.used + needed ≤ p.contentSize

/-- A page that was just opened has room for whatever fits into a page. -/
theorem copes_openNext (hu : p.Usable) (h : t.Shaped p count) {needed : Nat}
    (hneeded : needed ≤ p.contentSize) (active : Option Nat)
    (hactive : ∀ page, active = some page → t.isKind .active page = true)
    (hspace : ∀ t' img', fail .outOfSpace t' img') :
    Copes p conduct (openNext p active) t img
      (fun target t' _ => t'.Shaped p count ∧ HasRoom p needed t' target) fail := by
  unfold openNext
  refine (copes_claimErased hu h hspace).bind ?_
  rintro target t₁ img₁ ⟨h₁, hlt, herased, hkeeps⟩
  have hclose : Copes p conduct (active.forM (close p)) t₁ img₁
      (fun _ t' _ => t'.Shaped p count ∧ t'.isKind .erased target = true) fail := by
    cases active with
    | none => exact ensures_pure ⟨h₁, herased⟩
    | some page =>
      obtain ⟨entry, hentry, hkind⟩ := Table.isKind_iff.mp (hkeeps page (hactive page rfl))
      refine (copes_close hu h₁ hentry).imp ?_
      rintro _ t₂ img₂ ⟨h₂, hbut⟩
      have hne : target ≠ page := by
        rintro rfl
        rw [Table.isKind_eq hentry, hkind] at herased
        cases herased
      exact ⟨h₂, by rw [hbut.isKind hne]; exact herased⟩
  refine hclose.bind ?_
  rintro _ t₂ img₂ ⟨h₂, herased₂⟩
  obtain ⟨entry, hentry, hkind⟩ := Table.isKind_iff.mp herased₂
  have hused : entry.used = 0 := h₂.coherent.blank target entry hentry hkind
  refine ensures_pageAt_bind hentry ?_
  refine (copes_setStatus hu h₂ hentry (entry.status.withKind .active) nofun).bind ?_
  rintro _ _ img₃ ⟨h₃, rfl, -⟩
  refine ensures_modify_bind (ensures_pure ⟨h₃.withHead hlt, ?_⟩)
  refine ⟨_, Table.getElem?_set_self (Table.lt_count hentry), rfl, ?_⟩
  show entry.used + needed ≤ p.contentSize
  omega

theorem copes_selectPage (hu : p.Usable) (h : t.Shaped p count) {length : Nat}
    (hlength : headerSize + length ≤ p.contentSize) (hspace : ∀ t' img', fail .outOfSpace t' img') :
    Copes p conduct (selectPage p length) t img
      (fun page t' _ => t'.Shaped p count ∧ HasRoom p (headerSize + length) t' page) fail := by
  have hactive : ∀ page, t.active? = some page → t.isKind .active page = true :=
    fun page hpage => (Table.eq_of_active?_eq_some hpage).2
  have hroom : Copes p conduct (activeWithRoom p t.active? (headerSize + length)) t img
      (fun found t' img' => t' = t ∧ img' = img ∧
        ∀ page, found = some page → HasRoom p (headerSize + length) t page) fail := by
    unfold activeWithRoom
    split
    · next page hpage =>
      obtain ⟨entry, hentry, hkind⟩ := Table.isKind_iff.mp (hactive page hpage)
      have hused := (h.coherent.proper hentry).used_le
      refine (copes_freeBytes h hentry).bind ?_
      rintro free t img ⟨rfl, rfl, rfl⟩
      refine ensures_pure ⟨rfl, rfl, fun found hfound => ?_⟩
      split at hfound
      · next hfree =>
        cases hfound
        exact ⟨entry, hentry, hkind, by omega⟩
      · cases hfound
    · exact ensures_pure ⟨rfl, rfl, nofun⟩
  unfold selectPage
  refine ensures_get_bind (hroom.bind ?_)
  rintro (_ | page) t img ⟨rfl, rfl, hfound⟩
  · exact copes_openNext hu h hlength _ hactive hspace
  · exact ensures_pure ⟨h, hfound page rfl⟩

theorem copes_closeIfFull (hu : p.Usable) (h : t.Shaped p count) (hpage : page < count) :
    Copes p conduct (closeIfFull p page) t img (fun _ t' _ => t'.Shaped p count) fail := by
  obtain ⟨entry, hentry, -⟩ := h.exists_entry hpage
  unfold closeIfFull
  refine ensures_pageAt_bind hentry ?_
  split
  · refine (copes_freeBytes h hentry).bind ?_
    rintro free t img ⟨rfl, rfl, rfl⟩
    split
    · exact (copes_close hu h hentry).imp fun _ _ _ hpost => hpost.1
    · exact ensures_pure h
  · exact ensures_pure h

/-- **A write on a flash that holds anything** is refused exactly if its lookup is, and fails otherwise
only for want of space. -/
theorem copes_writeItem (hu : p.Usable) (h : t.Shaped p count) (hkey : isValidKey key = true)
    {payload : Bytes} (hne : payload ≠ []) (hlength : payload.length ≤ p.maxPayload) :
    Copes p conduct (writeItem p key payload) t img
      (fun _ t' _ => t'.Shaped p count ∧ ¬t.Overruns p key img)
      (fun error t' img' => Refused p key t img error t' img' ∨
        error = .outOfSpace ∧ ¬t.Overruns p key img) := by
  have hroom := Partition.headerSize_add_le hne hlength
  unfold writeItem
  rw [if_pos ⟨hkey, hne, hlength⟩]
  refine ((copes_find hu h key).mono (fun _ _ _ hpost => hpost) fun _ _ _ => Or.inl).bind ?_
  rintro old t₁ img₁ ⟨h₁, hplaced, hnot⟩
  split
  · exact ensures_pure ⟨h₁, hnot⟩
  · refine (copes_selectPage hu h₁ hroom fun _ _ => Or.inr ⟨rfl, hnot⟩).bind ?_
    rintro page t₂ img₂ ⟨h₂, entry, hentry, hkind, hfits⟩
    refine (copes_append hu h₂ hentry (by rw [hkind]; nofun) key hfits).bind fun _ t₃ img₃ h₃ => ?_
    have hdrop : Copes p conduct (old.forM fun item => drop p item.location .immediate) t₃ img₃
        (fun _ t' _ => t'.Shaped p count) (fun error t' img' => Refused p key t img error t' img' ∨
          error = .outOfSpace ∧ ¬t.Overruns p key img) := by
      cases old with
      | none => exact ensures_pure h₃
      | some found =>
        obtain ⟨hcount, -, hcontent⟩ := hplaced found rfl
        exact (copes_drop hu h₃ hcount hcontent .immediate).imp fun _ _ _ hpost => hpost.1
    refine hdrop.bind fun _ t₄ img₄ h₄ => ?_
    exact (copes_closeIfFull hu h₄ (h₂.lt_count hentry)).imp fun _ _ _ h₅ => ⟨h₅, hnot⟩

theorem copes_remove (hu : p.Usable) (h : t.Shaped p count) (hpage : page < count)
    (hroom : offset + headerSize ≤ p.contentSize) (removed : Nat) (header : Header) :
    Copes p conduct (remove p key removed ⟨page, offset⟩ header) t img
      (fun _ t' _ => t'.Shaped p count) fail := by
  unfold remove
  split
  · refine (copes_drop hu h hpage hroom .immediate).bind ?_
    rintro _ t₁ img₁ ⟨h₁, -⟩
    obtain ⟨entry, hentry, -⟩ := h₁.exists_entry hpage
    refine ensures_pageAt_bind hentry ?_
    split
    · exact ensures_pure h₁
    · exact ensures_pure h₁
  · exact ensures_pure h

/-- **A deletion on a flash that holds anything** succeeds unless an access is refused: it reads no
payload. -/
theorem copes_deleteItem (hu : p.Usable) (h : t.Shaped p count) (hkey : isValidKey key = true) :
    Copes p conduct (deleteItem p key) t img (fun _ t' _ => t'.Shaped p count) fail := by
  unfold deleteItem walkAll
  rw [if_pos hkey]
  refine ensures_get_bind ?_
  refine ensures_foldlM (fun _ _ t' _ => t'.Shaped p count) ?_ h
  intro page hmem rest removed t₁ img₁ h₁
  have hpage : page < count := h.count_eq ▸ lt_of_mem_ringBackFrom hmem
  obtain ⟨entry, hentry, hproper⟩ := h₁.exists_entry hpage
  unfold walkPage
  refine ensures_pageAt_bind hentry ?_
  split
  · refine copes_walk hu (h₁.lt_pageCount hpage) hproper.used_le (fun _ _ t' _ => t'.Shaped p count)
      ?_ (fun _ _ _ _ hshaped _ => hshaped) h₁
    intro offset removed header t₂ img₂ h₂ hroom _
    refine (copes_remove hu h₂ hpage (Nat.le_trans hroom hproper.used_le) removed header).imp ?_
    rintro (removed' | removed') _ _ h₃
    · exact h₃
    · exact h₃
  · exact ensures_pure h₁

end Engine

end RingStore
