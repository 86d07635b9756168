import RingStore.Proofs.Engine.Reclaim

/-!
# Walks along the records

A walk visits the records of the pages in turn, and its visitor may drop records on the way.  The rules
below reduce a walk to single visits: an invariant speaks of the records that are still ahead and claim to
carry a value, and each visit takes the first of them.  All others are passed over.  On a page that the
table describes the records that claim a value are the live ones; where a record is damaged, the table
still knows where the records end, and that is all a walk needs.

A visitor may change the page it is on, but not the bytes ahead, unless it ends the walk along that page.

## Main statements

* `walk_steps`: a walk along one page; `walkPages_steps`: a walk along several of them.
* `ensures_walkAll`: a walk along all pages; `ensures_walkLive`: a walk that meets no damage.
* `ensures_walkOnce`: a walk for a key that has a single record.
-/

namespace RingStore

/-- The records of the pages that claim to carry a value. -/
def Partition.carried (p : Partition) (img : Image) : Partition.Holdings := fun page =>
  if page < p.pageCount ∧ (img.status page).any (·.kind.holdsRecords) = true then
    (Log.locate 0 (img.log page).records).filter (·.2.header.carriesValue)
  else []

/-- The table knows the stages of the pages and where their records end. -/
structure Table.Charts (p : Partition) (t : Table) (img : Image) : Prop where
  count_eq : t.count = p.pageCount
  status_eq : ∀ page entry, t.pages[page]? = some entry → img.status page = some entry.status
  used_eq : ∀ page entry, t.pages[page]? = some entry → entry.kind.holdsRecords = true →
    entry.used = (img.log page).used

namespace Partition

variable {p : Partition} {img : Image} {page offset : Nat} {record : Record}

theorem exists_of_mem_carried (h : (offset, record) ∈ p.carried img page) :
    page < p.pageCount ∧ ∃ before after, (img.log page).records = before ++ record :: after ∧
      offset = Log.span before := by
  rw [carried] at h
  split at h
  · next hholds =>
    obtain ⟨before, after, hrecords, hoffset⟩ := Log.mem_locate (List.mem_filter.mp h).1
    rw [Nat.zero_add] at hoffset
    exact ⟨hholds.1, before, after, hrecords, hoffset⟩
  · cases h

theorem carriesValue_of_mem_carried (h : (offset, record) ∈ p.carried img page) :
    record.header.carriesValue = true := by
  rw [carried] at h
  split at h
  · exact (List.mem_filter.mp h).2
  · cases h

/-- Records of a page follow one another. -/
theorem pairwise_carried (img : Image) (page : Nat) :
    (p.carried img page).Pairwise fun x y => x.1 + headerSize ≤ y.1 := by
  rw [carried]
  split
  · refine List.Pairwise.filter _ ((Log.pairwise_locate 0 _).imp fun hle => ?_)
    exact Nat.le_trans (Nat.add_le_add_left (Nat.le_add_right headerSize _) _) hle
  · exact List.Pairwise.nil

end Partition

namespace Table

variable {p : Partition} {t : Table} {img : Image} {page : Nat} {entry : Page}

theorem Charts.carried_eq (h : t.Charts p img) (hentry : t.pages[page]? = some entry) :
    p.carried img page = if entry.kind.holdsRecords then
      (Log.locate 0 (img.log page).records).filter (·.2.header.carriesValue) else [] := by
  rw [Partition.carried, h.status_eq page entry hentry, Option.any_some]
  refine if_congr (and_iff_right ?_) rfl rfl
  exact h.count_eq ▸ lt_count hentry

theorem Tracks.charts (h : t.Tracks p img) (hcount : t.count = p.pageCount) : t.Charts p img :=
  ⟨hcount, fun page entry hentry => (h page entry hentry).1,
    fun page entry hentry => (h page entry hentry).2.used_eq⟩

theorem Mirrors.charts (h : t.Mirrors p img) : t.Charts p img := h.tracks.charts h.count_eq

/-- On pages that the table describes the records that claim a value are live. -/
theorem Tracks.carried_eq (h : t.Tracks p img) (hcount : t.count = p.pageCount) :
    p.carried img = p.live img := by
  funext page
  by_cases hpage : page < p.pageCount
  · obtain ⟨entry, hentry⟩ := exists_entry (hcount ▸ hpage)
    rw [(h.charts hcount).carried_eq hentry, h.live_eq hcount hentry]
    split
    · next hholds =>
      have hsound := Log.damaged_eq_nil_iff.mp ((h page entry hentry).2.sound hholds)
      refine List.filter_congr fun e he => ?_
      obtain ⟨before, after, hrecords, -⟩ := Log.mem_locate he
      have hmem : e.2 ∈ (img.log page).records := by
        rw [hrecords]
        simp
      rw [Bool.eq_iff_iff]
      exact ⟨hsound e.2 hmem, Record.carriesValue_of_isLive⟩
    · rfl
  · rw [Partition.carried, Partition.live, if_neg fun hnot => hpage hnot.1,
      if_neg fun hnot => hpage hnot.1]

theorem Mirrors.carried_eq (h : t.Mirrors p img) : p.carried img = p.live img :=
  h.tracks.carried_eq h.count_eq

end Table

namespace Engine

open EngineM

variable {σ : Type} {p : Partition} {conduct : Conduct} {inv : Image → Prop} {fail : Post Error}
  {t : Table} {img : Image} {page offset : Nat} {tail : Bytes}

/-! ## Reading a record -/

/-- The header of a record lies in front of it. -/
theorem take_header {content : Bytes} {record : Record} {rest : Bytes}
    (hbytes : content.drop offset = record.toBytes ++ rest) :
    offset + headerSize ≤ content.length ∧
      Header.take? ((content.drop offset).take headerSize) = some (record.header, []) := by
  have htotal := congrArg List.length hbytes
  rw [List.length_drop, List.length_append, Record.toBytes, List.length_append,
    Header.length_toBytes] at htotal
  have hpos : 0 < headerSize := by decide
  have htake : (content.drop offset).take headerSize = record.header.toBytes := by
    rw [hbytes, Record.toBytes, List.append_assoc]
    exact List.take_left' (Header.length_toBytes _)
  have hheader := Header.take?_toBytes_append record.header []
  rw [List.append_nil] at hheader
  exact ⟨by omega, htake ▸ hheader⟩

theorem ensures_readHeader (hu : p.Usable) (hpage : page < p.pageCount) {record : Record}
    {rest : Bytes} (hbytes : (img.content page).drop offset = record.toBytes ++ rest) :
    Ensures p conduct inv (readHeader p ⟨page, offset⟩) t img
      (fun header t' img' => header = record.header ∧ t' = t ∧ img' = img) fail := by
  refine ensures_of_length fun hlength => ?_
  obtain ⟨hroom, hheader⟩ := take_header hbytes
  rw [hlength page hpage] at hroom
  unfold readHeader
  refine (ensures_perform (Partition.ensures_readContent hu hpage hroom)).bind ?_
  rintro bytes t' img' ⟨rfl, rfl, rfl⟩
  rw [hheader]
  exact ensures_pure ⟨rfl, rfl, rfl⟩

/-- The payload of a record lies behind its header. -/
theorem take_payload {location : Location} {record : Record}
    (hrecord : (location.offset, record) ∈ p.carried img location.page) :
    location.offset + headerSize + record.header.length.toNat ≤ (img.content location.page).length ∧
      ((img.content location.page).drop (location.offset + headerSize)).take
        record.header.length.toNat = record.payload := by
  obtain ⟨page, offset⟩ := location
  obtain ⟨-, before, after, hrecords, rfl⟩ := Partition.exists_of_mem_carried hrecord
  have hmem : record ∈ (img.log page).records := by
    rw [show (img.log page).records = _ from hrecords]
    simp
  have hwf : record.WellFormed := Log.wellFormed_of_mem_parse hmem
  have hbytes := Log.drop_span before (record :: after) hrecords
  have hpayload : ((img.content page).drop (Log.span before + headerSize)).take
      record.header.length.toNat = record.payload := by
    rw [← List.drop_drop, hbytes, List.flatMap_cons, Record.toBytes, List.append_assoc,
      List.append_assoc, List.drop_left' (Header.length_toBytes _)]
    exact List.take_left' hwf.1
  refine ⟨?_, hpayload⟩
  have htotal := congrArg List.length hbytes
  rw [List.length_drop, List.flatMap_cons, List.append_assoc, List.length_append,
    hwf.length_toBytes, Record.size, Header.recordSize, headerSize] at htotal
  show Log.span before + headerSize + _ ≤ _
  rw [headerSize]
  omega

/-- The payload of a record is read as it was written. -/
theorem ensures_readPayload (hu : p.Usable) {location : Location} {record : Record}
    (hrecord : (location.offset, record) ∈ p.carried img location.page) :
    Ensures p conduct inv (readPayload p location record.header) t img
      (fun payload t' img' => payload = record.payload ∧ t' = t ∧ img' = img) fail := by
  have hpage := (Partition.exists_of_mem_carried hrecord).1
  refine ensures_of_length fun hlength => ?_
  obtain ⟨hroom, hpayload⟩ := take_payload hrecord
  rw [hlength _ hpage] at hroom
  unfold readPayload
  refine (ensures_perform (Partition.ensures_readContent hu hpage hroom)).mono ?_
    fun _ _ _ hfail => hfail
  rintro bytes t' img' ⟨rfl, rfl, rfl⟩
  exact ⟨hpayload, rfl, rfl⟩

/-! ## Along one page -/

/-- The records that claim a value, among records that begin at an offset. -/
abbrev ahead (offset : Nat) (records : List Record) : List (Nat × Record) :=
  (Log.locate offset records).filter (·.2.header.carriesValue)

/-- A record that claims no value is passed over. -/
theorem ahead_cons (record : Record) (rest : List Record) :
    ahead offset (record :: rest) = if record.header.carriesValue = true then
      (offset, record) :: ahead (offset + record.size) rest else ahead (offset + record.size) rest :=
  List.filter_cons

/-- A visit has taken the first of the records ahead. -/
def Visited (page : Nat) (motive : σ → List (Nat × Record) → Table → Image → Prop) (offset : Nat)
    (entries : List (Nat × Record)) (img : Image) : Post (ForInStep σ)
  | .yield s, t', img' =>
    motive s entries t' img' ∧ (img'.content page).drop offset = (img.content page).drop offset
  | .done s, t', img' => motive s [] t' img'

/-- **A walk along a page** takes the records that claim a value one after the other.  What is said of the
walk and what follows it may be any statement that is shown step by step. -/
theorem walk_steps {τ : Type} {J : EngineM τ → Table → Image → Prop} {next : σ → EngineM τ}
    {visit : σ → Location → Header → EngineM (ForInStep σ)}
    (motive : σ → List (Nat × Record) → Table → Image → Prop)
    (hread : ∀ {offset record rest t img} (f : Header → EngineM τ),
      (img.content page).drop offset = Record.toBytes record ++ rest → J (f record.header) t img →
        J (readHeader p ⟨page, offset⟩ >>= f) t img)
    (hskip : ∀ s location header, header.carriesValue = false →
      visit s location header = pure (.yield s))
    (hvisit : ∀ s offset record entries t img (f : ForInStep σ → EngineM τ),
      motive s ((offset, record) :: entries) t img →
        (∀ s' t' img', Visited page motive (offset + record.size) entries img s' t' img' →
          J (f s') t' img') →
        J (visit s ⟨page, offset⟩ record.header >>= f) t img)
    (hnext : ∀ s t img, motive s [] t img → J (next s) t img)
    {records : List Record} (hwf : ∀ r ∈ records, r.WellFormed)
    (hbytes : (img.content page).drop offset = records.flatMap Record.toBytes ++ tail) {s : σ}
    (h : motive s (ahead offset records) t img) :
    J (walk p page (offset + Log.span records) visit offset s >>= next) t img := by
  -- The induction is on the records ahead; the visitor may change all that lies behind them.
  induction records generalizing offset s t img with
  | nil =>
    rw [walk, dif_neg (by rw [headerSize, Log.span_nil]; omega), pure_bind]
    exact hnext s t img h
  | cons record rest ih =>
    have hsize : headerSize ≤ record.size := Nat.le_add_right _ _
    have hrecord := hwf record (by simp)
    rw [List.flatMap_cons, List.append_assoc] at hbytes
    have hbehind : (img.content page).drop (offset + record.size) =
        rest.flatMap Record.toBytes ++ tail := by
      rw [← List.drop_drop, hbytes, List.drop_left' hrecord.length_toBytes]
    have hspan : offset + Log.span (record :: rest) = offset + record.size + Log.span rest := by
      rw [Log.span_cons, Nat.add_assoc]
    rw [walk, hspan, dif_pos (by omega), bind_assoc]
    refine hread _ hbytes ?_
    rw [if_neg hrecord.2]
    have hrest : ∀ {s t img}, motive s (ahead (offset + record.size) rest) t img →
        (img.content page).drop (offset + record.size) = rest.flatMap Record.toBytes ++ tail →
        J (walk p page (offset + record.size + Log.span rest) visit (offset + record.size) s >>= next)
          t img := fun hm hb => ih (fun r hr => hwf r (by simp [hr])) hb hm
    rw [ahead_cons] at h
    split at h
    · rw [bind_assoc]
      refine hvisit _ _ _ _ _ _ _ h ?_
      rintro (s' | s') t' img' hvisited
      · rw [pure_bind]
        exact hnext _ _ _ hvisited
      · exact hrest hvisited.1 (hvisited.2.trans hbehind)
    · next hcarries =>
      rw [hskip _ _ _ (by simpa using hcarries), pure_bind]
      exact hrest h hbehind

/-! ## Along all pages -/

/-- **A walk along some pages** takes the records of one page after the other.  The outer invariant speaks
of the pages ahead, the inner one also of the records ahead on the page that the walk is on. -/
theorem walkPages_steps {J : EngineM σ → Table → Image → Prop}
    {visit : σ → Location → Header → EngineM (ForInStep σ)}
    (outer : σ → List Nat → Table → Image → Prop)
    (inner : Nat → List Nat → σ → List (Nat × Record) → Table → Image → Prop)
    (hcharts : ∀ s pages t img, outer s pages t img → t.Charts p img)
    (hpageAt : ∀ {page entry t img} (f : Page → EngineM σ), t.pages[page]? = some entry →
      J (f entry) t img → J (pageAt page >>= f) t img)
    (hread : ∀ {page offset record rest t img} (f : Header → EngineM σ), page < p.pageCount →
      (img.content page).drop offset = Record.toBytes record ++ rest → J (f record.header) t img →
        J (readHeader p ⟨page, offset⟩ >>= f) t img)
    (hskip : ∀ s location header, header.carriesValue = false →
      visit s location header = pure (.yield s))
    (hstart : ∀ s page rest t img, outer s (page :: rest) t img →
      inner page rest s (p.carried img page) t img)
    (hvisit : ∀ page rest s offset record entries t img (f : ForInStep σ → EngineM σ),
      inner page rest s ((offset, record) :: entries) t img →
        (∀ s' t' img', Visited page (inner page rest) (offset + record.size) entries img s' t' img' →
          J (f s') t' img') →
        J (visit s ⟨page, offset⟩ record.header >>= f) t img)
    (hstop : ∀ s page rest t img, inner page rest s [] t img → outer s rest t img)
    (hend : ∀ s t img, outer s [] t img → J (pure s) t img)
    {pages : List Nat} (hpages : ∀ page ∈ pages, page < p.pageCount) {s : σ}
    (h : outer s pages t img) : J (pages.foldlM (walkPage p visit) s) t img := by
  induction pages generalizing s t img with
  | nil => exact hend s t img h
  | cons page rest ih =>
    obtain ⟨hpage, hrest⟩ := List.forall_mem_cons.mp hpages
    have hc := hcharts _ _ _ _ h
    obtain ⟨entry, hentry⟩ := Table.exists_entry (hc.count_eq ▸ hpage)
    have hinner := hstart _ _ _ _ _ h
    rw [hc.carried_eq hentry] at hinner
    rw [List.foldlM_cons, walkPage, bind_assoc]
    refine hpageAt _ hentry ?_
    split
    · next hholds =>
      rw [if_pos hholds] at hinner
      rw [hc.used_eq page entry hentry hholds, Log.used_eq_span, ← Nat.zero_add (Log.span _)]
      refine walk_steps (inner page rest) (fun f => hread f hpage) hskip (hvisit page rest) ?_
        (fun r hr => Log.wellFormed_of_mem_parse hr) (Log.drop_span [] _ rfl) hinner
      exact fun s' t' img' hstopped => ih hrest (hstop _ _ _ _ _ hstopped)
    · next hholds =>
      -- A page that holds no records carries no values, so the walk over it is done.
      rw [if_neg hholds] at hinner
      rw [pure_bind]
      exact ih hrest (hstop _ _ _ _ _ hinner)

/-- **A walk along all pages** ensures what its visits do. -/
theorem ensures_walkAll (hu : p.Usable) {visit : σ → Location → Header → EngineM (ForInStep σ)}
    (outer : σ → List Nat → Table → Image → Prop)
    (inner : Nat → List Nat → σ → List (Nat × Record) → Table → Image → Prop)
    (hcharts : ∀ s pages t img, outer s pages t img → t.Charts p img)
    (hskip : ∀ s location header, header.carriesValue = false →
      visit s location header = pure (.yield s))
    (hstart : ∀ s page rest t img, outer s (page :: rest) t img →
      inner page rest s (p.carried img page) t img)
    (hvisit : ∀ page rest s offset record entries t img,
      inner page rest s ((offset, record) :: entries) t img →
        Ensures p conduct inv (visit s ⟨page, offset⟩ record.header) t img
          (Visited page (inner page rest) (offset + record.size) entries img) fail)
    (hstop : ∀ s page rest t img, inner page rest s [] t img → outer s rest t img) {s : σ}
    (h : outer s t.searchOrder t img) :
    Ensures p conduct inv (walkAll p visit s) t img (fun s' t' img' => outer s' [] t' img') fail := by
  have hpages : ∀ page ∈ t.searchOrder, page < p.pageCount := fun page hpage =>
    (hcharts _ _ _ _ h).count_eq ▸ lt_of_mem_ringBackFrom hpage
  unfold walkAll
  refine ensures_get_bind ?_
  refine walkPages_steps (J := fun x t img =>
    Ensures p conduct inv x t img (fun s' t' img' => outer s' [] t' img') fail) outer inner hcharts
    (fun _ => ensures_pageAt_bind) (fun f hpage hbytes hf => ?_) hskip hstart
    (fun page rest s offset record entries t img f hinner hf =>
      (hvisit page rest s offset record entries t img hinner).bind hf) hstop
    (fun _ _ _ hdone => ensures_pure hdone) hpages h
  refine (ensures_readHeader hu hpage hbytes).bind ?_
  rintro _ _ _ ⟨rfl, rfl, rfl⟩
  exact hf

/-- **A walk along all pages** of a flash that the table describes takes the live records. -/
theorem ensures_walkLive (hu : p.Usable) {visit : σ → Location → Header → EngineM (ForInStep σ)}
    (outer : σ → List Nat → Table → Image → Prop)
    (inner : Nat → List Nat → σ → List (Nat × Record) → Table → Image → Prop)
    (hmirrors : ∀ s pages t img, outer s pages t img → t.Mirrors p img)
    (hskip : ∀ s location header, header.carriesValue = false →
      visit s location header = pure (.yield s))
    (hstart : ∀ s page rest t img, outer s (page :: rest) t img →
      inner page rest s (p.live img page) t img)
    (hvisit : ∀ page rest s offset record entries t img,
      inner page rest s ((offset, record) :: entries) t img →
        Ensures p conduct inv (visit s ⟨page, offset⟩ record.header) t img
          (Visited page (inner page rest) (offset + record.size) entries img) fail)
    (hstop : ∀ s page rest t img, inner page rest s [] t img → outer s rest t img) {s : σ}
    (h : outer s t.searchOrder t img) :
    Ensures p conduct inv (walkAll p visit s) t img (fun s' t' img' => outer s' [] t' img') fail := by
  refine ensures_walkAll hu outer inner (fun _ _ _ _ houter => (hmirrors _ _ _ _ houter).charts) hskip
    (fun s page rest t img houter => ?_) hvisit hstop h
  rw [(hmirrors _ _ _ _ houter).carried_eq]
  exact hstart _ _ _ _ _ houter

/-! ## What lies ahead of a walk -/

/-- The records that a walk has not visited yet: those of the pages ahead, and some of its page. -/
def Pending (page : Nat) (rest : List Nat) (entries : List (Nat × Record)) (other : Nat)
    (entry : Nat × Record) : Prop :=
  other ∈ rest ∨ other = page ∧ entry ∈ entries

/-- A walk along some pages is on a page, with records of that page ahead. -/
structure Course (L : Partition.Holdings) (page : Nat) (rest : List Nat)
    (entries : List (Nat × Record)) : Prop where
  fresh : page ∉ rest
  nodup : rest.Nodup
  mem : ∀ entry ∈ entries, entry ∈ L page
  order : entries.Pairwise fun x y => x.1 + headerSize ≤ y.1

variable {L : Partition.Holdings} {rest : List Nat} {entries : List (Nat × Record)}
  {record : Record}

theorem pending_cons (other : Nat) (entry : Nat × Record) :
    Pending page rest ((offset, record) :: entries) other entry ↔
      Pending page rest entries other entry ∨ other = page ∧ entry = (offset, record) := by
  unfold Pending
  rw [List.mem_cons, and_or_left, or_assoc]
  exact or_congr_right or_comm

theorem pending_nil (other : Nat) (entry : Nat × Record) :
    Pending page rest [] other entry ↔ other ∈ rest := by
  simp [Pending]

/-- At the start of a page, all of its records are ahead. -/
theorem pending_start {other : Nat} {entry : Nat × Record}
    (hentries : other = page → entry ∈ entries) :
    Pending page rest entries other entry ↔ other ∈ page :: rest := by
  unfold Pending
  rw [List.mem_cons, or_comm]
  exact or_congr_left ⟨fun h => h.1, fun h => ⟨h, hentries h⟩⟩

namespace Course

theorem head (h : Course L page rest ((offset, record) :: entries)) :
    (offset, record) ∈ L page ∧ ¬Pending page rest entries page (offset, record) := by
  refine ⟨h.mem _ (by simp), ?_⟩
  rintro (hrest | ⟨-, hlater⟩)
  · exact h.fresh hrest
  · have hle : offset + headerSize ≤ offset := (List.pairwise_cons.mp h.order).1 _ hlater
    rw [headerSize] at hle
    omega

theorem next (h : Course L page rest ((offset, record) :: entries)) : Course L page rest entries :=
  ⟨h.fresh, h.nodup, fun entry hentry => h.mem entry (by simp [hentry]),
    (List.pairwise_cons.mp h.order).2⟩

end Course

/-! ## A walk for a single record -/

/-- The walk has met the only record of its key. -/
structure Met (p : Partition) (key : UInt16) (img₀ : Image) (rest : List Nat)
    (entries : List (Nat × Record)) (img : Image) : Prop where
  exists_copy : ∃ page entry, (p.carried img₀).Copy key page entry
  entries_ne : ∀ entry ∈ entries, entry.2.header.key ≠ key
  rest_ne : ∀ page ∈ rest, ∀ entry, ¬(p.carried img).Copy key page entry

/-- **A walk for a key that has a single record** acts there, and only there. -/
theorem ensures_walkOnce (hu : p.Usable) (hcharts : t.Charts p img) {key : UInt16}
    {visit : σ → Location → Header → EngineM (ForInStep σ)} {s₀ : σ} (acted : Post σ)
    (hskip : ∀ s location header, ¬(header.carriesValue = true ∧ header.key = key) →
      visit s location header = pure (.yield s))
    (hsole : ∀ page entry page' entry', (p.carried img).Copy key page entry →
      (p.carried img).Copy key page' entry' → page = page' ∧ entry = entry')
    (hacted : ∀ s t' img', acted s t' img' → t'.Charts p img' ∧ ∀ page entry,
      (p.carried img').Copy key page entry → (p.carried img).Copy key page entry)
    (hvisit : ∀ page offset record, (p.carried img).Copy key page (offset, record) →
      Ensures p conduct inv (visit s₀ ⟨page, offset⟩ record.header) t img
        (Visited page (fun s _ t' img' => acted s t' img') (offset + record.size) [] img) fail) :
    Ensures p conduct inv (walkAll p visit s₀) t img
      (fun s t' img' =>
        (∃ page entry, (p.carried img).Copy key page entry) ∧ acted s t' img' ∨
        (∀ page entry, ¬(p.carried img).Copy key page entry) ∧ s = s₀ ∧ t' = t ∧ img' = img)
      fail := by
  refine (ensures_walkAll hu
    (fun s pages t' img' => (s = s₀ ∧ t' = t ∧ img' = img) ∧ pages.Nodup ∧
        (∀ page entry, (p.carried img).Copy key page entry → page ∈ pages) ∨
      acted s t' img' ∧ Met p key img pages [] img')
    (fun page rest s entries t' img' => (s = s₀ ∧ t' = t ∧ img' = img) ∧
        Course (p.carried img) page rest entries ∧
        (∀ other entry, (p.carried img).Copy key other entry → Pending page rest entries other entry) ∨
      acted s t' img' ∧ Met p key img rest entries img')
    ?_ ?_ ?_ ?_ ?_ (Or.inl ⟨⟨rfl, rfl, rfl⟩, nodup_ringBackFrom _ _, ?_⟩)).mono ?_ fun _ _ _ hfail => hfail
  · rintro s pages t' img' (⟨⟨rfl, rfl, rfl⟩, -⟩ | ⟨hdone, -⟩)
    · exact hcharts
    · exact (hacted s t' img' hdone).1
  · intro s location header hcarries
    refine hskip s location header fun hkey => ?_
    rw [hcarries] at hkey
    cases hkey.1
  · rintro s page rest t' img' (⟨⟨rfl, rfl, rfl⟩, hnodup, hahead⟩ | ⟨hdone, hmet⟩)
    · obtain ⟨hfresh, hrest⟩ := List.nodup_cons.mp hnodup
      refine Or.inl ⟨⟨rfl, rfl, rfl⟩, ⟨hfresh, hrest, fun _ he => he, p.pairwise_carried _ page⟩,
        fun other entry hcopy => (pending_start ?_).mpr (hahead other entry hcopy)⟩
      rintro rfl
      exact hcopy.1
    · exact Or.inr ⟨hdone, hmet.exists_copy, fun entry he hkey => hmet.rest_ne page (by simp) entry
        ⟨he, hkey⟩, fun other hother => hmet.rest_ne other (by simp [hother])⟩
  · rintro page rest s offset record entries t' img' (⟨⟨rfl, rfl, rfl⟩, hcourse, hahead⟩ | ⟨hdone, hmet⟩)
    · have hmem := hcourse.head.1
      by_cases hkey : record.header.carriesValue = true ∧ record.header.key = key
      · -- This is the record, so no other one is ahead.
        have hcopy : (p.carried img').Copy key page (offset, record) := ⟨hmem, hkey.2⟩
        have hmet : ∀ {s t₁ img₁}, acted s t₁ img₁ → Met p key img' rest entries img₁ := by
          refine fun hdone => ⟨⟨page, _, hcopy⟩, fun entry he heq => ?_, fun other hother entry hother' => ?_⟩
          · have hsame := (hsole _ _ _ _ ⟨hcourse.mem entry (by simp [he]), heq⟩ hcopy).2
            exact hcourse.head.2 (Or.inr ⟨rfl, hsame ▸ he⟩)
          · rw [(hsole _ _ _ _ ((hacted _ _ _ hdone).2 other entry hother') hcopy).1] at hother
            exact hcourse.fresh hother
        refine (hvisit page offset record hcopy).mono ?_ fun _ _ _ hfail => hfail
        rintro (s' | s') t₁ img₁ hvisited
        · exact Or.inr ⟨hvisited, (hmet hvisited).exists_copy, by simp, (hmet hvisited).rest_ne⟩
        · exact ⟨Or.inr ⟨hvisited.1, hmet hvisited.1⟩, hvisited.2⟩
      · rw [hskip _ _ _ hkey]
        refine ensures_pure ⟨Or.inl ⟨⟨rfl, rfl, rfl⟩, hcourse.next, fun other entry hcopy => ?_⟩, rfl⟩
        refine ((pending_cons other entry).mp (hahead other entry hcopy)).resolve_right ?_
        rintro ⟨rfl, rfl⟩
        exact hkey ⟨Partition.carriesValue_of_mem_carried hmem, hcopy.2⟩
    · rw [hskip _ _ _ fun hkey => hmet.entries_ne (offset, record) (by simp) hkey.2]
      exact ensures_pure ⟨Or.inr ⟨hdone, hmet.exists_copy, fun entry he =>
        hmet.entries_ne entry (by simp [he]), hmet.rest_ne⟩, rfl⟩
  · rintro s page rest t' img' (⟨hsame, hcourse, hahead⟩ | ⟨hdone, hmet⟩)
    · exact Or.inl ⟨hsame, hcourse.nodup, fun other entry hcopy =>
        (pending_nil other entry).mp (hahead other entry hcopy)⟩
    · exact Or.inr ⟨hdone, hmet⟩
  · intro page entry hcopy
    exact mem_ringBackFrom (hcharts.count_eq ▸ (Partition.exists_of_mem_carried hcopy.1).1)
  · rintro s t' img' (⟨hsame, -, hahead⟩ | ⟨hdone, hmet⟩)
    · exact Or.inr ⟨fun page entry hcopy => List.not_mem_nil (hahead page entry hcopy), hsame⟩
    · exact Or.inl ⟨hmet.exists_copy, hdone⟩

end Engine

end RingStore
