import RingStore.Proofs.Anchor
import RingStore.Proofs.Engine.Update
import RingStore.Proofs.Operation
import RingStore.Proofs.Warrant

/-!
# Only spent pages are erased

A page is erased when none of its records claims a value any more.  The other pages hold what the store is
to hold from then on, one copy of each key that has a value: a write has its new copy in place before it
drops the old one, and it is the drop that empties a page.

So whenever an operation asks for an erase, the store could do without it.  The last word on that is
`Engine.warranted_program`.

## Main statements

* `Engine.warranted_reclaim`: a page that has no live records left is given back.
* `Engine.warranted_drop`: a drop gives back the page that it empties.
* `Engine.warranted_program`: whenever an operation asks for an erase, the page is spent.
-/

namespace RingStore

open RingStore.Partition (Holdings)

/-! ## Pages that are spent -/

namespace Partition.Holdings

variable {L L' : Holdings} {key : UInt16}

/-- No key has two copies. -/
def Single (L : Holdings) : Prop :=
  ∀ key page entry page' entry', L.Copy key page entry → L.Copy key page' entry' →
    page = page' ∧ entry = entry'

theorem Single.mono (h : L.Single) (hmem : ∀ page, ∀ entry ∈ L' page, entry ∈ L page) : L'.Single :=
  fun key page entry page' entry' hcopy hcopy' =>
    h key page entry page' entry' ⟨hmem _ _ hcopy.1, hcopy.2⟩ ⟨hmem _ _ hcopy'.1, hcopy'.2⟩

/-- A key that is settled at a value has a single copy, and the other keys have theirs. -/
theorem Single.update (h : L.Single) {v : Option Bytes} (hupdate : L.Update key v L') : L'.Single := by
  intro other page entry page' entry' hcopy hcopy'
  by_cases heq : other = key
  · subst heq
    exact hupdate.sole page entry page' entry' hcopy hcopy'
  · have hcopies : ∀ page entry, L'.Copy other page entry → L.Copy other page entry := by
      rintro page entry ⟨hmem, hkey⟩
      exact ⟨(hupdate.others page entry (hkey ▸ heq)).mp hmem, hkey⟩
    exact h other page entry page' entry' (hcopies _ _ hcopy) (hcopies _ _ hcopy')

end Partition.Holdings

/-- A page may be erased: no record of it claims a value, and the store is as it is to be. -/
structure Partition.Spent (p : Partition) (page : Nat) (img : Image) : Prop where
  carried_eq : p.carried img page = []
  single : (p.live img).Single

/-- A page of which nothing is live is spent, where the table describes the flash. -/
theorem Table.Tracks.spent {p : Partition} {t : Table} {img : Image} {page : Nat} (h : t.Tracks p img)
    (hcount : t.count = p.pageCount) (hlive : p.live img page = []) (hsingle : (p.live img).Single) :
    p.Spent page img :=
  ⟨by rw [h.carried_eq hcount, hlive], hsingle⟩

namespace Engine

open EngineM

/-! ## Operations that ask for no erase -/

section Sparing

variable {σ : Type} (p : Partition) (page : Nat) (key : UInt16)

theorem sparing_pageAt : (pageAt page).Sparing := by
  refine sparing_get.bind fun t => ?_
  split
  · exact sparing_pure _
  · exact sparing_throw _

theorem sparing_setStatus (status : PageStatus) : (setStatus p page status).Sparing :=
  (sparing_pageAt page).bind fun _ =>
    (sparing_perform (p.sparing_writeStatus page status)).bind fun _ => sparing_modify _

theorem sparing_freeBytes : (freeBytes p page).Sparing := by
  refine (sparing_pageAt page).bind fun entry => ?_
  split
  · exact sparing_pure _
  · exact sparing_throw _

theorem sparing_append (payload : Bytes) : (append p page key payload).Sparing := by
  refine (sparing_pageAt page).bind fun entry => ?_
  refine (sparing_perform (p.sparing_writeContent page _ _)).bind fun _ => ?_
  dsimp only
  split
  · exact sparing_modify _
  · exact sparing_throw _

theorem sparing_close : (close p page).Sparing := by
  refine (sparing_pageAt page).bind fun entry => (sparing_setStatus p page _).bind fun _ => ?_
  split
  · exact sparing_setStatus p page _
  · exact sparing_pure _

theorem sparing_closeIfFull : (closeIfFull p page).Sparing := by
  refine (sparing_pageAt page).bind fun entry => ?_
  split
  · refine (sparing_freeBytes p page).bind fun free => ?_
    split
    · exact sparing_close p page
    · exact sparing_pure _
  · exact sparing_pure _

theorem sparing_activeWithRoom (active : Option Nat) (needed : Nat) :
    (activeWithRoom p active needed).Sparing := by
  cases active with
  | none => exact sparing_pure _
  | some page => exact (sparing_freeBytes p page).bind fun _ => sparing_pure _

/-- A page that a lookup empties is only set aside. -/
theorem sparing_drop (location : Location) : (drop p location .deferred).Sparing := by
  refine (sparing_pageAt _).bind fun entry => ?_
  refine (sparing_perform (p.sparing_writeContent _ _ _)).bind fun _ => ?_
  refine (sparing_modify _).bind fun _ => ?_
  split
  · cases entry.kind with
    | full => exact sparing_setStatus p _ _
    | _ => exact sparing_pure _
  · exact sparing_pure _

theorem sparing_readHeader (location : Location) : (readHeader p location).Sparing := by
  refine (sparing_perform (p.sparing_readContent _ _ _)).bind fun bytes => ?_
  split
  · exact sparing_pure _
  · exact sparing_throw _

theorem sparing_readPayload (location : Location) (header : Header) :
    (readPayload p location header).Sparing :=
  sparing_perform (p.sparing_readContent _ _ _)

theorem sparing_walk {visit : σ → Location → Header → EngineM (ForInStep σ)}
    (hvisit : ∀ s location header, (visit s location header).Sparing) (limit offset : Nat) (s : σ) :
    (walk p page limit visit offset s).Sparing := by
  fun_induction walk p page limit visit offset s with
  | case1 offset s hlimit ih =>
    refine (sparing_readHeader p _).bind fun header => ?_
    split
    · exact sparing_pure _
    · refine (hvisit s _ header).bind fun next => ?_
      split
      · exact sparing_pure _
      · exact ih header _
  | case2 offset s hlimit => exact sparing_pure _

theorem sparing_walkAll {visit : σ → Location → Header → EngineM (ForInStep σ)}
    (hvisit : ∀ s location header, (visit s location header).Sparing) (s : σ) :
    (walkAll p visit s).Sparing := by
  refine sparing_get.bind fun t => sparing_foldlM (fun s page => ?_) _ s
  refine (sparing_pageAt page).bind fun entry => ?_
  split
  · exact sparing_walk p page hvisit _ _ s
  · exact sparing_pure _

theorem sparing_examine (best : Option Found) (location : Location) (header : Header) :
    (examine p key best location header).Sparing := by
  unfold examine
  split
  · refine (sparing_readPayload p location header).bind fun payload => ?_
    split
    · split
      · exact sparing_pure _
      · split
        · exact (sparing_drop p _).bind fun _ => sparing_pure _
        · exact (sparing_drop p _).bind fun _ => sparing_pure _
    · exact (sparing_drop p _).bind fun _ => sparing_pure _
  · exact sparing_pure _

/-- **A lookup asks for no erase.** -/
theorem sparing_find : (find p key).Sparing := sparing_walkAll p (sparing_examine p key) none

theorem sparing_payloadOf : (payloadOf p key).Sparing := by
  unfold payloadOf
  split
  · exact (sparing_find p key).bind fun _ => sparing_pure _
  · exact sparing_throw _

theorem sparing_lengthOf : (lengthOf p key).Sparing :=
  (sparing_payloadOf p key).bind fun _ => sparing_pure _

theorem sparing_readItem (buffer : Bytes) : (readItem p key buffer).Sparing := by
  unfold readItem
  split
  · refine (sparing_find p key).bind fun found => ?_
    split
    · exact sparing_pure _
    · exact sparing_pure _
  · exact sparing_throw _

theorem sparing_fetch {α : Type} [Storable α] : (fetch key p : EngineM (Option α)).Sparing := by
  refine (sparing_payloadOf p key).bind fun bytes => ?_
  split
  · exact sparing_pure _
  · split
    · exact sparing_pure _
    · exact sparing_throw _

end Sparing

/-! ## Operations that do -/

variable {p : Partition} {t : Table} {img : Image} {page : Nat} {entry : Page} {key : UInt16}

theorem warranted_erasePage (hcount : t.count = p.pageCount) (hentry : t.pages[page]? = some entry)
    (hspent : p.Spent page img) : Warranted p p.Spent (erasePage p page) t img := by
  have hpage : page < p.pageCount := hcount ▸ Table.lt_count hentry
  unfold erasePage
  refine warranted_pageAt_bind hentry ?_
  refine (warranted_perform fun cells hshows => ?_).bind fun _ => sparing_modify _
  exact Partition.warranted_erasePage hpage (hshows.image_eq ▸ hspent)

/-- **A page without live records is given back.** -/
theorem warranted_reclaim (hu : p.Usable) (h : t.MirrorsBut p img page)
    (hentry : t.pages[page]? = some entry) (hkind : entry.kind ≠ .erased)
    (hlive : p.live img page = []) (hsingle : (p.live img).Single) :
    Warranted p p.Spent (reclaim p page) t img := by
  have herase := warranted_erasePage h.count_eq hentry (h.tracks.spent h.count_eq hlive hsingle)
  unfold reclaim
  refine warranted_pageAt_bind hentry ?_
  split
  · next hring =>
    refine warranted_get_bind ?_
    split
    · next next hnext =>
      obtain ⟨hne, successor, hsuccessor, hused⟩ :=
        Table.exists_of_successor? (Table.lt_count hentry) hnext
      have hstatus := (h.tracks next successor hsuccessor).1
      have hhand := h.handOver hentry hkind hring hsuccessor hused hne
      have hsame : p.live (img.setStatus next successor.status.withMarker) = p.live img :=
        Partition.live_setStatus hstatus (Or.inl rfl)
      refine warranted_pageAt_bind hsuccessor ?_
      have hmark : Ensures p .reliable p.Unasked (setStatus p next successor.status.withMarker) t img _
          noError := ensures_setStatus hu h.count_eq hsuccessor hstatus
        (PageStatus.toByte_and_withMarker _) fun _ => p.secure_of_unasked _ _
      refine hmark.warranted_bind (p.secure_of_unasked _ img) (sparing_setStatus p next _).warranted ?_
      rintro _ t' img' ⟨rfl, rfl⟩
      refine warranted_modify_bind (warranted_erasePage hhand.count_eq
        ((Table.getElem?_set_of_ne hne.symm).trans hentry)
        (hhand.tracks.spent hhand.count_eq ?_ ?_))
      · rw [hsame, hlive]
      · rw [hsame]
        exact hsingle
    · exact herase.bind fun _ => sparing_setStatus p page _
  · exact herase

/-- **A drop gives back the page that it empties.** -/
theorem warranted_drop (hu : p.Usable) (h : t.Mirrors p img) {record : Record} (location : Location)
    (policy : ReclaimPolicy) (hlive : (location.offset, record) ∈ p.live img location.page)
    (hsingle : ((p.live img).without location).Single) :
    Warranted p p.Spent (drop p location policy) t img := by
  obtain ⟨page, offset⟩ := location
  obtain ⟨entry, before, after, hentry, hholds, hrecords, rfl, hrecord⟩ := exists_record h hlive
  have hpage : page < p.pageCount := h.count_eq ▸ Table.lt_count hentry
  have hstatus := (h.tracks page entry hentry).1
  obtain ⟨hbut, hlive'⟩ := mirrorsBut_struck h hentry hholds hrecords hrecord
  have htombstone : AccessM.Ensures p .reliable p.Unasked (p.writeTombstone page (Log.span before)) img
      fun _ img' => img' = struck img page (Log.span before) :=
    Partition.ensures_tombstone hu hpage hstatus (PageKind.ne_erased_of_holdsRecords hholds) hrecords
      (fun _ => trivial) fun _ _ _ => trivial
  unfold drop
  refine warranted_pageAt_bind hentry ?_
  have hstrike : Ensures p .reliable p.Unasked (perform (p.writeTombstone page (Log.span before))) t img
      _ noError := ensures_perform htombstone
  refine hstrike.warranted_bind (p.secure_of_unasked _ img)
    (sparing_perform (p.sparing_writeContent _ _ _)).warranted ?_
  rintro _ t' img' ⟨rfl, rfl⟩
  refine warranted_modify_bind ?_
  have hself : (t'.set page { entry with live := entry.live - 1 }).pages[page]? = some _ :=
    Table.getElem?_set_self (Table.lt_count hentry)
  split
  · next hzero =>
    have hnil : p.live (struck img page (Log.span before)) page = [] := by
      refine List.eq_nil_of_length_eq_zero ?_
      rw [← hbut.tracks.length_live hbut.count_eq hself]
      exact hzero
    cases hkind : entry.kind with
    | full =>
      cases policy with
      | immediate =>
        exact warranted_reclaim hu hbut hself (PageKind.ne_erased_of_holdsRecords hholds) hnil
          (hlive' ▸ hsingle)
      | deferred => exact (sparing_setStatus p page _).warranted
    | _ => exact (sparing_pure ()).warranted
  · exact (sparing_pure ()).warranted

theorem warranted_sweepPage (hu : p.Usable) (h : t.Mirrors p img) (hsingle : (p.live img).Single)
    (hpage : page < p.pageCount) (count : Nat) :
    Warranted p p.Spent (sweepPage p count page) t img := by
  obtain ⟨entry, hentry⟩ := Table.exists_entry (h.count_eq ▸ hpage)
  unfold sweepPage
  refine warranted_pageAt_bind hentry ?_
  split
  · next hkind =>
    have hnil : p.live img page = [] := h.live_eq_nil hentry (by rw [hkind]; decide)
    exact (warranted_reclaim hu (h.but page) hentry (by rw [hkind]; decide) hnil hsingle).bind
      fun _ => sparing_pure _
  · exact (sparing_pure _).warranted

/-- **A sweep erases pages that are spent.** -/
theorem warranted_sweep (hu : p.Usable) (h : t.Mirrors p img) (hsingle : (p.live img).Single) :
    Warranted p p.Spent (sweep p) t img := by
  have hpages : ∀ page ∈ List.range t.count, page < p.pageCount := fun page hpage =>
    h.count_eq ▸ List.mem_range.mp hpage
  unfold sweep
  refine warranted_get_bind ?_
  have hstep : ∀ page ∈ List.range t.count, ∀ rest count t' img',
      Sweeping p t img (page :: rest) count t' img' → Ensures p .reliable p.Unasked
        (sweepPage p count page) t' img' (fun count' => Sweeping p t img rest count') noError :=
    fun page hpage _ _ _ _ hsweeping => ensures_sweepPage hu hsweeping (hpages page hpage)
  refine warranted_foldlM (Sweeping p t img) (p.secure_of_unasked .reliable) hstep ?_ (.start h)
  intro page hpage rest count t' img' hsweeping
  exact warranted_sweepPage hu hsweeping.mirrors (hsweeping.live_eq ▸ hsingle) (hpages page hpage) count

/-- A page is claimed, and a spent one is erased for it. -/
theorem warranted_claimErased (hu : p.Usable) (h : t.Mirrors p img) (hsingle : (p.live img).Single) :
    Warranted p p.Spent (claimErased p) t img := by
  unfold claimErased
  refine warranted_get_bind ?_
  split
  · exact (sparing_pure _).warranted
  · refine warranted_get_bind ?_
    split
    · exact (sparing_throw _).warranted
    · next page hpage =>
      obtain ⟨entry, hentry, hkind⟩ := Table.isKind_iff.mp (List.find?_some hpage)
      have hnil : p.live img page = [] := h.live_eq_nil hentry (by rw [hkind]; decide)
      refine (warranted_reclaim hu (h.but page) hentry (by rw [hkind]; decide) hnil hsingle).bind
        fun _ => sparing_get.bind fun t' => ?_
      split
      · exact sparing_pure _
      · exact sparing_throw _

theorem warranted_openNext (hu : p.Usable) (h : t.Mirrors p img) (hsingle : (p.live img).Single)
    (active : Option Nat) : Warranted p p.Spent (openNext p active) t img :=
  (warranted_claimErased hu h hsingle).bind fun target =>
    (sparing_forM_option (sparing_close p) active).bind fun _ =>
      (sparing_pageAt target).bind fun _ => (sparing_setStatus p target _).bind fun _ =>
        (sparing_modify _).bind fun _ => sparing_pure _

/-- Where the active page has no room, another one is opened. -/
theorem warranted_selectPage (hu : p.Usable) (h : t.Mirrors p img) (hsingle : (p.live img).Single)
    (length : Nat) : Warranted p p.Spent (selectPage p length) t img := by
  unfold selectPage
  refine warranted_get_bind ?_
  refine Ensures.warranted_bind (ensures_activeWithRoom h _) (p.secure_of_unasked .reliable img)
    (sparing_activeWithRoom p _ _).warranted ?_
  rintro (_ | page) _ _ ⟨rfl, rfl, -⟩
  · exact warranted_openNext hu h hsingle _
  · exact (sparing_pure _).warranted

/-! ## Writing -/

/-- The old copy is dropped once the new one is there. -/
theorem warranted_dropOld (hu : p.Usable) (h : t.Mirrors p img) {L L₁ : Holdings} {old : Option Found}
    {payload : Bytes} {offset : Nat} (hsingle : L.Single) (hcleared : Cleared L key old L₁)
    (hL : L₁.Distinct) (hlast : ∀ e ∈ L₁ page, e.1 < offset)
    (hlive : p.live img = L₁.added page offset (.ofPayload p.chip.checksum key payload)) :
    Warranted p p.Spent (old.forM fun item => drop p item.location .immediate) t img := by
  cases old with
  | none => exact (sparing_pure ()).warranted
  | some f =>
    obtain ⟨r, hcopy, -, hupdate⟩ := hcleared.exists_replaced hL hlast
    exact warranted_drop hu h f.location .immediate (hlive ▸ (hcopy.added page offset _).1)
      (hlive ▸ hsingle.update hupdate)

/-- **What follows the lookup of a write erases pages that are spent.** -/
theorem warranted_renew (hu : p.Usable) (h : t.Mirrors p img) {L : Holdings} {old : Option Found}
    {payload : Bytes} (hsingle : L.Single) (hcleared : Cleared L key old (p.live img))
    (hargs : isValidKey key = true ∧ payload ≠ [] ∧ payload.length ≤ p.maxPayload) :
    Warranted p p.Spent (renew p key payload old) t img := by
  obtain ⟨hkey, hne, hlength⟩ := hargs
  have hmax : payload.length ≤ maxPayloadLength := Nat.le_trans hlength (Nat.min_le_right _ _)
  have hunasked := p.secure_of_unasked .reliable
  unfold renew
  split
  · exact (sparing_pure ()).warranted
  · have hneeded := Partition.headerSize_add_le hne hlength
    refine (ensures_selectPage hu h hneeded).warranted_bind (hunasked img)
      (warranted_selectPage hu h (hsingle.update hcleared.update) payload.length) ?_
    rintro page t₁ img₁ ⟨hmirrors, hlive, ⟨entry, hentry, hactive, hroom⟩, -⟩
    rw [← hlive] at hcleared
    refine (ensures_appendRecord hu hmirrors hkey hne hmax hentry hactive hroom (fun _ => trivial)
      fun _ _ _ => trivial).warranted_bind (hunasked img₁) (sparing_append p page key payload).warranted
      ?_
    rintro _ _ img₂ ⟨entry', rfl, -, -, hmirrors', hlive'⟩
    exact (warranted_dropOld hu hmirrors' hsingle hcleared (Holdings.distinct_live p img₁)
      (offset_lt_used hmirrors hentry) hlive').bind fun _ => sparing_closeIfFull p page

/-- **A write erases pages that are spent.** -/
theorem warranted_writeItem (hu : p.Usable) (h : t.Mirrors p img) (hsingle : (p.live img).Single)
    (key : UInt16) (payload : Bytes) : Warranted p p.Spent (writeItem p key payload) t img := by
  by_cases hargs : isValidKey key = true ∧ payload ≠ [] ∧ payload.length ≤ p.maxPayload
  · rw [writeItem_eq hargs]
    refine (ensures_find hu h key fun _ _ _ => trivial).warranted_bind (p.secure_of_unasked .reliable img)
      (sparing_find p key).warranted ?_
    rintro old t' img' ⟨hsettled, hsighted, -⟩
    exact warranted_renew hu hsettled.mirrors hsingle (hsettled.cleared hsighted) hargs
  · rw [show writeItem p key payload = throw .invalidArgument from if_neg hargs]
    exact (sparing_throw _).warranted

/-! ## Deleting -/

theorem warranted_readHeader_bind {σ : Type} {due : Nat → Image → Prop} (hu : p.Usable)
    (hpage : page < p.pageCount) {offset : Nat} {record : Record} {rest : Bytes}
    (hbytes : (img.content page).drop offset = record.toBytes ++ rest) {f : Header → EngineM σ}
    (hf : Warranted p due (f record.header) t img) :
    Warranted p due (readHeader p ⟨page, offset⟩ >>= f) t img := by
  have hheader : Ensures p .reliable p.Unasked (readHeader p ⟨page, offset⟩) t img
      (fun header t' img' => header = record.header ∧ t' = t ∧ img' = img) noError :=
    ensures_readHeader hu hpage hbytes
  refine hheader.warranted_bind (p.secure_of_unasked _ img) (sparing_readHeader p _).warranted ?_
  rintro _ _ _ ⟨rfl, rfl, rfl⟩
  exact hf

/-- **A walk along all pages** is warranted if its visits are, and with what its visits ensure. -/
theorem warranted_walkLive {σ : Type} {due : Nat → Image → Prop} (hu : p.Usable)
    {visit : σ → Location → Header → EngineM (ForInStep σ)}
    (outer : σ → List Nat → Table → Image → Prop)
    (inner : Nat → List Nat → σ → List (Nat × Record) → Table → Image → Prop)
    (hmirrors : ∀ s pages t img, outer s pages t img → t.Mirrors p img)
    (hskip : ∀ s location header, header.carriesValue = false →
      visit s location header = pure (.yield s))
    (hstart : ∀ s page rest t img, outer s (page :: rest) t img →
      inner page rest s (p.live img page) t img)
    (hvisit : ∀ page rest s offset record entries t img,
      inner page rest s ((offset, record) :: entries) t img →
        Ensures p .reliable p.Unasked (visit s ⟨page, offset⟩ record.header) t img
          (Visited page (inner page rest) (offset + record.size) entries img) noError)
    (hwarranted : ∀ page rest s offset record entries t img,
      inner page rest s ((offset, record) :: entries) t img →
        Warranted p due (visit s ⟨page, offset⟩ record.header) t img)
    (hstop : ∀ s page rest t img, inner page rest s [] t img → outer s rest t img) {s : σ}
    (h : outer s t.searchOrder t img) : Warranted p due (walkAll p visit s) t img := by
  have hunasked := p.secure_of_unasked .reliable
  have hpages : ∀ page ∈ t.searchOrder, page < p.pageCount := fun page hpage =>
    (hmirrors _ _ _ _ h).count_eq ▸ lt_of_mem_ringBackFrom hpage
  unfold walkAll
  refine warranted_get_bind ?_
  refine walkPages_steps (J := fun x t img => Warranted p due x t img) outer inner
    (fun _ _ _ _ houter => (hmirrors _ _ _ _ houter).charts) (fun _ => warranted_pageAt_bind)
    (fun _ hpage hbytes hf => warranted_readHeader_bind hu hpage hbytes hf) hskip
    (fun s page rest t img houter => ?_)
    (fun page rest s offset record entries t img f hinner hf =>
      (hvisit page rest s offset record entries t img hinner).warranted_bind (hunasked img)
        (hwarranted page rest s offset record entries t img hinner) hf) hstop
    (fun _ _ _ _ => (sparing_pure _).warranted) hpages h
  rw [(hmirrors _ _ _ _ houter).carried_eq]
  exact hstart _ _ _ _ _ houter

/-- One step of a removal. -/
theorem warranted_remove (hu : p.Usable) {L : Holdings} (hsingle : L.Single) {first : Table}
    {total : Nat} {rest : List Nat} {removed : Nat} {entries : List (Nat × Record)} {offset : Nat}
    {record : Record}
    (h : Removing p L key first total page rest removed ((offset, record) :: entries) t img) :
    Warranted p p.Spent (remove p key removed ⟨page, offset⟩ record.header) t img := by
  have hleft : ((p.live img).without ⟨page, offset⟩).Single := hsingle.mono fun other e he =>
    ((h.purged other e).mp (Holdings.mem_without.mp he).1).1
  unfold remove
  split
  · refine (warranted_drop hu h.mirrors ⟨page, offset⟩ .immediate (h.live (List.mem_cons_self ..))
      hleft).bind fun _ => (sparing_pageAt page).bind fun entry => ?_
    split
    · exact sparing_pure _
    · exact sparing_pure _
  · exact (sparing_pure _).warranted

/-- **A removal erases pages that are spent.** -/
theorem warranted_deleteItem (hu : p.Usable) (h : t.Mirrors p img) (hsingle : (p.live img).Single)
    (key : UInt16) : Warranted p p.Spent (deleteItem p key) t img := by
  unfold deleteItem
  split
  · exact warranted_walkLive hu
      (fun removed pages => Clearing p (p.live img) key t ((p.live img).copies key t.searchOrder) pages
        removed)
      (fun page rest =>
        Removing p (p.live img) key t ((p.live img).copies key t.searchOrder) page rest)
      (fun _ _ _ _ houter => houter.mirrors) remove_of_void (fun _ _ _ _ _ houter => houter.enter)
      (fun _ _ _ _ _ _ _ _ hremoving => ensures_remove hu (Holdings.distinct_live p img)
        (fun _ _ _ => trivial) hremoving)
      (fun _ _ _ _ _ _ _ _ hremoving => warranted_remove hu hsingle hremoving)
      (fun _ _ _ _ _ => .leave) (.start h key)
  · exact (sparing_throw _).warranted

/-! ## Operations -/

/-- **Whenever an operation asks for an erase, the page is spent.** -/
theorem warranted_program (hu : p.Usable) (h : t.Mirrors p img) (hsingle : (p.live img).Single)
    {operation : Operation} {x : Partition → EngineM Answer} (hx : operation.program? = some x) :
    Warranted p p.Spent (x p) t img := by
  cases operation <;> cases hx
  case readItem key buffer => exact ((sparing_readItem p key buffer).map _).warranted
  case writeItem key payload => exact (warranted_writeItem hu h hsingle key payload).map _
  case deleteItem key => exact (warranted_deleteItem hu h hsingle key).map _
  case sweep => exact (warranted_sweep hu h hsingle).map _
  case itemLength key => exact ((sparing_lengthOf p key).map _).warranted
  case fetch route key type => exact ((sparing_fetch p key).map _).warranted
  case put route key value => exact (warranted_writeItem hu h hsingle key _).map _
  case firmware => exact ((sparing_fetch p _).map _).warranted
  case setFirmware info => exact (warranted_writeItem hu h hsingle _ _).map _
  case usage => exact (sparing_get.map _).warranted

end Engine

end RingStore
