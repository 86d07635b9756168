import RingStore.Proofs.Engine.AbideUpdate

/-!
# Programs on a flash that holds anything

The flash may be changed behind the store's back.  Then its status bytes and records need not be those
of the table any more, and only the table itself is known to be coherent.  `EngineM.Copes` is the
statement that a program ends in a postcondition on such a flash, whatever the bytes are, or with one of
the errors that a second postcondition allows.

What an operation changes of the flash is known as far as a lookup needs it: a page is left alone, or
its bytes from an offset on are.

## Main statements

* `Engine.copes_setStatus`, `Engine.copes_append`, `Engine.copes_close`: changes of a single page.
* `Engine.copes_reclaim`, `Engine.copes_drop`: giving pages back.
-/

namespace RingStore

/-- A coherent table of so many pages. -/
structure Table.Shaped (p : Partition) (count : Nat) (t : Table) : Prop where
  coherent : t.Coherent p
  count_eq : t.count = count

namespace Table.Shaped

variable {p : Partition} {count page : Nat} {t : Table} {entry : Page}

theorem lt_pageCount (h : t.Shaped p count) (hpage : page < count) : page < p.pageCount :=
  Nat.lt_of_lt_of_le (h.count_eq ▸ hpage) h.coherent.count_le

theorem lt_count (h : t.Shaped p count) (hentry : t.pages[page]? = some entry) : page < count :=
  h.count_eq ▸ Table.lt_count hentry

theorem exists_entry (h : t.Shaped p count) (hpage : page < count) :
    ∃ entry, t.pages[page]? = some entry ∧ entry.Proper p := by
  obtain ⟨entry, hentry⟩ := Table.exists_entry (h.count_eq ▸ hpage)
  exact ⟨entry, hentry, h.coherent.proper hentry⟩

theorem set (h : t.Shaped p count) (hproper : entry.Proper p) : (t.set page entry).Shaped p count :=
  ⟨h.coherent.set hproper, Table.count_set.trans h.count_eq⟩

theorem withHead (h : t.Shaped p count) (hpage : page < count) :
    Shaped p count { t with head := page } :=
  ⟨h.coherent.withHead (h.lt_pageCount hpage), h.count_eq⟩

theorem withRingStart (h : t.Shaped p count) (hpage : page < count) :
    Shaped p count { t with ringStart := page } :=
  ⟨h.coherent.withRingStart (h.lt_pageCount hpage), h.count_eq⟩

end Table.Shaped

/-! ## What stays as it is -/

/-- Nothing has changed on other pages, nor in the content of the page from an offset on. -/
structure Untouched (page offset : Nat) (t : Table) (img : Image) (t' : Table) (img' : Image) :
    Prop where
  entry_eq : ∀ other, other ≠ page → t'.pages[other]? = t.pages[other]?
  content_eq : ∀ other, other ≠ page → img'.content other = img.content other
  drop_eq : (img'.content page).drop offset = (img.content page).drop offset

namespace Untouched

variable {page offset offset' : Nat} {t t₁ t₂ : Table} {img img₁ img₂ : Image}

theorem refl (page offset : Nat) (t : Table) (img : Image) : Untouched page offset t img t img :=
  ⟨fun _ _ => rfl, fun _ _ => rfl, rfl⟩

theorem trans (h : Untouched page offset t img t₁ img₁) (h' : Untouched page offset t₁ img₁ t₂ img₂) :
    Untouched page offset t img t₂ img₂ :=
  ⟨fun other hne => (h'.entry_eq other hne).trans (h.entry_eq other hne),
    fun other hne => (h'.content_eq other hne).trans (h.content_eq other hne),
    h'.drop_eq.trans h.drop_eq⟩

theorem mono (h : Untouched page offset t img t₁ img₁) (hle : offset ≤ offset') :
    Untouched page offset' t img t₁ img₁ := by
  refine ⟨h.entry_eq, h.content_eq, ?_⟩
  obtain ⟨further, rfl⟩ := Nat.exists_eq_add_of_le hle
  rw [← List.drop_drop, ← List.drop_drop, h.drop_eq]

/-- Another entry of the page, and another content up to the offset. -/
theorem set_programmed {start : Nat} {bytes : Bytes} (h : start + bytes.length ≤ offset) (t : Table)
    (img : Image) (entry : Page) :
    Untouched page offset t img (t.set page entry)
      (img.setContent page (programmed (img.content page) start bytes)) := by
  refine ⟨fun _ hne => Table.getElem?_set_of_ne hne,
    fun _ hne => Image.content_setContent_of_ne hne, ?_⟩
  rw [Image.content_setContent_self, drop_programmed _ _ h]

end Untouched

/-! ## Status bytes -/

namespace Partition

variable {p : Partition} {conduct : Conduct} {img : Image} {page : Nat}

/-- Writing a status changes no content. -/
theorem copes_writeStatus (hu : p.Usable) (hpage : page < p.pageCount) (status : PageStatus) :
    AccessM.Ensures p conduct (fun _ => True) (p.writeStatus page status) img fun _ img' =>
      img'.content = img.content := by
  refine ensures_ofGrant fun cells hshows _ => ?_
  have hpos := p.pageSize_pos
  refine always_writePadded hu hpage (Nat.le_refl _) ?_ hshows.end_le ⟨trivial, ?_⟩
    fun hnot _ _ _ => ⟨trivial, hnot⟩
  · rw [List.length_singleton]
    omega
  · rw [if_pos rfl, content_program_status, hshows.image_eq]

end Partition

/-! ## Programs of the engine -/

/-- On a flash that holds anything a program ends in a postcondition, with a refused access, or with an
error that a second postcondition allows. -/
abbrev EngineM.Copes {α : Type} (p : Partition) (conduct : Conduct) (x : EngineM α) (t : Table)
    (img : Image) (post : Post α) (fail : Post Error) : Prop :=
  Ensures p conduct (fun _ => True) x t img post fail

namespace Engine

open EngineM

variable {p : Partition} {conduct : Conduct} {count page : Nat} {t : Table} {img : Image}
  {entry : Page} {fail : Post Error}

/-! ## Single pages -/

theorem copes_setStatus (hu : p.Usable) (h : t.Shaped p count) (hentry : t.pages[page]? = some entry)
    (status : PageStatus) (hkind : status.kind = .erased → entry.kind = .erased) :
    Copes p conduct (setStatus p page status) t img
      (fun _ t' img' => t'.Shaped p count ∧ t' = t.set page { entry with status } ∧
        img'.content = img.content) fail := by
  have hpage := h.lt_pageCount (h.lt_count hentry)
  unfold setStatus
  refine ensures_pageAt_bind hentry ?_
  refine (ensures_perform (Partition.copes_writeStatus hu hpage status)).bind ?_
  rintro _ t' img' ⟨rfl, himg⟩
  exact ensures_modify ⟨h.set ((h.coherent.proper hentry).withStatus hkind), rfl, himg⟩

theorem copes_erasePage (hu : p.Usable) (h : t.Shaped p count) (hpage : page < count) :
    Copes p conduct (erasePage p page) t img
      (fun _ t' _ => t'.Shaped p count ∧ t' = t.set page .blank) fail := by
  obtain ⟨entry, hentry, -⟩ := h.exists_entry hpage
  unfold erasePage
  refine ensures_pageAt_bind hentry ?_
  refine (ensures_perform (Partition.ensures_erasePage hu (h.lt_pageCount hpage) trivial
    fun _ _ _ => trivial)).bind ?_
  rintro _ t' img' ⟨rfl, -⟩
  exact ensures_modify ⟨h.set (Page.proper_zero p .blank), rfl⟩

theorem copes_freeBytes (h : t.Shaped p count) (hentry : t.pages[page]? = some entry) :
    Copes p conduct (freeBytes p page) t img
      (fun free t' img' => free = p.contentSize - entry.used ∧ t' = t ∧ img' = img) fail := by
  unfold freeBytes
  refine ensures_pageAt_bind hentry ?_
  rw [if_pos (h.coherent.proper hentry).used_le]
  exact ensures_pure ⟨rfl, rfl, rfl⟩

/-- A record that fits behind the others is appended. -/
theorem copes_append (hu : p.Usable) (h : t.Shaped p count) (hentry : t.pages[page]? = some entry)
    (hkind : entry.kind ≠ .erased) (key : UInt16) {payload : Bytes}
    (hroom : entry.used + (headerSize + payload.length) ≤ p.contentSize) :
    Copes p conduct (append p page key payload) t img (fun _ t' _ => t'.Shaped p count) fail := by
  have hpage := h.lt_pageCount (h.lt_count hentry)
  have hlength := Partition.length_record p.chip.checksum key payload
  have hne : (Record.ofPayload p.chip.checksum key payload).toBytes ≠ [] := List.cons_ne_nil _ _
  unfold append
  refine ensures_pageAt_bind hentry ?_
  refine (ensures_perform (Partition.ensures_writeContent hu hpage hne (by rw [hlength]; exact hroom)
    trivial fun _ _ _ => trivial)).bind ?_
  rintro _ t img' ⟨rfl, -⟩
  have hproper := (h.coherent.proper hentry).appended hkind hroom
  have hset : (t.set page _).Shaped p count := h.set hproper
  have hcounters :=
    hset.coherent.le_maxCounter (Table.getElem?_set_self (Table.lt_count hentry))
  rw [hlength, if_pos hcounters]
  exact ensures_modify hset

theorem copes_close (hu : p.Usable) (h : t.Shaped p count) (hentry : t.pages[page]? = some entry) :
    Copes p conduct (close p page) t img (fun _ t' _ => t'.Shaped p count ∧ KindsBut t t' page)
      fail := by
  have hbut := kindsBut_set t page { entry with status := entry.status.withKind .full }
  unfold close
  refine ensures_pageAt_bind hentry ?_
  refine (copes_setStatus hu h hentry (entry.status.withKind .full) nofun).bind ?_
  rintro _ _ img₁ ⟨h₁, rfl, -⟩
  split
  · refine (copes_setStatus hu h₁ (Table.getElem?_set_self (Table.lt_count hentry))
      (entry.status.withKind .unavailable) nofun).imp ?_
    rintro _ _ _ ⟨h₂, rfl, -⟩
    exact ⟨h₂, hbut.trans (kindsBut_set _ page _)⟩
  · exact ensures_pure ⟨h₁, hbut⟩

/-! ## Giving pages back -/

theorem copes_reclaim (hu : p.Usable) (h : t.Shaped p count) (hpage : page < count) :
    Copes p conduct (reclaim p page) t img (fun _ t' _ => t'.Shaped p count ∧ KindsBut t t' page)
      fail := by
  obtain ⟨entry, hentry, -⟩ := h.exists_entry hpage
  have hpage' := Table.lt_count hentry
  unfold reclaim
  refine ensures_pageAt_bind hentry ?_
  split
  · refine ensures_get_bind ?_
    split
    · -- The marker goes to the next used page, which keeps its stage.
      next next hnext =>
      obtain ⟨-, successor, hsuccessor, -⟩ := Table.exists_of_successor? hpage' hnext
      have hbut : KindsBut t (t.set next { successor with status := successor.status.withMarker })
          page := by
        refine kindsBut_of_kind_eq hsuccessor ?_ page
        rfl
      refine ensures_pageAt_bind hsuccessor ?_
      refine (copes_setStatus hu h hsuccessor successor.status.withMarker id).bind ?_
      rintro _ _ img₁ ⟨h₁, rfl, -⟩
      refine ensures_modify_bind ?_
      refine (copes_erasePage hu (h₁.withRingStart (h.lt_count hsuccessor)) hpage).imp ?_
      rintro _ _ _ ⟨h₂, rfl⟩
      exact ⟨h₂, hbut.trans (kindsBut_set _ page _)⟩
    · -- No other page is used, so the page is marked again once it is erased.
      refine (copes_erasePage hu h hpage).bind ?_
      rintro _ _ img₁ ⟨h₁, rfl⟩
      refine (copes_setStatus hu h₁ (Table.getElem?_set_self hpage') PageStatus.blank.withMarker
        fun _ => rfl).imp ?_
      rintro _ _ _ ⟨h₂, rfl, -⟩
      exact ⟨h₂, (kindsBut_set t page _).trans (kindsBut_set _ page _)⟩
  · refine (copes_erasePage hu h hpage).imp ?_
    rintro _ _ _ ⟨h₁, rfl⟩
    exact ⟨h₁, kindsBut_set t page _⟩

/-- A record is dropped.  If its page is not to be erased, only the bytes up to its payload change. -/
theorem copes_drop (hu : p.Usable) (h : t.Shaped p count) {location : Location}
    (hpage : location.page < count) (hroom : location.offset + headerSize ≤ p.contentSize)
    (policy : ReclaimPolicy) :
    Copes p conduct (drop p location policy) t img
      (fun _ t' img' => t'.Shaped p count ∧
        (policy = .deferred →
          Untouched location.page (location.offset + headerSize) t img t' img')) fail := by
  obtain ⟨entry, hentry, hproper⟩ := h.exists_entry hpage
  unfold drop
  refine ensures_pageAt_bind hentry ?_
  refine (ensures_perform (Partition.ensures_writeTombstone hu (h.lt_pageCount hpage) hroom trivial
    fun _ _ _ => trivial)).bind ?_
  rintro _ t _ ⟨rfl, rfl⟩
  have hdropped : (t.set location.page { entry with live := entry.live - 1 }).Shaped p count :=
    h.set hproper.dropped
  have hend : location.offset + keyOffset + tombstoneBytes.length ≤ location.offset + headerSize :=
    Nat.le_refl _
  have huntouched : Untouched location.page (location.offset + headerSize) t img
      (t.set location.page { entry with live := entry.live - 1 })
      (img.setContent location.page
        (programmed (img.content location.page) (location.offset + keyOffset) tombstoneBytes)) :=
    .set_programmed hend t img _
  refine ensures_modify_bind ?_
  split
  · split
    · exact (copes_reclaim hu hdropped hpage).imp fun _ _ _ hpost => ⟨hpost.1, nofun⟩
    · refine (copes_setStatus hu hdropped (Table.getElem?_set_self (Table.lt_count hentry))
        (entry.status.withKind .unavailable) nofun).imp ?_
      rintro _ _ img' ⟨h₂, rfl, hcontent⟩
      refine ⟨h₂, fun _ => huntouched.trans ?_⟩
      refine ⟨fun _ hne => Table.getElem?_set_of_ne hne, fun _ _ => ?_, ?_⟩ <;> rw [hcontent]
    · exact ensures_pure ⟨hdropped, fun _ => huntouched⟩
  · exact ensures_pure ⟨hdropped, fun _ => huntouched⟩

end Engine

end RingStore
