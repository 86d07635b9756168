import RingStore.Proofs.Engine.Abide
import RingStore.Proofs.Faithful

/-!
# Operations on tables in range

The operations of the engine keep a table in range, also one that is out of step with the flash.  A
walk along the records of a page takes lengths and keys from the flash as they come; it stays below the
limit that the table sets, and whatever a length byte says, the next read is checked against the content
of the page.

## Main statements

* `Engine.abides_reclaim`, `Engine.abides_drop`, `Engine.abides_sweep`: giving pages back.
* `Engine.abides_walkAll`: a visitor that keeps the table standing may be walked along all pages.
* `Engine.abides_find`, `Engine.abides_writeItem`, `Engine.abides_deleteItem`: the operations.
-/

namespace RingStore

namespace Table

variable {p : Partition} {lawful : Prop} {count page : Nat} {t : Table} {cells after : Cells}
  {entry : Page}

/-- A read leaves a lawful chip as it is. -/
theorem Stands.of_read (h : t.Stands p lawful count cells) (hafter : lawful → after = cells) :
    t.Stands p lawful count after :=
  ⟨h.coherent, fun hlawful => hafter hlawful ▸ h.stamped hlawful, h.count_eq⟩

/-- A tombstone changes no status byte, and a page without the record still fits. -/
theorem Stands.dropped {offset : Nat} {bytes : Bytes} (h : t.Stands p lawful count cells)
    (hentry : t.pages[page]? = some entry) (hfits : offset + bytes.length ≤ p.contentSize)
    (hafter : lawful → after = cells.program (p.contentAddress page offset) bytes) :
    (t.set page { entry with live := entry.live - 1 }).Stands p lawful count after := by
  refine ⟨h.coherent.set (h.coherent.proper hentry).dropped, fun hlawful => ?_,
    count_set.trans h.count_eq⟩
  rw [hafter hlawful]
  exact ((h.stamped hlawful).program_content hfits).set_of_status_eq hentry rfl

end Table

namespace Engine

open EngineM

variable {p : Partition} {lawful : Prop} {count page : Nat} {t : Table} {cells : Cells}

/-! ## Giving pages back -/

theorem kindsBut_of_kind_eq {entry entry' : Page} {next : Nat} (hentry : t.pages[next]? = some entry)
    (hkind : entry'.kind = entry.kind) (page : Nat) : KindsBut t (t.set next entry') page := by
  intro other _
  by_cases heq : other = next
  · subst heq
    rw [Table.kind?_eq (Table.getElem?_set_self (Table.lt_count hentry)), Table.kind?_eq hentry, hkind]
  · exact Table.kind?_set_of_ne heq

theorem abides_reclaim (hw : p.Workable lawful) (h : t.Stands p lawful count cells)
    (hpage : page < count) :
    Abides p lawful (reclaim p page) t cells fun _ t' after =>
      t'.Stands p lawful count after ∧ KindsBut t t' page := by
  have hpage' : page < t.count := h.count_eq ▸ hpage
  unfold reclaim
  refine abides_pageAt_bind hpage' fun entry hentry => ?_
  split
  · refine abides_get_bind ?_
    split
    · -- The marker goes to the next used page, which keeps its stage.
      next next hnext =>
      obtain ⟨-, successor, hsuccessor, -⟩ := Table.exists_of_successor? hpage' hnext
      have hbut : KindsBut t (t.set next { successor with status := successor.status.withMarker })
          page := by
        refine kindsBut_of_kind_eq hsuccessor ?_ page
        rfl
      refine abides_entry_bind hsuccessor ?_
      refine (abides_setStatus hw h hsuccessor successor.status.withMarker id fun _ =>
        successor.status.toByte_and_withMarker).bind ?_
      rintro _ _ after ⟨h₁, rfl⟩
      refine abides_modify_bind ?_
      refine (abides_erasePage hw (h₁.withRingStart (h.lt_count hsuccessor)) hpage).mono ?_
      rintro _ _ _ ⟨h₂, rfl⟩
      exact ⟨h₂, hbut.trans (kindsBut_set _ page _)⟩
    · -- No other page is used, so the page is marked again once it is erased.
      refine (abides_erasePage hw h hpage).bind ?_
      rintro _ _ after ⟨h₁, rfl⟩
      refine (abides_setStatus hw h₁ (Table.getElem?_set_self hpage') PageStatus.blank.withMarker
        (fun _ => rfl) fun _ => rfl).mono ?_
      rintro _ _ _ ⟨h₂, rfl⟩
      exact ⟨h₂, (kindsBut_set t page _).trans (kindsBut_set _ page _)⟩
  · refine (abides_erasePage hw h hpage).mono ?_
    rintro _ _ _ ⟨h₁, rfl⟩
    exact ⟨h₁, kindsBut_set t page _⟩

theorem abides_drop (hw : p.Workable lawful) (h : t.Stands p lawful count cells)
    {location : Location} (hpage : location.page < count) (policy : ReclaimPolicy) :
    Abides p lawful (drop p location policy) t cells fun _ t' after =>
      t'.Stands p lawful count after := by
  unfold drop
  refine abides_pageAt_bind (h.count_eq ▸ hpage) fun entry hentry => ?_
  refine (abides_perform h.coherent
    (Partition.abides_writeTombstone hw (h.lt_pageCount hpage))).bind ?_
  rintro _ t after ⟨rfl, hfits, hafter⟩
  have hdropped := h.dropped hentry hfits hafter
  refine abides_modify_bind ?_
  split
  · split
    · exact (abides_reclaim hw hdropped hpage).mono fun _ _ _ hpost => hpost.1
    · next hfull =>
      exact (abides_setStatus hw hdropped (Table.getElem?_set_self (Table.lt_count hentry))
        (entry.status.withKind .unavailable) nofun fun _ =>
          entry.status.toByte_and_withKind (congrArg PageKind.next hfull)).mono
            fun _ _ _ hpost => hpost.1
    · exact abides_pure hdropped
  · exact abides_pure hdropped

theorem abides_sweepPage (hw : p.Workable lawful) (h : t.Stands p lawful count cells)
    (hpage : page < count) (reclaimed : Nat) :
    Abides p lawful (sweepPage p reclaimed page) t cells fun _ t' after =>
      t'.Stands p lawful count after := by
  unfold sweepPage
  refine abides_pageAt_bind (h.count_eq ▸ hpage) fun entry hentry => ?_
  split
  · refine (abides_reclaim hw h hpage).bind ?_
    rintro _ t' after ⟨h', -⟩
    exact abides_pure h'
  · exact abides_pure h

theorem abides_sweep (hw : p.Workable lawful) (h : t.Stands p lawful count cells) :
    Abides p lawful (sweep p) t cells fun _ t' after => t'.Stands p lawful count after := by
  unfold sweep
  refine abides_get_bind ?_
  refine abides_foldlM (fun _ t' after => t'.Stands p lawful count after) ?_ h
  intro page hpage reclaimed t' after h'
  exact abides_sweepPage hw h' (h.count_eq ▸ List.mem_range.mp hpage) reclaimed

/-! ## Walks -/

variable {σ : Type}

theorem abides_readHeader (hw : p.Workable lawful) (h : t.Stands p lawful count cells)
    {location : Location} (hpage : location.page < count) :
    Abides p lawful (readHeader p location) t cells fun _ t' after =>
      t'.Stands p lawful count after := by
  unfold readHeader
  refine (abides_perform h.coherent
    (Partition.abides_readContent hw (h.lt_pageCount hpage) headerSize)).bind ?_
  rintro bytes t' after ⟨rfl, hlength, hafter⟩
  -- So many bytes are a header.
  match bytes, hlength with
  | [length, crc, keyLow, keyHigh], _ => exact abides_pure (h.of_read hafter)

/-- A visitor keeps the table standing, and its own state. -/
def Visits (p : Partition) (lawful : Prop) (count : Nat) (keeps : σ → Prop)
    (visit : σ → Location → Header → EngineM (ForInStep σ)) : Prop :=
  ∀ (s : σ) (location : Location) (header : Header) (t : Table) (cells : Cells), keeps s →
    location.page < count → t.Stands p lawful count cells →
      Abides p lawful (visit s location header) t cells fun step t' after =>
        t'.Stands p lawful count after ∧ keeps step.value

variable {keeps : σ → Prop} {visit : σ → Location → Header → EngineM (ForInStep σ)}

/-- **A walk along a page** ends whatever lengths it reads. -/
theorem abides_walk (hw : p.Workable lawful) (hvisit : Visits p lawful count keeps visit)
    (hpage : page < count) (limit : Nat) {offset : Nat} {s : σ}
    (h : t.Stands p lawful count cells) (hs : keeps s) :
    Abides p lawful (walk p page limit visit offset s) t cells fun s' t' after =>
      t'.Stands p lawful count after ∧ keeps s' := by
  -- The induction is on the bytes ahead; every record takes some of them.
  induction hn : limit - offset using Nat.strongRecOn generalizing offset s t cells with
  | ind n ih =>
    rw [walk]
    split
    · next hlimit =>
      refine (abides_readHeader hw h hpage).bind fun header t₁ after₁ h₁ => ?_
      split
      · exact abides_pure ⟨h₁, hs⟩
      · refine (hvisit s ⟨page, offset⟩ header t₁ after₁ hs hpage h₁).bind ?_
        rintro (s' | s') t₂ after₂ ⟨h₂, hs'⟩
        · exact abides_pure ⟨h₂, hs'⟩
        · have hsize := header.recordSize_pos
          have hheader : 0 < headerSize := by decide
          exact ih (limit - (offset + header.recordSize)) (by omega) h₂ hs' rfl
    · exact abides_pure ⟨h, hs⟩

/-- **A walk along all pages** keeps what the visitor keeps. -/
theorem abides_walkAll (hw : p.Workable lawful) (hvisit : Visits p lawful count keeps visit)
    (h : t.Stands p lawful count cells) {s : σ} (hs : keeps s) :
    Abides p lawful (walkAll p visit s) t cells fun s' t' after =>
      t'.Stands p lawful count after ∧ keeps s' := by
  unfold walkAll
  refine abides_get_bind ?_
  refine abides_foldlM (fun s' t' after => t'.Stands p lawful count after ∧ keeps s') ?_ ⟨h, hs⟩
  rintro page hpage s' t' after ⟨h', hs'⟩
  have hlt : page < count := h.count_eq ▸ lt_of_mem_ringBackFrom hpage
  unfold walkPage
  refine abides_pageAt_bind (h'.count_eq ▸ hlt) fun entry hentry => ?_
  split
  · exact abides_walk hw hvisit hlt entry.used h' hs'
  · exact abides_pure ⟨h', hs'⟩

/-! ## Lookups -/

/-- The best copy so far lies on a page of the table. -/
def Located (count : Nat) (best : Option Found) : Prop :=
  ∀ found, best = some found → found.location.page < count

theorem visits_examine (hw : p.Workable lawful) (key : UInt16) :
    Visits p lawful count (Located count) (examine p key) := by
  intro best location header t cells hbest hpage h
  unfold examine
  split
  · refine (abides_perform h.coherent
      (Partition.abides_readContent hw (h.lt_pageCount hpage) header.length.toNat)).bind ?_
    rintro payload t after ⟨rfl, -, hafter⟩
    have h₁ := h.of_read hafter
    have hnew : Located count (some ⟨location, payload⟩) := by
      intro found hfound
      rw [← Option.some.inj hfound]
      exact hpage
    split
    · split
      · exact abides_pure ⟨h₁, hnew⟩
      · next current =>
        split
        · refine (abides_drop hw h₁ (hbest current rfl) .deferred).bind fun _ _ _ h₂ => ?_
          exact abides_pure ⟨h₂, hnew⟩
        · refine (abides_drop hw h₁ hpage .deferred).bind fun _ _ _ h₂ => ?_
          exact abides_pure ⟨h₂, hbest⟩
    · refine (abides_drop hw h₁ hpage .deferred).bind fun _ _ _ h₂ => ?_
      exact abides_pure ⟨h₂, hbest⟩
  · exact abides_pure ⟨h, hbest⟩

theorem abides_find (hw : p.Workable lawful) (h : t.Stands p lawful count cells) (key : UInt16) :
    Abides p lawful (find p key) t cells fun best t' after =>
      t'.Stands p lawful count after ∧ Located count best :=
  abides_walkAll hw (visits_examine hw key) h nofun

theorem abides_payloadOf (hw : p.Workable lawful) (h : t.Stands p lawful count cells)
    (key : UInt16) :
    Abides p lawful (payloadOf p key) t cells fun _ t' after => t'.Stands p lawful count after := by
  unfold payloadOf
  split
  · exact (abides_find hw h key).bind fun _ _ _ hfind => abides_pure hfind.1
  · exact abides_throw nofun h.coherent

theorem abides_readItem (hw : p.Workable lawful) (h : t.Stands p lawful count cells)
    (key : UInt16) (buffer : Bytes) :
    Abides p lawful (readItem p key buffer) t cells fun _ t' after =>
      t'.Stands p lawful count after := by
  unfold readItem
  split
  · refine (abides_find hw h key).bind ?_
    rintro (_ | found) t' after ⟨h', -⟩
    · exact abides_pure h'
    · exact abides_pure h'
  · exact abides_throw nofun h.coherent

/-! ## Updates -/

theorem lt_of_nextErased? {target : Nat} (h : t.nextErased? = some target) :
    target < t.count ∧ t.isKind .erased target = true :=
  ⟨lt_of_mem_ringFrom (List.mem_of_find?_eq_some h), List.find?_some h⟩

/-- Active pages stay active while an erased page is claimed. -/
theorem abides_claimErased (hw : p.Workable lawful) (h : t.Stands p lawful count cells) :
    Abides p lawful (claimErased p) t cells fun target t' after =>
      t'.Stands p lawful count after ∧ target < count ∧ t'.isKind .erased target = true ∧
        ∀ page, t.isKind .active page = true → t'.isKind .active page = true := by
  unfold claimErased
  refine abides_get_bind ?_
  split
  · next target htarget =>
    obtain ⟨hlt, herased⟩ := lt_of_nextErased? htarget
    exact abides_pure ⟨h, h.count_eq ▸ hlt, herased, fun _ hactive => hactive⟩
  · refine abides_get_bind ?_
    split
    · exact abides_throw nofun h.coherent
    · next pending hpending =>
      have hpage : pending < count :=
        h.count_eq ▸ List.mem_range.mp (List.mem_of_find?_eq_some hpending)
      refine (abides_reclaim hw h hpage).bind ?_
      rintro _ t₁ after ⟨h₁, hbut⟩
      have hactive : ∀ page, t.isKind .active page = true → t₁.isKind .active page = true := by
        intro page hkind
        by_cases heq : page = pending
        · -- The page that was erased waited for that.
          obtain ⟨entry, hentry, hk⟩ := Table.isKind_iff.mp (List.find?_some hpending)
          rw [heq, Table.isKind_eq hentry, hk] at hkind
          cases hkind
        · rw [hbut.isKind heq]
          exact hkind
      refine abides_get_bind ?_
      split
      · next target htarget =>
        obtain ⟨hlt, herased⟩ := lt_of_nextErased? htarget
        exact abides_pure ⟨h₁, h₁.count_eq ▸ hlt, herased, hactive⟩
      · exact abides_throw nofun h₁.coherent

theorem abides_openNext (hw : p.Workable lawful) (h : t.Stands p lawful count cells)
    (active : Option Nat) (hactive : ∀ page, active = some page → t.isKind .active page = true) :
    Abides p lawful (openNext p active) t cells fun target t' after =>
      t'.Stands p lawful count after ∧ t'.isKind .active target = true := by
  unfold openNext
  refine (abides_claimErased hw h).bind ?_
  rintro target t₁ after₁ ⟨h₁, hlt, herased, hkeeps⟩
  have hclose : Abides p lawful (active.forM (close p)) t₁ after₁ fun _ t' after =>
      t'.Stands p lawful count after ∧ t'.isKind .erased target = true := by
    cases active with
    | none => exact abides_pure ⟨h₁, herased⟩
    | some page =>
      obtain ⟨entry, hentry, hkind⟩ := Table.isKind_iff.mp (hkeeps page (hactive page rfl))
      refine (abides_close hw h₁ hentry fun _ => by rw [hkind]; nofun).mono ?_
      rintro _ t₂ after₂ ⟨h₂, hbut⟩
      have hne : target ≠ page := by
        rintro rfl
        rw [Table.isKind_eq hentry, hkind] at herased
        cases herased
      exact ⟨h₂, by rw [hbut.isKind hne]; exact herased⟩
  refine hclose.bind ?_
  rintro _ t₂ after₂ ⟨h₂, herased₂⟩
  obtain ⟨entry, hentry, hkind⟩ := Table.isKind_iff.mp herased₂
  refine abides_entry_bind hentry ?_
  refine (abides_setStatus hw h₂ hentry (entry.status.withKind .active) nofun fun _ =>
    entry.status.toByte_and_withKind (congrArg PageKind.next hkind)).bind ?_
  rintro _ _ after₃ ⟨h₃, rfl⟩
  refine abides_modify_bind (abides_pure ⟨h₃.withHead hlt, ?_⟩)
  exact Table.isKind_iff.mpr ⟨_, Table.getElem?_set_self (Table.lt_count hentry), rfl⟩

theorem abides_selectPage (hw : p.Workable lawful) (h : t.Stands p lawful count cells)
    (length : Nat) :
    Abides p lawful (selectPage p length) t cells fun page t' after =>
      t'.Stands p lawful count after ∧ t'.isKind .active page = true := by
  have hactive : ∀ page, t.active? = some page → t.isKind .active page = true :=
    fun page hpage => (Table.eq_of_active?_eq_some hpage).2
  have hlt : ∀ page, t.active? = some page → page < count := fun page hpage => by
    obtain ⟨entry, hentry, -⟩ := Table.isKind_iff.mp (hactive page hpage)
    exact h.count_eq ▸ Table.lt_count hentry
  have hroom : Abides p lawful (activeWithRoom p t.active? (headerSize + length)) t cells
      fun found t' after => t' = t ∧ after = cells ∧
        ∀ page, found = some page → t.isKind .active page = true := by
    unfold activeWithRoom
    split
    · next page hpage =>
      refine (abides_freeBytes h (hlt page hpage)).bind ?_
      rintro free _ _ ⟨rfl, rfl⟩
      refine abides_pure ⟨rfl, rfl, fun found hfound => ?_⟩
      split at hfound
      · exact Option.some.inj hfound ▸ hactive page hpage
      · cases hfound
    · exact abides_pure ⟨rfl, rfl, nofun⟩
  unfold selectPage
  refine abides_get_bind (hroom.bind ?_)
  rintro (_ | page) _ _ ⟨rfl, rfl, hfound⟩
  · exact abides_openNext hw h _ hactive
  · exact abides_pure ⟨h, hfound page rfl⟩

theorem abides_closeIfFull (hw : p.Workable lawful) (h : t.Stands p lawful count cells)
    (hpage : page < count) :
    Abides p lawful (closeIfFull p page) t cells fun _ t' after =>
      t'.Stands p lawful count after := by
  unfold closeIfFull
  refine abides_pageAt_bind (h.count_eq ▸ hpage) fun entry hentry => ?_
  split
  · next hactive =>
    refine (abides_freeBytes h hpage).bind ?_
    rintro free t after ⟨rfl, rfl⟩
    split
    · exact (abides_close hw h hentry fun _ => by rw [hactive]; nofun).mono
        fun _ _ _ hpost => hpost.1
    · exact abides_pure h
  · exact abides_pure h

/-- A table that mirrors the flash of a lawful chip. -/
def Reliable (p : Partition) (lawful : Prop) (t : Table) (cells : Cells) : Prop :=
  lawful → p.base + p.size ≤ cells.size ∧ t.Mirrors p (p.image cells)

/-- Such a table has the status bytes of the flash. -/
theorem stamped_of_reliable (h : Reliable p lawful t cells) (hlawful : lawful) : t.Stamped p cells :=
  fun page entry hentry =>
    (((h hlawful).2.faithful (h hlawful).1).entries page entry hentry).status_eq

/-- Behind the records of an active page the cells are blank, so they take another record. -/
theorem takes_of_faithful {entry : Page} {bytes : Bytes} (h : t.Faithful p cells)
    (hentry : t.pages[page]? = some entry) (hactive : entry.kind = .active)
    (hroom : entry.used + bytes.length ≤ p.contentSize) :
    cells.Takes (p.contentAddress page entry.used) bytes := by
  refine Cells.takes_of_blank fun i hi old hold => ?_
  have hblank := (h.entries page entry hentry).blank_behind hactive (entry.used + i)
    (Nat.le_add_right _ _) (by omega)
  have haddress : p.contentAddress page entry.used + i = p.contentAddress page (entry.used + i) :=
    Nat.add_assoc _ _ _
  rw [← haddress, hold] at hblank
  exact Option.some.inj hblank

/-- **A write** appends behind the records of a page and needs no bit to be set there. -/
theorem abides_writeItem (hw : p.Workable lawful) (h : t.Stands p lawful count cells)
    (hmirrors : Reliable p lawful t cells) (key : UInt16) (payload : Bytes) :
    Abides p lawful (writeItem p key payload) t cells fun _ t' after =>
      t'.Stands p lawful count after := by
  unfold writeItem
  split
  · next hargs =>
    obtain ⟨hkey, hne, hlength⟩ := hargs
    have hroom := Partition.headerSize_add_le hne hlength
    refine ((abides_find hw h key).and_ensures fun hlawful =>
      ⟨(hmirrors hlawful).1, (hmirrors hlawful).2.secure .tearing False,
        ensures_find (hw.usable hlawful) (hmirrors hlawful).2 key fun _ _ _ => trivial⟩).bind ?_
    rintro old t₁ after₁ ⟨⟨h₁, hlocated⟩, hfind⟩
    split
    · exact abides_pure h₁
    · have hsettled := fun hlawful => (hfind hlawful).2.1.mirrors
      refine ((abides_selectPage hw h₁ payload.length).and_ensures fun hlawful =>
        ⟨(hfind hlawful).1, (hsettled hlawful).secure .tearing False,
          ensures_selectPage (hw.usable hlawful) (hsettled hlawful) hroom⟩).bind ?_
      rintro page t₂ after₂ ⟨⟨h₂, hpage⟩, hselect⟩
      obtain ⟨entry, hentry, hkind⟩ := Table.isKind_iff.mp hpage
      refine (abides_append hw h₂ hentry (by rw [hkind]; nofun) hkey hne hlength ?_).bind
        fun _ t₃ after₃ h₃ => ?_
      · intro hlawful
        obtain ⟨hfits, hselected⟩ := hselect hlawful
        obtain ⟨active, hactive, hkind, hused⟩ := hselected.room
        obtain rfl := Option.some.inj (hentry.symm.trans hactive)
        refine takes_of_faithful (hselected.mirrors.faithful hfits) hentry hkind ?_
        rwa [Partition.length_record]
      · have hdrop : Abides p lawful (old.forM fun item => drop p item.location .immediate) t₃
            after₃ fun _ t' after => t'.Stands p lawful count after := by
          cases old with
          | none => exact abides_pure h₃
          | some found => exact abides_drop hw h₃ (hlocated found rfl) .immediate
        exact hdrop.bind fun _ _ _ h₄ => abides_closeIfFull hw h₄ (h₂.lt_count hentry)
  · exact abides_throw nofun h.coherent

theorem visits_remove (hw : p.Workable lawful) (key : UInt16) :
    Visits p lawful count (fun _ => True) (remove p key) := by
  intro removed location header t cells _ hpage h
  unfold remove
  split
  · refine (abides_drop hw h hpage .immediate).bind fun _ t₁ after h₁ => ?_
    refine abides_pageAt_bind (h₁.count_eq ▸ hpage) fun entry hentry => ?_
    split
    · exact abides_pure ⟨h₁, trivial⟩
    · exact abides_pure ⟨h₁, trivial⟩
  · exact abides_pure ⟨h, trivial⟩

theorem abides_deleteItem (hw : p.Workable lawful) (h : t.Stands p lawful count cells)
    (key : UInt16) :
    Abides p lawful (deleteItem p key) t cells fun _ t' after => t'.Stands p lawful count after := by
  unfold deleteItem
  split
  · exact (abides_walkAll hw (visits_remove hw key) h trivial).mono fun _ _ _ hpost => hpost.1
  · exact abides_throw nofun h.coherent

end Engine

end RingStore
