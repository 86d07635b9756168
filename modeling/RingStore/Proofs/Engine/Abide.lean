import RingStore.Proofs.Engine.Logic
import RingStore.Proofs.Mirror
import RingStore.Proofs.Requests
import RingStore.Proofs.Ring

/-!
# Page tables in range

`Table.InRange` bounds all numbers of a page table: the counters of the pages, their number, and the two
positions in the ring.  `Table.Coherent` adds that an erased page has no record.  Nothing is said of what
the flash holds, so a table may be coherent that was left by a scan that has failed, or that is out of
step with the flash.  `Table.Stands` adds, for a lawful chip, that each status byte is the one in the
table.

`EngineM.Abides` states that a program asks for accesses of the known kinds only and never meets a table
that contradicts itself, whatever the chip answers.  A program that fails leaves a coherent table, and
since every access may be refused, that is a statement about the table at each access.

## Main statements

* `EngineM.abides_pageAt_bind`, `EngineM.abides_forM`, `EngineM.abides_foldlM`: the rules for programs.
* `EngineM.Abides.and_ensures`: what is known of programs on a flash may be used on a lawful chip.
* `Engine.abides_setStatus`, `Engine.abides_erasePage`, `Engine.abides_append`, `Engine.abides_close`:
  the changes of a single page.
-/

namespace RingStore

/-! ## Numbers of a table -/

/-- The records of a page lie within its content, and each live one takes its share. -/
structure Page.Fits (p : Partition) (entry : Page) : Prop where
  used_le : entry.used ≤ p.contentSize
  live_le : headerSize * entry.live ≤ entry.used

/-- The counters of a page fit, and those of an erased page are zero. -/
structure Page.Proper (p : Partition) (entry : Page) : Prop extends entry.Fits p where
  blank : entry.kind = .erased → entry.used = 0

theorem Page.proper_zero (p : Partition) (status : PageStatus) : Page.Proper p ⟨status, 0, 0⟩ :=
  ⟨⟨Nat.zero_le _, Nat.le_refl _⟩, fun _ => rfl⟩

namespace Page.Proper

variable {p : Partition} {entry : Page}

/-- A page may move to any stage but back to the first one. -/
theorem withStatus (h : entry.Proper p) {status : PageStatus}
    (hkind : status.kind = .erased → entry.kind = .erased) : Proper p { entry with status } :=
  ⟨⟨h.used_le, h.live_le⟩, fun herased => h.blank (hkind herased)⟩

/-- Dropping a record makes the counters no larger. -/
theorem dropped (h : entry.Proper p) : Proper p { entry with live := entry.live - 1 } :=
  ⟨⟨h.used_le, Nat.le_trans (Nat.mul_le_mul_left _ (Nat.sub_le _ _)) h.live_le⟩, h.blank⟩

/-- A record that fits behind the others takes its share. -/
theorem appended (h : entry.Proper p) (hkind : entry.kind ≠ .erased) {length : Nat}
    (hfits : entry.used + (headerSize + length) ≤ p.contentSize) :
    Proper p { entry with used := entry.used + (headerSize + length), live := entry.live + 1 } := by
  have hlive := h.live_le
  refine ⟨⟨hfits, ?_⟩, fun herased => absurd herased hkind⟩
  show headerSize * (entry.live + 1) ≤ entry.used + (headerSize + length)
  rw [Nat.mul_add, Nat.mul_one]
  omega

end Page.Proper

namespace Table

/-- The numbers of a table are in range. -/
structure InRange (p : Partition) (t : Table) : Prop where
  count_le : t.count ≤ p.pageCount
  head_lt : t.head < p.pageCount
  ringStart_lt : t.ringStart < p.pageCount
  fits : ∀ (page : Nat) (entry : Page), t.pages[page]? = some entry → entry.Fits p

/-- The numbers of a table are in range, and an erased page has no record. -/
structure Coherent (p : Partition) (t : Table) : Prop extends t.InRange p where
  blank : ∀ (page : Nat) (entry : Page), t.pages[page]? = some entry → entry.kind = .erased →
    entry.used = 0

/-- The status bytes in the flash are those of the table. -/
def Stamped (p : Partition) (t : Table) (cells : Cells) : Prop :=
  ∀ (page : Nat) (entry : Page), t.pages[page]? = some entry →
    cells[p.pageAddress page]? = some entry.status.toByte

/-- A table of so many pages is coherent, and on a lawful chip its status bytes are in the flash. -/
structure Stands (p : Partition) (lawful : Prop) (count : Nat) (t : Table) (cells : Cells) : Prop where
  coherent : t.Coherent p
  stamped : lawful → t.Stamped p cells
  count_eq : t.count = count

variable {p : Partition} {lawful : Prop} {count page other offset : Nat} {t : Table} {cells : Cells}
  {entry : Page} {bytes : Bytes}

/-- A table without pages is coherent. -/
theorem coherent_of_pages_eq (hpages : t.pages = #[]) (hhead : t.head < p.pageCount)
    (hring : t.ringStart < p.pageCount) : t.Coherent p := by
  have hnone : ∀ (page : Nat) (entry : Page), t.pages[page]? ≠ some entry := by simp [hpages]
  refine ⟨⟨?_, hhead, hring, fun page entry h => absurd h (hnone page entry)⟩,
    fun page entry h => absurd h (hnone page entry)⟩
  rw [count, hpages]
  exact Nat.zero_le _

theorem coherent_empty (p : Partition) : Table.empty.Coherent p :=
  coherent_of_pages_eq rfl p.pageCount_pos p.pageCount_pos

/-- A table in range fits into 16 bits. -/
theorem InRange.le_maxCounter (h : t.InRange p) (hentry : t.pages[page]? = some entry) :
    entry.used ≤ maxCounter ∧ entry.live ≤ maxCounter := by
  obtain ⟨hused, hlive⟩ := h.fits page entry hentry
  have hcontent : p.contentSize ≤ p.pageSize := Nat.sub_le _ _
  have hmax : p.pageSize ≤ maxCounter := p.pageSize_le
  have hshare : 4 * entry.live ≤ entry.used := hlive
  exact ⟨by omega, by omega⟩

theorem Coherent.proper (h : t.Coherent p) (hentry : t.pages[page]? = some entry) : entry.Proper p :=
  ⟨h.fits page entry hentry, h.blank page entry hentry⟩

theorem Coherent.set (h : t.Coherent p) (hproper : entry.Proper p) : (t.set page entry).Coherent p := by
  have hentries : ∀ (other : Nat) (e : Page), (t.set page entry).pages[other]? = some e →
      e.Proper p := by
    intro other e he
    rcases getElem?_set_eq_some he with ⟨rfl, rfl⟩ | ⟨-, he⟩
    · exact hproper
    · exact h.proper he
  exact ⟨⟨count_set.symm ▸ h.count_le, h.head_lt, h.ringStart_lt,
    fun other e he => (hentries other e he).toFits⟩, fun other e he => (hentries other e he).blank⟩

theorem Coherent.withHead (h : t.Coherent p) (hpage : page < p.pageCount) :
    Coherent p { t with head := page } :=
  ⟨⟨h.count_le, hpage, h.ringStart_lt, h.fits⟩, h.blank⟩

theorem Coherent.withRingStart (h : t.Coherent p) (hpage : page < p.pageCount) :
    Coherent p { t with ringStart := page } :=
  ⟨⟨h.count_le, h.head_lt, hpage, h.fits⟩, h.blank⟩

theorem Stands.lt_pageCount (h : t.Stands p lawful count cells) (hpage : page < count) :
    page < p.pageCount :=
  Nat.lt_of_lt_of_le (h.count_eq ▸ hpage) h.coherent.count_le

theorem Stands.lt_count (h : t.Stands p lawful count cells) (hentry : t.pages[page]? = some entry) :
    page < count := h.count_eq ▸ Table.lt_count hentry

theorem Stands.withHead (h : t.Stands p lawful count cells) (hpage : page < count) :
    Stands p lawful count { t with head := page } cells :=
  ⟨h.coherent.withHead (h.lt_pageCount hpage), h.stamped, h.count_eq⟩

theorem Stands.withRingStart (h : t.Stands p lawful count cells) (hpage : page < count) :
    Stands p lawful count { t with ringStart := page } cells :=
  ⟨h.coherent.withRingStart (h.lt_pageCount hpage), h.stamped, h.count_eq⟩

/-! ## Status bytes -/

theorem Stamped.program_content (h : t.Stamped p cells)
    (hfits : offset + bytes.length ≤ p.contentSize) :
    t.Stamped p (cells.program (p.contentAddress page offset) bytes) := by
  intro other e he
  rw [Cells.getElem?_program_of_not_mem (Partition.status_not_mem_content hfits other)]
  exact h other e he

theorem Stamped.set_of_status_eq (h : t.Stamped p cells) (hentry : t.pages[page]? = some entry)
    {entry' : Page} (hstatus : entry'.status = entry.status) : (t.set page entry').Stamped p cells := by
  intro other e he
  rcases getElem?_set_eq_some he with ⟨rfl, rfl⟩ | ⟨-, he⟩
  · rw [hstatus]
    exact h other entry hentry
  · exact h other e he

/-- A status byte that its cell takes is the one in the flash afterwards. -/
theorem Stamped.program_status (h : t.Stamped p cells) {status : PageStatus}
    (htakes : cells.Takes (p.pageAddress page) [status.toByte])
    (hcell : p.pageAddress page < cells.size) :
    (t.set page { entry with status }).Stamped p
      (cells.program (p.pageAddress page) [status.toByte]) := by
  intro other e he
  rcases getElem?_set_eq_some he with ⟨rfl, rfl⟩ | ⟨hne, he⟩
  · exact Cells.getElem?_program_of_takes (i := 0) htakes rfl hcell
  · have hpos := p.pageSize_pos
    have haddress := p.pageAddress_ne hne hpos hpos
    rw [Cells.getElem?_program_of_not_mem]
    · exact h other e he
    · rw [List.length_singleton]
      omega

theorem Stamped.erase (h : t.Stamped p cells)
    (hcells : p.pageAddress page + p.pageSize ≤ cells.size) :
    (t.set page .blank).Stamped p (cells.erase (p.pageAddress page) p.pageSize) := by
  have hpos := p.pageSize_pos
  intro other e he
  rw [Cells.getElem?_erase]
  rcases getElem?_set_eq_some he with ⟨rfl, rfl⟩ | ⟨hne, he⟩
  · rw [if_pos (by omega), Array.getElem?_eq_getElem (by omega)]
    rfl
  · rw [if_neg]
    · exact h other e he
    · rcases Nat.lt_or_gt_of_ne hne with hlt | hlt
      · have hle := p.pageAddress_add_le hlt
        omega
      · have hle := p.pageAddress_add_le hlt
        omega

end Table

/-! ## Programs of the engine -/

namespace EngineM

open Engine

variable {α β σ : Type} {p : Partition} {lawful : Prop} {t : Table} {cells : Cells}

/-- What may hold of the table and the cells at the end of a program. -/
abbrev CellPost (α : Type) := α → Table → Cells → Prop

/-- Every access is one that a store asks for.  The program ends in a postcondition, or with an error
that callers may meet and a coherent table. -/
def Abides (p : Partition) (lawful : Prop) (x : EngineM α) (t : Table) (cells : Cells)
    (post : CellPost α) : Prop :=
  (x.run.run t).Abides (Answers lawful) (p.Heeds lawful) cells fun result after =>
    match result with
    | (.ok a, t') => post a t' after
    | (.error error, t') => error ≠ .inconsistent ∧ t'.Coherent p

theorem abides_pure {a : α} {post : CellPost α} (h : post a t cells) :
    Abides p lawful (pure a) t cells post := h

theorem abides_throw {error : Error} {post : CellPost α} (herror : error ≠ .inconsistent)
    (h : t.Coherent p) : Abides p lawful (throw error) t cells post := ⟨herror, h⟩

theorem Abides.bind {x : EngineM α} {f : α → EngineM β} {mid : CellPost α} {post : CellPost β}
    (hx : Abides p lawful x t cells mid)
    (hf : ∀ a t' after, mid a t' after → Abides p lawful (f a) t' after post) :
    Abides p lawful (x >>= f) t cells post := by
  rw [Abides, run_bind, FlashM.abides_bind]
  refine FlashM.Abides.mono hx ?_
  rintro ⟨error | a, t'⟩ after hmid
  · exact hmid
  · exact hf a t' after hmid

theorem Abides.mono {x : EngineM α} {post post' : CellPost α} (hx : Abides p lawful x t cells post)
    (hpost : ∀ a t' after, post a t' after → post' a t' after) :
    Abides p lawful x t cells post' := by
  refine FlashM.Abides.mono hx ?_
  rintro ⟨error | a, t'⟩ after h
  · exact h
  · exact hpost a t' after h

theorem Abides.map {x : EngineM α} {post : CellPost β} (f : α → β)
    (hx : Abides p lawful x t cells fun a => post (f a)) : Abides p lawful (f <$> x) t cells post := by
  rw [map_eq_pure_bind]
  exact hx.bind fun a _ _ h => abides_pure h

/-- What is known of programs on a flash may be used on a lawful chip. -/
theorem Abides.and_ensures {x : EngineM α} {inv : Image → Prop} {post : CellPost α}
    {post' : Post α} {fail : Post Error} (h : Abides p lawful x t cells post)
    (hensures : lawful → p.base + p.size ≤ cells.size ∧ inv (p.image cells) ∧
      Ensures p .tearing inv x t (p.image cells) post' fail) :
    Abides p lawful x t cells fun a t' after => post a t' after ∧
      (lawful → p.base + p.size ≤ after.size ∧ post' a t' (p.image after)) := by
  have hboth := FlashM.Abides.and_always (fun _ _ _ _ hanswers hlawful => hanswers.2 hlawful) h
    fun hlawful => by
      obtain ⟨hfits, hinv, hx⟩ := hensures hlawful
      exact (hx cells ⟨hfits, rfl⟩ hinv).keep hinv
  refine hboth.mono ?_
  rintro ⟨error | a, t'⟩ after ⟨hpost, hlawful⟩
  · exact hpost
  · refine ⟨hpost, fun hl => ?_⟩
    obtain ⟨-, hsize, hpost'⟩ := hlawful hl
    exact ⟨hsize ▸ (hensures hl).1, hpost'⟩

theorem abides_perform {x : AccessM α} {post : α → Cells → Prop} (ht : t.Coherent p)
    (h : x.Abides p lawful cells post) :
    Abides p lawful (perform x) t cells fun a t' after => t' = t ∧ post a after := by
  show (x.run >>= fun result => pure (result, t)).Abides _ _ _ _
  rw [FlashM.abides_bind]
  refine FlashM.Abides.mono h ?_
  rintro (error | a) after hpost
  · exact ⟨hpost, ht⟩
  · exact ⟨rfl, hpost⟩

theorem abides_get_bind {f : Table → EngineM α} {post : CellPost α}
    (h : Abides p lawful (f t) t cells post) : Abides p lawful (get >>= f) t cells post := h

theorem abides_modify {g : Table → Table} {post : CellPost PUnit} (h : post ⟨⟩ (g t) cells) :
    Abides p lawful (modify g) t cells post := h

theorem abides_modify_bind {g : Table → Table} {f : PUnit → EngineM α} {post : CellPost α}
    (h : Abides p lawful (f ⟨⟩) (g t) cells post) :
    Abides p lawful (modify g >>= f) t cells post := h

theorem abides_entry_bind {page : Nat} {entry : Page} {f : Page → EngineM α} {post : CellPost α}
    (hentry : t.pages[page]? = some entry) (h : Abides p lawful (f entry) t cells post) :
    Abides p lawful (pageAt page >>= f) t cells post := by
  rw [Abides, run_pageAt_bind f hentry]
  exact h

/-- A page of the table has an entry. -/
theorem abides_pageAt_bind {page : Nat} {f : Page → EngineM α} {post : CellPost α}
    (hpage : page < t.count)
    (h : ∀ entry, t.pages[page]? = some entry → Abides p lawful (f entry) t cells post) :
    Abides p lawful (pageAt page >>= f) t cells post := by
  obtain ⟨entry, hentry⟩ := Table.exists_entry hpage
  exact abides_entry_bind hentry (h entry hentry)

/-- A loop keeps what each of its steps keeps. -/
theorem abides_forM {f : β → EngineM Unit} (motive : List β → Table → Cells → Prop) {bs : List β}
    (hstep : ∀ b ∈ bs, ∀ rest t cells, motive (b :: rest) t cells →
      Abides p lawful (f b) t cells fun _ t' after => motive rest t' after)
    (h : motive bs t cells) :
    Abides p lawful (bs.forM f) t cells fun _ t' after => motive [] t' after := by
  induction bs generalizing t cells with
  | nil => exact abides_pure h
  | cons b rest ih =>
    obtain ⟨hb, hrest⟩ := List.forall_mem_cons.mp hstep
    exact (hb rest t cells h).bind fun _ _ _ hmotive => ih hrest hmotive

theorem abides_foldlM {f : σ → β → EngineM σ} (motive : σ → Table → Cells → Prop) {bs : List β}
    (hstep : ∀ b ∈ bs, ∀ s t cells, motive s t cells →
      Abides p lawful (f s b) t cells fun s' t' after => motive s' t' after) {s : σ}
    (h : motive s t cells) :
    Abides p lawful (bs.foldlM f s) t cells fun s' t' after => motive s' t' after := by
  induction bs generalizing s t cells with
  | nil => exact abides_pure h
  | cons b rest ih =>
    obtain ⟨hb, hrest⟩ := List.forall_mem_cons.mp hstep
    rw [List.foldlM_cons]
    exact (hb s t cells h).bind fun _ _ _ hmotive => ih hrest hmotive

end EngineM

/-! ## Single pages -/

/-- A page is closed by clearing bits unless it waits for its erase. -/
theorem PageStatus.toByte_and_full (status : PageStatus) (h : status.kind ≠ .unavailable) :
    status.toByte &&& (status.withKind .full).toByte = (status.withKind .full).toByte := by
  obtain ⟨kind, ringStart⟩ := status
  cases kind with
  | unavailable => exact absurd rfl h
  | erased | active | full => cases ringStart <;> rfl

namespace Engine

open EngineM

variable {p : Partition} {lawful : Prop} {count page : Nat} {t : Table} {cells : Cells}
  {entry : Page}

theorem abides_setStatus (hw : p.Workable lawful) (h : t.Stands p lawful count cells)
    (hentry : t.pages[page]? = some entry) (status : PageStatus)
    (hkind : status.kind = .erased → entry.kind = .erased)
    (hclear : lawful → entry.status.toByte &&& status.toByte = status.toByte) :
    Abides p lawful (setStatus p page status) t cells fun _ t' after =>
      t'.Stands p lawful count after ∧ t' = t.set page { entry with status } := by
  unfold setStatus
  refine abides_entry_bind hentry ?_
  have htakes : lawful → cells.Takes (p.pageAddress page) [status.toByte] := fun hlawful =>
    Cells.takes_singleton (h.stamped hlawful page entry hentry) (hclear hlawful)
  refine (abides_perform h.coherent (Partition.abides_writeStatus hw
    (h.lt_pageCount (h.lt_count hentry)) status htakes)).bind ?_
  rintro _ _ after ⟨rfl, hafter⟩
  refine abides_modify ⟨⟨h.coherent.set ((h.coherent.proper hentry).withStatus hkind),
    fun hlawful => ?_, Table.count_set.trans h.count_eq⟩, rfl⟩
  obtain ⟨rfl, hcell⟩ := hafter hlawful
  exact (h.stamped hlawful).program_status (htakes hlawful) hcell

theorem abides_erasePage (hw : p.Workable lawful) (h : t.Stands p lawful count cells)
    (hpage : page < count) :
    Abides p lawful (erasePage p page) t cells fun _ t' after =>
      t'.Stands p lawful count after ∧ t' = t.set page .blank := by
  unfold erasePage
  refine abides_pageAt_bind (h.count_eq ▸ hpage) fun entry hentry => ?_
  refine (abides_perform h.coherent
    (Partition.abides_erasePage hw (h.lt_pageCount hpage))).bind ?_
  rintro _ _ after ⟨rfl, hafter⟩
  refine abides_modify ⟨⟨h.coherent.set (Page.proper_zero p .blank), fun hlawful => ?_,
    Table.count_set.trans h.count_eq⟩, rfl⟩
  obtain ⟨rfl, hcells⟩ := hafter hlawful
  exact (h.stamped hlawful).erase hcells

theorem abides_freeBytes (h : t.Stands p lawful count cells) (hpage : page < count) :
    Abides p lawful (freeBytes p page) t cells fun _ t' after => t' = t ∧ after = cells := by
  unfold freeBytes
  refine abides_pageAt_bind (h.count_eq ▸ hpage) fun entry hentry => ?_
  rw [if_pos (h.coherent.fits page entry hentry).used_le]
  exact abides_pure ⟨rfl, rfl⟩

/-- A record is appended if it fits behind the others, and its counters do not overflow. -/
theorem abides_append (hw : p.Workable lawful) (h : t.Stands p lawful count cells)
    (hentry : t.pages[page]? = some entry) (hkind : entry.kind ≠ .erased) {key : UInt16} {payload : Bytes}
    (hkey : isValidKey key = true) (hne : payload ≠ []) (hlength : payload.length ≤ p.maxPayload)
    (htakes : lawful → cells.Takes (p.contentAddress page entry.used)
      (Record.ofPayload p.chip.checksum key payload).toBytes) :
    Abides p lawful (append p page key payload) t cells fun _ t' after =>
      t'.Stands p lawful count after := by
  unfold append
  refine abides_entry_bind hentry ?_
  refine (abides_perform h.coherent (Partition.abides_writeRecord hw
    (h.lt_pageCount (h.lt_count hentry)) hkey hne hlength htakes)).bind ?_
  rintro _ t after ⟨rfl, hfits, hafter⟩
  have hentry' := (h.coherent.proper hentry).appended hkind hfits
  have hset : (t.set page _).Coherent p := h.coherent.set hentry'
  have hcounters := hset.le_maxCounter (Table.getElem?_set_self (Table.lt_count hentry))
  rw [Partition.length_record, if_pos hcounters]
  refine abides_modify ⟨hset, fun hlawful => ?_, Table.count_set.trans h.count_eq⟩
  rw [hafter hlawful]
  refine ((h.stamped hlawful).program_content ?_).set_of_status_eq hentry rfl
  rwa [Partition.length_record]

/-- The stages of all other pages are as before. -/
def KindsBut (t t' : Table) (page : Nat) : Prop :=
  ∀ other, other ≠ page → t'.kind? other = t.kind? other

theorem kindsBut_set (t : Table) (page : Nat) (entry : Page) : KindsBut t (t.set page entry) page :=
  fun _ hne => Table.kind?_set_of_ne hne

theorem KindsBut.trans {t₁ t₂ t₃ : Table} (h : KindsBut t₁ t₂ page) (h' : KindsBut t₂ t₃ page) :
    KindsBut t₁ t₃ page := fun other hne => (h' other hne).trans (h other hne)

theorem KindsBut.isKind {t' : Table} (h : KindsBut t t' page) {other : Nat} (hne : other ≠ page)
    (kind : PageKind) : t'.isKind kind other = t.isKind kind other := by
  rw [Table.isKind, Table.isKind, h other hne]

/-- Any page but one that waits for its erase may be closed. -/
theorem abides_close (hw : p.Workable lawful) (h : t.Stands p lawful count cells)
    (hentry : t.pages[page]? = some entry) (hkind : lawful → entry.kind ≠ .unavailable) :
    Abides p lawful (close p page) t cells fun _ t' after =>
      t'.Stands p lawful count after ∧ KindsBut t t' page := by
  unfold close
  refine abides_entry_bind hentry ?_
  refine (abides_setStatus hw h hentry (entry.status.withKind .full) nofun fun hlawful =>
    entry.status.toByte_and_full (hkind hlawful)).bind ?_
  rintro _ t₁ after ⟨h₁, rfl⟩
  have hbut := kindsBut_set t page { entry with status := entry.status.withKind .full }
  split
  · refine (abides_setStatus hw h₁ (Table.getElem?_set_self (Table.lt_count hentry))
      (entry.status.withKind .unavailable) nofun fun _ =>
        (entry.status.withKind .full).toByte_and_withKind rfl).mono ?_
    rintro _ _ _ ⟨h₂, rfl⟩
    exact ⟨h₂, hbut.trans (kindsBut_set _ page _)⟩
  · exact abides_pure ⟨h₁, hbut⟩

end Engine

end RingStore
