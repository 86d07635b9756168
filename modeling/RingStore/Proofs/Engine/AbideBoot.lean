import RingStore.Proofs.Engine.Abide
import RingStore.Proofs.Engine.Boot

/-!
# The boot scan keeps the table in range

The scan takes whatever bytes it finds for the pages of a partition, and it may break off at any access.
The table is in range all along: the two positions in the ring are those of the table before until the
scan has settled them.  On a lawful chip each page enters the table with the status byte that the scan
leaves in the flash.

## Main statements

* `Partition.abides_loadPage`: what the table gets to know of a page fits into it.
* `Engine.abides_load`: a scan that succeeds has all pages in its table, whatever the table was before.
-/

namespace RingStore

namespace Partition

open AccessM

/-- The status byte of a page is known, and those of the other pages are as they were. -/
structure Restamps (p : Partition) (page : Nat) (status : PageStatus) (before cells : Cells) : Prop where
  self : cells[p.pageAddress page]? = some status.toByte
  others : ∀ other, other ≠ page → cells[p.pageAddress other]? = before[p.pageAddress other]?

variable {p : Partition} {lawful : Prop} {page offset : Nat} {before cells : Cells}
  {status status' : PageStatus} {bytes : Bytes}

namespace Restamps

theorem content (h : p.Restamps page status before cells)
    (hfits : offset + bytes.length ≤ p.contentSize) :
    p.Restamps page status before (cells.program (p.contentAddress page offset) bytes) := by
  constructor
  · rw [Cells.getElem?_program_of_not_mem (Partition.status_not_mem_content hfits page)]
    exact h.self
  · intro other hne
    rw [Cells.getElem?_program_of_not_mem (Partition.status_not_mem_content hfits other)]
    exact h.others other hne

theorem takes (h : p.Restamps page status before cells)
    (hclear : status.toByte &&& status'.toByte = status'.toByte) :
    cells.Takes (p.pageAddress page) [status'.toByte] := Cells.takes_singleton h.self hclear

theorem program (h : p.Restamps page status before cells)
    (hclear : status.toByte &&& status'.toByte = status'.toByte)
    (hcell : p.pageAddress page < cells.size) :
    p.Restamps page status' before (cells.program (p.pageAddress page) [status'.toByte]) := by
  constructor
  · exact Cells.getElem?_program_of_takes (i := 0) (h.takes hclear) rfl hcell
  · intro other hne
    have hpos := p.pageSize_pos
    have haddress := p.pageAddress_ne hne hpos hpos
    rw [Cells.getElem?_program_of_not_mem]
    · exact h.others other hne
    · rw [List.length_singleton]
      omega

/-- An erased page has the status of an erased page. -/
theorem erase (hcells : p.pageAddress page + p.pageSize ≤ cells.size) :
    p.Restamps page .blank cells (cells.erase (p.pageAddress page) p.pageSize) := by
  have hpos := p.pageSize_pos
  constructor
  · rw [Cells.getElem?_erase, if_pos (by omega), Array.getElem?_eq_getElem (by omega)]
    rfl
  · intro other hne
    rw [Cells.getElem?_erase, if_neg]
    rcases Nat.lt_or_gt_of_ne hne with hlt | hlt
    · have hle := p.pageAddress_add_le hlt
      omega
    · have hle := p.pageAddress_add_le hlt
      omega

end Restamps

/-! ## Single pages -/

theorem abides_moveOn (hw : p.Workable lawful) (hpage : page < p.pageCount)
    (h : lawful → p.Restamps page status before cells) (status' : PageStatus)
    (hclear : status.toByte &&& status'.toByte = status'.toByte) :
    Abides p lawful (p.writeStatus page status') cells fun _ after =>
      lawful → p.Restamps page status' before after := by
  refine (abides_writeStatus hw hpage status' fun hlawful => (h hlawful).takes hclear).mono ?_
  intro _ after hafter hlawful
  obtain ⟨rfl, hcell⟩ := hafter hlawful
  exact (h hlawful).program hclear hcell

theorem abides_advanceIf (hw : p.Workable lawful) (hpage : page < p.pageCount)
    (h : lawful → p.Restamps page status before cells) (hused : status.kind ≠ .erased) {due : Bool}
    {kind : PageKind} (hkind : kind ≠ .erased) (hdue : due = true → status.kind.next = kind) :
    Abides p lawful (p.advanceIf page due status kind) cells fun status' after =>
      status'.kind ≠ .erased ∧ (lawful → p.Restamps page status' before after) := by
  rw [advanceIf]
  split
  · next hyes =>
    exact (abides_moveOn hw hpage h _ (status.toByte_and_withKind (hdue hyes))).bind fun _ _ hafter =>
      abides_pure ⟨hkind, hafter⟩
  · exact abides_pure ⟨hused, h⟩

theorem abides_dropDamaged (hw : p.Workable lawful) (hpage : page < p.pageCount)
    (h : lawful → p.Restamps page status before cells) (offsets : List Nat) :
    Abides p lawful (offsets.forM (p.writeTombstone page)) cells fun _ after =>
      lawful → p.Restamps page status before after := by
  refine abides_forM (fun after => lawful → p.Restamps page status before after) ?_ offsets h
  intro offset cells h
  refine (abides_writeTombstone hw hpage).mono ?_
  rintro _ after ⟨hfits, hafter⟩ hlawful
  rw [hafter hlawful]
  exact (h hlawful).content hfits

/-- What the table gets to know of a page: counters that fit, and the status byte in the flash. -/
def Enters (p : Partition) (lawful : Prop) (page : Nat) (before : Cells) (entry : Page)
    (cells : Cells) : Prop :=
  entry.Proper p ∧ (lawful → p.Restamps page entry.status before cells)

/-- The counters of a log fit into the content it was read from. -/
theorem proper_parse {content : Bytes} (hcontent : content.length = p.contentSize)
    (checksum : Checksum) {status : PageStatus} (hused : status.kind ≠ .erased) :
    Page.Proper p ⟨status, (Log.parse content).used, (Log.parse content).live checksum⟩ :=
  ⟨⟨hcontent ▸ Log.used_le content, Log.live_le_used checksum (Log.parse content)⟩,
    fun herased => absurd herased hused⟩

theorem abides_recoverPage (hw : p.Workable lawful) (hpage : page < p.pageCount)
    (h : lawful → p.Restamps page status before cells) (hused : status.kind ≠ .erased) {content : Bytes}
    (hcontent : content.length = p.contentSize) :
    Abides p lawful (p.recoverPage page status content) cells (p.Enters lawful page before) := by
  unfold recoverPage
  refine (abides_dropDamaged hw hpage h _).bind fun _ _ h₁ => ?_
  refine (abides_advanceIf hw hpage h₁ hused (by decide) ?_).bind ?_
  · intro hdue
    rw [Bool.and_eq_true, beq_iff_eq] at hdue
    rw [hdue.1]
    rfl
  · rintro status₂ _ ⟨hused₂, h₂⟩
    refine (abides_advanceIf hw hpage h₂ hused₂ (by decide) ?_).bind ?_
    · intro hdue
      rw [Bool.and_eq_true, beq_iff_eq] at hdue
      rw [hdue.1]
      rfl
    · rintro status₃ _ ⟨hused₃, h₃⟩
      exact abides_pure ⟨proper_parse hcontent _ hused₃, h₃⟩

theorem abides_eraseStamped (hw : p.Workable lawful) (hpage : page < p.pageCount) :
    Abides p lawful (p.erasePage page) cells fun _ after =>
      lawful → p.Restamps page .blank cells after := by
  refine (abides_erasePage hw hpage).mono fun _ after hafter hlawful => ?_
  obtain ⟨rfl, hcells⟩ := hafter hlawful
  exact .erase hcells

theorem abides_finishErase (hw : p.Workable lawful) (hpage : page < p.pageCount)
    (hkind : status.kind = .erased) :
    Abides p lawful (p.finishErase page status) cells fun _ after =>
      lawful → p.Restamps page status cells after := by
  unfold finishErase
  refine (abides_eraseStamped hw hpage).bind fun _ after h => ?_
  split
  · -- After the erase the byte takes any status.
    refine abides_moveOn hw hpage h status ?_
    rw [PageStatus.toByte_blank, UInt8.and_comm]
    exact Cells.and_ones _
  · next hmark =>
    rw [PageStatus.eq_blank hkind (by simpa using hmark)]
    exact abides_pure h

theorem abides_settlePage (hw : p.Workable lawful) (hpage : page < p.pageCount)
    (h : lawful → p.Restamps page status cells cells) {content : Bytes}
    (hcontent : content.length = p.contentSize) :
    Abides p lawful (p.settlePage page status content) cells (p.Enters lawful page cells) := by
  have hproper := Page.proper_zero p status
  unfold settlePage
  split
  · next hkind =>
    split
    · exact abides_pure ⟨hproper, h⟩
    · exact (abides_finishErase hw hpage hkind).bind fun _ _ hafter => abides_pure ⟨hproper, hafter⟩
  · next hkind =>
    refine abides_pure ⟨⟨⟨Nat.le_refl _, Nat.zero_le _⟩, fun herased => ?_⟩, h⟩
    rw [Page.kind, hkind] at herased
    cases herased
  · next hkind => exact abides_recoverPage hw hpage h (by rw [hkind]; decide) hcontent
  · next hkind => exact abides_recoverPage hw hpage h (by rw [hkind]; decide) hcontent

/-- **What the table gets to know of a page fits into it.** -/
theorem abides_loadPage (hw : p.Workable lawful) (hpage : page < p.pageCount) :
    Abides p lawful (p.loadPage page) cells (p.Enters lawful page cells) := by
  unfold loadPage
  refine (abides_readPage hw hpage).bind ?_
  rintro bytes after ⟨hlength, hbytes⟩
  have hpos := p.pageSize_pos
  have hsize := p.statusSize_add_contentSize
  split
  · rw [List.length_nil] at hlength
    omega
  · next byte content =>
    rw [List.length_cons] at hlength
    have hcontent : content.length = p.contentSize := by
      rw [statusSize] at hsize
      omega
    have hafter : lawful → after = cells := fun hlawful => (hbytes hlawful).2
    split
    · next status hstatus =>
      refine (abides_settlePage hw hpage (fun hlawful => ⟨?_, fun _ _ => rfl⟩) hcontent).mono ?_
      · obtain ⟨hslice, heq⟩ := hbytes hlawful
        have hfirst := Cells.getElem?_slice cells (p.pageAddress page) p.pageSize 0
        rw [← hslice, if_pos hpos, Nat.add_zero, List.getElem?_cons_zero] at hfirst
        rw [heq, ← hfirst, PageStatus.toByte_ofByte? hstatus]
      · exact fun entry c hentry => ⟨hentry.1, fun hlawful => hafter hlawful ▸ hentry.2 hlawful⟩
    · refine (abides_eraseStamped hw hpage).bind fun _ c herased => ?_
      exact abides_pure ⟨Page.proper_zero p .blank, fun hlawful => hafter hlawful ▸ herased hlawful⟩

end Partition

/-- A page that fits may be added to the table if there is one left. -/
theorem Table.Coherent.push {p : Partition} {t : Table} {entry : Page} (h : t.Coherent p)
    (hcount : t.count < p.pageCount) (hproper : entry.Proper p) : (t.push entry).Coherent p := by
  have hentries : ∀ (page : Nat) (e : Page), (t.push entry).pages[page]? = some e → e.Proper p := by
    intro page e he
    rw [getElem?_push] at he
    split at he
    · exact Option.some.inj he ▸ hproper
    · exact h.proper he
  refine ⟨⟨?_, h.head_lt, h.ringStart_lt, fun page e he => (hentries page e he).toFits⟩,
    fun page e he => (hentries page e he).blank⟩
  rw [count_push]
  exact hcount

namespace Engine

open EngineM

variable {p : Partition} {lawful : Prop} {count page : Nat} {t : Table} {cells : Cells}

/-! ## Loading -/

/-- The pages up to the next one are in the table. -/
structure Loads (p : Partition) (lawful : Prop) (rest : List Nat) (t : Table) (cells : Cells) :
    Prop where
  stands : t.Stands p lawful t.count cells
  rest_eq : rest = List.range' t.count (p.pageCount - t.count)

theorem abides_loadNext (hw : p.Workable lawful) {rest : List Nat}
    (h : Loads p lawful (page :: rest) t cells) :
    Abides p lawful (loadNext p page) t cells fun _ t' after => Loads p lawful rest t' after := by
  have hcount := h.stands.coherent.count_le
  obtain ⟨ahead, hahead⟩ : ∃ n, p.pageCount - t.count = n + 1 := by
    refine Nat.exists_eq_succ_of_ne_zero fun hzero => ?_
    have hrest := h.rest_eq
    rw [hzero] at hrest
    cases hrest
  have hrest := h.rest_eq
  rw [hahead, List.range'_succ] at hrest
  obtain ⟨rfl, rfl⟩ := List.cons.inj hrest
  unfold loadNext
  refine (abides_perform h.stands.coherent (Partition.abides_loadPage hw (by omega))).bind ?_
  rintro entry t after ⟨rfl, hproper, hstamps⟩
  refine abides_modify ⟨⟨h.stands.coherent.push (by omega) hproper, ?_, rfl⟩, ?_⟩
  · intro hlawful page e he
    rw [Table.getElem?_push] at he
    split at he
    · next heq =>
      rw [heq, ← Option.some.inj he]
      exact (hstamps hlawful).self
    · next hne =>
      rw [(hstamps hlawful).others page hne]
      exact h.stands.stamped hlawful page e he
  · rw [Table.count_push, show p.pageCount - (t.count + 1) = ahead by omega]

theorem abides_loadAll (hw : p.Workable lawful) (h : t.Coherent p) (hempty : t.pages = #[]) :
    Abides p lawful ((List.range p.pageCount).forM (loadNext p)) t cells fun _ t' after =>
      t'.Stands p lawful p.pageCount after := by
  have hstart : Loads p lawful (List.range p.pageCount) t cells := by
    have hcount : t.count = 0 := by rw [Table.count, hempty, Array.size_empty]
    refine ⟨⟨h, fun _ page entry hentry => ?_, rfl⟩, ?_⟩
    · rw [hempty] at hentry
      cases hentry
    · rw [hcount, Nat.sub_zero, List.range_eq_range']
  refine (abides_forM (Loads p lawful) (fun page _ rest t cells hloads => ?_) hstart).mono ?_
  · exact abides_loadNext hw hloads
  · intro _ t' after hloads
    have hcount := hloads.stands.coherent.count_le
    have hlength := congrArg List.length hloads.rest_eq
    rw [List.length_range', List.length_nil] at hlength
    have hall : t'.count = p.pageCount := by omega
    exact hall ▸ hloads.stands

/-! ## The ring start -/

/-- The pages that were wiped have the status of erased ones. -/
def WipedBut (p : Partition) (lawful : Prop) (rest : List Nat) (t : Table) (cells : Cells) : Prop :=
  t.Stands p lawful p.pageCount cells ∧
    ∀ (page : Nat) (entry : Page), page ∉ rest → t.pages[page]? = some entry → entry.status = .blank

theorem abides_wipe (hw : p.Workable lawful) {rest : List Nat} (hpage : page < p.pageCount)
    (h : WipedBut p lawful (page :: rest) t cells) :
    Abides p lawful (wipe p page) t cells fun _ t' after => WipedBut p lawful rest t' after := by
  obtain ⟨hstands, hblank⟩ := h
  have hrest : ∀ (other : Nat) (e : Page), other ∉ rest → other ≠ page →
      t.pages[other]? = some e → e.status = .blank := fun other e hnot hne he =>
    hblank other e (List.not_mem_cons_of_ne_of_not_mem hne hnot) he
  unfold wipe
  refine abides_pageAt_bind (hstands.count_eq ▸ hpage) fun entry hentry => ?_
  split
  · refine (abides_erasePage hw hstands hpage).mono ?_
    rintro _ _ after ⟨h', rfl⟩
    refine ⟨h', fun other e hnot he => ?_⟩
    rcases Table.getElem?_set_eq_some he with ⟨-, rfl⟩ | ⟨hne, he⟩
    · rfl
    · exact hrest other e hnot hne he
  · next hclean =>
    refine abides_pure ⟨hstands, fun other e hnot he => ?_⟩
    by_cases heq : other = page
    · subst heq
      rw [hentry] at he
      rw [← Option.some.inj he]
      by_contra hne
      exact hclean (Or.inl hne)
    · exact hrest other e hnot heq he

theorem abides_format (hw : p.Workable lawful) (h : t.Stands p lawful p.pageCount cells) :
    Abides p lawful (format p) t cells fun _ t' after => t'.Stands p lawful p.pageCount after := by
  have hstart : WipedBut p lawful (List.range t.count) t cells := by
    refine ⟨h, fun page entry hnot hentry => ?_⟩
    exact absurd (List.mem_range.mpr (Table.lt_count hentry)) hnot
  unfold format
  refine abides_get_bind ?_
  refine (abides_forM (WipedBut p lawful) (fun page hpage rest t' after hwiped => ?_) hstart).bind ?_
  · exact abides_wipe hw (h.count_eq ▸ List.mem_range.mp hpage) hwiped
  · rintro _ t₁ after ⟨h₁, hblank⟩
    obtain ⟨entry, hentry⟩ := Table.exists_entry (h₁.count_eq.symm ▸ p.pageCount_pos)
    refine (abides_setStatus hw h₁ hentry ⟨.active, true⟩ nofun fun _ => ?_).bind ?_
    · rw [hblank 0 entry List.not_mem_nil hentry]
      rfl
    · rintro _ t₂ after₂ ⟨h₂, -⟩
      exact abides_modify ((h₂.withRingStart p.pageCount_pos).withHead p.pageCount_pos)

theorem abides_dropStaleMarker (hw : p.Workable lawful) (h : t.Stands p lawful count cells)
    (start : Nat) (hpage : page < count) :
    Abides p lawful (dropStaleMarker p start page) t cells fun _ t' after =>
      t'.Stands p lawful count after := by
  unfold dropStaleMarker
  refine abides_pageAt_bind (h.count_eq ▸ hpage) fun entry hentry => ?_
  split
  · exact (abides_erasePage hw h hpage).mono fun _ _ _ hpost => hpost.1
  · exact abides_pure h

theorem abides_settleRingStart (hw : p.Workable lawful) (h : t.Stands p lawful p.pageCount cells) :
    Abides p lawful (settleRingStart p) t cells fun _ t' after =>
      t'.Stands p lawful p.pageCount after := by
  unfold settleRingStart
  refine abides_get_bind ?_
  have hmarked : ∀ page ∈ (List.range t.count).filter t.isMarked, page < p.pageCount :=
    fun page hpage => h.count_eq ▸ List.mem_range.mp (List.mem_filter.mp hpage).1
  generalize (List.range t.count).filter t.isMarked = marked at hmarked
  dsimp only
  split
  · exact abides_format hw h
  · next start hstart =>
    have hlt : start < p.pageCount := by
      rcases Option.or_eq_some_iff.mp hstart with hfind | ⟨-, hhead⟩
      · exact hmarked start (List.mem_of_find?_eq_some hfind)
      · exact hmarked start (List.mem_of_mem_head? hhead)
    refine (abides_forM (fun _ t' after => t'.Stands p lawful p.pageCount after) ?_ h).bind ?_
    · exact fun page hpage _ _ _ h' => abides_dropStaleMarker hw h' start (hmarked page hpage)
    · exact fun _ _ _ h' => abides_modify (h'.withRingStart hlt)

/-! ## The head -/

theorem abides_closeOther (hw : p.Workable lawful) (h : t.Stands p lawful count cells)
    (newest : Option Nat) (hpage : page < count) :
    Abides p lawful (closeOther p newest page) t cells fun _ t' after =>
      t'.Stands p lawful count after := by
  unfold closeOther
  refine abides_pageAt_bind (h.count_eq ▸ hpage) fun entry hentry => ?_
  split
  · next hactive =>
    exact (abides_close hw h hentry fun _ => by rw [hactive.1]; nofun).mono
      fun _ _ _ hpost => hpost.1
  · exact abides_pure h

theorem abides_settleHead (hw : p.Workable lawful) (h : t.Stands p lawful p.pageCount cells) :
    Abides p lawful (settleHead p) t cells fun _ t' after => t'.Stands p lawful p.pageCount after := by
  have hnewest : ∀ page, t.lastInRing? (t.isKind .active) = some page → page < p.pageCount :=
    fun page hpage => h.count_eq ▸ lt_of_lastInRing? hpage
  unfold settleHead
  refine abides_get_bind ?_
  dsimp only
  generalize t.lastInRing? (t.isKind .active) = newest at hnewest
  refine (abides_forM (fun _ t' after => t'.Stands p lawful p.pageCount after) ?_ h).bind ?_
  · exact fun page hpage _ _ _ h' =>
      abides_closeOther hw h' newest (h.count_eq ▸ List.mem_range.mp hpage)
  · intro _ t' after h'
    refine abides_modify (h'.withHead ?_)
    cases newest with
    | some page => exact hnewest page rfl
    | none =>
      rw [Option.none_or]
      cases hlast : t'.lastInRing? (!t'.isKind .erased ·) with
      | some page => exact h'.count_eq ▸ lt_of_lastInRing? hlast
      | none => exact h'.coherent.ringStart_lt

/-- **A scan that succeeds has all pages in its table**, whatever the table was before. -/
theorem abides_load (hw : p.Workable lawful) (h : t.Coherent p) :
    Abides p lawful (load p) t cells fun _ t' after => t'.Stands p lawful p.pageCount after := by
  have hempty : Table.Coherent p { t with pages := #[] } :=
    Table.coherent_of_pages_eq rfl h.head_lt h.ringStart_lt
  unfold load
  refine abides_modify_bind ?_
  refine (abides_loadAll hw hempty rfl).bind fun _ _ _ h₁ => ?_
  exact (abides_settleRingStart hw h₁).bind fun _ _ _ h₂ => abides_settleHead hw h₂

end Engine

end RingStore
