import RingStore.Proofs.Engine.Peek
import RingStore.Proofs.Engine.Update

/-!
# Writes and the room there is

A write of a new value ends in one of two ways if the chip refuses no access.  Either there is room for
the record, on the active page or on one that can be opened, and the write succeeds; or there is none,
and the write fails before its first access that changes the flash.

## Main statements

* `peeks_writeItem_of_exhausted`: without room, a write only looks.
* `ensures_writeItem_of_room`: with room, a write succeeds.
-/

namespace RingStore.Engine

open EngineM RingStore.Partition

variable {p : Partition} {anchored : Prop} {t : Table} {img : Image} {key : UInt16} {payload : Bytes}
  {needed : Nat} {v : Option Bytes}

/-! ## Without room -/

/-- The active page has too few bytes free. -/
theorem peeks_activeWithRoom_of_cramped (h : t.Mirrors p img) (hcramped : Cramped p needed t)
    {fail : Error → Table → Prop} :
    Peeks p (activeWithRoom p t.active? needed) t img (fun found t' => t' = t ∧ found = none) fail := by
  unfold activeWithRoom
  cases hactive : t.active? with
  | none => exact peeks_pure ⟨rfl, rfl⟩
  | some page =>
    obtain ⟨entry, hentry, hkind⟩ := Table.isKind_iff.mp (Table.eq_of_active?_eq_some hactive).2
    have hpage : page < p.pageCount := h.count_eq ▸ Table.lt_count hentry
    refine peeks_of_length fun hlength => ?_
    have hused := used_le_contentSize h.tracks hentry (hlength page hpage) (by rw [hkind]; rfl)
    have hnot : ¬needed ≤ p.contentSize - entry.used := by
      have hlt := hcramped page entry hentry hkind
      omega
    show Peeks p (freeBytes p page >>= _) t img _ fail
    unfold freeBytes
    rw [bind_assoc]
    refine peeks_pageAt_bind hentry ?_
    rw [if_pos hused, pure_bind, if_neg hnot]
    exact peeks_pure ⟨rfl, rfl⟩

/-- No page can be opened. -/
theorem peeks_claimErased_of_exhausted (hexhausted : Exhausted p needed t) {post : Nat → Table → Prop} :
    Peeks p (claimErased p) t img post fun error t' => error = .outOfSpace ∧ t' = t := by
  have hnone : ∀ kind, kind = .erased ∨ kind = .unavailable → ∀ page, ¬t.isKind kind page = true := by
    intro kind hkind page hpage
    obtain ⟨entry, hentry, rfl⟩ := Table.isKind_iff.mp hpage
    have hused := hexhausted.used page entry hentry
    exact hkind.elim hused.1 hused.2
  have herased : t.nextErased? = none := List.find?_eq_none.mpr fun page _ => hnone _ (Or.inl rfl) page
  have hpending : t.pending? = none := List.find?_eq_none.mpr fun page _ => hnone _ (Or.inr rfl) page
  unfold claimErased
  refine peeks_get_bind ?_
  rw [herased]
  refine peeks_get_bind ?_
  rw [hpending]
  exact peeks_throw ⟨rfl, rfl⟩

/-- **Without room, no page is selected** and none is touched. -/
theorem peeks_selectPage_of_exhausted (h : t.Mirrors p img) {length : Nat}
    (hexhausted : Exhausted p (headerSize + length) t) {post : Nat → Table → Prop} :
    Peeks p (selectPage p length) t img post fun error t' => error = .outOfSpace ∧ t' = t := by
  unfold selectPage
  refine peeks_get_bind ((peeks_activeWithRoom_of_cramped h hexhausted.cramped).bind ?_)
  rintro _ _ ⟨rfl, rfl⟩
  exact (peeks_claimErased_of_exhausted hexhausted).bind fun _ _ hfalse => hfalse

variable (hu : p.Usable) (h : t.Mirrors p img) (hsettled : (p.live img).Update key v (p.live img))
  (hargs : isValidKey key = true ∧ payload ≠ [] ∧ payload.length ≤ p.maxPayload)

include hu h hsettled hargs

/-- A write of the value that is stored already only looks. -/
theorem peeks_writeItem_of_stored (hstored : v = some payload) {fail : Error → Table → Prop} :
    Peeks p (writeItem p key payload) t img (fun _ t' => t' = t) fail := by
  unfold writeItem
  rw [if_pos hargs]
  refine (peeks_find hu h hsettled).bind ?_
  rintro old t' ⟨rfl, hold, -⟩
  rw [if_pos (hold.trans hstored)]
  exact peeks_pure rfl

/-- **Without room, a write only looks.** -/
theorem peeks_writeItem_of_exhausted (hnew : v ≠ some payload)
    (hexhausted : Exhausted p (headerSize + payload.length) t) {post : Unit → Table → Prop} :
    Peeks p (writeItem p key payload) t img post fun error t' => error = .outOfSpace ∧ t' = t := by
  unfold writeItem
  rw [if_pos hargs]
  refine (peeks_find hu h hsettled).bind ?_
  rintro old t' ⟨rfl, hold, -⟩
  rw [if_neg (hold ▸ hnew)]
  exact (peeks_selectPage_of_exhausted h hexhausted).bind fun _ _ hfalse => hfalse

omit hu h hsettled hargs

/-! ## With room -/

/-- A page with room was selected, and the value went there. -/
structure Written (p : Partition) (key : UInt16) (payload : Bytes) (t : Table) (img : Image)
    (page : Nat) (entry : Page) (opened : Table) (between : Image) (t' : Table) (img' : Image) :
    Prop where
  selected : Selected p (headerSize + payload.length) t img page opened between
  entry_eq : opened.pages[page]? = some entry
  active : entry.kind = .active
  mirrors : t'.Mirrors p img'
  update : (p.live img).Update key (some payload) (p.live img')
  stowed : Stowed p (headerSize + payload.length) page entry (p.live img') opened t'
  copy : ∃ e, (p.live img').Copy key page e

include hu h hsettled hargs

/-- **With room, a write succeeds.** -/
theorem ensures_writeItem_of_room (hnew : v ≠ some payload)
    (hroom : ¬Exhausted p (headerSize + payload.length) t) :
    Ensures p .reliable (p.Secure .reliable anchored fun _ => True) (writeItem p key payload) t img
      (fun _ t' img' => ∃ page entry opened between,
        Written p key payload t img page entry opened between t' img') noError := by
  obtain ⟨hkey, hne, hlength⟩ := hargs
  have hmax : payload.length ≤ maxPayloadLength := Nat.le_trans hlength (Nat.min_le_right _ _)
  have hneeded := Partition.headerSize_add_le hne hlength
  unfold writeItem
  rw [if_pos ⟨hkey, hne, hlength⟩]
  have hfind : Peeks p (find p key) t img _ fun _ _ => False := peeks_find hu h hsettled
  refine (hfind.ensures.mono (fun _ _ _ hpost => hpost) fun _ _ _ hfail => hfail.1).bind ?_
  rintro old _ img ⟨⟨rfl, rfl, hbeheld⟩, rfl⟩
  rw [if_neg hnew]
  refine ((ensures_selectPage hu h hneeded).mono (fun _ _ _ hpost => hpost)
    fun _ _ _ hfail => hroom hfail.2.1).bind ?_
  intro page opened between hselected
  obtain ⟨entry, hentry, hactive, hused⟩ := hselected.room
  have hcleared : Cleared (p.live img) key old (p.live between) := by
    rw [hselected.live_eq]
    exact ⟨hbeheld.stored, hsettled, hbeheld.found, fun _ _ => id, fun _ _ hsole => hsole.copy⟩
  refine (ensures_store hu hselected.mirrors hcleared hnew hkey hne hmax hentry hactive hused
    fun _ _ _ => trivial).mono ?_ fun _ _ _ hfail => hfail
  rintro _ t' img' ⟨hmirrors, hupdate, hstowed, hcopy⟩
  exact ⟨page, entry, opened, between, hselected, hentry, hactive, hmirrors, hupdate, hstowed, hcopy⟩

end RingStore.Engine
