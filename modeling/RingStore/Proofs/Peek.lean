import RingStore.Proofs.Access

/-!
# Programs that only look at the flash

A program peeks at some cells if all of its accesses there are reads within the array.  Such a program
leaves the flash as it is, whatever else it does, and on a flash that refuses no access its result
depends on the cells alone.

## Main statements

* `FlashM.Peeks.always`: on a reliable flash such a program ends well, and no cell has changed.
* `Partition.peeks_readPage`, `Partition.peeks_readContent`: what a read gives.
-/

namespace RingStore

namespace FlashM

variable {α β : Type} {cells : Cells}

/-- All accesses of a program are reads within the array, and it ends in a postcondition. -/
def Peeks (cells : Cells) : FlashM α → (α → Prop) → Prop
  | done a, post => post a
  | request (.read start length) next, post =>
    start.toNat + length ≤ cells.size ∧
      (next (some (cells.slice start.toNat length))).Peeks cells post
  | request (.write _ _) _, _ => False
  | request (.erase _ _) _, _ => False

theorem peeks_bind {x : FlashM α} {f : α → FlashM β} {post : β → Prop} :
    (x >>= f).Peeks cells post ↔ x.Peeks cells fun a => (f a).Peeks cells post := by
  induction x with
  | done a => rfl
  | request access next ih =>
    cases access with
    | read start length => exact and_congr_right' (ih _)
    | write start bytes => rfl
    | erase start stop => rfl

theorem Peeks.mono {x : FlashM α} {post post' : α → Prop} (h : x.Peeks cells post)
    (hpost : ∀ a, post a → post' a) : x.Peeks cells post' := by
  induction x with
  | done a => exact hpost a h
  | request access next ih =>
    cases access with
    | read start length => exact ⟨h.1, ih _ h.2⟩
    | write start bytes => exact h
    | erase start stop => exact h

/-- **A program that peeks leaves the cells as they are.** -/
theorem Peeks.always {x : FlashM α} {inv : Cells → Prop} {post : α → Prop}
    (h : x.Peeks cells post) (hinv : inv cells) :
    x.Always .reliable inv cells fun a after => post a ∧ after = cells := by
  induction x with
  | done a => exact ⟨h, rfl⟩
  | request access next ih =>
    cases access with
    | read start length =>
      rintro (_ | bytes) after hresponds
      · obtain ⟨hrefused, -⟩ := hresponds
        exact absurd (hrefused rfl) (Nat.not_lt.mpr h.1)
      · obtain ⟨-, rfl, rfl⟩ := hresponds
        exact ⟨hinv, ih _ h.2⟩
    | write start bytes => exact h.elim
    | erase start stop => exact h.elim

end FlashM

/-! ## Accesses -/

namespace AccessM

variable {α β : Type} {p : Partition} {img : Image}

/-- A program of accesses peeks at a flash that shows an image, and succeeds. -/
def Peeks (p : Partition) (x : AccessM α) (img : Image) (post : α → Prop) : Prop :=
  ∀ cells, p.Shows img cells → x.run.Peeks cells fun result => ∃ a, result = .ok a ∧ post a

theorem peeks_pure {a : α} {post : α → Prop} (h : post a) : Peeks p (pure a) img post :=
  fun _ _ => ⟨a, rfl, h⟩

theorem Peeks.bind {x : AccessM α} {f : α → AccessM β} {mid : α → Prop} {post : β → Prop}
    (hx : Peeks p x img mid) (hf : ∀ a, mid a → Peeks p (f a) img post) :
    Peeks p (x >>= f) img post := by
  intro cells hshows
  rw [ExceptT.run_bind, FlashM.peeks_bind]
  refine (hx cells hshows).mono ?_
  rintro _ ⟨a, rfl, hmid⟩
  exact hf a hmid cells hshows

end AccessM

namespace Partition

open AccessM

variable {p : Partition} {img : Image} {page offset position : Nat}

theorem peeks_readWidened (hu : p.Usable) (hpage : page < p.pageCount) {cells : Cells} {length : Nat}
    (hlow : p.pageAddress page ≤ position)
    (hhigh : position + length ≤ p.pageAddress page + p.pageSize)
    (hcells : p.base + p.size ≤ cells.size) :
    (p.chip.readWidened position length).Peeks cells
      (· = some (cells.slice position length)) := by
  obtain ⟨-, hlower, hupper, hupper', hend⟩ := widened_bounds hu hu.readSize_dvd hpage hlow
    (Nat.le_add_right position length) hhigh
  have hposition : (Chip.busAddress position).toNat = position :=
    Chip.toNat_busAddress (by omega)
  have hlast := p.pageAddress_add_le_end hpage
  rw [Chip.readWidened_eq _ _ hposition]
  generalize alignDown position p.chip.readSize = lower at hlower
  generalize alignUp (position + length) p.chip.readSize = upper at hupper hupper'
  have hlow' : (Chip.busAddress lower).toNat = lower := Chip.toNat_busAddress (by omega)
  refine ⟨by omega, ?_⟩
  show some (((cells.slice (Chip.busAddress lower).toNat (upper - lower)).drop
    (position - lower)).take length) = _
  rw [hlow', Cells.take_drop_slice _ (by omega), Nat.add_sub_cancel' hlower]

theorem peeks_ofBytes {access : FlashM (Option Bytes)} {post : Bytes → Prop}
    (h : ∀ cells, p.Shows img cells → access.Peeks cells fun answer =>
      ∃ bytes, answer = some bytes ∧ post bytes) :
    Peeks p (ofBytes access) img post := by
  intro cells hshows
  rw [run_ofBytes, FlashM.peeks_bind]
  refine (h cells hshows).mono ?_
  rintro _ ⟨bytes, rfl, hpost⟩
  exact ⟨bytes, rfl, hpost⟩

theorem peeks_readContent (hu : p.Usable) (hpage : page < p.pageCount) {length : Nat}
    (h : offset + length ≤ p.contentSize) :
    Peeks p (p.readContent page offset length) img
      (· = ((img.content page).drop offset).take length) := by
  rw [readContent, if_neg (by omega)]
  split
  · next hzero =>
    rw [hzero]
    exact peeks_pure rfl
  · refine peeks_ofBytes fun cells hshows => ?_
    have haddress : p.contentAddress page (offset + length) ≤
      p.pageAddress page + p.pageSize := contentAddress_add_le h
    have hlow : p.pageAddress page ≤ p.contentAddress page offset := by
      rw [contentAddress]
      omega
    refine (peeks_readWidened hu hpage hlow ?_ hshows.end_le).mono ?_
    · rw [contentAddress] at haddress ⊢
      omega
    · rintro _ rfl
      refine ⟨_, rfl, ?_⟩
      rw [← hshows.image_eq, image, Cells.take_drop_slice _ h]
      rfl

theorem peeks_readPage (hu : p.Usable) (hpage : page < p.pageCount) :
    Peeks p (p.readPage page) img fun bytes => ∃ byte, bytes = byte :: img.content page ∧
      PageStatus.ofByte? byte = img.status page := by
  refine peeks_ofBytes fun cells hshows => ?_
  refine (peeks_readWidened hu hpage (Nat.le_refl _) (Nat.le_refl _) hshows.end_le).mono ?_
  rintro _ rfl
  rw [← hshows.image_eq]
  exact ⟨_, rfl, slice_page hpage hshows.end_le⟩

end Partition

end RingStore
