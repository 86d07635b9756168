import RingStore.Engine.Boot
import RingStore.Proofs.Requests

/-!
# Accesses byte by byte

`Chip.fine` is a chip with the same blocks, the same capacity and the same checksum that is read and
programmed byte by byte.  An access that is widened to the granularities of a chip gives the store what
the access of just these bytes gives it on a fine chip, and does to the cells what that one does, as long
as a refused access has no effect.

`FlashM.Agrees` says that of whole programs: on such a flash both end with related results, and the flash
passes through the same states.

## Main statements

* `Partition.takes_readWidened`, `Partition.takes_writePadded`: a widened access has the effect of the one
  that was asked for, which does not depend on the granularities.
* `Partition.agrees_loadPage`: nor does the scan of a page.
-/

namespace RingStore

/-! ## Fine chips -/

/-- The chip, read and programmed byte by byte. -/
def Chip.fine (chip : Chip) : Chip := { chip with readSize := 1, writeSize := 1 }

namespace Partition

/-- The partition on a chip that is read and programmed byte by byte. -/
def fine (p : Partition) : Partition := { p with chip := p.chip.fine }

theorem fine_contentSize (p : Partition) : p.fine.contentSize = p.contentSize := rfl

theorem fine_maxPayload (p : Partition) : p.fine.maxPayload = p.maxPayload := rfl

theorem fine_checksum (p : Partition) : p.fine.chip.checksum = p.chip.checksum := rfl

theorem Usable.fine {p : Partition} (hu : p.Usable) : p.fine.Usable :=
  ⟨Nat.one_dvd _, Nat.one_dvd _, hu.end_lt⟩

end Partition

/-! ## Single accesses -/

namespace Flash

variable {α : Type} {flash : Flash}

/-- The flash does not refuse the next access. -/
def grants (flash : Flash) : Bool :=
  match flash.fates 0 with
  | .granted => true
  | .refused _ _ | .split _ _ => false

theorem device_read {start : UInt32} {length : Nat}
    (h : start.toNat + length ≤ flash.cells.size) :
    device (.read start length) flash =
      (if flash.grants then some (flash.cells.slice start.toNat length) else none,
        flash.next flash.cells) := by
  simp only [device]
  split
  · next heq =>
    rw [if_pos h, grants, heq]
    rfl
  all_goals
    next heq =>
      rw [grants, heq]
      rfl

theorem device_write {start : UInt32} {bytes : Bytes} (hflash : flash.Follows .refusing)
    (h : start.toNat + bytes.length ≤ flash.cells.size) :
    device (.write start bytes) flash =
      (flash.grants,
        flash.next (if flash.grants then flash.cells.program start.toNat bytes else flash.cells)) := by
  have hfate := hflash 0
  simp only [device, if_pos h]
  split
  · next heq =>
    rw [grants, heq]
    rfl
  · next skipped count heq =>
    rw [heq] at hfate
    obtain rfl : count = 0 := hfate.2 (by decide)
    rw [grants, heq]
    rfl
  · next skipped count heq =>
    rw [heq] at hfate
    obtain rfl : count = 0 := hfate.2 (by simp [Conduct.SplitsWrites])
    rw [grants, heq]
    rfl

/-- The program asks for a single access, which leaves the flash in this state. -/
def Takes (flash : Flash) (x : FlashM α) (result : α) (after : Flash) : Prop :=
  x.run device flash = (result, after) ∧ x.visited device flash = [after]

theorem takes_request {access : Access} {answer : access.Answer} {after : Flash}
    (h : device access flash = (answer, after)) (g : access.Answer → α) :
    flash.Takes (.request access fun answer => .done (g answer)) (g answer) after := by
  rw [Takes, FlashM.run, FlashM.visited, h]
  exact ⟨rfl, rfl⟩

end Flash

namespace Partition

variable {p : Partition} {page position length : Nat} {bytes : Bytes} {flash : Flash}

/-- **A widened read gives the bytes that were asked for**, if it is not refused. -/
theorem takes_readWidened (hu : p.Usable) (hspan : p.Spans position length)
    (hfits : p.base + p.size ≤ flash.cells.size) :
    flash.Takes (p.chip.readWidened position length)
      (if flash.grants then some (flash.cells.slice position length) else none)
      (flash.next flash.cells) := by
  have hposition := hspan.toNat_busAddress hu
  obtain ⟨page, hpage, hlow, hhigh⟩ := hspan
  obtain ⟨-, hlower, hupper, hupper', hend⟩ := widened_bounds hu hu.readSize_dvd hpage hlow
    (Nat.le_add_right position length) hhigh
  have hlast := p.pageAddress_add_le_end hpage
  rw [Chip.readWidened_eq _ _ hposition]
  generalize alignDown position p.chip.readSize = lower at hlower
  generalize alignUp (position + length) p.chip.readSize = upper at hupper hupper'
  have hlow' : (Chip.busAddress lower).toNat = lower := Chip.toNat_busAddress (by omega)
  have hcells : (Chip.busAddress lower).toNat + (upper - lower) ≤ flash.cells.size := by omega
  have hdevice := Flash.takes_request (Flash.device_read hcells) fun answer =>
    answer.map fun bytes => (bytes.drop (position - lower)).take length
  have hbytes : ((flash.cells.slice lower (upper - lower)).drop (position - lower)).take length =
      flash.cells.slice position length := by
    rw [Cells.take_drop_slice _ (by omega), Nat.add_sub_cancel' hlower]
  rw [hlow'] at hdevice
  cases hgrants : flash.grants with
  | true => simpa [hgrants, hbytes] using hdevice
  | false => simpa [hgrants] using hdevice

/-- **A padded write programs the bytes that it was asked for**, if it is not refused. -/
theorem takes_writePadded (hu : p.Usable) (hspan : p.Spans position bytes.length)
    (hflash : flash.Follows .refusing) (hfits : p.base + p.size ≤ flash.cells.size) :
    flash.Takes (p.chip.writePadded position bytes) flash.grants
      (flash.next (if flash.grants then flash.cells.program position bytes else flash.cells)) := by
  have hposition := hspan.toNat_busAddress hu
  obtain ⟨page, hpage, hlow, hhigh⟩ := hspan
  obtain ⟨-, hlower, hupper, hupper', hend⟩ := widened_bounds hu hu.writeSize_dvd hpage hlow
    (Nat.le_add_right position bytes.length) hhigh
  have hlast := p.pageAddress_add_le_end hpage
  have hprogram : flash.cells.program (alignDown position p.chip.writeSize)
      (p.chip.padded position bytes) = flash.cells.program position bytes :=
    Cells.program_congr fun i => Chip.byteAt_padded bytes i hlower
  have hlow' : (Chip.busAddress (alignDown position p.chip.writeSize)).toNat =
      alignDown position p.chip.writeSize := Chip.toNat_busAddress (by omega)
  have hlength : (p.chip.padded position bytes).length =
      alignUp (position + bytes.length) p.chip.writeSize -
        alignDown position p.chip.writeSize := by
    simp only [Chip.padded, List.length_append, List.length_replicate]
    omega
  have hcells : (Chip.busAddress (alignDown position p.chip.writeSize)).toNat +
      (p.chip.padded position bytes).length ≤ flash.cells.size := by omega
  have hdevice := Flash.takes_request (Flash.device_write hflash hcells) id
  rw [hlow', hprogram] at hdevice
  rw [Chip.writePadded_eq _ _ hposition]
  exact hdevice

end Partition

/-! ## Programs -/

namespace FlashM

variable {α β γ δ : Type} {p : Partition} {rel : α → β → Prop}

/-- On a flash that holds the partition and whose refused accesses have no effect, the programs end with
related results, and the flash passes through the same states. -/
def Agrees (p : Partition) (rel : α → β → Prop) (x : FlashM α) (y : FlashM β) : Prop :=
  ∀ flash : Flash, flash.Follows .refusing → p.base + p.size ≤ flash.cells.size →
    rel (x.run Flash.device flash).1 (y.run Flash.device flash).1 ∧
      (x.run Flash.device flash).2 = (y.run Flash.device flash).2 ∧
      x.visited Flash.device flash = y.visited Flash.device flash

theorem agrees_pure {a : α} {b : β} (h : rel a b) : Agrees p rel (pure a) (pure b) :=
  fun _ _ _ => ⟨h, rfl, rfl⟩

theorem agrees_self {rel : α → α → Prop} (x : FlashM α) (h : ∀ a, rel a a) : Agrees p rel x x :=
  fun _ _ _ => ⟨h _, rfl, rfl⟩

theorem Agrees.bind {x : FlashM α} {y : FlashM β} {f : α → FlashM γ} {g : β → FlashM δ}
    {post : γ → δ → Prop} (h : Agrees p rel x y)
    (hnext : ∀ a b, rel a b → Agrees p post (f a) (g b)) : Agrees p post (x >>= f) (y >>= g) := by
  intro flash hflash hfits
  obtain ⟨hrel, hlast, hvisited⟩ := h flash hflash hfits
  obtain ⟨hsize, hfollows, -⟩ := Flash.run_of_always hflash (always_size x flash.cells)
  obtain ⟨hpost, hlast', hvisited'⟩ := hnext _ _ hrel _ hfollows (hsize ▸ hfits)
  rw [run_bind, run_bind, visited_bind, visited_bind, ← hlast, ← hvisited, ← hvisited']
  exact ⟨hpost, hlast', rfl⟩

/-- Programs that ask for a single access with the same effect. -/
theorem agrees_of_takes {x y : FlashM α} (result : Flash → α) (after : Flash → Flash)
    (hx : ∀ flash : Flash, flash.Follows .refusing → p.base + p.size ≤ flash.cells.size →
      flash.Takes x (result flash) (after flash))
    (hy : ∀ flash : Flash, flash.Follows .refusing → p.base + p.size ≤ flash.cells.size →
      flash.Takes y (result flash) (after flash)) : Agrees p Eq x y := by
  intro flash hflash hfits
  obtain ⟨hrun, hvisited⟩ := hx flash hflash hfits
  obtain ⟨hrun', hvisited'⟩ := hy flash hflash hfits
  rw [hrun, hrun', hvisited, hvisited']
  exact ⟨rfl, rfl, rfl⟩

end FlashM

/-! ## Programs of accesses -/

namespace AccessM

variable {α β : Type} {p : Partition}

/-- The programs end in the same way, and the flash passes through the same states. -/
def Agrees (p : Partition) (x y : AccessM α) : Prop := FlashM.Agrees p Eq x.run y.run

theorem agrees_self (x : AccessM α) : Agrees p x x := FlashM.agrees_self _ fun _ => rfl

theorem Agrees.bind {x y : AccessM α} {f g : α → AccessM β} (h : Agrees p x y)
    (hnext : ∀ a, Agrees p (f a) (g a)) : Agrees p (x >>= f) (y >>= g) := by
  rw [Agrees, ExceptT.run_bind, ExceptT.run_bind]
  refine FlashM.Agrees.bind h ?_
  rintro (error | a) _ rfl
  · exact FlashM.agrees_pure rfl
  · exact hnext a

theorem agrees_forM {f g : β → AccessM Unit} (h : ∀ b, Agrees p (f b) (g b)) (bs : List β) :
    Agrees p (bs.forM f) (bs.forM g) := by
  induction bs with
  | nil => exact agrees_self _
  | cons b rest ih => exact (h b).bind fun _ => ih

theorem agrees_ofBytes {x y : FlashM (Option Bytes)} (h : FlashM.Agrees p Eq x y) :
    Agrees p (ofBytes x) (ofBytes y) := by
  rw [Agrees, Partition.run_ofBytes, Partition.run_ofBytes]
  refine h.bind ?_
  rintro answer _ rfl
  exact FlashM.agrees_self _ fun _ => rfl

theorem agrees_ofGrant {x y : FlashM Bool} (h : FlashM.Agrees p Eq x y) :
    Agrees p (ofGrant x) (ofGrant y) := by
  rw [Agrees, Partition.run_ofGrant, Partition.run_ofGrant]
  refine h.bind ?_
  rintro granted _ rfl
  exact FlashM.agrees_self _ fun _ => rfl

end AccessM

namespace Partition

open AccessM

variable {p : Partition} {page offset position length : Nat} {bytes : Bytes}

theorem agrees_readWidened (hu : p.Usable) (hspan : p.Spans position length) :
    FlashM.Agrees p Eq (p.chip.readWidened position length)
      (p.fine.chip.readWidened position length) :=
  FlashM.agrees_of_takes _ _ (fun _ _ hfits => takes_readWidened hu hspan hfits)
    fun _ _ hfits => takes_readWidened hu.fine hspan hfits

theorem agrees_writePadded (hu : p.Usable) (hspan : p.Spans position bytes.length) :
    FlashM.Agrees p Eq (p.chip.writePadded position bytes)
      (p.fine.chip.writePadded position bytes) :=
  FlashM.agrees_of_takes _ _ (fun _ hflash hfits => takes_writePadded hu hspan hflash hfits)
    fun _ hflash hfits => takes_writePadded hu.fine hspan hflash hfits

variable (hu : p.Usable) (hpage : page < p.pageCount)

include hu hpage

theorem agrees_readPage : Agrees p (p.readPage page) (p.fine.readPage page) :=
  agrees_ofBytes (agrees_readWidened hu (spans_page hpage))

theorem agrees_readContent (offset length : Nat) :
    Agrees p (p.readContent page offset length) (p.fine.readContent page offset length) := by
  rw [readContent, readContent, fine_contentSize]
  split
  · exact agrees_self _
  · next hfits =>
    split
    · exact agrees_self _
    · exact agrees_ofBytes
        (agrees_readWidened hu (spans_content hpage (Nat.le_of_not_lt hfits)))

theorem agrees_writeContent (offset : Nat) (bytes : Bytes) :
    Agrees p (p.writeContent page offset bytes) (p.fine.writeContent page offset bytes) := by
  rw [writeContent, writeContent, fine_contentSize]
  split
  · exact agrees_self _
  · next hfits =>
    split
    · exact agrees_self _
    · exact agrees_ofGrant
        (agrees_writePadded hu (spans_content hpage (Nat.le_of_not_lt hfits)))

theorem agrees_writeTombstone (offset : Nat) :
    Agrees p (p.writeTombstone page offset) (p.fine.writeTombstone page offset) :=
  agrees_writeContent hu hpage _ _

theorem agrees_writeStatus (status : PageStatus) :
    Agrees p (p.writeStatus page status) (p.fine.writeStatus page status) :=
  agrees_ofGrant (agrees_writePadded hu
    ⟨page, hpage, Nat.le_refl _, Nat.add_le_add_left p.pageSize_pos _⟩)

/-! ## The scan of a page -/

theorem agrees_advanceIf (due : Bool) (status : PageStatus) (kind : PageKind) :
    Agrees p (p.advanceIf page due status kind) (p.fine.advanceIf page due status kind) := by
  unfold advanceIf
  split
  · exact (agrees_writeStatus hu hpage _).bind fun _ => agrees_self _
  · exact agrees_self _

theorem agrees_recoverPage (status : PageStatus) (content : Bytes) :
    Agrees p (p.recoverPage page status content) (p.fine.recoverPage page status content) :=
  (agrees_forM (agrees_writeTombstone hu hpage) _).bind fun _ =>
    (agrees_advanceIf hu hpage _ _ _).bind fun _ =>
      (agrees_advanceIf hu hpage _ _ _).bind fun _ => agrees_self _

theorem agrees_finishErase (status : PageStatus) :
    Agrees p (p.finishErase page status) (p.fine.finishErase page status) := by
  refine (agrees_self (p.erasePage page)).bind fun _ => ?_
  split
  · exact agrees_writeStatus hu hpage status
  · exact agrees_self _

theorem agrees_settlePage (status : PageStatus) (content : Bytes) :
    Agrees p (p.settlePage page status content) (p.fine.settlePage page status content) := by
  obtain ⟨kind, ringStart⟩ := status
  cases kind with
  | erased =>
    show Agrees p (if isBlank content then _ else _) (if isBlank content then _ else _)
    split
    · exact agrees_self _
    · exact (agrees_finishErase hu hpage _).bind fun _ => agrees_self _
  | unavailable => exact agrees_self _
  | active => exact agrees_recoverPage hu hpage _ content
  | full => exact agrees_recoverPage hu hpage _ content

/-- **The scan of a page** does the same at any granularity. -/
theorem agrees_loadPage : Agrees p (p.loadPage page) (p.fine.loadPage page) := by
  refine (agrees_readPage hu hpage).bind fun bytes => ?_
  split
  · exact agrees_self _
  · split
    · exact agrees_settlePage hu hpage _ _
    · exact agrees_self _

end Partition

end RingStore
