import RingStore.Proofs.Engine.Logic
import RingStore.Proofs.Steps

/-!
# Runs without a refused access

`FlashM.Succeeds` says where a program ends if all of its accesses are granted, whatever the geometry of
the chip and whatever becomes of later accesses.  A granted access has only one effect, so this is a
recursion on the program that follows a single path.

What a write programs does not depend on the granularity of the chip, since it is padded with ones.  The
page that is written to has to lie where the bus reaches it.

## Main statements

* `Flash.run_of_succeeds`: so ends a run on a flash that has granted all accesses.
* `Partition.succeeds_writeContent`, `Partition.succeeds_erasePage`: what granted accesses to a page do.
-/

namespace RingStore

/-- The access was granted. -/
def Step.isGranted {σ : Type} : Step σ → Bool
  | ⟨.read _ _, bytes?, _⟩ => Option.isSome bytes?
  | ⟨.write _ _, granted, _⟩ => granted
  | ⟨.erase _ _, granted, _⟩ => granted

/-! ## Programs of accesses -/

namespace FlashM

variable {α β : Type} {cells : Cells}

/-- If all accesses are granted, the program ends in a postcondition. -/
def Succeeds : FlashM α → Cells → (α → Cells → Prop) → Prop
  | done a, cells, post => post a cells
  | request (.read start length) next, cells, post =>
    (next (some (cells.slice start.toNat length))).Succeeds cells post
  | request (.write start bytes) next, cells, post =>
    (next true).Succeeds (cells.program start.toNat bytes) post
  | request (.erase start stop) next, cells, post =>
    start ≤ stop → (next true).Succeeds (cells.erase start.toNat (stop.toNat - start.toNat)) post

theorem succeeds_bind {x : FlashM α} {f : α → FlashM β} {post : β → Cells → Prop} :
    (x >>= f).Succeeds cells post ↔
      x.Succeeds cells fun a after => (f a).Succeeds after post := by
  induction x generalizing cells with
  | done a => rfl
  | request access next ih =>
    cases access with
    | read start length => exact ih _
    | write start bytes => exact ih _
    | erase start stop => exact imp_congr_right fun _ => ih _

theorem Succeeds.mono {x : FlashM α} {post post' : α → Cells → Prop} (h : x.Succeeds cells post)
    (hpost : ∀ a after, post a after → post' a after) : x.Succeeds cells post' := by
  induction x generalizing cells with
  | done a => exact hpost a cells h
  | request access next ih =>
    cases access with
    | read start length => exact ih _ h
    | write start bytes => exact ih _ h
    | erase start stop => exact fun hle => ih _ (h hle)

end FlashM

namespace Flash

variable {flash : Flash} {start stop : UInt32} {length : Nat} {bytes : Bytes}

theorem device_read_granted (h : (device (.read start length) flash).1.isSome = true) :
    (device (.read start length) flash).1 = some (flash.cells.slice start.toNat length) ∧
      (device (.read start length) flash).2.cells = flash.cells := by
  have hresponds := responds_device flash.follows_tearing (.read start length)
  generalize device (.read start length) flash = answered at h hresponds
  obtain ⟨_ | bytes, after⟩ := answered
  · cases h
  · exact ⟨congrArg some hresponds.2.1, hresponds.2.2⟩

theorem device_write_granted (h : (device (.write start bytes) flash).1 = true) :
    (device (.write start bytes) flash).2.cells = flash.cells.program start.toNat bytes := by
  have hresponds := responds_device flash.follows_tearing (.write start bytes)
  rw [h] at hresponds
  exact hresponds.2

theorem device_erase_granted (h : (device (.erase start stop) flash).1 = true) :
    start ≤ stop ∧ (device (.erase start stop) flash).2.cells =
      flash.cells.erase start.toNat (stop.toNat - start.toNat) := by
  have hresponds := responds_device flash.follows_tearing (.erase start stop)
  rw [h] at hresponds
  refine ⟨?_, hresponds.2⟩
  by_contra hle
  have hrange : ¬(start ≤ stop ∧ stop.toNat ≤ flash.cells.size) := fun hrange => hle hrange.1
  simp only [device, if_neg hrange] at h
  cases h

/-- **A run on a flash that has granted all accesses ends as it should.** -/
theorem run_of_succeeds {α : Type} {x : FlashM α} {post : α → Cells → Prop}
    (h : x.Succeeds flash.cells post)
    (hgranted : ∀ step ∈ x.steps device flash, step.isGranted = true) :
    post (x.run device flash).1 (x.run device flash).2.cells := by
  induction x generalizing flash with
  | done a => exact h
  | request access next ih =>
    obtain ⟨hfirst, hrest⟩ := List.forall_mem_cons.mp hgranted
    have hnext : (next (device access flash).1).Succeeds (device access flash).2.cells post := by
      cases access with
      | read start length =>
        obtain ⟨hanswer, hcells⟩ := device_read_granted hfirst
        rw [hanswer, hcells]
        exact h
      | write start bytes =>
        have hanswer : (device (.write start bytes) flash).1 = true := hfirst
        rw [hanswer, device_write_granted hanswer]
        exact h
      | erase start stop =>
        have hanswer : (device (.erase start stop) flash).1 = true := hfirst
        obtain ⟨hle, hcells⟩ := device_erase_granted hanswer
        rw [hanswer, hcells]
        exact h hle
    exact ih _ hnext hrest

end Flash

namespace AccessM

variable {α β : Type} {cells : Cells}

/-- If all accesses are granted, the program of accesses does not fail and ends in a postcondition. -/
def Succeeds (x : AccessM α) (cells : Cells) (post : α → Cells → Prop) : Prop :=
  x.run.Succeeds cells fun result after => ∃ a, result = .ok a ∧ post a after

theorem succeeds_pure {a : α} {post : α → Cells → Prop} (h : post a cells) :
    Succeeds (pure a) cells post := ⟨a, rfl, h⟩

theorem Succeeds.bind {x : AccessM α} {f : α → AccessM β} {mid : α → Cells → Prop}
    {post : β → Cells → Prop} (hx : Succeeds x cells mid)
    (hf : ∀ a after, mid a after → Succeeds (f a) after post) : Succeeds (x >>= f) cells post := by
  rw [Succeeds, ExceptT.run_bind, FlashM.succeeds_bind]
  refine FlashM.Succeeds.mono hx ?_
  rintro _ after ⟨a, rfl, hmid⟩
  exact hf a after hmid

theorem Succeeds.mono {x : AccessM α} {post post' : α → Cells → Prop} (hx : Succeeds x cells post)
    (hpost : ∀ a after, post a after → post' a after) : Succeeds x cells post' := by
  refine FlashM.Succeeds.mono hx ?_
  rintro _ after ⟨a, rfl, h⟩
  exact ⟨a, rfl, hpost a after h⟩

theorem succeeds_forM {f : β → AccessM Unit} (motive : List β → Cells → Prop) {bs : List β}
    (hstep : ∀ b rest cells, motive (b :: rest) cells →
      Succeeds (f b) cells fun _ after => motive rest after)
    (h : motive bs cells) : Succeeds (bs.forM f) cells fun _ after => motive [] after := by
  induction bs generalizing cells with
  | nil => exact succeeds_pure h
  | cons b rest ih => exact (hstep b rest cells h).bind fun _ _ hrest => ih hrest

theorem succeeds_ofGrant {access : FlashM Bool} {post : Cells → Prop}
    (h : access.Succeeds cells fun granted after => granted = true ∧ post after) :
    Succeeds (ofGrant access) cells fun _ after => post after := by
  rw [Succeeds, Partition.run_ofGrant, FlashM.succeeds_bind]
  refine h.mono ?_
  rintro _ after ⟨rfl, hpost⟩
  exact ⟨(), rfl, hpost⟩

end AccessM

/-! ## Pages within the reach of the bus -/

namespace Partition

open AccessM

variable {p : Partition} {page offset position : Nat} {bytes : Bytes} {cells : Cells}

theorem succeeds_writePadded (h : position < 2 ^ 32) :
    (p.chip.writePadded position bytes).Succeeds cells fun granted after =>
      granted = true ∧ after = cells.program position bytes := by
  have hposition := Chip.toNat_busAddress h
  have hlower := alignDown_le position p.chip.writeSize
  rw [Chip.writePadded_eq _ _ hposition]
  refine ⟨rfl, ?_⟩
  rw [Chip.toNat_busAddress (Nat.lt_of_le_of_lt hlower h)]
  exact Cells.program_congr fun i => Chip.byteAt_padded bytes i hlower

/-- The page ends where the bus reaches. -/
def Reachable (p : Partition) (page : Nat) : Prop := p.pageAddress page + p.pageSize ≤ 2 ^ 32

theorem succeeds_writeContent (hreach : p.Reachable page)
    (h : offset + bytes.length ≤ p.contentSize) :
    Succeeds (p.writeContent page offset bytes) cells fun _ after =>
      after = cells.program (p.contentAddress page offset) bytes := by
  rw [writeContent, if_neg (by omega)]
  split
  · next hnil =>
    subst hnil
    exact succeeds_pure rfl
  · next hne =>
    have hend : p.contentAddress page (offset + bytes.length) ≤ p.pageAddress page + p.pageSize :=
      contentAddress_add_le h
    have hpos : 0 < bytes.length := List.length_pos_iff.mpr hne
    have hlt : p.contentAddress page offset < 2 ^ 32 := by
      rw [contentAddress] at hend ⊢
      rw [Reachable] at hreach
      omega
    exact succeeds_ofGrant (succeeds_writePadded hlt)

theorem succeeds_writeStatus (hreach : p.Reachable page) (status : PageStatus) :
    Succeeds (p.writeStatus page status) cells fun _ after =>
      after = cells.program (p.pageAddress page) [status.toByte] := by
  have hlt : p.pageAddress page < 2 ^ 32 :=
    Nat.lt_of_lt_of_le (Nat.lt_add_of_pos_right p.pageSize_pos) hreach
  exact succeeds_ofGrant (succeeds_writePadded hlt)

/-- A page that ends at the last address cannot be erased, since its end does not fit on the bus. -/
theorem succeeds_erasePage (hreach : p.Reachable page) :
    Succeeds (p.erasePage page) cells fun _ after =>
      after = cells.erase (p.pageAddress page) p.pageSize := by
  have hpos := p.pageSize_pos
  have hmax : p.pageSize ≤ 0xFFFF := p.pageSize_le
  rw [Reachable] at hreach
  have hstart : (Chip.busAddress (p.pageAddress page)).toNat = p.pageAddress page :=
    Chip.toNat_busAddress (by omega)
  refine succeeds_ofGrant fun hle => ⟨rfl, ?_⟩
  rcases Nat.lt_or_eq_of_le hreach with hlt | heq
  · rw [hstart, Chip.toNat_busAddress hlt, Nat.add_sub_cancel_left]
  · have hstop : (Chip.busAddress (p.pageAddress page + p.pageSize)).toNat = 0 := by
      rw [heq]
      rfl
    have hzero := UInt32.le_iff_toNat_le.mp hle
    rw [hstart, hstop] at hzero
    omega

end Partition

/-! ## Engine programs -/

namespace EngineM

open Engine

variable {α β : Type} {t : Table} {cells : Cells}

/-- If all accesses are granted, the engine program does not fail and ends in a postcondition. -/
def Succeeds (x : EngineM α) (t : Table) (cells : Cells) (post : α → Table → Cells → Prop) : Prop :=
  (x.run.run t).Succeeds cells fun result after => ∃ a, result.1 = .ok a ∧ post a result.2 after

theorem succeeds_pure {a : α} {post : α → Table → Cells → Prop} (h : post a t cells) :
    Succeeds (pure a) t cells post := ⟨a, rfl, h⟩

theorem Succeeds.bind {x : EngineM α} {f : α → EngineM β} {mid : α → Table → Cells → Prop}
    {post : β → Table → Cells → Prop} (hx : Succeeds x t cells mid)
    (hf : ∀ a t' after, mid a t' after → Succeeds (f a) t' after post) :
    Succeeds (x >>= f) t cells post := by
  rw [Succeeds, run_bind, FlashM.succeeds_bind]
  refine FlashM.Succeeds.mono hx ?_
  rintro ⟨_, t'⟩ after ⟨a, rfl, hmid⟩
  exact hf a t' after hmid

theorem succeeds_perform_bind {x : AccessM α} {f : α → EngineM β} {mid : α → Cells → Prop}
    {post : β → Table → Cells → Prop} (hx : AccessM.Succeeds x cells mid)
    (hf : ∀ a after, mid a after → Succeeds (f a) t after post) :
    Succeeds (perform x >>= f) t cells post := by
  have hperform : Succeeds (perform x) t cells fun a t' after => t' = t ∧ mid a after := by
    show (x.run >>= fun result => pure (result, t)).Succeeds _ _
    rw [FlashM.succeeds_bind]
    refine FlashM.Succeeds.mono hx ?_
    rintro _ after ⟨a, rfl, hmid⟩
    exact ⟨a, rfl, rfl, hmid⟩
  refine hperform.bind ?_
  rintro a _ after ⟨rfl, hmid⟩
  exact hf a after hmid

theorem succeeds_pageAt_bind {page : Nat} {entry : Page} {f : Page → EngineM α}
    {post : α → Table → Cells → Prop} (hentry : t.pages[page]? = some entry)
    (h : Succeeds (f entry) t cells post) : Succeeds (pageAt page >>= f) t cells post := by
  rw [Succeeds, run_pageAt_bind f hentry]
  exact h

theorem succeeds_modify {g : Table → Table} {post : PUnit → Table → Cells → Prop}
    (h : post ⟨⟩ (g t) cells) : Succeeds (modify g) t cells post := ⟨⟨⟩, rfl, h⟩

theorem succeeds_modify_bind {g : Table → Table} {f : PUnit → EngineM α}
    {post : α → Table → Cells → Prop} (h : Succeeds (f ⟨⟩) (g t) cells post) :
    Succeeds (modify g >>= f) t cells post := h

end EngineM

end RingStore
