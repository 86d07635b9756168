import RingStore.Engine.Boot
import RingStore.Proofs.Engine.Logic

/-!
# A flash that ends within the partition

A chip may claim a larger capacity than its array has.  Where the array ends before the partition does,
the last page cannot be read, so no scan succeeds.

## Main statements

* `Engine.fails_load`: a scan of such a flash does not succeed.
-/

namespace RingStore

variable {p : Partition} {conduct : Conduct} {size : Nat} {α β : Type}

/-- A program succeeds on no flash of the given size. -/
def EngineM.Fails (conduct : Conduct) (size : Nat) (x : EngineM α) : Prop :=
  ∀ t cells, Array.size cells = size →
    (x.run.run t).Always conduct (fun _ => True) cells fun result _ => ∀ a, result.1 ≠ .ok a

namespace EngineM

theorem fails_bind_left {x : EngineM α} {f : α → EngineM β} (h : Fails conduct size x) :
    Fails conduct size (x >>= f) := by
  intro t cells hsize
  rw [run_bind, FlashM.always_bind]
  refine (h t cells hsize).mono (fun _ hc => hc) ?_
  rintro ⟨error | a, t'⟩ after hnot
  · exact nofun
  · exact absurd rfl (hnot a)

theorem fails_bind_right {x : EngineM α} {f : α → EngineM β} (h : ∀ a, Fails conduct size (f a)) :
    Fails conduct size (x >>= f) := by
  intro t cells hsize
  rw [run_bind, FlashM.always_bind]
  refine (FlashM.always_size _ cells).mono (fun _ hc => hc) ?_
  rintro ⟨error | a, t'⟩ after hafter
  · exact nofun
  · exact h a t' after (hafter.trans hsize)

end EngineM

namespace Partition

/-- The last page of a partition lies beyond the end of a flash that is too small. -/
theorem always_readPage_of_short (hu : p.Usable) {cells : Cells}
    (hshort : cells.size < p.base + p.size) :
    (p.readPage (p.pageCount - 1)).run.Always conduct (fun _ => True) cells fun result _ =>
      ∀ bytes, result ≠ .ok bytes := by
  have hpos := p.pageCount_pos
  have hlast : p.pageAddress (p.pageCount - 1) + p.pageSize = p.base + p.size := by
    have hmul : (p.pageCount - 1 + 1) * p.pageSize = p.pageCount * p.pageSize := by
      rw [Nat.sub_add_cancel hpos]
    rw [Nat.add_mul, Nat.one_mul] at hmul
    rw [pageAddress, size]
    omega
  rw [readPage, run_ofBytes, FlashM.always_bind]
  refine always_readWidened hu (Nat.sub_lt hpos Nat.one_pos) (Nat.le_refl _) (Nat.le_refl _) trivial
    (fun hle => ?_) fun _ bytes hbytes => by cases hbytes
  omega

theorem fails_loadNext (hu : p.Usable) (hshort : size < p.base + p.size) :
    EngineM.Fails conduct size (Engine.loadNext p (p.pageCount - 1)) := by
  refine EngineM.fails_bind_left fun t cells hsize => ?_
  show FlashM.Always _ _ ((p.loadPage _).run >>= fun result => pure (result, t)) _ _
  rw [FlashM.always_bind, loadPage, ExceptT.run_bind, FlashM.always_bind]
  refine (always_readPage_of_short hu (hsize ▸ hshort)).mono (fun _ hc => hc) ?_
  rintro (error | bytes) after hnot
  · exact nofun
  · exact absurd rfl (hnot bytes)

end Partition

namespace Engine

open RingStore.Partition EngineM

/-- **A flash that ends within the partition is not scanned.** -/
theorem fails_load (hu : p.Usable) (hshort : size < p.base + p.size) :
    Fails conduct size (load p) := by
  have hrange : List.range p.pageCount = List.range (p.pageCount - 1) ++ [p.pageCount - 1] := by
    rw [← List.range_succ, Nat.succ_eq_add_one, Nat.sub_add_cancel p.pageCount_pos]
  unfold load
  refine fails_bind_right fun _ => fails_bind_left ?_
  show Fails _ _ (forM (List.range p.pageCount) (loadNext p))
  rw [hrange, List.forM_append]
  refine fails_bind_right fun _ => ?_
  rw [List.forM_cons]
  exact fails_bind_left (fails_loadNext hu hshort)

end Engine

end RingStore
