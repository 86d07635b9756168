import RingStore.Proofs.Engine.Logic

/-!
# Runs that come through a state

`FlashM.Meets` says that every run of a program comes through cells of a kind after one of its accesses.
It is the counterpart of the invariants of `FlashM.Always`, and a recursion on the program like that: a
sequence of programs comes through such cells if its first part does, or if its second part does from
wherever the first one ends.

## Main statements

* `FlashM.meets_bind_left`, `FlashM.meets_bind_right`: the two ways of a sequence.
* `EngineM.meets_forM`: a loop comes through such cells at one of its steps.
* `Flash.exists_visited`: what all runs come through is among the states of the run on a flash.
-/

namespace RingStore

variable {α β : Type} {conduct : Conduct}

namespace FlashM

variable {inv goal : Cells → Prop}

/-- Every run of a program comes through cells of a kind after one of its accesses. -/
def Meets (conduct : Conduct) (goal : Cells → Prop) : FlashM α → Cells → Prop
  | done _, _ => False
  | request access next, cells =>
    ∀ answer after, conduct.Responds cells access answer after →
      goal after ∨ (next answer).Meets conduct goal after

theorem meets_bind_left {x : FlashM α} {f : α → FlashM β} {cells : Cells}
    (h : x.Meets conduct goal cells) : (x >>= f).Meets conduct goal cells := by
  induction x generalizing cells with
  | done a => exact h.elim
  | request access next ih =>
    intro answer after hresponds
    exact (h answer after hresponds).imp_right (ih answer)

theorem meets_bind_right {x : FlashM α} {f : α → FlashM β} {cells : Cells} {post : α → Cells → Prop}
    (hx : x.Always conduct inv cells post) (hf : ∀ a after, post a after → (f a).Meets conduct goal after) :
    (x >>= f).Meets conduct goal cells := by
  induction x generalizing cells with
  | done a => exact hf a cells hx
  | request access next ih =>
    intro answer after hresponds
    exact Or.inr (ih answer (hx answer after hresponds).2)

/-- A single access comes through what it ends in. -/
theorem meets_request {access : Access} {f : access.Answer → α} {cells : Cells}
    {post : α → Cells → Prop}
    (h : (request access fun answer => done (f answer)).Always conduct inv cells post)
    (hpost : ∀ a after, post a after → goal after) :
    (request access fun answer => done (f answer)).Meets conduct goal cells := by
  intro answer after hresponds
  exact Or.inl (hpost _ after (h answer after hresponds).2)

end FlashM

namespace Flash

variable {flash : Flash} {x : FlashM α}

/-- **What all runs come through is among the states of the run on a given flash.** -/
theorem exists_visited {goal : Cells → Prop} (hflash : flash.Follows conduct)
    (h : x.Meets conduct goal flash.cells) : ∃ s ∈ x.visited device flash, goal s.cells := by
  induction x generalizing flash with
  | done a => exact h.elim
  | request access next ih =>
    rcases h _ _ (responds_device hflash access) with hgoal | hnext
    · exact ⟨_, List.mem_cons_self, hgoal⟩
    · obtain ⟨s, hs, hgoal⟩ := ih _ (hflash.device access) hnext
      exact ⟨s, List.mem_cons_of_mem _ hs, hgoal⟩

/-- No access changes the size of a flash. -/
theorem size_of_mem_visited {s : Flash} (h : s ∈ x.visited device flash) :
    s.cells.size = flash.cells.size := by
  induction x generalizing flash with
  | done a => cases h
  | request access next ih =>
    have hsize := (responds_device flash.follows_tearing access).size_eq
    rcases List.mem_cons.mp h with rfl | hmem
    · exact hsize
    · exact (ih _ hmem).trans hsize

end Flash

namespace AccessM

variable {p : Partition} {inv goal : Image → Prop} {img : Image}

/-- Every run of a program of accesses comes through an image of a kind. -/
def Meets (p : Partition) (conduct : Conduct) (goal : Image → Prop) (x : AccessM α) (img : Image) :
    Prop :=
  ∀ cells, p.Shows img cells → x.run.Meets conduct (fun c => goal (p.image c)) cells

theorem Meets.bind {x : AccessM α} {f : α → AccessM β} (h : Meets p conduct goal x img) :
    Meets p conduct goal (x >>= f) img := by
  intro cells hshows
  rw [ExceptT.run_bind]
  exact FlashM.meets_bind_left (h cells hshows)

/-- The part of a program that comes after another one, on a flash that refuses no access. -/
theorem Ensures.meets {x : AccessM α} {f : α → AccessM β} {post : α → Image → Prop}
    (hx : Ensures p .reliable inv x img post) (hinv : inv img)
    (hf : ∀ a img', inv img' → post a img' → Meets p .reliable goal (f a) img') :
    Meets p .reliable goal (x >>= f) img := by
  intro cells hshows
  rw [ExceptT.run_bind]
  have hkeep := (hx cells hshows hinv).keep (hshows.image_eq ▸ hinv)
  refine FlashM.meets_bind_right hkeep ?_
  rintro (error | a) after ⟨hafter, hsize, hpost⟩
  · exact absurd rfl hpost.2
  · exact hf a _ hafter hpost after ⟨hsize ▸ hshows.end_le, rfl⟩

end AccessM

namespace EngineM

open Engine

variable {p : Partition} {inv goal : Image → Prop} {t : Table} {img : Image}

/-- Every run of an engine program comes through an image of a kind. -/
def Meets (p : Partition) (conduct : Conduct) (goal : Image → Prop) (x : EngineM α) (t : Table)
    (img : Image) : Prop :=
  ∀ cells, p.Shows img cells → (x.run.run t).Meets conduct (fun c => goal (p.image c)) cells

theorem Meets.bind {x : EngineM α} {f : α → EngineM β} (h : Meets p conduct goal x t img) :
    Meets p conduct goal (x >>= f) t img := by
  intro cells hshows
  rw [run_bind]
  exact FlashM.meets_bind_left (h cells hshows)

theorem Ensures.meets {x : EngineM α} {f : α → EngineM β} {post : Post α}
    (hx : Ensures p .reliable inv x t img post noError) (hinv : inv img)
    (hf : ∀ a t' img', inv img' → post a t' img' → Meets p .reliable goal (f a) t' img') :
    Meets p .reliable goal (x >>= f) t img := by
  intro cells hshows
  rw [run_bind]
  have hkeep := (hx cells hshows hinv).keep (hshows.image_eq ▸ hinv)
  refine FlashM.meets_bind_right hkeep ?_
  rintro ⟨error | a, t'⟩ after ⟨hafter, hsize, hpost⟩
  · exact absurd rfl (hpost.resolve_right id).2
  · exact hf a t' _ hafter hpost after ⟨hsize ▸ hshows.end_le, rfl⟩

theorem meets_perform {x : AccessM α} (h : AccessM.Meets p conduct goal x img) :
    Meets p conduct goal (perform x) t img := by
  intro cells hshows
  exact FlashM.meets_bind_left (h cells hshows)

theorem meets_modify_bind {g : Table → Table} {f : PUnit → EngineM α}
    (h : Meets p conduct goal (f ⟨⟩) (g t) img) : Meets p conduct goal (modify g >>= f) t img := h

/-- **A loop comes through an image of a kind at one of its steps**, if the steps before it end where
that one begins. -/
theorem meets_forM {f : β → EngineM Unit} (motive : List β → Table → Image → Prop) {bs : List β}
    {target : β}
    (hstep : ∀ b ∈ bs, b ≠ target → ∀ rest t img, motive (b :: rest) t img →
      Ensures p .reliable inv (f b) t img (fun _ t' img' => motive rest t' img') noError)
    (hmeets : ∀ rest t img, motive (target :: rest) t img → Meets p .reliable goal (f target) t img)
    (hmem : target ∈ bs) (h : motive bs t img) (hinv : inv img) :
    Meets p .reliable goal (bs.forM f) t img := by
  induction bs generalizing t img with
  | nil => cases hmem
  | cons b rest ih =>
    obtain ⟨hb, hrest⟩ := List.forall_mem_cons.mp hstep
    by_cases heq : b = target
    · subst heq
      exact (hmeets rest t img h).bind
    · refine (hb heq rest t img h).meets hinv fun _ t' img' hinv' hafter => ?_
      exact ih hrest ((List.mem_cons.mp hmem).resolve_left fun hsame => heq hsame.symm) hafter hinv'

end EngineM

end RingStore
