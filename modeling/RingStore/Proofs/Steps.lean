import RingStore.Proofs.Conduct

/-!
# Runs access by access

`FlashM.steps` lists the accesses of a run with their answers and the states of the device behind them.

`FlashM.Abides` says that every access of every run passes a check.  It is a recursion on the program
like `FlashM.Always`, but for any set of answers that a device may give: a check sees the access and its
answer, and the answers need not be those of a flash.

## Main statements

* `FlashM.abides_bind`: a sequence of programs is treated one program after the other.
* `FlashM.run_of_abides`: what is checked of all runs holds of every step of the run on a device.
* `FlashM.Abides.always`: where the check of a write or erase keeps an invariant, all runs keep it.
-/

namespace RingStore

/-- An access of a run, its answer, and the state of the device afterwards. -/
structure Step (σ : Type) where
  access : Access
  answer : access.Answer
  after : σ

/-- The answers that a device may give, and the cells it may leave behind. -/
abbrev Reaction := Cells → (access : Access) → access.Answer → Cells → Prop

/-- A condition on an access, its answer and the cells afterwards. -/
abbrev Check := (access : Access) → access.Answer → Cells → Prop

namespace FlashM

variable {α β σ : Type} {device : Device σ} {reaction : Reaction} {check : Check}

/-- The accesses of a run, first one first. -/
def steps (device : Device σ) : FlashM α → σ → List (Step σ)
  | done _, _ => []
  | request access next, s =>
    ⟨access, (device access s).1, (device access s).2⟩ ::
      (next (device access s).1).steps device (device access s).2

theorem steps_bind (x : FlashM α) (f : α → FlashM β) (s : σ) :
    (x >>= f).steps device s =
      x.steps device s ++ (f (x.run device s).1).steps device (x.run device s).2 := by
  induction x generalizing s with
  | done a => rfl
  | request access next ih => exact congrArg (_ :: ·) (ih _ _)

/-- Every access of every run passes a check, and every run ends in a postcondition. -/
def Abides (reaction : Reaction) (check : Check) :
    FlashM α → Cells → (α → Cells → Prop) → Prop
  | done a, cells, post => post a cells
  | request access next, cells, post =>
    ∀ answer after, reaction cells access answer after →
      check access answer after ∧ (next answer).Abides reaction check after post

theorem abides_bind {x : FlashM α} {f : α → FlashM β} {cells : Cells} {post : β → Cells → Prop} :
    (x >>= f).Abides reaction check cells post ↔
      x.Abides reaction check cells fun a after => (f a).Abides reaction check after post := by
  induction x generalizing cells with
  | done a => rfl
  | request access next ih => simp only [request_bind, Abides, ih]

theorem Abides.mono {x : FlashM α} {cells : Cells} {post post' : α → Cells → Prop}
    (h : x.Abides reaction check cells post) (hpost : ∀ a c, post a c → post' a c) :
    x.Abides reaction check cells post' := by
  induction x generalizing cells with
  | done a => exact hpost a cells h
  | request access next ih =>
    intro answer after hreaction
    obtain ⟨hcheck, hnext⟩ := h answer after hreaction
    exact ⟨hcheck, ih answer hnext⟩

/-- What a flash ensures at the end of all runs may be used where the device is one. -/
theorem Abides.and_always {x : FlashM α} {cells : Cells} {conduct : Conduct} {inv : Cells → Prop}
    {post post' : α → Cells → Prop} {lawful : Prop}
    (hresponds : ∀ cells access answer after, reaction cells access answer after → lawful →
      conduct.Responds cells access answer after)
    (h : x.Abides reaction check cells post)
    (halways : lawful → x.Always conduct inv cells post') :
    x.Abides reaction check cells fun a after => post a after ∧ (lawful → post' a after) := by
  induction x generalizing cells with
  | done a => exact ⟨h, halways⟩
  | request access next ih =>
    intro answer after hreaction
    obtain ⟨hcheck, hnext⟩ := h answer after hreaction
    exact ⟨hcheck, ih answer hnext fun hlawful =>
      (halways hlawful answer after (hresponds _ _ _ _ hreaction hlawful)).2⟩

/-- If an access that passes the check keeps an invariant, every run keeps it. -/
theorem Abides.always {x : FlashM α} {cells : Cells} {conduct : Conduct} {inv : Cells → Prop}
    {post : α → Cells → Prop}
    (hreaction : ∀ cells access answer after, conduct.Responds cells access answer after →
      reaction cells access answer after)
    (hkeep : ∀ cells access answer after, inv cells → conduct.Responds cells access answer after →
      check access answer after → inv after)
    (h : x.Abides reaction check cells post) (hinv : inv cells) :
    x.Always conduct inv cells post := by
  induction x generalizing cells with
  | done a => exact h
  | request access next ih =>
    intro answer after hresponds
    obtain ⟨hcheck, hnext⟩ := h answer after (hreaction _ _ _ _ hresponds)
    have hafter := hkeep _ _ _ _ hinv hresponds hcheck
    exact ⟨hafter, ih answer hnext hafter⟩

/-- **What is checked of all runs holds of every step of the run on a device.** -/
theorem run_of_abides (shown : σ → Cells)
    (hdevice : ∀ access s,
      reaction (shown s) access (device access s).1 (shown (device access s).2))
    {x : FlashM α} {s : σ} {post : α → Cells → Prop} (h : x.Abides reaction check (shown s) post) :
    post (x.run device s).1 (shown (x.run device s).2) ∧
      ∀ step ∈ x.steps device s, check step.access step.answer (shown step.after) := by
  induction x generalizing s with
  | done a => exact ⟨h, by simp [steps]⟩
  | request access next ih =>
    obtain ⟨hcheck, hnext⟩ := h _ _ (hdevice access s)
    obtain ⟨hpost, hsteps⟩ := ih _ hnext
    refine ⟨hpost, fun step hstep => ?_⟩
    rcases List.mem_cons.mp hstep with rfl | hmem
    · exact hcheck
    · exact hsteps step hmem

end FlashM

end RingStore
