import RingStore.Flash.Program

/-!
# Devices

A device answers accesses and keeps a state of its own.  Running a program on a device asks it for
each access in turn.

## Main statements

* `FlashM.run_bind`: running two programs in sequence is running the first one and then the second.
-/

namespace RingStore

/-- A device with states `σ` answers every access and moves to its next state. -/
def Device (σ : Type) : Type := (access : Access) → σ → access.Answer × σ

namespace FlashM

variable {α β σ : Type}

/-- Runs a program on a device. -/
def run (device : Device σ) : FlashM α → σ → α × σ
  | done a, s => (a, s)
  | request access next, s =>
    match device access s with
    | (answer, s) => (next answer).run device s

@[simp] theorem run_pure (device : Device σ) (a : α) (s : σ) :
    (pure a : FlashM α).run device s = (a, s) := rfl

theorem run_bind (device : Device σ) (x : FlashM α) (f : α → FlashM β) (s : σ) :
    (x >>= f).run device s = (f (x.run device s).1).run device (x.run device s).2 := by
  induction x generalizing s with
  | done a => rfl
  | request access next ih => exact ih _ _

end FlashM

end RingStore
