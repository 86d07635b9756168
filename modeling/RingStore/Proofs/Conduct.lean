import RingStore.Flash.Cells
import RingStore.Flash.Device

/-!
# Runs on a flash that may refuse accesses

A flash may refuse accesses, and a write or erase that is refused may still take effect on a part of
its range.  `Conduct` says how far that goes, and `Conduct.Responds` gives for every access the answers
and the cells that may follow.  `FlashM.Always` is the statement that all runs of a program on such a
flash end well and keep an invariant after every access; it is a recursion on the program, so it is
proved along the program.

A `Flash` is a device with such a conduct: what becomes of its accesses is fixed beforehand by an
arbitrary sequence of fates.

## Main statements

* `FlashM.always_bind`: a sequence of programs is treated one program after the other.
* `Flash.run_of_always`: what holds of all runs holds of the run on every `Flash` of that conduct.
-/

namespace RingStore

/-- How far the accesses of a flash may go wrong. -/
inductive Conduct where
  /-- Every access within the array succeeds. -/
  | reliable
  /-- An access may be refused; then it has no effect. -/
  | refusing
  /-- A refused write may still take effect on a part of its range, a refused erase has no effect. -/
  | splitting
  /-- A refused write or erase may still take effect on a part of its range. -/
  | tearing
  deriving DecidableEq

namespace Conduct

/-- A refused erase may take effect on so many bytes. -/
def MayTear (conduct : Conduct) (count : Nat) : Prop := conduct ≠ .tearing → count = 0

/-- Refused writes may take effect on a part of their range. -/
def SplitsWrites (conduct : Conduct) : Prop := conduct = .splitting ∨ conduct = .tearing

/-- A refused write may take effect on so many bytes. -/
def MaySplit (conduct : Conduct) (count : Nat) : Prop := ¬conduct.SplitsWrites → count = 0

theorem MayTear.maySplit {conduct : Conduct} {count : Nat} (h : conduct.MayTear count) :
    conduct.MaySplit count := fun hnot => h fun heq => hnot (Or.inr heq)

theorem ne_tearing {conduct : Conduct} (h : conduct = .splitting) : conduct ≠ .tearing := by
  rw [h]
  nofun

/-- The answers that a flash may give to an access, and the cells it may leave behind. -/
def Responds (conduct : Conduct) (cells : Cells) : (access : Access) → access.Answer → Cells → Prop
  | .read start length, some bytes, after =>
    start.toNat + length ≤ cells.size ∧ bytes = cells.slice start.toNat length ∧ after = cells
  | .read start length, none, after =>
    (conduct = .reliable → cells.size < start.toNat + length) ∧ after = cells
  | .write start bytes, true, after =>
    start.toNat + bytes.length ≤ cells.size ∧ after = cells.program start.toNat bytes
  | .write start bytes, false, after =>
    (conduct = .reliable → cells.size < start.toNat + bytes.length) ∧
      ∃ skipped count, conduct.MaySplit count ∧
        after = cells.program (start.toNat + skipped) ((bytes.drop skipped).take count)
  | .erase start stop, true, after =>
    stop.toNat ≤ cells.size ∧ after = cells.erase start.toNat (stop.toNat - start.toNat)
  | .erase start stop, false, after =>
    (conduct = .reliable → stop < start ∨ cells.size < stop.toNat) ∧
      ∃ skipped count, conduct.MayTear count ∧ skipped + count ≤ stop.toNat - start.toNat ∧
        after = cells.erase (start.toNat + skipped) count

theorem Responds.size_eq {conduct : Conduct} {cells after : Cells} {access : Access}
    {answer : access.Answer} (h : conduct.Responds cells access answer after) :
    after.size = cells.size := by
  cases access with
  | read start length =>
    cases answer with
    | none => rw [h.2]
    | some bytes => rw [h.2.2]
  | write start bytes =>
    cases answer with
    | true => rw [h.2, Cells.size_program]
    | false =>
      obtain ⟨-, skipped, count, -, rfl⟩ := h
      exact Cells.size_program _ _ _
  | erase start stop =>
    cases answer with
    | true => rw [h.2, Cells.size_erase]
    | false =>
      obtain ⟨-, skipped, count, -, -, rfl⟩ := h
      exact Cells.size_erase _ _ _

end Conduct

/-! ## All runs of a program -/

namespace FlashM

variable {α β : Type} {conduct : Conduct} {inv inv' : Cells → Prop}

/-- Every run of a program keeps an invariant after each access and ends in a postcondition. -/
def Always (conduct : Conduct) (inv : Cells → Prop) :
    FlashM α → Cells → (α → Cells → Prop) → Prop
  | done a, cells, post => post a cells
  | request access next, cells, post =>
    ∀ answer after, conduct.Responds cells access answer after →
      inv after ∧ (next answer).Always conduct inv after post

theorem always_bind {x : FlashM α} {f : α → FlashM β} {cells : Cells} {post : β → Cells → Prop} :
    (x >>= f).Always conduct inv cells post ↔
      x.Always conduct inv cells fun a after => (f a).Always conduct inv after post := by
  induction x generalizing cells with
  | done a => rfl
  | request access next ih =>
    simp only [request_bind, Always, ih]

theorem Always.mono {x : FlashM α} {cells : Cells} {post post' : α → Cells → Prop}
    (h : x.Always conduct inv cells post) (hinv : ∀ c, inv c → inv' c)
    (hpost : ∀ a c, post a c → post' a c) : x.Always conduct inv' cells post' := by
  induction x generalizing cells with
  | done a => exact hpost a cells h
  | request access next ih =>
    intro answer after hresponds
    obtain ⟨hafter, hnext⟩ := h answer after hresponds
    exact ⟨hinv after hafter, ih answer hnext⟩

/-- What holds at the end of all runs may be shown one part at a time. -/
theorem Always.and {x : FlashM α} {cells : Cells} {post post' : α → Cells → Prop}
    (h : x.Always conduct inv cells post) (h' : x.Always conduct inv' cells post') :
    x.Always conduct inv cells fun a after => post a after ∧ post' a after := by
  induction x generalizing cells with
  | done a => exact ⟨h, h'⟩
  | request access next ih =>
    intro answer after hresponds
    obtain ⟨hafter, hnext⟩ := h answer after hresponds
    exact ⟨hafter, ih answer hnext (h' answer after hresponds).2⟩

/-- The invariant holds at the end, and the flash keeps its size. -/
theorem Always.keep {x : FlashM α} {cells : Cells} {post : α → Cells → Prop}
    (h : x.Always conduct inv cells post) (hcells : inv cells) :
    x.Always conduct inv cells fun a after =>
      inv after ∧ after.size = cells.size ∧ post a after := by
  induction x generalizing cells with
  | done a => exact ⟨hcells, rfl, h⟩
  | request access next ih =>
    intro answer after hresponds
    obtain ⟨hafter, hnext⟩ := h answer after hresponds
    refine ⟨hafter, (ih answer hnext hafter).mono (fun _ hc => hc) ?_⟩
    rintro a c ⟨hc, hsize, hpost⟩
    exact ⟨hc, hsize.trans hresponds.size_eq, hpost⟩

/-- A program keeps the size of the flash, whatever it does. -/
theorem always_size (x : FlashM α) (cells : Cells) :
    x.Always conduct (fun _ => True) cells fun _ after => after.size = cells.size := by
  have htrue : x.Always conduct (fun _ => True) cells fun _ _ => True := by
    induction x generalizing cells with
    | done a => trivial
    | request access next ih => exact fun answer after _ => ⟨trivial, ih answer after⟩
  exact (htrue.keep trivial).mono (fun _ h => h) fun _ _ h => h.2.1

/-- The states of a device after each access of a run. -/
def visited {σ : Type} (device : Device σ) : FlashM α → σ → List σ
  | done _, _ => []
  | request access next, s =>
    (device access s).2 :: (next (device access s).1).visited device (device access s).2

theorem visited_bind {σ : Type} {device : Device σ} (x : FlashM α) (f : α → FlashM β) (s : σ) :
    (x >>= f).visited device s =
      x.visited device s ++ (f (x.run device s).1).visited device (x.run device s).2 := by
  induction x generalizing s with
  | done a => rfl
  | request access next ih => exact congrArg (_ :: ·) (ih _ _)

end FlashM

/-! ## A flash with given fates -/

/-- What becomes of an access. -/
inductive Fate where
  /-- It succeeds if it lies within the array. -/
  | granted
  /-- It is refused.  A write or erase still takes effect on `count` bytes of its range, behind the
  first `skipped` ones. -/
  | refused (skipped count : Nat)
  /-- It is refused.  A write still takes effect on `count` bytes of its range, an erase on none. -/
  | split (skipped count : Nat)

/-- The fates that a conduct allows. -/
def Conduct.Allows (conduct : Conduct) : Fate → Prop
  | .granted => True
  | .refused _ count => conduct ≠ .reliable ∧ conduct.MayTear count
  | .split _ count => conduct ≠ .reliable ∧ conduct.MaySplit count

/-- A flash whose accesses have their fates fixed beforehand. -/
structure Flash where
  cells : Cells
  /-- The fates of all accesses to come. -/
  fates : Nat → Fate

namespace Flash

/-- The flash after an access. -/
def next (flash : Flash) (cells : Cells) : Flash := ⟨cells, fun n => flash.fates (n + 1)⟩

/-- A flash as a device. -/
def device : Device Flash
  | .read start length, flash =>
    match flash.fates 0 with
    | .granted =>
      if start.toNat + length ≤ flash.cells.size then
        (some (flash.cells.slice start.toNat length), flash.next flash.cells)
      else (none, flash.next flash.cells)
    | .refused _ _ | .split _ _ => (none, flash.next flash.cells)
  | .write start bytes, flash =>
    if start.toNat + bytes.length ≤ flash.cells.size then
      match flash.fates 0 with
      | .granted => (true, flash.next (flash.cells.program start.toNat bytes))
      | .refused skipped count | .split skipped count =>
        (false, flash.next
          (flash.cells.program (start.toNat + skipped) ((bytes.drop skipped).take count)))
    else (false, flash.next flash.cells)
  | .erase start stop, flash =>
    let length := stop.toNat - start.toNat
    if start ≤ stop ∧ stop.toNat ≤ flash.cells.size then
      match flash.fates 0 with
      | .granted => (true, flash.next (flash.cells.erase start.toNat length))
      | .refused skipped count =>
        (false, flash.next
          (flash.cells.erase (start.toNat + skipped) (min count (length - skipped))))
      | .split _ _ => (false, flash.next flash.cells)
    else (false, flash.next flash.cells)

/-- A flash that refuses no access. -/
def steady (cells : Cells) : Flash := ⟨cells, fun _ => .granted⟩

/-- The fates of a flash are ones that a conduct allows. -/
def Follows (flash : Flash) (conduct : Conduct) : Prop := ∀ n, conduct.Allows (flash.fates n)

variable {conduct : Conduct} {flash : Flash}

theorem follows_tearing (flash : Flash) : flash.Follows .tearing := by
  intro n
  cases flash.fates n with
  | granted => trivial
  | refused skipped count => exact ⟨nofun, fun hnot => absurd rfl hnot⟩
  | split skipped count => exact ⟨nofun, fun hnot => absurd (Or.inr rfl) hnot⟩

theorem Follows.next (h : flash.Follows conduct) (cells : Cells) :
    (flash.next cells).Follows conduct := fun n => h (n + 1)

theorem Follows.device (h : flash.Follows conduct) (access : Access) :
    (device access flash).2.Follows conduct := by
  cases access <;> simp only [Flash.device] <;> repeat' split
  all_goals exact h.next _

/-- A flash answers as its conduct says. -/
theorem responds_device (h : flash.Follows conduct) (access : Access) :
    conduct.Responds flash.cells access (device access flash).1 (device access flash).2.cells := by
  have hfate := h 0
  cases access with
  | read start length =>
    simp only [device]
    split
    · split
      · next hsize => exact ⟨hsize, rfl, rfl⟩
      · next hsize => exact ⟨fun _ => by omega, rfl⟩
    all_goals
      next heq =>
        rw [heq] at hfate
        exact ⟨fun hreliable => absurd hreliable hfate.1, rfl⟩
  | write start bytes =>
    simp only [device]
    split
    · next hsize =>
      split
      · exact ⟨hsize, rfl⟩
      · next skipped count heq =>
        rw [heq] at hfate
        exact ⟨fun hreliable => absurd hreliable hfate.1, skipped, count, hfate.2.maySplit, rfl⟩
      · next skipped count heq =>
        rw [heq] at hfate
        exact ⟨fun hreliable => absurd hreliable hfate.1, skipped, count, hfate.2, rfl⟩
    · next hsize => exact ⟨fun _ => by omega, 0, 0, fun _ => rfl, rfl⟩
  | erase start stop =>
    simp only [device]
    split
    · next hrange =>
      split
      · exact ⟨hrange.2, rfl⟩
      · next skipped count heq =>
        rw [heq] at hfate
        refine ⟨fun hreliable => absurd hreliable hfate.1, ?_⟩
        -- A part that begins behind the range is empty.
        by_cases hskipped : skipped ≤ stop.toNat - start.toNat
        · refine ⟨skipped, _, fun htear => ?_, by omega, rfl⟩
          rw [hfate.2 htear, Nat.zero_min]
        · refine ⟨0, 0, fun _ => rfl, by omega, ?_⟩
          rw [show stop.toNat - start.toNat - skipped = 0 by omega, Nat.min_zero]
          rfl
      · next heq =>
        rw [heq] at hfate
        exact ⟨fun hreliable => absurd hreliable hfate.1, 0, 0, fun _ => rfl, Nat.zero_le _, rfl⟩
    · next hrange =>
      refine ⟨fun _ => ?_, 0, 0, fun _ => rfl, Nat.zero_le _, rfl⟩
      by_cases hle : start ≤ stop
      · exact Or.inr (by simpa [hle] using hrange)
      · exact Or.inl (UInt32.not_le.mp hle)

/-- **What holds of all runs holds of the run on a given flash.** -/
theorem run_of_always {α : Type} {inv : Cells → Prop} {post : α → Cells → Prop} {x : FlashM α}
    (hflash : flash.Follows conduct) (h : x.Always conduct inv flash.cells post) :
    post (x.run device flash).1 (x.run device flash).2.cells ∧
      (x.run device flash).2.Follows conduct ∧
      ∀ s ∈ x.visited device flash, inv s.cells := by
  induction x generalizing flash with
  | done a => exact ⟨h, hflash, by simp [FlashM.visited]⟩
  | request access next ih =>
    obtain ⟨hinv, hnext⟩ := h _ _ (responds_device hflash access)
    obtain ⟨hpost, hfollows, hvisited⟩ := ih _ (hflash.device access) hnext
    refine ⟨hpost, hfollows, fun s hs => ?_⟩
    rcases List.mem_cons.mp hs with rfl | hmem
    · exact hinv
    · exact hvisited s hmem

end Flash

end RingStore
