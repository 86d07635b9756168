import RingStore.Proofs.Peek

/-!
# Programs that do not look at the flash

A program is blind if none of its accesses is a read.  On a reliable flash such a program does the same
wherever it runs: where two flashes of one size agree before it, they agree afterwards.  So what it does
to one of them is known from what it does to the other.

## Main statements

* `FlashM.Blind.always_beside`: a blind program on a flash beside another one.
-/

namespace RingStore

variable {α β : Type}

namespace FlashM

/-- No access of a program is a read. -/
def Blind : FlashM α → Prop
  | done _ => True
  | request (.read _ _) _ => False
  | request (.write _ _) next => ∀ answer, (next answer).Blind
  | request (.erase _ _) next => ∀ answer, (next answer).Blind

theorem blind_bind {x : FlashM α} {f : α → FlashM β} (hx : x.Blind) (hf : ∀ a, (f a).Blind) :
    (x >>= f).Blind := by
  induction x with
  | done a => exact hf a
  | request access next ih =>
    cases access with
    | read start length => exact hx.elim
    | write start bytes => exact fun answer => ih answer (hx answer)
    | erase start stop => exact fun answer => ih answer (hx answer)

variable {cells beside after : Cells} {inv : Cells → Prop} {post : α → Cells → Prop}

/-- Where two flashes agree before a write, they agree after it. -/
theorem responds_write_beside (hsize : cells.size = beside.size) {start : UInt32} {bytes : Bytes}
    {answer : Bool} (h : Conduct.Responds .reliable cells (.write start bytes) answer after) :
    ∃ after' : Cells, Conduct.Responds .reliable beside (.write start bytes) answer after' ∧
      ∀ i : Nat, cells[i]? = beside[i]? → after[i]? = after'[i]? := by
  cases answer with
  | true =>
    obtain ⟨hroom, rfl⟩ := h
    refine ⟨_, ⟨hsize ▸ hroom, rfl⟩, fun i hi => ?_⟩
    rw [Cells.getElem?_program, Cells.getElem?_program, hi]
  | false =>
    obtain ⟨hrefused, skipped, count, hsplit, rfl⟩ := h
    have hzero : count = 0 := hsplit nofun
    subst hzero
    exact ⟨beside, ⟨hsize ▸ hrefused, 0, 0, fun _ => rfl, rfl⟩, fun i hi => hi⟩

/-- Where two flashes agree before an erase, they agree after it. -/
theorem responds_erase_beside (hsize : cells.size = beside.size) {start stop : UInt32} {answer : Bool}
    (h : Conduct.Responds .reliable cells (.erase start stop) answer after) :
    ∃ after' : Cells, Conduct.Responds .reliable beside (.erase start stop) answer after' ∧
      ∀ i : Nat, cells[i]? = beside[i]? → after[i]? = after'[i]? := by
  cases answer with
  | true =>
    obtain ⟨hroom, rfl⟩ := h
    refine ⟨_, ⟨hsize ▸ hroom, rfl⟩, fun i hi => ?_⟩
    rw [Cells.getElem?_erase, Cells.getElem?_erase, hi]
  | false =>
    obtain ⟨hrefused, skipped, count, htear, -, rfl⟩ := h
    have hzero : count = 0 := htear nofun
    subst hzero
    exact ⟨beside, ⟨hsize ▸ hrefused, 0, 0, fun _ => rfl, Nat.zero_le _, rfl⟩, fun i hi => hi⟩

/-- **A blind program does the same on every flash**: where two of them agree before it, they agree after
it. -/
theorem Blind.always_beside {x : FlashM α} (hx : x.Blind) (hsize : cells.size = beside.size)
    (h : x.Always .reliable inv beside post) :
    x.Always .reliable (fun _ => True) cells fun a after => ∃ after' : Cells, post a after' ∧
      after.size = after'.size ∧ ∀ i : Nat, cells[i]? = beside[i]? → after[i]? = after'[i]? := by
  induction x generalizing cells beside with
  | done a => exact ⟨beside, h, hsize, fun _ hi => hi⟩
  | request access next ih =>
    -- After the first access the flashes agree where they did, and the program goes on.
    have hnext : ∀ answer (after after' : Cells), (next answer).Blind →
        Conduct.Responds .reliable cells access answer after →
        Conduct.Responds .reliable beside access answer after' →
        (∀ i : Nat, cells[i]? = beside[i]? → after[i]? = after'[i]?) →
        (next answer).Always .reliable (fun _ => True) after fun a last => ∃ last' : Cells, post a last' ∧
          last.size = last'.size ∧ ∀ i : Nat, cells[i]? = beside[i]? → last[i]? = last'[i]? := by
      intro answer after after' hblind hresponds hresponds' hagree
      have hsize' : after.size = after'.size := by rw [hresponds.size_eq, hresponds'.size_eq, hsize]
      refine (ih answer hblind hsize' (h answer after' hresponds').2).mono (fun _ hc => hc) ?_
      rintro a last ⟨last', hpost, hlast, hsame⟩
      exact ⟨last', hpost, hlast, fun i hi => hsame i (hagree i hi)⟩
    cases access with
    | read start length => exact hx.elim
    | write start bytes =>
      intro answer after hresponds
      obtain ⟨after', hresponds', hagree⟩ := responds_write_beside hsize hresponds
      exact ⟨trivial, hnext answer after after' (hx answer) hresponds hresponds' hagree⟩
    | erase start stop =>
      intro answer after hresponds
      obtain ⟨after', hresponds', hagree⟩ := responds_erase_beside hsize hresponds
      exact ⟨trivial, hnext answer after after' (hx answer) hresponds hresponds' hagree⟩

end FlashM

/-! ## Accesses -/

namespace Partition

variable {p : Partition} {page offset : Nat}

theorem blind_ofGrant {access : FlashM Bool} (h : access.Blind) :
    (AccessM.ofGrant access).run.Blind := by
  rw [run_ofGrant]
  refine FlashM.blind_bind h fun granted => ?_
  split <;> trivial

theorem blind_writeStatus (status : PageStatus) : (p.writeStatus page status).run.Blind :=
  blind_ofGrant fun _ => trivial

theorem blind_erasePage : (p.erasePage page).run.Blind := blind_ofGrant fun _ => trivial

theorem blind_writeContent (bytes : Bytes) : (p.writeContent page offset bytes).run.Blind := by
  unfold writeContent
  split
  · trivial
  · split
    · trivial
    · exact blind_ofGrant fun _ => trivial

end Partition

end RingStore
