import RingStore.Proofs.OutOfSpace

/-!
# The space that removals give back

Once no key has a value, no page is full, since a full page holds live records.  So every page but the
active one can be opened, and a write of any length finds room if there is a second page.

A partition of a single page has no other page to open.  As long as its page is active, the bytes of
dropped records stay taken, and a write that does not fit behind them finds no space although nothing
is stored.

## Main statements

* `Engine.exhausted_iff_spent`: without live records, only a single active page may leave no room.
* `Session.written_of_empty`: when a write succeeds after all keys were removed.
* `Session.spent_page_refuses`: a single page may refuse a write although nothing is stored.
-/

namespace RingStore

variable {p : Partition} {key : UInt16} {payload : Bytes}

/-- The only page is active and has too few bytes left, whatever of the others is still live. -/
def Engine.Spent (p : Partition) (needed : Nat) (t : Table) : Prop :=
  p.pageCount = 1 ∧ ∃ entry, t.pages[0]? = some entry ∧ entry.kind = .active ∧
    p.contentSize < entry.used + needed

/-- **Without live records, only a single active page may leave no room.** -/
theorem Engine.exhausted_iff_spent {t : Table} {img : Image} {needed : Nat} (h : t.Mirrors p img)
    (hempty : Contents.empty.Represented (p.live img)) : Exhausted p needed t ↔ Spent p needed t := by
  have hnil : ∀ page, p.live img page = [] := by
    intro page
    refine List.eq_nil_iff_forall_not_mem.mpr fun e he => ?_
    exact (hempty e.2.header.key).stored page e ⟨he, rfl⟩
  constructor
  · intro hexhausted
    have hle : p.pageCount ≤ (∅ : Finset UInt16).card + 1 :=
      hempty.pageCount_le h hexhausted fun key hkey => absurd rfl hkey
    have hone : p.pageCount = 1 := Nat.le_antisymm hle p.pageCount_pos
    obtain ⟨entry, hentry⟩ := Table.exists_entry (show 0 < t.count by rw [h.count_eq, hone]; decide)
    obtain ⟨herased, hunavailable⟩ := hexhausted.used 0 entry hentry
    have hactive : entry.kind = .active := by
      cases hkind : entry.kind with
      | erased => exact absurd hkind herased
      | active => rfl
      | full => exact absurd (hnil 0) (h.live_ne_nil hentry hkind)
      | unavailable => exact absurd hkind hunavailable
    exact ⟨hone, entry, hentry, hactive, hexhausted.cramped 0 entry hentry hactive⟩
  · rintro ⟨hone, entry, hentry, hactive, hcramped⟩
    have honly : ∀ (page : Nat) (e : Page), t.pages[page]? = some e → e = entry := by
      intro page e he
      have hlt : page < 1 := hone ▸ h.count_eq ▸ Table.lt_count he
      rw [Nat.lt_one_iff.mp hlt, hentry] at he
      exact (Option.some.inj he).symm
    refine ⟨fun page e he => ?_, fun page e he _ => ?_⟩
    · rw [honly page e he, hactive]
      decide
    · rw [honly page e he]
      exact hcramped

namespace Session

variable {session : Session} {flash : Flash}

/-- **When no key has a value, every write succeeds if there is a second page.**  In a partition of one
page it succeeds unless the page is active and has too few bytes left. -/
theorem written_of_empty (hu : p.Usable) (hformatted : session.Formatted p flash)
    (hflash : flash.Follows .reliable) {requests : List Request}
    (hrequests : ∀ request ∈ requests, request.Stays) (hargs : Accepts p key payload) :
    let run := (session.serve requests).run Flash.device flash
    let write := (run.1.2.handle (.call (.writeItem key payload))).run Flash.device run.2
    ∃ store m, run.1.2.store = some store ∧
      Trace (Contents.Step p) (some .empty) requests run.1.1 (some m) ∧
      (m = .empty →
        (write.1.1 = .answered (.ok .done) ↔
          ¬Engine.Spent p (headerSize + payload.length) store.table) ∧
        (2 ≤ p.pageCount → write.1.1 = .answered (.ok .done))) := by
  obtain ⟨m, htrace, ⟨store, hkeeps, hsound, hfits, hphase, hm⟩, hfollows⟩ :=
    (hformatted.holds hu).serve hu hflash hrequests
  refine ⟨store, m, hkeeps.store_eq, htrace, ?_⟩
  rintro rfl
  have hspent : Engine.Exhausted p (headerSize + payload.length) store.table ↔ _ :=
    Engine.exhausted_iff_spent (hsound.mirrors hphase) hm
  have hroom := fun hnot => (Flash.run_of_always hfollows (always_write_of_room hu hkeeps hsound hfits
    hphase hm hargs nofun (hspent.not.mpr hnot))).1
  refine ⟨⟨fun hok hnot => ?_, hroom⟩, fun hcount => hroom fun hnot => ?_⟩
  · obtain ⟨hanswer, -⟩ := (Flash.run_of_always hfollows (always_write_of_exhausted hu hkeeps hsound
      hfits hphase hm hargs nofun (hspent.mpr hnot))).1
    have hreply := hok.symm.trans (congrArg Prod.fst hanswer)
    cases hreply
  · have hone := hnot.1
    omega

/-- Two values are written and removed, and a value of full length is written. -/
theorem written_of_empty_small :
    let start := formatting fun _ => .granted
    let requests : List Request := [.call (.writeItem 10 [1, 1, 1]), .call (.writeItem 11 [2]),
      .call (.deleteItem 10), .call (.deleteItem 11)]
    let run := (start.1.2.serve requests).run Flash.device start.2
    let write := (run.1.2.handle (.call (.writeItem 12 [3, 3, 3]))).run Flash.device run.2
    Partition.small.Usable ∧ Formatted .small start.1.2 start.2 ∧ start.2.Follows .reliable ∧
      (∀ request ∈ requests, request.Stays) ∧ Accepts .small 12 [3, 3, 3] ∧
      2 ≤ Partition.small.pageCount ∧
      ∃ store m, run.1.2.store = some store ∧
        Trace (Contents.Step .small) (some .empty) requests run.1.1 (some m) ∧ m = .empty ∧
        (write.1.1 = .answered (.ok .done) ↔
          ¬Engine.Spent .small (headerSize + [3, 3, 3].length) store.table) ∧
        write.1.1 = .answered (.ok .done) := by
  intro start requests run write
  have hformatted : Formatted .small start.1.2 start.2 := formatted_small (by rfl)
  have hflash : start.2.Follows .reliable := follows_formatting fun _ => trivial
  have hrequests : ∀ request ∈ requests, request.Stays := by
    simp [requests, Request.Stays]
  have hargs : Accepts .small 12 [3, 3, 3] := by decide
  obtain ⟨store, m, hstore, htrace, hfreed⟩ :=
    written_of_empty Partition.usable_small hformatted hflash hrequests hargs
  have hempty : m = .empty := by
    generalize run.1.1 = replies at htrace
    dsimp only [requests] at htrace
    rcases htrace with _ | ⟨h₁, _ | ⟨h₂, _ | ⟨h₃, _ | ⟨h₄, _ | _⟩⟩⟩⟩
    obtain ⟨v, rfl⟩ := Contents.exists_of_step_store rfl h₁
    obtain ⟨w, rfl⟩ := Contents.exists_of_step_store rfl h₂
    obtain rfl := Contents.eq_of_step_delete (by decide) h₃
    obtain hlast := Option.some.inj (Contents.eq_of_step_delete (by decide) h₄)
    rw [hlast]
    funext key
    simp only [Function.update_apply, Contents.empty]
    split_ifs <;> rfl
  obtain ⟨hiff, hwrites⟩ := hfreed hempty
  exact ⟨Partition.usable_small, hformatted, hflash, hrequests, hargs, Nat.le_refl 2, store, m, hstore,
    htrace, hempty, hiff, hwrites (Nat.le_refl 2)⟩

end Session

/-! ## A partition of one page -/

/-- **A single page may refuse a write although nothing is stored.**  Two bytes are written and removed
again.  The page stays active with the bytes of the dropped record taken, and a payload of the greatest
length is refused. -/
theorem Session.spent_page_refuses :
    let flash := Partition.lone.erased fun _ => .granted
    let requests : List Request := [.call .init, .call (.writeItem 1 [7, 7]), .call (.deleteItem 1)]
    let run := ((ofPartition .lone).serve requests).run Flash.device flash
    let payload : Bytes := List.replicate 11 9
    let write := (run.1.2.handle (.call (.writeItem 2 payload))).run Flash.device run.2
    Partition.lone.Usable ∧ flash.Follows .reliable ∧
      run.1.1.map Reply.error? = [none, none, none] ∧
      Partition.lone.live (Partition.lone.image run.2.cells) 0 = [] ∧
      Accepts .lone 2 payload ∧ write.1.1.error? = some .outOfSpace :=
  ⟨Partition.usable_lone, fun _ => trivial, by decide +kernel, by decide +kernel, by decide,
    by decide +kernel⟩

end RingStore
