import RingStore.Proofs.Recovery

/-!
# What a torn tombstone leaves

A removal, or a write once its own record is there, drops the old record of its key by clearing the two
bytes of the key.  A reset between the two bytes leaves the record under half of its key, with a checksum
that still fits since it covers the payload only, and another scan takes it for a record of that key.

## Main statements

* `Session.torn_tombstone_read`: the key is read as before or as the operation was to leave it, a half of
  it as before or as the key was, and all other keys as before.
* `Session.half_key_read`: a half that was absent may be read after a torn removal.
-/

namespace RingStore

open RingStore.Partition (Holdings)

/-- The operation drops what was stored under a key in favour of a value, which is among the live records
already if it is a payload. -/
inductive Purpose.Drops (key : UInt16) (L : Holdings) : Purpose → Option Bytes → Prop
  | remove : Drops key L (.remove key) none
  | store {payload : Bytes} (hstored : L.Stored key (some payload)) :
      Drops key L (.store key payload) (some payload)

namespace Purpose.Drops

variable {purpose : Purpose} {key : UInt16} {v : Option Bytes} {L L' : Holdings}

theorem stored (h : purpose.Drops key L v) {payload : Bytes} (hv : v = some payload) :
    L.Stored key (some payload) := by
  cases h with
  | remove => cases hv
  | store hstored =>
    cases hv
    exact hstored

theorem passes (h : purpose.Drops key L' v) {conduct : Conduct} {checksum : Checksum}
    {order : List Nat} (hleads : purpose.Leads conduct checksum order L L') :
    L.Passes conduct checksum key (· = v) L' := by
  cases h with
  | remove => exact hleads
  | store => exact Holdings.Renewed.passes hleads

/-- Only a removal may leave no copy of the key. -/
theorem eq_none (h : purpose.Drops key L v) (hnone : L.Stored key none) : v = none := by
  cases v with
  | none => rfl
  | some payload =>
    obtain ⟨page, entry, hcopy, -⟩ := h.stored rfl
    exact absurd hcopy (hnone page entry)

end Purpose.Drops

namespace Contents

variable {m : Contents} {L L' : Holdings} {purpose : Purpose} {key : UInt16} {v : Option Bytes}

/-- The values that are admissible when the tombstone of a key was torn: the old one and the new one
under the key, and the old one of the key also under its halves. -/
def scratched (m : Contents) (key : UInt16) (v : Option Bytes) : Outcomes := fun other =>
  {w | w = m other ∨ other = key ∧ w = v ∨ Key.IsHalf key other ∧ w = m key}

/-- **A torn tombstone** leaves the old value of a key or the new one, and the old one under a half of
the key. -/
theorem Represented.admits_scratched (h : m.Represented L) (hL : L.Distinct)
    (hdrops : purpose.Drops key L' v) {checksum : Checksum} {order : List Nat}
    (hleads : purpose.Leads .splitting checksum order L L') : (m.scratched key v).Admits L' := by
  intro other w hw
  cases hdrops.passes hleads with
  | whole hbetween =>
    rcases hbetween.stored_or hw with hold | hnew
    · exact Or.inl (h.eq_of_stored hold)
    · exact Or.inr (Or.inl hnew)
  | scratched _ hbetween hcopy hhalf hrekeyed =>
    rcases hbetween.stored_rekeyed hL hcopy hrekeyed hw with hold | ⟨rfl, hnew⟩ | ⟨rfl, rfl⟩
    · exact Or.inl (h.eq_of_stored hold)
    · refine Or.inr (Or.inl ⟨rfl, hnew.elim id ?_⟩)
      rintro rfl
      exact (hdrops.eq_none hw).symm
    · exact Or.inr (Or.inr ⟨hhalf, h.eq_of_stored ⟨_, _, hcopy, rfl⟩⟩)
  | cut _ hbetween hfresh hnew _ hadded =>
    -- The new payload is stored, so the record is there as a whole.
    subst hadded
    obtain ⟨hwhole, hpayload⟩ :=
      ((Holdings.between_added rfl).stored_or (hdrops.stored hfresh.symm)).resolve_left hnew
    rcases (Holdings.between_added rfl).stored_or hw with hold | ⟨hkey, rfl⟩
    · exact Or.inl (h.eq_of_stored ((hbetween.stored_or hold).resolve_right And.right))
    · exact Or.inr (Or.inl ⟨hkey.trans hwhole.symm, hpayload.symm.trans hfresh⟩)

end Contents

namespace Session

variable {p : Partition} {session : Session} {flash : Flash} {operation : Operation} {key : UInt16}
  {v : Option Bytes}

/-- **After a torn tombstone** the key is read as before or as the operation was to leave it.  A half of
the key is read as before or as the key was, all other keys are read as before. -/
theorem torn_tombstone_read (hu : p.Usable) (hformatted : Formatted p session flash)
    (hflash : flash.Follows .reliable) {before after : List Request}
    (hbefore : ∀ request ∈ before, request.KeepsGuard)
    (hafter : ∀ request ∈ after, request.KeepsGuard) (hguard : operation.KeepsGuard)
    {fates : Nat → Fate} (hfates : ∀ n, Conduct.splitting.Allows (fates n)) :
    let start := (session.serve before).run Flash.device flash
    let torn := (start.1.2.handle (.call operation)).run Flash.device ⟨start.2.cells, fates⟩
    operation.purpose.Drops key (p.live (p.image torn.2.cells)) v →
      ∃ m P', Trace (Contents.Step p) (some .empty) before start.1.1 (some m) ∧
        Trace (Outcomes.Served p) (m.scratched key v) (.reboot :: after)
          ((torn.1.2.serve (.reboot :: after)).run Flash.device (.steady torn.2.cells)).1.1 P' := by
  intro start torn hdrops
  have hprogram : operation.program? ≠ none := by
    refine operation.program?_ne_none fun hupkeep => ?_
    rw [hupkeep] at hdrops
    cases hdrops
  obtain ⟨m, htrace, hrepresented, ⟨order, hleads⟩, hserved⟩ :=
    recovers hu hformatted hflash hbefore hafter hguard hprogram hfates
  have hadmits : (m.scratched key v).Admits (p.live (p.image torn.2.cells)) :=
    hrepresented.admits_scratched (Holdings.distinct_live p _) hdrops hleads
  obtain ⟨P', htrace'⟩ := hserved _ hadmits
  exact ⟨m, P', htrace, htrace'⟩

/-- A removal is refused when the first byte of its tombstone is there. -/
theorem torn_tombstone_read_small :
    let start := formatting fun _ => .granted
    let stored := (start.1.2.serve [.call (.writeItem 258 [7])]).run Flash.device start.2
    let torn := (stored.1.2.handle (.call (.deleteItem 258))).run Flash.device
      ⟨stored.2.cells, Fate.tornAt 1 1⟩
    let after : List Request := [.call (.readItem 258 [0, 0]), .call (.readItem 256 [0, 0])]
    Partition.small.Usable ∧ Formatted .small start.1.2 start.2 ∧ start.2.Follows .reliable ∧
      (∀ n, Conduct.splitting.Allows (Fate.tornAt 1 1 n)) ∧ torn.1.1.isRefused = true ∧
      (Operation.deleteItem 258).purpose.Drops 258
        (Partition.small.live (Partition.small.image torn.2.cells)) none ∧
      ∃ m P', Trace (Contents.Step .small) (some .empty) [.call (.writeItem 258 [7])] stored.1.1
          (some m) ∧
        Trace (Outcomes.Served .small) (m.scratched 258 none) (.reboot :: after)
          ((torn.1.2.serve (.reboot :: after)).run Flash.device (.steady torn.2.cells)).1.1 P' := by
  intro start stored torn after
  have hformatted : Formatted .small start.1.2 start.2 := formatted_small (by rfl)
  have hflash : start.2.Follows .reliable := follows_formatting fun _ => trivial
  have hbefore : ∀ request ∈ [Request.call (.writeItem 258 [7])], request.KeepsGuard := by
    simp [Request.KeepsGuard, Operation.KeepsGuard]
  have hafter : ∀ request ∈ after, request.KeepsGuard := by
    simp [after, Request.KeepsGuard, Operation.KeepsGuard]
  exact ⟨Partition.usable_small, hformatted, hflash, Fate.allows_tornAt 1 1, by decide +kernel, .remove,
    torn_tombstone_read Partition.usable_small hformatted hflash hbefore hafter (by trivial)
      (Fate.allows_tornAt 1 1) .remove⟩

/-- **A half of the key may be read**, although it was absent before. -/
theorem half_key_read :
    let start := formattingOf .pair fun _ => .granted
    let stored := (start.1.2.serve [.call (.writeItem 258 [7]), .call (.readItem 256 [0, 0])]).run
      Flash.device start.2
    let torn := (stored.1.2.handle (.call (.deleteItem 258))).run Flash.device
      ⟨stored.2.cells, Fate.tornAt 1 1⟩
    let after : List Request :=
      [.reboot, .call (.readItem 256 [0, 0]), .call (.readItem 258 [0, 0])]
    Partition.pair.Usable ∧ Formatted .pair start.1.2 start.2 ∧ start.2.Follows .reliable ∧
      stored.1.1.map Reply.copied? = [none, some (0, [0, 0])] ∧
      (∀ n, Conduct.splitting.Allows (Fate.tornAt 1 1 n)) ∧ torn.1.1.isRefused = true ∧
      ((torn.1.2.serve after).run Flash.device (.steady torn.2.cells)).1.1.map Reply.copied? =
        [none, some (1, [7, 0]), some (0, [0, 0])] := by
  intro start stored torn after
  exact ⟨Partition.usable_pair, formatted_of_done (Reply.eq_done (by decide +kernel)),
    follows_formattingOf .pair fun _ => trivial, by decide +kernel, Fate.allows_tornAt 1 1,
    by decide +kernel, by decide +kernel⟩

end Session

end RingStore
