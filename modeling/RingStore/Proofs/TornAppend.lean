import RingStore.Proofs.Recovery

/-!
# What a torn append leaves

A record is written by one access.  If only a part of it is there after a reset, another scan finds
nothing, or a record that is cut off: its other bytes have all bits set.  The cut payload counts if it has
the checksum of the whole one.  That is a single byte, so there are payloads that do.  The checksum does
not cover the key, and a cut within the key leaves one whose upper byte is `0xFF`.

## Main statements

* `Record.cut_isLive`: the cut records that pass for live ones.
* `Session.torn_append_read`: what is read under the keys after a torn append.
* `Session.torn_append_misread`: a payload is read that was never stored, or a key that was never used.
-/

namespace RingStore

open RingStore.Partition (Holdings)

namespace Record

/-- The checksum does not tell a payload from its first bytes with the others unprogrammed. -/
def Undetected (checksum : Checksum) (payload : Bytes) (count : Nat) : Prop :=
  checksum 0 (cutPayload payload count) = checksum 0 payload

variable {checksum : Checksum} {key : UInt16} {payload : Bytes} {count : Nat}

/-- **A cut record passes for a live one** only if the checksum does not detect it, and if no more is
missing of its key than the upper byte. -/
theorem cut_isLive (h : ((ofPayload checksum key payload).cut count).isLive checksum = true) :
    Undetected checksum payload (count - headerSize) ∧
      (((ofPayload checksum key payload).cut count).header.key = key ∨ count - headerSize = 0 ∧
        ((ofPayload checksum key payload).cut count).header.key = Key.unfinished key) := by
  rw [isLive, Bool.and_eq_true, Bool.and_eq_true, bne_iff_ne, Header.verify, Bool.and_eq_true,
    beq_iff_eq, beq_iff_eq] at h
  obtain ⟨⟨-, hblank⟩, -, hcrc⟩ := h
  have hkey : ((ofPayload checksum key payload).cut count).header.key = if 4 ≤ count then key
      else if count = 3 then Key.unfinished key else blankKey := rfl
  have hwritten : ((ofPayload checksum key payload).cut count).header.crc =
      if 2 ≤ count then checksum 0 payload else 0xFF := rfl
  have hcount : 3 ≤ count := by
    by_contra hfew
    rw [hkey, if_neg (by omega), if_neg (by omega)] at hblank
    exact hblank rfl
  rw [hwritten, if_pos (by omega)] at hcrc
  refine ⟨hcrc, ?_⟩
  by_cases hfull : 4 ≤ count
  · exact Or.inl (by rw [hkey, if_pos hfull])
  · refine Or.inr ⟨?_, by rw [hkey, if_neg hfull, if_pos (by omega)]⟩
    rw [headerSize]
    omega

end Record

namespace Contents

variable {m : Contents} {L L' : Holdings} {key : UInt16} {payload : Bytes} {conduct : Conduct}
  {checksum : Checksum}

/-- The values that are admissible when the record of a payload was torn.  Under the key it is the one
before, or as much of the payload as the checksum does not tell from the whole.  If it does not even detect
that nothing of the payload is there, nothing is said of the key that has the lower byte of this one. -/
def torn (m : Contents) (checksum : Checksum) (key : UInt16) (payload : Bytes) : Outcomes :=
  fun other => {w | w = m other ∨
    other = key ∧ (∃ count, w = some (Record.cutPayload payload count) ∧
      Record.Undetected checksum payload count) ∨
    other ≠ key ∧ other = Key.unfinished key ∧ Record.Undetected checksum payload 0}

/-- The copy of a key from before is in place, if it is whenever the payload is there. -/
theorem Represented.kept (h : m.Represented L)
    (hrenewed : L.Renewed conduct checksum key payload L')
    (hshort : L'.Stored key (some payload) →
      ∀ page entry, L.Copy key page entry → L'.Copy key page entry)
    (page : Nat) (entry : Nat × Record) (hcopy : L.Copy key page entry) : L'.Copy key page entry := by
  have hsole : L.Sole key page entry := ⟨hcopy, fun other e he =>
    (h key).sole other e page entry he hcopy⟩
  exact (hrenewed.kept page entry hsole).elim id fun hstored => hshort hstored page entry hcopy

/-- **A torn append** leaves the old value of a key, or as much of the new one as goes undetected.  The
write has got no further, so the old copy of the key is in place. -/
theorem Represented.admits_torn (h : m.Represented L) (hL : L.Distinct)
    (hpasses : L.Passes .splitting checksum key (· = some payload) L')
    (hkept : ∀ page entry, L.Copy key page entry → L'.Copy key page entry) :
    (m.torn checksum key payload).Admits L' := by
  have hwhole : ∃ count, some payload = some (Record.cutPayload payload count) ∧
      Record.Undetected checksum payload count := by
    refine ⟨payload.length, ?_, ?_⟩
    · rw [Record.cutPayload_of_le le_rfl]
    · rw [Record.Undetected, Record.cutPayload_of_le le_rfl]
  intro other w hw
  cases hpasses with
  | whole hbetween =>
    rcases hbetween.stored_or hw with hold | ⟨rfl, rfl⟩
    · exact Or.inl (h.eq_of_stored hold)
    · exact Or.inr (Or.inl ⟨rfl, hwhole⟩)
  | scratched _ hbetween hcopy hhalf hrekeyed =>
    have hkept' := hkept _ _ hcopy
    rcases hbetween.stored_rekeyed hL hcopy hrekeyed hw with hold | ⟨rfl, rfl | rfl⟩ | ⟨rfl, rfl⟩
    · exact Or.inl (h.eq_of_stored hold)
    · exact Or.inr (Or.inl ⟨rfl, hwhole⟩)
    · exact absurd hkept' (hw _ _)
    · -- The old copy is in place, so the key it was put under is the key itself.
      obtain ⟨-, hsame⟩ := ((hrekeyed.mem_iff _ _).mp hkept'.1).resolve_left fun hold =>
        (Holdings.mem_without.mp hold).2 rfl
      obtain rfl : key = other := hcopy.2.symm.trans (congrArg (·.2.header.key) hsame)
      exact Or.inl (h.eq_of_stored ⟨_, _, hcopy, rfl⟩)
  | cut _ hbetween hfresh hnew hlive hadded =>
    subst hadded
    obtain rfl := Option.some.inj hfresh
    rcases (Holdings.between_added rfl).stored_or hw with hold | ⟨hkey, rfl⟩
    · exact Or.inl (h.eq_of_stored ((hbetween.stored_or hold).resolve_right And.right))
    · obtain ⟨hsame, hcut | ⟨hzero, hcut⟩⟩ := Record.cut_isLive hlive
      · exact Or.inr (Or.inl ⟨hkey.trans hcut, _, rfl, hsame⟩)
      · by_cases heq : other = key
        · exact Or.inr (Or.inl ⟨heq, _, rfl, hsame⟩)
        · exact Or.inr (Or.inr ⟨heq, hkey.trans hcut, hzero ▸ hsame⟩)

end Contents

namespace Session

variable {p : Partition} {session : Session} {flash : Flash} {operation : Operation} {key : UInt16}
  {payload : Bytes}

/-- **After a torn append** the key is read as before, or it has as much of the payload as the checksum
does not tell from the whole.  All other keys are read as before, but for one of them if the checksum does
not tell the payload from one that was never programmed.  What is stored later is read back.  The write got
no further than its append: if the payload is there, then so is the copy of the key from before. -/
theorem torn_append_read (hu : p.Usable) (hformatted : Formatted p session flash)
    (hflash : flash.Follows .reliable) {before after : List Request}
    (hbefore : ∀ request ∈ before, request.KeepsGuard)
    (hafter : ∀ request ∈ after, request.KeepsGuard) (hguard : operation.KeepsGuard)
    (hstore : operation.purpose = .store key payload) {fates : Nat → Fate}
    (hfates : ∀ n, Conduct.splitting.Allows (fates n)) :
    let start := (session.serve before).run Flash.device flash
    let torn := (start.1.2.handle (.call operation)).run Flash.device ⟨start.2.cells, fates⟩
    ((p.live (p.image torn.2.cells)).Stored key (some payload) →
      ∀ page entry, (p.live (p.image start.2.cells)).Copy key page entry →
        (p.live (p.image torn.2.cells)).Copy key page entry) →
      ∃ m P', Trace (Contents.Step p) (some .empty) before start.1.1 (some m) ∧
        Trace (Outcomes.Served p) (m.torn p.chip.checksum key payload) (.reboot :: after)
          ((torn.1.2.serve (.reboot :: after)).run Flash.device (.steady torn.2.cells)).1.1 P' := by
  intro start torn hshort
  have hprogram : operation.program? ≠ none := by
    refine operation.program?_ne_none ?_
    rw [hstore]
    nofun
  obtain ⟨m, htrace, hrepresented, ⟨order, hleads⟩, hserved⟩ :=
    recovers hu hformatted hflash hbefore hafter hguard hprogram hfates
  rw [hstore] at hleads
  have hadmits : (m.torn p.chip.checksum key payload).Admits (p.live (p.image torn.2.cells)) :=
    hrepresented.admits_torn (Holdings.distinct_live p _) (Holdings.Renewed.passes hleads)
      (hrepresented.kept hleads hshort)
  obtain ⟨P', htrace'⟩ := hserved _ hadmits
  exact ⟨m, P', htrace, htrace'⟩

/-- A write over an older value is refused when two bytes of its record are there. -/
theorem torn_append_read_small :
    let start := formatting fun _ => .granted
    let stored := (start.1.2.serve [.call (.writeItem 5 [7])]).run Flash.device start.2
    let torn := (stored.1.2.handle (.call (.writeItem 5 [8]))).run Flash.device
      ⟨stored.2.cells, Fate.tornAt 3 2⟩
    let after : List Request := [.call (.readItem 5 [0]), .call (.writeItem 5 [9])]
    Partition.small.Usable ∧ Formatted .small start.1.2 start.2 ∧ start.2.Follows .reliable ∧
      (∀ n, Conduct.splitting.Allows (Fate.tornAt 3 2 n)) ∧ torn.1.1.isRefused = true ∧
      ((Partition.small.live (Partition.small.image torn.2.cells)).Stored 5 (some [8]) →
        ∀ page entry, (Partition.small.live (Partition.small.image stored.2.cells)).Copy 5 page entry →
          (Partition.small.live (Partition.small.image torn.2.cells)).Copy 5 page entry) ∧
      ∃ m P', Trace (Contents.Step .small) (some .empty) [.call (.writeItem 5 [7])] stored.1.1
          (some m) ∧
        Trace (Outcomes.Served .small) (m.torn .xorSum 5 [8]) (.reboot :: after)
          ((torn.1.2.serve (.reboot :: after)).run Flash.device (.steady torn.2.cells)).1.1 P' := by
  intro start stored torn after
  have hformatted : Formatted .small start.1.2 start.2 := formatted_small (by rfl)
  have hflash : start.2.Follows .reliable := follows_formatting fun _ => trivial
  have hbefore : ∀ request ∈ [Request.call (.writeItem 5 [7])], request.KeepsGuard := by
    simp [Request.KeepsGuard, Operation.KeepsGuard]
  have hafter : ∀ request ∈ after, request.KeepsGuard := by
    simp [after, Request.KeepsGuard, Operation.KeepsGuard]
  have hsame : ∀ page < 2, Partition.small.live (Partition.small.image torn.2.cells) page =
      Partition.small.live (Partition.small.image stored.2.cells) page := by
    decide +kernel
  have hkept : ∀ page entry,
      (Partition.small.live (Partition.small.image stored.2.cells)).Copy 5 page entry →
        (Partition.small.live (Partition.small.image torn.2.cells)).Copy 5 page entry := by
    rintro page entry ⟨hmem, hkey⟩
    exact ⟨hsame page (Partition.lt_of_mem_live hmem) ▸ hmem, hkey⟩
  exact ⟨Partition.usable_small, hformatted, hflash, Fate.allows_tornAt 3 2, by decide +kernel,
    fun _ => hkept, torn_append_read Partition.usable_small hformatted hflash hbefore hafter (by trivial)
      rfl (Fate.allows_tornAt 3 2) fun _ => hkept⟩

/-- **A torn append may be read as something else.**  A payload whose checksum is that of unprogrammed
bytes is refused behind its header, and the key is read as if those bytes had been stored.  A record with
a payload of ones is refused behind the first byte of its key, and another key is read that was never
used. -/
theorem torn_append_misread :
    let start := formattingOf .pair fun _ => .granted
    let collided := (start.1.2.handle (.call (.writeItem 5 [0x01, 0x94]))).run Flash.device
      ⟨start.2.cells, Fate.tornAt 0 4⟩
    let halved := (start.1.2.handle (.call (.writeItem 5 [0xFF]))).run Flash.device
      ⟨start.2.cells, Fate.tornAt 0 3⟩
    Partition.pair.Usable ∧ Formatted .pair start.1.2 start.2 ∧
      (∀ count n, Conduct.splitting.Allows (Fate.tornAt 0 count n)) ∧
      (collided.1.1.isRefused = true ∧
        ((collided.1.2.serve [.reboot, .call (.readItem 5 [0, 0])]).run Flash.device
          (.steady collided.2.cells)).1.1.map Reply.copied? = [none, some (2, [0xFF, 0xFF])]) ∧
      halved.1.1.isRefused = true ∧
      ((halved.1.2.serve [.reboot, .call (.readItem 0xFF05 [0, 0])]).run Flash.device
        (.steady halved.2.cells)).1.1.map Reply.copied? = [none, some (1, [0xFF, 0])] := by
  intro start collided halved
  exact ⟨Partition.usable_pair, formatted_of_done (Reply.eq_done (by decide +kernel)),
    Fate.allows_tornAt 0, ⟨by decide +kernel, by decide +kernel⟩, by decide +kernel, by decide +kernel⟩

end Session

end RingStore
