import RingStore.Proofs.Engine.Walk
import RingStore.Store

/-!
# Lookups

A lookup finds what is stored under a key.  It leaves a single copy of that key and touches no other
key, so a second lookup finds the same.

## Main statements

* `ensures_find`: what a lookup finds, and what it makes of the live records.
* `ensures_payloadOf`, `ensures_readItem`: the same for what is made of it.
-/

namespace RingStore.Engine

open EngineM RingStore.Partition

variable {p : Partition} {conduct : Conduct} {anchored : Prop} {allowed : Holdings → Prop}
  {t : Table} {img : Image} {key : UInt16} {L : Holdings}

/-- A record of another key is passed over by a lookup. -/
theorem examine_of_not {best : Option Found} {location : Location} {header : Header}
    (h : ¬(header.carriesValue = true ∧ header.key = key)) :
    examine p key best location header = pure (.yield best) := if_neg h

/-- A lookup on its way.  The copy it found on the page it is on lies before all records ahead. -/
structure Looking (p : Partition) (first : Table) (img₀ : Image) (key : UInt16) (page : Nat)
    (rest : List Nat) (best : Option Found) (entries : List (Nat × Record)) (t : Table)
    (img : Image) : Prop where
  mirrors : t.Mirrors p img
  course : Course (p.live img₀) page rest entries
  route : ∃ passed, first.searchOrder = passed ++ page :: rest
  before : ∀ f, best = some f → f.location.page = page →
    ∀ e ∈ entries, f.location.offset + headerSize ≤ e.1
  searched : (p.live img₀).Searched key best (Pending page rest entries) (p.live img)
  heeds : (p.live img₀).Heeds key first.searchOrder best (Pending page rest entries)
  thinned : p.Thinned first img₀ t img

namespace Looking

variable {first : Table} {img₀ : Image} {page : Nat} {rest : List Nat} {best : Option Found}
  {entries : List (Nat × Record)} {offset : Nat} {record : Record}

theorem pending (h : Looking p first img₀ key page rest best ((offset, record) :: entries) t img) :
    (p.live img₀).Searched key best (fun other e => Pending page rest entries other e ∨
      other = page ∧ e = (offset, record)) (p.live img) :=
  h.searched.congr fun other e _ => (pending_cons other e).symm

theorem heeding (h : Looking p first img₀ key page rest best ((offset, record) :: entries) t img) :
    (p.live img₀).Heeds key first.searchOrder best fun other e => Pending page rest entries other e ∨
      other = page ∧ e = (offset, record) :=
  h.heeds.congr fun other e _ => (pending_cons other e).symm

/-- The next record is live. -/
theorem live (h : Looking p first img₀ key page rest best ((offset, record) :: entries) t img) :
    (offset, record) ∈ p.live img page := by
  refine (h.searched.live page (offset, record)).mpr ⟨h.course.head.1, fun hnot => ?_⟩
  exact absurd ((pending_cons _ _).mpr (Or.inr ⟨rfl, rfl⟩)) hnot

/-- The pages ahead come later in the order. -/
theorem ahead (h : Looking p first img₀ key page rest best entries t img) (other : Nat)
    (e : Nat × Record) (hpending : Pending page rest entries other e) :
    other = page ∨ first.searchOrder.idxOf page < first.searchOrder.idxOf other := by
  have horder : first.searchOrder.Nodup := nodup_ringBackFrom _ _
  obtain ⟨passed, hroute⟩ := h.route
  rw [hroute] at horder ⊢
  exact hpending.elim (fun hrest => Or.inr (idxOf_lt_of_mem horder hrest)) fun hpage =>
    Or.inl hpage.1

/-- The lookup goes on behind the next record. -/
theorem next {best' : Option Found} {t' : Table} {img' : Image}
    (h : Looking p first img₀ key page rest best ((offset, record) :: entries) t img)
    (hmirrors : t'.Mirrors p img')
    (hbest : best' = best ∨ best' = some ⟨⟨page, offset⟩, record.payload⟩)
    (hsearched : (p.live img₀).Searched key best' (Pending page rest entries) (p.live img'))
    (hheeds : (p.live img₀).Heeds key first.searchOrder best' (Pending page rest entries))
    (hthinned : p.Thinned t img t' img') :
    Looking p first img₀ key page rest best' entries t' img' := by
  refine ⟨hmirrors, h.course.next, h.route, fun f hf hpage e he => ?_, hsearched, hheeds,
    h.thinned.trans hthinned⟩
  rcases hbest with rfl | rfl
  · exact h.before f hf hpage e (by simp [he])
  · cases hf
    exact (List.pairwise_cons.mp h.course.order).1 e he

end Looking

/-- One step of a lookup. -/
theorem ensures_examine (hu : p.Usable) {first : Table} {img₀ : Image}
    (hallowed : ∀ L', (p.live img₀).Sought conduct p.chip.checksum key first.searchOrder L' →
      conduct ≠ .tearing → allowed L')
    {page : Nat} {rest : List Nat} {best : Option Found} {entries : List (Nat × Record)}
    {offset : Nat} {record : Record}
    (h : Looking p first img₀ key page rest best ((offset, record) :: entries) t img) :
    Ensures p conduct (p.Secure conduct anchored allowed)
      (examine p key best ⟨page, offset⟩ record.header) t img
      (Visited page (Looking p first img₀ key page rest) (offset + record.size) entries img)
      noError := by
  have hL := Holdings.distinct_live p img₀
  obtain ⟨hmem, hseen⟩ := h.course.head
  have hlive := h.live
  obtain ⟨-, -, -, -, -, -, -, hrecord⟩ := exists_record h.mirrors hlive
  have hsize : headerSize ≤ record.size := Nat.le_add_right _ _
  by_cases hkey : record.header.carriesValue = true ∧ record.header.key = key
  · have hverify : record.header.verify p.chip.checksum record.payload = true := by
      rw [Record.isLive, Bool.and_eq_true] at hrecord
      exact hrecord.2
    unfold examine
    rw [if_pos hkey]
    refine (ensures_readPayload hu (h.mirrors.carried_eq ▸ hlive)).bind ?_
    rintro _ t' img' ⟨rfl, rfl, rfl⟩
    rw [if_pos hverify]
    -- Of two copies on a page the later one is newer; of two pages the one searched first is.
    cases best with
    | none =>
      have hfirst := h.pending.first hmem hkey.2 hseen
      have hheeds := h.heeding.first hmem hkey.2 (h.ahead · · ∘ fun hpending =>
        (pending_cons _ _).mpr (Or.inl hpending))
      exact ensures_pure
        ⟨h.next h.mirrors (Or.inr rfl) hfirst hheeds (.refl h.mirrors), rfl⟩
    | some current =>
      obtain ⟨r, hcopy⟩ := h.pending.copy_of_found
      by_cases hpage : current.location.page = page
      · have hlower : current.location.offset + headerSize ≤ offset :=
          h.before current rfl hpage (offset, record) (by simp)
        have hreplace := h.pending.replace hL hmem hkey.2 hseen
        have hheeds := h.heeding.replace hmem hkey.2 hpage
          (Nat.lt_of_lt_of_le (Nat.lt_add_of_pos_right (by decide)) hlower)
        dsimp only
        rw [if_pos hpage]
        refine (ensures_drop hu h.mirrors current.location .deferred hcopy.1
          (hallowed _ ⟨.whole hreplace.between, hreplace.copy, fun _ _ => hreplace.newest hheeds⟩)
          fun hsplitting half hhalf L' hrekeyed => hallowed L' (.scratched hsplitting
            h.searched.between h.searched.copy hcopy hhalf hrekeyed fun _ _ => hreplace.newest hheeds)
            (Conduct.ne_tearing hsplitting)).bind ?_
        intro _ t'' img'' hdropped
        refine ensures_pure ⟨h.next hdropped.mirrors (Or.inr rfl) (hdropped.live_eq ▸ hreplace)
          hheeds (hdropped.thinned rfl), ?_⟩
        have hdrop := hdropped.drop_eq (Or.inl rfl) (offset + record.size) (by omega)
        rwa [hpage] at hdrop
      · have hdiscard := h.pending.discard hL hmem hkey.2 hseen hpage
        have hheeds := h.heeding.discard hpage
        dsimp only
        rw [if_neg hpage]
        refine (ensures_drop hu h.mirrors ⟨page, offset⟩ .deferred hlive
          (hallowed _ ⟨.whole hdiscard.between, hdiscard.copy, fun _ _ => hdiscard.newest hheeds⟩)
          fun hsplitting half hhalf L' hrekeyed => hallowed L' (.scratched hsplitting
            h.searched.between h.searched.copy ⟨hlive, hkey.2⟩ hhalf hrekeyed
            fun _ _ => hdiscard.newest hheeds) (Conduct.ne_tearing hsplitting)).bind ?_
        intro _ t'' img'' hdropped
        refine ensures_pure ⟨h.next hdropped.mirrors (Or.inl rfl) (hdropped.live_eq ▸ hdiscard)
          hheeds (hdropped.thinned rfl), ?_⟩
        exact hdropped.drop_eq (Or.inl rfl) (offset + record.size) (by simp; omega)
  · rw [examine_of_not hkey]
    have hother : record.header.key ≠ key := by
      intro heq
      exact hkey ⟨Record.carriesValue_of_isLive hrecord, heq⟩
    exact ensures_pure ⟨h.next h.mirrors (Or.inl rfl) (h.pending.skip hother)
      (h.heeding.skip hother) (.refl h.mirrors), rfl⟩

/-- A lookup has settled what is stored under a key. -/
structure Settled (p : Partition) (L : Holdings) (key : UInt16) (v : Option Bytes) (t : Table)
    (img : Image) : Prop where
  mirrors : t.Mirrors p img
  stored : L.Stored key v
  update : L.Update key v (p.live img)

/-- What a lookup that searches the pages in some order gives: the newest copy if there is one.  Of all
copies that one alone is left in place. -/
structure Sighted (L : Holdings) (key : UInt16) (order : List Nat) (best : Option Found)
    (L' : Holdings) : Prop where
  found : ∀ f, best = some f → ∃ record,
    L'.Copy key f.location.page (f.location.offset, record)
  live : ∀ page entry, entry ∈ L' page ↔ entry ∈ L page ∧ Holdings.Counts key best page entry
  newest : ∀ page entry, L.Newest key order page entry →
    best = some ⟨⟨page, entry.1⟩, entry.2.payload⟩

theorem Sighted.copies {order : List Nat} {best : Option Found} {L' : Holdings} {page : Nat}
    {entry : Nat × Record} (h : Sighted L key order best L') (hcopy : L'.Copy key page entry) :
    L.Copy key page entry :=
  ⟨((h.live page entry).mp hcopy.1).1, hcopy.2⟩

/-- An only copy is found and left in place. -/
theorem Sighted.sole {order : List Nat} {best : Option Found} {L' : Holdings} {entry : Nat × Record}
    (h : Sighted L key order best L') (hsole : L.Sole key page entry) : L'.Copy key page entry := by
  obtain ⟨record, hcopy⟩ := h.found _ (h.newest page entry (hsole.newest order))
  rwa [(hsole.eq _ _ (h.copies hcopy)).2] at hcopy

/-- **A lookup finds what is stored** and leaves a single copy of it. -/
theorem ensures_find (hu : p.Usable) (h : t.Mirrors p img) (key : UInt16)
    (hallowed : ∀ L', (p.live img).Sought conduct p.chip.checksum key t.searchOrder L' →
      conduct ≠ .tearing → allowed L') :
    Ensures p conduct (p.Secure conduct anchored allowed) (find p key) t img
      (fun best t' img' => Settled p (p.live img) key (best.map (·.payload)) t' img' ∧
        Sighted (p.live img) key t.searchOrder best (p.live img') ∧ p.Thinned t img t' img')
      noError := by
  have horder : t.searchOrder.Nodup := nodup_ringBackFrom _ _
  have hall : ∀ page entry, entry ∈ p.live img page → page ∈ t.searchOrder :=
    fun page entry hentry => mem_ringBackFrom (h.count_eq ▸ Partition.lt_of_mem_live hentry)
  unfold find
  refine (ensures_walkLive hu
    (fun best pages t' img' => t'.Mirrors p img' ∧ (∃ passed, t.searchOrder = passed ++ pages) ∧
      (p.live img).Searched key best (fun other _ => other ∈ pages) (p.live img') ∧
        ((p.live img).Heeds key t.searchOrder best fun other _ => other ∈ pages) ∧
          p.Thinned t img t' img')
    (fun page rest => Looking p t img key page rest)
    (fun _ _ _ _ houter => houter.1) ?_ ?_ ?_ ?_
    ⟨h, ⟨[], rfl⟩, .start hall, .start hall, .refl h⟩).weaken ?_
  · intro best location header hcarries
    refine examine_of_not fun hkey => ?_
    rw [hcarries] at hkey
    cases hkey.1
  · rintro best page rest t' img' ⟨hmirrors, ⟨passed, hroute⟩, hsearched, hheeds, hthinned⟩
    obtain ⟨hfresh, hrest⟩ := List.nodup_cons.mp (List.nodup_append.mp (hroute ▸ horder)).2.1
    have hmem : ∀ e, e ∈ p.live img' page ↔ e ∈ p.live img page := by
      intro e
      rw [hsearched.live]
      simp
    have hpending : ∀ other e, e ∈ p.live img other →
        (Pending page rest (p.live img' page) other e ↔ other ∈ page :: rest) := by
      intro other e he
      refine pending_start ?_
      rintro rfl
      exact (hmem e).mpr he
    refine ⟨hmirrors, ⟨hfresh, hrest, fun e he => (hmem e).mp he, p.pairwise_live img' page⟩,
      ⟨passed, hroute⟩, ?_, hsearched.congr hpending, hheeds.congr hpending, hthinned⟩
    intro f hf hpage
    obtain ⟨record, -, -, hseen⟩ := hsearched.found f hf
    rw [hpage] at hseen
    exact absurd (by simp) hseen
  · intro page rest best offset record entries t' img' hlooking
    exact ensures_examine hu hallowed hlooking
  · intro best page rest t' img' hlooking
    have hpending : ∀ other e, e ∈ p.live img other → (other ∈ rest ↔ Pending page rest [] other e) :=
      fun other e _ => (pending_nil other e).symm
    obtain ⟨passed, hroute⟩ := hlooking.route
    exact ⟨hlooking.mirrors, ⟨passed ++ [page], by rw [hroute, List.append_assoc]; rfl⟩,
      hlooking.searched.congr hpending, hlooking.heeds.congr hpending, hlooking.thinned⟩
  · rintro best t' img' ⟨hmirrors, -, hsearched, hheeds, hthinned⟩
    obtain ⟨hstored, hupdate⟩ := hsearched.update (Holdings.distinct_live p img) fun _ _ =>
      List.not_mem_nil
    refine ⟨⟨hmirrors, hstored, hupdate⟩, ⟨?_, fun page entry => ?_, fun _ _ =>
      hheeds.eq_some fun _ _ => List.not_mem_nil⟩, hthinned⟩
    · rintro f rfl
      exact hsearched.copy_of_found
    · rw [hsearched.live]
      exact and_congr_right fun _ => ⟨fun hcounts => hcounts List.not_mem_nil, fun hcounts _ => hcounts⟩

/-! ## What is made of a lookup -/

/-- An argument is refused for a reason before anything is done. -/
abbrev refused (reason : Prop) (t : Table) (img : Image) : Post Error := fun error t' img' =>
  error = .invalidArgument ∧ reason ∧ t' = t ∧ img' = img

/-- A lookup that searches the pages in some order has read a value: the newest copy's, if there is
one. -/
structure Read (p : Partition) (L : Holdings) (key : UInt16) (order : List Nat) (v : Option Bytes)
    (t : Table) (img : Image) : Prop extends Settled p L key v t img where
  newest : ∀ page entry, L.Newest key order page entry → v = some entry.2.payload

theorem Settled.read {order : List Nat} {best : Option Found} {L' : Holdings}
    (h : Settled p L key (best.map (·.payload)) t img) (hsighted : Sighted L key order best L') :
    Read p L key order (best.map (·.payload)) t img :=
  ⟨h, fun page entry hnewest => by rw [hsighted.newest page entry hnewest]; rfl⟩

theorem ensures_payloadOf (hu : p.Usable) (h : t.Mirrors p img) (key : UInt16)
    (hallowed : ∀ L', (p.live img).Sought conduct p.chip.checksum key t.searchOrder L' →
      conduct ≠ .tearing → allowed L') :
    Ensures p conduct (p.Secure conduct anchored allowed) (payloadOf p key) t img
      (Read p (p.live img) key t.searchOrder) (refused (¬isValidKey key = true) t img) := by
  unfold payloadOf
  split
  · refine (ensures_find hu h key hallowed).lift.bind ?_
    rintro best t' img' ⟨hsettled, hsighted, -⟩
    exact ensures_pure (hsettled.read hsighted)
  · next hkey => exact ensures_throw ⟨rfl, hkey, rfl, rfl⟩

theorem ensures_lengthOf (hu : p.Usable) (h : t.Mirrors p img) (key : UInt16)
    (hallowed : ∀ L', (p.live img).Sought conduct p.chip.checksum key t.searchOrder L' →
      conduct ≠ .tearing → allowed L') :
    Ensures p conduct (p.Secure conduct anchored allowed) (lengthOf p key) t img
      (fun length t' img' => ∃ v, Read p (p.live img) key t.searchOrder v t' img' ∧
        length = v.map (·.length)) (refused (¬isValidKey key = true) t img) := by
  unfold lengthOf
  refine (ensures_payloadOf hu h key hallowed).bind ?_
  intro v t' img' hread
  exact ensures_pure ⟨v, hread, rfl⟩

/-- A buffer after a value was copied to its front, and the number of bytes copied. -/
def copied (buffer : Bytes) : Option Bytes → Nat × Bytes
  | none => (0, buffer)
  | some payload =>
    let count := min payload.length buffer.length
    (count, payload.take count ++ buffer.drop count)

theorem ensures_readItem (hu : p.Usable) (h : t.Mirrors p img) (key : UInt16) (buffer : Bytes)
    (hallowed : ∀ L', (p.live img).Sought conduct p.chip.checksum key t.searchOrder L' →
      conduct ≠ .tearing → allowed L') :
    Ensures p conduct (p.Secure conduct anchored allowed) (readItem p key buffer) t img
      (fun answer t' img' => ∃ v, Read p (p.live img) key t.searchOrder v t' img' ∧
        answer = copied buffer v) (refused (¬(isValidKey key = true ∧ buffer ≠ [])) t img) := by
  unfold readItem
  split
  · refine (ensures_find hu h key hallowed).lift.bind ?_
    rintro (_ | f) t' img' ⟨hsettled, hsighted, -⟩
    · exact ensures_pure ⟨none, hsettled.read hsighted, rfl⟩
    · exact ensures_pure ⟨some f.payload, hsettled.read hsighted, rfl⟩
  · next hargs => exact ensures_throw ⟨rfl, hargs, rfl, rfl⟩

/-- What a stored value reads as at a type. -/
def decoded {α : Type} [Storable α] : Option Bytes → Except Error (Option α)
  | none => .ok none
  | some bytes => (Storable.decode bytes).map some

theorem ensures_fetch {α : Type} [Storable α] (hu : p.Usable) (h : t.Mirrors p img) (key : UInt16)
    (hallowed : ∀ L', (p.live img).Sought conduct p.chip.checksum key t.searchOrder L' →
      conduct ≠ .tearing → allowed L') :
    Ensures p conduct (p.Secure conduct anchored allowed) (fetch key p : EngineM (Option α)) t img
      (fun value t' img' => ∃ v, Read p (p.live img) key t.searchOrder v t' img' ∧
        decoded v = .ok value)
      (fun error t' img' => refused (¬isValidKey key = true) t img error t' img' ∨ ∃ v,
        Read p (p.live img) key t.searchOrder v t' img' ∧ decoded (α := α) v = .error error) := by
  unfold fetch
  refine ((ensures_payloadOf hu h key hallowed).mono (fun _ _ _ hpost => hpost)
    fun _ _ _ hfail => Or.inl hfail).bind ?_
  rintro (_ | bytes) t' img' hread
  · exact ensures_pure ⟨none, hread, rfl⟩
  · dsimp only
    split
    · next value hvalue =>
      exact ensures_pure ⟨some bytes, hread, by rw [decoded, hvalue]; rfl⟩
    · next error herror =>
      exact ensures_throw (Or.inr ⟨some bytes, hread, by rw [decoded, herror]; rfl⟩)

end RingStore.Engine
