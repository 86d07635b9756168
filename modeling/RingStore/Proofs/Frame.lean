import RingStore.Proofs.Bounds

/-!
# The bytes outside of a partition

A write is widened to the write granularity.  A granularity that does not divide the page size widens it
beyond the page, and at the ends beyond the partition.  What it programs there is ones.  Addresses reach
the chip as words of 32 bits.  All positions in a partition that ends at `2 ^ 32` or below keep their
value, but the end of its last page may become zero, and the chip then refuses to erase that page.

## Main statements

* `Partition.Heeds.confines`: an access changes bytes of the partition only, torn ones included.
* `Session.outside_untouched`: so does a run, which thus leaves other partitions alone.
-/

namespace RingStore

namespace Partition

/-- The position is not one of the partition. -/
def Leaves (p : Partition) (position : Nat) : Prop :=
  position < p.base ∨ p.base + p.size ≤ position

/-- All bytes that differ are in the partition. -/
structure Confines (p : Partition) (cells after : Cells) : Prop where
  size_eq : after.size = cells.size
  getElem?_eq : ∀ position, p.Leaves position → after[position]? = cells[position]?

/-- No byte is in both partitions. -/
def Apart (p q : Partition) : Prop := q.base + q.size ≤ p.base ∨ p.base + p.size ≤ q.base

variable {p q : Partition} {cells after last : Cells} {page position : Nat}

theorem Confines.refl (p : Partition) (cells : Cells) : p.Confines cells cells :=
  ⟨rfl, fun _ _ => rfl⟩

theorem Confines.trans (h : p.Confines cells after) (h' : p.Confines after last) :
    p.Confines cells last :=
  ⟨h'.size_eq.trans h.size_eq, fun position hposition =>
    (h'.getElem?_eq position hposition).trans (h.getElem?_eq position hposition)⟩

/-! ## What is seen of another partition -/

theorem Apart.leaves (h : p.Apart q) (hlow : q.base ≤ position) (hhigh : position < q.base + q.size) :
    p.Leaves position := by
  rcases h with hbelow | habove
  · exact Or.inl (by omega)
  · exact Or.inr (by omega)

theorem Confines.slice_eq (h : p.Confines cells after) (hapart : p.Apart q) :
    after.slice q.base q.size = cells.slice q.base q.size := by
  refine List.ext_getElem? fun i => ?_
  rw [Cells.getElem?_slice, Cells.getElem?_slice]
  split
  · exact h.getElem?_eq _ (hapart.leaves (Nat.le_add_right _ _) (by omega))
  · rfl

/-- Another partition keeps its pages. -/
theorem Confines.image_eq (h : p.Confines cells after) (hapart : p.Apart q)
    (hpage : page < q.pageCount) :
    (q.image after).status page = (q.image cells).status page ∧
      (q.image after).content page = (q.image cells).content page := by
  have hend := q.pageAddress_add_le_end hpage
  have hsize := q.statusSize_add_contentSize
  have hpos := q.pageSize_pos
  have hbase : q.base ≤ q.pageAddress page := Nat.le_add_right _ _
  constructor
  · simp only [image, h.getElem?_eq _ (hapart.leaves hbase (by omega))]
  · refine List.ext_getElem? fun i => ?_
    rw [getElem?_content, getElem?_content]
    split
    · refine h.getElem?_eq _ (hapart.leaves ?_ ?_)
      · rw [contentAddress]
        omega
      · rw [contentAddress]
        omega
    · rfl

/-- Another partition keeps its live records. -/
theorem Confines.live_eq (h : p.Confines cells after) (hapart : p.Apart q) :
    q.live (q.image after) = q.live (q.image cells) := by
  funext page
  by_cases hpage : page < q.pageCount
  · obtain ⟨hstatus, hcontent⟩ := h.image_eq hapart hpage
    exact live_congr hstatus hcontent
  · rw [live, live, if_neg (fun hnot => hpage hnot.1), if_neg (fun hnot => hpage hnot.1)]

/-! ## Accesses -/

theorem confines_program {start : Nat} {bytes : Bytes}
    (h : ∀ position, p.Leaves position → Cells.byteAt start bytes position = 0xFF) :
    p.Confines cells (cells.program start bytes) := by
  refine ⟨Cells.size_program _ _ _, fun position hposition => ?_⟩
  rw [Cells.getElem?_program, h position hposition]
  cases cells[position]? <;> simp [Cells.and_ones]

theorem confines_erase {start length : Nat} (hlow : p.base ≤ start)
    (hhigh : length = 0 ∨ start + length ≤ p.base + p.size) :
    p.Confines cells (cells.erase start length) := by
  refine ⟨Cells.size_erase _ _ _, fun position hposition => ?_⟩
  rw [Cells.getElem?_erase, if_neg]
  rintro ⟨hfirst, hlast⟩
  rcases hposition with hbelow | habove
  · omega
  · omega

theorem Requests.length_pos {bytes : Bytes} (h : p.Requests position bytes) : 0 < bytes.length := by
  cases h with
  | status => exact Nat.zero_lt_one
  | record =>
    rw [length_record]
    exact Nat.add_pos_left (by decide) _
  | tombstone => decide

theorem Requests.toNat_busAddress {bytes : Bytes} (hend : p.base + p.size ≤ 2 ^ 32)
    (h : p.Requests position bytes) : (Chip.busAddress position).toNat = position := by
  have hpos := h.length_pos
  have hspan := h.spans.le_end
  exact Chip.toNat_busAddress (by omega)

/-- What a padded write programs outside of the partition is ones. -/
theorem Pads.byteAt_eq (hend : p.base + p.size ≤ 2 ^ 32) {start : UInt32} {bytes requested : Bytes}
    (h : p.Pads start bytes position requested) {outside : Nat} (hleaves : p.Leaves outside) :
    Cells.byteAt start.toNat bytes outside = 0xFF := by
  obtain ⟨hrequest, ⟨front, back, hstart, rfl⟩, -⟩ := h
  have hspan := hrequest.spans.le_end
  rw [Cells.byteAt_append_ones, Cells.byteAt_ones_append, hstart, hrequest.toNat_busAddress hend]
  rcases hleaves with hbelow | habove
  · exact Cells.byteAt_of_lt _ (by omega)
  · exact Cells.byteAt_of_le (by omega)

/-- An erased range lies in the partition, and it is empty if its end does not fit into an address. -/
theorem Clears.bounds (hend : p.base + p.size ≤ 2 ^ 32) {start stop : UInt32}
    (h : p.Clears start stop) : p.base ≤ start.toNat ∧ stop.toNat ≤ p.base + p.size := by
  obtain ⟨page, hpage, rfl, rfl⟩ := h
  have hlast := p.pageAddress_add_le_end hpage
  have hpos := p.pageSize_pos
  have hbase : p.base ≤ p.pageAddress page := Nat.le_add_right _ _
  have hstop : (Chip.busAddress (p.pageAddress page + p.pageSize)).toNat ≤
      p.pageAddress page + p.pageSize := Nat.mod_le _ _
  exact ⟨by rw [Chip.toNat_busAddress (by omega)]; exact hbase, Nat.le_trans hstop hlast⟩

/-- **An access changes bytes of the partition only.** -/
theorem Heeds.confines (hend : p.base + p.size ≤ 2 ^ 32) {lawful : Prop} {conduct : Conduct}
    {access : Access} {answer : access.Answer} (h : p.Heeds lawful access answer after)
    (hresponds : conduct.Responds cells access answer after) : p.Confines cells after := by
  cases access with
  | read start length =>
    cases answer with
    | none => exact hresponds.2 ▸ .refl p cells
    | some bytes => exact hresponds.2.2 ▸ .refl p cells
  | write start bytes =>
    obtain ⟨position, requested, hpads, -⟩ := h
    cases answer with
    | true =>
      rw [hresponds.2]
      exact confines_program fun _ => hpads.byteAt_eq hend
    | false =>
      obtain ⟨-, skipped, count, -, rfl⟩ := hresponds
      refine confines_program fun outside hleaves => ?_
      rw [Cells.byteAt_part, hpads.byteAt_eq hend hleaves, ite_self]
  | erase start stop =>
    obtain ⟨hlow, hhigh⟩ := Clears.bounds hend h
    cases answer with
    | true =>
      rw [hresponds.2]
      exact confines_erase hlow (by omega)
    | false =>
      obtain ⟨-, skipped, count, -, hcount, rfl⟩ := hresponds
      exact confines_erase (by omega) (by omega)

end Partition

/-! ## Runs -/

namespace Session

variable {p : Partition} {session : Session} {requests : List Request} {cells : Cells}

/-- A run changes bytes of the partition only. -/
theorem always_confines (conduct : Conduct) (hchip : p.chip.Granular) (hend : p.base + p.size ≤ 2 ^ 32)
    (hrequests : ∀ request ∈ requests, request.Stays) (h : session.InRange p False cells) :
    (session.serve requests).Always conduct (p.Confines cells) cells fun _ after =>
      p.Confines cells after := by
  have habides := abides_serve ⟨hchip, False.elim⟩
    (fun request hrequest => ⟨hrequests request hrequest, False.elim⟩) h
  have hkeep : ∀ (before : Cells) (access : Access) (answer : access.Answer) (after : Cells),
      p.Confines cells before → conduct.Responds before access answer after →
        p.Heeds False access answer after → p.Confines cells after :=
    fun _ _ _ _ hbefore hresponds hheeds => hbefore.trans (hheeds.confines hend hresponds)
  have halways := habides.always (fun _ _ _ _ hresponds => ⟨hresponds.fills, False.elim⟩) hkeep
    (.refl p cells)
  exact (halways.keep (.refl p cells)).mono (fun _ h => h) fun _ _ h => h.1

/-- **A store leaves the bytes outside of its partition alone**, and so what another store has in a
partition apart from it.  The partition may be any that ends at `2 ^ 32` or below, with granularities
that need not divide its page size, and accesses may be refused and torn.  Requests may have been served
before on any device, for instance in turns with those of the other store. -/
theorem outside_untouched (hchip : p.chip.Granular) (hend : p.base + p.size ≤ 2 ^ 32)
    (hsession : session.Keeps p (.ofPartition p)) {earlier : List Request}
    (hearlier : ∀ request ∈ earlier, request.Stays) {σ : Type} {device : Device σ}
    (hdevice : device.Fills) (s : σ) (hrequests : ∀ request ∈ requests, request.Stays)
    (flash : Flash) :
    let reached := ((session.serve earlier).run device s).1.2
    ∀ state ∈ ((reached.serve requests).run Flash.device flash).2 ::
        (reached.serve requests).visited Flash.device flash,
      p.Confines flash.cells state.cells ∧
        ∀ q : Partition, p.Apart q →
          state.cells.slice q.base q.size = flash.cells.slice q.base q.size ∧
            q.live (q.image state.cells) = q.live (q.image flash.cells) := by
  obtain ⟨-, ⟨store, hkeeps, hstore, -⟩, -⟩ :=
    (hsession.inRange False #[]).serve hchip hearlier hdevice s
  obtain ⟨hlast, -, hvisited⟩ := Flash.run_of_always flash.follows_tearing
    (always_confines .tearing hchip hend hrequests ⟨store, hkeeps, hstore, False.elim⟩)
  intro reached state hstate
  have hconfines : p.Confines flash.cells state.cells := by
    rcases List.mem_cons.mp hstate with rfl | hmem
    · exact hlast
    · exact hvisited state hmem
  exact ⟨hconfines, fun q hapart => ⟨hconfines.slice_eq hapart, hconfines.live_eq hapart⟩⟩

end Session

/-! ## A partition within a flash -/

/-- Two pages of eight bytes behind the first eight bytes of a flash, programmed by five. -/
def Partition.inner : Partition :=
  { Partition.small with
    chip := { Chip.small with writeSize := 5, capacity := 32 }
    base := 8
    eraseSize_pos := by decide
    eraseSize_dvd := by decide
    pageSize_dvd := by decide
    end_le := by decide }

/-- A session that has created a store on this partition. -/
def Session.inner : Session := ⟨Partition.inner.chip, ⟨8, 16, none⟩, some (.ofPartition .inner)⟩

theorem Session.keeps_inner : Session.inner.Keeps .inner (.ofPartition .inner) := by
  have hcreate : Partition.create Partition.inner.chip 8 16 8 = .ok .inner :=
    Partition.create_eq_ok_iff.mpr ⟨rfl, rfl, rfl, rfl⟩
  refine ⟨?_, rfl⟩
  show (Partition.create Partition.inner.chip 8 16 8).map _ = _
  rw [hcreate]
  rfl

/-- A partition is formatted and written to between foreign bytes.  Its writes begin in front of it, and
one of these is torn. -/
theorem Session.outside_untouched_inner :
    let foreign : Cells := .replicate 32 0x5A
    let earlier : List Request := [.call .init]
    let reached := ((inner.serve earlier).run Flash.device (.steady foreign)).1.2
    let requests : List Request := [.reboot, .call (.writeItem 5 [7])]
    let flash : Flash := ⟨foreign, fun n => if n = 5 then .refused 2 6 else .granted⟩
    Partition.inner.chip.Granular ∧ Partition.inner.base + Partition.inner.size ≤ 2 ^ 32 ∧
      inner.Keeps .inner (.ofPartition .inner) ∧ (∀ request ∈ earlier, request.Stays) ∧
      Device.Fills Flash.device ∧ (∀ request ∈ requests, request.Stays) ∧
      .write 5 [0xFF, 0xFF, 0xFF, 0xFF, 1, 7, 5, 0, 7, 0xFF] ∈
        ((reached.serve requests).steps Flash.device flash).map (·.access) ∧
      ∀ state ∈ ((reached.serve requests).run Flash.device flash).2 ::
          (reached.serve requests).visited Flash.device flash,
        Partition.inner.Confines flash.cells state.cells ∧
          ∀ q : Partition, Partition.inner.Apart q →
            state.cells.slice q.base q.size = flash.cells.slice q.base q.size ∧
              q.live (q.image state.cells) = q.live (q.image flash.cells) := by
  intro foreign earlier reached requests flash
  have hchip : Partition.inner.chip.Granular := ⟨by decide, by decide, by decide, by decide⟩
  have hend : Partition.inner.base + Partition.inner.size ≤ 2 ^ 32 := by decide
  have hearlier : ∀ request ∈ earlier, request.Stays := by simp [earlier, Request.Stays]
  have hrequests : ∀ request ∈ requests, request.Stays := by simp [requests, Request.Stays]
  exact ⟨hchip, hend, keeps_inner, hearlier, Flash.fills_device, hrequests, by decide +kernel,
    outside_untouched hchip hend keeps_inner hearlier Flash.fills_device (.steady foreign) hrequests
      flash⟩

end RingStore
