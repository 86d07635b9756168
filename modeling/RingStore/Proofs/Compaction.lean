import Mathlib.Data.List.MinMax
import Mathlib.Order.WellFounded
import RingStore.Proofs.Frame
import RingStore.Proofs.SecondBoot

/-!
# What a lookup finds and leaves

A flash may hold any number of copies of a key, on any pages.  A lookup finds the copy that it meets last
on the first page with a copy, where the pages come from the head backward.  It drops all others, which may
set full pages aside, and changes nothing else: no other record, no other entry of the page table, and no
other byte of the flash.

## Main statements

* `Partition.Holdings.Copy.exists_newest`: if there is a copy, one of them is the newest.
* `Session.lookup_compacts`: what a lookup finds and leaves after any run.
-/

namespace RingStore

open RingStore.Partition (Holdings)

namespace Partition.Holdings

variable {L L' : Holdings} {key : UInt16} {page : Nat} {entry : Nat × Record} {best : Option Found}

/-- **One of the copies is the newest**, in whatever order the pages are searched. -/
theorem Copy.exists_newest (h : L.Copy key page entry) (order : List Nat) :
    ∃ page entry, L.Newest key order page entry := by
  -- Of the pages with a copy, take the one that is searched first.
  obtain ⟨first, ⟨e₀, he₀⟩, hfirst⟩ :=
    (measure order.idxOf).wf.has_min { page | ∃ entry, L.Copy key page entry } ⟨page, entry, h⟩
  -- Of its copies, take the last one.
  have hmem : ∀ e, e ∈ (L first).filter (·.2.header.key == key) ↔ L.Copy key first e := by
    intro e
    rw [List.mem_filter, beq_iff_eq]
    rfl
  obtain ⟨last, hlast⟩ := Option.ne_none_iff_exists'.mp
    (mt List.argmax_eq_none.mp (List.ne_nil_of_mem ((hmem e₀).mpr he₀)) :
      ((L first).filter (·.2.header.key == key)).argmax Prod.fst ≠ none)
  refine ⟨first, last, (hmem last).mp (List.argmax_mem hlast), fun e he => ?_, fun other e he => ?_⟩
  · exact List.le_of_mem_argmax ((hmem e).mpr he) hlast
  · exact Nat.not_lt.mp (hfirst other ⟨e, he⟩)

instance (key : UInt16) (best : Option Found) (page : Nat) (entry : Nat × Record) :
    Decidable (Counts key best page entry) :=
  inferInstanceAs (Decidable (_ ∨ _))

end Partition.Holdings

/-! ## A single lookup -/

/-- What a lookup finds and leaves. -/
structure Compaction (p : Partition) (key : UInt16) (t : Table) (cells : Cells) (best : Option Found)
    (t' : Table) (after : Cells) : Prop extends
    p.Thinned t (p.image cells) t' (p.image after) where
  /-- Nothing is found only if no copy of the key is live. -/
  none_iff : best = none ↔ ∀ page entry, ¬(p.live (p.image cells)).Copy key page entry
  /-- What is found is the last copy on the first page with a copy. -/
  newest : ∀ found, best = some found → ∃ record, record.payload = found.payload ∧
    (p.live (p.image cells)).Newest key t.searchOrder found.location.page
      (found.location.offset, record)
  /-- That copy stays, and so do the records of all other keys. -/
  live : ∀ page entry, entry ∈ p.live (p.image after) page ↔
    entry ∈ p.live (p.image cells) page ∧ Holdings.Counts key best page entry
  /-- The count of each page goes down by the copies that were dropped there. -/
  counted : ∀ page entry, t.pages[page]? = some entry → ∃ entry', t'.pages[page]? = some entry' ∧
    entry'.live +
      (p.live (p.image cells) page).countP (fun e => ¬Holdings.Counts key best page e) = entry.live
  /-- The status bytes are those of the tables. -/
  stamped : t.Stamped p cells ∧ t'.Stamped p after
  /-- No byte outside of the partition has changed. -/
  confined : p.Confines cells after

namespace Session

variable {p : Partition} {t t' : Table} {session : Session} {flash : Flash} {cells after : Cells}
  {key : UInt16} {best : Option Found}

/-- What is known of the live records and of the tables is what a lookup leaves. -/
theorem compaction_of_sighted (hmirrors : t.Mirrors p (p.image cells))
    (hfits : p.base + p.size ≤ cells.size)
    (hsettled : Engine.Settled p (p.live (p.image cells)) key (best.map (·.payload)) t' (p.image after))
    (hsighted : Engine.Sighted (p.live (p.image cells)) key t.searchOrder best (p.live (p.image after)))
    (hthinned : p.Thinned t (p.image cells) t' (p.image after)) (hconfines : p.Confines cells after) :
    Compaction p key t cells best t' after := by
  have hafter : p.base + p.size ≤ after.size := hconfines.size_eq ▸ hfits
  refine ⟨hthinned, ⟨?_, fun hnone => ?_⟩, ?_, hsighted.live, fun page entry hentry => ?_,
    ⟨Engine.stamped_of_reliable (fun _ => ⟨hfits, hmirrors⟩) trivial,
      Engine.stamped_of_reliable (fun _ => ⟨hafter, hsettled.mirrors⟩) trivial⟩, hconfines⟩
  · rintro rfl
    exact hsettled.stored
  · refine Option.eq_none_iff_forall_ne_some.mpr fun found hfound => ?_
    obtain ⟨record, hcopy⟩ := hsighted.found found hfound
    exact hnone _ _ (hsighted.copies hcopy)
  · rintro found rfl
    obtain ⟨record, hcopy⟩ := hsighted.found found rfl
    obtain ⟨page, entry, hnewest⟩ := (hsighted.copies hcopy).exists_newest t.searchOrder
    obtain rfl := Option.some.inj (hsighted.newest page entry hnewest)
    exact ⟨entry.2, rfl, hnewest⟩
  · have hpages := hthinned.pages page
    rw [hentry] at hpages
    refine ⟨_, hpages, ?_⟩
    -- The records that are left are those that count.
    have hleft : (p.live (p.image after) page).length =
        (p.live (p.image cells) page).countP (Holdings.Counts key best page ·) := by
      rw [List.countP_eq_length_filter]
      refine List.Perm.length_eq ((List.perm_ext_iff_of_nodup (p.nodup_live _ page)
        ((p.nodup_live _ page).filter _)).mpr fun e => ?_)
      rw [hsighted.live, List.mem_filter, decide_eq_true_iff]
    have hsplit := (p.live (p.image cells) page).length_eq_countP_add_countP
      (Holdings.Counts key best page ·)
    rw [← hmirrors.tracks.length_live hmirrors.count_eq hentry] at hsplit
    rw [Page.live_thinned, hleft, hsplit]
    simp

/-- A lookup of a mirrored table. -/
theorem always_find (hu : p.Usable) (hmirrors : t.Mirrors p (p.image cells)) (hcoherent : t.Coherent p)
    (hfits : p.base + p.size ≤ cells.size) (key : UInt16) :
    ((Engine.find p key).run.run t).Always .reliable (fun _ => True) cells fun result after =>
      ∃ best, result.1 = .ok best ∧ Compaction p key t cells best result.2 after := by
  have hsecure := hmirrors.secure .reliable True
  have hfind := Engine.ensures_find hu hmirrors key (fun _ _ _ => trivial) cells ⟨hfits, rfl⟩ hsecure
  -- Whatever a lookup asks of the chip stays within the partition.
  have habides : ((Engine.find p key).run.run t).Always .reliable (p.Confines cells) cells _ :=
    FlashM.Abides.always (fun _ _ _ _ hresponds => ⟨hresponds.fills, False.elim⟩)
      (fun _ _ _ _ hbefore hresponds hheeds => hbefore.trans (hheeds.confines (Nat.le_of_lt hu.end_lt) hresponds))
      (Engine.abides_find ⟨hu.granular, False.elim⟩ ⟨hcoherent, False.elim, rfl⟩ key) (.refl p cells)
  refine (hfind.and (habides.keep (.refl p cells))).mono (fun _ _ => trivial) ?_
  rintro ⟨error | best, t'⟩ after ⟨hpost, hconfines, -⟩
  · rcases hpost with ⟨-, hconduct⟩ | hfail
    · exact absurd rfl hconduct
    · exact hfail.elim
  · obtain ⟨hsettled, hsighted, hthinned⟩ := hpost
    exact ⟨best, rfl, compaction_of_sighted hmirrors hfits hsettled hsighted hthinned hconfines⟩

/-! ## Lookups in a run -/

theorem Started.inRange (hchip : p.chip.Granular) (h : Started p session flash) :
    session.InRange p False #[] := by
  obtain ⟨first, foreign, hfirst, -, hrun⟩ := h
  have hstays : (Request.call .init).Stays := trivial
  have hscan := abides_handle ⟨hchip, False.elim⟩ hstays (fun _ => trivial) (hfirst.inRange False #[])
  obtain ⟨⟨-, hsession⟩, -⟩ := FlashM.run_of_abides (fun _ => #[])
    (fun access s => ⟨Flash.fills_device access s, False.elim⟩) (s := foreign) hscan
  rwa [hrun] at hsession

/-- **A lookup finds the newest copy and drops all others**, after any run from any content of the flash.
It never fails, whatever the key. -/
theorem lookup_compacts (hu : p.Usable) (hstarted : session.Started p flash) {requests : List Request}
    (hrequests : ∀ request ∈ requests, request.Stays) (key : UInt16) :
    let run := (session.serve requests).run Flash.device flash
    ∃ store, run.1.2.store = some store ∧
      let lookup := ((Engine.find p key).run.run store.table).run Flash.device run.2
      ∃ best, lookup.1.1 = .ok best ∧
        Compaction p key store.table run.2.cells best lookup.1.2 lookup.2.cells := by
  intro run
  obtain ⟨⟨store, hsession, hsound, hfits, hphase⟩, hfollows⟩ := hstarted.serve hu hrequests
  obtain ⟨-, ⟨store', hsession', hstore', -⟩, -⟩ :=
    (hstarted.inRange hu.granular).serve hu.granular hrequests Flash.fills_device flash
  obtain rfl := Option.some.inj (hsession.store_eq.symm.trans hsession'.store_eq)
  refine ⟨store, hsession.store_eq, ?_⟩
  exact (Flash.run_of_always hfollows
    (always_find hu (hsound.mirrors hphase) hstore'.table hfits key)).1

/-- Of two copies, the one on the second page is found and the other one is dropped. -/
theorem lookup_compacts_small :
    let start := (small.handle (.call .init)).run Flash.device (.steady (doubled [1, 2, 3] [4, 5, 6]))
    let requests := [Request.call .usage]
    let run := (start.1.2.serve requests).run Flash.device start.2
    let store := run.1.2.store.getD (.ofPartition .small)
    let lookup := ((Engine.find .small 2).run.run store.table).run Flash.device run.2
    let copies := fun cells => (Partition.small.live (Partition.small.image cells)).copies 2
      (List.range Partition.small.pageCount)
    Partition.small.Usable ∧ Started .small start.1.2 start.2 ∧
      (∀ request ∈ requests, request.Stays) ∧ run.1.2.store = some store ∧
      copies run.2.cells = 2 ∧ copies lookup.2.cells = 1 ∧
      ∃ best, lookup.1.1 = .ok best ∧
        Compaction .small 2 store.table run.2.cells best lookup.1.2 lookup.2.cells := by
  intro start requests run store lookup copies
  have hstarted : Started .small start.1.2 start.2 :=
    started_of_init keeps_small (fun _ => trivial) (Reply.eq_done (by decide +kernel))
  have hrequests : ∀ request ∈ requests, request.Stays := by
    simp [requests, Request.Stays]
  obtain ⟨store', hstore, hlookup⟩ := lookup_compacts Partition.usable_small hstarted hrequests 2
  obtain rfl : store = store' := congrArg (Option.getD · (.ofPartition .small)) hstore
  exact ⟨Partition.usable_small, hstarted, hrequests, hstore, by decide +kernel, by decide +kernel,
    hlookup⟩

end Session

end RingStore
