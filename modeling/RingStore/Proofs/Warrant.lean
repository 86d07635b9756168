import RingStore.Proofs.Engine.Logic
import RingStore.Proofs.Requests

/-!
# Erases that may be cut short

A refused erase may still take effect on a part of its page.  What that leaves of a store is known if the
page had nothing to lose when the erase was asked for, and if nothing more is done to the flash.
`FlashM.Warranted` says both of a program: on a flash that refuses no access, whenever it asks for an erase
that erase is due, and the program ends at once if it is refused.

Most programs ask for no erase at all.  Those are `Sparing`, which needs no look at the flash.

## Main statements

* `FlashM.warranted_bind`, `EngineM.Ensures.warranted_bind`: a program is treated step by step, with what
  is known of the flash after each of them.
* `Flash.run_of_warranted`: a run in which an erase is refused ends where that erase was due.
-/

namespace RingStore

variable {α β σ : Type}

/-- The access is no erase. -/
def Access.Spares : Access → Prop
  | .erase _ _ => False
  | _ => True

namespace FlashM

variable {due : UInt32 → UInt32 → Cells → Prop} {ended : α → Prop} {ended' : β → Prop} {cells : Cells}

/-- No access of a program is an erase. -/
def Sparing : FlashM α → Prop
  | done _ => True
  | request access next => access.Spares ∧ ∀ answer, (next answer).Sparing

/-- If the access is an erase, it is due, and its refusal ends the program. -/
def Warrant (due : UInt32 → UInt32 → Cells → Prop) (ended : α → Prop) (cells : Cells) :
    (access : Access) → (access.Answer → FlashM α) → Prop
  | .erase start stop, next => due start stop cells ∧ ∃ a, ended a ∧ next false = done a
  | _, _ => True

/-- On a flash that refuses no access, a program asks for erases that are due, and the refusal of one
would end it. -/
def Warranted (due : UInt32 → UInt32 → Cells → Prop) (ended : α → Prop) : FlashM α → Cells → Prop
  | done _, _ => True
  | request access next, cells => Warrant due ended cells access next ∧
    ∀ answer after, Conduct.reliable.Responds cells access answer after →
      (next answer).Warranted due ended after

theorem sparing_bind {x : FlashM α} {f : α → FlashM β} (hx : x.Sparing) (hf : ∀ a, (f a).Sparing) :
    (x >>= f).Sparing := by
  induction x with
  | done a => exact hf a
  | request access next ih => exact ⟨hx.1, fun answer => ih answer (hx.2 answer)⟩

theorem Sparing.warranted {x : FlashM α} (hx : x.Sparing) : x.Warranted due ended cells := by
  induction x generalizing cells with
  | done a => trivial
  | request access next ih =>
    refine ⟨?_, fun answer after _ => ih answer (hx.2 answer)⟩
    cases access with
    | erase start stop => exact hx.1.elim
    | _ => trivial

theorem Warrant.bind {access : Access} {next : access.Answer → FlashM α} {f : α → FlashM β}
    (h : Warrant due ended cells access next)
    (hended : ∀ a, ended a → ∃ b, ended' b ∧ f a = done b) :
    Warrant due ended' cells access fun answer => next answer >>= f := by
  cases access with
  | erase start stop =>
    obtain ⟨hdue, a, ha, hnext⟩ := h
    obtain ⟨b, hb, hf⟩ := hended a ha
    exact ⟨hdue, b, hb, (congrArg (· >>= f) hnext).trans hf⟩
  | _ => trivial

theorem warranted_bind {x : FlashM α} {f : α → FlashM β} {inv : Cells → Prop}
    {post : α → Cells → Prop} (hx : x.Warranted due ended cells)
    (hended : ∀ a, ended a → ∃ b, ended' b ∧ f a = done b)
    (halways : x.Always .reliable inv cells post)
    (hf : ∀ a after, post a after → (f a).Warranted due ended' after) :
    (x >>= f).Warranted due ended' cells := by
  induction x generalizing cells with
  | done a => exact hf a cells halways
  | request access next ih =>
    obtain ⟨hwarrant, hnext⟩ := hx
    refine ⟨hwarrant.bind hended, fun answer after hresponds => ?_⟩
    exact ih answer (hnext answer after hresponds) (halways answer after hresponds).2

end FlashM

/-! ## Runs in which an erase is refused -/

/-- One access is refused.  An erase still takes effect on `count` bytes of its range, behind the first
`skipped` ones. -/
def Fate.erasedAt (access skipped count : Nat) : Nat → Fate := fun n =>
  if n = access then .refused skipped count else .granted

namespace Flash

/-- What a granted access does depends on the cells alone. -/
theorem exists_device_granted (access : Access) (cells : Cells) :
    ∃ answer after, Conduct.reliable.Responds cells access answer after ∧
      ∀ fates : Nat → Fate, fates 0 = .granted →
        device access ⟨cells, fates⟩ = (answer, ⟨after, fun n => fates (n + 1)⟩) := by
  cases access with
  | read start length =>
    by_cases hcells : start.toNat + length ≤ cells.size
    · refine ⟨some (cells.slice start.toNat length), cells, ⟨hcells, rfl, rfl⟩, fun fates h => ?_⟩
      simp only [device, h, if_pos hcells]
      rfl
    · refine ⟨none, cells, ⟨fun _ => by omega, rfl⟩, fun fates h => ?_⟩
      simp only [device, h, if_neg hcells]
      rfl
  | write start bytes =>
    by_cases hcells : start.toNat + bytes.length ≤ cells.size
    · refine ⟨true, cells.program start.toNat bytes, ⟨hcells, rfl⟩, fun fates h => ?_⟩
      simp only [device, h, if_pos hcells]
      rfl
    · refine ⟨false, cells, ⟨fun _ => by omega, 0, 0, fun _ => rfl, rfl⟩, fun fates _ => ?_⟩
      simp only [device, if_neg hcells]
      rfl
  | erase start stop =>
    by_cases hcells : start ≤ stop ∧ stop.toNat ≤ cells.size
    · refine ⟨true, cells.erase start.toNat (stop.toNat - start.toNat), ⟨hcells.2, rfl⟩,
        fun fates h => ?_⟩
      simp only [device, h, if_pos hcells]
      rfl
    · refine ⟨false, cells, ⟨fun _ => ?_, 0, 0, fun _ => rfl, Nat.zero_le _, rfl⟩, fun fates _ => ?_⟩
      · rcases Classical.not_and_iff_not_or_not.mp hcells with hnot | hnot
        · exact Or.inl (UInt32.not_le.mp hnot)
        · exact Or.inr (Nat.lt_of_not_le hnot)
      · simp only [device, if_neg hcells]
        rfl

/-- A refused erase of a range within the array takes effect on a part of it. -/
theorem device_erase_refused {start stop : UInt32} {cells : Cells} (hrange : start ≤ stop)
    (hcells : stop.toNat ≤ cells.size) (skipped count : Nat) :
    device (.erase start stop) ⟨cells, Fate.erasedAt 0 skipped count⟩ = (false, steady (cells.erase
      (start.toNat + skipped) (min count (stop.toNat - start.toNat - skipped)))) := by
  simp only [device, if_pos (And.intro hrange hcells)]
  rfl

theorem erasedAt_succ (index skipped count n : Nat) :
    Fate.erasedAt (index + 1) skipped count (n + 1) = Fate.erasedAt index skipped count n := by
  simp only [Fate.erasedAt, Nat.add_right_cancel_iff]

/-- **A run in which an erase is refused** goes as far as that erase, which was due, and no further.  That
does not depend on the part of it that takes effect. -/
theorem run_of_warranted {due : UInt32 → UInt32 → Cells → Prop} {ended : α → Prop} {x : FlashM α}
    {cells : Cells} {index skipped count : Nat} {start stop : UInt32}
    (h : x.Warranted due ended cells)
    (herase : ((x.steps device ⟨cells, Fate.erasedAt index skipped count⟩)[index]?).map Step.access =
      some (.erase start stop)) :
    ∃ (a : α) (reached : Cells), ended a ∧ due start stop reached ∧ reached.size = cells.size ∧
      ∀ skipped count, x.run device ⟨cells, Fate.erasedAt index skipped count⟩ =
        (a, (device (.erase start stop) ⟨reached, Fate.erasedAt 0 skipped count⟩).2) := by
  induction x generalizing cells index with
  | done a => cases herase
  | request access next ih =>
    obtain ⟨hwarrant, hnext⟩ := h
    cases index with
    | zero =>
      obtain rfl : access = .erase start stop := Option.some.inj herase
      obtain ⟨hdue, a, ha, hrefused⟩ := hwarrant
      refine ⟨a, cells, ha, hdue, rfl, fun skipped count => ?_⟩
      have hanswer : (device (.erase start stop) ⟨cells, Fate.erasedAt 0 skipped count⟩).1 = false := by
        simp only [device, Fate.erasedAt, if_true]
        split <;> rfl
      show (next (device _ _).1).run device _ = _
      rw [hanswer, hrefused]
      rfl
    | succ index =>
      -- The accesses before the erase are granted, whatever becomes of the erase.
      obtain ⟨answer, after, hresponds, hdevice⟩ := exists_device_granted access cells
      have hgranted : ∀ skipped count, device access ⟨cells, Fate.erasedAt (index + 1) skipped count⟩ =
          (answer, ⟨after, Fate.erasedAt index skipped count⟩) := fun skipped count => by
        rw [hdevice _ rfl]
        simp only [erasedAt_succ]
      rw [FlashM.steps, List.getElem?_cons_succ, hgranted] at herase
      obtain ⟨a, reached, ha, hdue, hsize, hrun⟩ := ih _ (hnext _ _ hresponds) herase
      refine ⟨a, reached, ha, hdue, hsize.trans hresponds.size_eq, fun skipped count => ?_⟩
      rw [FlashM.run, hgranted]
      exact hrun skipped count

end Flash

/-! ## Programs of accesses -/

namespace Partition

variable {p : Partition} {due : Nat → Image → Prop} {page : Nat} {img : Image}

/-- An erase of a page that is due. -/
def Due (p : Partition) (due : Nat → Image → Prop) (start stop : UInt32) (cells : Cells) : Prop :=
  ∃ page < p.pageCount, start = Chip.busAddress (p.pageAddress page) ∧
    stop = Chip.busAddress (p.pageAddress page + p.pageSize) ∧ due page (p.image cells)

theorem sparing_ofBytes {x : FlashM (Option Bytes)} (hx : x.Sparing) :
    (AccessM.ofBytes x).run.Sparing := by
  refine FlashM.sparing_bind (FlashM.sparing_bind hx fun _ => trivial) ?_
  rintro (_ | _ | _) <;> trivial

theorem sparing_ofGrant {x : FlashM Bool} (hx : x.Sparing) : (AccessM.ofGrant x).run.Sparing := by
  refine FlashM.sparing_bind (FlashM.sparing_bind hx fun _ => trivial) ?_
  rintro (_ | _ | _) <;> trivial

theorem sparing_readContent (page offset length : Nat) :
    (p.readContent page offset length).run.Sparing := by
  unfold readContent
  split
  · trivial
  · split
    · trivial
    · exact sparing_ofBytes ⟨trivial, fun _ => trivial⟩

theorem sparing_writeContent (page offset : Nat) (bytes : Bytes) :
    (p.writeContent page offset bytes).run.Sparing := by
  unfold writeContent
  split
  · trivial
  · split
    · trivial
    · exact sparing_ofGrant ⟨trivial, fun _ => trivial⟩

theorem sparing_writeStatus (page : Nat) (status : PageStatus) :
    (p.writeStatus page status).run.Sparing :=
  sparing_ofGrant ⟨trivial, fun _ => trivial⟩

/-- An erase is the only access of its program. -/
theorem warranted_erasePage (hpage : page < p.pageCount) {cells : Cells}
    (hdue : due page (p.image cells)) :
    (p.erasePage page).run.Warranted (p.Due due) (· = .error .ioFailure) cells :=
  ⟨⟨⟨page, hpage, rfl, rfl, hdue⟩, .error .ioFailure, rfl, rfl⟩, fun answer _ _ => by
    cases answer <;> trivial⟩

end Partition

/-! ## Engine programs -/

namespace EngineM

open Engine

variable {p : Partition} {due : Nat → Image → Prop} {inv : Image → Prop} {t : Table} {img : Image}

/-- A program asks for no erase. -/
def Sparing (x : EngineM α) : Prop := ∀ t, (x.run.run t).Sparing

/-- Whenever a program asks for the erase of a page, that is due, and its refusal ends the program. -/
def Warranted (p : Partition) (due : Nat → Image → Prop) (x : EngineM α) (t : Table) (img : Image) :
    Prop :=
  ∀ cells, p.Shows img cells →
    (x.run.run t).Warranted (p.Due due) (fun result => result.1 = .error .ioFailure) cells

theorem sparing_pure (a : α) : Sparing (pure a : EngineM α) := fun _ => trivial

theorem sparing_throw (error : Error) : Sparing (throw error : EngineM α) := fun _ => trivial

theorem sparing_get : Sparing (get : EngineM Table) := fun _ => trivial

theorem sparing_modify (f : Table → Table) : Sparing (modify f : EngineM PUnit) := fun _ => trivial

theorem sparing_perform {x : AccessM α} (hx : x.run.Sparing) : (perform x).Sparing :=
  fun _ => FlashM.sparing_bind hx fun _ => trivial

theorem Sparing.bind {x : EngineM α} {f : α → EngineM β} (hx : x.Sparing) (hf : ∀ a, (f a).Sparing) :
    (x >>= f).Sparing := by
  intro t
  rw [run_bind]
  refine FlashM.sparing_bind (hx t) ?_
  rintro ⟨error | a, t'⟩
  · trivial
  · exact hf a t'

theorem Sparing.map {x : EngineM α} (hx : x.Sparing) (f : α → β) : (f <$> x).Sparing := by
  rw [map_eq_pure_bind]
  exact hx.bind fun _ => sparing_pure _

theorem sparing_foldlM {f : σ → β → EngineM σ} (hf : ∀ s b, (f s b).Sparing) (bs : List β) (s : σ) :
    (bs.foldlM f s).Sparing := by
  induction bs generalizing s with
  | nil => exact sparing_pure s
  | cons b rest ih =>
    rw [List.foldlM_cons]
    exact (hf s b).bind fun s' => ih s'

theorem sparing_forM_option {f : β → EngineM Unit} (hf : ∀ b, (f b).Sparing) (b : Option β) :
    (b.forM f).Sparing := by
  cases b with
  | none => exact sparing_pure ()
  | some b => exact hf b

theorem Sparing.warranted {x : EngineM α} (hx : x.Sparing) : Warranted p due x t img :=
  fun _ _ => (hx t).warranted

/-- **A program is warranted step by step**, with what the first step ensures. -/
theorem Ensures.warranted_bind {x : EngineM α} {f : α → EngineM β} {post : Post α} {fail : Post Error}
    (hens : Ensures p .reliable inv x t img post fail) (hinv : inv img) (hx : Warranted p due x t img)
    (hf : ∀ a t' img', post a t' img' → Warranted p due (f a) t' img') :
    Warranted p due (x >>= f) t img := by
  intro cells hshows
  rw [run_bind]
  have hkeep := (hens cells hshows hinv).keep (hshows.image_eq ▸ hinv)
  refine FlashM.warranted_bind (hx cells hshows) ?_ hkeep ?_
  · rintro ⟨_, t'⟩ rfl
    exact ⟨(.error .ioFailure, t'), rfl, rfl⟩
  · rintro ⟨error | a, t'⟩ after ⟨-, hsize, hpost⟩
    · trivial
    · exact hf a t' _ hpost after ⟨hsize ▸ hshows.end_le, rfl⟩

/-- No erase is asked for after the first step. -/
theorem Warranted.bind {x : EngineM α} {f : α → EngineM β} (hx : Warranted p due x t img)
    (hf : ∀ a, (f a).Sparing) : Warranted p due (x >>= f) t img := by
  intro cells hshows
  rw [run_bind]
  refine FlashM.warranted_bind (hx cells hshows) ?_ (FlashM.always_size _ cells) ?_
  · rintro ⟨_, t'⟩ rfl
    exact ⟨(.error .ioFailure, t'), rfl, rfl⟩
  · rintro ⟨error | a, t'⟩ after -
    · trivial
    · exact (hf a t').warranted

theorem Warranted.map {x : EngineM α} (hx : Warranted p due x t img) (f : α → β) :
    Warranted p due (f <$> x) t img := by
  rw [map_eq_pure_bind]
  exact hx.bind fun _ => sparing_pure _

theorem warranted_perform {x : AccessM α}
    (h : ∀ cells, p.Shows img cells → x.run.Warranted (p.Due due) (· = .error .ioFailure) cells) :
    Warranted p due (perform x) t img := by
  intro cells hshows
  refine FlashM.warranted_bind (h cells hshows) ?_ (FlashM.always_size _ cells) fun _ _ _ => trivial
  rintro _ rfl
  exact ⟨(.error .ioFailure, t), rfl, rfl⟩

theorem warranted_get_bind {f : Table → EngineM α} (h : Warranted p due (f t) t img) :
    Warranted p due (get >>= f) t img := h

theorem warranted_modify_bind {g : Table → Table} {f : PUnit → EngineM α}
    (h : Warranted p due (f ⟨⟩) (g t) img) : Warranted p due (modify g >>= f) t img := h

theorem warranted_pageAt_bind {page : Nat} {entry : Page} {f : Page → EngineM α}
    (hentry : t.pages[page]? = some entry) (h : Warranted p due (f entry) t img) :
    Warranted p due (pageAt page >>= f) t img := by
  intro cells hshows
  rw [run_pageAt_bind f hentry]
  exact h cells hshows

/-- A loop is warranted if each of its steps is, and with what its steps ensure. -/
theorem warranted_foldlM {f : σ → β → EngineM σ} {fail : Post Error}
    (motive : List β → σ → Table → Image → Prop) {bs : List β} (hinv : ∀ img, inv img)
    (hstep : ∀ b ∈ bs, ∀ rest s t img, motive (b :: rest) s t img →
      Ensures p .reliable inv (f s b) t img (fun s' t' img' => motive rest s' t' img') fail)
    (hwarranted : ∀ b ∈ bs, ∀ rest s t img, motive (b :: rest) s t img →
      Warranted p due (f s b) t img)
    {s : σ} (h : motive bs s t img) : Warranted p due (bs.foldlM f s) t img := by
  induction bs generalizing s t img with
  | nil => exact (sparing_pure s).warranted
  | cons b rest ih =>
    obtain ⟨hb, hrest⟩ := List.forall_mem_cons.mp hstep
    obtain ⟨hwb, hwrest⟩ := List.forall_mem_cons.mp hwarranted
    rw [List.foldlM_cons]
    exact (hb rest s t img h).warranted_bind (hinv img) (hwb rest s t img h)
      fun _ _ _ hmotive => ih hrest hwrest hmotive

end EngineM

end RingStore
