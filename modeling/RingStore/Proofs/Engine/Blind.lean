import RingStore.Proofs.Blind
import RingStore.Proofs.Engine.Update
import RingStore.Proofs.Patch

/-!
# Operations that do not look at the flash

The operations that change the flash decide what to do from the page table alone; only walks read.  So
what they do to an image is known from what they do to one that differs from it in the bytes of a record.

## Main statements

* `EngineM.Blind.ensures_beside`: a blind program on an image, from what it does to a patched one.
* `Engine.blind_drop`, `Engine.blind_sweep`, `Engine.blind_selectPage`, …: the blind operations.
-/

namespace RingStore

/-- Where two images agree before a program, they agree after it. -/
structure Image.Beside (img beside img' beside' : Image) : Prop where
  status_eq : img'.status = beside'.status
  content_eq : ∀ (page i : Nat), (img.content page)[i]? = (beside.content page)[i]? →
    (img'.content page)[i]? = (beside'.content page)[i]?

/-- Images agree where the cells do. -/
theorem Partition.image_beside {p : Partition} {cells beside cells' beside' : Cells}
    (hstatus : ∀ page, cells[p.pageAddress page]? = beside[p.pageAddress page]?)
    (h : ∀ i : Nat, cells[i]? = beside[i]? → cells'[i]? = beside'[i]?) :
    (p.image cells).Beside (p.image beside) (p.image cells') (p.image beside') := by
  refine ⟨funext fun page => ?_, fun page i hi => ?_⟩
  · simp only [image, h _ (hstatus page)]
  · rw [getElem?_content, getElem?_content] at hi ⊢
    split at hi
    · next hlt =>
      rw [if_pos hlt, if_pos hlt]
      exact h _ hi
    · next hlt => rw [if_neg hlt, if_neg hlt]

namespace EngineM

open Engine

variable {α β σ : Type} {p : Partition} {t : Table} {img : Image} {location : Location} {bytes : Bytes}

/-- No access of a program is a read. -/
def Blind (x : EngineM α) : Prop := ∀ t, (x.run.run t).Blind

/-- **What a blind program does to a patched image tells what it does to the image.** -/
theorem Blind.ensures_beside {x : EngineM α} (hx : x.Blind)
    (hroom : location.offset + bytes.length ≤ p.contentSize) {post : Post α} {fail : Post Error}
    (h : Ensures p .reliable p.Unasked x t (img.patch location bytes) post fail) :
    Ensures p .reliable p.Unasked x t img
      (fun a t' img' => ∃ beside, post a t' beside ∧
        img.Beside (img.patch location bytes) img' beside)
      (fun error t' img' => ∃ beside, fail error t' beside ∧
        img.Beside (img.patch location bytes) img' beside) := by
  rintro cells ⟨hend, rfl⟩ -
  let beside := cells.overwrite (p.contentAddress location.page location.offset) bytes
  have himage : p.image beside = (p.image cells).patch location bytes := p.image_overwrite hroom
  have hsize : cells.size = beside.size := (Cells.size_overwrite _ _ _).symm
  -- A status byte is no byte of a content.
  have hstatus : ∀ page, cells[p.pageAddress page]? = beside[p.pageAddress page]? := by
    intro page
    have hout : p.pageAddress page < p.contentAddress location.page location.offset ∨
        p.contentAddress location.page location.offset + bytes.length ≤ p.pageAddress page :=
      p.status_not_mem_content hroom page
    rw [Cells.getElem?_overwrite, if_neg (by omega)]
  have hbeside : ∀ after after' : Cells, (∀ i : Nat, cells[i]? = beside[i]? → after[i]? = after'[i]?) →
      (p.image cells).Beside ((p.image cells).patch location bytes) (p.image after) (p.image after') :=
    fun _ _ hagree => himage ▸ p.image_beside hstatus hagree
  have halways := (hx t).always_beside hsize (h beside ⟨hsize ▸ hend, himage⟩ (p.secure_of_unasked _ _))
  refine halways.mono (fun _ _ => p.secure_of_unasked _ _) ?_
  rintro ⟨error | a, t'⟩ after ⟨after', hpost, -, hagree⟩
  · rcases hpost with ⟨-, hconduct⟩ | hfail
    · exact absurd rfl hconduct
    · exact Or.inr ⟨_, hfail, hbeside after after' hagree⟩
  · exact ⟨_, hpost, hbeside after after' hagree⟩

/-! ## The rules -/

theorem blind_pure (a : α) : Blind (pure a : EngineM α) := fun _ => trivial

theorem blind_throw (error : Error) : Blind (throw error : EngineM α) := fun _ => trivial

theorem Blind.bind {x : EngineM α} {f : α → EngineM β} (hx : x.Blind) (hf : ∀ a, (f a).Blind) :
    (x >>= f).Blind := by
  intro t
  rw [run_bind]
  refine FlashM.blind_bind (hx t) ?_
  rintro ⟨error | a, t'⟩
  · trivial
  · exact hf a t'

theorem blind_get : Blind (get : EngineM Table) := fun _ => trivial

theorem blind_modify (f : Table → Table) : Blind (modify f : EngineM PUnit) := fun _ => trivial

theorem blind_perform {x : AccessM α} (hx : x.run.Blind) : (perform x).Blind :=
  fun _ => FlashM.blind_bind hx fun _ => trivial

theorem blind_foldlM {f : σ → β → EngineM σ} (hf : ∀ s b, (f s b).Blind) (bs : List β) (s : σ) :
    (bs.foldlM f s).Blind := by
  induction bs generalizing s with
  | nil => exact blind_pure s
  | cons b rest ih =>
    rw [List.foldlM_cons]
    exact (hf s b).bind fun s' => ih s'

theorem blind_forM_option {f : β → EngineM Unit} (hf : ∀ b, (f b).Blind) (b : Option β) :
    (b.forM f).Blind := by
  cases b with
  | none => exact blind_pure ()
  | some b => exact hf b

end EngineM

/-! ## The operations -/

namespace Engine

open EngineM

variable (p : Partition) (page : Nat)

theorem blind_pageAt : (pageAt page).Blind := by
  refine blind_get.bind fun t => ?_
  split
  · exact blind_pure _
  · exact blind_throw _

theorem blind_setStatus (status : PageStatus) : (setStatus p page status).Blind :=
  (blind_pageAt page).bind fun _ =>
    (blind_perform (Partition.blind_writeStatus status)).bind fun _ => blind_modify _

theorem blind_erasePage : (erasePage p page).Blind :=
  (blind_pageAt page).bind fun _ =>
    (blind_perform Partition.blind_erasePage).bind fun _ => blind_modify _

theorem blind_freeBytes : (freeBytes p page).Blind := by
  refine (blind_pageAt page).bind fun entry => ?_
  split
  · exact blind_pure _
  · exact blind_throw _

theorem blind_append (key : UInt16) (payload : Bytes) : (append p page key payload).Blind := by
  refine (blind_pageAt page).bind fun entry => ?_
  refine (blind_perform (Partition.blind_writeContent _)).bind fun _ => ?_
  dsimp only
  split
  · exact blind_modify _
  · exact blind_throw _

theorem blind_close : (close p page).Blind := by
  refine (blind_pageAt page).bind fun entry => (blind_setStatus p page _).bind fun _ => ?_
  split
  · exact blind_setStatus p page _
  · exact blind_pure _

theorem blind_reclaim : (reclaim p page).Blind := by
  refine (blind_pageAt page).bind fun entry => ?_
  split
  · refine blind_get.bind fun t => ?_
    split
    · next next _ =>
      exact (blind_pageAt next).bind fun _ => (blind_setStatus p next _).bind fun _ =>
        (blind_modify _).bind fun _ => blind_erasePage p page
    · exact (blind_erasePage p page).bind fun _ => blind_setStatus p page _
  · exact blind_erasePage p page

theorem blind_drop (location : Location) (policy : ReclaimPolicy) : (drop p location policy).Blind := by
  refine (blind_pageAt _).bind fun entry => ?_
  refine (blind_perform (Partition.blind_writeContent _)).bind fun _ => ?_
  refine (blind_modify _).bind fun _ => ?_
  split
  · split
    · exact blind_reclaim p _
    · exact blind_setStatus p _ _
    · exact blind_pure _
  · exact blind_pure _

theorem blind_sweep : (sweep p).Blind := by
  refine blind_get.bind fun t => blind_foldlM (fun reclaimed page => ?_) _ _
  refine (blind_pageAt page).bind fun entry => ?_
  split
  · exact (blind_reclaim p page).bind fun _ => blind_pure _
  · exact blind_pure _

theorem blind_claimErased : (claimErased p).Blind := by
  refine blind_get.bind fun t => ?_
  split
  · exact blind_pure _
  · refine blind_get.bind fun t => ?_
    split
    · exact blind_throw _
    · refine (blind_reclaim p _).bind fun _ => blind_get.bind fun t => ?_
      split
      · exact blind_pure _
      · exact blind_throw _

theorem blind_openNext (active : Option Nat) : (openNext p active).Blind :=
  (blind_claimErased p).bind fun target => (blind_forM_option (blind_close p) active).bind fun _ =>
    (blind_pageAt target).bind fun _ => (blind_setStatus p target _).bind fun _ =>
      (blind_modify _).bind fun _ => blind_pure _

theorem blind_activeWithRoom (active : Option Nat) (needed : Nat) :
    (activeWithRoom p active needed).Blind := by
  cases active with
  | none => exact blind_pure _
  | some page => exact (blind_freeBytes p page).bind fun _ => blind_pure _

theorem blind_selectPage (length : Nat) : (selectPage p length).Blind := by
  refine blind_get.bind fun t => (blind_activeWithRoom p _ _).bind fun room => ?_
  split
  · exact blind_pure _
  · exact blind_openNext p _

theorem blind_closeIfFull : (closeIfFull p page).Blind := by
  refine (blind_pageAt page).bind fun entry => ?_
  split
  · refine (blind_freeBytes p page).bind fun free => ?_
    split
    · exact blind_close p page
    · exact blind_pure _
  · exact blind_pure _

/-- Once the stored copy is known, a write does not look at the flash. -/
theorem blind_renew (key : UInt16) (payload : Bytes) (old : Option Found) :
    (renew p key payload old).Blind := by
  unfold renew
  split
  · exact blind_pure ()
  · refine (blind_selectPage p payload.length).bind fun page => ?_
    refine (blind_append p page key payload).bind fun _ => ?_
    have hdrop : ∀ item : Found, (drop p item.location .immediate).Blind := fun item =>
      blind_drop p item.location .immediate
    exact (blind_forM_option hdrop old).bind fun _ => blind_closeIfFull p page

end Engine

end RingStore
