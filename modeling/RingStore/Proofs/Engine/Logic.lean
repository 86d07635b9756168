import RingStore.Engine.Basic
import RingStore.Proofs.Access

/-!
# Statements about engine programs

`EngineM.Ensures` states what an engine program makes of the page table and of the image of the
partition.  A run keeps an invariant of the image after every access.  It ends in a postcondition, with
a refused access, or with an error that a second postcondition allows.

The rules below follow the structure of the programs: a bind, a loop over a list, and the few ways to
look at the table and to change it.
-/

namespace RingStore.EngineM

open Engine

variable {α β σ : Type} {p : Partition} {conduct : Conduct} {inv : Image → Prop} {t : Table}
  {img : Image}

/-- What may hold of the table and the image at the end of a program. -/
abbrev Post (α : Type) := α → Table → Image → Prop

/-- No error but a refused access. -/
abbrev noError : Post Error := fun _ _ _ => False

/-- Every run keeps the invariant after each access and ends in a postcondition, with a refused access,
or with an allowed error. -/
def Ensures (p : Partition) (conduct : Conduct) (inv : Image → Prop) (x : EngineM α) (t : Table)
    (img : Image) (post : Post α) (fail : Post Error) : Prop :=
  ∀ cells, p.Shows img cells → inv img →
    (x.run.run t).Always conduct (fun c => inv (p.image c)) cells fun result c =>
      match result with
      | (.ok a, t') => post a t' (p.image c)
      | (.error error, t') =>
        (error = .ioFailure ∧ conduct ≠ .reliable) ∨ fail error t' (p.image c)

theorem ensures_pure {a : α} {post : Post α} {fail : Post Error} (h : post a t img) :
    Ensures p conduct inv (pure a) t img post fail := by
  rintro cells ⟨-, rfl⟩ -
  exact h

theorem ensures_throw {error : Error} {post : Post α} {fail : Post Error}
    (h : fail error t img) : Ensures p conduct inv (throw error) t img post fail := by
  rintro cells ⟨-, rfl⟩ -
  exact Or.inr h

theorem run_bind (x : EngineM α) (f : α → EngineM β) (t : Table) :
    (x >>= f).run.run t = x.run.run t >>= fun result =>
      match result with
      | (.ok a, t') => (f a).run.run t'
      | (.error error, t') => pure (.error error, t') := by
  rw [ExceptT.run_bind, StateT.run_bind]
  congr 1
  funext result
  rcases result with ⟨_ | _, t'⟩ <;> rfl

theorem Ensures.bind {x : EngineM α} {f : α → EngineM β} {mid : Post α} {post : Post β}
    {fail : Post Error} (hx : Ensures p conduct inv x t img mid fail)
    (hf : ∀ a t' img', mid a t' img' → Ensures p conduct inv (f a) t' img' post fail) :
    Ensures p conduct inv (x >>= f) t img post fail := by
  intro cells hshows hinv
  rw [run_bind, FlashM.always_bind]
  have hkeep := (hx cells hshows hinv).keep (hshows.image_eq ▸ hinv)
  refine hkeep.mono (fun _ h => h) ?_
  rintro ⟨error | a, t'⟩ after ⟨hafter, hsize, hmid⟩
  · exact hmid
  · exact hf a t' _ hmid after ⟨hsize ▸ hshows.end_le, rfl⟩ hafter

theorem Ensures.mono {x : EngineM α} {post post' : Post α} {fail fail' : Post Error}
    (hx : Ensures p conduct inv x t img post fail)
    (hpost : ∀ a t' img', post a t' img' → post' a t' img')
    (hfail : ∀ error t' img', fail error t' img' → fail' error t' img') :
    Ensures p conduct inv x t img post' fail' := by
  intro cells hshows hinv
  refine (hx cells hshows hinv).mono (fun _ h => h) ?_
  rintro ⟨error | a, t'⟩ after h
  · exact h.imp_right (hfail error t' _)
  · exact hpost a t' _ h

/-- The postcondition may be weakened alone. -/
theorem Ensures.imp {x : EngineM α} {post post' : Post α} {fail : Post Error}
    (hx : Ensures p conduct inv x t img post fail)
    (hpost : ∀ a t' img', post a t' img' → post' a t' img') :
    Ensures p conduct inv x t img post' fail := hx.mono hpost fun _ _ _ h => h

theorem Ensures.map {x : EngineM α} {post : Post β} {fail : Post Error} (f : α → β)
    (hx : Ensures p conduct inv x t img (fun a => post (f a)) fail) :
    Ensures p conduct inv (f <$> x) t img post fail := by
  rw [map_eq_pure_bind]
  exact hx.bind fun a _ _ h => ensures_pure h

/-- A program that fails by refused accesses only may stand where more is allowed. -/
theorem Ensures.weaken {x : EngineM α} {post post' : Post α} {fail : Post Error}
    (hx : Ensures p conduct inv x t img post noError)
    (hpost : ∀ a t' img', post a t' img' → post' a t' img') :
    Ensures p conduct inv x t img post' fail :=
  hx.mono hpost fun _ _ _ h => h.elim

theorem Ensures.lift {x : EngineM α} {post : Post α} {fail : Post Error}
    (hx : Ensures p conduct inv x t img post noError) : Ensures p conduct inv x t img post fail :=
  hx.weaken fun _ _ _ h => h

/-- The invariant may be used before a program starts. -/
theorem ensures_of_inv {x : EngineM α} {post : Post α} {fail : Post Error}
    (h : inv img → Ensures p conduct inv x t img post fail) :
    Ensures p conduct inv x t img post fail :=
  fun cells hshows hinv => h hinv cells hshows hinv

/-- A content has the size that the partition gives it. -/
theorem ensures_of_length {x : EngineM α} {post : Post α} {fail : Post Error}
    (h : (∀ page < p.pageCount, (img.content page).length = p.contentSize) →
      Ensures p conduct inv x t img post fail) :
    Ensures p conduct inv x t img post fail :=
  fun cells hshows hinv => h (fun _ hpage => hshows.length_content hpage) cells hshows hinv

/-! ## The table -/

theorem ensures_perform {x : AccessM α} {post : α → Image → Prop} {fail : Post Error}
    (h : x.Ensures p conduct inv img post) :
    Ensures p conduct inv (perform x) t img (fun a t' img' => t' = t ∧ post a img') fail := by
  intro cells hshows hinv
  show (x.run >>= fun result => pure (result, t)).Always _ _ _ _
  rw [FlashM.always_bind]
  refine (h cells hshows hinv).mono (fun _ hc => hc) ?_
  rintro (error | a) after hpost
  · exact Or.inl hpost
  · exact ⟨rfl, hpost⟩

theorem ensures_get_bind {f : Table → EngineM α} {post : Post α} {fail : Post Error}
    (h : Ensures p conduct inv (f t) t img post fail) :
    Ensures p conduct inv (get >>= f) t img post fail := h

theorem ensures_modify {g : Table → Table} {post : Post PUnit} {fail : Post Error}
    (h : post ⟨⟩ (g t) img) : Ensures p conduct inv (modify g) t img post fail := by
  rintro cells ⟨-, rfl⟩ -
  exact h

theorem ensures_modify_bind {g : Table → Table} {f : PUnit → EngineM α} {post : Post α}
    {fail : Post Error} (h : Ensures p conduct inv (f ⟨⟩) (g t) img post fail) :
    Ensures p conduct inv (modify g >>= f) t img post fail := h

theorem run_pageAt_bind {page : Nat} {entry : Page} (f : Page → EngineM α)
    (hentry : t.pages[page]? = some entry) :
    (pageAt page >>= f).run.run t = (f entry).run.run t := by
  have hget : (get : EngineM Table).run.run t = pure (.ok t, t) := rfl
  have hpage : (pageAt page).run.run t = pure (.ok entry, t) := by
    rw [pageAt, run_bind, hget, pure_bind]
    dsimp only
    rw [hentry]
    rfl
  rw [run_bind, hpage, pure_bind]

/-- A page beyond the table ends the program. -/
theorem run_pageAt_bind_of_none {page : Nat} (f : Page → EngineM α)
    (hnone : t.pages[page]? = none) :
    (pageAt page >>= f).run.run t = pure (.error .inconsistent, t) := by
  have hget : (get : EngineM Table).run.run t = pure (.ok t, t) := rfl
  have hpage : (pageAt page).run.run t = pure (.error .inconsistent, t) := by
    rw [pageAt, run_bind, hget, pure_bind]
    dsimp only
    rw [hnone]
    rfl
  rw [run_bind, hpage, pure_bind]

theorem ensures_pageAt_bind {page : Nat} {entry : Page} {f : Page → EngineM α} {post : Post α}
    {fail : Post Error} (hentry : t.pages[page]? = some entry)
    (h : Ensures p conduct inv (f entry) t img post fail) :
    Ensures p conduct inv (pageAt page >>= f) t img post fail := by
  intro cells hshows hinv
  rw [run_pageAt_bind f hentry]
  exact h cells hshows hinv

/-! ## Loops -/

/-- A loop keeps what each of its steps keeps. -/
theorem ensures_forM {f : β → EngineM Unit} {fail : Post Error}
    (motive : List β → Table → Image → Prop) {bs : List β}
    (hstep : ∀ b ∈ bs, ∀ rest t img, motive (b :: rest) t img →
      Ensures p conduct inv (f b) t img (fun _ t' img' => motive rest t' img') fail)
    (h : motive bs t img) :
    Ensures p conduct inv (bs.forM f) t img (fun _ t' img' => motive [] t' img') fail := by
  induction bs generalizing t img with
  | nil => exact ensures_pure h
  | cons b rest ih =>
    obtain ⟨hb, hrest⟩ := List.forall_mem_cons.mp hstep
    exact (hb rest t img h).bind fun _ _ _ hmotive => ih hrest hmotive

theorem ensures_foldlM {f : σ → β → EngineM σ} {fail : Post Error}
    (motive : List β → σ → Table → Image → Prop) {bs : List β}
    (hstep : ∀ b ∈ bs, ∀ rest s t img, motive (b :: rest) s t img →
      Ensures p conduct inv (f s b) t img (fun s' t' img' => motive rest s' t' img') fail)
    {s : σ} (h : motive bs s t img) :
    Ensures p conduct inv (bs.foldlM f s) t img (fun s' t' img' => motive [] s' t' img') fail := by
  induction bs generalizing s t img with
  | nil => exact ensures_pure h
  | cons b rest ih =>
    obtain ⟨hb, hrest⟩ := List.forall_mem_cons.mp hstep
    rw [List.foldlM_cons]
    exact (hb rest s t img h).bind fun _ _ _ hmotive => ih hrest hmotive

end RingStore.EngineM
