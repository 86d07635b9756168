import RingStore.Proofs.Engine.Lookup
import RingStore.Proofs.Peek

/-!
# Lookups that only look

A lookup drops superfluous copies of its key.  Where a key has a single copy, or none, there is nothing
to drop: the lookup makes no access but reads, and the table stays as it is.

## Main statements

* `EngineM.Peeks.ensures`: a program that peeks changes neither the flash nor what holds of it.
* `Engine.peeks_walkAll`: a walk whose visits only look.
* `Engine.peeks_find`: a lookup of a key with a single copy.
-/

namespace RingStore

namespace EngineM

open Engine

variable {α β σ : Type} {p : Partition} {t : Table} {img : Image}

/-- A program peeks at a flash that shows an image, and ends in a postcondition or in an error that
another one allows. -/
def Peeks (p : Partition) (x : EngineM α) (t : Table) (img : Image) (post : α → Table → Prop)
    (fail : Error → Table → Prop) : Prop :=
  ∀ cells, p.Shows img cells → (x.run.run t).Peeks cells fun result =>
    match result with
    | (.ok a, t') => post a t'
    | (.error error, t') => fail error t'

theorem peeks_pure {a : α} {post : α → Table → Prop} {fail : Error → Table → Prop} (h : post a t) :
    Peeks p (pure a) t img post fail :=
  fun _ _ => h

theorem peeks_throw {error : Error} {post : α → Table → Prop} {fail : Error → Table → Prop}
    (h : fail error t) : Peeks p (throw error) t img post fail :=
  fun _ _ => h

theorem Peeks.bind {x : EngineM α} {f : α → EngineM β} {mid : α → Table → Prop}
    {post : β → Table → Prop} {fail : Error → Table → Prop} (hx : Peeks p x t img mid fail)
    (hf : ∀ a t', mid a t' → Peeks p (f a) t' img post fail) : Peeks p (x >>= f) t img post fail := by
  intro cells hshows
  rw [run_bind, FlashM.peeks_bind]
  refine (hx cells hshows).mono ?_
  rintro ⟨error | a, t'⟩ hmid
  · exact hmid
  · exact hf a t' hmid cells hshows

theorem Peeks.mono {x : EngineM α} {post post' : α → Table → Prop} {fail fail' : Error → Table → Prop}
    (hx : Peeks p x t img post fail) (hpost : ∀ a t', post a t' → post' a t')
    (hfail : ∀ error t', fail error t' → fail' error t') : Peeks p x t img post' fail' := by
  intro cells hshows
  refine (hx cells hshows).mono ?_
  rintro ⟨error | a, t'⟩ h
  · exact hfail error t' h
  · exact hpost a t' h

theorem Peeks.map {x : EngineM α} {post : β → Table → Prop} {fail : Error → Table → Prop}
    (f : α → β) (hx : Peeks p x t img (fun a => post (f a)) fail) :
    Peeks p (f <$> x) t img post fail := by
  rw [map_eq_pure_bind]
  exact hx.bind fun a _ h => peeks_pure h

/-- **A program that peeks leaves the flash as it is.** -/
theorem Peeks.ensures {x : EngineM α} {inv : Image → Prop} {post : α → Table → Prop}
    {fail : Error → Table → Prop} (h : Peeks p x t img post fail) :
    Ensures p .reliable inv x t img (fun a t' img' => post a t' ∧ img' = img)
      (fun error t' img' => fail error t' ∧ img' = img) := by
  intro cells hshows hinv
  have hcells : inv (p.image cells) := hshows.image_eq ▸ hinv
  refine ((h cells hshows).always hcells).mono (fun _ hc => hc) ?_
  rintro ⟨error | a, t'⟩ after ⟨hresult, rfl⟩
  · exact Or.inr ⟨hresult, hshows.image_eq⟩
  · exact ⟨hresult, hshows.image_eq⟩

/-- What a program ensures of the flash and what it peeks at hold at once. -/
theorem Ensures.and_peeks {x : EngineM α} {inv : Image → Prop} {post : Post α}
    {post' : α → Table → Prop} (hx : Ensures p .reliable inv x t img post noError)
    (hpeeks : Peeks p x t img post' fun _ _ => False) :
    Ensures p .reliable inv x t img (fun a t' img' => post a t' img' ∧ post' a t') noError := by
  intro cells hshows hinv
  have hpeeks : (x.run.run t).Always .reliable (fun _ => True) cells _ :=
    (hpeeks cells hshows).always trivial
  refine ((hx cells hshows hinv).and hpeeks).mono (fun _ hc => hc) ?_
  rintro ⟨error | a, t'⟩ after ⟨h, h', -⟩
  · exact h'.elim
  · exact ⟨h, h'⟩

/-- A content has the size that the partition gives it. -/
theorem peeks_of_length {x : EngineM α} {post : α → Table → Prop} {fail : Error → Table → Prop}
    (h : (∀ page < p.pageCount, (img.content page).length = p.contentSize) →
      Peeks p x t img post fail) : Peeks p x t img post fail :=
  fun cells hshows => h (fun _ hpage => hshows.length_content hpage) cells hshows

theorem peeks_perform {x : AccessM α} {post : α → Prop} {fail : Error → Table → Prop}
    (h : x.Peeks p img post) :
    Peeks p (perform x) t img (fun a t' => t' = t ∧ post a) fail := by
  intro cells hshows
  show (x.run >>= fun result => pure (result, t)).Peeks _ _
  rw [FlashM.peeks_bind]
  refine (h cells hshows).mono ?_
  rintro _ ⟨a, rfl, hpost⟩
  exact ⟨rfl, hpost⟩

theorem peeks_get_bind {f : Table → EngineM α} {post : α → Table → Prop}
    {fail : Error → Table → Prop} (h : Peeks p (f t) t img post fail) :
    Peeks p (get >>= f) t img post fail := h

theorem peeks_modify {g : Table → Table} {post : PUnit → Table → Prop} {fail : Error → Table → Prop}
    (h : post ⟨⟩ (g t)) : Peeks p (modify g) t img post fail :=
  fun _ _ => h

theorem peeks_modify_bind {g : Table → Table} {f : PUnit → EngineM α} {post : α → Table → Prop}
    {fail : Error → Table → Prop} (h : Peeks p (f ⟨⟩) (g t) img post fail) :
    Peeks p (modify g >>= f) t img post fail := h

theorem peeks_pageAt_bind {page : Nat} {entry : Page} {f : Page → EngineM α}
    {post : α → Table → Prop} {fail : Error → Table → Prop} (hentry : t.pages[page]? = some entry)
    (h : Peeks p (f entry) t img post fail) : Peeks p (pageAt page >>= f) t img post fail := by
  intro cells hshows
  rw [run_pageAt_bind f hentry]
  exact h cells hshows

theorem peeks_forM {f : β → EngineM Unit} {fail : Error → Table → Prop}
    (motive : List β → Table → Prop) {bs : List β}
    (hstep : ∀ b ∈ bs, ∀ rest t, motive (b :: rest) t →
      Peeks p (f b) t img (fun _ t' => motive rest t') fail)
    (h : motive bs t) : Peeks p (bs.forM f) t img (fun _ t' => motive [] t') fail := by
  induction bs generalizing t with
  | nil => exact peeks_pure h
  | cons b rest ih =>
    obtain ⟨hb, hrest⟩ := List.forall_mem_cons.mp hstep
    exact (hb rest t h).bind fun _ _ hmotive => ih hrest hmotive

end EngineM

namespace Engine

open EngineM RingStore.Partition

variable {σ : Type} {p : Partition} {t : Table} {img : Image} {page offset : Nat}
  {fail : Error → Table → Prop} {key : UInt16}

/-! ## Walks -/

theorem peeks_readHeader (hu : p.Usable) (hpage : page < p.pageCount) {record : Record}
    {rest : Bytes} (hbytes : (img.content page).drop offset = record.toBytes ++ rest) :
    Peeks p (readHeader p ⟨page, offset⟩) t img
      (fun header t' => header = record.header ∧ t' = t) fail := by
  refine peeks_of_length fun hlength => ?_
  obtain ⟨hroom, hheader⟩ := take_header hbytes
  rw [hlength page hpage] at hroom
  unfold readHeader
  refine (peeks_perform (peeks_readContent hu hpage hroom)).bind ?_
  rintro _ t' ⟨rfl, rfl⟩
  rw [hheader]
  exact peeks_pure ⟨rfl, rfl⟩

theorem peeks_readPayload (hu : p.Usable) (h : t.Mirrors p img) {location : Location}
    {record : Record} (hlive : (location.offset, record) ∈ p.live img location.page) :
    Peeks p (readPayload p location record.header) t img
      (fun payload t' => payload = record.payload ∧ t' = t) fail := by
  have hpage := lt_of_mem_live hlive
  refine peeks_of_length fun hlength => ?_
  obtain ⟨hroom, hpayload⟩ := take_payload (h.carried_eq ▸ hlive)
  rw [hlength _ hpage] at hroom
  unfold readPayload
  refine (peeks_perform (peeks_readContent hu hpage hroom)).mono ?_ fun _ _ hfail => hfail
  rintro _ t' ⟨rfl, rfl⟩
  exact ⟨hpayload, rfl⟩

/-- A visit has looked at the first of the records ahead. -/
def Viewed (motive : σ → List (Nat × Record) → Prop) (entries : List (Nat × Record)) :
    ForInStep σ → Prop
  | .yield s => motive s entries
  | .done s => motive s []

/-- **A walk along all pages** whose visits only look. -/
theorem peeks_walkAll (hu : p.Usable) (h : t.Mirrors p img)
    {visit : σ → Location → Header → EngineM (ForInStep σ)} (outer : σ → List Nat → Prop)
    (inner : Nat → List Nat → σ → List (Nat × Record) → Prop)
    (hskip : ∀ s location header, header.carriesValue = false →
      visit s location header = pure (.yield s))
    (hstart : ∀ s page rest, outer s (page :: rest) → inner page rest s (p.live img page))
    (hvisit : ∀ page rest s offset record entries, inner page rest s ((offset, record) :: entries) →
      Peeks p (visit s ⟨page, offset⟩ record.header) t img
        (fun s' t' => t' = t ∧ Viewed (inner page rest) entries s') fail)
    (hstop : ∀ s page rest, inner page rest s [] → outer s rest) {s : σ}
    (hfirst : outer s t.searchOrder) :
    Peeks p (walkAll p visit s) t img (fun s' t' => t' = t ∧ outer s' []) fail := by
  have hpages : ∀ page ∈ t.searchOrder, page < p.pageCount := fun page hpage =>
    h.count_eq ▸ lt_of_mem_ringBackFrom hpage
  unfold walkAll
  refine peeks_get_bind ?_
  refine walkPages_steps (J := fun x t' img' =>
      Peeks p x t' img' (fun s' t'' => t'' = t ∧ outer s' []) fail)
    (fun s pages t' img' => (t' = t ∧ img' = img) ∧ outer s pages)
    (fun page rest s entries t' img' => (t' = t ∧ img' = img) ∧ inner page rest s entries)
    ?_ (fun _ => peeks_pageAt_bind) ?_ hskip ?_ ?_ ?_ ?_ hpages ⟨⟨rfl, rfl⟩, hfirst⟩
  · rintro s pages _ _ ⟨⟨rfl, rfl⟩, -⟩
    exact h.charts
  · intro page offset record rest t' img' f hpage hbytes hf
    refine (peeks_readHeader hu hpage hbytes).bind ?_
    rintro _ _ ⟨rfl, rfl⟩
    exact hf
  · rintro s page rest _ _ ⟨⟨rfl, rfl⟩, houter⟩
    exact ⟨⟨rfl, rfl⟩, h.carried_eq ▸ hstart s page rest houter⟩
  · rintro page rest s offset record entries _ _ f ⟨⟨rfl, rfl⟩, hinner⟩ hf
    refine (hvisit page rest s offset record entries hinner).bind ?_
    rintro (s' | s') _ ⟨rfl, hviewed⟩
    · exact hf (.done s') _ _ ⟨⟨rfl, rfl⟩, hviewed⟩
    · exact hf (.yield s') _ _ ⟨⟨⟨rfl, rfl⟩, hviewed⟩, rfl⟩
  · rintro s page rest _ _ ⟨hsame, hinner⟩
    exact ⟨hsame, hstop s page rest hinner⟩
  · rintro s _ _ ⟨⟨rfl, rfl⟩, houter⟩
    exact peeks_pure ⟨rfl, houter⟩

/-! ## Lookups -/

/-- What a lookup that changes nothing gives. -/
structure Beheld (L : Holdings) (key : UInt16) (best : Option Found) : Prop where
  stored : L.Stored key (best.map (·.payload))
  found : ∀ f, best = some f → ∃ record, L.Copy key f.location.page (f.location.offset, record)

/-- One step of a lookup that meets no second copy. -/
theorem peeks_examine (hu : p.Usable) (h : t.Mirrors p img)
    (hsole : ∀ page entry page' entry', (p.live img).Copy key page entry →
      (p.live img).Copy key page' entry' → page = page' ∧ entry = entry')
    {rest : List Nat} {best : Option Found} {entries : List (Nat × Record)} {record : Record}
    (hcourse : Course (p.live img) page rest ((offset, record) :: entries))
    (hsearched : (p.live img).Searched key best (Pending page rest ((offset, record) :: entries))
      (p.live img)) :
    Peeks p (examine p key best ⟨page, offset⟩ record.header) t img
      (fun best' t' => t' = t ∧ Viewed (fun best entries => Course (p.live img) page rest entries ∧
        (p.live img).Searched key best (Pending page rest entries) (p.live img)) entries best')
      fail := by
  obtain ⟨hlive, hseen⟩ := hcourse.head
  have hpending : (p.live img).Searched key best (fun other e => Pending page rest entries other e ∨
      other = page ∧ e = (offset, record)) (p.live img) :=
    hsearched.congr fun other e _ => (pending_cons other e).symm
  obtain ⟨-, -, -, -, -, -, -, hrecord⟩ := exists_record h hlive
  by_cases hkey : record.header.carriesValue = true ∧ record.header.key = key
  · have hverify : record.header.verify p.chip.checksum record.payload = true := by
      rw [Record.isLive, Bool.and_eq_true] at hrecord
      exact hrecord.2
    unfold examine
    rw [if_pos hkey]
    refine (peeks_readPayload hu h hlive).bind ?_
    rintro _ t' ⟨rfl, rfl⟩
    rw [if_pos hverify]
    cases best with
    | none => exact peeks_pure ⟨rfl, hcourse.next, hpending.first hlive hkey.2 hseen⟩
    | some current =>
      -- The copy found before would be another one.
      obtain ⟨r, hcopy, -, hpassed⟩ := hsearched.found current rfl
      obtain ⟨hpage, hentry⟩ := hsole _ _ _ _ hcopy ⟨hlive, hkey.2⟩
      exact absurd ((pending_cons _ _).mpr (Or.inr ⟨hpage, hentry⟩)) hpassed
  · rw [examine_of_not hkey]
    have hother : record.header.key ≠ key := fun heq =>
      hkey ⟨Record.carriesValue_of_isLive hrecord, heq⟩
    exact peeks_pure ⟨rfl, hcourse.next, hpending.skip hother⟩

/-- **A lookup of a key with at most one copy only looks.** -/
theorem peeks_find (hu : p.Usable) (h : t.Mirrors p img) {v : Option Bytes}
    (hsettled : (p.live img).Update key v (p.live img)) :
    Peeks p (find p key) t img
      (fun best t' => t' = t ∧ best.map (·.payload) = v ∧ Beheld (p.live img) key best) fail := by
  have hL := Holdings.distinct_live p img
  have hall : ∀ page entry, entry ∈ p.live img page → page ∈ t.searchOrder :=
    fun page entry hentry => mem_ringBackFrom (h.count_eq ▸ lt_of_mem_live hentry)
  unfold find
  refine (peeks_walkAll hu h
    (fun best pages => pages.Nodup ∧
      (p.live img).Searched key best (fun other _ => other ∈ pages) (p.live img))
    (fun page rest best entries => Course (p.live img) page rest entries ∧
      (p.live img).Searched key best (Pending page rest entries) (p.live img))
    ?_ ?_ ?_ ?_ ⟨nodup_ringBackFrom _ _, .start hall⟩).mono ?_ fun _ _ hfail => hfail
  · intro best location header hcarries
    refine examine_of_not fun hkey => ?_
    rw [hcarries] at hkey
    cases hkey.1
  · rintro best page rest ⟨hnodup, hsearched⟩
    obtain ⟨hfresh, hrest⟩ := List.nodup_cons.mp hnodup
    refine ⟨⟨hfresh, hrest, fun _ he => he, p.pairwise_live img page⟩,
      hsearched.congr fun other e he => pending_start ?_⟩
    rintro rfl
    exact he
  · rintro page rest best offset record entries ⟨hcourse, hsearched⟩
    exact peeks_examine hu h hsettled.sole hcourse hsearched
  · rintro best page rest ⟨hcourse, hsearched⟩
    exact ⟨hcourse.nodup, hsearched.congr fun other e _ => (pending_nil other e).symm⟩
  · rintro best _ ⟨rfl, -, hsearched⟩
    obtain ⟨hstored, -⟩ := hsearched.update hL fun _ _ => List.not_mem_nil
    refine ⟨rfl, hsettled.eq_of_stored hstored, hstored, ?_⟩
    rintro f rfl
    exact hsearched.copy_of_found

variable (hu : p.Usable) (h : t.Mirrors p img) {v : Option Bytes}
  (hsettled : (p.live img).Update key v (p.live img)) (hkey : isValidKey key = true)

include hu h hsettled hkey

theorem peeks_payloadOf :
    Peeks p (payloadOf p key) t img (fun found t' => t' = t ∧ found = v) fail := by
  unfold payloadOf
  rw [if_pos hkey]
  refine (peeks_find hu h hsettled).bind ?_
  rintro best _ ⟨rfl, hvalue, -⟩
  exact peeks_pure ⟨rfl, hvalue⟩

theorem peeks_lengthOf :
    Peeks p (lengthOf p key) t img (fun length t' => t' = t ∧ length = v.map (·.length)) fail := by
  unfold lengthOf
  refine (peeks_payloadOf hu h hsettled hkey).bind ?_
  rintro found _ ⟨rfl, rfl⟩
  exact peeks_pure ⟨rfl, rfl⟩

theorem peeks_readItem {buffer : Bytes} (hbuffer : buffer ≠ []) :
    Peeks p (readItem p key buffer) t img (fun answer t' => t' = t ∧ answer = copied buffer v) fail := by
  unfold readItem
  rw [if_pos ⟨hkey, hbuffer⟩]
  refine (peeks_find hu h hsettled).bind ?_
  rintro (_ | item) _ ⟨rfl, rfl, -⟩
  · exact peeks_pure ⟨rfl, rfl⟩
  · exact peeks_pure ⟨rfl, rfl⟩

theorem peeks_fetch {α : Type} [Storable α] :
    Peeks p (fetch key p : EngineM (Option α)) t img (fun value t' => t' = t ∧ decoded v = .ok value)
      (fun error t' => t' = t ∧ decoded (α := α) v = .error error) := by
  unfold fetch
  refine (peeks_payloadOf hu h hsettled hkey).bind ?_
  rintro (_ | bytes) _ ⟨rfl, rfl⟩
  · exact peeks_pure ⟨rfl, rfl⟩
  · dsimp only
    split
    · next value hvalue => exact peeks_pure ⟨rfl, by rw [decoded, hvalue]; rfl⟩
    · next error herror => exact peeks_throw ⟨rfl, by rw [decoded, herror]; rfl⟩

end Engine

end RingStore
