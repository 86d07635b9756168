import RingStore.Proofs.Engine.Logic
import RingStore.Proofs.Fine
import RingStore.Proofs.Operation

/-!
# The engine on a chip that is accessed byte by byte

An engine program computes its accesses from the page table and from what earlier accesses have given.
The granularities of the chip enter only where an access is widened, so two runs on the same table that
differ in nothing else stay together.  `EngineM.Agrees` says that of two programs.

A widened access stays within its page.  That it stays within the partition rests on the page table,
which has at most as many pages as the partition: the programs look a page up before they touch it.  So
`EngineM.Agrees` also keeps count of the pages that the table may still take.

## Main statements

* `Engine.agrees_walk`: a walk along a page, visit by visit.
* `Engine.agrees_load`: the scan of a partition.
* `Operation.agrees_program`: the engine programs of all operations.
-/

namespace RingStore

namespace EngineM

open Engine

variable {α β σ : Type} {p : Partition} {room room' room'' : Nat}

/-- On a table that may take `room` pages more, the programs end in the same way with the same table, and
the flash passes through the same states.  Unless they fail, the table may take `room'` pages more. -/
def Agrees (p : Partition) (room room' : Nat) (x y : EngineM α) : Prop :=
  ∀ t : Table, t.count + room ≤ p.pageCount →
    FlashM.Agrees p
      (fun r r' => r = r' ∧
        match r.1 with
        | .ok _ => r.2.count + room' ≤ p.pageCount
        | .error _ => r.2.count ≤ p.pageCount)
      (x.run.run t) (y.run.run t)

theorem agrees_pure (a : α) : Agrees p room room (pure a) (pure a) :=
  fun _ ht => FlashM.agrees_pure ⟨rfl, ht⟩

theorem agrees_throw (error : Error) :
    Agrees p room room' (throw error : EngineM α) (throw error) :=
  fun _ ht => FlashM.agrees_pure ⟨rfl, Nat.le_of_add_right_le ht⟩

theorem Agrees.bind {x y : EngineM α} {f g : α → EngineM β} (h : Agrees p room room' x y)
    (hnext : ∀ a, Agrees p room' room'' (f a) (g a)) : Agrees p room room'' (x >>= f) (y >>= g) := by
  intro t ht
  rw [run_bind, run_bind]
  refine (h t ht).bind ?_
  rintro ⟨error | a, t'⟩ _ ⟨rfl, ht'⟩
  · exact FlashM.agrees_pure ⟨rfl, ht'⟩
  · exact hnext a t' ht'

theorem Agrees.map {x y : EngineM α} (f : α → β) (h : Agrees p room room' x y) :
    Agrees p room room' (f <$> x) (f <$> y) := by
  rw [map_eq_pure_bind, map_eq_pure_bind]
  exact h.bind fun a => agrees_pure (f a)

theorem agrees_perform {x y : AccessM α} (h : AccessM.Agrees p x y) :
    Agrees p room room (perform x) (perform y) := by
  intro t ht
  refine FlashM.Agrees.bind h ?_
  rintro (error | a) _ rfl
  · exact FlashM.agrees_pure ⟨rfl, Nat.le_of_add_right_le ht⟩
  · exact FlashM.agrees_pure ⟨rfl, ht⟩

theorem agrees_get_bind {f g : Table → EngineM α} (h : ∀ t, Agrees p room room' (f t) (g t)) :
    Agrees p room room' (get >>= f) (get >>= g) :=
  fun t ht => h t t ht

/-- A change of the table that keeps within the room. -/
theorem agrees_modify {g : Table → Table}
    (h : ∀ t : Table, t.count + room ≤ p.pageCount → (g t).count + room' ≤ p.pageCount) :
    Agrees p room room' (modify g) (modify g) :=
  fun t ht => FlashM.agrees_pure ⟨rfl, h t ht⟩

theorem agrees_set (page : Nat) (entry : Page) :
    Agrees p room room (modify (·.set page entry)) (modify (·.set page entry)) :=
  agrees_modify fun _ ht => Table.count_set.symm ▸ ht

/-- A page that the table has an entry for is one of the partition. -/
theorem agrees_pageAt_bind {page : Nat} {f g : Page → EngineM α}
    (h : page < p.pageCount → ∀ entry, Agrees p room room' (f entry) (g entry)) :
    Agrees p room room' (pageAt page >>= f) (pageAt page >>= g) := by
  intro t ht
  cases hentry : t.pages[page]? with
  | none =>
    rw [run_pageAt_bind_of_none f hentry, run_pageAt_bind_of_none g hentry]
    exact FlashM.agrees_pure ⟨rfl, Nat.le_of_add_right_le ht⟩
  | some entry =>
    rw [run_pageAt_bind f hentry, run_pageAt_bind g hentry]
    exact h (Nat.lt_of_lt_of_le (Table.lt_count hentry) (Nat.le_of_add_right_le ht)) entry t ht

/-- A program that runs only under a condition. -/
theorem agrees_when {due : Prop} [Decidable due] {x y : EngineM PUnit}
    (h : Agrees p room room x y) :
    Agrees p room room (if due then x else pure ⟨⟩) (if due then y else pure ⟨⟩) := by
  split
  · exact h
  · exact agrees_pure _

theorem agrees_optionForM {f g : β → EngineM Unit} (h : ∀ b, Agrees p room room (f b) (g b))
    (o : Option β) : Agrees p room room (o.forM f) (o.forM g) := by
  cases o with
  | none => exact agrees_pure _
  | some b => exact h b

theorem agrees_forM {f g : β → EngineM Unit} (h : ∀ b, Agrees p room room (f b) (g b))
    (bs : List β) : Agrees p room room (bs.forM f) (bs.forM g) := by
  induction bs with
  | nil => exact agrees_pure _
  | cons b rest ih => exact (h b).bind fun _ => ih

theorem agrees_foldlM {f g : σ → β → EngineM σ} (h : ∀ s b, Agrees p room room (f s b) (g s b))
    (bs : List β) (s : σ) : Agrees p room room (bs.foldlM f s) (bs.foldlM g s) := by
  induction bs generalizing s with
  | nil => exact agrees_pure _
  | cons b rest ih =>
    rw [List.foldlM_cons, List.foldlM_cons]
    exact (h s b).bind fun s' => ih s'

end EngineM

namespace Engine

open EngineM

variable {σ : Type} {p : Partition} {page : Nat}

variable (hu : p.Usable)

include hu

/-! ## Single pages -/

theorem agrees_setStatus (page : Nat) (status : PageStatus) :
    Agrees p 0 0 (setStatus p page status) (setStatus p.fine page status) :=
  agrees_pageAt_bind fun hpage _ =>
    (agrees_perform (Partition.agrees_writeStatus hu hpage status)).bind fun _ => agrees_set _ _

omit hu in
theorem agrees_erasePage (page : Nat) : Agrees p 0 0 (erasePage p page) (erasePage p.fine page) :=
  agrees_pageAt_bind fun _ _ =>
    (agrees_perform (AccessM.agrees_self (p.erasePage page))).bind fun _ => agrees_set _ _

omit hu in
theorem agrees_freeBytes (page : Nat) : Agrees p 0 0 (freeBytes p page) (freeBytes p.fine page) := by
  refine agrees_pageAt_bind fun _ entry => ?_
  rw [Partition.fine_contentSize]
  split
  · exact agrees_pure _
  · exact agrees_throw _

theorem agrees_append (page : Nat) (key : UInt16) (payload : Bytes) :
    Agrees p 0 0 (append p page key payload) (append p.fine page key payload) := by
  refine agrees_pageAt_bind fun hpage entry =>
    (agrees_perform (Partition.agrees_writeContent hu hpage entry.used _)).bind fun _ => ?_
  rw [Partition.fine_checksum]
  dsimp only
  split
  · exact agrees_set _ _
  · exact agrees_throw _

theorem agrees_close (page : Nat) : Agrees p 0 0 (close p page) (close p.fine page) :=
  agrees_pageAt_bind fun _ _ => (agrees_setStatus hu page _).bind fun _ =>
    agrees_when (agrees_setStatus hu page _)

/-! ## Giving pages back -/

theorem agrees_reclaim (page : Nat) : Agrees p 0 0 (reclaim p page) (reclaim p.fine page) := by
  refine agrees_pageAt_bind fun _ entry => ?_
  split
  · refine agrees_get_bind fun t => ?_
    split
    · exact agrees_pageAt_bind fun _ _ => (agrees_setStatus hu _ _).bind fun _ =>
        .bind (agrees_modify fun _ ht => ht) fun _ => agrees_erasePage page
    · exact (agrees_erasePage page).bind fun _ => agrees_setStatus hu page _
  · exact agrees_erasePage page

theorem agrees_drop (location : Location) (policy : ReclaimPolicy) :
    Agrees p 0 0 (drop p location policy) (drop p.fine location policy) := by
  refine agrees_pageAt_bind fun hpage entry =>
    (agrees_perform (Partition.agrees_writeTombstone hu hpage _)).bind fun _ =>
      (agrees_set _ _).bind fun _ => ?_
  split
  · split
    · exact agrees_reclaim hu _
    · exact agrees_setStatus hu _ _
    · exact agrees_pure _
  · exact agrees_pure _

theorem agrees_sweepPage (reclaimed page : Nat) :
    Agrees p 0 0 (sweepPage p reclaimed page) (sweepPage p.fine reclaimed page) := by
  refine agrees_pageAt_bind fun _ entry => ?_
  split
  · exact (agrees_reclaim hu page).bind fun _ => agrees_pure _
  · exact agrees_pure _

theorem agrees_sweep : Agrees p 0 0 (sweep p) (sweep p.fine) :=
  agrees_get_bind fun _ => agrees_foldlM (agrees_sweepPage hu) _ _

/-! ## Lookups -/

theorem agrees_readHeader (hpage : page < p.pageCount) (offset : Nat) :
    Agrees p 0 0 (readHeader p ⟨page, offset⟩) (readHeader p.fine ⟨page, offset⟩) := by
  refine (agrees_perform (Partition.agrees_readContent hu hpage offset headerSize)).bind fun bytes => ?_
  split
  · exact agrees_pure _
  · exact agrees_throw _

theorem agrees_readPayload {location : Location} (hpage : location.page < p.pageCount)
    (header : Header) :
    Agrees p 0 0 (readPayload p location header) (readPayload p.fine location header) :=
  agrees_perform (Partition.agrees_readContent hu hpage _ _)

/-- **A walk along a page** does the same if its visits do. -/
theorem agrees_walk (hpage : page < p.pageCount) (limit : Nat)
    {visit visit' : σ → Location → Header → EngineM (ForInStep σ)}
    (hvisit : ∀ s offset header,
      Agrees p 0 0 (visit s ⟨page, offset⟩ header) (visit' s ⟨page, offset⟩ header))
    (offset : Nat) (s : σ) :
    Agrees p 0 0 (walk p page limit visit offset s) (walk p.fine page limit visit' offset s) := by
  fun_induction walk p page limit visit offset s with
  | case1 offset s hlimit ih =>
    rw [walk, dif_pos hlimit]
    refine (agrees_readHeader hu hpage offset).bind fun header => ?_
    split
    · exact agrees_pure _
    · refine (hvisit s offset header).bind fun next => ?_
      split
      · exact agrees_pure _
      · exact ih header _
  | case2 offset s hlimit =>
    rw [walk, dif_neg hlimit]
    exact agrees_pure _

theorem agrees_walkAll {visit visit' : σ → Location → Header → EngineM (ForInStep σ)}
    (hvisit : ∀ s (location : Location) header, location.page < p.pageCount →
      Agrees p 0 0 (visit s location header) (visit' s location header)) (s : σ) :
    Agrees p 0 0 (walkAll p visit s) (walkAll p.fine visit' s) := by
  refine agrees_get_bind fun t => agrees_foldlM (fun s page => ?_) _ _
  refine agrees_pageAt_bind fun hpage entry => ?_
  split
  · exact agrees_walk hu hpage _ (fun s offset header => hvisit s ⟨page, offset⟩ header hpage) _ _
  · exact agrees_pure _

theorem agrees_examine (key : UInt16) (best : Option Found) {location : Location} (header : Header)
    (hpage : location.page < p.pageCount) :
    Agrees p 0 0 (examine p key best location header) (examine p.fine key best location header) := by
  unfold examine
  split
  · refine (agrees_readPayload hu hpage header).bind fun payload => ?_
    rw [Partition.fine_checksum]
    split
    · split
      · exact agrees_pure _
      · split
        · exact (agrees_drop hu _ _).bind fun _ => agrees_pure _
        · exact (agrees_drop hu _ _).bind fun _ => agrees_pure _
    · exact (agrees_drop hu _ _).bind fun _ => agrees_pure _
  · exact agrees_pure _

theorem agrees_find (key : UInt16) : Agrees p 0 0 (find p key) (find p.fine key) :=
  agrees_walkAll hu (fun best _ header hpage => agrees_examine hu key best header hpage) none

theorem agrees_payloadOf (key : UInt16) :
    Agrees p 0 0 (payloadOf p key) (payloadOf p.fine key) := by
  unfold payloadOf
  split
  · exact (agrees_find hu key).bind fun _ => agrees_pure _
  · exact agrees_throw _

theorem agrees_lengthOf (key : UInt16) : Agrees p 0 0 (lengthOf p key) (lengthOf p.fine key) :=
  (agrees_payloadOf hu key).bind fun _ => agrees_pure _

theorem agrees_readItem (key : UInt16) (buffer : Bytes) :
    Agrees p 0 0 (readItem p key buffer) (readItem p.fine key buffer) := by
  unfold readItem
  split
  · refine (agrees_find hu key).bind fun found => ?_
    split
    · exact agrees_pure _
    · exact agrees_pure _
  · exact agrees_throw _

theorem agrees_fetch {α : Type} [Storable α] (key : UInt16) :
    Agrees p 0 0 (fetch (α := α) key p) (fetch (α := α) key p.fine) := by
  refine (agrees_payloadOf hu key).bind fun value => ?_
  split
  · exact agrees_pure _
  · split
    · exact agrees_pure _
    · exact agrees_throw _

/-! ## Writing and deleting -/

theorem agrees_claimErased : Agrees p 0 0 (claimErased p) (claimErased p.fine) := by
  refine agrees_get_bind fun t => ?_
  split
  · exact agrees_pure _
  · refine agrees_get_bind fun t => ?_
    split
    · exact agrees_throw _
    · refine (agrees_reclaim hu _).bind fun _ => agrees_get_bind fun t => ?_
      split
      · exact agrees_pure _
      · exact agrees_throw _

theorem agrees_openNext (active : Option Nat) :
    Agrees p 0 0 (openNext p active) (openNext p.fine active) :=
  (agrees_claimErased hu).bind fun _ => (agrees_optionForM (agrees_close hu) active).bind fun _ =>
    agrees_pageAt_bind fun _ _ => (agrees_setStatus hu _ _).bind fun _ =>
      .bind (agrees_modify fun _ ht => ht) fun _ => agrees_pure _

omit hu in
theorem agrees_activeWithRoom (active : Option Nat) (needed : Nat) :
    Agrees p 0 0 (activeWithRoom p active needed) (activeWithRoom p.fine active needed) := by
  cases active with
  | none => exact agrees_pure _
  | some page => exact (agrees_freeBytes page).bind fun _ => agrees_pure _

theorem agrees_selectPage (length : Nat) :
    Agrees p 0 0 (selectPage p length) (selectPage p.fine length) := by
  refine agrees_get_bind fun t => (agrees_activeWithRoom _ _).bind fun found => ?_
  split
  · exact agrees_pure _
  · exact agrees_openNext hu _

theorem agrees_closeIfFull (page : Nat) :
    Agrees p 0 0 (closeIfFull p page) (closeIfFull p.fine page) :=
  agrees_pageAt_bind fun _ _ => agrees_when
    ((agrees_freeBytes page).bind fun _ => agrees_when (agrees_close hu page))

theorem agrees_writeItem (key : UInt16) (payload : Bytes) :
    Agrees p 0 0 (writeItem p key payload) (writeItem p.fine key payload) := by
  unfold writeItem
  rw [Partition.fine_maxPayload]
  split
  · refine (agrees_find hu key).bind fun old => ?_
    split
    · exact agrees_pure _
    · have hdrop : Agrees p 0 0 (old.forM fun item => drop p item.location .immediate)
          (old.forM fun item => drop p.fine item.location .immediate) := by
        refine agrees_optionForM (fun item => ?_) old
        exact agrees_drop hu item.location .immediate
      exact (agrees_selectPage hu _).bind fun page => (agrees_append hu page key payload).bind
        fun _ => hdrop.bind fun _ => agrees_closeIfFull hu page
  · exact agrees_throw _

theorem agrees_remove (key : UInt16) (removed : Nat) (location : Location) (header : Header) :
    Agrees p 0 0 (remove p key removed location header)
      (remove p.fine key removed location header) := by
  unfold remove
  split
  · refine (agrees_drop hu _ _).bind fun _ => agrees_pageAt_bind fun _ entry => ?_
    split
    · exact agrees_pure _
    · exact agrees_pure _
  · exact agrees_pure _

theorem agrees_deleteItem (key : UInt16) :
    Agrees p 0 0 (deleteItem p key) (deleteItem p.fine key) := by
  unfold deleteItem
  split
  · refine agrees_walkAll hu (fun removed location header _ => ?_) 0
    exact agrees_remove hu key removed location header
  · exact agrees_throw _

/-! ## The scan -/

/-- The scan of a page fills its place in the table. -/
theorem agrees_loadNext (hpage : page < p.pageCount) (room : Nat) :
    Agrees p (room + 1) room (loadNext p page) (loadNext p.fine page) := by
  refine (agrees_perform (Partition.agrees_loadPage hu hpage)).bind fun entry =>
    agrees_modify fun t ht => ?_
  have hcount : (t.push entry).count = t.count + 1 := Array.size_push _
  omega

/-- All pages find their place in an empty table. -/
theorem agrees_loadAll {pages : List Nat} (hpages : ∀ page ∈ pages, page < p.pageCount) :
    Agrees p pages.length 0 (pages.forM (loadNext p)) (pages.forM (loadNext p.fine)) := by
  induction pages with
  | nil => exact agrees_pure _
  | cons page rest ih =>
    obtain ⟨hpage, hrest⟩ := List.forall_mem_cons.mp hpages
    exact (agrees_loadNext hu hpage _).bind fun _ => ih hrest

omit hu in
theorem agrees_wipe (page : Nat) : Agrees p 0 0 (wipe p page) (wipe p.fine page) :=
  agrees_pageAt_bind fun _ _ => agrees_when (agrees_erasePage page)

theorem agrees_format : Agrees p 0 0 (format p) (format p.fine) :=
  agrees_get_bind fun _ => (agrees_forM agrees_wipe _).bind fun _ =>
    (agrees_setStatus hu 0 _).bind fun _ => agrees_modify fun _ ht => ht

omit hu in
theorem agrees_dropStaleMarker (ringStart page : Nat) :
    Agrees p 0 0 (dropStaleMarker p ringStart page) (dropStaleMarker p.fine ringStart page) :=
  agrees_pageAt_bind fun _ _ => agrees_when (agrees_erasePage page)

theorem agrees_settleRingStart : Agrees p 0 0 (settleRingStart p) (settleRingStart p.fine) := by
  refine agrees_get_bind fun t => ?_
  dsimp only
  split
  · exact agrees_format hu
  · exact (agrees_forM (agrees_dropStaleMarker _) _).bind fun _ => agrees_modify fun _ ht => ht

theorem agrees_closeOther (newest : Option Nat) (page : Nat) :
    Agrees p 0 0 (closeOther p newest page) (closeOther p.fine newest page) :=
  agrees_pageAt_bind fun _ _ => agrees_when (agrees_close hu page)

theorem agrees_settleHead : Agrees p 0 0 (settleHead p) (settleHead p.fine) :=
  agrees_get_bind fun _ => (agrees_forM (agrees_closeOther hu _) _).bind fun _ =>
    agrees_modify fun _ ht => ht

/-- **The scan of a partition** does the same at any granularity. -/
theorem agrees_load : Agrees p 0 0 (load p) (load p.fine) := by
  have hclear : Agrees p 0 p.pageCount (modify ({ · with pages := #[] }))
      (modify ({ · with pages := #[] })) := agrees_modify fun _ _ => Nat.le_of_eq (Nat.zero_add _)
  have hall : Agrees p (List.range p.pageCount).length 0 ((List.range p.pageCount).forM (loadNext p))
      ((List.range p.pageCount).forM (loadNext p.fine)) :=
    agrees_loadAll hu fun _ => List.mem_range.mp
  rw [List.length_range] at hall
  exact hclear.bind fun _ => hall.bind fun _ => (agrees_settleRingStart hu).bind fun _ =>
    agrees_settleHead hu

end Engine

/-- **The engine programs of all operations** do the same at any granularity. -/
theorem Operation.agrees_program {p : Partition} (hu : p.Usable) {operation : Operation}
    {x : Partition → EngineM Answer} (hx : operation.program? = some x) :
    EngineM.Agrees p 0 0 (x p) (x p.fine) := by
  cases operation <;> cases hx
  case readItem key buffer => exact (Engine.agrees_readItem hu key buffer).map _
  case writeItem key payload => exact (Engine.agrees_writeItem hu key payload).map _
  case deleteItem key => exact (Engine.agrees_deleteItem hu key).map _
  case sweep => exact (Engine.agrees_sweep hu).map _
  case itemLength key => exact (Engine.agrees_lengthOf hu key).map _
  case fetch route key type => exact (Engine.agrees_fetch hu key).map _
  case put route key value => exact (Engine.agrees_writeItem hu key _).map _
  case firmware => exact (Engine.agrees_fetch hu _).map _
  case setFirmware info => exact (Engine.agrees_writeItem hu _ _).map _
  case usage => exact EngineM.agrees_get_bind fun t => EngineM.agrees_pure _

end RingStore
