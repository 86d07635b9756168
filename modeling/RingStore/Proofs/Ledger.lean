import RingStore.Proofs.MapRefinement
import RingStore.Proofs.Stock

/-!
# The ledger of a store

A `Ledger` is all that a store on a flash that refuses no access has to go by: the value of each key,
and the stock of pages.  `Ledger.call` says what a call answers and what the ledger is afterwards.  It is a
function, so stores with the same ledger answer alike, wherever in the ring their pages lie.

A report on the pages shows their order, so it is the one call that a ledger does not answer.

## Main statements

* `Engine.follows_program`: an engine program answers what the ledger says.
-/

namespace RingStore

instance (p : Partition) : DecidablePred (Purpose.Accepted p)
  | .lookup _ accepted _ => inferInstanceAs (Decidable (accepted = true))
  | .store key payload =>
    inferInstanceAs (Decidable (isValidKey key = true ∧ payload ≠ [] ∧ payload.length ≤ p.maxPayload))
  | .remove key => inferInstanceAs (Decidable (isValidKey key = true))
  | .upkeep => inferInstanceAs (Decidable True)

/-- The value of each key, and the pages without their order. -/
structure Ledger where
  contents : Contents
  stock : Stock

namespace Ledger

variable (p : Partition)

/-- The result of an operation whose arguments are in order, and the ledger afterwards. -/
def meet (s : Ledger) : Purpose → Except Error Answer × Ledger
  | .lookup key _ view => (view (s.contents key), s)
  | .store key payload =>
    if s.contents key = some payload then (.ok .done, s)
    else if s.stock.Exhausted p (headerSize + payload.length) then (.error .outOfSpace, s)
    else (.ok .done, ⟨Function.update s.contents key (some payload),
      s.stock.stored p key (headerSize + payload.length)⟩)
  | .remove key =>
    (.ok (.count (if (s.contents key).isSome then 1 else 0)),
      ⟨Function.update s.contents key none, s.stock.map (.drop key)⟩)
  | .upkeep => (.ok .done, s)

/-- The result of a call, and the ledger afterwards. -/
def call (s : Ledger) (operation : Operation) : Except Error Answer × Ledger :=
  if operation.purpose.Accepted p then
    match operation with
    | .sweep => (.ok (.count (s.stock.count .waiting)), ⟨s.contents, s.stock.map .sweep⟩)
    | .maxPayload => (.ok (.count p.maxPayload), s)
    | operation => s.meet p operation.purpose
  else (.error .invalidArgument, s)

/-- A page table and a flash that keep a ledger. -/
structure Kept (s : Ledger) (t : Table) (img : Image) : Prop where
  mirrors : t.Mirrors p img
  once : t.MarkedOnce
  represented : s.contents.Represented (p.live img)
  stock_eq : t.stock (p.live img) = s.stock

end Ledger

namespace Engine

open EngineM RingStore.Partition

variable {p : Partition} {s : Ledger} {t t' : Table} {img img' : Image} {key : UInt16}
  {payload : Bytes}

/-- A program gives the result that a ledger gives, and the ledger afterwards is kept. -/
def Follows (p : Partition) (x : EngineM Answer) (t : Table) (img : Image)
    (next : Except Error Answer × Ledger) : Prop :=
  Ensures p .reliable (p.Secure .reliable True fun _ => True) x t img
    (fun answer t' img' => next.1 = .ok answer ∧ next.2.Kept p t' img')
    (fun error t' img' => error ≠ .ioFailure ∧ next.1 = .error error ∧ next.2.Kept p t' img')

/-- A program that only looks leaves the ledger as it is. -/
theorem follows_of_peeks (h : s.Kept p t img) {x : EngineM Answer} {result : Except Error Answer}
    (hpeeks : Peeks p x t img (fun answer t' => t' = t ∧ result = .ok answer)
      (fun error t' => t' = t ∧ error ≠ .ioFailure ∧ result = .error error)) :
    Follows p x t img (result, s) := by
  refine hpeeks.ensures.mono ?_ ?_
  · rintro answer _ _ ⟨⟨rfl, hresult⟩, rfl⟩
    exact ⟨hresult, h⟩
  · rintro error _ _ ⟨⟨rfl, herror, hresult⟩, rfl⟩
    exact ⟨herror, hresult, h⟩

/-! ## Lookups -/

theorem follows_readItem (hu : p.Usable) (h : s.Kept p t img) {buffer : Bytes}
    (haccepted : (Operation.readItem key buffer).purpose.Accepted p) :
    Follows p ((fun answer => .copied answer.1 answer.2) <$> readItem p key buffer) t img
      (Operation.showCopy buffer (s.contents key), s) := by
  obtain ⟨hkey, hbuffer⟩ := Operation.accepted_readItem_iff.mp haccepted
  refine follows_of_peeks h (.map _ ((peeks_readItem hu h.mirrors (h.represented key) hkey hbuffer).mono
    ?_ fun _ _ hfail => hfail))
  rintro answer _ ⟨rfl, rfl⟩
  exact ⟨rfl, rfl⟩

theorem follows_lengthOf (hu : p.Usable) (h : s.Kept p t img) (hkey : isValidKey key = true) :
    Follows p (.length <$> lengthOf p key) t img
      (.ok (.length ((s.contents key).map (·.length))), s) := by
  refine follows_of_peeks h (.map _ ((peeks_lengthOf hu h.mirrors (h.represented key) hkey).mono
    ?_ fun _ _ hfail => hfail))
  rintro length _ ⟨rfl, rfl⟩
  exact ⟨rfl, rfl⟩

theorem follows_fetch {α : Type} [Storable α] (hu : p.Usable) (h : s.Kept p t img)
    (hkey : isValidKey key = true)
    (hcorrupt : ∀ bytes error, (Storable.decode bytes : Except Error α) = .error error →
      error = .corrupt) (answer : Option α → Answer) :
    Follows p (answer <$> fetch key p) t img ((decoded (s.contents key)).map answer, s) := by
  refine follows_of_peeks h (.map _ ((peeks_fetch hu h.mirrors (h.represented key) hkey).mono ?_ ?_))
  · rintro value _ ⟨rfl, hvalue⟩
    exact ⟨rfl, by rw [hvalue]; rfl⟩
  · rintro error _ ⟨rfl, herror⟩
    exact ⟨rfl, ne_ioFailure_of_decoded hcorrupt herror, by rw [herror]; rfl⟩

/-! ## Writes -/

theorem Written.kept {page : Nat} {entry : Page} {opened : Table} {between : Image}
    (hwritten : Written p key payload t img page entry opened between t' img') (h : s.Kept p t img) :
    Ledger.Kept p ⟨Function.update s.contents key (some payload),
      s.stock.stored p key (headerSize + payload.length)⟩ t' img' := by
  have honce : opened.MarkedOnce := by
    rcases hwritten.selected.choice with ⟨rfl, -⟩ | ⟨hopened, -⟩
    · exact h.once
    · exact hopened.once h.once
  refine ⟨hwritten.mirrors, hwritten.stowed.once honce, h.represented.update hwritten.update, ?_⟩
  rw [hwritten.stock_eq h.mirrors, h.stock_eq]

/-- **A write ends as the ledger says**, which is the first to know whether there is room. -/
theorem follows_writeItem (hu : p.Usable) (h : s.Kept p t img)
    (haccepted : (Purpose.store key payload).Accepted p) :
    Follows p ((fun _ => .done) <$> writeItem p key payload) t img
      (s.meet p (.store key payload)) := by
  have hspace : Exhausted p (headerSize + payload.length) t ↔
      s.stock.Exhausted p (headerSize + payload.length) := h.stock_eq ▸ exhausted_iff_stock
  rw [Ledger.meet]
  split
  · next hstored =>
    exact follows_of_peeks h (.map _ ((peeks_writeItem_of_stored hu h.mirrors (h.represented key)
      haccepted hstored).mono (fun _ _ heq => ⟨heq, rfl⟩) fun _ _ hfail => hfail))
  · next hnew =>
    split
    · next hexhausted =>
      refine follows_of_peeks h (.map _ ((peeks_writeItem_of_exhausted hu h.mirrors (h.represented key)
        haccepted hnew (hspace.mpr hexhausted)).mono (fun _ _ hpost => hpost) ?_))
      rintro error _ ⟨rfl, rfl⟩
      exact ⟨rfl, nofun, rfl⟩
    · next hroom =>
      refine .map _ ((ensures_writeItem_of_room hu h.mirrors (h.represented key) haccepted hnew
        (hspace.not.mpr hroom)).mono ?_ fun _ _ _ hfail => hfail.elim)
      rintro _ t' img' ⟨page, entry, opened, between, hwritten⟩
      exact ⟨rfl, hwritten.kept h⟩

/-! ## Removals and sweeps -/

theorem follows_deleteItem (hu : p.Usable) (h : s.Kept p t img) (hkey : isValidKey key = true) :
    Follows p (.count <$> deleteItem p key) t img (s.meet p (.remove key)) := by
  refine .map _ ((ensures_deleteItem hu h.mirrors key fun _ _ _ => trivial).mono ?_ ?_)
  · rintro removed t' img' ⟨hmirrors, hupdate, rfl, hfaded⟩
    refine ⟨by rw [h.represented.copies_eq key]; rfl, hmirrors, hfaded.once h.once,
      h.represented.update hupdate, ?_⟩
    rw [stock_of_faded hfaded h.mirrors hmirrors hupdate, h.stock_eq]
    rfl
  · rintro error t' img' ⟨-, hnot, -⟩
    exact absurd hkey hnot

theorem follows_sweep (hu : p.Usable) (h : s.Kept p t img) :
    Follows p (.count <$> sweep p) t img
      (.ok (.count (s.stock.count .waiting)), ⟨s.contents, s.stock.map .sweep⟩) := by
  refine .map _ ((ensures_sweep hu h.mirrors).mono ?_ fun _ _ _ hfail => hfail.elim)
  rintro count t' img' ⟨hmirrors, hlive, hswept, rfl, honce⟩
  refine ⟨by rw [countP_unavailable_eq t (p.live img), h.stock_eq], hmirrors, honce h.once,
    hlive ▸ h.represented, ?_⟩
  rw [hlive, stock_of_swept hswept (hmirrors.count_eq.trans h.mirrors.count_eq.symm), h.stock_eq]

/-- **An engine program answers what the ledger says.** -/
theorem follows_program (hu : p.Usable) (h : s.Kept p t img) {operation : Operation}
    {x : Partition → EngineM Answer} (hx : operation.program? = some x) (hplain : operation ≠ .usage) :
    Follows p (x p) t img (s.call p operation) := by
  unfold Ledger.call
  split
  · next haccepted =>
    cases operation <;> cases hx
    case readItem key buffer => exact follows_readItem hu h haccepted
    case writeItem key payload => exact follows_writeItem hu h haccepted
    case deleteItem key => exact follows_deleteItem hu h haccepted
    case sweep => exact follows_sweep hu h
    case itemLength key => exact follows_lengthOf hu h haccepted
    case fetch route key type =>
      exact follows_fetch hu h haccepted (fun _ _ => type.eq_corrupt_of_decode) _
    case put route key value => exact follows_writeItem hu h haccepted
    case firmware => exact follows_fetch hu h rfl (fun _ _ => ValueType.firmware.eq_corrupt_of_decode) _
    case setFirmware info => exact follows_writeItem hu h haccepted
    case usage => exact absurd rfl hplain
  · next hnot =>
    rw [Operation.program_eq_throw hx hnot]
    exact ensures_throw ⟨nofun, rfl, h⟩

end Engine

end RingStore
