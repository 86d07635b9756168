import RingStore.Proofs.Bounds
import RingStore.Proofs.Engine.CopeUpdate

/-!
# Calls on a corrupted flash

Between two calls the flash may be changed behind the store's back.  A store that has to scan again
repairs what it finds.  A store that is ready takes the lengths of records from the flash without
another scan.  A corrupted length may lead a lookup beyond the end of a page, and the page refuses to be
read there: the caller gets the error that stands for arguments of his own that are not in order.

Nothing else goes wrong.  A lookup or a write gives that error exactly if the store is ready and a value
of the key runs past the end of its page, and a deletion never does.  If no access fails, all other
calls succeed, but for writes that do not find room.

## Main statements

* `Operation.copes_program`: how the engine programs end on a flash that holds anything.
* `Session.corruption_refused_iff`: when a corrupted flash is reported as an error of the caller.
* `Session.corruption_blames_caller`: one corrupted byte is reported like that.
-/

namespace RingStore

open EngineM

namespace Operation

/-- A call under a key with arguments that are in order. -/
inductive Regular (p : Partition) (key : UInt16) : Operation → Prop
  | readItem {buffer : Bytes} (hkey : isValidKey key = true) (hbuffer : buffer ≠ []) :
      Regular p key (.readItem key buffer)
  | itemLength (hkey : isValidKey key = true) : Regular p key (.itemLength key)
  | writeItem {payload : Bytes} (hkey : isValidKey key = true) (hne : payload ≠ [])
      (hlength : payload.length ≤ p.maxPayload) : Regular p key (.writeItem key payload)
  | deleteItem (hkey : isValidKey key = true) : Regular p key (.deleteItem key)

/-- The call stores a value. -/
def stores : Operation → Bool
  | writeItem _ _ => true
  | _ => false

/-- The call looks for the value that is stored. -/
def searches : Operation → Bool
  | deleteItem _ => false
  | _ => true

variable {p : Partition} {conduct : Conduct} {count : Nat} {t : Table} {img : Image} {key : UInt16}
  {operation : Operation}

theorem Regular.keepsGuard (h : operation.Regular p key) : operation.KeepsGuard := by
  cases h <;> trivial

theorem Regular.accepted (h : operation.Regular p key) : operation.purpose.Accepted p := by
  cases h with
  | readItem hkey hbuffer => exact accepted_readItem_iff.mpr ⟨hkey, hbuffer⟩
  | itemLength hkey => exact hkey
  | writeItem hkey hne hlength => exact ⟨hkey, hne, hlength⟩
  | deleteItem hkey => exact hkey

theorem Regular.exists_program (h : operation.Regular p key) : ∃ x, operation.program? = some x := by
  cases h <;> exact ⟨_, rfl⟩

/-- The call meets a value of its key that runs past the end of a page. -/
def Meets (p : Partition) (key : UInt16) (operation : Operation) (t : Table) (img : Image) : Prop :=
  operation.searches = true ∧ t.Overruns p key img

/-- **On a flash that holds anything** a call is refused exactly if it meets a value that runs past the
end of a page. -/
theorem copes_program (hu : p.Usable) (h : t.Shaped p count) (hregular : operation.Regular p key)
    {x : Partition → EngineM Answer} (hx : operation.program? = some x) :
    Copes p conduct (x p) t img (fun _ _ _ => ¬operation.Meets p key t img)
      (fun error _ _ => error = .invalidArgument ∧ operation.Meets p key t img ∨
        error = .outOfSpace ∧ operation.stores = true ∧ ¬operation.Meets p key t img) := by
  cases hregular <;> cases hx
  case readItem buffer hkey hbuffer =>
    exact .map _ ((Engine.copes_readItem hu h hkey hbuffer).mono
      (fun _ _ _ hpost hmeets => hpost.2 hmeets.2)
      fun _ _ _ hrefused => Or.inl ⟨hrefused.1, rfl, hrefused.2⟩)
  case itemLength hkey =>
    exact .map _ ((Engine.copes_lengthOf hu h hkey).mono
      (fun _ _ _ hpost hmeets => hpost.2 hmeets.2)
      fun _ _ _ hrefused => Or.inl ⟨hrefused.1, rfl, hrefused.2⟩)
  case writeItem payload hkey hne hlength =>
    refine .map _ ((Engine.copes_writeItem hu h hkey hne hlength).mono
      (fun _ _ _ hpost hmeets => hpost.2 hmeets.2) ?_)
    rintro error t' img' (hrefused | ⟨herror, hnot⟩)
    · exact Or.inl ⟨hrefused.1, rfl, hrefused.2⟩
    · exact Or.inr ⟨herror, rfl, fun hmeets => hnot hmeets.2⟩
  case deleteItem hkey =>
    exact .map _ ((Engine.copes_deleteItem hu h hkey).imp fun _ _ _ _ hmeets => nomatch hmeets.1)

end Operation

namespace Session

variable {p : Partition} {conduct : Conduct} {key : UInt16} {operation : Operation} {store : Store}
  {session : Session} {cells : Cells}

/-- The call is led astray: the store trusts its table, and the call meets a value of its key that runs
past the end of a page. -/
def Misled (p : Partition) (key : UInt16) (operation : Operation) (store : Store) (img : Image) : Prop :=
  store.phase = .ready ∧ operation.Meets p key store.table img

/-- How a call under a key ends on a flash that holds anything. -/
inductive Verdict (p : Partition) (conduct : Conduct) (key : UInt16) (operation : Operation)
    (store : Store) (img : Image) : Except Error Answer → Prop
  /-- The call is refused as if its arguments were not in order. -/
  | refused (hmisled : Misled p key operation store img) :
      Verdict p conduct key operation store img (.error .invalidArgument)
  /-- The chip has refused an access. -/
  | failed (hconduct : conduct ≠ .reliable) :
      Verdict p conduct key operation store img (.error .ioFailure)
  /-- The store was not scanned before. -/
  | unscanned (hphase : store.phase = .unready) :
      Verdict p conduct key operation store img (.error .notInitialized)
  /-- There is no room for the value. -/
  | full (hstores : operation.stores = true) (hnot : ¬Misled p key operation store img) :
      Verdict p conduct key operation store img (.error .outOfSpace)
  /-- The call succeeds. -/
  | answered {answer : Answer} (hnot : ¬Misled p key operation store img) :
      Verdict p conduct key operation store img (.ok answer)

/-- A call whose arguments are in order has its effect after another scan. -/
theorem verdict_of_outcome (hregular : operation.Regular p key) (hphase : store.phase ≠ .ready)
    {img img' : Image} {result : Except Error Answer} {store' : Store}
    (h : Store.Outcome p conduct False operation store img result store' img') :
    Verdict p conduct key operation store img result := by
  have hnot : ¬Misled p key operation store img := fun hmisled => hphase hmisled.1
  cases h with
  | failed hconduct => exact .failed hconduct
  | unscanned hunready => exact .unscanned hunready
  | told hoperation => cases hregular <;> cases hoperation
  | scanned hoperation => cases hregular <;> cases hoperation
  | concluded hbefore hprogram hready hbegins heffect =>
    rcases heffect with ⟨hrefused, -⟩ | ⟨-, heffect⟩
    · exact absurd hregular.accepted hrefused
    · cases hregular with
      | readItem hkey hbuffer =>
        obtain ⟨v, -, -, -, rfl⟩ := heffect
        exact .answered hnot
      | itemLength hkey =>
        obtain ⟨v, -, -, -, rfl⟩ := heffect
        exact .answered hnot
      | writeItem hkey hne hlength =>
        rcases heffect with ⟨rfl, -⟩ | ⟨rfl, -⟩
        · exact .answered hnot
        · exact .full rfl hnot
      | deleteItem hkey =>
        obtain ⟨rfl, -⟩ := heffect
        exact .answered hnot

/-- **A call on a flash that holds anything**, from a store with a coherent table. -/
theorem always_call_regular (hu : p.Usable) (hsplit : conduct ≠ .splitting)
    (hsession : session.Keeps p store) (hstore : store.InRange p)
    (hfits : p.base + p.size ≤ cells.size) (hregular : operation.Regular p key) :
    (session.handle (.call operation)).Always conduct (fun _ => True) cells fun answer _ =>
      ∃ result, answer.1 = .answered result ∧
        Verdict p conduct key operation store (p.image cells) result := by
  by_cases hphase : store.phase = .ready
  · obtain ⟨x, hx⟩ := hregular.exists_program
    rw [handle_call_of_ready hsession hstore.partition_eq hphase hregular.keepsGuard hx,
      FlashM.always_bind]
    refine (operation.copes_program hu ⟨hstore.table, rfl⟩ hregular hx cells ⟨hfits, rfl⟩
      trivial).mono (fun _ hc => hc) ?_
    rintro ⟨error | answer, t'⟩ after h
    · refine ⟨_, rfl, ?_⟩
      rcases h with ⟨rfl, hconduct⟩ | ⟨rfl, hmeets⟩ | ⟨rfl, hstores, hnot⟩
      · exact .failed hconduct
      · exact .refused ⟨hphase, hmeets⟩
      · exact .full hstores fun hmisled => hnot hmisled.2
    · exact ⟨_, rfl, .answered fun hmisled => h hmisled.2⟩
  · -- The table is not trusted, so nothing has to be known of it.
    have hcalls : (Request.call operation).Calls p store store operation :=
      .call hregular.keepsGuard
    have hsound : store.Sound p (p.image cells) :=
      ⟨hstore.partition_eq, fun hready => absurd hready hphase⟩
    have hhandle : (session.handle (.call operation)).Always conduct
        (fun c => p.Secure conduct False (fun _ => True) (p.image c)) cells _ :=
      always_handle_of_sound hu hsplit (Or.inr fun _ => trivial) hsession hcalls hsound hfits
        (p.secure_of_unasked _ _) fun _ _ _ _ _ _ => trivial
    refine hhandle.mono (fun _ _ => trivial) ?_
    rintro answer after ⟨result, store', hreply, -, -, -, -, houtcome⟩
    exact ⟨result, hreply, verdict_of_outcome hregular hphase houtcome⟩

variable {requests : List Request} {σ : Type} {device : Device σ} {flash : Flash}

/-- **When a corrupted flash is reported as an error of the caller.**  After any run on any device the
flash may hold anything.  A call with arguments that are in order is refused as if they were not only if
the store is ready and a lookup meets a value of the key that runs past the end of its page.  If no
access fails and the store was scanned, it is refused exactly then, and otherwise it succeeds, or it is
a write that does not find room. -/
theorem corruption_refused_iff (hu : p.Usable) (hsession : session.Keeps p (.ofPartition p))
    (hrequests : ∀ request ∈ requests, request.Stays) (hdevice : device.Fills) (s : σ)
    (hfits : p.base + p.size ≤ flash.cells.size) (hregular : operation.Regular p key) :
    let last := ((session.serve requests).run device s).1.2
    let reply := ((last.handle (.call operation)).run Flash.device flash).1.1
    ∃ store, last.store = some store ∧
      (reply = .answered (.error .invalidArgument) →
        Misled p key operation store (p.image flash.cells)) ∧
      (flash.Follows .reliable → store.phase ≠ .unready →
        (reply = .answered (.error .invalidArgument) ↔
          Misled p key operation store (p.image flash.cells)) ∧
        (¬Misled p key operation store (p.image flash.cells) →
          (∃ answer, reply = .answered (.ok answer)) ∨
            operation.stores = true ∧ reply = .answered (.error .outOfSpace))) := by
  intro last reply
  obtain ⟨-, ⟨store, hlast, hstore, -⟩, -⟩ :=
    (hsession.inRange False #[]).serve hu.granular hrequests hdevice s
  have hverdict : ∀ {conduct : Conduct}, conduct ≠ .splitting → flash.Follows conduct →
      ∃ result, reply = .answered result ∧
        Verdict p conduct key operation store (p.image flash.cells) result :=
    fun hsplit hflash => (Flash.run_of_always hflash
      (always_call_regular hu hsplit hlast hstore hfits hregular)).1
  refine ⟨store, hlast.store_eq, fun hrefused => ?_, fun hflash hphase => ?_⟩
  · obtain ⟨result, hreply, h⟩ := hverdict (by nofun) flash.follows_tearing
    obtain rfl : result = _ := Reply.answered.inj (hreply.symm.trans hrefused)
    cases h with
    | refused hmisled => exact hmisled
  · obtain ⟨result, hreply, h⟩ := hverdict (by nofun) hflash
    rw [hreply]
    cases h with
    | refused hmisled => exact ⟨⟨fun _ => hmisled, fun _ => rfl⟩, fun hnot => absurd hmisled hnot⟩
    | failed hconduct => exact absurd rfl hconduct
    | unscanned hunready => exact absurd hunready hphase
    | full hstores hnot => exact ⟨⟨nofun, fun hmisled => absurd hmisled hnot⟩,
        fun _ => Or.inr ⟨hstores, rfl⟩⟩
    | answered hnot => exact ⟨⟨nofun, fun hmisled => absurd hmisled hnot⟩,
        fun _ => Or.inl ⟨_, rfl⟩⟩

/-- One byte is stored under a key, and then a bit of the length in front of it is inverted. -/
def lengthened : ((List Reply × Session) × Flash) × Flash :=
  let written := ((ofPartition .pair).serve [.call .init, .call (.writeItem 5 [7])]).run Flash.device
    (Partition.pair.erased fun _ => .granted)
  (written, .steady (written.2.cells.flip 1 0x10))

/-- The length reaches beyond the end of the page, and the lookup is refused. -/
theorem corruption_refused_iff_pair :
    let last := lengthened.1.1.2
    let reply := ((last.handle (.call (.readItem 5 [0, 0]))).run Flash.device lengthened.2).1.1
    reply = .answered (.error .invalidArgument) ∧
      ∃ store, last.store = some store ∧
        Misled .pair 5 (.readItem 5 [0, 0]) store (Partition.pair.image lengthened.2.cells) := by
  have hrequests : ∀ request ∈ ([.call .init, .call (.writeItem 5 [7])] : List Request),
      request.Stays := by simp [Request.Stays]
  have hsize : lengthened.2.cells.size = 32 := by decide +kernel
  have hfits : Partition.pair.base + Partition.pair.size ≤ lengthened.2.cells.size := by
    rw [hsize]
    decide
  have hregular : (Operation.readItem 5 [0, 0]).Regular .pair 5 := .readItem (by decide) (by decide)
  obtain ⟨store, hstore, hmisled, -⟩ := corruption_refused_iff Partition.usable_pair
    (keeps_ofPartition .pair) hrequests Flash.fills_device (Partition.pair.erased fun _ => .granted)
    hfits hregular
  have hreply : (((lengthened.1.1.2).handle (.call (.readItem 5 [0, 0]))).run Flash.device
      lengthened.2).1.1 = .answered (.error .invalidArgument) := Reply.eq_error (by decide +kernel)
  exact ⟨hreply, store, hstore, hmisled hreply⟩

/-- **One corrupted byte is reported as an error of the caller.**  The key is valid, the buffer is not
empty, and no access fails; a deletion succeeds all the same. -/
theorem corruption_blames_caller :
    let reply := fun operation =>
      ((lengthened.1.1.2.handle (.call operation)).run Flash.device lengthened.2).1.1
    Partition.pair.Usable ∧ (ofPartition .pair).Keeps .pair (.ofPartition .pair) ∧
      lengthened.1.1.1.map Reply.isDone = [true, true] ∧ isValidKey 5 = true ∧
      lengthened.2.Follows .reliable ∧
      (reply (.readItem 5 [0, 0])).error? = some .invalidArgument ∧
      (reply (.itemLength 5)).error? = some .invalidArgument ∧
      (reply (.writeItem 5 [9])).error? = some .invalidArgument ∧
      (reply (.deleteItem 5)).error? = none :=
  ⟨Partition.usable_pair, keeps_ofPartition .pair, by decide +kernel, by decide, fun _ => trivial,
    by decide +kernel, by decide +kernel, by decide +kernel, by decide +kernel⟩

end Session

end RingStore
