import Mathlib.Data.Finset.Basic
import Mathlib.Data.Multiset.Range
import RingStore.Proofs.Engine.Allocate
import RingStore.Proofs.Engine.Rescan

/-!
# The stock of pages

How much room there is does not depend on where in the ring the pages lie.  It depends on what each of
them is good for: whether it can be opened, how many bytes of it are taken, and the keys of its live
records, since a full page is given back with the last of them.  `Table.stock` collects that, with
multiplicities and without an order.

A search for an erased page begins at the head, so which page is opened depends on the head.  But what
the stock loses and gains does not: one erased page for one active one.  The same holds of every
operation, so the stock after it is a function of the stock before it.

## Main statements

* `Engine.exhausted_iff_stock`: the stock shows whether there is room.
* `Engine.Written.stock_eq`, `Engine.stock_of_faded`, `Engine.stock_of_swept`: what a write, a removal and a
  sweep make of it.
* `Table.Rescanned.stock_eq`: another scan finds the same stock.
-/

namespace RingStore

open RingStore.Partition (Holdings)

/-! ## The keys of a page -/

namespace Partition.Holdings

variable {L L' : Holdings} {key : UInt16} {page : Nat}

/-- The keys of the live records of a page. -/
def keys (L : Holdings) (page : Nat) : Finset UInt16 :=
  ((L page).map (·.2.header.key)).toFinset

theorem mem_keys : key ∈ L.keys page ↔ ∃ entry, L.Copy key page entry := by
  simp [keys, Copy]

theorem keys_eq_empty : L.keys page = ∅ ↔ L page = [] := by
  simp [keys]

theorem SameBut.mem_keys (h : SameBut key L L') {other : UInt16} (hne : other ≠ key) :
    other ∈ L'.keys page ↔ other ∈ L.keys page := by
  rw [Holdings.mem_keys, Holdings.mem_keys]
  refine exists_congr fun entry => and_congr_left fun hkey => h page entry ?_
  rwa [hkey]

/-- Where a copy of a key is put, the page holds that key as well. -/
theorem SameBut.keys_insert (h : SameBut key L L') {entry : Nat × Record}
    (hcopy : L'.Copy key page entry) : L'.keys page = insert key (L.keys page) := by
  ext other
  rw [Finset.mem_insert]
  by_cases heq : other = key
  · exact iff_of_true (Holdings.mem_keys.mpr ⟨entry, heq ▸ hcopy⟩) (Or.inl heq)
  · rw [h.mem_keys heq, or_iff_right heq]

/-- Where no copy of a key is left, the page does not hold that key. -/
theorem SameBut.keys_erase (h : SameBut key L L') (hnone : ∀ entry, ¬L'.Copy key page entry) :
    L'.keys page = (L.keys page).erase key := by
  ext other
  rw [Finset.mem_erase]
  by_cases heq : other = key
  · refine iff_of_false (fun hmem => ?_) fun hother => hother.1 heq
    obtain ⟨entry, hcopy⟩ := Holdings.mem_keys.mp (heq ▸ hmem)
    exact hnone entry hcopy
  · rw [h.mem_keys heq, and_iff_right heq]

end Partition.Holdings

/-! ## Pages in a stock -/

/-- What a page is good for: an active one has so many bytes taken, and an active or a full one holds
live records of these keys. -/
inductive Slot where
  | erased
  | active (used : Nat) (keys : Finset UInt16)
  | full (keys : Finset UInt16)
  | waiting
  deriving DecidableEq

namespace Slot

/-- A page that holds records of these keys, at its stage. -/
def ofExtent (keys : Finset UInt16) : PageKind × Nat → Slot
  | (.erased, _) => erased
  | (.active, used) => active used keys
  | (.full, _) => full keys
  | (.unavailable, _) => waiting

/-- The page can be opened, if need be after an erase. -/
def isVacant : Slot → Bool
  | erased | waiting => true
  | _ => false

/-- The page is active and has so many bytes free. -/
def hasRoom (p : Partition) (needed : Nat) : Slot → Bool
  | active used _ => used + needed ≤ p.contentSize
  | _ => false

/-- The page is closed for appends. -/
def close : Slot → Slot
  | active _ keys => if keys = ∅ then waiting else full keys
  | slot => slot

/-- The copies of a key are dropped. -/
def drop (key : UInt16) : Slot → Slot
  | active used keys => active used (keys.erase key)
  | full keys => if keys.erase key = ∅ then erased else full (keys.erase key)
  | slot => slot

/-- A record that takes so many bytes is appended if the page is active.  Elsewhere the copies of its key
are dropped. -/
def put (p : Partition) (key : UInt16) (needed : Nat) : Slot → Slot
  | active used keys =>
    if p.contentSize < used + needed + minRecordSize then full (insert key keys)
    else active (used + needed) (insert key keys)
  | slot => slot.drop key

/-- The page is erased if it waits for that. -/
def sweep : Slot → Slot
  | waiting => erased
  | slot => slot

variable {p : Partition} {L L' : Holdings} {page : Nat} {key : UInt16} {extent : PageKind × Nat}

theorem ofExtent_retire :
    ofExtent (L.keys page) (Engine.retire (L page) extent) = (ofExtent (L.keys page) extent).close := by
  obtain ⟨kind, used⟩ := extent
  cases kind with
  | active =>
    by_cases hnil : L page = []
    · simp [Engine.retire, ofExtent, close, Holdings.keys_eq_empty, hnil]
    · simp [Engine.retire, ofExtent, close, Holdings.keys_eq_empty, hnil]
  | _ => rfl

theorem ofExtent_fade (hkeys : L'.keys page = (L.keys page).erase key) :
    ofExtent (L'.keys page) (Engine.fade .immediate (L' page) extent) =
      (ofExtent (L.keys page) extent).drop key := by
  obtain ⟨kind, used⟩ := extent
  cases kind with
  | active => exact congrArg (active used) hkeys
  | full =>
    show _ = if (L.keys page).erase key = ∅ then erased else full ((L.keys page).erase key)
    rw [← hkeys]
    by_cases hnil : L' page = []
    · rw [if_pos (Holdings.keys_eq_empty.mpr hnil), Engine.fade_of_full rfl hnil]
      rfl
    · rw [if_neg (Holdings.keys_eq_empty.not.mpr hnil), Engine.fade_of_ne_nil hnil]
      rfl
  | _ => rfl

theorem ofExtent_swept (keys : Finset UInt16) :
    ofExtent keys (Engine.swept extent) = (ofExtent keys extent).sweep := by
  obtain ⟨kind, used⟩ := extent
  cases kind <;> rfl

theorem put_ofExtent_of_ne_active (hkind : extent.1 ≠ .active) (needed : Nat) (keys : Finset UInt16) :
    (ofExtent keys extent).put p key needed = (ofExtent keys extent).drop key := by
  obtain ⟨kind, used⟩ := extent
  cases kind with
  | active => exact absurd rfl hkind
  | _ => rfl

end Slot

/-! ## Stocks -/

/-- Pages without an order. -/
abbrev Stock := Multiset Slot

namespace Stock

variable (p : Partition) (key : UInt16) (needed : Nat) (stock : Stock)

/-- An active page has so many bytes free. -/
def Roomy : Prop := ∃ slot ∈ stock, slot.hasRoom p needed = true

/-- No active page has so many bytes free, and none can be opened. -/
def Exhausted : Prop := ¬stock.Roomy p needed ∧ ∀ slot ∈ stock, slot.isVacant = false

instance : Decidable (stock.Roomy p needed) := Multiset.decidableExistsMultiset

instance : Decidable (stock.Exhausted p needed) :=
  inferInstanceAs (Decidable (_ ∧ ∀ slot ∈ stock, slot.isVacant = false))

/-- The page that is opened next: an erased one, or one that waits for its erase if there is no other. -/
def vacant : Slot := if .erased ∈ stock then .erased else .waiting

/-- A page is opened, unless the active one has so many bytes free. -/
def opened : Stock :=
  if stock.Roomy p needed then stock else .active 0 ∅ ::ₘ (stock.erase stock.vacant).map .close

/-- A record that takes so many bytes is stored. -/
def stored : Stock := (stock.opened p needed).map (.put p key needed)

end Stock

namespace Table

variable {p : Partition} {t t' : Table} {img img' : Image} {L L' : Holdings} {page : Nat} {entry : Page}

/-- What a page of the table is good for. -/
def slot (t : Table) (L : Holdings) (page : Nat) : Slot :=
  .ofExtent (L.keys page) ((t.extent? page).getD (.erased, 0))

/-- The pages of the table without their order. -/
def stock (t : Table) (L : Holdings) : Stock := (Multiset.range t.count).map (t.slot L)

theorem slot_eq {extent : PageKind × Nat} (h : t.extent? page = some extent) :
    t.slot L page = .ofExtent (L.keys page) extent := by
  rw [slot, h, Option.getD_some]

theorem mem_stock {slot : Slot} :
    slot ∈ t.stock L ↔ ∃ page entry, t.pages[page]? = some entry ∧
      slot = .ofExtent (L.keys page) (entry.kind, entry.used) := by
  rw [stock, Multiset.mem_map]
  constructor
  · rintro ⟨page, hpage, rfl⟩
    obtain ⟨entry, hentry⟩ := exists_entry (Multiset.mem_range.mp hpage)
    exact ⟨page, entry, hentry, slot_eq (extent?_eq hentry)⟩
  · rintro ⟨page, entry, hentry, rfl⟩
    exact ⟨page, Multiset.mem_range.mpr (lt_count hentry), slot_eq (extent?_eq hentry)⟩

/-- What changes every page in the same way changes the stock in that way. -/
theorem stock_map {f : Slot → Slot} (hcount : t'.count = t.count)
    (h : ∀ page entry, t.pages[page]? = some entry → t'.slot L' page = f (t.slot L page)) :
    t'.stock L' = (t.stock L).map f := by
  rw [stock, stock, Multiset.map_map, hcount]
  refine Multiset.map_congr rfl fun page hpage => ?_
  obtain ⟨entry, hentry⟩ := exists_entry (Multiset.mem_range.mp hpage)
  exact h page entry hentry

/-- **Another scan finds the same stock.** -/
theorem Rescanned.stock_eq (h : t.Rescanned p t') : t'.stock L = t.stock L := by
  rw [← Multiset.map_id (t.stock L)]
  refine stock_map (count_of_rescanned h.pages) fun page entry hentry => ?_
  have hentry' : t'.pages[page]? = some (entry.rescanned p) := by
    rw [h.pages, hentry, Option.map_some]
  rw [slot_eq (extent?_eq hentry), slot_eq (extent?_eq hentry'), id, Page.rescanned]
  -- The bytes that its records take do not matter of a page that waits for its erase.
  split
  · next hkind =>
    rw [hkind]
    show Slot.ofExtent _ (entry.kind, _) = _
    rw [hkind]
    rfl
  · rfl

end Table

/-! ## What the operations make of the stock -/

namespace Engine

variable {p : Partition} {t t' opened : Table} {img img' : Image} {L : Holdings} {needed page : Nat}
  {key : UInt16}

theorem roomy_iff_stock : (t.stock L).Roomy p needed ↔ ¬Cramped p needed t := by
  simp only [Cramped, Classical.not_forall, Nat.not_lt]
  constructor
  · rintro ⟨slot, hslot, hroom⟩
    obtain ⟨page, entry, hentry, rfl⟩ := Table.mem_stock.mp hslot
    cases hkind : entry.kind with
    | active =>
      rw [hkind] at hroom
      exact ⟨page, entry, hentry, hkind, of_decide_eq_true hroom⟩
    | _ =>
      rw [hkind] at hroom
      cases hroom
  · rintro ⟨page, entry, hentry, hkind, hroom⟩
    refine ⟨_, Table.mem_stock.mpr ⟨page, entry, hentry, rfl⟩, ?_⟩
    rw [hkind]
    exact decide_eq_true hroom

/-- **The stock shows whether there is room.** -/
theorem exhausted_iff_stock : Exhausted p needed t ↔ (t.stock L).Exhausted p needed := by
  have hvacant : ∀ (entry : Page) (keys : Finset UInt16),
      (Slot.ofExtent keys (entry.kind, entry.used)).isVacant = false ↔
        entry.kind ≠ .erased ∧ entry.kind ≠ .unavailable := by
    intro entry keys
    cases entry.kind <;> simp [Slot.ofExtent, Slot.isVacant]
  rw [Stock.Exhausted, roomy_iff_stock, Classical.not_not]
  constructor
  · rintro ⟨hused, hcramped⟩
    refine ⟨hcramped, fun slot hslot => ?_⟩
    obtain ⟨page, entry, hentry, rfl⟩ := Table.mem_stock.mp hslot
    exact (hvacant entry _).mpr (hused page entry hentry)
  · rintro ⟨hcramped, hused⟩
    exact ⟨fun page entry hentry => (hvacant entry _).mp
      (hused _ (Table.mem_stock.mpr ⟨page, entry, hentry, rfl⟩)), hcramped⟩

/-- Whichever vacant page is opened, the stock loses the same. -/
theorem Vacant.slot_eq (h : Vacant t page) : t.slot L page = (t.stock L).vacant := by
  rw [Stock.vacant]
  rcases h with herased | ⟨hnone, hwaits⟩
  · obtain ⟨entry, hentry, hkind⟩ := Table.isKind_iff.mp herased
    have hslot : t.slot L page = .erased := by
      rw [Table.slot_eq (Table.extent?_eq hentry), hkind]
      rfl
    rw [hslot, if_pos]
    exact hslot ▸ Multiset.mem_map_of_mem _ (Multiset.mem_range.mpr (Table.lt_count hentry))
  · obtain ⟨entry, hentry, hkind⟩ := Table.isKind_iff.mp hwaits
    rw [Table.slot_eq (Table.extent?_eq hentry), hkind, if_neg]
    · rfl
    · intro hmem
      obtain ⟨other, e, he, heq⟩ := Table.mem_stock.mp hmem
      cases hkind' : e.kind with
      | erased => exact Table.kind_ne (hnone other) he hkind'
      | _ =>
        rw [hkind'] at heq
        cases heq

/-- No record of a vacant page is live. -/
theorem Vacant.live_eq_nil (h : Vacant t page) (hmirrors : t.Mirrors p img) :
    p.live img page = [] := by
  obtain ⟨entry, hentry, hkind⟩ := h.exists_entry
  refine hmirrors.live_eq_nil hentry ?_
  rcases hkind with hkind | hkind <;> rw [hkind] <;> decide

/-- A page is opened, and the active one is closed. -/
theorem Opened.stock_eq (h : Opened (p.live img) page t opened) (hmirrors : t.Mirrors p img)
    (hcount : opened.count = t.count) :
    opened.stock (p.live img) = .active 0 ∅ ::ₘ
      ((t.stock (p.live img)).erase (t.stock (p.live img)).vacant).map .close := by
  have hpage : page ∈ Multiset.range t.count := by
    obtain ⟨entry, hentry, -⟩ := h.vacant.exists_entry
    exact Multiset.mem_range.mpr (Table.lt_count hentry)
  have hsplit : Multiset.range t.count = page ::ₘ (Multiset.range t.count).erase page :=
    (Multiset.cons_erase hpage).symm
  have hself : opened.slot (p.live img) page = .active 0 ∅ := by
    rw [Table.slot_eq h.self, Holdings.keys_eq_empty.mpr (h.vacant.live_eq_nil hmirrors)]
    rfl
  -- The page that is opened is the one that the stock loses, all others are closed or stay.
  have hrest : ∀ other ∈ (Multiset.range t.count).erase page,
      opened.slot (p.live img) other = (t.slot (p.live img) other).close := by
    intro other hother
    obtain ⟨hne, hlt⟩ := (Multiset.nodup_range _).mem_erase_iff.mp hother
    obtain ⟨entry, hentry⟩ := Table.exists_entry (Multiset.mem_range.mp hlt)
    have hextent := Table.extent?_eq hentry
    have hextent' := h.others other hne
    rw [hextent, Option.map_some] at hextent'
    rw [Table.slot_eq hextent, Table.slot_eq hextent', Slot.ofExtent_retire]
  rw [← h.vacant.slot_eq, Table.stock, Table.stock, hcount, hsplit, Multiset.map_cons,
    Multiset.map_cons, Multiset.erase_cons_head, hself, Multiset.map_map]
  congr 1
  exact Multiset.map_congr rfl hrest

/-- A page with room was selected. -/
theorem Selected.stock_eq (h : Selected p needed t img page opened img') (hmirrors : t.Mirrors p img) :
    opened.stock (p.live img) = (t.stock (p.live img)).opened p needed := by
  rw [Stock.opened]
  rcases h.choice with ⟨rfl, -⟩ | ⟨hopened, hcramped⟩
  · obtain ⟨entry, hentry, hactive, hroom⟩ := h.room
    -- The active page has room, so the stock says that nothing is opened.
    rw [if_pos (roomy_iff_stock.mpr fun hcramped => ?_)]
    have hlt := hcramped page entry hentry hactive
    omega
  · rw [if_neg fun hroomy => roomy_iff_stock.mp hroomy hcramped]
    exact hopened.stock_eq hmirrors (h.mirrors.count_eq.trans hmirrors.count_eq.symm)

/-- **What a write makes of the stock.** -/
theorem Written.stock_eq {payload : Bytes} {entry : Page} {between : Image}
    (h : Written p key payload t img page entry opened between t' img') (hmirrors : t.Mirrors p img) :
    t'.stock (p.live img') =
      (t.stock (p.live img)).stored p key (headerSize + payload.length) := by
  have hopened := h.selected.mirrors
  rw [Stock.stored, ← h.selected.stock_eq hmirrors]
  refine Table.stock_map (h.mirrors.count_eq.trans hopened.count_eq.symm) fun other e he => ?_
  obtain ⟨copy, hcopy⟩ := h.copy
  by_cases heq : other = page
  · subst heq
    obtain rfl := Option.some.inj (he.symm.trans h.entry_eq)
    rw [Table.slot_eq h.stowed.self, Table.slot_eq (Table.extent?_eq he), h.active,
      h.update.others.keys_insert hcopy]
    show _ = if _ then _ else _
    split <;> rfl
  · -- No other page is active, so all that may happen there is that the old copy is dropped.
    have hextent := h.stowed.others other heq
    rw [Table.extent?_eq he, Option.map_some] at hextent
    have hnone : ∀ entry, ¬(p.live img').Copy key other entry := fun entry hother =>
      heq (h.update.sole _ _ _ _ hother hcopy).1
    have hkind : e.kind ≠ .active := fun hkind =>
      heq (hopened.ordered.eq_of_active h.entry_eq h.active he hkind)
    rw [Table.slot_eq hextent, Table.slot_eq (Table.extent?_eq he),
      Slot.ofExtent_fade (h.update.others.keys_erase hnone), Slot.put_ofExtent_of_ne_active hkind]

/-- **What a removal makes of the stock.** -/
theorem stock_of_faded (h : Faded .immediate (p.live img') t t') (hmirrors : t.Mirrors p img)
    (hmirrors' : t'.Mirrors p img') (hupdate : (p.live img).Update key none (p.live img')) :
    t'.stock (p.live img') = (t.stock (p.live img)).map (.drop key) := by
  refine Table.stock_map (hmirrors'.count_eq.trans hmirrors.count_eq.symm) fun page entry hentry => ?_
  have hextent := h.extents page
  rw [Table.extent?_eq hentry, Option.map_some] at hextent
  rw [Table.slot_eq hextent, Table.slot_eq (Table.extent?_eq hentry),
    Slot.ofExtent_fade (hupdate.others.keys_erase (hupdate.stored page))]

/-- **What a sweep makes of the stock.** -/
theorem stock_of_swept (h : ∀ page, t'.extent? page = (t.extent? page).map swept)
    (hcount : t'.count = t.count) : t'.stock L = (t.stock L).map .sweep := by
  refine Table.stock_map hcount fun page entry hentry => ?_
  have hextent := h page
  rw [Table.extent?_eq hentry, Option.map_some] at hextent
  rw [Table.slot_eq hextent, Table.slot_eq (Table.extent?_eq hentry), Slot.ofExtent_swept]

/-- The pages that wait for their erase. -/
theorem countP_unavailable_eq (t : Table) (L : Holdings) :
    (List.range t.count).countP (t.isKind .unavailable) = (t.stock L).count .waiting := by
  rw [Table.stock, Multiset.count_map, ← Multiset.countP_eq_card_filter, ← Multiset.coe_range,
    Multiset.coe_countP]
  refine List.countP_congr fun page hpage => ?_
  obtain ⟨entry, hentry⟩ := Table.exists_entry (List.mem_range.mp hpage)
  rw [Table.isKind_eq hentry, Table.slot_eq (Table.extent?_eq hentry)]
  cases entry.kind <;> simp [Slot.ofExtent]

end Engine

end RingStore
