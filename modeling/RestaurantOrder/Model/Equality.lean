import RestaurantOrder.Model.Message

/-! Equality of items, orders and messages: the `operator==` of model.cpp and message.cpp.

    Items compare field by field. Orders compare their items in a loop that stops at the first pair
    that differs, and is undefined if it meets a null pointer before that. Messages compare their
    orders only if the left one has an order.

        m1.order   m2.order   m1 == m2 goes on
        none       none       yes
        none       some o     yes               (overlooked)
        some o     none       no
        some o     some o'    if o == o'

    DEFECT: `sees_every_field_iff` says when `==` tells that all fields agree, and that the overlooked
    order also makes it asymmetric. -/

namespace Restaurant
open Schemes

/-- `operator==` of an item. -/
def Item.eq (lhs rhs : Item) : Bool :=
  lhs.id = rhs.id &&
  lhs.orderId = rhs.orderId &&
  lhs.status = rhs.status &&
  lhs.desc = rhs.desc &&
  lhs.qty = rhs.qty

theorem Item.eq_iff {lhs rhs : Item} : lhs.eq rhs = true ↔ lhs = rhs := by
  rw [Item.mk.injEq]
  simp only [Item.eq, Bool.and_eq_true, decide_eq_true_eq]
  constructor
  · rintro ⟨⟨⟨⟨hid, horder⟩, hst⟩, hdesc⟩, hqty⟩
    exact ⟨horder, hid, hst, hdesc, hqty⟩
  · rintro ⟨horder, hid, hst, hdesc, hqty⟩
    exact ⟨⟨⟨⟨hid, horder⟩, hst⟩, hdesc⟩, hqty⟩

namespace Order

/-- The loop of `operator==` over the items of both orders. -/
def eqItems : List (Option Item) → List (Option Item) → Cpp Bool
  | [], _ => .ok true
  | _ :: _, [] => raise (.std (ascii "vector::_M_range_check"))
  | p :: ps, q :: qs => do
    let it ← deref p
    let it' ← deref q
    if !it.eq it' then return false else eqItems ps qs

/-- `operator==` of an order. -/
def eq (lhs rhs : Order) : Cpp Bool :=
  if lhs.id ≠ rhs.id || lhs.status ≠ rhs.status || lhs.numItems ≠ rhs.numItems then return false
  else eqItems lhs.items rhs.items

end Order

namespace Message

/-- Does `operator==` find the orders different? It looks only if the left message has one. -/
def orderDiffers (lhs rhs : Message) : Cpp Bool :=
  match lhs.order, rhs.order with
  | none, _ => return false
  | some _, none => return true
  | some o, some o' => return !(← o.eq o')

/-- `operator==` of a message. -/
def eq (lhs rhs : Message) : Cpp Bool := do
  if lhs.type ≠ rhs.type || lhs.clientMode ≠ rhs.clientMode || lhs.str ≠ rhs.str then return false
  if ← lhs.orderDiffers rhs then return false
  if lhs.orderId ≠ rhs.orderId || lhs.orderStatus ≠ rhs.orderStatus ||
      lhs.itemId ≠ rhs.itemId || lhs.itemStatus ≠ rhs.itemStatus then return false
  return true

end Message

/-- The comparison returns, and returns true exactly if `P`. -/
def Tells (x : Cpp Bool) (P : Prop) : Prop := ∃ b, x = .ok b ∧ (b = true ↔ P)

theorem Tells.congr {x : Cpp Bool} {P Q : Prop} (h : Tells x P) (hpq : P ↔ Q) : Tells x Q := by
  obtain ⟨b, hb, hiff⟩ := h
  exact ⟨b, hb, hiff.trans hpq⟩

/-! ### Orders -/

namespace Order

/-- The items agree up to a position where one of the orders has a null item. -/
def Stumbles (ps qs : List (Option Item)) : Prop :=
  ∃ i, ps.take i = qs.take i ∧ (ps[i]? = some none ∨ qs[i]? = some none)

theorem stumbles_cons {p q : Option Item} {ps qs : List (Option Item)} :
    Stumbles (p :: ps) (q :: qs) ↔ p = none ∨ q = none ∨ p = q ∧ Stumbles ps qs := by
  constructor
  · rintro ⟨i, htake, hnull⟩
    cases i with
    | zero =>
      simp only [List.getElem?_cons_zero, Option.some.injEq] at hnull
      exact hnull.imp_right Or.inl
    | succ i =>
      simp only [List.take_succ_cons, List.cons.injEq] at htake
      exact Or.inr (Or.inr ⟨htake.1, i, htake.2, hnull⟩)
  · rintro (rfl | rfl | ⟨rfl, i, htake, hnull⟩)
    · exact ⟨0, rfl, Or.inl rfl⟩
    · exact ⟨0, rfl, Or.inr rfl⟩
    · exact ⟨i + 1, by rw [List.take_succ_cons, List.take_succ_cons, htake], hnull⟩

theorem not_stumbles_nil : ¬Stumbles [] [] := by
  rintro ⟨i, -, hnull⟩
  simp at hnull

/-- A list of items stumbles over its own null items. -/
theorem stumbles_self {ps : List (Option Item)} : Stumbles ps ps ↔ none ∈ ps := by
  simp only [Stumbles, true_and, or_self, List.mem_iff_getElem?]

theorem eqItems_undefined {ps qs : List (Option Item)} (hlen : ps.length = qs.length)
    (h : Stumbles ps qs) : eqItems ps qs = .error .undefined := by
  induction ps generalizing qs with
  | nil =>
    obtain rfl := List.length_eq_zero_iff.mp hlen.symm
    exact absurd h not_stumbles_nil
  | cons p ps ih =>
    obtain ⟨q, qs, rfl⟩ := List.exists_cons_of_length_eq_add_one hlen.symm
    rcases p with _ | it
    · rfl
    rcases q with _ | it'
    · rfl
    rcases stumbles_cons.mp h with hp | hq | ⟨heq, h⟩
    · cases hp
    · cases hq
    · have hsame : it.eq it' = true := Item.eq_iff.mpr (Option.some.inj heq)
      have hrest := ih (by simpa using hlen) h
      simp only [eqItems, deref_some, ok_bind, hsame, Bool.not_true, Bool.false_eq_true, if_false,
        hrest]

theorem eqItems_defined {ps qs : List (Option Item)} (hlen : ps.length = qs.length)
    (h : ¬Stumbles ps qs) : eqItems ps qs = .ok (decide (ps = qs)) := by
  induction ps generalizing qs with
  | nil =>
    obtain rfl := List.length_eq_zero_iff.mp hlen.symm
    rfl
  | cons p ps ih =>
    obtain ⟨q, qs, rfl⟩ := List.exists_cons_of_length_eq_add_one hlen.symm
    rw [stumbles_cons, not_or, not_or] at h
    obtain ⟨hp, hq, hrest⟩ := h
    obtain ⟨it, rfl⟩ := Option.ne_none_iff_exists'.mp hp
    obtain ⟨it', rfl⟩ := Option.ne_none_iff_exists'.mp hq
    simp only [eqItems, deref_some, ok_bind]
    by_cases hit : it = it'
    · have hsame : it.eq it' = true := Item.eq_iff.mpr hit
      rw [hsame, Bool.not_true, if_neg Bool.false_ne_true,
        ih (by simpa using hlen) fun hs => hrest ⟨congrArg some hit, hs⟩]
      simp [hit]
    · have hdiff : it.eq it' = false := Bool.eq_false_iff.mpr fun he => hit (Item.eq_iff.mp he)
      rw [hdiff, Bool.not_false, if_pos rfl]
      simp [hit]

/-- The comparison of the two orders meets a null item. -/
structure Clash (lhs rhs : Order) : Prop where
  id : lhs.id = rhs.id
  status : lhs.status = rhs.status
  numItems : lhs.numItems = rhs.numItems
  items : Stumbles lhs.items rhs.items

theorem eq_undefined {lhs rhs : Order} (h : Clash lhs rhs) : lhs.eq rhs = .error .undefined := by
  rw [Order.eq, if_neg, eqItems_undefined h.numItems h.items]
  simp [h.id, h.status, h.numItems]

theorem eq_defined {lhs rhs : Order} (h : ¬Clash lhs rhs) :
    lhs.eq rhs = .ok (decide (lhs = rhs)) := by
  rw [Order.eq]
  by_cases hhead : lhs.id = rhs.id ∧ lhs.status = rhs.status ∧ lhs.numItems = rhs.numItems
  · obtain ⟨hid, hst, hnum⟩ := hhead
    have hitems : lhs.items = rhs.items ↔ lhs = rhs := by
      rw [Order.mk.injEq]
      exact ⟨fun h => ⟨hid, hst, h⟩, fun h => h.2.2⟩
    rw [if_neg (by simp [hid, hst, hnum]), eqItems_defined hnum fun hs => h ⟨hid, hst, hnum, hs⟩]
    simp only [hitems]
  · have hne : lhs ≠ rhs := fun he => hhead ⟨by rw [he], by rw [he], by rw [he]⟩
    rw [if_pos (by simpa [imp_iff_not_or, or_assoc] using hhead), decide_eq_false hne]
    rfl

/-- An order equals itself unless it has a null item. -/
theorem clash_self {o : Order} : Clash o o ↔ ¬o.Full := by
  rw [full_iff, not_not, ← stumbles_self]
  exact ⟨fun h => h.items, fun h => ⟨rfl, rfl, rfl, h⟩⟩

end Order

/-! ### Messages -/

namespace Message

/-- The fields that `operator==` compares before the orders agree. -/
def HeadAgrees (m₁ m₂ : Message) : Prop :=
  m₁.type = m₂.type ∧ m₁.clientMode = m₂.clientMode ∧ m₁.str = m₂.str

/-- The fields that it compares behind the orders agree. -/
def TailAgrees (m₁ m₂ : Message) : Prop :=
  m₁.orderId = m₂.orderId ∧ m₁.orderStatus = m₂.orderStatus ∧
    m₁.itemId = m₂.itemId ∧ m₁.itemStatus = m₂.itemStatus

/-- All fields agree, and neither message has an order or both have orders that are equal item by
    item. -/
def Same (m₁ m₂ : Message) : Prop :=
  HeadAgrees m₁ m₂ ∧ TailAgrees m₁ m₂ ∧
    (m₁.order = none ∧ m₂.order = none ∨ ∃ o₁ o₂, m₁.order = some o₁ ∧ m₂.order = some o₂ ∧
      o₁.id = o₂.id ∧ o₁.status = o₂.status ∧ o₁.items = o₂.items)

/-- Only the right message has an order; all else agrees. -/
def Overlooks (m₁ m₂ : Message) : Prop :=
  HeadAgrees m₁ m₂ ∧ TailAgrees m₁ m₂ ∧ m₁.order = none ∧ m₂.order ≠ none

/-- The comparison gets to a null item of one of the orders. -/
def MeetsNull (m₁ m₂ : Message) : Prop :=
  HeadAgrees m₁ m₂ ∧ ∃ o₁ o₂, m₁.order = some o₁ ∧ m₂.order = some o₂ ∧ Order.Clash o₁ o₂

theorem same_iff {m₁ m₂ : Message} : Same m₁ m₂ ↔ m₁ = m₂ := by
  constructor
  · rintro ⟨⟨htype, hmode, hstr⟩, ⟨horder, hstatus, hitem, hitemStatus⟩, ho⟩
    have hsame : m₁.order = m₂.order := by
      rcases ho with ⟨h₁, h₂⟩ | ⟨o₁, o₂, h₁, h₂, hid, hst, hits⟩
      · rw [h₁, h₂]
      · rw [h₁, h₂, Option.some.injEq, Order.mk.injEq]
        exact ⟨hid, hst, hits⟩
    rw [Message.mk.injEq]
    exact ⟨htype, hmode, hstr, hsame, horder, hstatus, hitem, hitemStatus⟩
  · rintro rfl
    refine ⟨⟨rfl, rfl, rfl⟩, ⟨rfl, rfl, rfl, rfl⟩, ?_⟩
    cases ho : m₁.order with
    | none => exact Or.inl ⟨rfl, rfl⟩
    | some o => exact Or.inr ⟨o, o, rfl, rfl, rfl, rfl, rfl⟩

theorem Overlooks.not_meetsNull {m₁ m₂ : Message} (h : Overlooks m₁ m₂) : ¬MeetsNull m₁ m₂ := by
  rintro ⟨-, o₁, -, h₁, -⟩
  rw [h.2.2.1] at h₁
  cases h₁

theorem Overlooks.ne {m₁ m₂ : Message} (h : Overlooks m₁ m₂) : m₁ ≠ m₂ := by
  rintro rfl
  exact h.2.2.2 h.2.2.1

theorem eq_of_head {m₁ m₂ : Message} (h : ¬HeadAgrees m₁ m₂) : m₁.eq m₂ = .ok false := by
  have htest : (m₁.type ≠ m₂.type || m₁.clientMode ≠ m₂.clientMode || m₁.str ≠ m₂.str) = true := by
    simpa [HeadAgrees, imp_iff_not_or, or_assoc] using h
  rw [Message.eq, htest]
  rfl

/-- `operator==` after it has compared the orders. -/
theorem eq_of_orders {m₁ m₂ : Message} (hhead : HeadAgrees m₁ m₂) {b : Bool}
    (ho : m₁.orderDiffers m₂ = .ok b) : Tells (m₁.eq m₂) (b = false ∧ TailAgrees m₁ m₂) := by
  obtain ⟨htype, hmode, hstr⟩ := hhead
  rw [Message.eq, if_neg (by simp [htype, hmode, hstr]), ho, ok_bind]
  cases b with
  | true => exact ⟨false, rfl, by simp⟩
  | false =>
    rw [if_neg Bool.false_ne_true]
    by_cases htail : TailAgrees m₁ m₂
    · obtain ⟨horder, hstatus, hitem, hitemStatus⟩ := htail
      refine ⟨true, ?_, by simp [TailAgrees, horder, hstatus, hitem, hitemStatus]⟩
      rw [if_neg (by simp [horder, hstatus, hitem, hitemStatus])]
      rfl
    · have htest : (m₁.orderId ≠ m₂.orderId || m₁.orderStatus ≠ m₂.orderStatus ||
          m₁.itemId ≠ m₂.itemId || m₁.itemStatus ≠ m₂.itemStatus) = true := by
        simpa [TailAgrees, imp_iff_not_or, or_assoc] using htail
      exact ⟨false, by rw [if_pos htest]; rfl, by simp [htail]⟩

theorem eq_undefined {m₁ m₂ : Message} (h : MeetsNull m₁ m₂) : m₁.eq m₂ = .error .undefined := by
  obtain ⟨⟨htype, hmode, hstr⟩, o₁, o₂, h₁, h₂, hclash⟩ := h
  have ho : m₁.orderDiffers m₂ = .error .undefined := by
    rw [orderDiffers, h₁, h₂]
    simp only [Order.eq_undefined hclash]
    rfl
  rw [Message.eq, if_neg (by simp [htype, hmode, hstr]), ho]
  rfl

/-- What `operator==` tells: the messages are the same, or it overlooks the right one's order. -/
theorem eq_defined {m₁ m₂ : Message} (h : ¬MeetsNull m₁ m₂) :
    Tells (m₁.eq m₂) (Same m₁ m₂ ∨ Overlooks m₁ m₂) := by
  by_cases hhead : HeadAgrees m₁ m₂
  case neg =>
    refine ⟨false, eq_of_head hhead, iff_of_false Bool.false_ne_true ?_⟩
    rintro (hs | ho)
    · exact hhead hs.1
    · exact hhead ho.1
  cases h₁ : m₁.order with
  | none =>
    have hdiff : m₁.orderDiffers m₂ = .ok false := by rw [orderDiffers, h₁]; rfl
    refine (eq_of_orders hhead hdiff).congr ?_
    constructor
    · rintro ⟨-, htail⟩
      by_cases h₂ : m₂.order = none
      · exact Or.inl ⟨hhead, htail, Or.inl ⟨h₁, h₂⟩⟩
      · exact Or.inr ⟨hhead, htail, h₁, h₂⟩
    · rintro (hs | ho)
      · exact ⟨rfl, hs.2.1⟩
      · exact ⟨rfl, ho.2.1⟩
  | some o₁ =>
    cases h₂ : m₂.order with
    | none =>
      have hdiff : m₁.orderDiffers m₂ = .ok true := by rw [orderDiffers, h₁, h₂]; rfl
      refine (eq_of_orders hhead hdiff).congr ?_
      constructor
      · rintro ⟨hfalse, -⟩
        cases hfalse
      · rintro (⟨-, -, ⟨hnone, -⟩ | ⟨_, _, -, hsome, -⟩⟩ | ⟨-, -, hnone, -⟩)
        · cases h₁.symm.trans hnone
        · cases h₂.symm.trans hsome
        · cases h₁.symm.trans hnone
    | some o₂ =>
      have hclash : ¬Order.Clash o₁ o₂ := fun hc => h ⟨hhead, o₁, o₂, h₁, h₂, hc⟩
      have hdiff : m₁.orderDiffers m₂ = .ok (!decide (o₁ = o₂)) := by
        rw [orderDiffers, h₁, h₂]
        simp only [Order.eq_defined hclash]
        rfl
      refine (eq_of_orders hhead hdiff).congr ?_
      rw [Bool.not_eq_false', decide_eq_true_eq]
      constructor
      · rintro ⟨rfl, htail⟩
        exact Or.inl ⟨hhead, htail, Or.inr ⟨o₁, o₁, h₁, h₂, rfl, rfl, rfl⟩⟩
      · rintro (hs | ho)
        · have he := congrArg Message.order (same_iff.mp hs)
          rw [h₁, h₂] at he
          exact ⟨Option.some.inj he, hs.2.1⟩
        · cases h₁.symm.trans ho.2.2.1

theorem eq_true_iff {m₁ m₂ : Message} :
    m₁.eq m₂ = .ok true ↔ ¬MeetsNull m₁ m₂ ∧ (m₁ = m₂ ∨ Overlooks m₁ m₂) := by
  by_cases h : MeetsNull m₁ m₂
  · rw [eq_undefined h]
    exact iff_of_false nofun fun hn => hn.1 h
  · obtain ⟨b, hb, hiff⟩ := eq_defined h
    rw [hb, Except.ok.injEq, hiff, same_iff]
    exact ⟨fun hs => ⟨h, hs⟩, fun hs => hs.2⟩

/-- A message meets a null item in comparison with itself exactly if it has one. -/
theorem meetsNull_self {m : Message} : MeetsNull m m ↔ ¬m.Full := by
  constructor
  · rintro ⟨-, o, o', ho, ho', hclash⟩ hfull
    obtain rfl := Option.some.inj (ho.symm.trans ho')
    exact Order.clash_self.mp hclash (hfull o ho)
  · intro h
    rw [Full] at h
    push Not at h
    obtain ⟨o, ho, hnull⟩ := h
    exact ⟨⟨rfl, rfl, rfl⟩, o, o, ho, ho, Order.clash_self.mpr hnull⟩

theorem eq_self {m : Message} : m.eq m = .ok true ↔ m.Full := by
  rw [eq_true_iff, meetsNull_self, not_not]
  exact and_iff_left (Or.inl rfl)

/-- A copy that exists is the message, so it equals the message. -/
theorem copied_iff (m prev : Message) :
    (∃ c, assign prev m = .ok c ∧ m.eq c = .ok true ∧ c.eq m = .ok true) ↔ m.Full := by
  constructor
  · rintro ⟨c, hc, -, -⟩
    by_contra hnull
    cases hc.symm.trans (assign_null hnull)
  · intro hfull
    exact ⟨m, assign_full hfull, eq_self.mpr hfull, eq_self.mpr hfull⟩

/-- DEFECT: `==` tells whether all fields agree, unless only the right message has an order and all
    else agrees, or the comparison meets a null item. It is symmetric but for that first case, always
    transitive, and a message without null items equals its duplicate and its copy by assignment over
    any previous value. -/
theorem sees_every_field_iff (m₁ m₂ : Message) :
    (Tells (m₁.eq m₂) (Same m₁ m₂) ↔ ¬Overlooks m₁ m₂ ∧ ¬MeetsNull m₁ m₂) ∧
    ((m₁.eq m₂ = .ok true → m₂.eq m₁ = .ok true) ↔ ¬Overlooks m₁ m₂) ∧
    (∀ m₃, m₁.eq m₂ = .ok true → m₂.eq m₃ = .ok true → m₁.eq m₃ = .ok true) ∧
    ((∃ c, m₁.duplicate = .ok c ∧ m₁.eq c = .ok true ∧ c.eq m₁ = .ok true) ↔ m₁.Full) ∧
    ∀ prev, (∃ c, assign prev m₁ = .ok c ∧ m₁.eq c = .ok true ∧ c.eq m₁ = .ok true) ↔ m₁.Full := by
  refine ⟨⟨?_, ?_⟩, ⟨?_, ?_⟩, ?_, copied_iff m₁ {}, copied_iff m₁⟩
  · rintro ⟨b, hb, hiff⟩
    have hnull : ¬MeetsNull m₁ m₂ := fun h => by cases hb.symm.trans (eq_undefined h)
    refine ⟨fun h => h.ne (same_iff.mp (hiff.mp ?_)), hnull⟩
    have htrue := eq_true_iff.mpr ⟨hnull, Or.inr h⟩
    exact Except.ok.inj (hb.symm.trans htrue)
  · rintro ⟨hover, hnull⟩
    exact (eq_defined hnull).congr (or_iff_left hover)
  · intro hsymm h
    have htrue := hsymm (eq_true_iff.mpr ⟨h.not_meetsNull, Or.inr h⟩)
    rcases (eq_true_iff.mp htrue).2 with he | h'
    · exact h.ne he.symm
    · exact h.2.2.2 h'.2.2.1
  · intro hover heq
    rcases (eq_true_iff.mp heq).2 with rfl | h
    · exact heq
    · exact absurd h hover
  · intro m₃ h₁ h₂
    rcases (eq_true_iff.mp h₁).2 with rfl | h
    · exact h₂
    rcases (eq_true_iff.mp h₂).2 with rfl | h'
    · exact h₁
    · exact absurd h'.2.2.1 h.2.2.2

/-- A message that forgot its order equals the one that has it, but not the other way round. -/
theorem overlooks_order :
    let m₁ := Message.ofType .orderNew
    let m₂ := Message.ofOrder .orderNew (some ⟨1, .new, [some ⟨1, 7, .new, ascii "Samosa", 2⟩]⟩)
    m₁.eq m₂ = .ok true ∧ m₂.eq m₁ = .ok false ∧ ¬Tells (m₁.eq m₂) (Same m₁ m₂) := by
  intro m₁ m₂
  have heq : m₁.eq m₂ = .ok true := rfl
  refine ⟨heq, rfl, ?_⟩
  rintro ⟨b, hb, hiff⟩
  obtain rfl := Except.ok.inj (heq.symm.trans hb)
  cases congrArg Message.order (same_iff.mp (hiff.mp rfl))

end Message

end Restaurant
