import RestaurantOrder.Wire.RoundTrip

/-! How `encode` and `decode` end: with all of their result or with an InvalidMessage and nothing.

    `Filled m fields` says of a message read from a text with these fields that everything its type
    calls for is set and valid, and that the rest has the values of `Message()`. A string is the text
    of its field as it stands, and may be empty.

        decode s   ──▶ msg filled from the fields of s    or InvalidMessage, msg as it was
        encode msg ──▶ result_str printed                 or InvalidMessage, result_str as it was

    CORRECT: `all_or_nothing`, for every string and every message. -/

namespace Restaurant.Wire
open Schemes

/-- An id or a quantity. -/
def Positive (n : Int32) : Prop := 1 ≤ n.toInt ∧ n.toInt ≤ 2 ^ 31 - 1

structure Item.Filled (it : Item) : Prop where
  orderId : Positive it.orderId
  id : Positive it.id
  status : it.status ≠ .invalid
  qty : Positive it.qty

/-- The texts of the items in the text of an order. -/
def itemTexts (s : Bytes) : List Bytes :=
  ((s.splitOn (byte ',')).getD 2 []).splitOn (byte ';')

/-- An order read from the text `s`. -/
structure Order.Filled (o : Order) (s : Bytes) : Prop where
  id : Positive o.id
  status : o.status ≠ .invalid
  items : ∃ its, o.items = its.map some ∧ its ≠ [] ∧ (∀ it ∈ its, Item.Filled it) ∧
    List.Forall₂ (fun it t => (t.splitOn (byte ':'))[3]? = some it.desc) its (itemTexts s)

/-- A message read from a text with the given fields; a constructor leaves the fields that its type
    does not call for at their defaults. -/
def Filled (m : Message) (fields : List Bytes) : Prop :=
  match m.type with
  | .login => m.clientMode ≠ .invalid ∧ fields[2]? = some m.str ∧
      m = .ofLogin m.type m.clientMode m.str
  | .quit | .ok | .error => fields[1]? = some m.str ∧ m = .ofStr m.type m.str
  | .orderNew | .dispOrder => ∃ o s, Order.Filled o s ∧ fields[1]? = some s ∧
      m = .ofOrder m.type (some o)
  | .itemUpdate | .dispItemUpdate => Positive m.orderId ∧ Positive m.itemId ∧
      m.itemStatus ≠ .invalid ∧ m = .ofItemStatus m.type m.orderId m.itemId m.itemStatus
  | .orderUpdate | .dispOrderUpdate => Positive m.orderId ∧ m.orderStatus ≠ .invalid ∧
      m = .ofOrderStatus m.type m.orderId m.orderStatus
  | .dispHeartbeat => m = .ofType m.type
  | .invalid => False

/-! ### What was read is filled -/

theorem IntText.positive {n : Int32} {s : Bytes} (h : IntText Spelled n s) : Positive n := by
  have hpos := Int32.lt_iff_toInt_lt.mp h.1
  have hmax := n.toInt_lt
  rw [Int32.toInt_zero] at hpos
  exact ⟨by omega, by omega⟩

theorem ItemText.filled {it : Item} {s : Bytes} (h : ItemText Spelled it s) :
    Item.Filled it ∧ (s.splitOn (byte ':'))[3]? = some it.desc := by
  obtain ⟨k, i, q, hk, hi, hst, hdesc, hq, rfl⟩ := h
  refine ⟨⟨hk.positive, hi.positive, hst, hq.positive⟩, ?_⟩
  rw [splitOn_itemText hk.2 hi.2 hdesc hq.2]
  rfl

theorem OrderText.filled {o : Order} {s : Bytes} (h : OrderText Spelled o s) : Order.Filled o s := by
  obtain ⟨k, its, ts, hk, hst, hits, hne, hall, rfl⟩ := h
  have htexts : itemTexts (join (byte ',') [k, orderStatusToStr o.status, join (byte ';') ts])
      = ts := by
    rw [itemTexts, splitOn_orderText o.status hk.2 hall]
    exact splitOn_itemTexts hne hall
  refine ⟨hk.positive, hst, its, hits, hne, fun it hit => ?_, ?_⟩
  · obtain ⟨t, ht⟩ := related_of_mem hall hit
    exact ht.filled.1
  · rw [htexts]
    exact hall.imp fun it t ht => ht.filled.2

theorem MessageText.filled {m : Message} {s : Bytes} (h : MessageText Spelled m s) :
    Filled m (s.splitOn (byte '|')) := by
  cases h with
  | login hm hs =>
    rw [splitOn_text _ (bar_login _ hs)]
    exact ⟨hm, rfl, rfl⟩
  | string ht hs =>
    rw [splitOn_text _ (by simpa using hs)]
    rcases ht with rfl | rfl | rfl <;> exact ⟨rfl, rfl⟩
  | order ht ho =>
    rw [splitOn_text _ (by simpa using ho.not_mem)]
    rcases ht with rfl | rfl <;> exact ⟨_, _, ho.filled, rfl, rfl⟩
  | itemUpdate ht hk hi hst =>
    rcases ht with rfl | rfl <;> exact ⟨hk.positive, hi.positive, hst, rfl⟩
  | orderUpdate ht hk hst =>
    rcases ht with rfl | rfl <;> exact ⟨hk.positive, hst, rfl⟩
  | heartbeat => exact rfl

/-! ### The two ends -/

theorem encode_ends (m : Message) :
    (∃ s, ∀ r, exec (encode m) r = (.ok (), s)) ∨
      ∀ r, ∃ what, exec (encode m) r = (raise (.invalidMessage what), r) := by
  by_cases h : hasFields m
  · exact Or.inl ⟨messageStr m, exec_encode h⟩
  · refine Or.inr fun r => ?_
    obtain ⟨what, hw⟩ := exec_encode_invalid h r
    exact ⟨ascii what, hw⟩

/-- CORRECT: `decode` and `encode` are all-or-nothing. Whatever the string and the message held before,
    `decode` fills the message from the fields of the string, or throws InvalidMessage and leaves it
    as it was; whatever the message, `encode` prints one text, or throws InvalidMessage and leaves the
    result string as it was. Nothing else is thrown, and nothing is undefined. -/
theorem all_or_nothing :
    (∀ s m₀, (∃ m, exec (decode s) m₀ = (.ok (), m) ∧ Filled m (s.splitOn (byte '|'))) ∨
      ∃ what, exec (decode s) m₀ = (raise (.invalidMessage what), m₀)) ∧
    ∀ m, (∃ s, ∀ r, exec (encode m) r = (.ok (), s)) ∨
      ∀ r, ∃ what, exec (encode m) r = (raise (.invalidMessage what), r) := by
  refine ⟨fun s m₀ => ?_, encode_ends⟩
  rcases decode_cases s m₀ with ⟨m, hrun, htext⟩ | hrejected
  · exact Or.inl ⟨m, hrun, htext.filled⟩
  · exact Or.inr hrejected

end Restaurant.Wire
