import RestaurantOrder.Wire.Grammar
import Mathlib.Data.List.ReduceOption

/-! What `encode` produces, and that `decode` reads it back.

    `encode` prints a message that has the fields of its type and rejects every other one
    (`exec_encode`, `exec_encode_invalid`). A `Sendable` message is one built by the constructor of
    its type from values that the encoding can carry; its text is of the documented form
    (`Sendable.text`), and by `decode_text` that is the text of one message only.

        m ──encode──▶ messageStr m ──decode──▶ m -/

namespace Restaurant.Wire
open Schemes

/-! ### Texts of orders -/

/-- The text of one item, as a join of its fields. -/
theorem encodeItem_eq (it : Item) : encodeItem it =
    join (byte ':') [toStr it.orderId, toStr it.id, itemStatusToStr it.status, it.desc,
      toStr it.qty] := by
  have hsep : ascii ":" = [byte ':'] := rfl
  simp [encodeItem, join, hsep]

/-- The text of an order with the given items. -/
def orderStr (id : Int32) (status : OrderStatus) (its : List Item) : Bytes :=
  join (byte ',') [toStr id, orderStatusToStr status, join (byte ';') (its.map encodeItem)]

theorem encodeItems_succ (its : List Item) (out : Bytes) (i : ℕ) :
    encodeItems out (i + 1) (its.map some)
      = .ok (out ++ its.flatMap fun it => byte ';' :: encodeItem it) := by
  induction its generalizing out i with
  | nil => simp [encodeItems]
  | cons it its ih =>
    have hsep : ascii ";" = [byte ';'] := rfl
    rw [List.map_cons, encodeItems]
    simp only [Nat.succ_pos, if_true, gt_iff_lt]
    rw [ih]
    simp [hsep]

theorem join_cons_flatMap (c : Byte) (t : Bytes) (ts : List Bytes) :
    join c (t :: ts) = t ++ ts.flatMap (c :: ·) := by
  induction ts generalizing t with
  | nil => simp [join]
  | cons u ts ih =>
    rw [join_cons (List.cons_ne_nil u ts), ih u, List.flatMap_cons]
    rfl

theorem encodeItems_zero {its : List Item} (hne : its ≠ []) (out : Bytes) :
    encodeItems out 0 (its.map some) = .ok (out ++ join (byte ';') (its.map encodeItem)) := by
  obtain ⟨it, its, rfl⟩ := List.exists_cons_of_ne_nil hne
  rw [List.map_cons, encodeItems]
  simp only [gt_iff_lt, Nat.lt_irrefl, if_false]
  rw [encodeItems_succ, List.map_cons, join_cons_flatMap, List.flatMap_map, List.append_assoc]

theorem encodeOrder_full {o : Order} {its : List Item} (hits : o.items = its.map some)
    (hne : its ≠ []) : encodeOrder (some o) = .ok (orderStr o.id o.status its) := by
  have hpos : ¬o.numItems ≤ 0 := by
    simpa [Order.numItems, hits] using hne
  have hsep : ascii "," = [byte ','] := rfl
  rw [encodeOrder, if_neg hpos, hits, encodeItems_zero hne]
  simp [orderStr, join, hsep]

/-- A null item stops the loop. -/
theorem encodeItems_null {ps : List (Option Item)} (h : none ∈ ps) (out : Bytes) (i : ℕ) :
    encodeItems out i ps = invalid "invalid order item payload" := by
  induction ps generalizing out i with
  | nil => exact absurd h List.not_mem_nil
  | cons p ps ih =>
    cases p with
    | none => rfl
    | some it =>
      rw [encodeItems]
      exact ih (by simpa using h) _ (i + 1)

/-- `encode_order` prints an order with items, none of them null, and rejects everything else. -/
theorem encodeOrder_cases (order : Option Order) :
    (∃ o its, order = some o ∧ o.items = its.map some ∧ its ≠ []) ∨
      ∃ what, encodeOrder order = invalid what := by
  cases order with
  | none => exact Or.inr ⟨_, rfl⟩
  | some o =>
    by_cases hpos : o.numItems ≤ 0
    · exact Or.inr ⟨_, by rw [encodeOrder, if_pos hpos]⟩
    rcases Order.full_or_null o.items with ⟨its, hits⟩ | hnull
    · refine Or.inl ⟨o, its, rfl, hits, ?_⟩
      rintro rfl
      simp [Order.numItems, hits] at hpos
    · refine Or.inr ⟨"invalid order item payload", ?_⟩
      rw [encodeOrder, if_neg hpos]
      exact encodeItems_null hnull _ _

/-! ### Texts of messages -/

/-- A type's name and a bar, then the payload. -/
theorem join_head (t : Bytes) {ts : List Bytes} (hne : ts ≠ []) :
    join (byte '|') (t :: ts) = (t ++ ascii "|") ++ join (byte '|') ts := by
  rw [join_cons hne, List.append_assoc]
  rfl

theorem join_one (t : Bytes) : join (byte '|') [t] = t := by
  simp [join]

/-- What a message of a given type must have set for `encode` to print it. -/
def hasFields (m : Message) : Prop :=
  match m.type with
  | .login => m.hasClientMode = true ∧ m.hasStr = true
  | .quit | .ok | .error => m.hasStr = true
  | .orderNew | .dispOrder => ∃ o its, m.order = some o ∧ o.items = its.map some ∧ its ≠ []
  | .itemUpdate | .dispItemUpdate =>
    m.hasOrderId = true ∧ m.hasItemId = true ∧ m.hasItemStatus = true
  | .orderUpdate | .dispOrderUpdate => m.hasOrderId = true ∧ m.hasOrderStatus = true
  | .dispHeartbeat => True
  | .invalid => False

/-- The payload fields that `encode` prints behind the type. -/
def payload (m : Message) : List Bytes :=
  match m.type with
  | .login => [clientModeToStr m.clientMode, m.str]
  | .quit | .ok | .error => [m.str]
  | .orderNew | .dispOrder =>
    match m.order with
    | some o => [orderStr o.id o.status o.items.reduceOption]
    | none => []
  | .itemUpdate | .dispItemUpdate =>
    [toStr m.orderId, toStr m.itemId, itemStatusToStr m.itemStatus]
  | .orderUpdate | .dispOrderUpdate => [toStr m.orderId, orderStatusToStr m.orderStatus]
  | .dispHeartbeat | .invalid => []

/-- The text that `encode` prints. -/
def messageStr (m : Message) : Bytes := join (byte '|') (messageTypeToStr m.type :: payload m)

theorem reduceOption_map_some (its : List Item) : (its.map some).reduceOption = its := by
  induction its with
  | nil => rfl
  | cons it its ih => rw [List.map_cons, List.reduceOption_cons_of_some, ih]

/-- `encode` prints a message that has its fields. -/
theorem exec_encode {m : Message} (h : hasFields m) (r : Bytes) :
    exec (encode m) r = (.ok (), messageStr m) := by
  rw [hasFields] at h
  rw [encode, messageStr, payload]
  cases ht : m.type <;> simp only [ht] at h ⊢
  case login =>
    simp [h, join_head, join_one,
      show ascii "LOGIN|" = messageTypeToStr .login ++ ascii "|" from rfl]
  case quit =>
    simp [h, join_head, join_one, show ascii "QUIT|" = messageTypeToStr .quit ++ ascii "|" from rfl]
  case ok =>
    simp [h, join_head, join_one, show ascii "OK|" = messageTypeToStr .ok ++ ascii "|" from rfl]
  case error =>
    simp [h, join_head, join_one,
      show ascii "ERROR|" = messageTypeToStr .error ++ ascii "|" from rfl]
  case orderNew =>
    obtain ⟨o, its, ho, hits, hne⟩ := h
    simp [ho, hits, encodeOrder_full hits hne, reduceOption_map_some, join_head, join_one,
      show ascii "ORDER_NEW|" = messageTypeToStr .orderNew ++ ascii "|" from rfl]
  case dispOrder =>
    obtain ⟨o, its, ho, hits, hne⟩ := h
    simp [ho, hits, encodeOrder_full hits hne, reduceOption_map_some, join_head, join_one,
      show ascii "DISP_ORDER|" = messageTypeToStr .dispOrder ++ ascii "|" from rfl]
  case itemUpdate =>
    simp [h, join_head, join_one,
      show ascii "ITEM_UPDATE|" = messageTypeToStr .itemUpdate ++ ascii "|" from rfl]
  case dispItemUpdate =>
    simp [h, join_head, join_one,
      show ascii "DISP_ITEM_UPDATE|" = messageTypeToStr .dispItemUpdate ++ ascii "|" from rfl]
  case orderUpdate =>
    simp [h, join_head, join_one,
      show ascii "ORDER_UPDATE|" = messageTypeToStr .orderUpdate ++ ascii "|" from rfl]
  case dispOrderUpdate =>
    simp [h, join_head, join_one,
      show ascii "DISP_ORDER_UPDATE|" = messageTypeToStr .dispOrderUpdate ++ ascii "|" from rfl]
  case dispHeartbeat => rfl

/-- `encode` rejects every other message and leaves its result string as it was. -/
theorem exec_encode_invalid {m : Message} (h : ¬hasFields m) (r : Bytes) :
    ∃ what, exec (encode m) r = (invalid what, r) := by
  rw [hasFields] at h
  rw [encode]
  cases ht : m.type <;> simp only [ht] at h ⊢
  case login =>
    rw [if_pos (by simpa [imp_iff_not_or] using h)]; exact ⟨_, rfl⟩
  case quit => rw [if_pos (by simpa using h)]; exact ⟨_, rfl⟩
  case ok => rw [if_pos (by simpa using h)]; exact ⟨_, rfl⟩
  case error => rw [if_pos (by simpa using h)]; exact ⟨_, rfl⟩
  case orderNew =>
    obtain ⟨what, hw⟩ := (encodeOrder_cases m.order).resolve_left h
    rw [hw]; exact ⟨what, rfl⟩
  case dispOrder =>
    obtain ⟨what, hw⟩ := (encodeOrder_cases m.order).resolve_left h
    rw [hw]; exact ⟨what, rfl⟩
  case itemUpdate =>
    rw [if_pos (by simpa [imp_iff_not_or, or_assoc] using h)]; exact ⟨_, rfl⟩
  case dispItemUpdate =>
    rw [if_pos (by simpa [imp_iff_not_or, or_assoc] using h)]; exact ⟨_, rfl⟩
  case orderUpdate => rw [if_pos (by simpa [imp_iff_not_or] using h)]; exact ⟨_, rfl⟩
  case dispOrderUpdate => rw [if_pos (by simpa [imp_iff_not_or] using h)]; exact ⟨_, rfl⟩
  case dispHeartbeat => exact absurd trivial h
  case invalid => exact ⟨_, rfl⟩

/-! ### Decode undoes encode -/

theorem related_of_mem {α β : Type} {R : α → β → Prop} {as : List α} {bs : List β}
    (h : List.Forall₂ R as bs) {a : α} (ha : a ∈ as) : ∃ b, R a b := by
  induction h with
  | nil => exact absurd ha List.not_mem_nil
  | cons hab _ ih =>
    rcases List.mem_cons.mp ha with rfl | ha
    · exact ⟨_, hab⟩
    · exact ih ha

/-- An item whose fields the encoding can carry. -/
structure Item.Sendable (it : Item) : Prop where
  orderId : 0 < it.orderId
  id : 0 < it.id
  status : it.status ≠ .invalid
  desc : Plain it.desc
  qty : 0 < it.qty

/-- An order whose fields the encoding can carry. -/
structure Order.Sendable (o : Order) : Prop where
  id : 0 < o.id
  status : o.status ≠ .invalid
  items : ∃ its, o.items = its.map some ∧ its ≠ [] ∧ ∀ it ∈ its, Item.Sendable it

theorem Order.Sendable.full {o : Order} (h : Order.Sendable o) : o.Full := by
  obtain ⟨its, hits, -⟩ := h.items
  exact ⟨its, hits⟩

theorem Order.Sendable.of_items {o : Order} {its : List Item} (h : Order.Sendable o)
    (hits : o.items = its.map some) : its ≠ [] ∧ ∀ it ∈ its, Item.Sendable it := by
  obtain ⟨its', hits', hitems⟩ := h.items
  obtain rfl := Order.items_inj hits hits'
  exact hitems

/-- A message built by the constructor of its type from values that the encoding can carry. -/
inductive Sendable : Message → Prop
  | login {mode str} (hm : mode ≠ .invalid) (hne : str ≠ []) (hs : byte '|' ∉ str) :
      Sendable (.ofLogin .login mode str)
  | string {type str} (ht : type = .quit ∨ type = .ok ∨ type = .error) (hne : str ≠ [])
      (hs : byte '|' ∉ str) : Sendable (.ofStr type str)
  | order {type o} (ht : type = .orderNew ∨ type = .dispOrder) (ho : Order.Sendable o) :
      Sendable (.ofOrder type (some o))
  | itemUpdate {type orderId itemId st} (ht : type = .itemUpdate ∨ type = .dispItemUpdate)
      (hk : 0 < orderId) (hi : 0 < itemId) (hst : st ≠ .invalid) :
      Sendable (.ofItemStatus type orderId itemId st)
  | orderUpdate {type orderId st} (ht : type = .orderUpdate ∨ type = .dispOrderUpdate)
      (hk : 0 < orderId) (hst : st ≠ .invalid) : Sendable (.ofOrderStatus type orderId st)
  | heartbeat : Sendable (.ofType .dispHeartbeat)

theorem intText_toStr {n : Int32} (hn : 0 < n) : IntText Digits n (toStr n) :=
  ⟨hn, digits_toStr hn⟩

theorem itemText_encodeItem {it : Item} (h : Item.Sendable it) :
    ItemText Digits it (encodeItem it) :=
  ⟨_, _, _, intText_toStr h.orderId, intText_toStr h.id, h.status, h.desc, intText_toStr h.qty,
    encodeItem_eq it⟩

theorem orderText_orderStr {o : Order} {its : List Item} (hid : 0 < o.id)
    (hst : o.status ≠ .invalid) (hits : o.items = its.map some) (hne : its ≠ [])
    (hall : ∀ it ∈ its, Item.Sendable it) : OrderText Digits o (orderStr o.id o.status its) := by
  refine ⟨_, its, its.map encodeItem, intText_toStr hid, hst, hits, hne, ?_, rfl⟩
  rw [List.forall₂_map_right_iff, List.forall₂_same]
  exact fun it hit => itemText_encodeItem (hall it hit)

theorem zero_le_of_pos {n : Int32} (h : 0 < n) : 0 ≤ n :=
  Int32.le_of_lt h

/-- A sendable message has its fields, and its text is of the documented form. -/
theorem Sendable.text {m : Message} (h : Sendable m) :
    hasFields m ∧ MessageText Digits m (messageStr m) := by
  cases h with
  | @login mode str hm hne hs =>
    have hstr : (!str.isEmpty) = true := by simpa using hne
    exact ⟨⟨decide_eq_true hm, hstr⟩, .login hm hs⟩
  | @string _ str ht hne hs =>
    have hstr : (!str.isEmpty) = true := by simpa using hne
    rcases ht with rfl | rfl | rfl
    · exact ⟨hstr, .string (by simp) hs⟩
    · exact ⟨hstr, .string (by simp) hs⟩
    · exact ⟨hstr, .string (by simp) hs⟩
  | @order _ o ht ho =>
    obtain ⟨its, hits, hne, hall⟩ := ho.items
    have htext := orderText_orderStr ho.id ho.status hits hne hall
    have hred : o.items.reduceOption = its := by rw [hits, reduceOption_map_some]
    rw [← hred] at htext
    rcases ht with rfl | rfl
    · exact ⟨⟨o, its, rfl, hits, hne⟩, .order (by simp) htext⟩
    · exact ⟨⟨o, its, rfl, hits, hne⟩, .order (by simp) htext⟩
  | itemUpdate ht hk hi hst =>
    have hfields := And.intro (decide_eq_true (zero_le_of_pos hk))
      (And.intro (decide_eq_true (zero_le_of_pos hi)) (decide_eq_true hst))
    rcases ht with rfl | rfl
    · exact ⟨hfields, .itemUpdate (by simp) (intText_toStr hk) (intText_toStr hi) hst⟩
    · exact ⟨hfields, .itemUpdate (by simp) (intText_toStr hk) (intText_toStr hi) hst⟩
  | orderUpdate ht hk hst =>
    have hfields := And.intro (decide_eq_true (zero_le_of_pos hk)) (decide_eq_true hst)
    rcases ht with rfl | rfl
    · exact ⟨hfields, .orderUpdate (by simp) (intText_toStr hk) hst⟩
    · exact ⟨hfields, .orderUpdate (by simp) (intText_toStr hk) hst⟩
  | heartbeat => exact ⟨trivial, .heartbeat⟩

theorem ItemText.mono {int int' : Int32 → Bytes → Prop} (hint : ∀ n s, int n s → int' n s)
    {it : Item} {s : Bytes} (h : ItemText int it s) : ItemText int' it s := by
  obtain ⟨k, i, q, hk, hi, hst, hdesc, hq, hs⟩ := h
  exact ⟨k, i, q, ⟨hk.1, hint _ _ hk.2⟩, ⟨hi.1, hint _ _ hi.2⟩, hst, hdesc,
    ⟨hq.1, hint _ _ hq.2⟩, hs⟩

theorem OrderText.mono {int int' : Int32 → Bytes → Prop} (hint : ∀ n s, int n s → int' n s)
    {o : Order} {s : Bytes} (h : OrderText int o s) : OrderText int' o s := by
  obtain ⟨k, its, ts, hk, hst, hits, hne, hall, hs⟩ := h
  exact ⟨k, its, ts, ⟨hk.1, hint _ _ hk.2⟩, hst, hits, hne,
    hall.imp fun _ _ h => h.mono hint, hs⟩

/-- A text in a stricter spelling is one in a laxer spelling. -/
theorem MessageText.mono {int int' : Int32 → Bytes → Prop} (hint : ∀ n s, int n s → int' n s)
    {m : Message} {s : Bytes} (h : MessageText int m s) : MessageText int' m s := by
  cases h with
  | login hm hs => exact .login hm hs
  | string ht hs => exact .string ht hs
  | order ht ho => exact .order ht (ho.mono hint)
  | itemUpdate ht hk hi hs => exact .itemUpdate ht ⟨hk.1, hint _ _ hk.2⟩ ⟨hi.1, hint _ _ hi.2⟩ hs
  | orderUpdate ht hk hs => exact .orderUpdate ht ⟨hk.1, hint _ _ hk.2⟩ hs
  | heartbeat => exact .heartbeat

/-- An order that is read from a text is one that can be sent. -/
theorem OrderText.sendable {int : Int32 → Bytes → Prop} {o : Order} {s : Bytes}
    (h : OrderText int o s) : Order.Sendable o := by
  obtain ⟨_, its, ts, hid, hst, hits, hne, hall, -⟩ := h
  refine ⟨hid.1, hst, its, hits, hne, fun it hit => ?_⟩
  obtain ⟨_, _, _, _, hk, hi, hst, hdesc, hq, -⟩ := related_of_mem hall hit
  exact ⟨hk.1, hi.1, hst, hdesc, hq.1⟩

/-- An order that `decode` produced from an ORDER_NEW. -/
def Decoded (o : Order) : Prop :=
  ∃ s m₀ m, exec (decode s) m₀ = (.ok (), m) ∧ m.type = .orderNew ∧ m.order = some o

theorem Decoded.sendable {o : Order} (h : Decoded o) : Order.Sendable o := by
  obtain ⟨s, m₀, m, hrun, htype, ho⟩ := h
  cases text_of_decode hrun with
  | order ht horder =>
    obtain rfl := Option.some.inj ho
    exact horder.sendable
  | login => cases ho
  | string => cases ho
  | itemUpdate => cases ho
  | orderUpdate => cases ho
  | heartbeat => cases ho

theorem decode_messageStr {m : Message} (h : Sendable m) (m₀ : Message) :
    exec (decode (messageStr m)) m₀ = (.ok (), m) :=
  decode_text (h.text.2.mono fun _ _ => Digits.spelled) m₀

/-- CORRECT: `decode` undoes `encode`, whatever the result string and the message held before. -/
theorem decode_encode {m : Message} (h : Sendable m) :
    ∃ s, (∀ r, exec (encode m) r = (.ok (), s)) ∧ ∀ m₀, exec (decode s) m₀ = (.ok (), m) :=
  ⟨messageStr m, exec_encode h.text.1, decode_messageStr h⟩

/-- An order of two items, one of another order and without a description, and the largest id. -/
theorem decode_encode_order :
    let its := [⟨121, 45, .new, ascii "Dal Makhani", 1⟩, ⟨7, 2147483647, .done, [], 2⟩]
    let m := Message.ofOrder .orderNew (some ⟨121, .new, its.map some⟩)
    ∃ s, (∀ r, exec (encode m) r = (.ok (), s)) ∧ ∀ m₀, exec (decode s) m₀ = (.ok (), m) := by
  refine decode_encode (.order (Or.inl rfl) ⟨by decide, by decide, _, rfl, by decide, ?_⟩)
  simp only [List.mem_cons, List.not_mem_nil, or_false, forall_eq_or_imp, forall_eq]
  exact ⟨⟨by decide, by decide, by decide, by decide, by decide⟩,
    ⟨by decide, by decide, by decide, by decide, by decide⟩⟩

end Restaurant.Wire
