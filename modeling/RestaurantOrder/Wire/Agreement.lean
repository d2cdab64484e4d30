import RestaurantOrder.Wire.RoundTrip

/-! Where the checks of `encode`, of `decode` and of the documented grammar agree.

    `encode` checks less than `decode`: an id of zero, and any id, quantity or status inside an order,
    goes out as it is. `decode` checks less than the grammar: `stoi` skips blanks and a plus sign
    before a number.

        encode   has_order_id: 0 ≤ id          decode   parse_positive_int: 0 < id
        grammar  digits                        decode   blanks, a plus sign, digits -/

namespace Restaurant.Wire
open Schemes

/-! ### Reading printed numbers -/

theorem toStr_cases (n : Int32) :
    (0 ≤ n.toInt ∧ toStr n = decimal n.toInt.natAbs) ∨
      (n.toInt < 0 ∧ toStr n = byte '-' :: decimal n.toInt.natAbs) := by
  by_cases h : n.toInt < 0
  · exact Or.inr ⟨h, if_pos h⟩
  · exact Or.inl ⟨by omega, if_neg h⟩

/-- A printed number has no separators. -/
theorem plain_toStr (n : Int32) : Plain (toStr n) := by
  have hdec : Plain (decimal n.toInt.natAbs) := fun b hb => isDigit_not_isSep (isDigit_decimal b hb)
  rcases toStr_cases n with ⟨-, h⟩ | ⟨-, h⟩ <;> rw [h]
  · exact hdec
  · intro b hb
    rcases List.mem_cons.mp hb with rfl | hb
    · rfl
    · exact hdec b hb

/-- A printed number is spelled as a positive number only if it is that number. -/
theorem eq_of_spelled_toStr {n k : Int32} (hn : 0 < n) (h : Spelled n (toStr k)) : k = n := by
  have hpos : 0 < n.toInt := by
    have := Int32.lt_iff_toInt_lt.mp hn
    rwa [Int32.toInt_zero] at this
  have hdigit : ∀ b ∈ decimal k.toInt.natAbs, isDigit b = true := isDigit_decimal
  obtain ⟨blanks, plus, digits, hs, hb, hp, -, hd, hv⟩ := h
  -- the text starts with a digit or a minus, so nothing stands before the digits
  have hbare : blanks = [] ∧ plus = [] := by
    have hhead : ∀ b r, toStr k = b :: r → isSpace b = false ∧ b ≠ byte '+' := by
      intro b r hbr
      rcases toStr_cases k with ⟨-, h⟩ | ⟨-, h⟩ <;> rw [h] at hbr
      · have hb := hdigit b (by rw [hbr]; exact List.mem_cons_self)
        refine ⟨isDigit_not_isSpace hb, ?_⟩
        rintro rfl
        revert hb; decide
      · obtain ⟨rfl, -⟩ := List.cons.inj hbr
        decide
    cases blanks with
    | cons b r =>
      have := (hhead b _ hs).1
      rw [hb b List.mem_cons_self] at this
      cases this
    | nil =>
      refine ⟨rfl, ?_⟩
      rcases hp with rfl | rfl
      · rfl
      · exact absurd rfl (hhead _ _ hs).2
  obtain ⟨rfl, rfl⟩ := hbare
  rw [List.nil_append, List.nil_append] at hs
  rcases toStr_cases k with ⟨hk, h⟩ | ⟨-, h⟩
  · rw [← hs, h, value_decimal] at hv
    exact Int32.toInt_inj.mp (by omega)
  · have := hd (byte '-') (by rw [← hs, h]; exact List.mem_cons_self)
    exact absurd this (by decide)

theorem pos_of_intText_toStr {n k : Int32} (h : IntText Spelled n (toStr k)) : 0 < k := by
  rw [eq_of_spelled_toStr h.1 h.2]; exact h.1

/-- Tokens without the separator can be read off their join. -/
theorem join_inj {c : Byte} {ts us : List Bytes} (hts : ts ≠ []) (hus : us ≠ [])
    (ht : ∀ t ∈ ts, c ∉ t) (hu : ∀ u ∈ us, c ∉ u) (h : join c ts = join c us) : ts = us := by
  rw [← splitOn_eq_iff.mpr ⟨hts, ht, rfl⟩, h, splitOn_eq_iff.mpr ⟨hus, hu, rfl⟩]

/-! ### What `encode` leaves unchecked -/

/-- The numbers and statuses of an item are such that `decode` accepts them. -/
structure Item.Proper (it : Item) : Prop where
  orderId : 0 < it.orderId
  id : 0 < it.id
  status : it.status ≠ .invalid
  qty : 0 < it.qty

/-- The numbers that `encode` prints are positive, and the statuses inside an order are set. -/
def Proper (m : Message) : Prop :=
  match m.type with
  | .orderNew | .dispOrder => ∀ o ∈ m.order,
      0 < o.id ∧ o.status ≠ .invalid ∧ ∀ it, some it ∈ o.items → Item.Proper it
  | .itemUpdate | .dispItemUpdate => 0 < m.orderId ∧ 0 < m.itemId
  | .orderUpdate | .dispOrderUpdate => 0 < m.orderId
  | _ => True

/-- The string and the item descriptions of a message contain no separators. -/
def Separated (m : Message) : Prop :=
  Plain m.str ∧ ∀ o ∈ m.order, ∀ it, some it ∈ o.items → Plain it.desc

/-- `encode` rejects the message, or prints a text that `decode` accepts. -/
def SafelyEncoded (m : Message) : Prop :=
  ∀ r, Ensures (encode m) r (fun _ s => ∃ m', ∀ m₀, exec (decode s) m₀ = (.ok (), m'))
    (fun e s => IsInvalid e ∧ s = r)

theorem Item.Proper.text {it : Item} (h : Item.Proper it) (hdesc : Plain it.desc) :
    ItemText Spelled it (encodeItem it) :=
  (itemText_encodeItem ⟨h.orderId, h.id, h.status, hdesc, h.qty⟩).mono fun _ _ => Digits.spelled

theorem itemFields_plain {it : Item} (h : Plain it.desc) :
    ∀ t ∈ [toStr it.orderId, toStr it.id, itemStatusToStr it.status, it.desc, toStr it.qty],
      Plain t := by
  simp only [List.mem_cons, List.not_mem_nil, or_false, forall_eq_or_imp, forall_eq]
  exact ⟨plain_toStr _, plain_toStr _, plain_itemStatus _, h, plain_toStr _⟩

/-- An item whose text is read, as whatever item, is proper. -/
theorem proper_of_itemText {it it' : Item} (hdesc : Plain it.desc)
    (h : ItemText Spelled it' (encodeItem it)) : Item.Proper it := by
  obtain ⟨k, i, q, hk, hi, hst, hd, hq, hs⟩ := h
  rw [encodeItem_eq] at hs
  have hfields := join_inj (List.cons_ne_nil _ _) (List.cons_ne_nil _ _)
    (fun t ht => (itemFields_plain hdesc t ht).not_mem rfl) (by
      simp only [List.mem_cons, List.not_mem_nil, or_false, forall_eq_or_imp, forall_eq]
      exact ⟨(plain_spelled hk.2).not_mem rfl, (plain_spelled hi.2).not_mem rfl,
        (plain_itemStatus _).not_mem rfl, hd.not_mem rfl, (plain_spelled hq.2).not_mem rfl⟩) hs
  simp only [List.cons.injEq, and_true] at hfields
  obtain ⟨rfl, rfl, hname, -, rfl⟩ := hfields
  have hstatus : it.status = it'.status := itemStatusNames.print_injective hname
  exact ⟨pos_of_intText_toStr hk, pos_of_intText_toStr hi, hstatus ▸ hst, pos_of_intText_toStr hq⟩

theorem encodeItem_not_mem {it : Item} (hdesc : Plain it.desc) {c : Byte} (hc : isSep c = true)
    (hne : c ≠ byte ':') : c ∉ encodeItem it := by
  rw [encodeItem_eq]
  exact not_mem_join hne fun t ht => (itemFields_plain hdesc t ht).not_mem hc

/-- An order whose text is read, as whatever order, is proper. -/
theorem proper_of_orderText {id : Int32} {status : OrderStatus} {its : List Item} {o' : Order}
    (hne : its ≠ []) (hdesc : ∀ it ∈ its, Plain it.desc)
    (h : OrderText Spelled o' (orderStr id status its)) :
    0 < id ∧ status ≠ .invalid ∧ ∀ it ∈ its, Item.Proper it := by
  obtain ⟨k, its', ts, hk, hst, -, hne', hall, hs⟩ := h
  have hts : ts ≠ [] := by
    rintro rfl
    exact hne' (List.forall₂_nil_right_iff.mp hall)
  have hitem : ∀ c, isSep c = true → c ≠ byte ':' → ∀ t ∈ its.map encodeItem, c ∉ t := by
    intro c hc hcolon t ht
    obtain ⟨it, hit, rfl⟩ := List.mem_map.mp ht
    exact encodeItem_not_mem (hdesc it hit) hc hcolon
  have hfields := join_inj (List.cons_ne_nil _ _) (List.cons_ne_nil _ _) (by
      simp only [List.mem_cons, List.not_mem_nil, or_false, forall_eq_or_imp, forall_eq]
      exact ⟨(plain_toStr _).not_mem rfl, (plain_orderStatus _).not_mem rfl,
        not_mem_join (by decide) (hitem _ rfl (by decide))⟩) (by
      simp only [List.mem_cons, List.not_mem_nil, or_false, forall_eq_or_imp, forall_eq]
      exact ⟨(plain_spelled hk.2).not_mem rfl, (plain_orderStatus _).not_mem rfl,
        not_mem_join (by decide) (forall₂_not_mem hall rfl (by decide))⟩) hs
  simp only [List.cons.injEq, and_true] at hfields
  obtain ⟨rfl, hname, hbody⟩ := hfields
  have hstatus : status = o'.status := orderStatusNames.print_injective hname
  have hmap := join_inj (by simpa using hne) hts (hitem _ rfl (by decide))
    (forall₂_not_mem hall rfl (by decide)) hbody
  rw [← hmap, List.forall₂_map_right_iff] at hall
  refine ⟨pos_of_intText_toStr hk, hstatus ▸ hst, fun it hit => ?_⟩
  obtain ⟨it', htext⟩ := related_of_mem hall.flip hit
  exact proper_of_itemText (hdesc it hit) htext

theorem plain_bar {s : Bytes} (h : Plain s) : byte '|' ∉ s := h.not_mem rfl

theorem parsePositiveInt_toStr {k : Int32} {f : Bytes} (hk : ¬0 < k) :
    ∃ what, parsePositiveInt (toStr k) f = raise (.invalidMessage what) :=
  parsePositiveInt_error fun ⟨_, hn, hs⟩ => hk (pos_of_intText_toStr ⟨hn, hs⟩)

/-- A proper message that has its fields prints as the text of some message. -/
theorem Proper.text {m : Message} (hsep : Separated m) (hf : hasFields m) (hp : Proper m) :
    ∃ m', MessageText Spelled m' (messageStr m) := by
  have hint : ∀ {k}, 0 < k → IntText Spelled k (toStr k) := fun hk => ⟨hk, (digits_toStr hk).spelled⟩
  rw [hasFields] at hf
  rw [Proper] at hp
  rw [messageStr, payload]
  have hstr := plain_bar hsep.1
  have horder : ∀ {o its}, m.order = some o → o.items = its.map some → its ≠ [] →
      (∀ o ∈ m.order, 0 < o.id ∧ o.status ≠ .invalid ∧ ∀ it, some it ∈ o.items → Item.Proper it) →
      OrderText Spelled o (orderStr o.id o.status its) := by
    intro o its ho hits hne hp
    obtain ⟨hid, hst, hall⟩ := hp o ho
    have hmem : ∀ it ∈ its, some it ∈ o.items := by simp [hits]
    refine (orderText_orderStr hid hst hits hne fun it hit => ?_).mono fun _ _ => Digits.spelled
    have h := hall it (hmem it hit)
    exact ⟨h.orderId, h.id, h.status, hsep.2 o ho it (hmem it hit), h.qty⟩
  cases ht : m.type <;> simp only [ht] at hf hp ⊢
  case login => exact ⟨_, .login (by simpa [Message.hasClientMode] using hf.1) hstr⟩
  case quit => exact ⟨_, .string (by simp) hstr⟩
  case ok => exact ⟨_, .string (by simp) hstr⟩
  case error => exact ⟨_, .string (by simp) hstr⟩
  case orderNew =>
    obtain ⟨o, its, ho, hits, hne⟩ := hf
    simp only [ho, hits, reduceOption_map_some]
    exact ⟨_, .order (by simp) (horder ho hits hne hp)⟩
  case dispOrder =>
    obtain ⟨o, its, ho, hits, hne⟩ := hf
    simp only [ho, hits, reduceOption_map_some]
    exact ⟨_, .order (by simp) (horder ho hits hne hp)⟩
  case itemUpdate =>
    exact ⟨_, .itemUpdate (by simp) (hint hp.1) (hint hp.2)
      (by simpa [Message.hasItemStatus] using hf.2.2)⟩
  case dispItemUpdate =>
    exact ⟨_, .itemUpdate (by simp) (hint hp.1) (hint hp.2)
      (by simpa [Message.hasItemStatus] using hf.2.2)⟩
  case orderUpdate =>
    exact ⟨_, .orderUpdate (by simp) (hint hp) (by simpa [Message.hasOrderStatus] using hf.2)⟩
  case dispOrderUpdate =>
    exact ⟨_, .orderUpdate (by simp) (hint hp) (by simpa [Message.hasOrderStatus] using hf.2)⟩
  case dispHeartbeat => exact ⟨_, .heartbeat⟩

theorem decodeItemUpdate_pos {type : MessageType} {t st : Bytes} {k i : Int32} {m₀ m' : Message}
    (h : exec (decodeItemUpdate type [t, toStr k, toStr i, st]) m₀ = (.ok (), m')) :
    0 < k ∧ 0 < i := by
  rw [decodeItemUpdate] at h
  simp only [List.length_cons, List.length_nil, ne_eq, not_true_eq_false, if_false, nth,
    List.getElem?_cons_zero, List.getElem?_cons_succ, lift_ok_bind] at h
  by_cases hk : 0 < k
  case neg =>
    obtain ⟨what, hw⟩ := parsePositiveInt_toStr (f := ascii "order id") hk
    rw [hw] at h; cases h
  by_cases hi : 0 < i
  case neg =>
    obtain ⟨what, hw⟩ := parsePositiveInt_toStr (f := ascii "item id") hi
    rw [exec_bind, exec_lift, parsePositiveInt_iff.mpr ⟨hk, (digits_toStr hk).spelled⟩, hw] at h
    cases h
  exact ⟨hk, hi⟩

theorem decodeOrderUpdate_pos {type : MessageType} {t st : Bytes} {k : Int32} {m₀ m' : Message}
    (h : exec (decodeOrderUpdate type [t, toStr k, st]) m₀ = (.ok (), m')) : 0 < k := by
  rw [decodeOrderUpdate] at h
  simp only [List.length_cons, List.length_nil, ne_eq, not_true_eq_false, if_false, nth,
    List.getElem?_cons_zero, List.getElem?_cons_succ, lift_ok_bind] at h
  by_contra hk
  obtain ⟨what, hw⟩ := parsePositiveInt_toStr (f := ascii "order id") hk
  rw [hw] at h; cases h

theorem decodeOrderMsg_text {type : MessageType} {t s : Bytes} {m₀ m' : Message}
    (hs : byte '|' ∉ s) (h : exec (decodeOrderMsg type [t, s]) m₀ = (.ok (), m')) :
    ∃ o', OrderText Spelled o' s := by
  rw [decodeOrderMsg] at h
  simp only [List.length_cons, List.length_nil, ne_eq, not_true_eq_false, if_false, nth,
    List.getElem?_cons_zero, List.getElem?_cons_succ, lift_ok_bind] at h
  have hends := decodeOrder_ends hs
  rcases hd : decodeOrder s with e | o'
  · rw [hd, exec_bind, exec_lift] at h; cases h
  · rw [hd] at hends; exact ⟨o', hends⟩

/-- The text of an order has no bar in it. -/
theorem orderStr_not_mem {id : Int32} {status : OrderStatus} {its : List Item}
    (hdesc : ∀ it ∈ its, Plain it.desc) : byte '|' ∉ orderStr id status its := by
  refine not_mem_join (by decide) ?_
  simp only [List.mem_cons, List.not_mem_nil, or_false, forall_eq_or_imp, forall_eq]
  refine ⟨plain_bar (plain_toStr _), plain_bar (plain_orderStatus _), not_mem_join (by decide) ?_⟩
  intro t ht
  obtain ⟨it, hit, rfl⟩ := List.mem_map.mp ht
  exact encodeItem_not_mem (hdesc it hit) rfl (by decide)

/-- The payload fields of a message with separator-free texts have no bar in them. -/
theorem payload_not_mem {m : Message} (hsep : Separated m) : ∀ t ∈ payload m, byte '|' ∉ t := by
  have hstr := plain_bar hsep.1
  rw [payload]
  cases m.type
  case orderNew | dispOrder =>
    cases ho : m.order with
    | none => simp
    | some o =>
      simp only [List.mem_cons, List.not_mem_nil, or_false, forall_eq]
      refine orderStr_not_mem fun it hit => hsep.2 o ho it ?_
      simpa [List.reduceOption, List.mem_filterMap] using hit
  all_goals
    simp only [List.mem_cons, List.not_mem_nil, or_false, forall_eq_or_imp, forall_eq, false_imp_iff,
      implies_true, hstr, plain_bar (plain_clientMode _), plain_bar (plain_toStr _),
      plain_bar (plain_itemStatus _), plain_bar (plain_orderStatus _), not_false_eq_true, and_self]

/-- A message whose text is accepted is proper. -/
theorem proper_of_decode {m m₀ m' : Message} (hsep : Separated m) (hf : hasFields m)
    (h : exec (decode (messageStr m)) m₀ = (.ok (), m')) : Proper m := by
  have ht : m.type ≠ .invalid := fun ht => by rw [hasFields, ht] at hf; exact hf
  rw [messageStr, exec_decode ht (payload_not_mem hsep)] at h
  rw [hasFields] at hf
  rw [payload] at h
  have horder : ∀ {type o its}, m.order = some o → o.items = its.map some → its ≠ [] →
      exec (decodeOrderMsg type [messageTypeToStr type, orderStr o.id o.status its]) m₀
        = (.ok (), m') →
      ∀ o ∈ m.order, 0 < o.id ∧ o.status ≠ .invalid ∧ ∀ it, some it ∈ o.items → Item.Proper it := by
    intro type o its ho hits hne h o₁ ho₁
    obtain rfl : o = o₁ := Option.some.inj (ho.symm.trans ho₁)
    have hdesc : ∀ it ∈ its, Plain it.desc := fun it hit => hsep.2 o ho it (by simp [hits, hit])
    obtain ⟨o', htext⟩ := decodeOrderMsg_text (orderStr_not_mem hdesc) h
    obtain ⟨hid, hst, hall⟩ := proper_of_orderText hne hdesc htext
    refine ⟨hid, hst, fun it hit => hall it ?_⟩
    simpa [hits] using hit
  rw [Proper]
  cases htype : m.type <;> simp only [htype] at hf h ⊢
  case orderNew =>
    obtain ⟨o, its, ho, hits, hne⟩ := hf
    simp only [ho, hits, reduceOption_map_some] at h
    exact horder ho hits hne h
  case dispOrder =>
    obtain ⟨o, its, ho, hits, hne⟩ := hf
    simp only [ho, hits, reduceOption_map_some] at h
    exact horder ho hits hne h
  case itemUpdate => exact decodeItemUpdate_pos h
  case dispItemUpdate => exact decodeItemUpdate_pos h
  case orderUpdate => exact decodeOrderUpdate_pos h
  case dispOrderUpdate => exact decodeOrderUpdate_pos h

/-- CORRECT: on messages with separator-free texts, `encode` rejects what `decode` rejects exactly
    if the numbers and statuses it does not check are proper. -/
theorem safelyEncoded_iff {m : Message} (hsep : Separated m) :
    SafelyEncoded m ↔ (hasFields m → Proper m) := by
  constructor
  · intro h hf
    have hr := h []
    rw [Ensures, exec_encode hf] at hr
    obtain ⟨m', hm'⟩ := hr
    exact proper_of_decode hsep hf (hm' {})
  · intro h r
    by_cases hf : hasFields m
    · obtain ⟨m', hm'⟩ := Proper.text hsep hf (h hf)
      rw [Ensures, exec_encode hf]
      exact ⟨m', decode_text hm'⟩
    · obtain ⟨what, hw⟩ := exec_encode_invalid hf r
      rw [Ensures, hw]
      exact ⟨⟨_, rfl⟩, rfl⟩

/-- An item update of item 1 of an order 0 that does not exist. -/
theorem safelyEncoded_iff_update : Separated (.ofItemStatus .itemUpdate 0 1 .new) ∧
    (SafelyEncoded (.ofItemStatus .itemUpdate 0 1 .new) ↔
      (hasFields (.ofItemStatus .itemUpdate 0 1 .new) →
        Proper (.ofItemStatus .itemUpdate 0 1 .new))) := by
  have hsep : Separated (.ofItemStatus .itemUpdate 0 1 .new) := ⟨by decide, nofun⟩
  exact ⟨hsep, safelyEncoded_iff hsep⟩

/-- The order id 0 goes out and is refused when it arrives. -/
theorem not_safelyEncoded_update : Separated (.ofItemStatus .itemUpdate 0 1 .new) ∧
    ¬SafelyEncoded (.ofItemStatus .itemUpdate 0 1 .new) := by
  refine ⟨⟨by decide, nofun⟩, fun h => ?_⟩
  have hf : hasFields (.ofItemStatus .itemUpdate 0 1 .new) := ⟨by decide, by decide, by decide⟩
  have hr := h []
  rw [Ensures, exec_encode hf] at hr
  obtain ⟨m', hm'⟩ := hr
  have hbad : (exec (decode (messageStr (.ofItemStatus .itemUpdate 0 1 .new))) {}).1 ≠ .ok () := by
    decide +kernel
  exact hbad (by rw [hm' {}])

/-! ### What `decode` accepts beyond the grammar -/

/-- The text is of the documented form. -/
def Documented (s : Bytes) : Prop := ∃ m, MessageText Digits m s

/-- `decode` returns on documented texts only, and throws InvalidMessage on undocumented ones only. -/
def AcceptsDocumented (s : Bytes) : Prop :=
  ∀ m₀, Ensures (decode s) m₀ (fun _ _ => Documented s) (fun e _ => IsInvalid e ∧ ¬Documented s)

/-- The text starts with neither a blank nor a plus sign. -/
def Bare (s : Bytes) : Prop := ∀ b ∈ s.head?, isSpace b = false ∧ b ≠ byte '+'

theorem digits_iff {n : Int32} {s : Bytes} : Digits n s ↔ Spelled n s ∧ Bare s := by
  constructor
  · refine fun h => ⟨h.spelled, fun b hb => ?_⟩
    have hd := h.2.1 b (List.mem_of_mem_head? hb)
    refine ⟨isDigit_not_isSpace hd, ?_⟩
    rintro rfl
    revert hd; decide
  · rintro ⟨⟨blanks, plus, digits, rfl, hb, hp, hd⟩, hbare⟩
    cases blanks with
    | cons b r =>
      have := (hbare b rfl).1
      rw [hb b List.mem_cons_self] at this
      cases this
    | nil =>
      rcases hp with rfl | rfl
      · exact hd
      · exact absurd rfl (hbare _ rfl).2

/-- CORRECT: `decode` accepts exactly the documented texts where a text of the documented form, up to
    how its numbers are spelled, has no blanks and no plus sign before a number. -/
theorem acceptsDocumented_iff (s : Bytes) :
    AcceptsDocumented s ↔
      ∀ m, MessageText Spelled m s → MessageText (fun n f => Spelled n f ∧ Bare f) m s := by
  constructor
  · intro h m hm
    have hr := h {}
    rw [Ensures, decode_text hm] at hr
    obtain ⟨m', hm'⟩ := hr
    obtain rfl := text_unique hm (hm'.mono fun _ _ => Digits.spelled)
    exact hm'.mono fun _ _ => digits_iff.mp
  · intro h m₀
    have hr := decode_ensures s m₀
    rw [Ensures] at hr ⊢
    rcases hx : exec (decode s) m₀ with ⟨(e | _) | a, m⟩ <;> rw [hx] at hr
    · refine ⟨hr.1, ?_⟩
      rintro ⟨m', hm'⟩
      rw [decode_text (hm'.mono fun _ _ => Digits.spelled)] at hx
      cases hx
    · exact hr.elim
    · exact ⟨m, (h m hr).mono fun _ _ => digits_iff.mpr⟩

/-- A documented order update has no plus sign in it. -/
theorem plus_not_mem {m : Message} {s : Bytes} (h : MessageText Digits m s)
    (ht : m.type = .orderUpdate) : byte '+' ∉ s := by
  cases h with
  | @orderUpdate _ _ st _ _ hk _ =>
    simp only [Message.ofOrderStatus] at ht
    subst ht
    refine not_mem_join (by decide) ?_
    simp only [List.mem_cons, List.not_mem_nil, or_false, forall_eq_or_imp, forall_eq]
    refine ⟨by decide, fun hp => absurd (hk.2.2.1 _ hp) (by decide), ?_⟩
    cases st <;> decide
  | login => cases ht
  | string h => rcases h with rfl | rfl | rfl <;> cases ht
  | order h => rcases h with rfl | rfl <;> cases ht
  | itemUpdate h => rcases h with rfl | rfl <;> cases ht
  | heartbeat => cases ht

/-- An order id spelled with a plus sign is accepted. -/
theorem not_acceptsDocumented_plus : ¬AcceptsDocumented (ascii "ORDER_UPDATE|+7|DONE") := by
  intro h
  have hrun : exec (decode (ascii "ORDER_UPDATE|+7|DONE")) {}
      = (.ok (), .ofOrderStatus .orderUpdate 7 .done) := by decide +kernel
  have hr := h {}
  rw [Ensures, hrun] at hr
  obtain ⟨m, hm⟩ := hr
  have hread := decode_text (hm.mono fun _ _ => Digits.spelled) {}
  rw [hrun] at hread
  obtain rfl := (Prod.mk.inj hread).2
  exact absurd (plus_not_mem hm rfl) (by decide)

end Restaurant.Wire
