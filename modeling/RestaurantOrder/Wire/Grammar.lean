import RestaurantOrder.Wire.Codec

/-! The texts of messages, and which of them `decode` accepts.

    `MessageText int m s` says that the text `s` has the documented form and stands for the message
    `m`; the relation `int` says how an integer field may be spelled, `Digits` as documented and
    `Spelled` as `stoi` reads it.

        message   TYPE | field | ... | field
        order     id , status , item ; ... ; item
        item      order id : id : status : desc : qty

    CORRECT: `decode` returns the message that a `Spelled` text stands for (`decode_text`) and throws
    InvalidMessage on all other texts (`decode_ensures`), leaving its argument alone. -/

namespace Restaurant.Wire
open Schemes

/-- One of the four separator characters. -/
def isSep (b : Byte) : Bool :=
  b == byte '|' || b == byte ',' || b == byte ';' || b == byte ':'

/-- A text without separators. -/
def Plain (s : Bytes) : Prop := ∀ b ∈ s, isSep b = false

instance (s : Bytes) : Decidable (Plain s) :=
  List.decidableBAll (fun b => isSep b = false) s

/-- The exceptions that wire.cpp throws itself. -/
def IsInvalid (e : Exception) : Prop := ∃ what, e = .invalidMessage what

section
variable (int : Int32 → Bytes → Prop)

/-- An integer field: a positive number, spelled as `int` allows. -/
def IntText (n : Int32) (s : Bytes) : Prop := 0 < n ∧ int n s

def ItemText (it : Item) (s : Bytes) : Prop :=
  ∃ orderId id qty, IntText int it.orderId orderId ∧ IntText int it.id id ∧
    it.status ≠ .invalid ∧ Plain it.desc ∧ IntText int it.qty qty ∧
    s = join (byte ':') [orderId, id, itemStatusToStr it.status, it.desc, qty]

def OrderText (o : Order) (s : Bytes) : Prop :=
  ∃ id its ts, IntText int o.id id ∧ o.status ≠ .invalid ∧ o.items = its.map some ∧ its ≠ [] ∧
    List.Forall₂ (ItemText int) its ts ∧
    s = join (byte ',') [id, orderStatusToStr o.status, join (byte ';') ts]

inductive MessageText : Message → Bytes → Prop
  | login {mode str} (hm : mode ≠ .invalid) (hs : byte '|' ∉ str) :
      MessageText (.ofLogin .login mode str)
        (join (byte '|') [messageTypeToStr .login, clientModeToStr mode, str])
  | string {type str} (ht : type = .quit ∨ type = .ok ∨ type = .error) (hs : byte '|' ∉ str) :
      MessageText (.ofStr type str) (join (byte '|') [messageTypeToStr type, str])
  | order {type o s} (ht : type = .orderNew ∨ type = .dispOrder) (ho : OrderText int o s) :
      MessageText (.ofOrder type (some o)) (join (byte '|') [messageTypeToStr type, s])
  | itemUpdate {type orderId itemId st k i}
      (ht : type = .itemUpdate ∨ type = .dispItemUpdate) (hk : IntText int orderId k)
      (hi : IntText int itemId i) (hs : st ≠ .invalid) :
      MessageText (.ofItemStatus type orderId itemId st)
        (join (byte '|') [messageTypeToStr type, k, i, itemStatusToStr st])
  | orderUpdate {type orderId st k}
      (ht : type = .orderUpdate ∨ type = .dispOrderUpdate) (hk : IntText int orderId k)
      (hs : st ≠ .invalid) :
      MessageText (.ofOrderStatus type orderId st)
        (join (byte '|') [messageTypeToStr type, k, orderStatusToStr st])
  | heartbeat : MessageText (.ofType .dispHeartbeat)
      (join (byte '|') [messageTypeToStr .dispHeartbeat])

end

/-! ### Separators -/

theorem isSep_iff {b : Byte} :
    isSep b = true ↔ b = byte '|' ∨ b = byte ',' ∨ b = byte ';' ∨ b = byte ':' := by
  simp [isSep, or_assoc]

theorem Plain.not_mem {s : Bytes} (h : Plain s) {c : Byte} (hc : isSep c = true) : c ∉ s :=
  fun hm => by rw [h c hm] at hc; cases hc

theorem plain_of_not_mem {s : Bytes} (h : ∀ c, isSep c = true → c ∉ s) : Plain s := fun b hb =>
  Bool.eq_false_iff.mpr fun hs => h b hs hb

theorem plain_itemStatus (st : ItemStatus) : Plain (itemStatusToStr st) := by
  cases st <;> decide

theorem plain_orderStatus (st : OrderStatus) : Plain (orderStatusToStr st) := by
  cases st <;> decide

theorem plain_clientMode (mode : ClientMode) : Plain (clientModeToStr mode) := by
  cases mode <;> decide

theorem plain_messageType (type : MessageType) : Plain (messageTypeToStr type) := by
  cases type <;> decide

theorem isDigit_not_isSep {b : Byte} (h : isDigit b = true) : isSep b = false := by
  rw [isDigit_iff] at h
  rw [Bool.eq_false_iff, ne_eq, isSep_iff]
  rintro (rfl | rfl | rfl | rfl) <;> revert h <;> decide

theorem isSpace_not_isSep {b : Byte} (h : isSpace b = true) : isSep b = false := by
  rw [Bool.eq_false_iff, ne_eq, isSep_iff]
  rintro (rfl | rfl | rfl | rfl) <;> revert h <;> decide

theorem plain_spelled {n : Int32} {s : Bytes} (h : Spelled n s) : Plain s := by
  obtain ⟨blanks, plus, digits, rfl, hb, hp, -, hd, -⟩ := h
  intro b hm
  rw [List.mem_append, List.mem_append] at hm
  rcases hm with (hm | hm) | hm
  · exact isSpace_not_isSep (hb b hm)
  · rcases hp with rfl | rfl
    · exact absurd hm List.not_mem_nil
    · rw [List.mem_singleton] at hm; subst hm; rfl
  · exact isDigit_not_isSep (hd b hm)

/-! ### Texts are read -/

/-- The fields of an item's text lie between its separators. -/
theorem splitOn_itemText {it : Item} {k i q : Bytes} (hk : Spelled it.orderId k)
    (hi : Spelled it.id i) (hdesc : Plain it.desc) (hq : Spelled it.qty q) :
    (join (byte ':') [k, i, itemStatusToStr it.status, it.desc, q]).splitOn (byte ':')
      = [k, i, itemStatusToStr it.status, it.desc, q] := by
  refine splitOn_eq_iff.mpr ⟨List.cons_ne_nil _ _, ?_, rfl⟩
  simp only [List.mem_cons, List.not_mem_nil, or_false, forall_eq_or_imp, forall_eq]
  exact ⟨(plain_spelled hk).not_mem rfl, (plain_spelled hi).not_mem rfl,
    (plain_itemStatus _).not_mem rfl, hdesc.not_mem rfl, (plain_spelled hq).not_mem rfl⟩

theorem decodeItem_text {it : Item} {s : Bytes} (h : ItemText Spelled it s) :
    decodeItem s = .ok it := by
  obtain ⟨k, i, q, hk, hi, hst, hdesc, hq, rfl⟩ := h
  have hsplit := splitOn_itemText hk.2 hi.2 hdesc hq.2
  have hname : strToItemStatus (itemStatusToStr it.status) = it.status :=
    itemStatusNames.parse_print it.status
  rw [decodeItem, Util.split_eq, hsplit]
  simp [nth, parsePositiveInt_iff.mpr hk, parsePositiveInt_iff.mpr hi, parsePositiveInt_iff.mpr hq,
    hname, hst]

theorem decodeItems_text {its : List Item} {ts : List Bytes} {o : Order}
    (h : List.Forall₂ (ItemText Spelled) its ts) :
    decodeItems o ts = .ok { o with items := o.items ++ its.map some } := by
  induction h generalizing o with
  | nil => simp [decodeItems]
  | cons hit _ ih =>
    rw [decodeItems, decodeItem_text hit, ok_bind, ih]
    simp [Order.addItem]

/-- The only separator in an item text is the one between its fields. -/
theorem ItemText.not_mem {it : Item} {s : Bytes} (h : ItemText Spelled it s) {c : Byte}
    (hc : isSep c = true) (hne : c ≠ byte ':') : c ∉ s := by
  obtain ⟨k, i, q, hk, hi, -, hdesc, hq, rfl⟩ := h
  refine not_mem_join hne ?_
  simp only [List.mem_cons, List.not_mem_nil, or_false, forall_eq_or_imp, forall_eq]
  exact ⟨(plain_spelled hk.2).not_mem hc, (plain_spelled hi.2).not_mem hc,
    (plain_itemStatus _).not_mem hc, hdesc.not_mem hc, (plain_spelled hq.2).not_mem hc⟩

theorem forall₂_not_mem {its : List Item} {ts : List Bytes}
    (h : List.Forall₂ (ItemText Spelled) its ts) {c : Byte} (hc : isSep c = true)
    (hne : c ≠ byte ':') : ∀ t ∈ ts, c ∉ t := by
  induction h with
  | nil => exact fun t ht => absurd ht List.not_mem_nil
  | cons hit _ ih =>
    intro t ht
    rcases List.mem_cons.mp ht with rfl | ht
    · exact hit.not_mem hc hne
    · exact ih t ht

theorem OrderText.not_mem {o : Order} {s : Bytes} (h : OrderText Spelled o s) : byte '|' ∉ s := by
  obtain ⟨id, its, ts, hid, -, -, -, hits, rfl⟩ := h
  refine not_mem_join (by decide) ?_
  simp only [List.mem_cons, List.not_mem_nil, or_false, forall_eq_or_imp, forall_eq]
  exact ⟨(plain_spelled hid.2).not_mem rfl, (plain_orderStatus _).not_mem rfl,
    not_mem_join (by decide) (forall₂_not_mem hits rfl (by decide))⟩

/-- The item texts of an order lie between their separators. -/
theorem splitOn_itemTexts {its : List Item} {ts : List Bytes} (hne : its ≠ [])
    (hall : List.Forall₂ (ItemText Spelled) its ts) : (join (byte ';') ts).splitOn (byte ';') = ts := by
  refine splitOn_eq_iff.mpr ⟨?_, forall₂_not_mem hall rfl (by decide), rfl⟩
  rintro rfl
  exact hne (List.forall₂_nil_right_iff.mp hall)

theorem splitOn_orderText {n : Int32} (status : OrderStatus) {its : List Item} {k : Bytes}
    {ts : List Bytes} (hk : Spelled n k) (hall : List.Forall₂ (ItemText Spelled) its ts) :
    (join (byte ',') [k, orderStatusToStr status, join (byte ';') ts]).splitOn (byte ',')
      = [k, orderStatusToStr status, join (byte ';') ts] := by
  refine splitOn_eq_iff.mpr ⟨List.cons_ne_nil _ _, ?_, rfl⟩
  simp only [List.mem_cons, List.not_mem_nil, or_false, forall_eq_or_imp, forall_eq]
  exact ⟨(plain_spelled hk).not_mem rfl, (plain_orderStatus _).not_mem rfl,
    not_mem_join (by decide) (forall₂_not_mem hall rfl (by decide))⟩

theorem decodeOrder_text {o : Order} {s : Bytes} (h : OrderText Spelled o s) :
    decodeOrder s = .ok o := by
  obtain ⟨id, its, ts, hid, hst, hits, hne, hall, rfl⟩ := h
  have hts : ts ≠ [] := by
    rintro rfl
    exact hne (List.forall₂_nil_right_iff.mp hall)
  have hinner := splitOn_itemTexts hne hall
  have houter := splitOn_orderText o.status hid.2 hall
  have hname : strToOrderStatus (orderStatusToStr o.status) = o.status :=
    orderStatusNames.parse_print o.status
  rw [decodeOrder, Util.split_eq, houter]
  simp only [ok_bind, List.length_cons, List.length_nil, nth, List.getElem?_cons_zero,
    List.getElem?_cons_succ, parsePositiveInt_iff.mpr hid, hname, hst, if_false, Util.split_eq,
    hinner, decodeItems_text hall, List.nil_append, ← hits]
  simp [hts]

theorem exec_assignMsg {m : Message} (h : m.Full) (m₀ : Message) :
    exec (assignMsg m) m₀ = (.ok (), m) := by
  rw [assignMsg, exec_bind_ok (exec_get m₀), Message.assign_full h]
  rfl

theorem full_of_order {type : MessageType} {o : Order} {s : Bytes}
    (h : OrderText Spelled o s) : (Message.ofOrder type (some o)).Full := fun o' ho' => by
  obtain ⟨_, its, _, _, _, hits, _⟩ := h
  obtain rfl := Option.some.inj ho'
  exact ⟨its, hits⟩

/-- The fields of a message's text lie between its bars. -/
theorem splitOn_text (type : MessageType) {fields : List Bytes} (h : ∀ t ∈ fields, byte '|' ∉ t) :
    (join (byte '|') (messageTypeToStr type :: fields)).splitOn (byte '|')
      = messageTypeToStr type :: fields := by
  refine splitOn_eq_iff.mpr ⟨List.cons_ne_nil _ _, ?_, rfl⟩
  rw [List.forall_mem_cons]
  exact ⟨(plain_messageType type).not_mem rfl, h⟩

theorem bar_login (mode : ClientMode) {str : Bytes} (hs : byte '|' ∉ str) :
    ∀ t ∈ [clientModeToStr mode, str], byte '|' ∉ t := by
  simp only [List.mem_cons, List.not_mem_nil, or_false, forall_eq_or_imp, forall_eq]
  exact ⟨(plain_clientMode mode).not_mem rfl, hs⟩

theorem bar_itemUpdate {n n' : Int32} {k i : Bytes} (hk : Spelled n k) (hi : Spelled n' i)
    (st : ItemStatus) : ∀ t ∈ [k, i, itemStatusToStr st], byte '|' ∉ t := by
  simp only [List.mem_cons, List.not_mem_nil, or_false, forall_eq_or_imp, forall_eq]
  exact ⟨(plain_spelled hk).not_mem rfl, (plain_spelled hi).not_mem rfl,
    (plain_itemStatus st).not_mem rfl⟩

theorem bar_orderUpdate {n : Int32} {k : Bytes} (hk : Spelled n k) (st : OrderStatus) :
    ∀ t ∈ [k, orderStatusToStr st], byte '|' ∉ t := by
  simp only [List.mem_cons, List.not_mem_nil, or_false, forall_eq_or_imp, forall_eq]
  exact ⟨(plain_spelled hk).not_mem rfl, (plain_orderStatus st).not_mem rfl⟩

/-- On separator-free fields `decode` runs the case of the message type. -/
theorem exec_decode {type : MessageType} {fields : List Bytes} (ht : type ≠ .invalid)
    (hf : ∀ t ∈ fields, byte '|' ∉ t) (m₀ : Message) :
    exec (decode (join (byte '|') (messageTypeToStr type :: fields))) m₀
      = exec (decodePayload type (messageTypeToStr type :: fields)) m₀ := by
  have hname : strToMessageType (messageTypeToStr type) = type := messageTypeNames.parse_print type
  rw [decode, Util.split_eq, splitOn_text type hf]
  simp [nth, hname, ht]

/-- `decode` returns the message that the text stands for, whatever its argument held. -/
theorem decode_text {m : Message} {s : Bytes} (h : MessageText Spelled m s) (m₀ : Message) :
    exec (decode s) m₀ = (.ok (), m) := by
  cases h with
  | @login mode str hm hs =>
    have hname : strToClientMode (clientModeToStr mode) = mode := clientModeNames.parse_print mode
    rw [exec_decode (by decide) (bar_login mode hs), decodePayload, decodeLogin]
    simpa [exec_bind, nth, hname, hm] using exec_assignMsg (Message.full_of_none rfl) m₀
  | string ht hs =>
    rcases ht with rfl | rfl | rfl <;>
    · rw [exec_decode (by decide) (by simpa using hs), decodePayload, decodeString]
      simpa [exec_bind, nth] using exec_assignMsg (Message.full_of_none rfl) m₀
  | order ht ho =>
    rcases ht with rfl | rfl <;>
    · rw [exec_decode (by decide) (by simpa using ho.not_mem), decodePayload, decodeOrderMsg]
      simp [nth, decodeOrder_text ho, exec_assignMsg (full_of_order ho)]
  | @itemUpdate _ _ _ st _ _ ht hk hi hs =>
    have hname : strToItemStatus (itemStatusToStr st) = st := itemStatusNames.parse_print st
    rcases ht with rfl | rfl <;>
    · rw [exec_decode (by decide) (bar_itemUpdate hk.2 hi.2 st), decodePayload, decodeItemUpdate]
      simpa [exec_bind, nth, parsePositiveInt_iff.mpr hk, parsePositiveInt_iff.mpr hi, hname, hs]
        using exec_assignMsg (Message.full_of_none rfl) m₀
  | @orderUpdate _ _ st _ ht hk hs =>
    have hname : strToOrderStatus (orderStatusToStr st) = st := orderStatusNames.parse_print st
    rcases ht with rfl | rfl <;>
    · rw [exec_decode (by decide) (bar_orderUpdate hk.2 st), decodePayload, decodeOrderUpdate]
      simpa [exec_bind, nth, parsePositiveInt_iff.mpr hk, hname, hs]
        using exec_assignMsg (Message.full_of_none rfl) m₀
  | heartbeat =>
    rw [exec_decode (by decide) (by simp), decodePayload, decodeHeartbeat]
    simpa using exec_assignMsg (Message.full_of_none rfl) m₀

/-- So a text stands for one message. -/
theorem text_unique {m m' : Message} {s : Bytes} (h : MessageText Spelled m s)
    (h' : MessageText Spelled m' s) : m = m' := by
  have hsame := (decode_text h {}).symm.trans (decode_text h' {})
  exact (Prod.mk.inj hsame).2

/-! ### Nothing else is read -/

theorem ends_invalid {α : Type} (what : String) {Q : α → Prop} :
    Ends (invalid what) Q IsInvalid := ⟨_, rfl⟩

theorem parsePositiveInt_ends (s f : Bytes) :
    Ends (parsePositiveInt s f) (IntText Spelled · s) IsInvalid := by
  by_cases h : ∃ n, 0 < n ∧ Spelled n s
  · obtain ⟨n, hn⟩ := h
    rw [parsePositiveInt_iff.mpr hn]; exact hn
  · obtain ⟨what, hw⟩ := parsePositiveInt_error (f := f) h
    rw [hw]; exact ⟨what, rfl⟩

/-- A list of five fields, one for each field of an item. -/
theorem five_of_length {v : List Bytes} (h : v.length = 5) : ∃ a b c d e, v = [a, b, c, d, e] := by
  match v, h with
  | [a, b, c, d, e], _ => exact ⟨a, b, c, d, e, rfl⟩

theorem decodeItem_ends {s : Bytes} (h : ∀ c, isSep c = true → c ≠ byte ':' → c ∉ s) :
    Ends (decodeItem s) (ItemText Spelled · s) IsInvalid := by
  rw [decodeItem, Util.split_eq, ok_bind]
  by_cases hlen : (s.splitOn (byte ':')).length = 5
  case neg => simpa [hlen] using ends_invalid _
  obtain ⟨k, i, st, desc, q, hparts⟩ := five_of_length hlen
  have hdesc : Plain desc := plain_of_not_mem fun c hc hm => by
    have hmem : desc ∈ s.splitOn (byte ':') := by simp [hparts]
    by_cases hcolon : c = byte ':'
    · exact not_mem_of_mem_splitOn _ s desc hmem (hcolon ▸ hm)
    · exact h c hc hcolon (subset_of_mem_splitOn _ s desc hmem hm)
  obtain ⟨-, -, hs⟩ := splitOn_eq_iff.mp hparts
  simp only [hparts, List.length_cons, List.length_nil, ne_eq, not_true_eq_false, if_false, nth,
    List.getElem?_cons_zero, List.getElem?_cons_succ, ok_bind]
  refine (parsePositiveInt_ends k _).bind fun orderId hk => ?_
  refine (parsePositiveInt_ends i _).bind fun id hi => ?_
  by_cases hst : strToItemStatus st = .invalid
  case pos => simpa [hst] using ends_invalid _
  rw [if_neg hst]
  refine (parsePositiveInt_ends q _).bind fun qty hq => ?_
  have hname : itemStatusToStr (strToItemStatus st) = st := itemStatusNames.print_parse hst
  exact ⟨k, i, q, hk, hi, hst, hdesc, hq, by rw [hname]; exact hs⟩

theorem decodeItems_ends {ts : List Bytes}
    (h : ∀ t ∈ ts, ∀ c, isSep c = true → c ≠ byte ':' → c ∉ t) (o : Order) :
    Ends (decodeItems o ts) (fun o' => ∃ its, List.Forall₂ (ItemText Spelled) its ts ∧
      o' = { o with items := o.items ++ its.map some }) IsInvalid := by
  induction ts generalizing o with
  | nil => exact ⟨[], .nil, by simp⟩
  | cons t ts ih =>
    rw [decodeItems]
    refine (decodeItem_ends (h t List.mem_cons_self)).bind ?_
    intro it hit
    refine (ih (fun u hu => h u (List.mem_cons_of_mem _ hu)) (o.addItem (some it))).mono ?_
    rintro o' ⟨its, hits, rfl⟩
    exact ⟨it :: its, .cons hit hits, by simp [Order.addItem]⟩

theorem decodeOrder_ends {s : Bytes} (h : byte '|' ∉ s) :
    Ends (decodeOrder s) (OrderText Spelled · s) IsInvalid := by
  rw [decodeOrder, Util.split_eq, ok_bind]
  by_cases hlen : (s.splitOn (byte ',')).length = 3
  case neg => simpa [hlen] using ends_invalid _
  obtain ⟨k, st, body, hfields⟩ := List.length_eq_three.mp hlen
  obtain ⟨-, hcomma, hs⟩ := splitOn_eq_iff.mp hfields
  have hbody : body ⊆ s := subset_of_mem_splitOn (byte ',') s body (by simp [hfields])
  simp only [hfields, List.length_cons, List.length_nil, ne_eq, not_true_eq_false, if_false, nth,
    List.getElem?_cons_zero, List.getElem?_cons_succ, ok_bind, Util.split_eq, List.isEmpty_iff,
    List.splitOn_ne_nil]
  refine (parsePositiveInt_ends k _).bind fun id hk => ?_
  by_cases hst : strToOrderStatus st = .invalid
  case pos => simpa [hst] using ends_invalid _
  rw [if_neg hst]
  -- the item texts are split off `body`, so they have none of the outer separators
  have htok : ∀ t ∈ body.splitOn (byte ';'), ∀ c, isSep c = true → c ≠ byte ':' → c ∉ t := by
    intro t ht c hc hne hm
    have hmb := subset_of_mem_splitOn _ body t ht hm
    rcases isSep_iff.mp hc with rfl | rfl | rfl | rfl
    · exact h (hbody hmb)
    · exact hcomma body (by simp) hmb
    · exact not_mem_of_mem_splitOn _ body t ht hm
    · exact hne rfl
  refine (decodeItems_ends htok _).mono ?_
  rintro o ⟨its, hits, rfl⟩
  have hname : orderStatusToStr (strToOrderStatus st) = st := orderStatusNames.print_parse hst
  refine ⟨k, its, body.splitOn (byte ';'), hk, hst, List.nil_append _, ?_, hits, ?_⟩
  · rintro rfl
    exact List.splitOn_ne_nil (byte ';') body (List.forall₂_nil_left_iff.mp hits)
  · rw [hname, join, join, List.intercalate_splitOn]; exact hs

/-- The message argument is as it was, and the exception is InvalidMessage. -/
def Rejected (m₀ : Message) (e : Exception) (m : Message) : Prop := IsInvalid e ∧ m = m₀

theorem ensures_invalid_bind {α β : Type} (what : String) (m₀ : Message)
    {f : α → CppOn Message β} {Q : β → Message → Prop} :
    Ensures ((liftM (invalid what) : CppOn Message α) >>= f) m₀ Q (Rejected m₀) :=
  ⟨⟨_, rfl⟩, rfl⟩

theorem ensures_assignMsg {m m₀ : Message} (h : m.Full) {R : Message → Prop} (hR : R m) :
    Ensures (assignMsg m) m₀ (fun _ m => R m) (Rejected m₀) := by
  rw [Ensures, exec_assignMsg h]; exact hR

/-- A computation that may reject its input, inside `decode`. -/
theorem ensures_bind {α : Type} {x : Cpp α} {f : α → CppOn Message Unit} {m₀ : Message}
    {P : α → Prop} {Q : Unit → Message → Prop} (hx : Ends x P IsInvalid)
    (hf : ∀ a, P a → Ensures (f a) m₀ Q (Rejected m₀)) :
    Ensures (liftM x >>= f) m₀ Q (Rejected m₀) := by
  refine Ensures.lift_bind (P := P) ?_ hf
  rcases x with (e | _) | a
  · exact ⟨hx, rfl⟩
  · exact hx.elim
  · exact hx

section
variable {type : MessageType} {fields : List Bytes} (hf : ∀ t ∈ fields, byte '|' ∉ t)
  (m₀ : Message)

/-- What a case of `decode` guarantees: it reads the message of the whole text, or rejects it. -/
def CaseReads (x : CppOn Message Unit) (type : MessageType) (fields : List Bytes)
    (m₀ : Message) : Prop :=
  Ensures x m₀
    (fun _ m => MessageText Spelled m (join (byte '|') (messageTypeToStr type :: fields)))
    (Rejected m₀)

include hf

theorem decodeLogin_reads :
    CaseReads (decodeLogin .login (messageTypeToStr .login :: fields)) .login fields m₀ := by
  rw [CaseReads, decodeLogin]
  by_cases hlen : fields.length = 2
  case neg => simpa [hlen] using ensures_invalid_bind _ m₀
  obtain ⟨mode, str, rfl⟩ := List.length_eq_two.mp hlen
  simp only [List.length_cons, List.length_nil, ne_eq, not_true_eq_false, if_false, nth,
    List.getElem?_cons_zero, List.getElem?_cons_succ, lift_ok_bind]
  by_cases hm : strToClientMode mode = .invalid
  case pos => simpa only [if_pos hm] using ensures_invalid_bind _ m₀
  rw [if_neg hm]
  have hname : clientModeToStr (strToClientMode mode) = mode := clientModeNames.print_parse hm
  refine ensures_assignMsg (Message.full_of_none rfl) ?_
  have : MessageText Spelled _ _ := .login hm (hf str (by simp))
  rwa [hname] at this

theorem decodeString_reads (ht : type = .quit ∨ type = .ok ∨ type = .error) :
    CaseReads (decodeString type (messageTypeToStr type :: fields)) type fields m₀ := by
  rw [CaseReads, decodeString]
  by_cases hlen : fields.length = 1
  case neg => simpa [hlen] using ensures_invalid_bind _ m₀
  obtain ⟨str, rfl⟩ := List.length_eq_one_iff.mp hlen
  simp only [List.length_cons, List.length_nil, ne_eq, not_true_eq_false, if_false, nth,
    List.getElem?_cons_zero, List.getElem?_cons_succ, lift_ok_bind]
  exact ensures_assignMsg (Message.full_of_none rfl) (.string ht (hf str (by simp)))

theorem decodeOrderMsg_reads (ht : type = .orderNew ∨ type = .dispOrder) :
    CaseReads (decodeOrderMsg type (messageTypeToStr type :: fields)) type fields m₀ := by
  rw [CaseReads, decodeOrderMsg]
  by_cases hlen : fields.length = 1
  case neg => simpa [hlen] using ensures_invalid_bind _ m₀
  obtain ⟨s, rfl⟩ := List.length_eq_one_iff.mp hlen
  simp only [List.length_cons, List.length_nil, ne_eq, not_true_eq_false, if_false, nth,
    List.getElem?_cons_zero, List.getElem?_cons_succ, lift_ok_bind]
  refine ensures_bind (decodeOrder_ends (hf s (by simp))) fun o ho => ?_
  exact ensures_assignMsg (full_of_order ho) (.order ht ho)

theorem decodeItemUpdate_reads (ht : type = .itemUpdate ∨ type = .dispItemUpdate) :
    CaseReads (decodeItemUpdate type (messageTypeToStr type :: fields)) type fields m₀ := by
  rw [CaseReads, decodeItemUpdate]
  by_cases hlen : fields.length = 3
  case neg => simpa [hlen] using ensures_invalid_bind _ m₀
  obtain ⟨k, i, st, rfl⟩ := List.length_eq_three.mp hlen
  simp only [List.length_cons, List.length_nil, ne_eq, not_true_eq_false, if_false, nth,
    List.getElem?_cons_zero, List.getElem?_cons_succ, lift_ok_bind]
  refine ensures_bind (parsePositiveInt_ends k _) fun orderId hk => ?_
  refine ensures_bind (parsePositiveInt_ends i _) fun itemId hi => ?_
  by_cases hst : strToItemStatus st = .invalid
  case pos => simpa only [if_pos hst] using ensures_invalid_bind _ m₀
  rw [if_neg hst]
  have hname : itemStatusToStr (strToItemStatus st) = st := itemStatusNames.print_parse hst
  refine ensures_assignMsg (Message.full_of_none rfl) ?_
  have := MessageText.itemUpdate ht hk hi hst
  rwa [hname] at this

theorem decodeOrderUpdate_reads (ht : type = .orderUpdate ∨ type = .dispOrderUpdate) :
    CaseReads (decodeOrderUpdate type (messageTypeToStr type :: fields)) type fields m₀ := by
  rw [CaseReads, decodeOrderUpdate]
  by_cases hlen : fields.length = 2
  case neg => simpa [hlen] using ensures_invalid_bind _ m₀
  obtain ⟨k, st, rfl⟩ := List.length_eq_two.mp hlen
  simp only [List.length_cons, List.length_nil, ne_eq, not_true_eq_false, if_false, nth,
    List.getElem?_cons_zero, List.getElem?_cons_succ, lift_ok_bind]
  refine ensures_bind (parsePositiveInt_ends k _) fun orderId hk => ?_
  by_cases hst : strToOrderStatus st = .invalid
  case pos => simpa only [if_pos hst] using ensures_invalid_bind _ m₀
  rw [if_neg hst]
  have hname : orderStatusToStr (strToOrderStatus st) = st := orderStatusNames.print_parse hst
  refine ensures_assignMsg (Message.full_of_none rfl) ?_
  have := MessageText.orderUpdate ht hk hst
  rwa [hname] at this

omit hf in
theorem decodeHeartbeat_reads :
    CaseReads (decodeHeartbeat .dispHeartbeat (messageTypeToStr .dispHeartbeat :: fields))
      .dispHeartbeat fields m₀ := by
  rw [CaseReads, decodeHeartbeat]
  by_cases hlen : fields = []
  case neg => simpa [hlen] using ensures_invalid_bind _ m₀
  subst hlen
  exact ensures_assignMsg (Message.full_of_none rfl) .heartbeat

theorem decodePayload_reads (ht : type ≠ .invalid) :
    CaseReads (decodePayload type (messageTypeToStr type :: fields)) type fields m₀ := by
  cases type with
  | invalid => exact absurd rfl ht
  | login => exact decodeLogin_reads hf m₀
  | quit => exact decodeString_reads hf m₀ (by simp)
  | ok => exact decodeString_reads hf m₀ (by simp)
  | error => exact decodeString_reads hf m₀ (by simp)
  | orderNew => exact decodeOrderMsg_reads hf m₀ (by simp)
  | dispOrder => exact decodeOrderMsg_reads hf m₀ (by simp)
  | itemUpdate => exact decodeItemUpdate_reads hf m₀ (by simp)
  | dispItemUpdate => exact decodeItemUpdate_reads hf m₀ (by simp)
  | orderUpdate => exact decodeOrderUpdate_reads hf m₀ (by simp)
  | dispOrderUpdate => exact decodeOrderUpdate_reads hf m₀ (by simp)
  | dispHeartbeat => exact decodeHeartbeat_reads m₀

end

/-- CORRECT: `decode` reads a message that the text stands for, or rejects the text and leaves its
    argument as it was. -/
theorem decode_ensures (s : Bytes) (m₀ : Message) :
    Ensures (decode s) m₀ (fun _ m => MessageText Spelled m s) (Rejected m₀) := by
  obtain ⟨ty, fields, hsplit⟩ := List.exists_cons_of_ne_nil (List.splitOn_ne_nil (byte '|') s)
  obtain ⟨-, hbar, hs⟩ := splitOn_eq_iff.mp hsplit
  rw [decode, Util.split_eq, hsplit]
  simp only [lift_ok_bind, List.isEmpty_cons, Bool.false_eq_true, if_false, nth,
    List.getElem?_cons_zero]
  by_cases ht : strToMessageType ty = .invalid
  case pos => simpa only [if_pos ht] using ensures_invalid_bind _ m₀
  rw [if_neg ht]
  have hname : messageTypeToStr (strToMessageType ty) = ty := messageTypeNames.print_parse ht
  have hfields : ∀ t ∈ fields, byte '|' ∉ t := fun t hmem => hbar t (List.mem_cons_of_mem _ hmem)
  have hcase := decodePayload_reads hfields m₀ ht
  rwa [CaseReads, hname, ← hs] at hcase

theorem decode_cases (s : Bytes) (m₀ : Message) :
    (∃ m, exec (decode s) m₀ = (.ok (), m) ∧ MessageText Spelled m s) ∨
      ∃ what, exec (decode s) m₀ = (raise (.invalidMessage what), m₀) := by
  have hends := decode_ensures s m₀
  rw [Ensures] at hends
  rcases hrun : exec (decode s) m₀ with ⟨(e | _) | _, m⟩ <;> rw [hrun] at hends
  · obtain ⟨⟨what, rfl⟩, rfl⟩ := hends
    exact Or.inr ⟨what, rfl⟩
  · exact hends.elim
  · exact Or.inl ⟨m, rfl, hends⟩

theorem text_of_decode {s : Bytes} {m₀ m : Message} (h : exec (decode s) m₀ = (.ok (), m)) :
    MessageText Spelled m s := by
  have hens := decode_ensures s m₀
  rwa [Ensures, h] at hens

end Restaurant.Wire
