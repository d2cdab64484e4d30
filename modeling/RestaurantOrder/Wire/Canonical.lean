import RestaurantOrder.Wire.RoundTrip

/-! What `decode` forgets: how the integer fields were spelled, and nothing else.

    `canonicalText s` is `s` with each integer field rewritten: its blanks, its plus sign and its
    leading zeros are dropped. It works on the fields of the text, as they lie between the separators,
    and knows nothing of messages.

        ITEM_UPDATE| +07|0012|DONE  ──canonicalText──▶  ITEM_UPDATE|7|12|DONE

    CORRECT: `encode` prints the canonical text of what `decode` has read (`encode_decode`). -/

namespace Restaurant.Wire
open Schemes

/-- An integer field without blanks, sign and leading zeros. -/
def canonicalInt (t : Bytes) : Bytes :=
  (sign (t.dropWhile isSpace)).2.dropWhile (· == byte '0')

/-- Rewrite the fields at the given positions. -/
def atFields (sep : Byte) (positions : List ℕ) (f : Bytes → Bytes) (s : Bytes) : Bytes :=
  join sep ((s.splitOn sep).mapIdx fun i t => if i ∈ positions then f t else t)

def canonicalItem (s : Bytes) : Bytes := atFields (byte ':') [0, 1, 4] canonicalInt s

def canonicalItems (s : Bytes) : Bytes :=
  join (byte ';') ((s.splitOn (byte ';')).map canonicalItem)

def canonicalOrder (s : Bytes) : Bytes :=
  atFields (byte ',') [2] canonicalItems (atFields (byte ',') [0] canonicalInt s)

def canonicalText (s : Bytes) : Bytes :=
  match strToMessageType ((s.splitOn (byte '|')).headD []) with
  | .orderNew | .dispOrder => atFields (byte '|') [1] canonicalOrder s
  | .itemUpdate | .dispItemUpdate => atFields (byte '|') [1, 2] canonicalInt s
  | .orderUpdate | .dispOrderUpdate => atFields (byte '|') [1] canonicalInt s
  | _ => s

/-- A message with a string field that is empty. -/
def Emptied (m : Message) : Prop :=
  (m.type = .login ∨ m.type = .quit ∨ m.type = .ok ∨ m.type = .error) ∧ m.str = []

/-! ### Canonical fields -/

theorem canonicalInt_spelled {n : Int32} {t : Bytes} (h : IntText Spelled n t) :
    canonicalInt t = toStr n := by
  obtain ⟨hn, blanks, plus, digits, rfl, hb, hp, hdig⟩ := h
  have habs := toInt_natAbs hn
  have hpos : 0 < n.toInt := by
    have := Int32.lt_iff_toInt_lt.mp hn
    rwa [Int32.toInt_zero] at this
  obtain ⟨hne, hd, hv⟩ := hdig
  rw [canonicalInt, sign_spelled hb hp hne hd, dropWhile_zeros hd (by omega), toStr, if_neg (by omega)]
  exact congrArg decimal (by omega)

theorem canonicalItem_text {it : Item} {s : Bytes} (h : ItemText Spelled it s) :
    canonicalItem s = encodeItem it := by
  obtain ⟨k, i, q, hk, hi, -, hdesc, hq, rfl⟩ := h
  rw [canonicalItem, atFields, splitOn_itemText hk.2 hi.2 hdesc hq.2, encodeItem_eq]
  simp [canonicalInt_spelled hk, canonicalInt_spelled hi, canonicalInt_spelled hq]

theorem canonicalItems_text {its : List Item} {ts : List Bytes} (hne : its ≠ [])
    (h : List.Forall₂ (ItemText Spelled) its ts) :
    canonicalItems (join (byte ';') ts) = join (byte ';') (its.map encodeItem) := by
  have hsplit := splitOn_itemTexts hne h
  have hmap : ts.map canonicalItem = its.map encodeItem := by
    clear hne hsplit
    induction h with
    | nil => rfl
    | cons hit _ ih => rw [List.map_cons, List.map_cons, canonicalItem_text hit, ih]
  rw [canonicalItems, hsplit, hmap]

theorem canonicalOrder_text {o : Order} {s : Bytes} (h : OrderText Spelled o s) :
    canonicalOrder s = orderStr o.id o.status o.items.reduceOption := by
  obtain ⟨k, its, ts, hk, -, hits, hne, hall, rfl⟩ := h
  have hint := canonicalInt_spelled hk
  have hid := (digits_toStr hk.1).spelled
  rw [canonicalOrder, atFields, atFields, splitOn_orderText o.status hk.2 hall]
  simp only [List.mapIdx_cons, List.mapIdx_nil, List.mem_singleton, if_true,
    Nat.add_one_ne_zero, if_false, hint]
  rw [splitOn_orderText o.status hid hall]
  simp [orderStr, hits, reduceOption_map_some, canonicalItems_text hne hall]

/-! ### Canonical texts -/

/-- The positions are those of the payload; the type is at position 0. -/
theorem canonicalText_join (type : MessageType) {fields : List Bytes}
    (hf : ∀ t ∈ fields, byte '|' ∉ t) :
    canonicalText (join (byte '|') (messageTypeToStr type :: fields))
      = join (byte '|') (messageTypeToStr type :: match type with
        | .orderNew | .dispOrder =>
          fields.mapIdx fun i t => if i + 1 ∈ [1] then canonicalOrder t else t
        | .itemUpdate | .dispItemUpdate =>
          fields.mapIdx fun i t => if i + 1 ∈ [1, 2] then canonicalInt t else t
        | .orderUpdate | .dispOrderUpdate =>
          fields.mapIdx fun i t => if i + 1 ∈ [1] then canonicalInt t else t
        | _ => fields) := by
  have hname : strToMessageType (messageTypeToStr type) = type := messageTypeNames.parse_print type
  have hsplit := splitOn_text type hf
  rw [canonicalText, hsplit, List.headD_cons, hname]
  cases type <;> simp only [atFields, hsplit, List.mapIdx_cons] <;> rfl

/-- The canonical text of a message's text is the text that `encode` prints. -/
theorem canonicalText_text {m : Message} {s : Bytes} (h : MessageText Spelled m s) :
    canonicalText s = messageStr m := by
  cases h with
  | login hm hs =>
    rw [canonicalText_join _ (bar_login _ hs)]
    rfl
  | string ht hs =>
    rcases ht with rfl | rfl | rfl <;>
    · rw [canonicalText_join _ (by simpa using hs)]
      rfl
  | order ht ho =>
    have hpay := canonicalOrder_text ho
    rcases ht with rfl | rfl <;>
    · rw [canonicalText_join _ (by simpa using ho.not_mem), messageStr, payload]
      simp [Message.ofOrder, hpay]
  | itemUpdate ht hk hi hs =>
    have hpay := And.intro (canonicalInt_spelled hk) (canonicalInt_spelled hi)
    rcases ht with rfl | rfl <;>
    · rw [canonicalText_join _ (bar_itemUpdate hk.2 hi.2 _), messageStr, payload]
      simp [Message.ofItemStatus, hpay]
  | orderUpdate ht hk hs =>
    have hpay := canonicalInt_spelled hk
    rcases ht with rfl | rfl <;>
    · rw [canonicalText_join _ (bar_orderUpdate hk.2 _), messageStr, payload]
      simp [Message.ofOrderStatus, hpay]
  | heartbeat => exact canonicalText_join .dispHeartbeat (by simp)

/-- A message that was read from a text can be sent, unless its string is empty. -/
theorem MessageText.sendable {int : Int32 → Bytes → Prop} {m : Message} {s : Bytes}
    (h : MessageText int m s) (hne : ¬Emptied m) : Sendable m := by
  cases h with
  | login hm hs => exact .login hm (fun he => hne ⟨Or.inl rfl, he⟩) hs
  | string ht hs => exact .string ht (fun he => hne ⟨Or.inr ht, he⟩) hs
  | order ht ho => exact .order ht ho.sendable
  | itemUpdate ht hk hi hs => exact .itemUpdate ht hk.1 hi.1 hs
  | orderUpdate ht hk hs => exact .orderUpdate ht hk.1 hs
  | heartbeat => exact .heartbeat

/-- CORRECT: `encode` prints the canonical text of what `decode` has read, which is read as the same
    message again, and texts that are read as one message have one canonical text. -/
theorem encode_decode {s : Bytes} {m₀ m : Message} (h : exec (decode s) m₀ = (.ok (), m)) :
    (¬Emptied m → (∀ r, exec (encode m) r = (.ok (), canonicalText s)) ∧
      ∀ m₁, exec (decode (canonicalText s)) m₁ = (.ok (), m)) ∧
    ∀ s' m₁, exec (decode s') m₁ = (.ok (), m) → canonicalText s' = canonicalText s := by
  have hread := text_of_decode h
  have htext := canonicalText_text hread
  refine ⟨fun hne => ?_, fun s' m₁ h' => (canonicalText_text (text_of_decode h')).trans htext.symm⟩
  have hsend := hread.sendable hne
  rw [htext]
  exact ⟨exec_encode hsend.text.1, decode_messageStr hsend⟩

/-- An item update with a blank, a plus sign and leading zeros. -/
theorem encode_decode_update :
    let s := ascii "ITEM_UPDATE| +07|0012|DONE"
    let m := Message.ofItemStatus .itemUpdate 7 12 .done
    canonicalText s = ascii "ITEM_UPDATE|7|12|DONE" ∧ exec (decode s) {} = (.ok (), m) ∧
      (¬Emptied m → (∀ r, exec (encode m) r = (.ok (), canonicalText s)) ∧
        ∀ m₁, exec (decode (canonicalText s)) m₁ = (.ok (), m)) := by
  intro s m
  have h : exec (decode s) {} = (.ok (), m) := by decide +kernel
  exact ⟨by decide +kernel, h, (encode_decode h).1⟩

end Restaurant.Wire
