import RestaurantOrder.Wire.RoundTrip

/-! The type of a message stands at the front of its text.

    So a text that `encode` has printed is read as a message of the same type, if it is read at all,
    whatever separators the fields behind the type have in them (`type_unique`). -/

namespace Restaurant.Wire
open Schemes

/-- The text up to its first bar. -/
def typeName (s : Bytes) : Bytes := s.takeWhile (· != byte '|')

theorem typeName_join (type : MessageType) (fields : List Bytes) :
    typeName (join (byte '|') (messageTypeToStr type :: fields)) = messageTypeToStr type := by
  have hname : ∀ b ∈ messageTypeToStr type, (b != byte '|') = true := fun b hb => by
    have hne : b ≠ byte '|' := fun he => (plain_messageType type).not_mem rfl (he ▸ hb)
    simpa using hne
  cases fields with
  | nil => rw [join_one, typeName, List.takeWhile_eq_self_iff.mpr hname]
  | cons t ts =>
    rw [join_cons (List.cons_ne_nil t ts), typeName, List.takeWhile_append_of_pos hname,
      List.takeWhile_cons_of_neg (by simp), List.append_nil]

theorem MessageText.typeName {int : Int32 → Bytes → Prop} {m : Message} {s : Bytes}
    (h : MessageText int m s) : typeName s = messageTypeToStr m.type := by
  cases h <;> exact typeName_join _ _

/-- A printed text is read as a message of the type that was printed. -/
theorem type_unique {int : Int32 → Bytes → Prop} {m msg : Message}
    (h : MessageText int msg (messageStr m)) : msg.type = m.type :=
  messageTypeNames.print_injective (h.typeName.symm.trans (typeName_join m.type _))

/-- A printed LOGIN is read as one of the mode that was printed. -/
theorem mode_unique {int : Int32 → Bytes → Prop} {mode mode' : ClientMode} {cred cred' : Bytes}
    (h : MessageText int (.ofLogin .login mode' cred') (messageStr (.ofLogin .login mode cred))) :
    mode' = mode := by
  obtain ⟨s, hs⟩ : ∃ s, s = messageStr (.ofLogin .login mode cred) := ⟨_, rfl⟩
  rw [← hs] at h
  have htext : s = join (byte '|') [messageTypeToStr .login, clientModeToStr mode', cred'] := by
    cases h with
    | login => rfl
    | string ht => rcases ht with ht | ht | ht <;> cases ht
    | itemUpdate ht => rcases ht with ht | ht <;> cases ht
    | orderUpdate ht => rcases ht with ht | ht <;> cases ht
  -- the letter behind `LOGIN|` tells the modes apart
  have hletter : s[6]? = (clientModeToStr mode').head? := by
    rw [htext]
    cases mode' <;> rfl
  have hletter' : s[6]? = (clientModeToStr mode).head? := by
    rw [hs]
    cases mode <;> rfl
  have hheads : (clientModeToStr mode').head? = (clientModeToStr mode).head? :=
    hletter.symm.trans hletter'
  revert hheads
  cases mode <;> cases mode' <;> decide

end Restaurant.Wire
