import RestaurantOrder.Session.Traffic

/-! One direction of a connection: what has been sent, what has been received, and the bytes between.

    A `send` may write a beginning of its frame only, or nothing of a text that is too long; nothing is
    written behind such a text. So the bytes on their way are always a beginning of the frames of the
    texts that were sent and not yet received, and the texts come out as they went in. As long as
    nothing has been lost, the bytes are all of these frames.

        sent      t₁ t₂ | t₃ t₄
        received  t₁ t₂ |          bytes: a beginning of  frame t₃ ++ frame t₄ -/

namespace Restaurant.Program
open Schemes
open Framing (Outfd frame)

/-- What there is of a text on its way: nothing, if it is too long. -/
def framed (text : Bytes) : Bytes := if text.length ≤ 9998 then frame text else []

structure Channel (lost : Bool) (sent received : List Bytes) (bytes : Bytes) : Prop where
  order : received <+: sent
  frames : bytes <+: (sent.drop received.length).flatMap framed
  short : ∀ t ∈ sent.dropLast, t.length ≤ 9998
  whole : lost = false → bytes = (sent.drop received.length).flatMap framed

theorem framed_short {text : Bytes} (h : text.length ≤ 9998) : framed text = frame text := if_pos h

/-- A frame that is received out of what was sent is the first frame there. -/
theorem frame_of_prefix {s t r x : Bytes} (hs : s.length ≤ 9998) (ht : t.length ≤ 9998 ∨ x = [])
    (h : frame s ++ r <+: framed t ++ x) : s = t ∧ r <+: x := by
  obtain ⟨y, hy⟩ := h
  by_cases hlen : t.length ≤ 9998
  · rw [framed_short hlen, List.append_assoc] at hy
    obtain ⟨rfl, rfl⟩ := Session.frame_unique hs hlen hy
    exact ⟨rfl, y, rfl⟩
  · obtain rfl := ht.resolve_left hlen
    rw [framed, if_neg hlen] at hy
    simp [frame] at hy

namespace Channel

theorem init (lost : Bool) : Channel lost [] [] [] :=
  ⟨List.prefix_rfl, List.prefix_rfl, by simp, fun _ => rfl⟩

variable {lost lost' : Bool} {sent received : List Bytes} {bytes : Bytes}

theorem length_le (h : Channel lost sent received bytes) : received.length ≤ sent.length :=
  h.order.length_le

/-- Nothing is on its way if everything has been received. -/
theorem empty (h : Channel lost sent received bytes) (hlen : sent.length ≤ received.length) :
    bytes = [] := by
  have hbytes := h.frames
  rw [List.drop_of_length_le hlen] at hbytes
  exact List.prefix_nil.mp hbytes

/-- Everything has been received if nothing was lost and nothing is on its way. -/
theorem all (h : Channel lost sent received []) (hlost : lost = false)
    (hshort : ∀ t ∈ sent, t.length ≤ 9998) : received = sent := by
  obtain ⟨more, rfl⟩ := h.order
  have hwhole := h.whole hlost
  rw [List.drop_left] at hwhole
  cases more with
  | nil => simp
  | cons t more =>
    rw [List.flatMap_cons, framed_short (hshort t (by simp))] at hwhole
    simp [frame] at hwhole

/-- LOSE: what is left of the bytes is a beginning of them. -/
theorem lose (h : Channel lost sent received bytes) {bytes' : Bytes} (hbytes : bytes' <+: bytes)
    (hlost : lost' = false → lost = false ∧ bytes' = bytes) :
    Channel lost' sent received bytes' := by
  refine ⟨h.order, hbytes.trans h.frames, h.short, fun hl => ?_⟩
  obtain ⟨hl, rfl⟩ := hlost hl
  exact h.whole hl

/-- SEND: behind bytes that are all there, or nothing at all. -/
theorem send (h : Channel lost sent received bytes) {text part : Bytes}
    (hroom : bytes = (sent.drop received.length).flatMap framed ∨ part = [])
    (hshort : ∀ t ∈ sent, t.length ≤ 9998) (hpart : part <+: framed text)
    (hlost : lost' = false → lost = false ∧ part = framed text) :
    Channel lost' (sent ++ [text]) received (bytes ++ part) := by
  have hdrop : ((sent ++ [text]).drop received.length).flatMap framed
      = (sent.drop received.length).flatMap framed ++ framed text := by
    rw [List.drop_append_of_le_length h.length_le, List.flatMap_append, List.flatMap_singleton]
  refine ⟨h.order.trans (List.prefix_append _ _), ?_, by rwa [List.dropLast_concat], fun hl => ?_⟩
  · rw [hdrop]
    rcases hroom with hall | rfl
    · rw [hall]
      exact (List.prefix_append_right_inj _).mpr hpart
    · rw [List.append_nil]
      exact h.frames.trans (List.prefix_append _ _)
  · obtain ⟨hl, rfl⟩ := hlost hl
    rw [hdrop, h.whole hl]

/-- RECEIVE: the text that was sent next comes out. -/
theorem receive (h : Channel lost sent received bytes) {text rest : Bytes} (htext : text.length ≤ 9998)
    (hframe : frame text ++ rest <+: bytes)
    (hlost : lost' = false → lost = false ∧ frame text ++ rest = bytes) :
    Channel lost' sent (received ++ [text]) rest := by
  obtain ⟨more, rfl⟩ := h.order
  have hbytes := hframe.trans h.frames
  rw [List.drop_left] at hbytes
  rcases more with _ | ⟨t, more⟩
  · simp [frame] at hbytes
  have hlast : t.length ≤ 9998 ∨ more.flatMap framed = [] := by
    cases more with
    | nil => exact Or.inr rfl
    | cons t' more => exact Or.inl (h.short t (by simp [List.dropLast]))
  rw [List.flatMap_cons] at hbytes
  obtain ⟨rfl, hrest⟩ := frame_of_prefix htext hlast hbytes
  have hdrop : (received ++ text :: more).drop (received ++ [text]).length = more := by
    rw [show received ++ text :: more = received ++ [text] ++ more by simp, List.drop_left]
  refine ⟨⟨more, by simp⟩, by rwa [hdrop], h.short, fun hl => ?_⟩
  obtain ⟨hl, hall⟩ := hlost hl
  have hwhole := h.whole hl
  rw [← hall, List.drop_left, List.flatMap_cons, framed_short htext] at hwhole
  rw [hdrop]
  exact List.append_cancel_left hwhole

end Channel

/-! ### Sending -/

/-- Sending writes a beginning of what there is to send, all of it if no error occurs. -/
theorem exec_send_framed (s : Bytes) (fd : Outfd) : ∃ r fd' part,
    exec (Framing.send s) fd = (r, fd') ∧ fd'.written = fd.written ++ part ∧ part <+: framed s ∧
      (r = .ok () ∧ s.length ≤ 9998 ∨ ∃ what, r = raise (.ioException what)) ∧
      (fd.Open → s.length ≤ 9998 → r = .ok () ∧ part = frame s) := by
  by_cases hs : s.length ≤ 9998
  · by_cases hopen : fd.Open
    · obtain ⟨fd', hrun, hw, -⟩ := Framing.exec_send hs hopen
      refine ⟨_, fd', frame s, hrun, hw, ?_, Or.inl ⟨rfl, hs⟩, fun _ _ => ⟨rfl, rfl⟩⟩
      rw [framed_short hs]
    · obtain ⟨r, fd', part, hrun, hw, hpart, hr⟩ := Framing.exec_send_ends s fd
      refine ⟨r, fd', part, hrun, hw, ?_, hr.imp_left fun h => ⟨h, hs⟩, fun h => absurd h hopen⟩
      rwa [framed_short hs]
  · exact ⟨_, fd, [], Framing.exec_send_long (Nat.lt_of_not_le hs) fd, (List.append_nil _).symm,
      List.nil_prefix, Or.inr ⟨_, rfl⟩, fun _ h => absurd h hs⟩

end Restaurant.Program
