import RestaurantOrder.Framing.Frame
import RestaurantOrder.Wire.RoundTrip

/-! What a display client is sent: `send_message` and the loop of `display_loop` in client.cpp.

    The loop takes messages from the client's queue and ends at the first one that cannot be sent. A
    message fits if `encode` prints it and the text is not too long for a frame; on a descriptor that
    takes all bytes the loop goes on exactly through messages that fit (`exec_displayLoop`). Here the
    loop runs over what `dequeue` returns; the thread around it is in the sessions, which do the same.

        queue ──dequeue──▶ message ──encode──▶ text ──frame──▶ descriptor -/

namespace Restaurant.Client
open Schemes
open Framing (Outfd)

/-- `Client::send_message`: false on any exception. -/
def sendMessage (msg : Message) : CppOn Outfd Bool :=
  tryCatchAll
    (do
      let encoded ← runOn [] (Wire.encode msg)
      Framing.send encoded
      return true)
    fun _ => return false

/-- The loop of `display_loop` over what `dequeue` returns, the empty pointer on a timeout: is it
    still running after all of it? -/
def displayLoop : List (Option Message) → CppOn Outfd Bool
  | [] => return true
  | msg :: rest => do
    if !(← sendMessage (msg.getD (.ofType .dispHeartbeat))) then return false
    displayLoop rest

/-- `encode` accepts the message, and `make_length_prefix` the length of its text. -/
def Fits (msg : Message) : Prop :=
  ∃ text size, (∀ r, exec (Wire.encode msg) r = (.ok (), text)) ∧
    Framing.makeLengthPrefix (text.length + 1) = .ok size

theorem makeLengthPrefix_ok {n : ℕ} :
    (∃ size, Framing.makeLengthPrefix (n + 1) = .ok size) ↔ n ≤ 9998 := by
  rw [Framing.makeLengthPrefix]
  by_cases h : n + 1 > 9999
  · rw [if_pos h]
    constructor
    · rintro ⟨_, hs⟩
      cases hs
    · intro hn
      omega
  · rw [if_neg h]
    exact ⟨fun _ => by omega, fun _ => ⟨_, rfl⟩⟩

/-- A message fits if it has its fields and its text has at most 9998 bytes. -/
theorem fits_iff {msg : Message} :
    Fits msg ↔ Wire.hasFields msg ∧ (Wire.messageStr msg).length ≤ 9998 := by
  constructor
  · rintro ⟨text, size, henc, hsize⟩
    by_cases hf : Wire.hasFields msg
    · have htext := (Wire.exec_encode hf []).symm.trans (henc [])
      rw [(Prod.mk.inj htext).2]
      exact ⟨hf, makeLengthPrefix_ok.mp ⟨size, hsize⟩⟩
    · obtain ⟨what, hw⟩ := Wire.exec_encode_invalid hf []
      cases (henc []).symm.trans hw
  · rintro ⟨hf, hlen⟩
    obtain ⟨size, hsize⟩ := makeLengthPrefix_ok.mpr hlen
    exact ⟨_, size, Wire.exec_encode hf, hsize⟩

/-- A message that fits is sent. -/
theorem exec_sendMessage {msg : Message} (h : Fits msg) {fd : Outfd} (hopen : fd.Open) :
    ∃ fd' : Outfd, exec (sendMessage msg) fd = (.ok true, fd') ∧ fd'.Open := by
  obtain ⟨hf, hlen⟩ := fits_iff.mp h
  obtain ⟨fd', hsend, -, hopen'⟩ := Framing.exec_send hlen hopen
  refine ⟨fd', exec_tryCatchAll_ok ?_, hopen'⟩
  rw [runOn_ok (Wire.exec_encode hf []), lift_ok_bind, exec_bind_ok hsend]
  rfl

/-- Of one that does not, nothing is sent. -/
theorem exec_sendMessage_fails {msg : Message} (h : ¬Fits msg) (fd : Outfd) :
    exec (sendMessage msg) fd = (.ok false, fd) := by
  by_cases hf : Wire.hasFields msg
  · have hlen : 9998 < (Wire.messageStr msg).length :=
      Nat.lt_of_not_le fun hle => h (fits_iff.mpr ⟨hf, hle⟩)
    refine exec_tryCatchAll_throws (e := .ioException (ascii "message too long to frame")) ?_
    rw [runOn_ok (Wire.exec_encode hf []), lift_ok_bind,
      exec_bind_error (Framing.exec_send_long hlen fd)]
    rfl
  · obtain ⟨what, hw⟩ := Wire.exec_encode_invalid hf []
    refine exec_tryCatchAll_throws (e := .invalidMessage (ascii what)) ?_
    rw [runOn_error hw]
    rfl

theorem heartbeat_fits : Fits (.ofType .dispHeartbeat) := fits_iff.mpr ⟨trivial, by decide⟩

/-- The message can be shown: it fits, `send_message` sends it, and the display loop goes on. -/
structure Shown (msg : Message) : Prop where
  fits : Fits msg
  sent : ∀ fd : Outfd, fd.Open → ∃ fd', exec (sendMessage msg) fd = (.ok true, fd')
  goesOn : ∀ fd : Outfd, fd.Open → ∃ fd' : Outfd, fd'.Open ∧
    ∀ rest, exec (displayLoop (some msg :: rest)) fd = exec (displayLoop rest) fd'

theorem Fits.shown {msg : Message} (h : Fits msg) : Shown msg where
  fits := h
  sent fd hopen := by
    obtain ⟨fd', hsend, -⟩ := exec_sendMessage h hopen
    exact ⟨fd', hsend⟩
  goesOn fd hopen := by
    obtain ⟨fd', hsend, hopen'⟩ := exec_sendMessage h hopen
    refine ⟨fd', hopen', fun rest => ?_⟩
    rw [displayLoop, Option.getD_some, exec_bind_ok hsend]
    rfl

/-- The display loop goes through messages, with timeouts among them, exactly if all of them fit. -/
theorem exec_displayLoop {msgs : List (Option Message)} : ∀ {fd : Outfd}, fd.Open →
    ∃ goesOn fd', exec (displayLoop msgs) fd = (.ok goesOn, fd') ∧
      (goesOn = true ↔ ∀ msg, some msg ∈ msgs → Fits msg) := by
  induction msgs with
  | nil => exact fun {fd} _ => ⟨true, fd, rfl, by simp⟩
  | cons msg msgs ih =>
    intro fd hopen
    have hhead : Fits (msg.getD (.ofType .dispHeartbeat)) ↔ ∀ m, some m = msg → Fits m := by
      cases msg with
      | none => simp [heartbeat_fits]
      | some m => simp
    simp only [List.mem_cons, or_imp, forall_and]
    rw [displayLoop, ← hhead]
    by_cases hfits : Fits (msg.getD (.ofType .dispHeartbeat))
    · obtain ⟨fd₁, hsend, hopen₁⟩ := exec_sendMessage hfits hopen
      obtain ⟨goesOn, fd', hrest, hgoes⟩ := ih hopen₁
      refine ⟨goesOn, fd', ?_, hgoes.trans (and_iff_right hfits).symm⟩
      rw [exec_bind_ok hsend]
      exact hrest
    · refine ⟨false, fd, ?_, by simp [hfits]⟩
      rw [exec_bind_ok (exec_sendMessage_fails hfits fd)]
      rfl

end Restaurant.Client
