import RestaurantOrder.Session.Turns

/-! When a thread registers its client, and that it never forgets to unregister it.

    The protocol of a display says what its thread may do while it is registered and while it is not;
    the weaker protocol of any session leaves open what it does while it is not.

        not registered ──call register──▶ registered ──call unregister──▶ not registered
                                          dequeue, send                                    -/

namespace Restaurant.Session
open Schemes Process

/-- Registering and unregistering return; what else is done may end in any way. -/
def Settled : (a : Act) → a.Answer → Prop
  | .call (.registerDisplay _), r => r = .ok none
  | .call (.unregisterDisplay _), r => r = .ok none
  | _, _ => True

/-- Is the client registered after an action? -/
def registeredAfter (registered : Bool) : Act → Bool
  | .call (.registerDisplay _) => true
  | .call (.unregisterDisplay _) => false
  | _ => registered

/-- What the thread of a display may do behind the login. -/
def AllowedDisplay (this : Client) (registered : Bool) : Act → Prop
  | .call op => op = if registered then .unregisterDisplay this else .registerDisplay this
  | .receive => False
  | .send _ => registered = true
  | .dequeue => registered = true

/-- What any thread may do: a registered one does as a display does, another one leaves the
    registrations of others alone. -/
def AllowedSession (this : Client) : Bool → Act → Prop
  | true, a => AllowedDisplay this true a
  | false, .call (.registerDisplay c) => c = this
  | false, .call (.unregisterDisplay _) => False
  | false, _ => True

def displaying (this : Client) : Protocol Act Act.Answer Bool where
  allows := AllowedDisplay this
  answers _ := Settled
  next registered a _ := registeredAfter registered a

def conversing (this : Client) : Protocol Act Act.Answer Bool where
  allows := AllowedSession this
  answers _ := Settled
  next registered a _ := registeredAfter registered a

/-- Whoever has ended is not registered. -/
def Unregistered {α : Type} (_ : Cpp α) (registered : Bool) : Prop := registered = false

/-! ### Displays -/

theorem sendMessage_cases (msg : Message) : sendMessage msg = done (.ok false) ∨
    ∃ text, sendMessage msg = act (.send text) fun r => done (.ok r.isOk) := by
  by_cases h : Wire.hasFields msg
  · exact Or.inr ⟨_, sendMessage_eq h⟩
  · obtain ⟨what, hw⟩ := Wire.exec_encode_invalid h []
    refine Or.inl ?_
    rw [sendMessage, runOn_error hw]
    rfl

/-- The client is still registered, and nothing undefined has happened. -/
def StillRegistered {α : Type} (r : Cpp α) (registered : Bool) : Prop :=
  r ≠ .error .undefined ∧ registered = true

theorem sendMessage_keeps (this : Client) (msg : Message) :
    Keeps (displaying this) StillRegistered (sendMessage msg) true := by
  rcases sendMessage_cases msg with h | ⟨text, h⟩ <;> rw [h]
  · exact ⟨nofun, rfl⟩
  · exact ⟨rfl, fun r _ => ⟨nofun, rfl⟩⟩

/-- A turn of the loop ends with the client registered, in whichever way it ends. -/
theorem displayTurn_keeps (this : Client) :
    Keeps (displaying this) StillRegistered displayTurn true := by
  refine ⟨rfl, fun r _ => ?_⟩
  rcases r with e | msg
  · exact ⟨nofun, rfl⟩
  · cases msg with
    | none => exact sendMessage_keeps this _
    | some msg => exact sendMessage_keeps this msg

/-- However the loop ends, the client is unregistered behind it. -/
theorem displayLoop_keeps (this : Client) (n : ℕ) :
    Keeps (displaying this) Unregistered (displayLoop this n) false := by
  have hunregister : ∀ registered, registered = true → Keeps (displaying this) Unregistered
      (ask (.call (.unregisterDisplay this)) >>= fun _ => done (.ok ())) registered := by
    rintro _ rfl
    refine ⟨rfl, fun r hr => ?_⟩
    obtain rfl : r = .ok none := hr
    rfl
  refine ⟨rfl, fun r hr => ?_⟩
  obtain rfl : r = .ok none := hr
  show Keeps _ _ (handle _ (loop displayTurn n) >>= _) true
  refine Keeps.bind (Keeps.handle (Keeps.loop (I := (· = true)) (fun registered hreg => ?_) n rfl))
  subst hreg
  refine (displayTurn_keeps this).mono ?_
  rintro ((e | _) | goOn) registered ⟨hdef, hreg⟩
  · exact hunregister registered hreg
  · exact absurd rfl hdef
  · cases goOn with
    | true => exact hreg
    | false => exact hunregister registered hreg

/-- The handler of `chat` does nothing. -/
theorem keeps_quietly {P : Protocol Act Act.Answer Bool} {p : Proc Unit} {registered : Bool}
    (h : Keeps P Unregistered p registered) :
    Keeps P Unregistered (handle (fun _ => return ()) p) registered := by
  refine Keeps.handle (h.mono ?_)
  rintro ((e | _) | _) registered h <;> exact h

theorem entered_display_keeps (this : Client) (n : ℕ) :
    Keeps (displaying this) Unregistered (entered this n .display) false :=
  keeps_quietly (displayLoop_keeps this n)

/-! ### Sessions -/

/-- A request is no registration. -/
theorem request_allowed {msg : Message} {op : Op} (hop : requestOf msg = some op) (this : Client) :
    AllowedSession this false (.call op) ∧ registeredAfter false (.call op) = false := by
  obtain ⟨hreg, hunreg⟩ := requestOf_ne hop
  cases op with
  | registerDisplay c => exact absurd rfl (hreg c)
  | unregisterDisplay c => exact absurd rfl (hunreg c)
  | _ => exact ⟨trivial, rfl⟩

/-- An updater never registers. -/
theorem serving_keeps (this : Client) (n : ℕ) :
    Keeps (conversing this) Unregistered (serving n) false := by
  induction n with
  | zero => trivial
  | succ n ih =>
    have hreply : ∀ reply, Keeps (conversing this) Unregistered (goOn n (replying reply)) false := by
      intro reply
      rw [replying]
      rcases sendMessage_cases reply with h | ⟨text, h⟩ <;> rw [h]
      · exact ih
      · exact ⟨trivial, fun _ _ => ih⟩
    rw [serving_succ]
    refine ⟨trivial, fun r _ => ?_⟩
    show Keeps _ _ (hear n (heard r)) false
    rcases heard_cases r with ⟨raw, msg, -, hmsg, htext⟩ | ⟨e, he⟩
    case inr => rw [he]; rfl
    rw [hmsg, hear]
    cases hop : requestOf msg with
    | some op =>
      rw [goOn_request htext hop]
      obtain ⟨hallowed, hafter⟩ := request_allowed hop this
      refine ⟨hallowed, fun out _ => ?_⟩
      show Keeps _ _ (goOn n (afterCall op out)) (registeredAfter false (.call op))
      rw [hafter]
      cases hr : replyTo op out with
      | some reply => rw [afterCall_reply hr]; exact hreply reply
      | none =>
        rcases out with e | v
        · rw [afterCall_throws hr]
          cases e <;> rfl
        · unfold afterCall
          rw [hr]
          rfl
    | none =>
      by_cases ht : msg.type = .quit
      · rw [goOn_quit ht]
        exact ⟨trivial, fun _ _ => rfl⟩
      · rw [goOn_unexpected htext hop ht]
        exact ⟨trivial, fun _ _ => ih⟩

/-- A session never ends with its client registered. -/
theorem chat_keeps (this : Client) (n : ℕ) :
    Keeps (conversing this) Unregistered (chat this n) false := by
  rw [chat_eq]
  refine ⟨trivial, fun r _ => ?_⟩
  show Keeps _ _ (letIn this n (heard r)) false
  rcases heard_cases r with ⟨raw, msg, -, hmsg, htext⟩ | ⟨e, he⟩
  case inr => rw [he]; rfl
  rw [hmsg, letIn]
  split
  case isFalse => rfl
  split
  case isFalse => exact ⟨trivial, fun _ _ => rfl⟩
  refine ⟨trivial, fun _ _ => ?_⟩
  cases hmode : msg.clientMode with
  | display =>
    refine Keeps.weaken ?_ ?_ ?_ (entered_display_keeps this n)
    · rintro (_ | _) a ha
      · cases a with
        | call op => obtain rfl : op = .registerDisplay this := ha; rfl
        | receive => exact ha.elim
        | send => trivial
        | dequeue => trivial
      · exact ha
    · exact fun _ _ _ h => h
    · exact fun _ _ _ => rfl
  | updater => exact serving_keeps this n
  | invalid => rfl

end Restaurant.Session
