import RestaurantOrder.Session.Chat

/-! What a thread does next, turn by turn.

    The lemmas here rewrite the code of the session to the actions that it comes to. In the loop of an
    updater a frame is answered in one of four ways, and the later modules use nothing else:

        request      call, send the reply, next turn
        QUIT         send bye, end
        other type   send ERROR, next turn
        no message   end -/

namespace Restaurant.Session
open Schemes Process

/-- `decode` into a fresh message. -/
def decoded (raw : Bytes) : Cpp Message := runOn {} (Wire.decode raw)

/-- The operation that a request asks for. -/
def requestOf (msg : Message) : Option Op :=
  match msg.type with
  | .orderNew => msg.order.map .newOrder
  | .itemUpdate => some (.itemUpdate msg.orderId msg.itemId msg.itemStatus)
  | .orderUpdate => some (.orderUpdate msg.orderId msg.orderStatus)
  | _ => none

/-- The reply to a request, unless the operation ends the session. -/
def replyTo : Op → Out → Option Message
  | .newOrder _, .ok (some id) => some (.ofStr .ok (ascii "Created order id " ++ toStr id))
  | .itemUpdate .., .ok _ => some (.ofStr .ok (ascii "successful item update"))
  | .itemUpdate .., .error (.semanticError what) => some (.ofStr .error what)
  | .orderUpdate .., .ok _ => some (.ofStr .ok (ascii "successful order update"))
  | .orderUpdate .., .error (.semanticError what) => some (.ofStr .error what)
  | _, _ => none

def welcome : Message := .ofStr .ok (ascii "Login successful")

def refusal : Message := .ofStr .error (ascii "Invalid credentials")

def bye : Message := .ofStr .ok (ascii "bye")

def unexpected : Message := .ofStr .error (ascii "Updater: unexpected message type")

/-! ### Messages -/

theorem sendMessage_eq {msg : Message} (h : Wire.hasFields msg) :
    sendMessage msg = act (.send (Wire.messageStr msg)) fun r => done (.ok r.isOk) := by
  rw [sendMessage, runOn_ok (Wire.exec_encode h [])]
  show act (Act.send (Wire.messageStr msg)) _ = _
  congr 1
  funext r
  cases r <;> rfl

/-- A frame is read as a message that its text stands for, or rejected. -/
theorem decoded_cases (raw : Bytes) :
    (∃ msg, decoded raw = .ok msg ∧ Wire.MessageText Spelled msg raw) ∨
      ∃ what, decoded raw = raise (.invalidMessage what) := by
  rcases Wire.decode_cases raw {} with ⟨m, hrun, htext⟩ | ⟨what, hrun⟩
  · exact Or.inl ⟨m, runOn_ok hrun, htext⟩
  · exact Or.inr ⟨what, runOn_error hrun⟩

theorem decoded_iff {raw : Bytes} {msg : Message} :
    decoded raw = .ok msg ↔ Wire.MessageText Spelled msg raw := by
  constructor
  · intro h
    rcases decoded_cases raw with ⟨msg', h', htext⟩ | ⟨what, h'⟩
    · obtain rfl := Except.ok.inj (h.symm.trans h')
      exact htext
    · cases h.symm.trans h'
  · exact fun h => runOn_ok (Wire.decode_text h {})

/-! ### The loop of an updater -/

/-- A reply that goes out, after which the loop goes on. -/
def replying (reply : Message) : Proc Bool := do
  let _ ← sendMessage reply
  return true

/-- The rest of a turn after the operation. -/
def afterCall (op : Op) (out : Out) : Proc Bool :=
  match replyTo op out with
  | some reply => replying reply
  | none =>
    match out with
    | .error e => raise e
    | .ok _ => .done (.error .undefined)

theorem afterCall_reply {op : Op} {out : Out} {reply : Message} (h : replyTo op out = some reply) :
    afterCall op out = replying reply := by
  unfold afterCall
  rw [h]

theorem afterCall_throws {op : Op} {e : Exception} (h : replyTo op (.error e) = none) :
    afterCall op (.error e) = raise e := by
  unfold afterCall
  rw [h]

theorem respond_quit {msg : Message} (ht : msg.type = .quit) :
    respond msg = act (.send (Wire.messageStr bye)) fun _ => done (.ok false) := by
  have hbye : sendMessage (.ofStr .ok (ascii "bye")) = _ := sendMessage_eq (rfl : Wire.hasFields bye)
  rw [respond, if_pos ht, hbye]
  rfl

/-- An update calls its operation, and replies to a SemanticError as to a result. -/
theorem handle_update {op : Op} {what : String} (hne : what ≠ "")
    (hop : ∀ v, replyTo op (.ok v) = some (.ofStr .ok (ascii what)))
    (hthrow : ∀ e, replyTo op (.error e) = match e with
      | .semanticError what => some (.ofStr .error what)
      | _ => none) :
    (handle replySemanticError do
      let _ ← ask (.call op)
      let _ ← sendMessage (.ofStr .ok (ascii what))
      return true) = act (.call op) (afterCall op) := by
  have hfields : Wire.hasFields (.ofStr .ok (ascii what)) := by
    show (!(ascii what).isEmpty) = true
    simpa [ascii] using hne
  show act (Act.call op) _ = _
  congr 1
  funext out
  rcases out with e | v
  · cases e with
    | semanticError what => rw [afterCall_reply (hthrow _)]; rfl
    | _ => rw [afterCall_throws (hthrow _)]; rfl
  · rw [afterCall_reply (hop v), replying, sendMessage_eq hfields]
    rfl

/-- A well-formed request is carried out. -/
theorem respond_request {msg : Message} {raw : Bytes} (h : Wire.MessageText Spelled msg raw) {op : Op}
    (hop : requestOf msg = some op) : respond msg = act (.call op) (afterCall op) := by
  cases h with
  | login => cases hop
  | string ht => rcases ht with rfl | rfl | rfl <;> cases hop
  | heartbeat => cases hop
  | @order _ o _ ht ho =>
    rcases ht with rfl | rfl
    · obtain rfl := Option.some.inj hop
      show act (Act.call (.newOrder o)) _ = _
      congr 1
      funext out
      rcases out with e | _ | id <;> rfl
    · cases hop
  | @itemUpdate _ k i st _ _ ht hk hi hst =>
    rcases ht with rfl | rfl
    · obtain rfl := Option.some.inj hop
      have hfields : (!(Message.ofItemStatus .itemUpdate k i st).hasOrderId ||
          !(Message.ofItemStatus .itemUpdate k i st).hasItemId ||
          !(Message.ofItemStatus .itemUpdate k i st).hasItemStatus) = false := by
        simp [Message.ofItemStatus, Message.hasOrderId, Message.hasItemId, Message.hasItemStatus,
          Wire.zero_le_of_pos hk.1, Wire.zero_le_of_pos hi.1, hst]
      rw [respond, hfields]
      refine handle_update (by decide) (fun _ => rfl) fun e => ?_
      cases e <;> rfl
    · cases hop
  | @orderUpdate _ k st _ ht hk hst =>
    rcases ht with rfl | rfl
    · obtain rfl := Option.some.inj hop
      have hfields : (!(Message.ofOrderStatus .orderUpdate k st).hasOrderId ||
          !(Message.ofOrderStatus .orderUpdate k st).hasOrderStatus) = false := by
        simp [Message.ofOrderStatus, Message.hasOrderId, Message.hasOrderStatus,
          Wire.zero_le_of_pos hk.1, hst]
      rw [respond, hfields]
      refine handle_update (by decide) (fun _ => rfl) fun e => ?_
      cases e <;> rfl
    · cases hop

/-- A message of any other type is answered with an ERROR. -/
theorem respond_unexpected {msg : Message} {raw : Bytes} (h : Wire.MessageText Spelled msg raw)
    (hop : requestOf msg = none) (ht : msg.type ≠ .quit) :
    respond msg = act (.send (Wire.messageStr unexpected)) fun _ => done (.ok true) := by
  have hsend : sendMessage unexpected = _ := sendMessage_eq (rfl : Wire.hasFields unexpected)
  have hother : msg.type ≠ .orderNew ∧ msg.type ≠ .itemUpdate ∧ msg.type ≠ .orderUpdate := by
    cases h with
    | login => exact ⟨nofun, nofun, nofun⟩
    | string hs => rcases hs with rfl | rfl | rfl <;> exact ⟨nofun, nofun, nofun⟩
    | heartbeat => exact ⟨nofun, nofun, nofun⟩
    | order hs =>
      rcases hs with rfl | rfl
      · cases hop
      · exact ⟨nofun, nofun, nofun⟩
    | itemUpdate hs =>
      rcases hs with rfl | rfl
      · cases hop
      · exact ⟨nofun, nofun, nofun⟩
    | orderUpdate hs =>
      rcases hs with rfl | rfl
      · cases hop
      · exact ⟨nofun, nofun, nofun⟩
  obtain ⟨hnew, hitem, horder⟩ := hother
  rw [respond, if_neg ht, if_neg hnew, if_neg hitem, if_neg horder, ← unexpected, hsend]
  rfl

/-! ### What an updater says -/

/-- The fixed texts that the thread of an updater sends. -/
def phrases : List (MessageType × String) :=
  [(.ok, "Login successful"), (.error, "Invalid credentials"), (.ok, "bye"),
    (.ok, "successful item update"), (.ok, "successful order update"),
    (.error, "Updater: unexpected message type")] ++ Server.refusals.map fun what => (.error, what)

inductive Spoken : Message → Prop
  | phrase {type text} (h : (type, text) ∈ phrases) : Spoken (.ofStr type (ascii text))
  | created {id : Int32} (hid : 0 < id) :
      Spoken (.ofStr .ok (ascii "Created order id " ++ toStr id))

theorem phrase_text : ∀ p ∈ phrases, (p.1 = .ok ∨ p.1 = .error) ∧ ascii p.2 ≠ [] ∧
    byte '|' ∉ ascii p.2 ∧ (Wire.messageStr (.ofStr p.1 (ascii p.2))).length ≤ 9998 ∧
    byte 'D' ∉ Wire.messageStr (.ofStr p.1 (ascii p.2)) := by
  decide +kernel

/-- What is said is an OK or an ERROR that can be sent and read back, and has no `D` in it. -/
theorem Spoken.text {m : Message} (h : Spoken m) : (m.type = .ok ∨ m.type = .error) ∧
    Wire.Sendable m ∧ (Wire.messageStr m).length ≤ 9998 ∧ byte 'D' ∉ Wire.messageStr m := by
  cases h with
  | @phrase type text hp =>
    obtain ⟨htype, hne, hbar, hlen, hD⟩ := phrase_text _ hp
    exact ⟨htype, .string (Or.inr htype) hne hbar, hlen, hD⟩
  | @created id hid =>
    have hdigits := (digits_toStr hid).2.1
    have hnot : ∀ b, isDigit b = false → b ∉ toStr id := fun b hb hm => by
      rw [hdigits b hm] at hb; cases hb
    have hlen : (toStr id).length ≤ 10 := by
      have hlt := id.toInt_lt
      have habs := toInt_natAbs hid
      rw [toStr, if_neg (by omega), length_decimal_le (by decide)]
      omega
    have hstr : Wire.messageStr (.ofStr .ok (ascii "Created order id " ++ toStr id))
        = ascii "OK|Created order id " ++ toStr id := by
      show join (byte '|') [ascii "OK", ascii "Created order id " ++ toStr id] = _
      rw [Wire.join_head _ (by simp), Wire.join_one, ← List.append_assoc]
      congr 1
    refine ⟨Or.inl rfl, .string (Or.inr (Or.inl rfl)) (by simp [ascii]) ?_, ?_, ?_⟩
    · rw [List.mem_append, not_or]
      exact ⟨by decide, hnot _ rfl⟩
    · rw [hstr, List.length_append]
      have : (ascii "OK|Created order id ").length = 20 := by decide
      omega
    · rw [hstr, List.mem_append, not_or]
      exact ⟨by decide, hnot _ rfl⟩

theorem welcome_short : (Wire.messageStr welcome).length ≤ 9998 :=
  (Spoken.phrase (by simp [phrases]) : Spoken welcome).text.2.2.1

theorem unexpected_short : (Wire.messageStr unexpected).length ≤ 9998 :=
  (Spoken.phrase (by simp [phrases]) : Spoken unexpected).text.2.2.1

/-- A request is no registration. -/
theorem requestOf_ne {msg : Message} {op : Op} (hop : requestOf msg = some op) :
    (∀ c, op ≠ .registerDisplay c) ∧ ∀ c, op ≠ .unregisterDisplay c := by
  rw [requestOf] at hop
  constructor <;> rintro c rfl <;> split at hop <;> simp at hop

/-- A request is answered: with OK if the operation took effect, with ERROR if it threw. -/
theorem step_replies {msg : Message} {op : Op} (hop : requestOf msg = some op) {s s' : Server}
    (hs : s.Good) {out : Out} (h : Server.machine.step s op = some (out, s')) :
    ∃ reply, replyTo op out = some reply ∧ Spoken reply ∧
      (reply.type = .ok ∧ s' ≠ s ∨
        reply.type = .error ∧ s' = s ∧ ∃ what, out = .error (.semanticError what)) := by
  obtain ⟨hreg, hunreg⟩ := requestOf_ne hop
  rcases out with e | v
  · obtain ⟨rfl, what, hwhat, rfl⟩ := Server.step_throws hs h
    have hspoken : Spoken (.ofStr .error (ascii what)) :=
      .phrase (List.mem_append_right _ (List.mem_map_of_mem hwhat))
    cases Server.step_took hs h with
    | itemRefused => exact ⟨_, rfl, hspoken, Or.inr ⟨rfl, rfl, _, rfl⟩⟩
    | orderRefused => exact ⟨_, rfl, hspoken, Or.inr ⟨rfl, rfl, _, rfl⟩⟩
  · cases Server.step_took hs h with
    | @placed o its hits hmax =>
      have hpos : 0 < s.nextOrderId := by
        have := hs.next
        rw [Int32.lt_iff_toInt_lt, Int32.toInt_zero]
        omega
      refine ⟨_, rfl, .created hpos, Or.inl ⟨rfl, fun he => ?_⟩⟩
      have hnext := congrArg (fun s => s.nextOrderId.toInt) he
      simp only [Server.tell_nextOrderId, Server.setOrder_nextOrderId, Server.toInt_succ hmax] at hnext
      omega
    | @itemUpdated k itemId st o its i it ho hits hi hit hst =>
      refine ⟨_, rfl, .phrase (by simp [phrases]), Or.inl ⟨rfl, fun he => ?_⟩⟩
      have hk := congrArg (fun s => s.orders[k]?) he
      simp only [Server.tell_orders, Server.getElem?_setOrder_self, ho] at hk
      have hitems := congrArg Order.items (Option.some.inj hk)
      rw [hits] at hitems
      have hsame : (Server.updatedItems its i st)[i]? = its[i]? := by
        rw [List.map_injective_iff.mpr (Option.some_injective _) hitems]
      rw [Server.getElem?_updatedItems, if_pos rfl, hit] at hsame
      exact hst.ne (congrArg Item.status (Option.some.inj hsame))
    | @delivered k o ho hdone =>
      refine ⟨_, rfl, .phrase (by simp [phrases]), Or.inl ⟨rfl, fun he => ?_⟩⟩
      have hk := congrArg (fun s => s.orders[k]?) he
      simp only [Server.tell_orders, Server.getElem?_eraseOrder_self, ho] at hk
      cases hk
    | @registered c => exact absurd rfl (hreg c)
    | @unregistered c => exact absurd rfl (hunreg c)

/-! ### The whole session -/

/-- The loop of an updater, in the `try` block of `chat`. -/
def serving (n : ℕ) : Proc Unit := handle (fun _ => return ()) (updaterLoop n)

/-- The rest of a turn of that loop, and the turns behind it. -/
def goOn (n : ℕ) (turn : Proc Bool) : Proc Unit :=
  handle (fun _ => return ())
    (handle stopRunning turn >>= fun running => if running then updaterLoop n else done (.ok ()))

/-- The message that was received. -/
def heard (r : Except Exception Bytes) : Cpp Message := answered r >>= decoded

/-- A turn of that loop, once something has been received. -/
def hear (n : ℕ) : Cpp Message → Proc Unit
  | .ok msg => goOn n (respond msg)
  | .error _ => done (.ok ())

/-- The loop behind a login with a mode, in the `try` block of `chat`. -/
def entered (this : Client) (n : ℕ) (mode : ClientMode) : Proc Unit :=
  handle (fun _ => return ()) (if mode = .display then displayLoop this n
    else if mode = .updater then updaterLoop n else protocolError "invalid client mode")

/-- The session, once something has been received as the login. -/
def letIn (this : Client) (n : ℕ) : Cpp Message → Proc Unit
  | .ok msg =>
    if msg.type = .login ∧ msg.hasClientMode ∧ msg.hasStr then
      if PasswordDB.authenticate msg.str then
        act (.send (Wire.messageStr welcome)) fun _ => entered this n msg.clientMode
      else act (.send (Wire.messageStr refusal)) fun _ => done (.ok ())
    else done (.ok ())
  | .error _ => done (.ok ())

theorem heard_cases (r : Except Exception Bytes) :
    (∃ raw msg, r = .ok raw ∧ heard r = .ok msg ∧ Wire.MessageText Spelled msg raw) ∨
      ∃ e, heard r = raise e := by
  rcases r with e | raw
  · exact Or.inr ⟨e, rfl⟩
  · rcases decoded_cases raw with ⟨msg, hmsg, htext⟩ | ⟨what, hmsg⟩
    · exact Or.inl ⟨raw, msg, rfl, hmsg, htext⟩
    · exact Or.inr ⟨_, hmsg⟩

theorem serving_succ (n : ℕ) : serving (n + 1) = act Act.receive fun r => hear n (heard r) := by
  show act Act.receive _ = _
  congr 1
  funext r
  rcases r with e | raw
  · cases e <;> rfl
  · show goOn n (done (decoded raw) >>= respond) = hear n (decoded raw)
    rcases decoded_cases raw with ⟨msg, hmsg, -⟩ | ⟨what, hmsg⟩ <;> rw [hmsg] <;> rfl

theorem serving_ne_done (k : ℕ) (r : Cpp Unit) : serving k ≠ done r := by
  cases k with
  | zero => exact nofun
  | succ k => rw [serving_succ]; exact nofun

theorem goOn_quit {msg : Message} (ht : msg.type = .quit) (n : ℕ) :
    goOn n (respond msg) = act (.send (Wire.messageStr bye)) fun _ => done (.ok ()) := by
  rw [respond_quit ht]
  rfl

theorem goOn_request {msg : Message} {raw : Bytes} (h : Wire.MessageText Spelled msg raw) {op : Op}
    (hop : requestOf msg = some op) (n : ℕ) :
    goOn n (respond msg) = act (Act.call op) fun out => goOn n (afterCall op out) := by
  rw [respond_request h hop]
  rfl

theorem goOn_unexpected {msg : Message} {raw : Bytes} (h : Wire.MessageText Spelled msg raw)
    (hop : requestOf msg = none) (ht : msg.type ≠ .quit) (n : ℕ) :
    goOn n (respond msg) = act (.send (Wire.messageStr unexpected)) fun _ => serving n := by
  rw [respond_unexpected h hop ht]
  rfl

theorem goOn_reply {op : Op} {out : Out} {reply : Message} (h : replyTo op out = some reply)
    (hspoken : Spoken reply) (n : ℕ) :
    goOn n (afterCall op out) = act (.send (Wire.messageStr reply)) fun _ => serving n := by
  rw [afterCall_reply h, replying, sendMessage_eq hspoken.text.2.1.text.1]
  rfl

theorem chat_eq (this : Client) (n : ℕ) :
    chat this n = act Act.receive fun r => letIn this n (heard r) := by
  have hsend : sendMessage welcome = _ := sendMessage_eq (rfl : Wire.hasFields welcome)
  have hrefuse : sendMessage refusal = _ := sendMessage_eq (rfl : Wire.hasFields refusal)
  show act Act.receive _ = _
  congr 1
  funext r
  rcases r with e | raw
  · rfl
  show handle _ (done (decoded raw) >>= _) = letIn this n (decoded raw)
  rcases decoded_cases raw with ⟨msg, hmsg, -⟩ | ⟨what, hmsg⟩ <;> rw [hmsg]
  case inr => rfl
  simp only [Process.ok_bind, letIn]
  by_cases hlogin : msg.type = .login ∧ msg.hasClientMode ∧ msg.hasStr
  · obtain ⟨ht, hmode, hstr⟩ := hlogin
    simp only [ht, hmode, hstr, ne_eq, not_true_eq_false, Bool.not_true, Bool.or_self, and_self,
      Bool.false_eq_true, if_true, if_false]
    cases PasswordDB.authenticate msg.str
    · simp only [Bool.not_false, if_true, Bool.false_eq_true, if_false]
      rw [show Message.ofStr .error (ascii "Invalid credentials") = refusal from rfl, hrefuse]
      rfl
    · simp only [Bool.not_true, if_true, Bool.false_eq_true, if_false]
      rw [show Message.ofStr .ok (ascii "Login successful") = welcome from rfl, hsend]
      rfl
  · rw [if_neg hlogin]
    by_cases ht : msg.type = .login
    · have hmissing : (!msg.hasClientMode || !msg.hasStr) = true := by
        rw [← Bool.not_and, Bool.not_eq_true', Bool.and_eq_false_iff]
        simpa [ht, imp_iff_not_or] using hlogin
      rw [if_neg (not_not.mpr ht), if_pos hmissing]
      rfl
    · rw [if_pos ht]
      rfl

end Restaurant.Session
