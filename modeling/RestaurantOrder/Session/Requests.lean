import RestaurantOrder.Session.Gate
import Mathlib.Data.Set.List

/-! How an updater is served.

    The frames behind the login are taken one at a time. Each request among them is called once and
    answered once before the next frame is read, up to the first QUIT, the first frame that is no
    message, or the end of the input (`requests_answered`).

        request  received, called, sent OK or ERROR   ──▶ next frame
        QUIT     received, sent OK                    ──▶ end
        else     received                             ──▶ end -/

namespace Restaurant.Session
open Schemes Process
open Framing (frame)
open Wire (MessageText messageStr)

/-- The text is a message of one of the four types that an updater may send. -/
def Serviceable (raw : Bytes) : Prop :=
  ∃ msg, decoded raw = .ok msg ∧ (msg.type = .orderNew ∨ msg.type = .itemUpdate ∨
    msg.type = .orderUpdate ∨ msg.type = .quit)

/-- The input does not go on with a frame that is a message. -/
def Stops (rest : Bytes) : Prop :=
  ∀ raw r, rest = frame raw ++ r → raw.length ≤ 9998 → ∀ msg, decoded raw ≠ .ok msg

/-- A request was carried out with the arguments read, and its one reply says what became of it. -/
structure Exchange.Truthful (x : Exchange) : Prop where
  read : decoded x.raw = .ok x.msg
  op : requestOf x.msg = some x.op
  call : Server.machine.step x.before x.op = some (x.out, x.after)
  ok : x.reply.type = .ok ↔ x.after ≠ x.before
  error : x.reply.type = .error ↔ ∃ what, x.out = .error (.semanticError what)
  created : ∀ o, x.op = .newOrder o → ∃ id its, o.items = its.map some ∧
    x.reply = .ofStr .ok (ascii "Created order id " ++ toStr id) ∧
    x.before.orders[id]? = none ∧ x.after.orders[id]? = some (Server.placedOrder id its)
  encoded : ∀ r, exec (Wire.encode x.reply) r = (.ok (), messageStr x.reply)
  readBack : ∀ m, exec (Wire.decode (messageStr x.reply)) m = (.ok (), x.reply)

/-- What has happened with the frame in hand, and whether the session is over with it. -/
inductive InHand (rest : Bytes) : List Bytes → List Happening → Bool → Prop
  | nothing {left} : InHand rest left [] false
  | asked {raw left} : InHand rest (raw :: left) [.received (.ok raw)] false
  | called {x left} (h : Exchange.Truthful x) : InHand rest (x.raw :: left)
      [.received (.ok x.raw), .called x.op x.out x.before x.after] false
  | bye {raw left} (h : Quits raw) : InHand rest (raw :: left)
      [.received (.ok raw), .sent (messageStr bye) (.ok ())] true
  | stopped {r} (h : Reading rest r) : InHand rest [] [.received r] true

/-! ### Exchanges -/

/-- The id that an order is given is new, and the order is stored under it. -/
theorem placed_order {s s' : Server} (hs : s.Good) {o : Order} {out : Out}
    (h : Server.machine.step s (.newOrder o) = some (out, s')) : ∃ id its, out = .ok (some id) ∧
      o.items = its.map some ∧ s.orders[id]? = none ∧
      s'.orders[id]? = some (Server.placedOrder id its) := by
  cases Server.step_took hs h with
  | @placed o its hits hmax =>
    refine ⟨_, its, rfl, hits, ?_, ?_⟩
    · cases hold : s.orders[s.nextOrderId]? with
      | none => rfl
      | some old => exact absurd (hs.issued _ old hold).2 (lt_irrefl _)
    · rw [Server.tell_orders, Server.getElem?_setOrder_self]

theorem Exchange.Holds.truthful {x : Exchange} (h : x.Holds) : x.Truthful := by
  obtain ⟨reply, hreply, hspoken, hcase⟩ := step_replies h.op h.good h.call
  obtain rfl : x.reply = reply := Option.some.inj (h.reply.symm.trans hreply)
  have hsend := hspoken.text.2.1
  refine ⟨decoded_iff.mpr h.text, h.op, h.call, ?_, ?_, ?_, Wire.exec_encode hsend.text.1,
    Wire.decode_messageStr hsend⟩
  · rcases hcase with ⟨hok, hne⟩ | ⟨herror, heq, -⟩
    · exact iff_of_true hok hne
    · rw [herror]
      exact iff_of_false nofun (not_not.mpr heq)
  · rcases hcase with ⟨hok, hne⟩ | ⟨herror, heq, hthrow⟩
    · rw [hok]
      refine iff_of_false nofun ?_
      rintro ⟨what, hout⟩
      have hcall := h.call
      rw [hout] at hcall
      exact hne (Server.step_throws h.good hcall).1
    · exact iff_of_true herror hthrow
  · intro o hop
    have hcall := h.call
    rw [hop] at hcall
    obtain ⟨id, its, hout, hits, hnew, hstored⟩ := placed_order h.good hcall
    rw [hop, hout] at hreply
    exact ⟨id, its, hits, (Option.some.inj hreply).symm, hnew, hstored⟩

/-! ### What was received -/

/-- The messages received are texts of the input, in order, and the input has no others. -/
theorem Received.messages {ts : List Bytes} {rest : Bytes} {es : List Happening} {conn : Connection}
    (h : Received ts rest es conn) (hrest : Stops rest) {raws : List Bytes}
    (hraws : ∀ raw ∈ raws, ∃ msg, MessageText Spelled msg raw) {post : List (Except Exception Bytes)}
    (hes : es.filterMap receivedOf = raws.map .ok ++ post) : raws <+: ts := by
  have hinj : Function.Injective (Except.ok : Bytes → Except Exception Bytes) :=
    fun _ _ h => Except.ok.inj h
  rcases h with ⟨m, hm, hL, -⟩ | ⟨r, rs, hL, hread⟩
  · have hpre : raws.map Except.ok <+: (ts.take m).map (Except.ok : Bytes → Except Exception Bytes) :=
      ⟨post, hes.symm.trans hL⟩
    exact ((List.prefix_map_iff_of_injective hinj).mp hpre).trans (List.take_prefix m ts)
  · have hnot : r ∉ raws.map Except.ok := by
      intro hmem
      obtain ⟨raw, hraw, rfl⟩ := List.mem_map.mp hmem
      obtain ⟨msg, hmsg⟩ := hraws raw hraw
      obtain ⟨r', hcont, hlen⟩ := hread
      exact hrest raw r' hcont hlen msg (decoded_iff.mpr hmsg)
    have hpre : raws.map Except.ok <+: ts.map Except.ok ++ r :: rs := ⟨post, hes.symm.trans hL⟩
    have hpre' : ts.map Except.ok ++ [r] <+: ts.map Except.ok ++ r :: rs := ⟨rs, by simp⟩
    rcases List.prefix_or_prefix_of_prefix hpre hpre' with hle | hle
    · rcases List.prefix_concat_iff.mp hle with heq | hle
      · exact absurd (heq ▸ List.mem_append_right _ (List.mem_singleton_self r)) hnot
      · exact (List.prefix_map_iff_of_injective hinj).mp hle
    · exact absurd (hle.subset (List.mem_append_right _ (List.mem_singleton_self r))) hnot

/-- What is received and is no message stands behind all of the texts. -/
theorem Received.stopped {ts : List Bytes} {rest : Bytes} {es : List Happening} {conn : Connection}
    (h : Received ts rest es conn) (hrest : Stops rest)
    (hts : ∀ t ∈ ts, ∃ msg, MessageText Spelled msg t) {raws : List Bytes}
    (hraws : ∀ raw ∈ raws, ∃ msg, MessageText Spelled msg raw) {r : Except Exception Bytes}
    (hr : Malformed r) (hes : es.filterMap receivedOf = raws.map .ok ++ [r]) :
    raws = ts ∧ Reading rest r := by
  have hnot : ∀ t ∈ ts, r ≠ .ok t := by
    rintro t ht rfl
    obtain ⟨msg, hmsg⟩ := hts t ht
    exact hr t rfl msg hmsg
  obtain ⟨us, rfl⟩ := h.messages hrest hraws hes
  rcases h with ⟨m, hm, hL, -⟩ | ⟨r', rs, hL, hread⟩
  · have hmem : r ∈ ((raws ++ us).take m).map Except.ok := by
      rw [← hL, hes]
      exact List.mem_append_right _ (List.mem_singleton_self r)
    obtain ⟨t, ht, htr⟩ := List.mem_map.mp hmem
    exact absurd htr.symm (hnot t (List.mem_of_mem_take ht))
  · rw [hes, List.map_append, List.append_assoc, List.append_cancel_left_eq] at hL
    cases us with
    | nil =>
      obtain ⟨rfl, -⟩ := List.cons.inj hL
      exact ⟨(List.append_nil raws).symm, hread⟩
    | cons u us =>
      obtain ⟨hru, -⟩ := List.cons.inj hL
      exact absurd hru (hnot u (by simp))

/-! ### What was sent -/

/-- On an open descriptor all that is short enough is sent. -/
theorem run_open {this : Client} {start : Scene} (hs : start.server.Good)
    (hopen : start.conn.outfd.Open) {moves : List Move} {outs : List (Option Happening)}
    {scene : Scene} (h : (among this start).run moves = some (outs, scene)) :
    ∀ text r, Happening.sent text r ∈ happenings outs → text.length ≤ 9998 → r = .ok () := by
  refine ((run_inv (A := fun _ => True) (P := fun es scene => scene.conn.outfd.Open ∧
    ∀ text r, Happening.sent text r ∈ es → text.length ≤ 9998 → r = .ok ()) hs ⟨hopen, by simp⟩ ?_
    (fun _ _ _ _ _ hsent _ _ _ => hsent) (fun _ _ => trivial) h).2).2
  rintro es scene wake a k re ⟨hopen, hsent⟩ _ _ hre
  have hold : ∀ text r, Happening.sent text r ∈ es ++ [re.happening] →
      Happening.sent text r ≠ re.happening → text.length ≤ 9998 → r = .ok () := by
    intro text r hmem hne
    rcases List.mem_append.mp hmem with hmem | hmem
    · exact hsent text r hmem
    · exact absurd (List.mem_singleton.mp hmem) hne
  cases a with
  | receive =>
    obtain ⟨r', infd, hre', -⟩ := react_receive this wake scene.conn scene.server
    obtain rfl := Option.some.inj (hre'.symm.trans hre)
    exact ⟨hopen, fun text r hmem => hold text r hmem nofun⟩
  | send text' =>
    obtain ⟨r', outfd, part, hre', -, -, hsend⟩ := react_send this wake scene.conn scene.server text'
    obtain rfl := Option.some.inj (hre'.symm.trans hre)
    refine ⟨(hsend hopen).1, fun text r hmem hlen => ?_⟩
    by_cases he : Happening.sent text r = .sent text' r'
    · obtain ⟨rfl, rfl⟩ := Happening.sent.inj he
      exact ((hsend hopen).2 hlen).1
    · exact hold text r hmem he hlen
  | call op =>
    obtain ⟨out, server', -, rfl⟩ := react_call.mp hre
    exact ⟨hopen, fun text r hmem => hold text r hmem nofun⟩
  | dequeue =>
    obtain ⟨hhap, -, -, houtfd⟩ := react_dequeued hre
    rw [hhap] at hold ⊢
    exact ⟨houtfd ▸ hopen, fun text r hmem => hold text r hmem nofun⟩

/-! ### Turns -/

def Turn.raw : Turn → Bytes
  | .request x => x.raw
  | .scolding raw _ => raw

theorem Turn.Holds.message {t : Turn} (h : t.Holds) : ∃ msg, MessageText Spelled msg t.raw := by
  cases t with
  | request x => exact ⟨_, Exchange.Holds.text h⟩
  | scolding raw result =>
    obtain ⟨msg, htext, -⟩ := h
    exact ⟨msg, htext⟩

theorem received_turns (turns : List Turn) :
    (turns.flatMap Turn.events).filterMap receivedOf = turns.map fun t => .ok t.raw := by
  induction turns with
  | nil => rfl
  | cons t turns ih =>
    rw [List.flatMap_cons, List.filterMap_append, ih, List.map_cons]
    cases t <;> rfl

/-- An ORDER_NEW carries an order, and the order has no null items. -/
theorem orderNew_text {msg : Message} {raw : Bytes} (h : MessageText Spelled msg raw)
    (ht : msg.type = .orderNew) : ∃ o, msg.order = some o ∧ o.Full := by
  cases h with
  | login => cases ht
  | string h => rcases h with rfl | rfl | rfl <;> cases ht
  | @order type o s h ho =>
    obtain ⟨id, its, ts, -, -, hits, -⟩ := ho
    exact ⟨o, rfl, its, hits⟩
  | itemUpdate h => rcases h with rfl | rfl <;> cases ht
  | orderUpdate h => rcases h with rfl | rfl <;> cases ht
  | heartbeat => cases ht

/-- What an updater may send is a request or QUIT. -/
theorem Serviceable.cases {raw : Bytes} (h : Serviceable raw) {msg : Message}
    (htext : MessageText Spelled msg raw) : (∃ op, requestOf msg = some op) ∨ msg.type = .quit := by
  obtain ⟨msg', hmsg', ht⟩ := h
  obtain rfl := Wire.text_unique (decoded_iff.mp hmsg') htext
  rcases ht with ht | ht | ht | ht
  · obtain ⟨o, ho, -⟩ := orderNew_text htext ht
    exact Or.inl ⟨.newOrder o, by rw [requestOf, ht, ho]; rfl⟩
  · exact Or.inl ⟨_, by rw [requestOf, ht]⟩
  · exact Or.inl ⟨_, by rw [requestOf, ht]⟩
  · exact Or.inr ht

theorem Serviceable.not_unexpected {raw : Bytes} (h : Serviceable raw) : ¬Unexpected raw := by
  rintro ⟨msg, htext, hnone, hquit⟩
  rcases h.cases htext with ⟨op, hop⟩ | ht
  · cases hnone.symm.trans hop
  · exact hquit ht

theorem request_full {msg : Message} {raw : Bytes} (h : MessageText Spelled msg raw) {o : Order}
    (hop : requestOf msg = some (.newOrder o)) : o.Full := by
  have ht : msg.type = .orderNew := by
    rw [requestOf] at hop
    split at hop
    · assumption
    · cases hop
    · cases hop
    · cases hop
  obtain ⟨o', ho', hfull⟩ := orderNew_text h ht
  rw [requestOf, ht, ho'] at hop
  obtain rfl : o' = o := Op.newOrder.inj (Option.some.inj hop)
  exact hfull

/-- How far a session has come whose turns are over and whose last turn is pending. -/
theorem Pending.inHand {k : ℕ} {tail : List Happening} {p : Proc Unit} (h : Pending k tail p)
    {texts raws : List Bytes} {rest : Bytes} (htexts : ∀ t ∈ texts, Serviceable t)
    (hnone : raws <+: texts)
    (hmessage : ∀ raw, (∃ msg, MessageText Spelled msg raw) →
      tail.filterMap receivedOf = [.ok raw] → raws ++ [raw] <+: texts)
    (hstop : ∀ r, Malformed r → tail.filterMap receivedOf = [r] → raws = texts ∧ Reading rest r)
    (hsent : ∀ r, Happening.sent (messageStr bye) r ∈ tail → r = .ok ()) :
    ∃ left ended, texts = raws ++ left ∧ InHand rest left tail ended ∧
      (ended = true ↔ p = done (.ok ())) := by
  have hnext : ∀ raw, (∃ msg, MessageText Spelled msg raw) →
      tail.filterMap receivedOf = [.ok raw] → ∃ left, texts = raws ++ raw :: left := by
    intro raw hraw hes
    obtain ⟨left, rfl⟩ := hmessage raw hraw hes
    exact ⟨left, by simp⟩
  cases h with
  | listening =>
    obtain ⟨left, rfl⟩ := hnone
    exact ⟨left, false, rfl, .nothing, iff_of_false nofun (serving_ne_done k _)⟩
  | @asked k raw msg op htext hop =>
    obtain ⟨left, rfl⟩ := hnext raw ⟨msg, htext⟩ rfl
    exact ⟨_, false, rfl, .asked, iff_of_false nofun nofun⟩
  | @replying k x hx =>
    obtain ⟨left, rfl⟩ := hnext x.raw ⟨_, hx.text⟩ rfl
    exact ⟨_, false, rfl, .called hx.truthful, iff_of_false nofun nofun⟩
  | @scolding k raw hraw =>
    obtain ⟨msg, htext, -⟩ := id hraw
    obtain ⟨left, rfl⟩ := hnext raw ⟨msg, htext⟩ rfl
    exact absurd hraw (htexts raw (by simp)).not_unexpected
  | @leaving k raw hraw =>
    obtain ⟨msg, htext, -⟩ := hraw
    obtain ⟨left, rfl⟩ := hnext raw ⟨msg, htext⟩ rfl
    exact ⟨_, false, rfl, .asked, iff_of_false nofun nofun⟩
  | @left k raw r hraw =>
    obtain ⟨msg, htext, -⟩ := id hraw
    obtain ⟨left, rfl⟩ := hnext raw ⟨msg, htext⟩ rfl
    obtain rfl := hsent r (by simp)
    exact ⟨_, true, rfl, .bye hraw, iff_of_true rfl rfl⟩
  | @stopped k r hr =>
    obtain ⟨rfl, hread⟩ := hstop r hr rfl
    exact ⟨[], true, (List.append_nil _).symm, .stopped hread, iff_of_true rfl rfl⟩

/-! ### The session goes on -/

/-- A request is called, unless the ids have run out. -/
theorem moves_call {this : Client} {scene : Scene} (hs : scene.server.Good) {msg : Message}
    {raw : Bytes} (htext : MessageText Spelled msg raw) {op : Op} (hop : requestOf msg = some op)
    {k : Out → Proc Unit} (h : scene.proc = act (Act.call op) k) :
    scene.Moves this ∨ scene.server.nextOrderId = Int32.maxValue := by
  rcases Server.step_defined hs op with ⟨out, server', hstep, -⟩ | ⟨o, rfl, hnull | hmax, -⟩
  · exact Or.inl fun wake =>
      ⟨_, _, step_own.mpr ⟨.call op, k, _, h, react_call.mpr ⟨out, server', hstep, rfl⟩, rfl, rfl⟩⟩
  · exact absurd (request_full htext hop) hnull
  · exact Or.inr hmax

/-- With a turn left the session goes on, or it is over. -/
theorem Pending.moves {this : Client} {scene : Scene} (hs : scene.server.Good) {k : ℕ}
    {tail : List Happening} (h : Pending (k + 1) tail scene.proc) :
    scene.Ended ∨ scene.Moves this ∨ scene.server.nextOrderId = Int32.maxValue := by
  generalize hproc : scene.proc = p at h
  cases h with
  | listening =>
    rw [serving_succ] at hproc
    exact Or.inr (Or.inl (moves_receive hproc))
  | asked htext hop => exact Or.inr (moves_call hs htext hop hproc)
  | replying => exact Or.inr (Or.inl (moves_send hproc))
  | scolding => exact Or.inr (Or.inl (moves_send hproc))
  | leaving => exact Or.inr (Or.inl (moves_send hproc))
  | left => exact Or.inl hproc
  | stopped => exact Or.inl hproc

theorem Received.head {t : Bytes} {ts : List Bytes} {rest : Bytes} {es : List Happening}
    {conn : Connection} {r : Except Exception Bytes}
    (h : Received (t :: ts) rest (.received r :: es) conn) : r = .ok t := by
  rcases h with ⟨m, -, hL, -⟩ | ⟨r', rs, hL, -⟩
  · cases m with
    | zero => cases hL
    | succ m => exact (List.cons.inj hL).1
  · exact (List.cons.inj hL).1

/-- Turns that hold and none of which scolds are requests. -/
theorem requests_of_turns {turns : List Turn} (hturns : ∀ t ∈ turns, t.Holds)
    (hraws : ∀ t ∈ turns, Serviceable t.raw) : ∃ xs : List Exchange, turns = xs.map .request := by
  have hrange : turns ∈ Set.range (List.map Turn.request) := by
    rw [Set.range_list_map]
    intro t ht
    cases t with
    | request x => exact ⟨x, rfl⟩
    | scolding raw result => exact absurd (hturns _ ht) (hraws _ ht).not_unexpected
  obtain ⟨xs, rfl⟩ := hrange
  exact ⟨xs, rfl⟩

/-- Turns and a pending one are in order if what was received is. -/
theorem inOrder_of_turns {login : Bytes} {texts : List Bytes} {rest : Bytes} {k : ℕ}
    {turns : List Turn} {tail : List Happening} {p : Proc Unit} {r : Except Exception Unit}
    {conn : Connection} (hlogin : ∃ msg, MessageText Spelled msg login)
    (htexts : ∀ t ∈ texts, Serviceable t) (hrest : Stops rest) (hturns : ∀ t ∈ turns, t.Holds)
    (htail : Pending k tail p)
    (hrec : Received (login :: texts) rest (.received (.ok login) :: .sent (messageStr welcome) r ::
      (turns.flatMap Turn.events ++ tail)) conn)
    (hsent : ∀ m, Spoken m → ∀ r, Happening.sent (messageStr m) r ∈
      turns.flatMap Turn.events ++ tail → r = .ok ()) :
    ∃ (xs : List Exchange) (left : List Bytes) (ended : Bool), turns = xs.map .request ∧
      (∀ x ∈ xs, x.Truthful ∧ x.result = .ok ()) ∧ texts = xs.map Exchange.raw ++ left ∧
      InHand rest left tail ended ∧ (ended = true ↔ p = done (.ok ())) := by
  have hes : ∀ post, tail.filterMap receivedOf = post →
      (Happening.received (.ok login) :: .sent (messageStr welcome) r ::
        (turns.flatMap Turn.events ++ tail)).filterMap receivedOf
        = (login :: turns.map Turn.raw).map .ok ++ post := by
    rintro _ rfl
    show .ok login :: (turns.flatMap Turn.events ++ tail).filterMap receivedOf = _
    rw [List.filterMap_append, received_turns, List.map_cons, List.map_map]
    rfl
  have hraws : ∀ raw ∈ login :: turns.map Turn.raw, ∃ msg, MessageText Spelled msg raw := by
    rintro raw (_ | ⟨_, hraw⟩)
    · exact hlogin
    · obtain ⟨t, ht, rfl⟩ := List.mem_map.mp hraw
      exact (hturns t ht).message
  have hmessages : ∀ t ∈ login :: texts, ∃ msg, MessageText Spelled msg t := by
    rintro t (_ | ⟨_, ht⟩)
    · exact hlogin
    · obtain ⟨msg, hmsg, -⟩ := htexts t ht
      exact ⟨msg, decoded_iff.mp hmsg⟩
  have hpre : turns.map Turn.raw <+: texts :=
    (List.cons_prefix_cons.mp (hrec.messages hrest hraws (hes _ rfl))).2
  have hmessage : ∀ raw, (∃ msg, MessageText Spelled msg raw) →
      tail.filterMap receivedOf = [.ok raw] → turns.map Turn.raw ++ [raw] <+: texts := by
    intro raw hraw htail
    have hes' := (hes _ htail).trans (List.append_nil _).symm
    rw [← List.map_singleton, ← List.map_append] at hes'
    refine (List.cons_prefix_cons.mp (hrec.messages hrest (fun raw' hraw' => ?_) hes')).2
    rw [List.append_eq, ← List.cons_append, List.mem_append, List.mem_singleton] at hraw'
    rcases hraw' with hraw' | rfl
    · exact hraws raw' hraw'
    · exact hraw
  have hstop : ∀ r, Malformed r → tail.filterMap receivedOf = [r] →
      turns.map Turn.raw = texts ∧ Reading rest r := by
    intro r hr htail
    obtain ⟨heq, hread⟩ := hrec.stopped hrest hmessages hraws hr (hes _ htail)
    exact ⟨(List.cons.inj heq).2, hread⟩
  obtain ⟨left, ended, hleft, hhand, hended⟩ := htail.inHand htexts hpre hmessage hstop fun r hmem =>
    hsent bye (.phrase (by simp [phrases])) r (List.mem_append_right _ hmem)
  obtain ⟨xs, rfl⟩ := requests_of_turns hturns fun t ht =>
    htexts _ (hpre.subset (List.mem_map_of_mem ht))
  have hmap : (xs.map Turn.request).map Turn.raw = xs.map Exchange.raw := by
    rw [List.map_map]; rfl
  refine ⟨xs, left, ended, rfl, fun x hx => ?_, hmap ▸ hleft, hhand, hended⟩
  have hx' := hturns (.request x) (List.mem_map_of_mem hx)
  refine ⟨Exchange.Holds.truthful hx', ?_⟩
  refine hsent x.reply (Exchange.Holds.spoken hx') x.result (List.mem_append_left _ ?_)
  exact List.mem_flatMap.mpr ⟨_, List.mem_map_of_mem hx, by simp [Turn.events, Exchange.events]⟩

/-- CORRECT: an updater is served truthfully. Behind its login come frames with requests and QUITs, then
    something that is no message; all sends succeed. Whatever the others do in between, each request up
    to the first QUIT is called once with the arguments read and answered once, in order, before the next
    one is read: OK if the operation took effect, with the id under which a new order is stored, and ERROR
    if it threw. A QUIT gets one OK, what is no message gets nothing, and either ends the session, which
    then does nothing more. Every reply can be encoded and is read back. Only an overflow of the ids can
    stop the session before. -/
theorem requests_answered {this : Client} {n : ℕ} {conn : Connection} {ops : List Op}
    {outs₀ : List Out} {server : Server} (hserver : Server.machine.run ops = some (outs₀, server))
    {login : Bytes} (hlogin : Accepts .updater login) (hlen : login.length ≤ 9998)
    {texts : List Bytes} (htexts : ∀ t ∈ texts, Serviceable t ∧ t.length ≤ 9998) {rest : Bytes}
    (hrest : Stops rest) (hcont : conn.infd.content = frame login ++ (texts.flatMap frame ++ rest))
    (hopen : conn.outfd.Open) (hn : texts.length < n) {moves : List Move}
    {outs : List (Option Happening)} {scene : Scene}
    (h : (among this (opening this n conn server)).run moves = some (outs, scene)) :
    (happenings outs <+: [.received (.ok login)] ∧ ¬scene.Ended ∨
      ∃ (turns : List Exchange) (left : List Bytes) (tail : List Happening) (ended : Bool),
        happenings outs = .received (.ok login) :: .sent (messageStr welcome) (.ok ()) ::
          (turns.flatMap Exchange.events ++ tail) ∧
        (∀ x ∈ turns, x.Truthful ∧ x.result = .ok ()) ∧ texts = turns.map Exchange.raw ++ left ∧
        InHand rest left tail ended ∧ (ended = true ↔ scene.Ended)) ∧
    (∀ text ∈ (happenings outs).filterMap sentOf, ∃ msg,
      (∀ r, exec (Wire.encode msg) r = (.ok (), text)) ∧
        ∀ m, exec (Wire.decode text) m = (.ok (), msg)) ∧
    (scene.Ended → ∀ wake, (among this scene).step scene (.own wake) = none) ∧
    (scene.Ended ∨ scene.Moves this ∨ scene.server.nextOrderId = Int32.maxValue) := by
  have hs := Server.run_good hserver
  obtain ⟨hgood, hcourse⟩ := run_course hs h
  have hts : ∀ t ∈ login :: texts, t.length ≤ 9998 := by
    rintro t (_ | ⟨_, ht⟩)
    · exact hlen
    · exact (htexts t ht).2
  have hrec : Received (login :: texts) rest (happenings outs) scene.conn :=
    run_received hs hts (by rw [List.flatMap_cons, List.append_assoc]; exact hcont) h
  have hsent := run_open hs hopen h
  have hmode : ∀ mode raw rest', happenings outs = .received (.ok raw) :: rest' →
      Accepts mode raw → mode = .updater := fun mode raw rest' hes hacc =>
    (run_first hs h hes hacc).unique ⟨login, _, hcont, hlen, hlogin⟩
  have hfirst : ∀ {r es}, happenings outs = .received r :: es → r = .ok login := fun hes =>
    Received.head (hes ▸ hrec)
  have hspoken := spoken_of_served (hcourse.served hmode)
  have hreplies : ∀ text ∈ (happenings outs).filterMap sentOf, ∃ msg,
      (∀ r, exec (Wire.encode msg) r = (.ok (), text)) ∧
        ∀ m, exec (Wire.decode text) m = (.ok (), msg) := by
    intro text htext
    obtain ⟨msg, hmsg, rfl⟩ := hspoken text htext
    have hsend := hmsg.text.2.1
    exact ⟨msg, Wire.exec_encode hsend.text.1, Wire.decode_messageStr hsend⟩
  have hquiet : scene.Ended → ∀ wake, (among this scene).step scene (.own wake) = none := by
    intro hend wake
    cases hstep : (among this scene).step scene (.own wake) with
    | none => rfl
    | some result =>
      obtain ⟨a, k, re, hproc, -⟩ := step_own.mp hstep
      cases hend.symm.trans hproc
  generalize hproc : scene.proc = p at hcourse
  generalize happenings outs = es at hcourse hrec hsent hmode hfirst hreplies ⊢
  cases hcourse with
  | opening =>
    rw [chat_eq] at hproc
    exact ⟨Or.inl ⟨List.nil_prefix, fun hend => by cases hproc.symm.trans hend⟩, hreplies, hquiet,
      Or.inr (Or.inl (moves_receive hproc))⟩
  | rejected hno => exact absurd hlogin (hno _ _ (hfirst rfl))
  | refusing hno =>
    obtain rfl := Except.ok.inj (hfirst rfl)
    exact absurd hlogin (hno _)
  | refused hno =>
    obtain rfl := Except.ok.inj (hfirst rfl)
    exact absurd hlogin (hno _)
  | greeting hacc =>
    obtain rfl := Except.ok.inj (hfirst rfl)
    exact ⟨Or.inl ⟨List.prefix_rfl, fun hend => by cases hproc.symm.trans hend⟩, hreplies, hquiet,
      Or.inr (Or.inl (moves_send hproc))⟩
  | @serving raw r k tail p turns hacc hturns htail hk =>
    obtain rfl := Except.ok.inj (hfirst rfl)
    have hspoken : ∀ m, Spoken m → ∀ r', Happening.sent (messageStr m) r' ∈ _ → r' = .ok () :=
      fun m hm r' hmem => hsent _ r' hmem hm.text.2.2.1
    obtain ⟨cred, hcred, -⟩ := id hacc
    obtain ⟨xs, left, ended, rfl, hxs, rfl, hhand, hended⟩ := inOrder_of_turns ⟨_, hcred⟩
      (fun t ht => (htexts t ht).1) hrest hturns htail hrec fun m hm r' hmem =>
        hspoken m hm r' (List.mem_cons_of_mem _ (List.mem_cons_of_mem _ hmem))
    obtain rfl : r = .ok () := hspoken welcome (.phrase (by simp [phrases])) r
      (List.mem_cons_of_mem _ List.mem_cons_self)
    refine ⟨Or.inr ⟨xs, left, tail, ended, ?_, hxs, rfl, hhand, ?_⟩, hreplies, hquiet, ?_⟩
    · rw [List.flatMap_map]
      rfl
    · rw [hended, ← hproc]
      rfl
    · obtain ⟨k', rfl⟩ : ∃ k', k = k' + 1 := by
        simp only [List.length_append, List.length_map] at hn hk
        exact ⟨k - 1, by omega⟩
      exact Pending.moves hgood (hproc ▸ htail)
  | displaying hacc => cases hmode _ _ _ rfl hacc

/-! ### A login and an order -/

theorem alice_accepts : Accepts .updater (ascii "LOGIN|UPDATER|alice/foobar") :=
  ⟨ascii "alice/foobar", decoded_iff.mp (by decide +kernel), by decide +kernel⟩

theorem alice_short : (ascii "LOGIN|UPDATER|alice/foobar").length ≤ 9998 := by
  decide

def samosas : Order := ⟨1, .new, [some ⟨1, 1, .new, ascii "Samosa", 2⟩]⟩

theorem samosas_items : samosas.items = [⟨1, 1, .new, ascii "Samosa", 2⟩].map some := rfl

theorem samosas_decoded : decoded (ascii "ORDER_NEW|1,NEW,1:1:NEW:Samosa:2")
    = .ok (.ofOrder .orderNew (some samosas)) := by
  decide +kernel

theorem samosas_short : (ascii "ORDER_NEW|1,NEW,1:1:NEW:Samosa:2").length ≤ 9998 := by
  decide

/-- The answer to the first order. -/
theorem samosas_reply : replyTo (.newOrder samosas) (.ok (some 1000))
      = some (.ofStr .ok (ascii "Created order id 1000")) ∧
    (messageStr (.ofStr .ok (ascii "Created order id 1000"))).length ≤ 9998 := by
  decide +kernel

/-- A first order, while another thread registers a display. -/
theorem requests_answered_order :
    let login := ascii "LOGIN|UPDATER|alice/foobar"
    let raw := ascii "ORDER_NEW|1,NEW,1:1:NEW:Samosa:2"
    let conn : Connection :=
      { infd := ⟨(frame login ++ frame raw).map fun b => .data b [], false⟩, outfd := ⟨[], []⟩ }
    let reply := Message.ofStr .ok (ascii "Created order id 1000")
    ∃ outs scene, (among 7 (opening 7 2 conn {})).run [.other (.registerDisplay 5), .own .timeout,
        .own .timeout, .own .timeout, .own .timeout, .own .timeout] = some (outs, scene) ∧
      (happenings outs).filterMap sentOf = [messageStr welcome, messageStr reply] ∧
      (scene.Ended ∨ scene.Moves 7 ∨ scene.server.nextOrderId = Int32.maxValue) := by
  intro login raw conn reply
  have hread : decoded raw = .ok (.ofOrder .orderNew (some samosas)) := samosas_decoded
  have hcont : conn.infd.content = frame login ++ ([raw].flatMap frame ++ []) :=
    (Framing.Infd.content_data _ _).trans (by simp)
  have hgood : (Server.machine.init.register 5).Good :=
    (Server.step_took Server.good_init (Server.step_registerDisplay Server.good_init 5)).good
      Server.good_init
  obtain ⟨out, server', hplace, htook⟩ := Server.step_newOrder
    (s := Server.machine.init.register 5)
    samosas_items (by decide)
  obtain rfl : out = .ok (some 1000) := by cases htook; rfl
  obtain ⟨hreply, hlen⟩ := samosas_reply
  obtain ⟨outfd₁, hsend₁, -, hopen₁⟩ := Framing.exec_send welcome_short (Framing.Outfd.open_nil [])
  obtain ⟨outfd₂, hsend₂, -, -⟩ := Framing.exec_send hlen hopen₁
  obtain ⟨infd₁, hrest₁, hrun₁⟩ := runs_login 7 (opening 7 2 conn {}) 2 conn
    (Server.machine.init.register 5) hcont alice_short alice_accepts (.ok ()) hsend₁
  rw [List.flatMap_singleton] at hrest₁
  obtain ⟨infd₂, hrest₂, hrun₂⟩ := runs_request 7 (opening 7 2 conn {}) 1 ⟨infd₁, outfd₁, 0⟩ hrest₁
    samosas_short (decoded_iff.mp hread) rfl hgood hplace hreply (.ok ()) hsend₂
  have hrun := hrun₁ (hrun₂ (Machine.runFrom_nil _ _))
  have hrun' : (among 7 (opening 7 2 conn {})).run _ = _ := Machine.runFrom_cons.mpr
    ⟨_, _, _, step_other.mpr ⟨_, _, Server.step_registerDisplay Server.good_init 5, rfl, rfl⟩, hrun, rfl⟩
  have hserviceable : ∀ t ∈ [raw], Serviceable t ∧ t.length ≤ 9998 := by
    simp only [List.mem_singleton, forall_eq]
    exact ⟨⟨_, hread, Or.inl rfl⟩, samosas_short⟩
  have hend : Stops [] := by
    intro raw r hnil _ msg
    simp [frame] at hnil
  have hall := requests_answered (rfl : Server.machine.run [] = some ([], {})) alice_accepts
    alice_short hserviceable hend hcont List.not_mem_nil (by decide) hrun'
  exact ⟨_, _, hrun', rfl, hall.2.2.2⟩

end Restaurant.Session
