import RestaurantOrder.Session.Registration
import RestaurantOrder.Session.Scene

/-! The course of a session: what can have happened, and what the thread does next.

    A login opens the session, then come the turns of the loop. Whatever the other threads do in
    between, what has happened is always a course, and the thread stands at its end (`run_course`).

        received login, sent welcome | turn | turn | ... | pending
        turn:  received, called, sent reply   or   received, sent unexpected -/

namespace Restaurant.Session
open Schemes Process
open Framing (Infd Outfd frame)
open Wire (MessageText messageStr text_unique)

/-- The text is a LOGIN in a mode whose string is accepted. -/
def Accepts (mode : ClientMode) (raw : Bytes) : Prop :=
  ∃ cred, MessageText Spelled (.ofLogin .login mode cred) raw ∧ PasswordDB.authenticate cred

/-- A request with its answer: what was received, what was called, what was sent. -/
structure Exchange where
  raw : Bytes
  msg : Message
  op : Op
  out : Out
  before : Server
  after : Server
  reply : Message
  result : Except Exception Unit

/-- The operation is the one that the request asks for, it did what the server does, and the reply is
    the reply to that. -/
structure Exchange.Holds (x : Exchange) : Prop where
  text : MessageText Spelled x.msg x.raw
  op : requestOf x.msg = some x.op
  good : x.before.Good
  call : Server.machine.step x.before x.op = some (x.out, x.after)
  reply : replyTo x.op x.out = some x.reply

def Exchange.events (x : Exchange) : List Happening :=
  [.received (.ok x.raw), .called x.op x.out x.before x.after, .sent (messageStr x.reply) x.result]

/-- The text is a message that is neither a request nor QUIT. -/
def Unexpected (raw : Bytes) : Prop :=
  ∃ msg, MessageText Spelled msg raw ∧ requestOf msg = none ∧ msg.type ≠ .quit

/-- The text is a QUIT. -/
def Quits (raw : Bytes) : Prop := ∃ msg, MessageText Spelled msg raw ∧ msg.type = .quit

/-- No message was received. -/
def Malformed (r : Except Exception Bytes) : Prop :=
  ∀ raw, r = .ok raw → ∀ msg, ¬MessageText Spelled msg raw

/-- A turn after which the loop goes on. -/
inductive Turn where
  | request (x : Exchange)
  | scolding (raw : Bytes) (result : Except Exception Unit)

def Turn.Holds : Turn → Prop
  | .request x => x.Holds
  | .scolding raw _ => Unexpected raw

def Turn.events : Turn → List Happening
  | .request x => x.events
  | .scolding raw result => [.received (.ok raw), .sent (messageStr unexpected) result]

/-- What has happened of the last turn, and what comes next; `k` turns are left with this one. -/
inductive Pending : ℕ → List Happening → Proc Unit → Prop
  | listening {k} : Pending k [] (serving k)
  | asked {k raw msg op} (htext : MessageText Spelled msg raw) (hop : requestOf msg = some op) :
      Pending (k + 1) [.received (.ok raw)] (act (Act.call op) fun out => goOn k (afterCall op out))
  | replying {k x} (h : Exchange.Holds x) :
      Pending (k + 1) [.received (.ok x.raw), .called x.op x.out x.before x.after]
        (act (.send (messageStr x.reply)) fun _ => serving k)
  | scolding {k raw} (h : Unexpected raw) : Pending (k + 1) [.received (.ok raw)]
      (act (.send (messageStr unexpected)) fun _ => serving k)
  | leaving {k raw} (h : Quits raw) : Pending (k + 1) [.received (.ok raw)]
      (act (.send (messageStr bye)) fun _ => done (.ok ()))
  | left {k raw r} (h : Quits raw) : Pending (k + 1)
      [.received (.ok raw), .sent (messageStr bye) r] (done (.ok ()))
  | stopped {k r} (h : Malformed r) : Pending (k + 1) [.received r] (done (.ok ()))

/-- Behind its login the thread of a display receives and requests nothing. -/
def ShownTo (this : Client) : Happening → Prop
  | .received _ => False
  | .sent _ _ => True
  | .called op _ _ _ => op = .registerDisplay this ∨ op = .unregisterDisplay this
  | .dequeued _ => True

/-- Behind its login the thread of an updater calls what was asked for, and says what it may. -/
def ServedTo : Happening → Prop
  | .received _ => True
  | .sent text _ => ∃ msg, Spoken msg ∧ text = messageStr msg
  | .called op _ _ _ => ∃ msg, requestOf msg = some op
  | .dequeued _ => False

inductive Course (this : Client) (n : ℕ) : List Happening → Proc Unit → Prop
  | opening : Course this n [] (chat this n)
  | rejected {r} (h : ∀ mode raw, r = .ok raw → ¬Accepts mode raw) :
      Course this n [.received r] (done (.ok ()))
  | refusing {raw} (h : ∀ mode, ¬Accepts mode raw) : Course this n [.received (.ok raw)]
      (act (.send (messageStr refusal)) fun _ => done (.ok ()))
  | refused {raw r} (h : ∀ mode, ¬Accepts mode raw) :
      Course this n [.received (.ok raw), .sent (messageStr refusal) r] (done (.ok ()))
  | greeting {mode raw} (h : Accepts mode raw) : Course this n [.received (.ok raw)]
      (act (.send (messageStr welcome)) fun _ => entered this n mode)
  | serving {raw r k tail p} {turns : List Turn} (h : Accepts .updater raw) (hturns : ∀ t ∈ turns, t.Holds)
      (htail : Pending k tail p) (hn : turns.length + k = n) :
      Course this n (.received (.ok raw) :: .sent (messageStr welcome) r ::
        (turns.flatMap Turn.events ++ tail)) p
  | displaying {raw r events registered p} (h : Accepts .display raw)
      (hevents : ∀ h ∈ events, ShownTo this h)
      (hp : Keeps (displaying this) Unregistered p registered) :
      Course this n (.received (.ok raw) :: .sent (messageStr welcome) r :: events) p

theorem Exchange.Holds.spoken {x : Exchange} (h : x.Holds) : Spoken x.reply := by
  obtain ⟨reply, hreply, hspoken, -⟩ := step_replies h.op h.good h.call
  obtain rfl := Option.some.inj (h.reply.symm.trans hreply)
  exact hspoken

theorem Turn.Holds.served {t : Turn} (ht : t.Holds) : ∀ h ∈ t.events, ServedTo h := by
  cases t with
  | request x =>
    simp only [Turn.events, Exchange.events, List.mem_cons, List.not_mem_nil, or_false,
      forall_eq_or_imp, forall_eq]
    exact ⟨trivial, ⟨_, Exchange.Holds.op ht⟩, _, Exchange.Holds.spoken ht, rfl⟩
  | scolding raw result =>
    simp only [Turn.events, List.mem_cons, List.not_mem_nil, or_false, forall_eq_or_imp, forall_eq]
    exact ⟨trivial, unexpected, .phrase (by simp [phrases]), rfl⟩

theorem Pending.served {k : ℕ} {tail : List Happening} {p : Proc Unit} (h : Pending k tail p) :
    ∀ h ∈ tail, ServedTo h := by
  cases h with
  | replying h =>
    simp only [List.mem_cons, List.not_mem_nil, or_false, forall_eq_or_imp, forall_eq]
    exact ⟨trivial, _, h.op⟩
  | left =>
    simp only [List.mem_cons, List.not_mem_nil, or_false, forall_eq_or_imp, forall_eq]
    exact ⟨trivial, bye, .phrase (by simp [phrases]), rfl⟩
  | listening => simp
  | _ => simp [ServedTo]

/-! ### Logins -/

/-- What is read is the message that the text stands for. -/
theorem heard_iff {raw : Bytes} {msg : Message} :
    heard (.ok raw) = .ok msg ↔ MessageText Spelled msg raw := decoded_iff

theorem heard_malformed {r : Except Exception Bytes} {e : Exception} (h : heard r = raise e) :
    Malformed r := by
  rintro raw rfl msg hmsg
  cases h.symm.trans (heard_iff.mpr hmsg)

/-- A LOGIN that can be read has a mode. -/
theorem login_text {raw : Bytes} {msg : Message} (h : MessageText Spelled msg raw)
    (ht : msg.type = .login) : ∃ mode cred, msg = .ofLogin .login mode cred ∧ mode ≠ .invalid := by
  cases h with
  | @login mode cred hm hs => exact ⟨mode, cred, rfl, hm⟩
  | string h => rcases h with rfl | rfl | rfl <;> cases ht
  | order h => rcases h with rfl | rfl <;> cases ht
  | itemUpdate h => rcases h with rfl | rfl <;> cases ht
  | orderUpdate h => rcases h with rfl | rfl <;> cases ht
  | heartbeat => cases ht

theorem Accepts.mode {mode : ClientMode} {raw : Bytes} (h : Accepts mode raw) :
    mode = .display ∨ mode = .updater := by
  obtain ⟨cred, htext, -⟩ := h
  obtain ⟨mode', cred', he, hne⟩ := login_text htext rfl
  obtain rfl : mode = mode' := congrArg Message.clientMode he
  cases mode with
  | display => exact Or.inl rfl
  | updater => exact Or.inr rfl
  | invalid => exact absurd rfl hne

theorem Accepts.unique {mode mode' : ClientMode} {raw : Bytes} (h : Accepts mode raw)
    (h' : Accepts mode' raw) : mode = mode' := by
  obtain ⟨cred, htext, -⟩ := h
  obtain ⟨cred', htext', -⟩ := h'
  exact congrArg Message.clientMode (text_unique htext htext')

/-- No empty string is accepted. -/
theorem authenticate_nil : PasswordDB.authenticate [] = false := by decide +kernel

/-- The session goes on behind an accepted LOGIN, and behind no other message. -/
theorem letIn_cases (this : Client) (n : ℕ) {raw : Bytes} {msg : Message}
    (htext : MessageText Spelled msg raw) :
    (∃ mode, Accepts mode raw ∧ letIn this n (.ok msg)
      = act (.send (messageStr welcome)) fun _ => entered this n mode) ∨
    (∀ mode, ¬Accepts mode raw) ∧ (letIn this n (.ok msg) = done (.ok ()) ∨
      letIn this n (.ok msg) = act (.send (messageStr refusal)) fun _ => done (.ok ())) := by
  have hread : ∀ {mode}, Accepts mode raw → ∃ cred, msg = .ofLogin .login mode cred ∧
      PasswordDB.authenticate cred = true := by
    rintro mode ⟨cred, htext', hcred⟩
    exact ⟨cred, text_unique htext htext', hcred⟩
  rw [letIn]
  by_cases hlogin : msg.type = .login ∧ msg.hasClientMode ∧ msg.hasStr
  · rw [if_pos hlogin]
    obtain ⟨mode, cred, rfl, -⟩ := login_text htext hlogin.1
    by_cases hcred : PasswordDB.authenticate cred = true
    · exact Or.inl ⟨mode, ⟨cred, htext, hcred⟩, if_pos hcred⟩
    · refine Or.inr ⟨fun mode' h => ?_, Or.inr (if_neg hcred)⟩
      obtain ⟨cred', he, hcred'⟩ := hread h
      obtain rfl : cred = cred' := congrArg Message.str he
      exact hcred hcred'
  · rw [if_neg hlogin]
    refine Or.inr ⟨fun mode h => hlogin ?_, Or.inl rfl⟩
    obtain ⟨cred, rfl, hcred⟩ := hread h
    obtain ⟨mode', cred', he, hne⟩ := login_text htext rfl
    obtain rfl : mode = mode' := congrArg Message.clientMode he
    refine ⟨rfl, decide_eq_true hne, ?_⟩
    cases cred with
    | nil => rw [authenticate_nil] at hcred; cases hcred
    | cons b bs => rfl

/-! ### Steps -/

theorem Pending.step {this : Client} {wake : Wake} {conn : Connection} {server : Server} {k : ℕ}
    {tail : List Happening} {p : Proc Unit} (h : Pending k tail p) {a : Act} {f : a.Answer → Proc Unit}
    (hp : p = act a f) (hs : server.Good) {re : Reaction a}
    (hre : react this wake conn server a = some re) :
    (∃ (t : Turn) (k' : ℕ), t.Holds ∧ t.events = tail ++ [re.happening] ∧ k = k' + 1 ∧
      f re.answer = serving k') ∨ Pending k (tail ++ [re.happening]) (f re.answer) := by
  cases h with
  | listening =>
    rcases k with _ | k
    · cases hp
    rw [serving_succ] at hp
    cases hp
    obtain ⟨hhap, -⟩ := react_received hre
    rw [hhap]
    refine Or.inr ?_
    show Pending _ [.received re.answer] (hear k (heard re.answer))
    rcases heard_cases re.answer with ⟨raw, msg, hr, hmsg, htext⟩ | ⟨e, he⟩
    case inr => rw [he]; exact .stopped (heard_malformed he)
    rw [hmsg, hr, hear]
    cases hop : requestOf msg with
    | some op => rw [goOn_request htext hop]; exact .asked htext hop
    | none =>
      by_cases ht : msg.type = .quit
      · rw [goOn_quit ht]; exact .leaving ⟨msg, htext, ht⟩
      · rw [goOn_unexpected htext hop ht]; exact .scolding ⟨msg, htext, hop, ht⟩
  | @asked k raw msg op htext hop =>
    cases hp
    obtain ⟨out, server', hstep, rfl⟩ := react_call.mp hre
    obtain ⟨reply, hreply, hspoken, -⟩ := step_replies hop hs hstep
    refine Or.inr ?_
    show Pending _ _ (goOn k (afterCall op out))
    rw [goOn_reply hreply hspoken]
    exact .replying (x := ⟨raw, msg, op, out, server, server', reply, .ok ()⟩)
      ⟨htext, hop, hs, hstep, hreply⟩
  | @replying k x hx =>
    cases hp
    obtain ⟨hhap, -⟩ := react_sent hre
    rw [hhap]
    exact Or.inl ⟨.request { x with result := re.answer }, k,
      ⟨hx.text, hx.op, hx.good, hx.call, hx.reply⟩, rfl, rfl, rfl⟩
  | @scolding k raw hraw =>
    cases hp
    obtain ⟨hhap, -⟩ := react_sent hre
    rw [hhap]
    exact Or.inl ⟨.scolding raw re.answer, k, hraw, rfl, rfl, rfl⟩
  | leaving hraw =>
    cases hp
    obtain ⟨hhap, -⟩ := react_sent hre
    rw [hhap]
    exact Or.inr (.left hraw)
  | left => cases hp
  | stopped => cases hp

/-- A display does what it may, and its calls return. -/
theorem react_display {this : Client} {wake : Wake} {conn : Connection} {server : Server}
    {registered : Bool} {a : Act} (h : AllowedDisplay this registered a) (hs : server.Good)
    {re : Reaction a} (hre : react this wake conn server a = some re) :
    Settled a re.answer ∧ ShownTo this re.happening := by
  cases a with
  | receive => exact h.elim
  | send text => rw [(react_sent hre).1]; exact ⟨trivial, trivial⟩
  | dequeue => rw [(react_dequeued hre).1]; exact ⟨trivial, trivial⟩
  | call op =>
    obtain ⟨out, server', hstep, rfl⟩ := react_call.mp hre
    obtain rfl : op = if registered then _ else _ := h
    cases registered with
    | true =>
      cases Server.step_took hs hstep
      exact ⟨rfl, Or.inr rfl⟩
    | false =>
      cases Server.step_took hs hstep
      exact ⟨rfl, Or.inl rfl⟩

/-- A step goes on with the course. -/
theorem Course.step {this : Client} {n : ℕ} {wake : Wake} {conn : Connection} {server : Server}
    {es : List Happening} {p : Proc Unit} (h : Course this n es p) {a : Act}
    {f : a.Answer → Proc Unit} (hp : p = act a f) (hs : server.Good) {re : Reaction a}
    (hre : react this wake conn server a = some re) :
    Course this n (es ++ [re.happening]) (f re.answer) := by
  cases h with
  | opening =>
    rw [chat_eq] at hp
    cases hp
    obtain ⟨hhap, -⟩ := react_received hre
    rw [hhap]
    show Course this n [.received re.answer] (letIn this n (heard re.answer))
    rcases heard_cases re.answer with ⟨raw, msg, hr, hmsg, htext⟩ | ⟨e, he⟩
    case inr =>
      rw [he]
      refine .rejected fun mode raw hr hacc => ?_
      obtain ⟨cred, htext, -⟩ := hacc
      exact heard_malformed he raw hr _ htext
    rw [hmsg, hr]
    rcases letIn_cases this n htext with ⟨mode, hacc, hlet⟩ | ⟨hacc, hlet | hlet⟩ <;> rw [hlet]
    · exact .greeting hacc
    · refine .rejected fun mode raw' hr' => ?_
      obtain rfl := Except.ok.inj hr'
      exact hacc mode
    · exact .refusing hacc
  | rejected => cases hp
  | refusing hacc =>
    cases hp
    obtain ⟨hhap, -⟩ := react_sent hre
    rw [hhap]
    exact .refused hacc
  | refused => cases hp
  | @greeting mode raw hacc =>
    cases hp
    obtain ⟨hhap, -⟩ := react_sent hre
    rw [hhap]
    rcases hacc.mode with rfl | rfl
    · exact .displaying hacc (fun _ hmem => absurd hmem List.not_mem_nil)
        (entered_display_keeps this n)
    · exact @Course.serving this n raw _ n [] _ [] hacc (fun _ hmem => absurd hmem List.not_mem_nil)
        .listening (Nat.zero_add n)
  | @serving raw r k tail p turns hacc hturns htail hn =>
    rcases htail.step hp hs hre with ⟨t, k', ht, htevents, rfl, hserve⟩ | htail'
    · have hes : turns.flatMap Turn.events ++ tail ++ [re.happening]
          = (turns ++ [t]).flatMap Turn.events ++ [] := by
        rw [List.flatMap_append, List.flatMap_singleton, htevents, List.append_nil, List.append_assoc]
      rw [List.cons_append, List.cons_append, hes, hserve]
      refine .serving hacc (fun t' ht' => ?_) .listening ?_
      · rcases List.mem_append.mp ht' with ht' | ht'
        · exact hturns t' ht'
        · exact List.mem_singleton.mp ht' ▸ ht
      · rw [List.length_append, List.length_singleton]
        omega
    · rw [List.cons_append, List.cons_append, List.append_assoc]
      exact .serving hacc hturns htail' hn
  | displaying hacc hevents hkeeps =>
    subst hp
    obtain ⟨hsettled, hshown⟩ := react_display hkeeps.1 hs hre
    rw [List.cons_append, List.cons_append]
    refine .displaying hacc (fun h hmem => ?_) (hkeeps.2 re.answer hsettled)
    rcases List.mem_append.mp hmem with hmem | hmem
    · exact hevents h hmem
    · exact List.mem_singleton.mp hmem ▸ hshown

/-- FOLLOW: whatever the others do, what a session has done is a course, and its thread stands at the
    end of it. -/
theorem run_course {this : Client} {n : ℕ} {conn : Connection} {server : Server} (hs : server.Good)
    {moves : List Move} {outs : List (Option Happening)} {scene : Scene}
    (h : (among this (opening this n conn server)).run moves = some (outs, scene)) :
    scene.server.Good ∧ Course this n (happenings outs) scene.proc :=
  run_inv (A := fun _ => True) (P := fun es scene => Course this n es scene.proc) hs .opening
    (fun _ _ _ _ _ _ hcourse hgood hproc hre => hcourse.step hproc hgood hre)
    (fun _ _ _ _ _ hcourse _ _ _ => hcourse) (fun _ _ => trivial) h

/-! ### Runs turn by turn -/

/-- A login takes two moves. -/
theorem runs_login (this : Client) (start : Scene) (n : ℕ) (conn : Connection) (server : Server)
    {raw rest : Bytes} (hcont : conn.infd.content = frame raw ++ rest) (hlen : raw.length ≤ 9998)
    {mode : ClientMode} (hacc : Accepts mode raw) (result : Except Exception Unit) {outfd : Outfd}
    (hsend : exec (Framing.send (messageStr welcome)) conn.outfd = (answered result, outfd)) :
    ∃ infd : Infd, infd.content = rest ∧ ∀ {moves outs scene},
      (among this start).runFrom ⟨entered this n mode, { conn with infd, outfd }, server⟩ moves
        = some (outs, scene) →
      (among this start).runFrom (opening this n conn server)
          (.own .timeout :: .own .timeout :: moves)
        = some (some (.received (.ok raw)) :: some (.sent (messageStr welcome) result) :: outs, scene) := by
  obtain ⟨infd, hreceive, hrest⟩ := react_frame this .timeout server hcont hlen
  obtain ⟨cred, htext, -⟩ := id hacc
  have hlet : letIn this n (heard (.ok raw))
      = act (.send (messageStr welcome)) fun _ => entered this n mode := by
    rw [heard_iff.mpr htext]
    rcases letIn_cases this n htext with ⟨mode', hacc', hlet⟩ | ⟨hno, -⟩
    · rw [hlet, hacc.unique hacc']
    · exact absurd hacc (hno mode)
  exact ⟨infd, hrest, fun hrun =>
    runFrom_own (chat_eq this n) hreceive (runFrom_own hlet (react_of_send hsend) hrun)⟩

/-- A request takes three moves. -/
theorem runs_request (this : Client) (start : Scene) (k : ℕ) (conn : Connection)
    {server server' : Server} {raw rest : Bytes} (hcont : conn.infd.content = frame raw ++ rest)
    (hlen : raw.length ≤ 9998) {msg : Message} (htext : MessageText Spelled msg raw)
    {op : Op} (hop : requestOf msg = some op)
    (hs : server.Good) {out : Out} (hstep : Server.machine.step server op = some (out, server'))
    {reply : Message} (hreply : replyTo op out = some reply) (result : Except Exception Unit)
    {outfd : Outfd}
    (hsend : exec (Framing.send (messageStr reply)) conn.outfd = (answered result, outfd)) :
    ∃ infd : Infd, infd.content = rest ∧ ∀ {moves outs scene},
      (among this start).runFrom ⟨serving k, { conn with infd, outfd }, server'⟩ moves
        = some (outs, scene) →
      (among this start).runFrom ⟨serving (k + 1), conn, server⟩
          (.own .timeout :: .own .timeout :: .own .timeout :: moves)
        = some (some (.received (.ok raw)) :: some (.called op out server server') ::
            some (.sent (messageStr reply) result) :: outs, scene) := by
  obtain ⟨infd, hreceive, hrest⟩ := react_frame this .timeout server hcont hlen
  have hhear : hear k (heard (.ok raw)) = act (Act.call op) fun out => goOn k (afterCall op out) := by
    rw [heard_iff.mpr htext, hear, goOn_request htext hop]
  obtain ⟨reply', hreply', hspoken, -⟩ := step_replies hop hs hstep
  obtain rfl := Option.some.inj (hreply.symm.trans hreply')
  exact ⟨infd, hrest, fun hrun => runFrom_own (serving_succ k) hreceive
    (runFrom_own hhear (react_call.mpr ⟨out, server', hstep, rfl⟩)
      (runFrom_own (goOn_reply hreply hspoken k) (react_of_send hsend) hrun))⟩

/-- Scolding takes two moves. -/
theorem runs_unexpected (this : Client) (start : Scene) (k : ℕ) (conn : Connection) (server : Server)
    {raw rest : Bytes} (hcont : conn.infd.content = frame raw ++ rest) (hlen : raw.length ≤ 9998)
    (hraw : Unexpected raw) (result : Except Exception Unit) {outfd : Outfd}
    (hsend : exec (Framing.send (messageStr unexpected)) conn.outfd = (answered result, outfd)) :
    ∃ infd : Infd, infd.content = rest ∧ ∀ {moves outs scene},
      (among this start).runFrom ⟨serving k, { conn with infd, outfd }, server⟩ moves
        = some (outs, scene) →
      (among this start).runFrom ⟨serving (k + 1), conn, server⟩ (.own .timeout :: .own .timeout :: moves)
        = some (some (.received (.ok raw)) :: some (.sent (messageStr unexpected) result) :: outs,
            scene) := by
  obtain ⟨infd, hreceive, hrest⟩ := react_frame this .timeout server hcont hlen
  obtain ⟨msg, htext, hop, ht⟩ := hraw
  have hhear : hear k (heard (.ok raw))
      = act (.send (messageStr unexpected)) fun _ => serving k := by
    rw [heard_iff.mpr htext, hear, goOn_unexpected htext hop ht]
  exact ⟨infd, hrest, fun hrun => runFrom_own (serving_succ k) hreceive
    (runFrom_own hhear (react_of_send hsend) hrun)⟩

end Restaurant.Session
