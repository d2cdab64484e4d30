import RestaurantOrder.Session.Chat
import RestaurantOrder.Schemes.Machine

/-! A session among others: its thread, its connection, and the server that it shares.

    A move is the thread's own next action or an operation of another thread. The own moves write a
    protocol of what happened; that a `dequeue` finds a message, runs into its timeout or throws is up
    to the move.

        proc    act receive ──▶ act (call op) ──▶ act (send ..) ──▶ ...
        server       s ──other op──▶ s' ──own op──▶ s'' ──▶ ...        -/

namespace Restaurant.Session
open Schemes Process
open Framing (Infd Outfd frame)

/-- A connection: both directions of its descriptor, and how many messages the thread has taken out of
    its queue. -/
structure Connection where
  infd : Infd
  outfd : Outfd
  taken : ℕ := 0

/-- How a `dequeue` ends. -/
inductive Wake where
  | message
  | timeout
  | throws (e : Exception)

/-- An action that has been done, with what it ended with; an operation with the states of the server
    around it. -/
inductive Happening where
  | received (r : Except Exception Bytes)
  | sent (text : Bytes) (r : Except Exception Unit)
  | called (op : Op) (out : Out) (before after : Server)
  | dequeued (r : Except Exception (Option Message))

/-- An operation that has been done in the server, with its outcome and the states around it. -/
abbrev Deed := Op × Out × Server × Server

/-- The operation that the thread has called. -/
def carried : Happening → Option Deed
  | .called op out before after => some (op, out, before, after)
  | _ => none

/-- How the surroundings react to an action. -/
structure Reaction (a : Act) where
  answer : a.Answer
  happening : Happening
  conn : Connection
  server : Server

/-- What code that has ended shows; there is nothing to show of undefined behaviour. -/
def ended {α σ : Type} : Cpp α × σ → Option (Except Exception α × σ)
  | (.ok a, s) => some (.ok a, s)
  | (.error (.throws e), s) => some (.error e, s)
  | (.error .undefined, _) => none

/-- The reaction to an action of the thread of the client at an address. A `dequeue` that waits for a
    message is blocked while there is none. -/
def react (this : Client) (wake : Wake) (conn : Connection) (server : Server) :
    (a : Act) → Option (Reaction a)
  | .receive => do
    let (r, infd, s) ← ended (exec Framing.receive (conn.infd, []))
    let r := r.map fun _ => s
    return ⟨r, .received r, { conn with infd }, server⟩
  | .send text => do
    let (r, outfd) ← ended (exec (Framing.send text) conn.outfd)
    return ⟨r, .sent text r, { conn with outfd }, server⟩
  | .call op => do
    let (out, server') ← Server.machine.step server op
    return ⟨out, .called op out server server', conn, server'⟩
  | .dequeue =>
    match wake with
    | .message => do
      let msg ← (server.queue this)[conn.taken]?
      return ⟨.ok (some msg), .dequeued (.ok (some msg)), { conn with taken := conn.taken + 1 }, server⟩
    | .timeout => some ⟨.ok none, .dequeued (.ok none), conn, server⟩
    | .throws e => some ⟨.error e, .dequeued (.error e), conn, server⟩

structure Scene where
  proc : Proc Unit
  conn : Connection
  server : Server

inductive Move where
  | own (wake : Wake)
  | other (op : Op)

/-- A session among others, from a scene on. -/
def among (this : Client) (start : Scene) : Machine Scene Move (Option Happening) where
  init := start
  step
    | scene, .own wake =>
      match scene.proc with
      | .act a k => do
        let re ← react this wake scene.conn scene.server a
        return (some re.happening, ⟨k re.answer, re.conn, re.server⟩)
      | _ => none
    | scene, .other op => do
      let (_, server) ← Server.machine.step scene.server op
      return (none, { scene with server })

/-- What the session has done in a run. -/
def happenings (outs : List (Option Happening)) : List Happening := outs.reduceOption

/-- The scene in which the thread of a client starts. -/
def opening (this : Client) (n : ℕ) (conn : Connection) (server : Server) : Scene :=
  ⟨chat this n, conn, server⟩

/-! ### Steps -/

theorem step_own {this : Client} {start scene scene' : Scene} {wake : Wake} {o : Option Happening} :
    (among this start).step scene (.own wake) = some (o, scene') ↔
      ∃ a k re, scene.proc = act a k ∧ react this wake scene.conn scene.server a = some re ∧
        o = some re.happening ∧ scene' = ⟨k re.answer, re.conn, re.server⟩ := by
  rcases hproc : scene.proc with r | _ | ⟨a, k⟩
  · simp [among, hproc]
  · simp [among, hproc]
  · simp only [among, hproc, Option.bind_eq_bind, Option.bind_eq_some_iff, Option.pure_def,
      Option.some.injEq, Prod.mk.injEq, act.injEq]
    constructor
    · rintro ⟨re, hre, rfl, rfl⟩
      exact ⟨a, k, re, ⟨rfl, HEq.rfl⟩, hre, rfl, rfl⟩
    · rintro ⟨_, _, re, ⟨rfl, hk⟩, hre, rfl, rfl⟩
      obtain rfl := eq_of_heq hk
      exact ⟨re, hre, rfl, rfl⟩

theorem step_other {this : Client} {start scene scene' : Scene} {op : Op} {o : Option Happening} :
    (among this start).step scene (.other op) = some (o, scene') ↔
      ∃ out server, Server.machine.step scene.server op = some (out, server) ∧ o = none ∧
        scene' = { scene with server } := by
  simp only [among, Option.bind_eq_bind, Option.bind_eq_some_iff, Option.pure_def, Option.some.injEq,
    Prod.mk.injEq, Prod.exists]
  constructor
  · rintro ⟨out, server, h, rfl, rfl⟩
    exact ⟨out, server, h, rfl, rfl⟩
  · rintro ⟨out, server, h, rfl, rfl⟩
    exact ⟨out, server, h, rfl, rfl⟩

/-! ### Reactions -/

/-- A thread receives the frame at the front of its input, or an IOException if there is none. -/
theorem react_receive (this : Client) (wake : Wake) (conn : Connection) (server : Server) :
    ∃ r infd, react this wake conn server .receive
        = some ⟨r, .received r, { conn with infd }, server⟩ ∧
      ((∃ s, r = .ok s ∧ s.length ≤ 9998 ∧ conn.infd.content = frame s ++ infd.content) ∨
        (∃ what, r = .error (.ioException what)) ∧
          ¬∃ s r, conn.infd.content = frame s ++ r ∧ s.length ≤ 9998) := by
  by_cases h : ∃ s r, conn.infd.content = frame s ++ r ∧ s.length ≤ 9998
  · obtain ⟨s, r, hcont, hlen⟩ := h
    obtain ⟨infd, hrun, rfl⟩ := Framing.exec_receive hcont hlen []
    refine ⟨.ok s, infd, ?_, Or.inl ⟨s, rfl, hlen, hcont⟩⟩
    rw [react, hrun]
    rfl
  · obtain ⟨what, infd, hrun⟩ := Framing.exec_receive_fails h []
    refine ⟨_, infd, ?_, Or.inr ⟨⟨what, rfl⟩, h⟩⟩
    rw [react, hrun]
    rfl

/-- At the end of the input it receives nothing. -/
theorem react_end (this : Client) (wake : Wake) (conn : Connection) (server : Server)
    (hend : conn.infd.content = []) : ∃ what infd, react this wake conn server .receive
      = some ⟨.error (.ioException what), .received (.error (.ioException what)),
          { conn with infd }, server⟩ := by
  obtain ⟨r, infd, hreceive, hcase⟩ := react_receive this wake conn server
  obtain ⟨s, rfl, -, hs⟩ | ⟨⟨what, rfl⟩, -⟩ := hcase
  · rw [hend] at hs
    simp [frame] at hs
  · exact ⟨what, infd, hreceive⟩

/-- It receives the frame that is there. -/
theorem react_frame (this : Client) (wake : Wake) {conn : Connection} (server : Server) {s r : Bytes}
    (hcont : conn.infd.content = frame s ++ r) (hlen : s.length ≤ 9998) :
    ∃ infd, react this wake conn server .receive
        = some ⟨.ok s, .received (.ok s), { conn with infd }, server⟩ ∧ infd.content = r := by
  obtain ⟨infd, hrun, hrest⟩ := Framing.exec_receive hcont hlen []
  refine ⟨infd, ?_, hrest⟩
  rw [react, hrun]
  rfl

/-- A thread sends a beginning of the frame, all of it if no error occurs. -/
theorem react_send (this : Client) (wake : Wake) (conn : Connection) (server : Server) (text : Bytes) :
    ∃ r outfd part, react this wake conn server (.send text)
        = some ⟨r, .sent text r, { conn with outfd }, server⟩ ∧
      outfd.written = conn.outfd.written ++ part ∧ part <+: frame text ∧
      (conn.outfd.Open → outfd.Open ∧ (text.length ≤ 9998 → r = .ok () ∧ part = frame text)) := by
  by_cases hlong : 9998 < text.length
  · let r : Except Exception Unit := .error (.ioException (ascii "message too long to frame"))
    have hre : react this wake conn server (.send text) = some ⟨r, .sent text r, conn, server⟩ := by
      rw [react, Framing.exec_send_long hlong]
      rfl
    exact ⟨r, conn.outfd, [], hre, (List.append_nil _).symm, List.nil_prefix,
      fun hopen => ⟨hopen, fun hlen => absurd hlen (Nat.not_le_of_lt hlong)⟩⟩
  by_cases hopen : conn.outfd.Open
  · obtain ⟨outfd, hrun, hw, hopen'⟩ := Framing.exec_send (Nat.le_of_not_lt hlong) hopen
    refine ⟨.ok (), outfd, frame text, ?_, hw, List.prefix_rfl, fun _ => ⟨hopen', fun _ => ⟨rfl, rfl⟩⟩⟩
    rw [react, hrun]
    rfl
  · obtain ⟨r, outfd, part, hrun, hw, hpart, rfl | ⟨what, rfl⟩⟩ :=
      Framing.exec_send_ends text conn.outfd
    · refine ⟨.ok (), outfd, part, ?_, hw, hpart, fun h => absurd h hopen⟩
      rw [react, hrun]
      rfl
    · refine ⟨.error (.ioException what), outfd, part, ?_, hw, hpart, fun h => absurd h hopen⟩
      rw [react, hrun]
      rfl

theorem react_of_send {this : Client} {wake : Wake} {conn : Connection} {server : Server}
    {text : Bytes} {result : Except Exception Unit} {outfd : Outfd}
    (h : exec (Framing.send text) conn.outfd = (answered result, outfd)) :
    react this wake conn server (.send text)
      = some ⟨result, .sent text result, { conn with outfd }, server⟩ := by
  rw [react, h]
  cases result <;> rfl

theorem react_received {this : Client} {wake : Wake} {conn : Connection} {server : Server}
    {re : Reaction .receive} (h : react this wake conn server .receive = some re) :
    re.happening = .received re.answer ∧ re.server = server := by
  obtain ⟨r, infd, hre, -⟩ := react_receive this wake conn server
  obtain rfl := Option.some.inj (hre.symm.trans h)
  exact ⟨rfl, rfl⟩

theorem react_sent {this : Client} {wake : Wake} {conn : Connection} {server : Server} {text : Bytes}
    {re : Reaction (.send text)} (h : react this wake conn server (.send text) = some re) :
    re.happening = .sent text re.answer ∧ re.server = server := by
  obtain ⟨r, outfd, part, hre, -⟩ := react_send this wake conn server text
  obtain rfl := Option.some.inj (hre.symm.trans h)
  exact ⟨rfl, rfl⟩

theorem react_dequeued {this : Client} {wake : Wake} {conn : Connection} {server : Server}
    {re : Reaction .dequeue} (h : react this wake conn server .dequeue = some re) :
    re.happening = .dequeued re.answer ∧ re.server = server ∧ re.conn.infd = conn.infd ∧
      re.conn.outfd = conn.outfd := by
  cases wake with
  | message =>
    simp only [react, Option.bind_eq_bind, Option.bind_eq_some_iff, Option.pure_def,
      Option.some.injEq] at h
    obtain ⟨msg, -, rfl⟩ := h
    exact ⟨rfl, rfl, rfl, rfl⟩
  | timeout => obtain rfl := Option.some.inj h; exact ⟨rfl, rfl, rfl, rfl⟩
  | throws e => obtain rfl := Option.some.inj h; exact ⟨rfl, rfl, rfl, rfl⟩

theorem react_call {this : Client} {wake : Wake} {conn : Connection} {server : Server} {op : Op}
    {re : Reaction (.call op)} : react this wake conn server (.call op) = some re ↔
      ∃ out server', Server.machine.step server op = some (out, server') ∧
        re = ⟨out, .called op out server server', conn, server'⟩ := by
  simp only [react, Option.bind_eq_bind, Option.bind_eq_some_iff, Option.pure_def, Option.some.injEq,
    Prod.exists, eq_comm (a := re)]

theorem react_good {this : Client} {wake : Wake} {conn : Connection} {server : Server}
    (hs : server.Good) {a : Act} {re : Reaction a}
    (h : react this wake conn server a = some re) : re.server.Good := by
  cases a with
  | receive => rw [(react_received h).2]; exact hs
  | send text => rw [(react_sent h).2]; exact hs
  | dequeue => rw [(react_dequeued h).2.1]; exact hs
  | call op =>
    obtain ⟨out, server', hstep, rfl⟩ := react_call.mp h
    exact (Server.step_took hs hstep).good hs

/-! ### Runs -/

theorem runFrom_own {this : Client} {start scene scene' : Scene} {wake : Wake} {moves : List Move}
    {outs : List (Option Happening)} {a : Act} {k : a.Answer → Proc Unit} {answer : a.Answer}
    {h : Happening} {conn : Connection} {server : Server} (hproc : scene.proc = act a k)
    (hre : react this wake scene.conn scene.server a = some ⟨answer, h, conn, server⟩)
    (hrest : (among this start).runFrom ⟨k answer, conn, server⟩ moves = some (outs, scene')) :
    (among this start).runFrom scene (.own wake :: moves) = some (some h :: outs, scene') :=
  Machine.runFrom_cons.mpr ⟨_, _, _, step_own.mpr ⟨a, k, _, hproc, hre, rfl, rfl⟩, hrest, rfl⟩

theorem happenings_own (outs : List (Option Happening)) (h : Happening) :
    happenings (outs ++ [some h]) = happenings outs ++ [h] := List.reduceOption_append ..

theorem happenings_other (outs : List (Option Happening)) :
    happenings (outs ++ [none]) = happenings outs := by
  rw [happenings, List.reduceOption_append]
  exact List.append_nil _

/-- INVARIANTS: what holds of the first scene, and is preserved by each reaction and by each operation
    of another thread that satisfies `A`, holds along every run. -/
theorem run_inv {this : Client} {start : Scene} {A : Op → Prop} {P : List Happening → Scene → Prop}
    (hs : start.server.Good) (h0 : P [] start)
    (hown : ∀ es scene wake a k re, P es scene → scene.server.Good → scene.proc = act a k →
      react this wake scene.conn scene.server a = some re →
      P (es ++ [re.happening]) ⟨k re.answer, re.conn, re.server⟩)
    (hother : ∀ es scene op out server, P es scene → scene.server.Good → A op →
      Server.Took scene.server op out server → P es { scene with server })
    {moves : List Move} {outs : List (Option Happening)} {scene : Scene}
    (hA : ∀ op, .other op ∈ moves → A op)
    (h : (among this start).run moves = some (outs, scene)) :
    scene.server.Good ∧ P (happenings outs) scene := by
  refine Machine.runFrom_induct (P := fun moves outs scene => (∀ op, .other op ∈ moves → A op) →
    scene.server.Good ∧ P (happenings outs) scene) (fun _ => ⟨hs, h0⟩) ?_ h hA
  intro moves outs scene move o scene' _ ih hstep hA'
  obtain ⟨hgood, hP⟩ := ih fun op hop => hA' op (List.mem_append_left _ hop)
  cases move with
  | own wake =>
    obtain ⟨a, k, re, hproc, hre, rfl, rfl⟩ := step_own.mp hstep
    rw [happenings_own]
    exact ⟨react_good hgood hre, hown _ _ wake a k re hP hgood hproc hre⟩
  | other op =>
    obtain ⟨out, server, hop, rfl, rfl⟩ := step_other.mp hstep
    rw [happenings_other]
    have htook := Server.step_took hgood hop
    exact ⟨htook.good hgood, hother _ _ op out server hP hgood (hA' op (by simp)) htook⟩

end Restaurant.Session
