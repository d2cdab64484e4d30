import RestaurantOrder.Programs.Ledger
import RestaurantOrder.Programs.Channel
import RestaurantOrder.Schemes.Shared

/-! A client program and the thread that serves it.

    Each writes bytes for the other. A transfer is cut into pieces, interrupted or broken off as the
    move says that does it; a `receive` waits while there is no whole frame, unless the other side has
    closed its end or the read fails. Where bytes are lost, the connection is reset, and the thread
    writes nothing any more. In between, other threads use the server. The program can be killed at any
    moment, and the thread may never be created.

        stdin ──▶ program ──to server──▶ thread ──call──▶ server ◀── others
                          ◀──to client──

    `past` is what the thread has done and `ledger` what the program has done; what is done in the server
    by anybody is a log, and a run of the server (`logged_run`). -/

namespace Restaurant.Program
open Schemes Process
open Framing (Infd Outfd Arrival Departure frame newline parseLengthPrefix)
open Session (Deed Happening Wake carried)

/-- What the system calls of a transfer meet. -/
structure Weather where
  arrivals : List Arrival := []
  fails : Bool := false
  departures : List Departure := []

def Weather.infd (w : Weather) : Infd := ⟨w.arrivals, w.fails⟩

/-- The pieces that come in are those of the bytes. Where the connection breaks, the rest may be
    lost. -/
def Weather.Brings (w : Weather) (bytes : Bytes) : Prop :=
  w.infd.content = bytes ∨ w.fails = true ∧ w.infd.content <+: bytes

instance (w : Weather) (bytes : Bytes) : Decidable (w.Brings bytes) :=
  inferInstanceAs (Decidable (_ ∨ _ ∧ _))

/-- Nothing fails; a transfer may still be cut into pieces and interrupted. -/
structure Weather.Fair (w : Weather) : Prop where
  reads : w.fails = false
  writes : .broken ∉ w.departures

/-- The bytes end before the frame does that they begin with. -/
def starved (bytes : Bytes) : Bool :=
  bytes.length < 4 ||
    match parseLengthPrefix (bytes.take 4) with
    | .ok n => decide (bytes.length < 4 + n.toInt.toNat)
    | .error _ => false

/-- A program with its terminal, its thread in the server, and the bytes between them. -/
structure Seat where
  proc : Proc Int32
  stdin : Bytes
  toServer : Bytes := []
  toClient : Bytes := []
  hungUp : Bool := false
  reset : Bool := false
  thread : Option (Session.Proc Unit) := none
  taken : ℕ := 0
  ledger : Ledger := {}
  past : List Happening := []

/-- The thread has come to its end and closed its descriptor. -/
def Seat.dropped (s : Seat) : Bool :=
  match s.thread with
  | some (.done _) => true
  | _ => false

/-- The program goes on with the answer. -/
def Seat.went (s : Seat) (a : Act) (r : a.Answer) (proc : Proc Int32) : Seat :=
  { s with proc, ledger := s.ledger.note a r }

@[simp] theorem Seat.went_ledger (s : Seat) (a : Act) (r : a.Answer) (proc : Proc Int32) :
    (s.went a r proc).ledger = s.ledger.note a r := rfl

@[simp] theorem Seat.went_past (s : Seat) (a : Act) (r : a.Answer) (proc : Proc Int32) :
    (s.went a r proc).past = s.past := rfl

@[simp] theorem Seat.went_taken (s : Seat) (a : Act) (r : a.Answer) (proc : Proc Int32) :
    (s.went a r proc).taken = s.taken := rfl

/-- The connection of the thread. -/
def Seat.conn (s : Seat) (w : Weather) : Session.Connection :=
  ⟨w.infd, ⟨s.toClient, if s.reset then [.broken] else w.departures⟩, s.taken⟩

/-- A frame was not written to its end. -/
def torn (before after : Bytes) : Happening → Bool
  | .sent text _ => after != before ++ framed text
  | _ => false

/-- What a reaction to the thread leaves. -/
def Seat.reacted (s : Seat) (w : Weather) {a : Session.Act} (re : Session.Reaction a)
    (proc : Session.Proc Unit) : Seat :=
  { s with
    thread := some proc, toServer := re.conn.infd.content, toClient := re.conn.outfd.written,
    reset := s.reset || w.infd.content != s.toServer || torn s.toClient re.conn.outfd.written re.happening,
    taken := re.conn.taken, past := s.past ++ [re.happening] }

@[simp] theorem Seat.reacted_past (s : Seat) (w : Weather) {a : Session.Act} (re : Session.Reaction a)
    (proc : Session.Proc Unit) : (s.reacted w re proc).past = s.past ++ [re.happening] := rfl

@[simp] theorem Seat.reacted_toServer (s : Seat) (w : Weather) {a : Session.Act}
    (re : Session.Reaction a) (proc : Session.Proc Unit) :
    (s.reacted w re proc).toServer = re.conn.infd.content := rfl

@[simp] theorem Seat.reacted_toClient (s : Seat) (w : Weather) {a : Session.Act}
    (re : Session.Reaction a) (proc : Session.Proc Unit) :
    (s.reacted w re proc).toClient = re.conn.outfd.written := rfl

@[simp] theorem Seat.reacted_reset (s : Seat) (w : Weather) {a : Session.Act} (re : Session.Reaction a)
    (proc : Session.Proc Unit) : (s.reacted w re proc).reset
      = (s.reset || w.infd.content != s.toServer ||
        torn s.toClient re.conn.outfd.written re.happening) := rfl

/-- The program is ended from outside. -/
def Seat.killed (s : Seat) (code : Int32) : Seat :=
  { s with proc := done (.ok code), hungUp := true, ledger := s.ledger.note .close () }

structure Dialogue where
  seat : Seat
  server : Server

inductive Move where
  | client (found : Bool) (weather : Weather)
  | kill (code : Int32)
  | thread (wake : Wake) (weather : Weather)
  | refuse
  | other (op : Op)

/-- How the surroundings of a program react to an action; `found` is whether the server answers the
    connection that is opened, at which it creates the thread. -/
def react (this : Client) (n : ℕ) (found : Bool) (w : Weather) (s : Seat) :
    (a : Act) → Option (a.Answer × Seat)
  | .openClientfd .. => some (found, if found then { s with thread := some (Session.chat this n) } else s)
  | .getline => some ((nextLine s.stdin).1, { s with stdin := (nextLine s.stdin).2 })
  | .print _ => some ((), s)
  | .complain _ => some ((), s)
  | .send text => do
    let (r, outfd) ← Session.ended (exec (Framing.send text) ⟨s.toServer, w.departures⟩)
    let reset := s.reset || outfd.written != s.toServer ++ framed text
    return (r, { s with toServer := outfd.written, reset })
  | .receive => do
    guard (w.Brings s.toClient ∧ (!starved s.toClient || s.dropped || w.fails))
    let (r, infd, text) ← Session.ended (exec Framing.receive (w.infd, []))
    let reset := s.reset || w.infd.content != s.toClient
    return (r.map fun _ => text, { s with toClient := infd.content, reset })
  | .close => some ((), { s with hungUp := true })

/-- May the thread do the action now? -/
def awake (w : Weather) (s : Seat) : Session.Act → Bool
  | .receive => !starved s.toServer || s.hungUp || w.fails
  | _ => true

/-- The conversation of a program with the thread of the client at an address. -/
def dialogue (this : Client) (n : ℕ) (start : Dialogue) : Machine Dialogue Move Unit where
  init := start
  step
    | d, .client found w =>
      match d.seat.proc with
      | .act a k => do
        let (r, seat) ← react this n found w d.seat a
        return ((), { d with seat := seat.went a r (k r) })
      | _ => none
    | d, .kill code =>
      match d.seat.proc with
      | .done _ => none
      | _ => some ((), { d with seat := d.seat.killed code })
    | d, .thread wake w => do
      match d.seat.thread with
      | some (.act a k) => do
        guard (w.Brings d.seat.toServer ∧ awake w d.seat a)
        let re ← Session.react this wake (d.seat.conn w) d.server a
        return ((), ⟨d.seat.reacted w re (k re.answer), re.server⟩)
      | _ => none
    | d, .refuse =>
      if d.seat.thread.isSome ∧ d.seat.past = [] then
        some ((), { d with seat := { d.seat with thread := some (done (.ok ())) } })
      else none
    | d, .other op => do
      let (_, server) ← Server.machine.step d.server op
      return ((), { d with server })

/-- What a program and its thread have done in the server meanwhile. -/
def deedOf (before after : Seat) : Option Deed :=
  ((after.past.drop before.past.length).filterMap carried).head?

/-- What a move does in the server. -/
def deed : Dialogue × Move × Dialogue → Option Deed
  | (d, .other op, _) =>
    (Server.machine.step d.server op).map fun (out, server) => (op, out, d.server, server)
  | (d, _, d') => deedOf d.seat d'.seat

/-- What is done in the server in a run of a dialogue. -/
def logIn (this : Client) (n : ℕ) (start : Dialogue) (moves : List Move) : List Deed :=
  ((dialogue this n start).steps start moves).filterMap deed

/-! ### Steps -/

section
variable {this : Client} {n : ℕ} {start d d' : Dialogue} {u : Unit}

theorem step_client {found : Bool} {w : Weather} :
    (dialogue this n start).step d (.client found w) = some (u, d') ↔
      ∃ a k r seat, d.seat.proc = act a k ∧ react this n found w d.seat a = some (r, seat) ∧
        d' = { d with seat := seat.went a r (k r) } := by
  rcases hproc : d.seat.proc with r | _ | ⟨a, k⟩
  · simp [dialogue, hproc]
  · simp [dialogue, hproc]
  · simp only [dialogue, hproc, Option.bind_eq_bind, Option.bind_eq_some_iff, Option.pure_def,
      Option.some.injEq, Prod.mk.injEq, Prod.exists, act.injEq, true_and]
    constructor
    · rintro ⟨r, seat, hre, rfl⟩
      exact ⟨a, k, r, seat, ⟨rfl, HEq.rfl⟩, hre, rfl⟩
    · rintro ⟨_, _, r, seat, ⟨rfl, hk⟩, hre, rfl⟩
      obtain rfl := eq_of_heq hk
      exact ⟨r, seat, hre, rfl⟩

theorem step_kill {code : Int32} (h : (dialogue this n start).step d (.kill code) = some (u, d')) :
    d' = { d with seat := d.seat.killed code } := by
  rcases hproc : d.seat.proc with r | _ | ⟨a, k⟩ <;>
    simp only [dialogue, hproc, reduceCtorEq, Option.some.injEq, Prod.mk.injEq, true_and] at h
  · exact h.symm
  · exact h.symm

theorem step_thread {wake : Wake} {w : Weather} :
    (dialogue this n start).step d (.thread wake w) = some (u, d') ↔
      ∃ a k re, d.seat.thread = some (act a k) ∧ w.Brings d.seat.toServer ∧ awake w d.seat a = true ∧
        Session.react this wake (d.seat.conn w) d.server a = some re ∧
        d' = ⟨d.seat.reacted w re (k re.answer), re.server⟩ := by
  rcases hthread : d.seat.thread with _ | ⟨r | _ | ⟨a, k⟩⟩
  · simp [dialogue, hthread]
  · simp [dialogue, hthread]
  · simp [dialogue, hthread]
  · simp only [dialogue, hthread, Option.bind_eq_bind, Option.bind_eq_some_iff, Option.pure_def,
      Option.some.injEq, Prod.mk.injEq, act.injEq, true_and, Option.guard_eq_some', exists_const]
    constructor
    · rintro ⟨⟨hbrings, hawake⟩, re, hre, rfl⟩
      exact ⟨a, k, re, ⟨rfl, HEq.rfl⟩, hbrings, hawake, hre, rfl⟩
    · rintro ⟨_, _, re, ⟨rfl, hk⟩, hbrings, hawake, hre, rfl⟩
      obtain rfl := eq_of_heq hk
      exact ⟨⟨hbrings, hawake⟩, re, hre, rfl⟩

theorem step_refuse (h : (dialogue this n start).step d .refuse = some (u, d')) :
    d.seat.thread.isSome ∧ d.seat.past = [] ∧
      d' = { d with seat := { d.seat with thread := some (done (.ok ())) } } := by
  simp only [dialogue, Option.ite_none_right_eq_some, Option.some.injEq, Prod.mk.injEq] at h
  exact ⟨h.1.1, h.1.2, h.2.2.symm⟩

theorem step_others {op : Op} :
    (dialogue this n start).step d (.other op) = some (u, d') ↔
      ∃ out server, Server.machine.step d.server op = some (out, server) ∧
        d' = { d with server } := by
  simp only [dialogue, Option.bind_eq_bind, Option.bind_eq_some_iff, Option.pure_def,
    Option.some.injEq, Prod.mk.injEq, Prod.exists, true_and, eq_comm (a := d')]

end

/-! ### Transfers -/

theorem Weather.Brings.prefix {w : Weather} {bytes : Bytes} (h : w.Brings bytes) :
    w.infd.content <+: bytes := by
  rcases h with rfl | ⟨-, h⟩
  · exact List.prefix_rfl
  · exact h

section
variable {this : Client} {n : ℕ} {found : Bool} {w : Weather} {s seat : Seat}

/-- A program receives the frame at the front of what has come in, or an IOException. -/
theorem react_receive {r : Except Exception Bytes} (h : react this n found w s .receive = some (r, seat)) :
    w.Brings s.toClient ∧ (starved s.toClient = false ∨ s.dropped = true ∨ w.fails = true) ∧
      ∃ rest, seat = { s with
          toClient := rest, reset := s.reset || w.infd.content != s.toClient } ∧
        ((∃ text, r = .ok text ∧ text.length ≤ 9998 ∧ w.infd.content = frame text ++ rest) ∨
          (∃ what, r = .error (.ioException what)) ∧
            ¬∃ s r, w.infd.content = frame s ++ r ∧ s.length ≤ 9998) := by
  simp only [react, Option.bind_eq_bind, Option.bind_eq_some_iff, Option.pure_def,
    Option.some.injEq, Prod.mk.injEq, Prod.exists, Option.guard_eq_some', exists_const] at h
  obtain ⟨⟨hbrings, hawake⟩, r', infd, text, hrun, rfl, rfl⟩ := h
  refine ⟨hbrings, by simpa [or_assoc] using hawake, infd.content, rfl, ?_⟩
  by_cases hframe : ∃ s r, w.infd.content = frame s ++ r ∧ s.length ≤ 9998
  · obtain ⟨text', rest, hcont, hlen⟩ := hframe
    obtain ⟨infd', hexec, rfl⟩ := Framing.exec_receive hcont hlen []
    rw [hexec] at hrun
    obtain ⟨rfl, hsame⟩ := Prod.mk.inj (Option.some.inj hrun)
    obtain ⟨rfl, rfl⟩ := Prod.mk.inj hsame
    exact Or.inl ⟨text', rfl, hlen, hcont⟩
  · obtain ⟨what, infd', hexec⟩ := Framing.exec_receive_fails hframe []
    rw [hexec] at hrun
    obtain ⟨rfl, -⟩ := Prod.mk.inj (Option.some.inj hrun)
    exact Or.inr ⟨⟨what, rfl⟩, hframe⟩

/-- A program sends a beginning of the frame. -/
theorem react_send {text : Bytes} {r : Except Exception Unit}
    (h : react this n found w s (.send text) = some (r, seat)) :
    ∃ part, seat = { s with
        toServer := s.toServer ++ part, reset := s.reset || part != framed text } ∧
      part <+: framed text ∧ (r = .ok () → text.length ≤ 9998) ∧
      (.broken ∉ w.departures → text.length ≤ 9998 → r = .ok () ∧ part = frame text) := by
  simp only [react, Option.bind_eq_bind, Option.bind_eq_some_iff, Option.pure_def,
    Option.some.injEq, Prod.mk.injEq, Prod.exists] at h
  obtain ⟨r', outfd, hrun, rfl, rfl⟩ := h
  obtain ⟨res, fd, part, hexec, hw, hpart, hres, hopen⟩ :=
    exec_send_framed text ⟨s.toServer, w.departures⟩
  have hwhole : (fd.written != s.toServer ++ framed text) = (part != framed text) := by
    rw [hw]
    simp [bne]
  rw [hexec] at hrun
  rcases hres with ⟨rfl, hlen⟩ | ⟨what, rfl⟩
  · obtain ⟨rfl, rfl⟩ := Prod.mk.inj (Option.some.inj hrun)
    exact ⟨part, by rw [hwhole, hw], hpart, fun _ => hlen, fun ho hlen => ⟨rfl, (hopen ho hlen).2⟩⟩
  · obtain ⟨rfl, rfl⟩ := Prod.mk.inj (Option.some.inj hrun)
    refine ⟨part, by rw [hwhole, hw], hpart, fun h => ?_, fun ho hlen => ?_⟩
    · cases h
    · cases (hopen ho hlen).1

/-- So does a thread, unless the connection has been reset. -/
theorem thread_send {this : Client} {wake : Wake} {w : Weather} {s : Seat} {server : Server}
    {text : Bytes} {re : Session.Reaction (.send text)}
    (h : Session.react this wake (s.conn w) server (.send text) = some re) :
    re.conn.infd = w.infd ∧ re.conn.taken = s.taken ∧
      ∃ part, re.conn.outfd.written = s.toClient ++ part ∧ part <+: framed text ∧
        (re.answer = .ok () → text.length ≤ 9998) ∧ (s.reset = true → part = []) ∧
        (s.reset = false → .broken ∉ w.departures → text.length ≤ 9998 →
          re.answer = .ok () ∧ part = frame text) := by
  simp only [Session.react, Option.bind_eq_bind, Option.bind_eq_some_iff, Option.pure_def,
    Option.some.injEq, Prod.exists] at h
  obtain ⟨r, outfd, hrun, rfl⟩ := h
  refine ⟨rfl, rfl, ?_⟩
  cases hreset : s.reset with
  | true =>
    have hconn : (s.conn w).outfd = ⟨s.toClient, [.broken]⟩ := by rw [Seat.conn, hreset]; rfl
    rw [hconn] at hrun
    refine ⟨[], ?_⟩
    by_cases hlen : text.length ≤ 9998
    · rw [Framing.exec_send_broken hlen] at hrun
      obtain ⟨rfl, rfl⟩ := Prod.mk.inj (Option.some.inj hrun)
      simp
    · rw [Framing.exec_send_long (Nat.lt_of_not_le hlen)] at hrun
      obtain ⟨rfl, rfl⟩ := Prod.mk.inj (Option.some.inj hrun)
      simp
  | false =>
    have hconn : (s.conn w).outfd = ⟨s.toClient, w.departures⟩ := by rw [Seat.conn, hreset]; rfl
    obtain ⟨res, fd, part, hexec, hw, hpart, hres, hopen⟩ :=
      exec_send_framed text ⟨s.toClient, w.departures⟩
    rw [hconn, hexec] at hrun
    refine ⟨part, ?_⟩
    rcases hres with ⟨rfl, hlen⟩ | ⟨what, rfl⟩
    · obtain ⟨rfl, rfl⟩ := Prod.mk.inj (Option.some.inj hrun)
      exact ⟨hw, hpart, fun _ => hlen, by simp, fun _ ho hlen => ⟨rfl, (hopen ho hlen).2⟩⟩
    · obtain ⟨rfl, rfl⟩ := Prod.mk.inj (Option.some.inj hrun)
      refine ⟨hw, hpart, by simp, by simp, fun _ ho hlen => ?_⟩
      cases (hopen ho hlen).1

/-- What the program says or reads elsewhere leaves the connection alone. -/
theorem react_else {a : Act} {r : a.Answer} (h : react this n found w s a = some (r, seat))
    (hopen : ∀ host port, a ≠ .openClientfd host port) (hsend : ∀ text, a ≠ .send text)
    (hreceive : a ≠ .receive) : ∃ stdin hungUp, seat = { s with stdin, hungUp } := by
  cases a with
  | send text => exact absurd rfl (hsend text)
  | receive => exact absurd rfl hreceive
  | openClientfd host port => exact absurd rfl (hopen host port)
  | _ => obtain ⟨rfl, rfl⟩ := Prod.mk.inj (Option.some.inj h); exact ⟨_, _, rfl⟩

/-- A reaction is no action. -/
theorem react_frame {a : Act} {r : a.Answer} (h : react this n found w s a = some (r, seat)) :
    seat.ledger = s.ledger ∧ seat.past = s.past ∧ seat.taken = s.taken := by
  cases a with
  | send text =>
    obtain ⟨part, rfl, -⟩ := react_send h
    exact ⟨rfl, rfl, rfl⟩
  | receive =>
    obtain ⟨-, -, rest, rfl, -⟩ := react_receive h
    exact ⟨rfl, rfl, rfl⟩
  | openClientfd host port =>
    obtain ⟨rfl, rfl⟩ := Prod.mk.inj (Option.some.inj h)
    cases found <;> exact ⟨rfl, rfl, rfl⟩
  | _ => obtain ⟨rfl, rfl⟩ := Prod.mk.inj (Option.some.inj h); exact ⟨rfl, rfl, rfl⟩

end

/-! ### What is done in the server -/

section
variable {this : Client} {n : ℕ} {start d d' : Dialogue} {move : Move} {u : Unit}

theorem deedOf_reacted (s : Seat) (w : Weather) {a : Session.Act} (re : Session.Reaction a)
    (proc : Session.Proc Unit) : deedOf s (s.reacted w re proc) = carried re.happening := by
  rw [deedOf, Seat.reacted, List.drop_left]
  cases h : carried re.happening <;> simp [h]

theorem deedOf_same {s s' : Seat} (h : s'.past = s.past) : deedOf s s' = none := by
  rw [deedOf, h, List.drop_length]
  rfl

/-- A program or its thread does nothing in the server, or the thread calls an operation. -/
theorem step_own (hstep : (dialogue this n start).step d move = some (u, d'))
    (hown : ∀ op, move ≠ .other op) :
    (d'.server = d.server ∧ deedOf d.seat d'.seat = none ∧
        d'.seat.past.filterMap carried = d.seat.past.filterMap carried) ∨
      ∃ op f out, d.seat.thread = some (act (Session.Act.call op) f) ∧
        Server.machine.step d.server op = some (out, d'.server) ∧
        deedOf d.seat d'.seat = some (op, out, d.server, d'.server) ∧
        d'.seat.past.filterMap carried
          = d.seat.past.filterMap carried ++ [(op, out, d.server, d'.server)] := by
  have hsame : ∀ {seat : Seat}, seat.past = d.seat.past → deedOf d.seat seat = none ∧
      seat.past.filterMap carried = d.seat.past.filterMap carried := fun hpast =>
    ⟨deedOf_same hpast, congrArg (List.filterMap carried) hpast⟩
  cases move with
  | client found w =>
    obtain ⟨a, k, r, seat, -, hre, rfl⟩ := step_client.mp hstep
    obtain ⟨-, hpast, -⟩ := react_frame hre
    exact Or.inl ⟨rfl, @hsame (seat.went a r (k r)) hpast⟩
  | kill code =>
    obtain rfl := step_kill hstep
    exact Or.inl ⟨rfl, hsame rfl⟩
  | refuse =>
    obtain ⟨-, -, rfl⟩ := step_refuse hstep
    exact Or.inl ⟨rfl, hsame rfl⟩
  | other op => exact absurd rfl (hown op)
  | thread wake w =>
    obtain ⟨a, f, re, hthread, -, -, hre, rfl⟩ := step_thread.mp hstep
    have hpast : (d.seat.reacted w re (f re.answer)).past.filterMap carried
        = d.seat.past.filterMap carried ++ (carried re.happening).toList := by
      rw [Seat.reacted, List.filterMap_append]
      cases hh : carried re.happening <;> simp [hh]
    rw [deedOf_reacted, hpast]
    cases a with
    | receive =>
      rw [(Session.react_received hre).1, (Session.react_received hre).2]
      exact Or.inl ⟨rfl, rfl, List.append_nil _⟩
    | send text =>
      rw [(Session.react_sent hre).1, (Session.react_sent hre).2]
      exact Or.inl ⟨rfl, rfl, List.append_nil _⟩
    | dequeue =>
      rw [(Session.react_dequeued hre).1, (Session.react_dequeued hre).2.1]
      exact Or.inl ⟨rfl, rfl, List.append_nil _⟩
    | call op =>
      obtain ⟨out, server, hop, rfl⟩ := Session.react_call.mp hre
      exact Or.inr ⟨op, f, out, hthread, hop, rfl, rfl⟩

theorem deed_own (hown : ∀ op, move ≠ .other op) : deed (d, move, d') = deedOf d.seat d'.seat := by
  cases move with
  | other op => exact absurd rfl (hown op)
  | _ => rfl

theorem deed_idle (hown : ∀ op, move ≠ .other op) (hpast : d'.seat.past = d.seat.past) :
    deed (d, move, d') = none := (deed_own hown).trans (deedOf_same hpast)

theorem logIn_snoc {moves : List Move} {us : List Unit}
    (h : (dialogue this n start).run moves = some (us, d))
    (hstep : (dialogue this n start).step d move = some (u, d')) :
    logIn this n start (moves ++ [move])
      = logIn this n start moves ++ (deed (d, move, d')).toList := by
  have hrun : (dialogue this n start).runFrom start moves = some (us, d) := h
  rw [logIn, Machine.steps_snoc hrun hstep, List.filterMap_append, logIn]
  cases hdeed : deed (d, move, d') <;> simp [hdeed]

end

end Restaurant.Program
