import RestaurantOrder.Programs.Wired

/-! Conversations in which nothing fails.

    A fair move transfers all that there is to transfer, however it is cut up, and nobody kills the
    program or refuses it a thread. Then the connection is never reset (`run_fair`), and whoever has
    something to do can do it, unless it waits for a frame (`client_goes`, `thread_goes`).

        own moves: program and thread   |   other operations come in between -/

namespace Restaurant.Program
open Schemes Process
open Framing (frame)

def Move.Fair : Move → Prop
  | .client _ w => w.Fair
  | .thread _ w => w.Fair
  | .other _ => True
  | .kill _ => False
  | .refuse => False

def Move.byClient : Move → Bool
  | .client .. => true
  | _ => false

def Move.byThread : Move → Bool
  | .thread .. => true
  | _ => false

/-- The program or its thread moves. -/
def Move.own (move : Move) : Bool := move.byClient || move.byThread

/-- The thread may have waited for a message in vain. -/
def Move.idle : Move → Bool
  | .thread .timeout _ => true
  | _ => false

/-- The program or its thread can go on. -/
def Dialogue.Goes (this : Client) (n : ℕ) (d : Dialogue) : Prop :=
  ∃ (move : Move) (d' : Dialogue), move.Fair ∧ move.own = true ∧ move.idle = false ∧
    (dialogue this n d).step d move = some ((), d')

theorem countP_own (moves : List Move) :
    moves.countP Move.own = moves.countP Move.byClient + moves.countP Move.byThread := by
  induction moves with
  | nil => rfl
  | cons move moves ih =>
    cases move <;> simp only [List.countP_cons, Move.own, Move.byClient, Move.byThread, ih,
      Bool.or_false, Bool.or_true, if_true, Bool.false_eq_true, if_false] <;> omega

/-! ### Weather -/

/-- All the bytes come in, one at a time, and all go out. -/
def calm (bytes : Bytes) : Weather := { arrivals := bytes.map fun b => .data b [] }

theorem calm_fair (bytes : Bytes) : (calm bytes).Fair := ⟨rfl, List.not_mem_nil⟩

theorem calm_brings (bytes : Bytes) : (calm bytes).Brings bytes :=
  Or.inl (Framing.Infd.content_data bytes false)

/-- In fair weather all that there is comes in. -/
theorem Weather.Fair.content {w : Weather} (h : w.Fair) {bytes : Bytes} (hbrings : w.Brings bytes) :
    w.infd.content = bytes := by
  rcases hbrings with hall | ⟨hfails, -⟩
  · exact hall
  · rw [h.reads] at hfails
    cases hfails

/-- And all that is sent goes out. -/
theorem Weather.Fair.part {w : Weather} (h : w.Fair) {text part : Bytes} (hpart : part <+: framed text)
    (hopen : .broken ∉ w.departures → text.length ≤ 9998 → part = frame text) : part = framed text := by
  by_cases hlen : text.length ≤ 9998
  · rw [framed_short hlen]
    exact hopen h.writes hlen
  · rw [framed, if_neg hlen] at hpart ⊢
    exact List.prefix_nil.mp hpart

/-! ### Nothing is lost -/

section
variable {this : Client} {n : ℕ} {found : Bool} {w : Weather} {s seat : Seat}

theorem react_fair {a : Act} {r : a.Answer} (hw : w.Fair) (hreset : s.reset = false)
    (hre : react this n found w s a = some (r, seat)) : seat.reset = false := by
  cases a with
  | send text =>
    obtain ⟨part, rfl, hpart, -, hopen⟩ := react_send hre
    have hall := hw.part hpart fun hb hlen => (hopen hb hlen).2
    show (s.reset || part != framed text) = false
    simp [hreset, hall]
  | receive =>
    obtain ⟨hbrings, -, rest, rfl, -⟩ := react_receive hre
    show (s.reset || w.infd.content != s.toClient) = false
    simp [hreset, hw.content hbrings]
  | openClientfd host port =>
    obtain ⟨-, rfl⟩ := Prod.mk.inj (Option.some.inj hre)
    cases found <;> exact hreset
  | _ =>
    obtain ⟨stdin, hungUp, rfl⟩ := react_else hre nofun nofun nofun
    exact hreset

theorem reacted_fair {a : Session.Act} (hw : w.Fair) (hreset : s.reset = false)
    (hbrings : w.Brings s.toServer) {wake : Session.Wake} {server : Server} {re : Session.Reaction a}
    (hre : Session.react this wake (s.conn w) server a = some re) (p : Session.Proc Unit) :
    (s.reacted w re p).reset = false := by
  have htorn : torn s.toClient re.conn.outfd.written re.happening = false := by
    cases a with
    | send text =>
      obtain ⟨-, -, part, hwritten, hpart, -, -, hopen⟩ := thread_send hre
      have hall := hw.part hpart fun hb hlen => (hopen hreset hb hlen).2
      rw [(Session.react_sent hre).1, torn, hwritten, hall]
      simp
    | receive =>
      rw [(Session.react_received hre).1]
      rfl
    | dequeue =>
      rw [(Session.react_dequeued hre).1]
      rfl
    | call op =>
      obtain ⟨out, server', -, rfl⟩ := Session.react_call.mp hre
      rfl
  rw [Seat.reacted_reset]
  simp [hreset, hw.content hbrings, htorn]

/-- INVARIANTS: what the program, its thread and the others preserve holds in every fair run. -/
theorem fair_induct {start : Dialogue} {P : List Move → Dialogue → Prop} (h0 : P [] start)
    (hclient : ∀ {moves d found w a k r seat}, P moves d → w.Fair → d.seat.proc = act a k →
      react this n found w d.seat a = some (r, seat) →
      P (moves ++ [.client found w]) { d with seat := seat.went a r (k r) })
    (hthread : ∀ {moves d wake w a f} {re : Session.Reaction a}, P moves d → w.Fair →
      d.seat.thread = some (act a f) → w.Brings d.seat.toServer →
      Session.react this wake (d.seat.conn w) d.server a = some re →
      P (moves ++ [.thread wake w]) ⟨d.seat.reacted w re (f re.answer), re.server⟩)
    (hother : ∀ {moves d op server}, P moves d → P (moves ++ [.other op]) { d with server })
    {moves : List Move} (hfair : ∀ move ∈ moves, move.Fair) {us : List Unit} {d : Dialogue}
    (h : (dialogue this n start).run moves = some (us, d)) : P moves d := by
  refine Machine.runFrom_induct (P := fun moves _ d => (∀ move ∈ moves, move.Fair) → P moves d)
    (fun _ => h0) ?_ h hfair
  intro moves us d move u d' _ ih hstep hfair
  have hP := ih fun move hmem => hfair move (List.mem_append_left _ hmem)
  have hmove : move.Fair := hfair move (List.mem_append_right _ (List.mem_singleton_self _))
  cases move with
  | client found w =>
    obtain ⟨a, k, r, seat, hproc, hre, rfl⟩ := step_client.mp hstep
    exact hclient hP hmove hproc hre
  | kill code => exact hmove.elim
  | refuse => exact hmove.elim
  | thread wake w =>
    obtain ⟨a, f, re, hthr, hbrings, -, hre, rfl⟩ := step_thread.mp hstep
    exact hthread hP hmove hthr hbrings hre
  | other op =>
    obtain ⟨out, server, -, rfl⟩ := step_others.mp hstep
    exact hother hP

/-- COUNT: a text is asked for by a move of the program, and the past is what the thread has done. -/
structure Counted (start d : Dialogue) (moves : List Move) : Prop where
  reset : d.seat.reset = false
  asked : (texts d.seat.ledger).length ≤ (texts start.seat.ledger).length + moves.countP Move.byClient
  past : d.seat.past.length = start.seat.past.length + moves.countP Move.byThread

theorem texts_note (g : Ledger) {a : Act} (r : a.Answer) :
    (texts (g.note a r)).length ≤ (texts g).length + 1 := by
  cases a with
  | send text => simp
  | openClientfd host port => exact Nat.le_succ _
  | receive => cases r <;> exact Nat.le_succ _
  | _ =>
    obtain ⟨hasked, -⟩ := note_else g r (by simp) (by simp) (by simp)
    rw [texts, hasked]
    exact Nat.le_succ _

theorem run_fair {start : Dialogue} (hreset : start.seat.reset = false) {moves : List Move}
    (hfair : ∀ move ∈ moves, move.Fair) {us : List Unit} {d : Dialogue}
    (h : (dialogue this n start).run moves = some (us, d)) : Counted start d moves := by
  refine fair_induct (P := fun moves d => Counted start d moves) ⟨hreset, le_rfl, rfl⟩ ?_ ?_ ?_ hfair h
  · intro moves d found w a k r seat ⟨hreset, hasked, hpast⟩ hw _ hre
    obtain ⟨hledger, hpast', -⟩ := react_frame hre
    have hnote := texts_note d.seat.ledger r
    refine ⟨show seat.reset = false from react_fair hw hreset hre, ?_, ?_⟩
    · show (texts (seat.ledger.note a r)).length ≤ _
      rw [hledger, List.countP_append]
      simp only [List.countP_singleton, Move.byClient, if_true]
      omega
    · show seat.past.length = _
      simp [hpast', hpast, Move.byThread]
  · intro moves d wake w a f re ⟨hreset, hasked, hpast⟩ hw _ hbrings hre
    refine ⟨reacted_fair hw hreset hbrings hre _, ?_, ?_⟩
    · simpa [Seat.reacted, Move.byClient] using hasked
    · simp [Seat.reacted, hpast, Move.byThread, Nat.add_assoc]
  · intro moves d op server ⟨hreset, hasked, hpast⟩
    exact ⟨hreset, by simpa [Move.byClient] using hasked, by simpa [Move.byThread] using hpast⟩

end

/-! ### Nobody is stuck -/

section
variable {this : Client} {n : ℕ} {d : Dialogue}

/-- A program can do anything but receive. -/
theorem client_goes {a : Act} {k : a.Answer → Proc Int32} (hproc : d.seat.proc = act a k)
    (ha : a ≠ .receive) : d.Goes this n := by
  have hre : ∃ r seat, react this n true {} d.seat a = some (r, seat) := by
    cases a with
    | receive => exact absurd rfl ha
    | send text =>
      obtain ⟨res, fd, part, hexec, -, -, hres, -⟩ := exec_send_framed text ⟨d.seat.toServer, []⟩
      rcases hres with ⟨rfl, -⟩ | ⟨what, rfl⟩ <;>
        exact ⟨_, _, by simp only [react, hexec, raise, Session.ended]; rfl⟩
    | _ => exact ⟨_, _, rfl⟩
  obtain ⟨r, seat, hre⟩ := hre
  exact ⟨.client true {}, _, ⟨rfl, List.not_mem_nil⟩, rfl, rfl,
    step_client.mpr ⟨a, k, r, seat, hproc, hre, rfl⟩⟩

theorem ended_receive (infd : Framing.Infd) :
    ∃ r infd' text, Session.ended (exec Framing.receive (infd, [])) = some (r, infd', text) := by
  by_cases hframe : ∃ s r, infd.content = frame s ++ r ∧ s.length ≤ 9998
  · obtain ⟨text, rest, hcont, hlen⟩ := hframe
    obtain ⟨infd', hexec, -⟩ := Framing.exec_receive hcont hlen []
    rw [hexec]
    exact ⟨_, _, _, rfl⟩
  · obtain ⟨what, infd', hexec⟩ := Framing.exec_receive_fails hframe []
    rw [hexec]
    exact ⟨_, _, _, rfl⟩

/-- It can receive when there is a frame, or when there will never be one. -/
theorem client_hears {k : Except Exception Bytes → Proc Int32}
    (hproc : d.seat.proc = act Act.receive k)
    (hawake : starved d.seat.toClient = false ∨ d.seat.dropped = true) : d.Goes this n := by
  obtain ⟨r, infd, text, hended⟩ := ended_receive (calm d.seat.toClient).infd
  have hre : react this n true (calm d.seat.toClient) d.seat .receive
      = some (r.map fun _ => text, { d.seat with
          toClient := infd.content,
          reset := d.seat.reset || (calm d.seat.toClient).infd.content != d.seat.toClient }) := by
    rw [react, hended]
    simp [calm_brings, hawake]
  exact ⟨.client true (calm d.seat.toClient), _, calm_fair _, rfl, rfl,
    step_client.mpr ⟨.receive, k, _, _, hproc, hre, rfl⟩⟩

/-- A thread that may act and whose surroundings react goes on. -/
theorem thread_goes {a : Session.Act} {f : a.Answer → Session.Proc Unit}
    {re : Session.Reaction a} (hthread : d.seat.thread = some (act a f))
    (hawake : awake (calm d.seat.toServer) d.seat a = true)
    (hre : Session.react this .message (d.seat.conn (calm d.seat.toServer)) d.server a = some re) :
    d.Goes this n :=
  ⟨.thread .message (calm d.seat.toServer), _, calm_fair _, rfl, rfl,
    step_thread.mpr ⟨a, f, re, hthread, calm_brings _, hawake, hre, rfl⟩⟩

/-- A thread can send at any time. -/
theorem thread_speaks {text : Bytes} {f : Except Exception Unit → Session.Proc Unit}
    (hthread : d.seat.thread = some (act (Session.Act.send text) f)) : d.Goes this n := by
  obtain ⟨r, outfd, part, hre, -⟩ := Session.react_send this .message
    (d.seat.conn (calm d.seat.toServer)) d.server text
  exact thread_goes hthread rfl hre

/-- It can receive when there is a frame. -/
theorem thread_hears {f : Except Exception Bytes → Session.Proc Unit}
    (hthread : d.seat.thread = some (act Session.Act.receive f))
    (hwhole : starved d.seat.toServer = false) : d.Goes this n := by
  obtain ⟨r, infd, hre, -⟩ := Session.react_receive this .message
    (d.seat.conn (calm d.seat.toServer)) d.server
  exact thread_goes hthread (by simp [awake, hwhole]) hre

/-- And call what the server can do. -/
theorem thread_calls {op : Op} {f : Out → Session.Proc Unit} {out : Out} {server : Server}
    (hthread : d.seat.thread = some (act (Session.Act.call op) f))
    (hstep : Server.machine.step d.server op = some (out, server)) : d.Goes this n :=
  thread_goes hthread rfl (Session.react_call.mpr ⟨out, server, hstep, rfl⟩)

/-- A whole frame does not end before it ends. -/
theorem starved_frame {s : Bytes} (hs : s.length ≤ 9998) (rest : Bytes) :
    starved (frame s ++ rest) = false := by
  have hprefix : (padded 4 (s.length + 1)).length = 4 := length_padded (by decide) (by omega)
  obtain ⟨n, hparse, hn⟩ := Framing.parseLengthPrefix_padded (k := s.length + 1) (by omega) (by omega)
  have htake : (frame s ++ rest).take 4 = padded 4 (s.length + 1) := by
    rw [frame, List.append_assoc, List.append_assoc]
    exact List.take_left' hprefix
  have hlen : (frame s ++ rest).length = 4 + (s.length + 1) + rest.length := by
    simp only [frame, List.length_append, hprefix, List.length_singleton]
    omega
  rw [starved, htake, hparse, hlen]
  simp only [hn, Bool.or_eq_false_iff, decide_eq_false_iff_not]
  omega

/-- And take a message that is in the queue. -/
theorem thread_takes {f : Except Exception (Option Message) → Session.Proc Unit}
    (hthread : d.seat.thread = some (act Session.Act.dequeue f))
    (hmore : d.seat.taken < (d.server.queue this).length) : d.Goes this n := by
  have hnext := List.getElem?_eq_getElem hmore
  exact thread_goes hthread rfl (by simp only [Session.react, Seat.conn, hnext]; rfl)

/-- There is a frame to receive if a text has been sent that was not received. -/
theorem starved_of_channel {sent received : List Bytes} {bytes : Bytes}
    (h : Channel false sent received bytes) (hshort : ∀ t ∈ sent, t.length ≤ 9998)
    (hlen : received.length < sent.length) : starved bytes = false := by
  obtain ⟨more, rfl⟩ := h.order
  have hwhole := h.whole rfl
  rw [List.drop_left] at hwhole
  cases more with
  | nil => simp at hlen
  | cons t more =>
    rw [List.flatMap_cons, framed_short (hshort t (by simp))] at hwhole
    rw [hwhole]
    exact starved_frame (hshort t (by simp)) _

end

end Restaurant.Program
