import Mathlib.Algebra.Order.BigOperators.Group.List
import RestaurantOrder.Programs.Fair
import RestaurantOrder.Programs.Finite
import RestaurantOrder.Programs.Lockstep
import RestaurantOrder.Session.Requests

/-! Every fair conversation of an updater comes to its end.

    The program takes no more actions than its input pays for, and the thread no more than three for
    each text and one to see the end. As long as the program has not returned, one of the two has
    something to do: where both receive, the text that the one waits for is on its way.

        program waits ──▶ its text was received? ── no ──▶ the thread can receive it
                                                 ── yes ─▶ the thread can answer it -/

namespace Restaurant.Updater
open Schemes Process Program
open Framing (frame)
open Wire (MessageText messageStr)
open Session (Happening Course Turn Pending Accepts requestOf)

/-! ### The thread -/

/-- What the thread of an updater does next. -/
inductive Next (n : ℕ) (past : List Happening) : Session.Proc Unit → Prop
  | finished {r} : Next n past (done r)
  | exhausted (h : n < (ins past).length) : Next n past more
  | listening {f} (h : (outs past).length = (ins past).length) :
      Next n past (act Session.Act.receive f)
  | speaking {text f} : Next n past (act (Session.Act.send text) f)
  | calling {msg raw op f} (htext : MessageText Spelled msg raw) (hop : requestOf msg = some op) :
      Next n past (act (Session.Act.call op) f)

theorem course_next {this : Client} {n : ℕ} {past : List Happening} {p : Session.Proc Unit}
    (h : Course this n past p) (hno : ∀ raw ∈ (ins past).head?, ¬Accepts .display raw) :
    Next n past p := by
  cases h with
  | opening =>
    rw [Session.chat_eq]
    exact .listening rfl
  | rejected => exact .finished
  | refusing => exact .speaking
  | refused => exact .finished
  | greeting => exact .speaking
  | @serving raw r k tail p turns hacc hturns htail hn =>
    cases htail with
    | @listening k =>
      cases k with
      | zero => exact .exhausted (by rw [ins_serving]; omega)
      | succ k =>
        rw [Session.serving_succ]
        exact .listening (by rw [ins_serving, outs_serving]; rfl)
    | asked htext hop => exact .calling htext hop
    | replying => exact .speaking
    | scolding => exact .speaking
    | leaving => exact .speaking
    | left => exact .finished
    | stopped => exact .finished
  | displaying hacc => exact absurd hacc (hno _ rfl)

theorem length_turn (t : Turn) : t.events.length ≤ 3 := by
  cases t with
  | request x => exact le_rfl
  | scolding raw result => exact Nat.le_succ _

/-- COST: three actions for each text, and one to see that no more comes. -/
theorem course_length {this : Client} {n : ℕ} {past : List Happening} {p : Session.Proc Unit}
    (h : Course this n past p) (hno : ∀ raw ∈ (ins past).head?, ¬Accepts .display raw) :
    past.length ≤ 3 * (ins past).length + 1 := by
  cases h with
  | opening => exact Nat.zero_le _
  | rejected => exact Nat.le_add_left _ _
  | refusing => exact Nat.le_add_left _ _
  | refused => exact (by decide : 2 ≤ 4)
  | greeting => exact Nat.le_add_left _ _
  | @serving raw r k tail p turns hacc hturns htail hn =>
    have hturns' : (turns.flatMap Turn.events).length ≤ 3 * turns.length := by
      rw [List.length_flatMap]
      have := List.sum_le_card_nsmul (turns.map fun t => t.events.length) 3 (by simp [length_turn])
      simpa [Nat.mul_comm] using this
    have htail' : tail.length ≤ 3 * (ins tail).length + 1 := by
      cases htail with
      | listening => exact Nat.zero_le _
      | asked => exact (by decide : 1 ≤ 4)
      | replying => exact (by decide : 2 ≤ 4)
      | scolding => exact (by decide : 1 ≤ 4)
      | leaving => exact (by decide : 1 ≤ 4)
      | left => exact (by decide : 2 ≤ 4)
      | stopped => exact Nat.le_add_left _ _
    rw [ins_serving]
    simp only [List.length_cons, List.length_append]
    omega
  | displaying hacc => exact absurd hacc (hno _ rfl)

/-! ### The program -/

section
variable {this : Client} {n : ℕ} {s : Seat} {p : Session.Proc Unit}

/-- The terminal answers as the input goes. -/
theorem react_typing {found : Bool} {w : Weather} {a : Act} {r : a.Answer} {seat : Seat}
    (hre : react this n found w s a = some (r, seat)) (b : ℕ) :
    typing.answers ⟨s.stdin, b⟩ a r ∧ typing.next ⟨s.stdin, b⟩ a r = ⟨seat.stdin, b - 1⟩ := by
  cases a with
  | send text =>
    obtain ⟨part, rfl, -⟩ := react_send hre
    exact ⟨trivial, rfl⟩
  | receive =>
    obtain ⟨-, -, rest, rfl, -⟩ := react_receive hre
    exact ⟨trivial, rfl⟩
  | openClientfd host port =>
    obtain ⟨-, rfl⟩ := Prod.mk.inj (Option.some.inj hre)
    cases found <;> exact ⟨trivial, rfl⟩
  | getline =>
    obtain ⟨rfl, rfl⟩ := Prod.mk.inj (Option.some.inj hre)
    exact ⟨rfl, rfl⟩
  | _ =>
    obtain ⟨-, rfl⟩ := Prod.mk.inj (Option.some.inj hre)
    exact ⟨trivial, rfl⟩

/-- PAY: what the program has done so far is paid for, and so is what it can still do. -/
theorem run_total {start : Dialogue} {B : ℕ}
    (hstart : Total typing (fun _ _ => True) start.seat.proc ⟨start.seat.stdin, B⟩) {moves : List Move}
    (hfair : ∀ move ∈ moves, move.Fair) {us : List Unit} {d : Dialogue}
    (h : (dialogue this n start).run moves = some (us, d)) :
    ∃ b, b + moves.countP Move.byClient = B ∧
      Total typing (fun _ _ => True) d.seat.proc ⟨d.seat.stdin, b⟩ := by
  refine fair_induct (P := fun moves d => ∃ b, b + moves.countP Move.byClient = B ∧
    Total typing (fun _ _ => True) d.seat.proc ⟨d.seat.stdin, b⟩) ⟨B, rfl, hstart⟩ ?_ ?_ ?_ hfair h
  · rintro moves d found w a k r seat ⟨b, hb, htotal⟩ - hproc hre
    rw [hproc] at htotal
    obtain ⟨(hpos : 0 < b), hnext⟩ := htotal
    obtain ⟨hanswers, hbudget⟩ := react_typing hre b
    refine ⟨b - 1, ?_, ?_⟩
    · simp only [List.countP_append, List.countP_singleton, Move.byClient, if_true]
      omega
    · show Total typing _ (k r) ⟨seat.stdin, b - 1⟩
      rw [← hbudget]
      exact hnext r hanswers
  · rintro moves d wake w a f re ⟨b, hb, htotal⟩ - - - -
    exact ⟨b, by simpa [Move.byClient] using hb, htotal⟩
  · rintro moves d op server ⟨b, hb, htotal⟩
    exact ⟨b, by simpa [Move.byClient] using hb, htotal⟩

/-! ### Both -/

/-- WAIT: an updater that waits for a response can receive it, or its thread can go on. -/
theorem Linked.goes {d : Dialogue} (h : Linked this n d.seat p) (hs : Sound d.seat.ledger)
    (hgood : d.server.Good) (hreset : d.seat.reset = false) (hthread : d.seat.thread = some p)
    (hwaiting : d.seat.ledger.stage = .waiting) (hturns : (texts d.seat.ledger).length ≤ n)
    {k : Except Exception Bytes → Proc Int32} (hproc : d.seat.proc = act Act.receive k) :
    d.Goes this n ∨ d.server.nextOrderId = Int32.maxValue := by
  have hover : ¬Over d.seat.ledger := not_over (Or.inr hwaiting)
  have hlengths := h.lengths hs
  have hnext : Next n d.seat.past p ∨ p = done (.ok ()) :=
    h.course.imp (fun hcourse => course_next hcourse (h.not_display hs)) And.right
  rcases hnext with hnext | rfl
  case inr => exact Or.inl (client_hears hproc (Or.inr (by rw [Seat.dropped, hthread])))
  cases hnext with
  | finished => exact Or.inl (client_hears hproc (Or.inr (by rw [Seat.dropped, hthread])))
  | exhausted hn => omega
  | speaking => exact Or.inl (thread_speaks hthread)
  | @calling msg raw op f htext hop =>
    rcases Server.step_defined hgood op with ⟨out, server, hstep, -⟩ | ⟨o, rfl, hnull | hmax, -⟩
    · exact Or.inl (thread_calls hthread hstep)
    · exact absurd (Session.request_full htext hop) hnull
    · exact Or.inr hmax
  | listening hquiet =>
    -- the text that was asked is on its way to the thread, or the one for the program to it
    have hasked : (texts d.seat.ledger).length = d.seat.ledger.heard.length + 1 := by
      rw [texts, List.length_map]
      exact hs.waiting hwaiting
    by_cases hheard : d.seat.ledger.heard.length < (outs d.seat.past).length
    · have hout := h.wired.outbound.resolve_left hover
      rw [hreset] at hout
      exact Or.inl (client_hears hproc (Or.inl (starved_of_channel hout (h.outs_short hs) hheard)))
    · have hin := h.wired.inbound.resolve_left not_done
      rw [hreset] at hin
      exact Or.inl (thread_hears hthread
        (starved_of_channel hin (h.wired.short.resolve_left hover) (by omega)))

/-- Someone can go on as long as the program has something to do. -/
theorem Coupled.goes {d : Dialogue} (h : Coupled this n d.seat) (hgood : d.server.Good)
    (hreset : d.seat.reset = false) (hturns : (texts d.seat.ledger).length ≤ n) {a : Act}
    {k : a.Answer → Proc Int32} (hproc : d.seat.proc = act a k) :
    d.Goes this n ∨ d.server.nextOrderId = Int32.maxValue := by
  by_cases ha : a = .receive
  case neg => exact Or.inl (client_goes hproc ha)
  subst ha
  have hkeeps := h.keeps
  rw [hproc] at hkeeps
  have hwaiting : d.seat.ledger.stage = .waiting := stage_receive hkeeps.1
  rcases h.link with hunlinked | ⟨p, hthread, -, hlinked⟩
  · rcases hunlinked.stage with hstage | hstage <;> cases hstage.symm.trans hwaiting
  · exact hlinked.goes h.sound hgood hreset hthread hwaiting hturns hproc

/-- COST: of each run in which nothing fails. -/
theorem Coupled.cost {d : Dialogue} (h : Coupled this n d.seat) :
    d.seat.past.length ≤ 3 * (texts d.seat.ledger).length + 1 := by
  rcases h.link with hunlinked | ⟨p, -, -, hlinked⟩
  · rw [hunlinked.past]
    exact Nat.zero_le _
  · rcases hlinked.course with hcourse | ⟨hpast, -⟩
    · have hcost := course_length hcourse (hlinked.not_display h.sound)
      have hlengths := hlinked.lengths h.sound
      omega
    · rw [hpast]
      exact Nat.zero_le _

end

/-- FINISH: whatever the user types and the other clients do, if nothing fails on the way then the
    updater and its thread move only so often, and one of them can move until the program has
    returned; only the ids of the server may run out. -/
theorem updater_finishes {this : Client} {argv : List Bytes} (hargv : argv ≠ []) {stdin : Bytes}
    {n m : ℕ} (hm : stdin.length < m) (hn : 8 * stdin.length + 11 ≤ n) {server : Server}
    (hgood : server.Good) {moves : List Move} (hfair : ∀ move ∈ moves, move.Fair) {us : List Unit}
    {d : Dialogue}
    (h : (dialogue this n ⟨{ proc := main argv m, stdin }, server⟩).run moves = some (us, d)) :
    moves.countP Move.own ≤ 32 * stdin.length + 45 ∧
      ((∃ code, d.seat.proc = done (.ok code)) ∨ d.Goes this n ∨
        d.server.nextOrderId = Int32.maxValue) := by
  obtain ⟨hgood', hcoupled⟩ := run_coupled hgood (Coupled.begin hargv m stdin) h
  obtain ⟨hreset, hasked, hpast⟩ := run_fair rfl hfair h
  obtain ⟨b, hb, htotal⟩ := run_total (main_total hargv hm le_rfl) hfair h
  have hcost := hcoupled.cost
  rw [allowance] at hb
  simp only [texts, List.map_nil, List.length_nil, Nat.zero_add] at hasked hpast
  refine ⟨?_, ?_⟩
  · rw [countP_own]
    rw [texts] at hcost
    omega
  · have hkeeps := hcoupled.keeps
    rcases hproc : d.seat.proc with r | _ | ⟨a, k⟩ <;> rw [hproc] at hkeeps htotal
    · exact Or.inl (by obtain ⟨-, -, code, rfl⟩ := hkeeps; exact ⟨code, rfl⟩)
    · exact htotal.elim
    · exact Or.inr (hcoupled.goes hgood' hreset (by rw [texts]; omega) hproc)

/-- An updater asks for an update, is refused, and has come to the end of its input. -/
theorem updater_finishes_early :
    let argv := [ascii "updater", ascii "localhost", ascii "8080"]
    let stdin := ascii "alice\nfoobar\norder_update\n7\nDONE\n"
    let own : Move := .client true {}
    let hears (text : Bytes) : Move := .client true (calm (frame text))
    let asked (text : Bytes) : Move := .thread .timeout (calm (frame text))
    let moves := [own, own, own, own, own, own, asked (ascii "LOGIN|UPDATER|alice/foobar"),
      .thread .timeout {}, hears (ascii "OK|Login successful"), own, own, own, own, own,
      asked (ascii "ORDER_UPDATE|7|DONE"), .thread .timeout {}, .thread .timeout {},
      hears (ascii "ERROR|order not found"), own, own, own, own, .thread .timeout {}]
    ∃ us d, (dialogue 5 275 ⟨{ proc := main argv 34, stdin }, {}⟩).run moves = some (us, d) ∧
      d.seat.ledger.told = [ascii "Failure: order not found\n"] ∧ d.seat.dropped = true ∧
      moves.countP Move.own ≤ 32 * stdin.length + 45 ∧
      ((∃ code, d.seat.proc = done (.ok code)) ∨ d.Goes 5 275 ∨
        d.server.nextOrderId = Int32.maxValue) := by
  intro argv stdin own hears asked moves
  have hfair : ∀ move ∈ moves, move.Fair := by
    have hown : own.Fair := ⟨rfl, List.not_mem_nil⟩
    have hthread : (Move.thread .timeout {}).Fair := ⟨rfl, List.not_mem_nil⟩
    have hhears : ∀ text, (hears text).Fair := fun text => calm_fair (frame text)
    have hasked : ∀ text, (asked text).Fair := fun text => calm_fair (frame text)
    simp only [moves, List.forall_mem_cons, List.not_mem_nil, false_implies, implies_true, and_true]
    simp only [hown, hthread, hhears, hasked, and_true]
  have hrun : ((dialogue 5 275 ⟨{ proc := main argv 34, stdin }, {}⟩).run moves).map
      (fun p => (p.2.seat.ledger.told, p.2.seat.dropped))
      = some ([ascii "Failure: order not found\n"], true) := by decide +kernel
  obtain ⟨⟨us, d⟩, hd, hended⟩ := Option.map_eq_some_iff.mp hrun
  obtain ⟨htold, hdropped⟩ := Prod.mk.inj hended
  exact ⟨us, d, hd, htold, hdropped, updater_finishes (List.cons_ne_nil _ _) (by decide) (by decide)
    Server.good_init hfair hd⟩

end Restaurant.Updater
