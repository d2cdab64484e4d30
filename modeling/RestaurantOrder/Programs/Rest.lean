import RestaurantOrder.Programs.Shown
import RestaurantOrder.Programs.Tally

/-! A display catches up with the server.

    If nothing fails on the way, a display and its thread do only so much about the messages in the
    queue. Until they have come to rest one of the two can go on without waiting in vain, and at rest the
    screen shows the orders that the server has.

        queue ──dequeue──▶ thread ──send──▶ bytes ──receive──▶ display ──print──▶ screen -/

namespace Restaurant.Display
open Schemes Process Program
open Wire (Decoded messageStr)
open Session (Deed Happening Feed Feeding FeedEnds fed founds foundOf fedEvents taken)

/-! ### The thread -/

/-- What the thread of a display does next. -/
inductive Next (this : Client) (n : ℕ) (past : List Happening) : Session.Proc Unit → Prop
  | finished {r} : Next this n past (done r)
  | exhausted (h : n ≤ (founds past).length) : Next this n past more
  | opening {f} (h : past = []) : Next this n past (act Session.Act.receive f)
  | speaking {text f} : Next this n past (act (Session.Act.send text) f)
  | calling {op f} (hop : op = .registerDisplay this ∨ op = .unregisterDisplay this) :
      Next this n past (act (Session.Act.call op) f)
  | waiting {f} : Next this n past (act Session.Act.dequeue f)

section
variable {this : Client} {n : ℕ} {past : List Happening} {p : Session.Proc Unit}

theorem feed_next (h : Feed this n past p) : Next this n past p := by
  cases h with
  | opening =>
    rw [Session.chat_eq]
    exact .opening rfl
  | rejected => exact .finished
  | refusing => exact .speaking
  | refused => exact .finished
  | greeting => exact .speaking
  | entering =>
    rw [Session.entered_display]
    exact .calling (Or.inl rfl)
  | @feeding raw r before after k tail p l hshort htail hn =>
    cases htail with
    | @waiting k =>
      cases k with
      | zero => exact .exhausted (by rw [Session.founds_admitted, List.length_append]; omega)
      | succ k =>
        rw [Session.feeding_succ]
        exact .waiting
    | sending => exact .speaking
    | leaving => exact .calling (Or.inr rfl)
    | left => exact .finished

theorem feedEnds_length {tail : List Happening} (h : FeedEnds tail) :
    tail.length ≤ 2 * (founds tail).length + 1 := by
  rcases h with ⟨e, rfl⟩ | ⟨found, e, rfl⟩
  · exact Nat.le_add_left _ _
  · exact (by decide : 2 ≤ 3)

theorem founds_left {tail : List Happening} (op : Op) (out : Out) (before after : Server) :
    founds (tail ++ [.called op out before after]) = founds tail := by
  rw [founds, List.filterMap_append]
  exact List.append_nil _

theorem length_fedEvents (l : List (Option Message)) :
    (l.flatMap fedEvents).length = 2 * l.length := by
  rw [List.length_flatMap]
  simp [fedEvents, Nat.mul_comm]

/-- COST: two actions for each `dequeue`, and five to begin and end. -/
theorem feed_length (h : Feed this n past p) : past.length ≤ 2 * (founds past).length + 5 := by
  cases h with
  | @feeding raw r before after k tail p l hshort htail hn =>
    have htail' : tail.length ≤ 2 * (founds tail).length + 2 := by
      cases htail with
      | waiting => exact Nat.zero_le _
      | sending => exact Nat.le_add_left _ _
      | leaving hends => exact (feedEnds_length hends).trans (Nat.le_succ _)
      | left hends =>
        rw [founds_left, List.length_append, List.length_singleton]
        exact Nat.succ_le_succ (feedEnds_length hends)
    rw [Session.founds_admitted]
    simp only [Session.admitted, List.length_append, List.length_cons, List.length_nil,
      length_fedEvents]
    omega
  | opening => exact Nat.zero_le _
  | refused => exact (by decide : 2 ≤ 5)
  | entering => exact (by decide : 2 ≤ 5)
  | _ => exact Nat.le_add_left _ _

/-- It sends a text for each `dequeue`, and one before. -/
theorem feed_outs (h : Feed this n past p) : (outs past).length ≤ (founds past).length + 1 := by
  have hlen := h.sends.length_le
  rw [List.length_tail, List.length_map] at hlen
  rw [outs]
  omega

end

/-! ### What is taken -/

section
variable {this : Client} {n start : ℕ} {t : Tale} {log : List Deed} {killed : Prop} {d : Dialogue}

theorem founds_snoc (past : List Happening) (h : Happening) :
    founds (past ++ [h]) = founds past ++ (foundOf h).toList := by
  rw [founds, List.filterMap_append]
  cases hh : foundOf h <;> simp [founds, hh]

/-- A `dequeue` that returns nothing has waited in vain. -/
theorem found_nothing {a : Session.Act} {wake : Session.Wake} {conn : Session.Connection}
    {server : Server} {re : Session.Reaction a}
    (hre : Session.react this wake conn server a = some re) (hnone : foundOf re.happening = some none) :
    wake = .timeout := by
  cases a with
  | receive =>
    rw [(Session.react_received hre).1] at hnone
    cases hnone
  | send text =>
    rw [(Session.react_sent hre).1] at hnone
    cases hnone
  | call op =>
    obtain ⟨out, server', -, rfl⟩ := Session.react_call.mp hre
    cases hnone
  | dequeue =>
    cases wake with
    | timeout => rfl
    | message =>
      simp only [Session.react, Option.bind_eq_bind, Option.bind_eq_some_iff, Option.pure_def,
        Option.some.injEq] at hre
      obtain ⟨msg, -, rfl⟩ := hre
      cases hnone
    | throws e =>
      obtain rfl := Option.some.inj hre
      cases hnone

/-- COUNT: each `dequeue` has taken a message or has waited in vain. -/
theorem run_founds {beginning : Dialogue} (hpast : beginning.seat.past = []) {moves : List Move}
    (hfair : ∀ move ∈ moves, move.Fair) {us : List Unit}
    (h : (dialogue this n beginning).run moves = some (us, d)) :
    (founds d.seat.past).length ≤ (taken d.seat.past).length + moves.countP Move.idle := by
  refine fair_induct (P := fun moves d => (founds d.seat.past).length
    ≤ (taken d.seat.past).length + moves.countP Move.idle) ?_ ?_ ?_ ?_ hfair h
  · rw [hpast]
    exact Nat.zero_le _
  · intro moves d found w a k r seat ih _ _ hre
    obtain ⟨-, hpast', -⟩ := react_frame hre
    simpa [hpast', Seat.went, Move.idle] using ih
  · intro moves d wake w a f re ih _ _ _ hre
    rw [Seat.reacted_past, founds_snoc, taken_snoc, List.length_append, List.length_append, List.countP_append]
    rcases hfound : foundOf re.happening with _ | _ | m
    · simp only [Option.toList_none, List.length_nil, Option.bind_none]
      omega
    · obtain rfl := found_nothing hre hfound
      simpa [Move.idle, ← Nat.add_assoc] using ih
    · simp only [Option.toList_some, List.length_singleton, Option.bind_some, id]
      omega
  · intro moves d op server ih
    simpa [Move.idle] using ih

/-- No more is taken than has been put in the queue. -/
theorem Stream.taken_le {past : List Happening} {count : ℕ} {s : Server}
    (h : Stream this start t past count s) :
    (taken past).length ≤ (queued this start s).length ∧ count ≤ (s.queue this).length := by
  have hlen := h.took.length_le
  have hbegun := h.begun
  have hcount := h.count
  rw [queued, List.length_drop] at hlen ⊢
  exact ⟨hlen, by omega⟩

/-- What has been heard was sent, and each text was found for it but the first. -/
theorem Coupled.heard_le (h : Coupled this n start log killed d) :
    d.seat.ledger.heard.length ≤ (founds d.seat.past).length + 1 := by
  rcases h.link with hunlinked | ⟨p, -, -, hlinked⟩
  · rw [hunlinked.heard]
    exact Nat.zero_le _
  · refine hlinked.wired.heard.length_le.trans ?_
    rcases hlinked.feed with hfeed | ⟨hpast, -⟩
    · exact feed_outs hfeed
    · rw [hpast]
      exact Nat.zero_le _

theorem Coupled.past_le (h : Coupled this n start log killed d) :
    d.seat.past.length ≤ 2 * (founds d.seat.past).length + 5 := by
  rcases h.link with hunlinked | ⟨p, -, -, hlinked⟩
  · rw [hunlinked.past]
    exact Nat.zero_le _
  · rcases hlinked.feed with hfeed | ⟨hpast, -⟩
    · exact feed_length hfeed
    · rw [hpast]
      exact Nat.zero_le _

/-! ### Nobody is stuck -/

/-- WAIT: a display that waits for a text can receive it, or its thread can go on, or both are at rest. -/
theorem Linked.goes {p : Session.Proc Unit} (h : Linked this n d.seat p) (hs : Sound d.seat.ledger)
    (hstream : Stream this start t d.seat.past d.seat.taken d.server)
    (hreset : d.seat.reset = false) (hthread : d.seat.thread = some p)
    (hallowed : Allowed d.seat.ledger .receive) (hturns : (founds d.seat.past).length < n)
    {k : Except Exception Bytes → Proc Int32} (hproc : d.seat.proc = act Act.receive k) :
    AtRest this d ∨ d.Goes this n := by
  have hover : ¬Over d.seat.ledger := not_over (allowed_receive hallowed)
  have hout := h.wired.outbound.resolve_left hover
  rw [hreset] at hout
  have hnext : Next this n d.seat.past p ∨ p = done (.ok ()) :=
    h.feed.imp (fun hfeed => feed_next hfeed) And.right
  rcases hnext with hnext | rfl
  case inr => exact Or.inr (client_hears hproc (Or.inr (by rw [Seat.dropped, hthread])))
  cases hnext with
  | finished => exact Or.inr (client_hears hproc (Or.inr (by rw [Seat.dropped, hthread])))
  | exhausted hn => omega
  | speaking => exact Or.inr (thread_speaks hthread)
  | calling hop =>
    rcases hop with rfl | rfl
    · exact Or.inr (thread_calls hthread (Server.step_registerDisplay hstream.good this))
    · exact Or.inr (thread_calls hthread rfl)
  | opening hpast =>
    -- the login is on its way
    have hasked : d.seat.ledger.asked ≠ [] := by
      rcases hallowed with hwaiting | ⟨orders, hw⟩
      · exact (hs.waiting hwaiting).1
      · intro hnil
        obtain ⟨raw, rest, msg, hheard, -⟩ := hw.welcomed
        rw [hs.unasked hnil] at hheard
        cases hheard
    have hin := h.wired.inbound.resolve_left not_done
    rw [hreset] at hin
    refine Or.inr (thread_hears hthread (starved_of_channel hin (h.wired.short.resolve_left hover) ?_))
    rw [hpast, texts, List.length_map]
    exact List.length_pos_iff.mpr hasked
  | waiting =>
    obtain ⟨-, hshort, -⟩ := (h.feed.resolve_right fun hdone => by cases hdone.2).waiting rfl
    by_cases hheard : d.seat.ledger.heard.length < (outs d.seat.past).length
    · exact Or.inr (client_hears hproc (Or.inl (starved_of_channel hout hshort hheard)))
    by_cases hmore : d.seat.taken < (d.server.queue this).length
    · exact Or.inr (thread_takes hthread hmore)
    · exact Or.inl ⟨Nat.le_antisymm hstream.taken_le.2 (Nat.le_of_not_lt hmore), ⟨_, hthread⟩,
        hout.empty (Nat.le_of_not_lt hheard), hreset, ⟨k, hproc⟩⟩

end

/-- What is done is paid for by what is heard and told, and by nine actions besides. -/
theorem spent {p : Proc Int32} {g : Ledger} {acts left : ℕ}
    (h : Total counting (fun _ t => t.Within 9) p ⟨g, acts, left⟩) :
    acts ≤ g.heard.length + g.told.length + 9 := by
  cases p with
  | done r => exact h
  | more => exact h.elim
  | act a k => exact h.1.mono (by decide)

/-- CATCH UP: whatever orders are placed and updated meanwhile, if nothing fails on the way then a
    display and its thread move only so often: once for each text on the screens of what is in the
    queue, three times for each message in it and for each wait in vain, and fifteen times besides. And
    until the program has ended, one of the two can go on, or the last screen that it has handed to
    `std::cout` shows the orders that the server has. -/
theorem display_catches_up {this : Client} {n m : ℕ} {argv : List Bytes} (hargv : argv ≠ [])
    {ops : List Op} {outs : List Out} {server : Server}
    (hserver : Server.machine.run ops = some (outs, server)) (hdec : ∀ o, .newOrder o ∈ ops → Decoded o)
    (hfree : this ∉ server.displayClients) {stdin : Bytes} {moves : List Move}
    (hothers : ∀ op, .other op ∈ moves → Apart this op) (hfair : ∀ move ∈ moves, move.Fair)
    (hn : moves.length < n) (hm : moves.length < m) {us : List Unit} {d : Dialogue}
    (h : (dialogue this n (started this argv m stdin server)).run moves = some (us, d)) :
    let messages := queued this (server.queue this).length d.server
    (∃ views, Copies turn ∅ messages views ∧ moves.countP Move.own ≤
      (screen ∅ ++ views.flatMap screen).length + 3 * (messages.length + moves.countP Move.idle) + 15) ∧
    ((∃ code, d.seat.proc = done (.ok code)) ∨
      (AtRest this d ∧ screen d.server.orders <:+ d.seat.ledger.told) ∨ d.Goes this n) := by
  intro messages
  obtain ⟨hgood, hdisplayed⟩ := allDisplayed_run hdec hserver
  have hcoupled := run_coupled (Coupled.begin hargv hgood hdisplayed hfree n m stdin _) hothers h
  obtain ⟨hreset, -, hpast⟩ := run_fair rfl hfair h
  obtain ⟨left, htotal⟩ := run_counted hargv rfl rfl hfair h hm.le
  have hfounds := run_founds rfl hfair h
  have hheard := hcoupled.heard_le
  have hcost := hcoupled.past_le
  have htaken : (taken d.seat.past).length ≤ messages.length := hcoupled.stream.taken_le.1
  refine ⟨?_, ?_⟩
  · refine ⟨_, hcoupled.stream.copies, ?_⟩
    have hspent := spent htotal
    have hprinted := hcoupled.prints.length_le
    rw [hcoupled.stream.view_cons, List.flatMap_cons] at hprinted
    rw [countP_own]
    simp only [started, List.length_nil, Nat.zero_add] at hpast
    omega
  · have hkeeps : Keeps (bookkeeping Allowed) (Returned Ended) d.seat.proc d.seat.ledger := by
      refine hcoupled.keeps.resolve_right ?_
      rintro ⟨⟨code, hkill⟩, -⟩
      exact hfair _ hkill
    rcases hproc : d.seat.proc with r | _ | ⟨a, k⟩ <;> rw [hproc] at hkeeps htotal
    · obtain ⟨-, -, code, rfl⟩ := hkeeps
      exact Or.inl ⟨code, rfl⟩
    · exact htotal.elim
    · refine Or.inr ?_
      by_cases ha : a = .receive
      case neg => exact Or.inr (client_goes hproc ha)
      subst ha
      have hwaiting := allowed_receive hkeeps.1
      rcases hcoupled.link with hunlinked | ⟨p, hthread, -, hlinked⟩
      · rcases hunlinked.stage with hstage | hstage <;> rcases hwaiting with hw | hw <;>
          cases hstage.symm.trans hw
      have hturns : (founds d.seat.past).length < n := by
        have hle : (founds d.seat.past).length ≤ d.seat.past.length := List.length_filterMap_le _ _
        have hmoves := List.countP_le_length (p := Move.byThread) (l := moves)
        simp only [started, List.length_nil, Nat.zero_add] at hpast
        omega
      exact (hlinked.goes hcoupled.sound hcoupled.stream hreset hthread hkeeps.1 hturns hproc).imp_left
        fun hrest => ⟨hrest, hcoupled.current hrest⟩

theorem samosa_fair : ∀ move ∈ samosaShown, move.Fair := by
  intro move hmove
  simp only [samosaShown, List.mem_cons, List.not_mem_nil, or_false] at hmove
  rcases hmove with rfl | rfl | rfl | rfl | rfl | rfl | rfl | rfl | rfl | rfl | rfl | rfl | rfl | rfl | rfl |
    rfl | rfl | rfl | rfl <;> first | trivial | exact ⟨rfl, List.not_mem_nil⟩

/-- The display has caught up with the order. -/
theorem display_catches_up_samosa :
    let begun := started 5 [ascii "display", ascii "localhost", ascii "8080"] 20
      (ascii "alice\nfoobar\n") {}
    ∃ us d, (dialogue 5 20 begun).run samosaShown = some (us, d) ∧ AtRest 5 d ∧
      let messages := queued 5 0 d.server
      (∃ views, Copies turn ∅ messages views ∧ samosaShown.countP Move.own ≤
        (screen ∅ ++ views.flatMap screen).length
          + 3 * (messages.length + samosaShown.countP Move.idle) + 15) ∧
      ((∃ code, d.seat.proc = done (.ok code)) ∨
        (AtRest 5 d ∧ screen d.server.orders <:+ d.seat.ledger.told) ∨ d.Goes 5 20) := by
  intro begun
  have hrun : ((dialogue 5 20 begun).run samosaShown).map (fun p => decide (AtRest 5 p.2)) = some true := by
    decide +kernel
  obtain ⟨⟨us, d⟩, hd, hdecide⟩ := Option.map_eq_some_iff.mp hrun
  exact ⟨us, d, hd, of_decide_eq_true hdecide, display_catches_up (List.cons_ne_nil _ _)
    (show Server.machine.run [] = some ([], {}) from rfl) (fun o ho => absurd ho List.not_mem_nil)
    (Finset.notMem_empty 5) samosa_apart samosa_fair (by decide) (by decide) hd⟩

end Restaurant.Display
