import RestaurantOrder.Programs.Rounds
import RestaurantOrder.Programs.Wired
import RestaurantOrder.Session.Course
import RestaurantOrder.Wire.Types

/-! An updater and its thread, in lockstep.

    The thread receives the texts that the updater has sent, one after the other, and the updater
    receives what the thread has sent. Neither is more than one text ahead of the other, so whatever is
    on its way is a beginning of one frame (`run_coupled`).

        received by the updater ≤ sent by the thread ≤ received by the thread ≤ sent by the updater
        sent by the updater ≤ received by the updater + 1 -/

namespace Restaurant.Updater
open Schemes Process Program
open Framing (frame)
open Wire (MessageText messageStr)
open Session (Happening Course Turn Pending Accepts sentOf)

/-! ### The thread -/

/-- A turn receives one text and sends one. -/
theorem length_turns {f : Happening → Option Bytes} (hf : ∀ t : Turn, (t.events.filterMap f).length = 1)
    (turns : List Turn) : ((turns.flatMap Turn.events).filterMap f).length = turns.length := by
  rw [List.filterMap_flatMap, List.length_flatMap]
  simp [hf]

theorem ins_turns (turns : List Turn) : (ins (turns.flatMap Turn.events)).length = turns.length :=
  length_turns (fun t => by cases t <;> rfl) turns

theorem outs_turns (turns : List Turn) : (outs (turns.flatMap Turn.events)).length = turns.length :=
  length_turns (fun t => by cases t <;> rfl) turns

/-- Behind the login the turns are counted. -/
theorem ins_serving (raw : Bytes) (r : Except Exception Unit) (turns : List Turn)
    (tail : List Happening) : (ins (.received (.ok raw) :: .sent (messageStr Session.welcome) r ::
      (turns.flatMap Turn.events ++ tail))).length = turns.length + (ins tail).length + 1 := by
  rw [← ins_turns turns, ← List.length_append, ins, ins, ins, ← List.filterMap_append]
  rfl

theorem outs_serving (raw : Bytes) (r : Except Exception Unit) (turns : List Turn)
    (tail : List Happening) : (outs (.received (.ok raw) :: .sent (messageStr Session.welcome) r ::
      (turns.flatMap Turn.events ++ tail))).length = turns.length + (outs tail).length + 1 := by
  rw [← outs_turns turns, ← List.length_append, outs, outs, outs, ← List.filterMap_append]
  rfl

/-- Unless a text has been received that is not yet answered, or the thread is at its end. -/
def Balanced (past : List Happening) (p : Session.Proc Unit) : Prop :=
  (outs past).length ≤ (ins past).length ∧
    ∀ a k, p = act a k → a ≠ .receive → (outs past).length + 1 = (ins past).length

theorem pending_balanced {k : ℕ} {tail : List Happening} {p : Session.Proc Unit}
    (h : Pending k tail p) : Balanced tail p := by
  cases h with
  | @listening k =>
    refine ⟨le_rfl, fun a f hp ha => ?_⟩
    cases k with
    | zero => cases hp
    | succ k =>
      rw [Session.serving_succ] at hp
      obtain ⟨rfl, -⟩ := act.inj hp
      exact absurd rfl ha
  | asked => exact ⟨Nat.zero_le _, fun _ _ _ _ => rfl⟩
  | replying => exact ⟨Nat.zero_le _, fun _ _ _ _ => rfl⟩
  | scolding => exact ⟨Nat.zero_le _, fun _ _ _ _ => rfl⟩
  | leaving => exact ⟨Nat.zero_le _, fun _ _ _ _ => rfl⟩
  | left => exact ⟨le_rfl, nofun⟩
  | stopped => exact ⟨Nat.zero_le _, nofun⟩

/-- The thread of a client that is no display answers each text before it receives the next. -/
theorem course_balanced {this : Client} {n : ℕ} {past : List Happening} {p : Session.Proc Unit}
    (h : Course this n past p) (hno : ∀ raw ∈ (ins past).head?, ¬Accepts .display raw) :
    Balanced past p := by
  cases h with
  | opening =>
    refine ⟨le_rfl, fun a f hp ha => ?_⟩
    rw [Session.chat_eq] at hp
    obtain ⟨rfl, -⟩ := act.inj hp
    exact absurd rfl ha
  | rejected => exact ⟨Nat.zero_le _, nofun⟩
  | refusing => exact ⟨Nat.zero_le _, fun _ _ _ _ => rfl⟩
  | refused => exact ⟨le_rfl, nofun⟩
  | greeting => exact ⟨Nat.zero_le _, fun _ _ _ _ => rfl⟩
  | @serving raw r k tail p turns hacc hturns htail hn =>
    obtain ⟨hle, hact⟩ := pending_balanced htail
    rw [Balanced, ins_serving, outs_serving]
    refine ⟨by omega, fun a f hp ha => ?_⟩
    have := hact a f hp ha
    omega
  | @displaying raw r events registered p hacc => exact absurd hacc (hno raw rfl)

/-- What it sends is short. -/
theorem course_short {this : Client} {n : ℕ} {past : List Happening} {p : Session.Proc Unit}
    (h : Course this n past p) (hno : ∀ raw ∈ (ins past).head?, ¬Accepts .display raw) :
    ∀ text ∈ outs past, text.length ≤ 9998 := by
  have hspoken : ∀ {es : List Happening}, (∀ h ∈ es, Session.ServedTo h) →
      ∀ text ∈ outs es, text.length ≤ 9998 := by
    intro es hes text htext
    obtain ⟨h, hmem, hsent⟩ := List.mem_filterMap.mp htext
    have hserved := hes h hmem
    cases h with
    | sent text' r =>
      obtain rfl := Option.some.inj hsent
      obtain ⟨msg, hmsg, rfl⟩ := hserved
      exact hmsg.text.2.2.1
    | _ => cases hsent
  have hsaid : ∀ {raw r} {m : Message}, Session.Spoken m →
      ∀ text ∈ outs [.received raw, .sent (messageStr m) r], text.length ≤ 9998 := fun hm =>
    hspoken (by simpa [Session.ServedTo] using ⟨_, hm, rfl⟩)
  have hnone : ∀ text ∈ ([] : List Bytes), text.length ≤ 9998 := fun _ h => absurd h List.not_mem_nil
  cases h with
  | opening => exact hnone
  | rejected => exact hnone
  | refusing => exact hnone
  | refused => exact hsaid (m := Session.refusal) (.phrase (by simp [Session.phrases]))
  | greeting => exact hnone
  | @serving raw r k tail p turns hacc hturns htail hn =>
    refine hspoken fun h hmem => ?_
    rcases List.mem_cons.mp hmem with rfl | hmem
    · trivial
    rcases List.mem_cons.mp hmem with rfl | hmem
    · exact ⟨Session.welcome, .phrase (by simp [Session.phrases]), rfl⟩
    rcases List.mem_append.mp hmem with hmem | hmem
    · obtain ⟨t, ht, hmem⟩ := List.mem_flatMap.mp hmem
      exact (hturns t ht).served h hmem
    · exact htail.served h hmem
  | displaying hacc => exact absurd hacc (hno _ rfl)

/-- The login of an updater is not that of a display. -/
theorem updater_login (cred : Bytes) :
    ¬Accepts .display (messageStr (.ofLogin .login .updater cred)) := by
  rintro ⟨cred', htext, -⟩
  cases Wire.mode_unique htext

theorem turn_received {t : Turn} {e : Exception} (hmem : .received (.error e) ∈ t.events) : False := by
  cases t with
  | request x => simp [Turn.events, Session.Exchange.events] at hmem
  | scolding raw r => simp [Turn.events] at hmem

/-- A thread that fails to receive is at its end. -/
theorem course_failed {this : Client} {n : ℕ} {past : List Happening} {p : Session.Proc Unit}
    (h : Course this n past p) {e : Exception} (hmem : .received (.error e) ∈ past) :
    ∃ r, p = done r := by
  cases h with
  | opening => exact absurd hmem List.not_mem_nil
  | rejected => exact ⟨_, rfl⟩
  | refusing => simp at hmem
  | refused => exact ⟨_, rfl⟩
  | greeting => simp at hmem
  | @serving raw r k tail p turns hacc hturns htail hn =>
    simp only [List.mem_cons, reduceCtorEq, Happening.received.injEq, false_or, List.mem_append,
      List.mem_flatMap] at hmem
    rcases hmem with ⟨t, -, ht⟩ | hmem
    · exact (turn_received ht).elim
    cases htail with
    | listening => exact absurd hmem List.not_mem_nil
    | asked => simp at hmem
    | replying => simp at hmem
    | scolding => simp at hmem
    | leaving => simp at hmem
    | left => exact ⟨_, rfl⟩
    | stopped => exact ⟨_, rfl⟩
  | displaying hacc hevents =>
    simp only [List.mem_cons, reduceCtorEq, Happening.received.injEq, false_or] at hmem
    exact (hevents _ hmem).elim

/-! ### The invariant -/

/-- The updater and its thread, once there is one. -/
structure Linked (this : Client) (n : ℕ) (s : Seat) (p : Session.Proc Unit) : Prop where
  course : Course this n s.past p ∨ s.past = [] ∧ p = done (.ok ())
  wired : Wired s p

structure Coupled (this : Client) (n : ℕ) (s : Seat) : Prop where
  keeps : Keeps (bookkeeping Allowed) (Returned fun _ => True) s.proc s.ledger
  sound : Sound s.ledger
  link : Unlinked s ∨ ∃ p, s.thread = some p ∧ s.ledger.stage ≠ .outside ∧ Linked this n s p

section
variable {this : Client} {n : ℕ} {s : Seat} {p : Session.Proc Unit}

theorem Linked.not_display (h : Linked this n s p) (hs : Sound s.ledger) :
    ∀ raw ∈ (ins s.past).head?, ¬Accepts .display raw := by
  intro raw hraw
  obtain ⟨more, hmore⟩ := h.wired.order
  have hhead : raw ∈ (texts s.ledger).head? := by
    rw [← hmore]
    cases hins : ins s.past with
    | nil => rw [hins] at hraw; cases hraw
    | cons t ts => rw [hins] at hraw; exact hraw
  rw [texts, List.head?_map] at hhead
  obtain ⟨e, he, rfl⟩ := Option.map_eq_some_iff.mp hhead
  obtain ⟨user, pass, -, hlogin⟩ := hs.login e he
  rw [hlogin]
  exact updater_login _

theorem Linked.balanced (h : Linked this n s p) (hs : Sound s.ledger) : Balanced s.past p := by
  rcases h.course with hcourse | ⟨hpast, rfl⟩
  · exact course_balanced hcourse (h.not_display hs)
  · rw [hpast]
    exact ⟨le_rfl, nofun⟩

theorem Linked.outs_short (h : Linked this n s p) (hs : Sound s.ledger) :
    ∀ text ∈ outs s.past, text.length ≤ 9998 := by
  rcases h.course with hcourse | ⟨hpast, rfl⟩
  · exact course_short hcourse (h.not_display hs)
  · rw [hpast]
    exact nofun

/-- Nobody is more than one text ahead. -/
theorem Linked.lengths (h : Linked this n s p) (hs : Sound s.ledger) :
    s.ledger.heard.length ≤ (outs s.past).length ∧ (outs s.past).length ≤ (ins s.past).length ∧
      (ins s.past).length ≤ (texts s.ledger).length ∧
      (texts s.ledger).length ≤ s.ledger.heard.length + 1 := by
  have hpending := hs.pending
  have hasked : (texts s.ledger).length = s.ledger.asked.length := List.length_map _
  rw [← hasked] at hpending
  exact ⟨h.wired.heard.length_le, (h.balanced hs).1, h.wired.order.length_le, hpending⟩

/-- Once every text has been answered and the answer received, the thread has received them all. -/
theorem Linked.quiet (h : Linked this n s p) (hs : Sound s.ledger) (hcalm : s.ledger.stage = .calm) :
    ins s.past = texts s.ledger := by
  obtain ⟨h₁, h₂, h₃, -⟩ := h.lengths hs
  have hall : (texts s.ledger).length = s.ledger.heard.length := by
    rw [texts, List.length_map]
    exact hs.calm hcalm
  exact h.wired.order.eq_of_length (by omega)

/-! ### Steps of the program -/

/-- The updater sends when it is calm, and receives when it is waiting. -/
theorem stage_send {g : Ledger} {text : Bytes} (h : Allowed g (.send text)) : g.stage = .calm := by
  rcases h with ⟨hcalm, -⟩ | ⟨hready, -⟩
  · exact hcalm
  · exact hready.stage

theorem stage_receive {g : Ledger} (h : Allowed g .receive) : g.stage = .waiting := by
  rcases h with hwaiting | hfalse
  · exact hwaiting
  · exact hfalse.elim

theorem Linked.client (h : Linked this n s p) (hs : Sound s.ledger) (hthread : s.thread = some p)
    (hopen : s.ledger.stage ≠ .outside) {a : Act} (hallowed : Allowed s.ledger a) {found : Bool}
    {w : Weather} {r : a.Answer} {seat : Seat} (hre : react this n found w s a = some (r, seat))
    (proc : Proc Int32) :
    ∃ p, (seat.went a r proc).thread = some p ∧ (seat.went a r proc).ledger.stage ≠ .outside ∧
      Linked this n (seat.went a r proc) p := by
  have hnever : ∀ host port, a ≠ .openClientfd host port := by
    rintro host port rfl
    rcases hallowed with houtside | hfalse
    · exact hopen houtside
    · exact hfalse.elim
  obtain ⟨hledger, hpast, -⟩ := react_frame hre
  obtain ⟨hwired, hthread'⟩ := h.wired.client hre hnever
    (fun text ht => by
      subst ht
      have hcalm := stage_send hallowed
      exact ⟨not_over (Or.inl hcalm), h.quiet hs hcalm⟩)
    (fun ht => by
      subst ht
      exact not_over (Or.inr (stage_receive hallowed))) proc
  refine ⟨p, hthread'.trans hthread, ?_, hpast ▸ h.course, hwired⟩
  rw [Seat.went_ledger, hledger]
  exact stage_note hnever hopen r

/-- The updater does an action. -/
theorem Coupled.client (h : Coupled this n s) {a : Act} {k : a.Answer → Proc Int32}
    (hproc : s.proc = act a k) {found : Bool} {w : Weather} {r : a.Answer} {seat : Seat}
    (hre : react this n found w s a = some (r, seat)) : Coupled this n (seat.went a r (k r)) := by
  have hkeeps := h.keeps
  rw [hproc] at hkeeps
  obtain ⟨hallowed, hnext⟩ := hkeeps
  obtain ⟨hledger, -, -⟩ := react_frame hre
  refine ⟨?_, ?_, ?_⟩
  · rw [Seat.went_ledger, hledger]
    exact hnext r trivial
  · rw [Seat.went_ledger, hledger]
    exact h.sound.note hallowed r
  · rcases h.link with hunlinked | ⟨p, hthread, hopen, hlinked⟩
    · rcases hunlinked.client hre (fun text ht => by subst ht; exact stage_send hallowed)
        (fun ht => by subst ht; exact Or.inr (stage_receive hallowed)) (k r) with
        hunlinked' | ⟨hthread, hpast, hledger', hwired⟩
      · exact Or.inl hunlinked'
      · refine Or.inr ⟨_, hthread, by rw [hledger']; exact nofun, Or.inl ?_, hwired⟩
        rw [hpast]
        exact .opening
    · exact Or.inr (hlinked.client h.sound hthread hopen hallowed hre _)

/-! ### Steps of the thread -/

theorem Linked.thread {a : Session.Act} {f : a.Answer → Session.Proc Unit}
    (h : Linked this n s (act a f)) (hs : Sound s.ledger) {wake : Session.Wake} {w : Weather}
    (hbrings : w.Brings s.toServer) {server : Server} (hgood : server.Good)
    {re : Session.Reaction a} (hre : Session.react this wake (s.conn w) server a = some re) :
    Linked this n (s.reacted w re (f re.answer)) (f re.answer) := by
  have hcourse := (h.course.resolve_right fun hdone => nomatch hdone.2).step rfl hgood hre
  refine ⟨Or.inl hcourse, h.wired.thread hbrings hre (fun _ _ => h.outs_short hs) fun e he => ?_⟩
  exact course_failed hcourse (e := e) (he ▸ List.mem_append_right _ (List.mem_singleton_self _))

/-! ### Runs -/

theorem Sound.closed {g : Ledger} (h : Sound g) : Sound (g.note .close ()) :=
  { h with outside := nofun, calm := nofun, waiting := nofun }

theorem Coupled.killed (h : Coupled this n s) (code : Int32) : Coupled this n (s.killed code) := by
  refine ⟨⟨Or.inr rfl, trivial, code, rfl⟩, h.sound.closed, ?_⟩
  rcases h.link with hunlinked | ⟨p, hthread, -, hlinked⟩
  · exact Or.inl { hunlinked with stage := Or.inr rfl }
  · exact Or.inr ⟨p, hthread, nofun, hlinked.course,
      hlinked.wired.unchanged rfl rfl rfl rfl rfl rfl (Or.inr (Or.inr rfl))⟩

/-- No thread could be created for the connection. -/
theorem Coupled.refused (h : Coupled this n s) (hthread : s.thread.isSome) (hpast : s.past = []) :
    Coupled this n { s with thread := some (done (.ok ())) } := by
  refine ⟨h.keeps, h.sound, ?_⟩
  rcases h.link with hunlinked | ⟨p, hp, hstage, hlinked⟩
  · rw [hunlinked.thread] at hthread
    cases hthread
  · exact Or.inr ⟨_, rfl, hstage, Or.inr ⟨hpast, rfl⟩,
      { hlinked.wired with inbound := Or.inl ⟨_, rfl⟩ }⟩

theorem Coupled.begin {argv : List Bytes} (hargv : argv ≠ []) (m : ℕ) (stdin : Bytes) :
    Coupled this n { proc := main argv m, stdin } :=
  ⟨main_keeps hargv m, sound_nil, Or.inl ⟨rfl, rfl, Or.inl rfl, rfl, rfl, rfl, rfl⟩⟩

/-- STEP: whatever happens next, they stay coupled. -/
theorem Coupled.step {d d' start : Dialogue} (h : Coupled this n d.seat) (hgood : d.server.Good)
    {move : Move} {u : Unit} (hstep : (dialogue this n start).step d move = some (u, d')) :
    d'.server.Good ∧ Coupled this n d'.seat := by
  cases move with
  | client found w =>
    obtain ⟨a, k, r, seat, hproc, hre, rfl⟩ := step_client.mp hstep
    exact ⟨hgood, h.client hproc hre⟩
  | kill code =>
    obtain rfl := step_kill hstep
    exact ⟨hgood, h.killed code⟩
  | thread wake w =>
    obtain ⟨a, f, re, hthread, hbrings, -, hre, rfl⟩ := step_thread.mp hstep
    refine ⟨Session.react_good hgood hre, h.keeps, h.sound, ?_⟩
    rcases h.link with hunlinked | ⟨p, hp, hstage, hlinked⟩
    · cases hunlinked.thread.symm.trans hthread
    · obtain rfl := Option.some.inj (hp.symm.trans hthread)
      exact Or.inr ⟨_, rfl, hstage, hlinked.thread h.sound hbrings hgood hre⟩
  | refuse =>
    obtain ⟨hthread, hpast, rfl⟩ := step_refuse hstep
    exact ⟨hgood, h.refused hthread hpast⟩
  | other op =>
    obtain ⟨out, server, hop, rfl⟩ := step_others.mp hstep
    exact ⟨(Server.step_took hgood hop).good hgood, h⟩

/-- INVARIANTS: whatever the others do and whatever fails, an updater and its thread stay coupled. -/
theorem run_coupled {start : Dialogue} (hgood : start.server.Good)
    (hstart : Coupled this n start.seat) {moves : List Move} {us : List Unit} {d : Dialogue}
    (h : (dialogue this n start).run moves = some (us, d)) :
    d.server.Good ∧ Coupled this n d.seat :=
  Machine.runFrom_induct (P := fun _ _ d => d.server.Good ∧ Coupled this n d.seat) ⟨hgood, hstart⟩
    (fun _ ⟨hs, hc⟩ hstep => hc.step hs hstep) h

end

end Restaurant.Updater
