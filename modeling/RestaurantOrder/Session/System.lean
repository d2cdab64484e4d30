import RestaurantOrder.Session.Registration
import RestaurantOrder.Session.Scene
import RestaurantOrder.Server.Updates

/-! All sessions together: clients come, talk and go.

    A client exists from when its connection is accepted until its thread is at its end; then it is
    destroyed, and another one may get its address. Whatever the threads do in whichever order, the
    display clients are the clients whose thread is between the bodies of `register_display` and
    `unregister_display` (`broadcasts_reach`).

        accept c ──▶ turn c, turn c, ... ──▶ delete c
                          register .. unregister        -/

namespace Restaurant.Session
open Schemes Process
open Framing (Infd Outfd)

/-- A client with its thread: what is left to do, the connection, and what the thread has done. -/
structure Peer where
  proc : Proc Unit
  conn : Connection
  past : List Happening := []

/-- The server and the clients that exist, by their addresses. -/
structure System where
  server : Server := {}
  peers : Client → Option Peer := fun _ => none

inductive Event where
  | accept (c : Client) (n : ℕ) (infd : Infd) (outfd : Outfd)
  | turn (c : Client) (wake : Wake)
  | delete (c : Client)

def System.put (s : System) (c : Client) (peer : Option Peer) : System :=
  { s with peers := Function.update s.peers c peer }

/-- The server loop accepts connections, the threads take turns, and `client_thread_start` deletes its
    client at the end; the server loop deletes it if the thread could not be created. The queue of a new
    client is empty, whatever was put in the queue of a client that had its address before. -/
def system : Machine System Event (Option Happening) where
  init := {}
  step
    | s, .accept c n infd outfd =>
      match s.peers c with
      | some _ => none
      | none => some (none, s.put c (some ⟨chat c n, ⟨infd, outfd, (s.server.queue c).length⟩, []⟩))
    | s, .turn c wake => do
      let peer ← s.peers c
      match peer.proc with
      | .act a k => do
        let re ← react c wake peer.conn s.server a
        let peer' : Peer := ⟨k re.answer, re.conn, peer.past ++ [re.happening]⟩
        return (some re.happening, { s with server := re.server }.put c (some peer'))
      | _ => none
    | s, .delete c => do
      let peer ← s.peers c
      match peer.proc with
      | .done _ => return (none, s.put c none)
      | _ => if peer.past.isEmpty then return (none, s.put c none) else none

def Act.op : Act → Option Op
  | .call op => some op
  | _ => none

def calledOf : Happening → Option Op
  | .called op _ _ _ => some op
  | _ => none

/-- The thread is past the body of `register_display` and has not yet executed that of
    `unregister_display`. -/
def Inside (c : Client) (past : List Happening) : Prop :=
  ∃ pre h post, past = pre ++ h :: post ∧ calledOf h = some (.registerDisplay c) ∧
    ∀ h' ∈ post, calledOf h' ≠ some (.unregisterDisplay c)

/-- What all displays are to be told of an operation, by the states around it. -/
def announcement (before after : Server) : Op → Out → List Message
  | .newOrder _, .ok (some id) => [.ofOrder .dispOrder after.orders[id]?]
  | .itemUpdate k itemId st, .ok _ =>
    .ofItemStatus .dispItemUpdate k itemId st ::
      if after.orders[k]?.map Order.status ≠ before.orders[k]?.map Order.status then
        (after.orders[k]?.map fun o => .ofOrderStatus .dispOrderUpdate k o.status).toList
      else []
  | .orderUpdate k st, .ok _ => [.ofOrderStatus .dispOrderUpdate k st]
  | _, _ => []

/-! ### Steps -/

@[simp] theorem System.put_self (s : System) (c : Client) (peer : Option Peer) :
    (s.put c peer).peers c = peer := Function.update_self ..

theorem System.put_of_ne {c c' : Client} (h : c ≠ c') (s : System) (peer : Option Peer) :
    (s.put c' peer).peers c = s.peers c := Function.update_of_ne h ..

theorem step_accept {s s' : System} {c : Client} {n : ℕ} {infd : Infd} {outfd : Outfd}
    {o : Option Happening} : system.step s (.accept c n infd outfd) = some (o, s') ↔
      s.peers c = none ∧ o = none ∧
        s' = s.put c (some ⟨chat c n, ⟨infd, outfd, (s.server.queue c).length⟩, []⟩) := by
  rcases hpeer : s.peers c with _ | peer
  · simp only [system, hpeer, Option.some.injEq, Prod.mk.injEq, true_and, eq_comm]
  · simp [system, hpeer]

theorem step_turn {s s' : System} {c : Client} {wake : Wake} {o : Option Happening} :
    system.step s (.turn c wake) = some (o, s') ↔
      ∃ peer a k re, s.peers c = some peer ∧ peer.proc = act a k ∧
        react c wake peer.conn s.server a = some re ∧ o = some re.happening ∧
        s' = { s with server := re.server }.put c
          (some ⟨k re.answer, re.conn, peer.past ++ [re.happening]⟩) := by
  rcases hpeer : s.peers c with _ | ⟨r | _ | ⟨a, k⟩, conn, past⟩
  · simp [system, hpeer]
  · simp [system, hpeer]
  · simp [system, hpeer]
  · simp only [system, hpeer, Option.bind_eq_bind, Option.bind_some, Option.bind_eq_some_iff,
      Option.pure_def, Option.some.injEq, Prod.mk.injEq]
    constructor
    · rintro ⟨re, hre, rfl, rfl⟩
      exact ⟨_, a, k, re, rfl, rfl, hre, rfl, rfl⟩
    · rintro ⟨_, _, _, re, rfl, hact, hre, rfl, rfl⟩
      obtain ⟨rfl, hk⟩ := act.inj hact
      obtain rfl := eq_of_heq hk
      exact ⟨re, hre, rfl, rfl⟩

theorem step_delete {s s' : System} {c : Client} {o : Option Happening}
    (h : system.step s (.delete c) = some (o, s')) : ∃ peer, s.peers c = some peer ∧
      ((∃ r, peer.proc = done r) ∨ peer.past = []) ∧ o = none ∧ s' = s.put c none := by
  rcases hpeer : s.peers c with _ | ⟨r | _ | ⟨a, k⟩, conn, past⟩
  · simp [system, hpeer] at h
  · simp only [system, hpeer, Option.bind_eq_bind, Option.bind_some, Option.pure_def,
      Option.some.injEq, Prod.mk.injEq] at h
    exact ⟨_, rfl, Or.inl ⟨r, rfl⟩, h.1.symm, h.2.symm⟩
  all_goals
    simp only [system, hpeer, Option.bind_eq_bind, Option.bind_some, Option.pure_def,
      List.isEmpty_iff, Option.ite_none_right_eq_some, Option.some.injEq, Prod.mk.injEq] at h
    exact ⟨_, rfl, Or.inr h.1, h.2.1.symm, h.2.2.symm⟩

theorem runFrom_accept {s s' : System} {c : Client} {n : ℕ} {infd : Infd} {outfd : Outfd}
    {events : List Event} {outs : List (Option Happening)} (hnone : s.peers c = none)
    (hrest : system.runFrom
      (s.put c (some ⟨chat c n, ⟨infd, outfd, (s.server.queue c).length⟩, []⟩)) events
        = some (outs, s')) :
    system.runFrom s (.accept c n infd outfd :: events) = some (none :: outs, s') :=
  Machine.runFrom_cons.mpr ⟨_, _, _, step_accept.mpr ⟨hnone, rfl, rfl⟩, hrest, rfl⟩

theorem runFrom_turn {s s' : System} {c : Client} {wake : Wake} {events : List Event}
    {outs : List (Option Happening)} {peer : Peer} {a : Act} {k : a.Answer → Proc Unit}
    {re : Reaction a} (hpeer : s.peers c = some peer) (hproc : peer.proc = act a k)
    (hre : react c wake peer.conn s.server a = some re)
    (hrest : system.runFrom ({ s with server := re.server }.put c
      (some ⟨k re.answer, re.conn, peer.past ++ [re.happening]⟩)) events = some (outs, s')) :
    system.runFrom s (.turn c wake :: events) = some (some re.happening :: outs, s') :=
  Machine.runFrom_cons.mpr
    ⟨_, _, _, step_turn.mpr ⟨peer, a, k, re, hpeer, hproc, hre, rfl, rfl⟩, hrest, rfl⟩

/-! ### Queues -/

/-- A snapshot for whoever registers, the announcement for every display, nothing for others. -/
theorem took_queue {s s' : Server} {op : Op} {out : Out} (h : Server.Took s op out s') (c : Client) :
    s'.queue c = s.queue c ++ if op = .registerDisplay c then Server.snapshot s.orders
      else if c ∈ s.displayClients then announcement s s' op out else [] := by
  have htell : ∀ {s₁ : Server} {ms : List Message} {op : Op}, (∀ c, op ≠ .registerDisplay c) →
      s₁.queue = s.queue → s₁.displayClients = s.displayClients → (s₁.tell ms).queue c
        = s.queue c ++ if op = .registerDisplay c then Server.snapshot s.orders
          else if c ∈ s.displayClients then ms else [] := by
    intro s₁ ms op hop hqueue hdisplays
    rw [if_neg (hop c), ← hqueue, ← hdisplays]
    by_cases hc : c ∈ s₁.displayClients
    · rw [if_pos hc, Server.tell_queue_of_mem hc]
    · rw [if_neg hc, Server.tell_queue_of_not_mem hc, List.append_nil]
  cases h with
  | placed =>
    rw [announcement, Server.tell_orders, Server.getElem?_setOrder_self]
    exact htell nofun rfl rfl
  | @itemUpdated k itemId st o its i it ho =>
    have hmessages := Server.updateMessages_eq o its i k itemId st
    rw [announcement, Server.tell_orders, Server.getElem?_setOrder_self, ho]
    simp only [Option.map_some, ne_eq, Option.some.injEq, Option.toList_some] at hmessages ⊢
    rw [← hmessages]
    exact htell nofun rfl rfl
  | delivered => exact htell nofun rfl rfl
  | itemRefused => simp [announcement]
  | orderRefused => simp [announcement]
  | @registered c' =>
    by_cases hc : c' = c
    · subst hc
      rw [if_pos rfl, Server.register_queue_self]
    · rw [Server.register_queue_of_ne (Ne.symm hc), if_neg (by simp [hc])]
      simp [announcement]
  | unregistered => simp [announcement]

/-! ### Registrations -/

theorem inside_snoc {c : Client} {past : List Happening} {h : Happening} :
    Inside c (past ++ [h]) ↔ calledOf h = some (.registerDisplay c) ∨
      Inside c past ∧ calledOf h ≠ some (.unregisterDisplay c) := by
  constructor
  · rintro ⟨pre, h', post, hpast, hreg, hnot⟩
    rcases List.eq_nil_or_concat' post with rfl | ⟨post, x, rfl⟩
    · obtain ⟨-, hh⟩ := List.append_inj' hpast rfl
      obtain ⟨rfl, -⟩ := List.cons.inj hh
      exact Or.inl hreg
    · rw [← List.cons_append, ← List.append_assoc] at hpast
      obtain ⟨rfl, hh⟩ := List.append_inj' hpast rfl
      obtain ⟨rfl, -⟩ := List.cons.inj hh
      exact Or.inr ⟨⟨pre, h', post, rfl, hreg, fun x hx => hnot x (List.mem_append_left _ hx)⟩,
        hnot h (List.mem_append_right _ (List.mem_singleton_self h))⟩
  · rintro (hreg | ⟨⟨pre, h', post, rfl, hreg, hnot⟩, hh⟩)
    · exact ⟨past, h, [], rfl, hreg, by simp⟩
    · refine ⟨pre, h', post ++ [h], by simp, hreg, fun x hx => ?_⟩
      rcases List.mem_append.mp hx with hx | hx
      · exact hnot x hx
      · rwa [List.mem_singleton.mp hx]

/-- The set of display clients changes in the same way. -/
theorem react_displays {this : Client} {wake : Wake} {conn : Connection} {server : Server} {a : Act}
    (hs : server.Good) {re : Reaction a} (hre : react this wake conn server a = some re) :
    calledOf re.happening = a.op ∧ ∀ c, c ∈ re.server.displayClients ↔
      a.op = some (.registerDisplay c) ∨
        c ∈ server.displayClients ∧ a.op ≠ some (.unregisterDisplay c) := by
  cases a with
  | receive =>
    rw [(react_received hre).1, (react_received hre).2]
    exact ⟨rfl, by simp [Act.op]⟩
  | send text =>
    rw [(react_sent hre).1, (react_sent hre).2]
    exact ⟨rfl, by simp [Act.op]⟩
  | dequeue =>
    rw [(react_dequeued hre).1, (react_dequeued hre).2.1]
    exact ⟨rfl, by simp [Act.op]⟩
  | call op =>
    obtain ⟨out, server', hstep, rfl⟩ := react_call.mp hre
    refine ⟨rfl, fun c => ?_⟩
    simpa [Act.op] using (Server.step_took hs hstep).displays c

/-- So does what the thread may do next; and it registers and unregisters no other client. -/
theorem allowed_op {this : Client} {registered : Bool} {a : Act}
    (h : AllowedSession this registered a) :
    (registeredAfter registered a = true ↔ a.op = some (.registerDisplay this) ∨
      registered = true ∧ a.op ≠ some (.unregisterDisplay this)) ∧
    ∀ c, c ≠ this → a.op ≠ some (.registerDisplay c) ∧ a.op ≠ some (.unregisterDisplay c) := by
  cases a with
  | call op =>
    cases registered with
    | true =>
      obtain rfl : op = .unregisterDisplay this := h
      exact ⟨by simp [registeredAfter, Act.op], fun c hc => by simp [Act.op, Ne.symm hc]⟩
    | false =>
      cases op with
      | registerDisplay c =>
        obtain rfl : c = this := h
        exact ⟨by simp [registeredAfter, Act.op], fun c' hc => by simp [Act.op, Ne.symm hc]⟩
      | unregisterDisplay c => exact h.elim
      | _ => simp [registeredAfter, Act.op]
  | _ => simp [registeredAfter, Act.op]

/-- No thread registers its client twice. -/
theorem allowed_once {this : Client} {a : Act} (h : AllowedSession this true a) (c : Client) :
    a.op ≠ some (.registerDisplay c) := by
  cases a with
  | call op =>
    obtain rfl : op = .unregisterDisplay this := h
    simp [Act.op]
  | _ => simp [Act.op]

theorem react_settled {this : Client} {wake : Wake} {conn : Connection} {server : Server} {a : Act}
    (hs : server.Good) {re : Reaction a} (hre : react this wake conn server a = some re) :
    Settled a re.answer := by
  cases a with
  | call op =>
    obtain ⟨out, server', hstep, rfl⟩ := react_call.mp hre
    cases Server.step_took hs hstep with
    | registered => rfl
    | unregistered => rfl
    | _ => trivial
  | _ => trivial

/-- The client is registered or not, as its thread has left it. -/
inductive Registers (s : System) (c : Client) : Prop
  | absent (hpeer : s.peers c = none) (hnot : c ∉ s.server.displayClients)
  | present {peer registered} (hpeer : s.peers c = some peer)
      (hkeeps : Keeps (conversing c) Unregistered peer.proc registered)
      (hset : c ∈ s.server.displayClients ↔ registered = true)
      (hinside : Inside c peer.past ↔ registered = true)

theorem not_inside_nil (c : Client) : ¬Inside c [] := by
  rintro ⟨pre, h, post, hnil, -⟩
  simp at hnil

/-- A client that is registered is not destroyed. -/
theorem Registers.deleted {s : System} {c : Client} (h : Registers s c) {peer : Peer}
    (hpeer : s.peers c = some peer) (hend : (∃ r, peer.proc = done r) ∨ peer.past = []) :
    c ∉ s.server.displayClients := by
  cases h with
  | absent hnone => cases hnone.symm.trans hpeer
  | @present peer' registered hpeer' hkeeps hset hinside =>
    obtain rfl := Option.some.inj (hpeer'.symm.trans hpeer)
    rcases hend with ⟨r, hdone⟩ | hpast
    · rw [hdone] at hkeeps
      obtain rfl : registered = false := hkeeps
      simp [hset]
    · rw [hpast] at hinside
      rw [hset, ← hinside]
      exact not_inside_nil c

/-- What others do leaves a registration as it is. -/
theorem Registers.other {s s' : System} {c : Client} (h : Registers s c)
    (hpeer : s'.peers c = s.peers c)
    (hset : c ∈ s'.server.displayClients ↔ c ∈ s.server.displayClients) : Registers s' c := by
  cases h with
  | absent hnone hnot => exact .absent (hpeer.trans hnone) (hset.not.mpr hnot)
  | present hsome hkeeps hset' hinside =>
    exact .present (hpeer.trans hsome) hkeeps (hset.trans hset') hinside

theorem registers_step {s s' : System} {event : Event} {o : Option Happening} (hs : s.server.Good)
    (h : ∀ c, Registers s c) (hstep : system.step s event = some (o, s')) : ∀ c, Registers s' c := by
  intro c
  cases event with
  | accept c' n infd outfd =>
    obtain ⟨hnone, -, rfl⟩ := step_accept.mp hstep
    by_cases hc : c = c'
    · subst hc
      cases h c with
      | absent _ hnot =>
        exact .present (System.put_self ..) (chat_keeps c n) (iff_of_false hnot nofun)
          (iff_of_false (not_inside_nil c) nofun)
      | present hpeer => cases hnone.symm.trans hpeer
    · exact (h c).other (System.put_of_ne hc ..) Iff.rfl
  | turn c' wake =>
    obtain ⟨peer, a, k, re, hpeer, hproc, hre, -, rfl⟩ := step_turn.mp hstep
    obtain ⟨hcalled, hdisplays⟩ := react_displays hs hre
    cases h c' with
    | absent hnone => cases hnone.symm.trans hpeer
    | @present peer' registered hpeer' hkeeps hset hinside =>
      obtain rfl := Option.some.inj (hpeer'.symm.trans hpeer)
      rw [hproc] at hkeeps
      obtain ⟨hnext, hothers⟩ := allowed_op hkeeps.1
      by_cases hc : c = c'
      · subst hc
        refine .present (System.put_self ..) (hkeeps.2 re.answer (react_settled hs hre)) ?_ ?_
        · rw [← hset] at hnext
          exact (hdisplays c).trans hnext.symm
        · rw [inside_snoc, hcalled, hinside]
          exact hnext.symm
      · obtain ⟨hreg, hunreg⟩ := hothers c hc
        refine (h c).other (System.put_of_ne hc ..) ((hdisplays c).trans ?_)
        simp [hreg, hunreg]
  | delete c' =>
    obtain ⟨peer, hpeer, hend, -, rfl⟩ := step_delete hstep
    by_cases hc : c = c'
    · subst hc
      exact .absent (System.put_self ..) ((h c).deleted hpeer hend)
    · exact (h c).other (System.put_of_ne hc ..) Iff.rfl

/-! ### Runs -/

theorem react_server {this : Client} {wake : Wake} {conn : Connection} {server : Server} {a : Act}
    {re : Reaction a} (h : react this wake conn server a = some re) : re.server = server ∨
      ∃ op out, Server.machine.step server op = some (out, re.server) := by
  cases a with
  | receive => exact Or.inl (react_received h).2
  | send text => exact Or.inl (react_sent h).2
  | dequeue => exact Or.inl (react_dequeued h).2.1
  | call op =>
    obtain ⟨out, server', hstep, rfl⟩ := react_call.mp h
    exact Or.inr ⟨op, out, hstep⟩

/-- The server of a system has come to its state by the operations that the threads called. -/
theorem run_server {events : List Event} {outs : List (Option Happening)} {s : System}
    (h : system.run events = some (outs, s)) :
    ∃ ops outs', Server.machine.run ops = some (outs', s.server) := by
  refine Machine.runFrom_induct (P := fun _ _ s =>
    ∃ ops outs', Server.machine.run ops = some (outs', s.server)) ⟨[], [], rfl⟩ ?_ h
  rintro events outs s event o s' - ⟨ops, outs', hrun⟩ hstep
  cases event with
  | accept c n infd outfd =>
    obtain ⟨-, -, rfl⟩ := step_accept.mp hstep
    exact ⟨ops, outs', hrun⟩
  | turn c wake =>
    obtain ⟨peer, a, k, re, -, -, hre, -, rfl⟩ := step_turn.mp hstep
    rcases react_server hre with hsame | ⟨op, out, hop⟩
    · exact ⟨ops, outs', hsame ▸ hrun⟩
    · exact ⟨_, _, Machine.run_snoc.mpr ⟨_, _, _, hrun, hop, rfl⟩⟩
  | delete c =>
    obtain ⟨peer, -, -, -, rfl⟩ := step_delete hstep
    exact ⟨ops, outs', hrun⟩

/-- FOLLOW: each client of a system has lived through a session among others. -/
theorem run_among {events : List Event} {outs : List (Option Happening)} {s : System}
    (h : system.run events = some (outs, s)) : ∀ c peer, s.peers c = some peer →
      ∃ n conn ops outs₀ server moves outs', Server.machine.run ops = some (outs₀, server) ∧
        (among c (opening c n conn server)).run moves
          = some (outs', ⟨peer.proc, peer.conn, s.server⟩) ∧
        happenings outs' = peer.past := by
  refine Machine.runFrom_induct (P := fun _ _ s => ∀ c peer, s.peers c = some peer →
    ∃ n conn ops outs₀ server moves outs', Server.machine.run ops = some (outs₀, server) ∧
      (among c (opening c n conn server)).run moves
        = some (outs', ⟨peer.proc, peer.conn, s.server⟩) ∧
      happenings outs' = peer.past) (fun _ _ hpeer => by cases hpeer) ?_ h
  intro events outs s event o s' hrun ih hstep c peer hpeer
  cases event with
  | accept c' n infd outfd =>
    obtain ⟨-, -, rfl⟩ := step_accept.mp hstep
    by_cases hc : c = c'
    · subst hc
      obtain rfl := Option.some.inj ((System.put_self ..).symm.trans hpeer)
      obtain ⟨ops, outs₀, hserver⟩ := run_server hrun
      exact ⟨n, _, ops, outs₀, _, [], [], hserver, rfl, rfl⟩
    · exact ih c peer ((System.put_of_ne hc ..).symm.trans hpeer)
  | turn c' wake =>
    obtain ⟨peer', a, k, re, hpeer', hproc, hre, -, rfl⟩ := step_turn.mp hstep
    by_cases hc : c = c'
    · subst hc
      obtain rfl := Option.some.inj ((System.put_self ..).symm.trans hpeer)
      obtain ⟨n, conn, ops, outs₀, server, moves, outs', hserver, hsession, hpast⟩ := ih c peer' hpeer'
      refine ⟨n, conn, ops, outs₀, server, moves ++ [.own wake], outs' ++ [some re.happening],
        hserver, ?_, by rw [happenings_own, hpast]⟩
      exact Machine.run_snoc.mpr ⟨_, _, _, hsession,
        step_own.mpr ⟨a, k, re, hproc, hre, rfl, rfl⟩, rfl⟩
    · obtain ⟨n, conn, ops, outs₀, server, moves, outs', hserver, hsession, hpast⟩ :=
        ih c peer ((System.put_of_ne hc ..).symm.trans hpeer)
      rcases react_server hre with hsame | ⟨op, out, hop⟩
      · exact ⟨n, conn, ops, outs₀, server, moves, outs', hserver, hsame ▸ hsession, hpast⟩
      · refine ⟨n, conn, ops, outs₀, server, moves ++ [.other op], outs' ++ [none], hserver, ?_,
          by rw [happenings_other, hpast]⟩
        exact Machine.run_snoc.mpr ⟨_, _, _, hsession,
          step_other.mpr ⟨out, _, hop, rfl, rfl⟩, rfl⟩
  | delete c' =>
    obtain ⟨peer', -, -, -, rfl⟩ := step_delete hstep
    by_cases hc : c = c'
    · subst hc
      cases (System.put_self ..).symm.trans hpeer
    · exact ih c peer ((System.put_of_ne hc ..).symm.trans hpeer)

theorem run_registers {events : List Event} {outs : List (Option Happening)} {s : System}
    (h : system.run events = some (outs, s)) : ∀ c, Registers s c := by
  refine Machine.runFrom_induct (P := fun _ _ s => ∀ c, Registers s c)
    (fun c => .absent rfl (Finset.notMem_empty c)) ?_ h
  intro events outs s event o s' hrun ih hstep
  obtain ⟨ops, outs', hserver⟩ := run_server hrun
  exact registers_step (Server.run_good hserver) ih hstep

theorem Registers.iff {s : System} {c : Client} (h : Registers s c) :
    c ∈ s.server.displayClients ↔ ∃ peer, s.peers c = some peer ∧ Inside c peer.past := by
  cases h with
  | absent hnone hnot => exact iff_of_false hnot (by simp [hnone])
  | present hsome hkeeps hset hinside =>
    rw [hset, ← hinside]
    simp [hsome]

/-- A thread that calls `register_display` registers its own client, which is not yet registered. -/
theorem Registers.fresh {s s' : System} {c : Client} (h : Registers s c) {wake : Wake} {op : Op}
    {out : Out} {before after : Server}
    (hstep : system.step s (.turn c wake) = some (some (.called op out before after), s'))
    (hs : s.server.Good) {c' : Client} (hop : op = .registerDisplay c') :
    c' = c ∧ c ∉ s.server.displayClients := by
  obtain ⟨peer, a, k, re, hpeer, hproc, hre, hhap, -⟩ := step_turn.mp hstep
  obtain ⟨hcalled, -⟩ := react_displays hs hre
  rw [← Option.some.inj hhap, hop] at hcalled
  cases h with
  | absent hnone => cases hnone.symm.trans hpeer
  | @present peer' registered hpeer' hkeeps hset =>
    obtain rfl := Option.some.inj (hpeer'.symm.trans hpeer)
    rw [hproc] at hkeeps
    constructor
    · by_contra hc
      exact ((allowed_op hkeeps.1).2 c' hc).1 hcalled.symm
    · rw [hset]
      rintro rfl
      exact allowed_once hkeeps.1 c' hcalled.symm

/-- What a turn does to the queues, if it does anything to them. -/
theorem turn_took {s s' : System} {c : Client} {wake : Wake} {o : Option Happening}
    (hs : s.server.Good) (hstep : system.step s (.turn c wake) = some (o, s')) :
    (s'.server = s.server ∧ o.bind calledOf = none) ∨
      ∃ op out, o = some (.called op out s.server s'.server) ∧
        Server.Took s.server op out s'.server := by
  obtain ⟨peer, a, k, re, -, -, hre, rfl, rfl⟩ := step_turn.mp hstep
  have hcalled := (react_displays hs hre).1
  cases a with
  | receive => exact Or.inl ⟨(react_received hre).2, hcalled⟩
  | send text => exact Or.inl ⟨(react_sent hre).2, hcalled⟩
  | dequeue => exact Or.inl ⟨(react_dequeued hre).2.1, hcalled⟩
  | call op =>
    obtain ⟨out, server', hop, rfl⟩ := react_call.mp hre
    exact Or.inr ⟨op, out, rfl, Server.step_took hs hop⟩

/-- A step that changes the server is a turn. -/
theorem step_idle {s s' : System} {event : Event} {o : Option Happening}
    (hstep : system.step s event = some (o, s')) :
    s'.server = s.server ∨ ∃ c wake, event = .turn c wake := by
  cases event with
  | accept c n infd outfd =>
    obtain ⟨-, -, rfl⟩ := step_accept.mp hstep
    exact Or.inl rfl
  | turn c wake => exact Or.inr ⟨c, wake, rfl⟩
  | delete c =>
    obtain ⟨peer, -, -, -, rfl⟩ := step_delete hstep
    exact Or.inl rfl

/-- CORRECT: in every system of sessions, whatever order the threads run in and however they end, the
    display clients are the clients that exist and whose thread has registered and not yet unregistered
    them; none whose thread is at its end is left among them. So a message is only ever put in the queue
    of a client that exists, and each operation that completes while a display is registered puts all
    that it announces in the queue of that display. -/
theorem broadcasts_reach {events : List Event} {outs : List (Option Happening)} {s : System}
    (h : system.run events = some (outs, s)) :
    (∀ c, c ∈ s.server.displayClients ↔ ∃ peer, s.peers c = some peer ∧ Inside c peer.past) ∧
    (∀ c peer r, s.peers c = some peer → peer.proc = done r → c ∉ s.server.displayClients) ∧
    (∀ event o s', system.step s event = some (o, s') → ∀ c,
      s'.server.queue c ≠ s.server.queue c →
        (∃ peer, s.peers c = some peer) ∧ ∃ peer, s'.peers c = some peer ∧ Inside c peer.past) ∧
    ∀ c' wake op out before after s',
      system.step s (.turn c' wake) = some (some (.called op out before after), s') →
      ∀ c peer, s.peers c = some peer → Inside c peer.past →
        s'.server.queue c = s.server.queue c ++ announcement s.server s'.server op out := by
  obtain ⟨ops, outs', hserver⟩ := run_server h
  have hs := Server.run_good hserver
  have hreg := run_registers h
  refine ⟨fun c => (hreg c).iff, fun c peer r hpeer hdone => (hreg c).deleted hpeer (Or.inl ⟨r, hdone⟩),
    fun event o s' hstep c hqueue => ?_, ?_⟩
  · have hreg' := registers_step hs hreg hstep
    rcases step_idle hstep with hsame | ⟨c', wake, rfl⟩
    · exact absurd (by rw [hsame]) hqueue
    rcases turn_took hs hstep with ⟨hsame, -⟩ | ⟨op, out, rfl, htook⟩
    · exact absurd (by rw [hsame]) hqueue
    rw [took_queue htook c] at hqueue
    have hafter : c ∈ s'.server.displayClients := by
      rw [htook.displays]
      by_cases hop : op = .registerDisplay c
      · exact Or.inl hop
      · rw [if_neg hop] at hqueue
        by_cases hc : c ∈ s.server.displayClients
        · refine Or.inr ⟨hc, ?_⟩
          rintro rfl
          simp [announcement] at hqueue
        · simp [hc] at hqueue
    obtain ⟨peer', hpeer', hinside⟩ := (hreg' c).iff.mp hafter
    refine ⟨?_, peer', hpeer', hinside⟩
    obtain ⟨peer, a, k, re, hpeer, -, -, -, rfl⟩ := step_turn.mp hstep
    by_cases hc : c = c'
    · exact hc ▸ ⟨peer, hpeer⟩
    · exact ⟨peer', (System.put_of_ne hc ..).symm.trans hpeer'⟩
  · intro c' wake op out before after s' hstep c peer hpeer hinside
    have hc := (hreg c).iff.mpr ⟨peer, hpeer, hinside⟩
    rcases turn_took hs hstep with ⟨-, hnone⟩ | ⟨op', out', hhap, htook⟩
    · cases hnone
    · obtain ⟨rfl, rfl, -⟩ := Happening.called.inj (Option.some.inj hhap)
      rw [took_queue htook c, if_neg, if_pos hc]
      intro hop
      obtain ⟨rfl, hnot⟩ := (hreg c').fresh hstep hs hop
      exact hnot hc

/-- A display at the address 5, up to its registration. -/
theorem broadcasts_reach_one :
    let login := ascii "LOGIN|DISPLAY|alice/foobar"
    let infd : Infd := ⟨(Framing.frame login).map fun b => .data b [], false⟩
    ∃ outs s, system.run [.accept 5 3 infd ⟨[], []⟩, .turn 5 .timeout, .turn 5 .timeout,
        .turn 5 .timeout] = some (outs, s) ∧
      5 ∈ s.server.displayClients ∧ ∃ peer, s.peers 5 = some peer ∧ Inside 5 peer.past := by
  intro login infd
  have hcont : (⟨infd, ⟨[], []⟩, 0⟩ : Connection).infd.content = Framing.frame login ++ [] :=
    (Framing.Infd.content_data _ _).trans (by simp)
  have hread : decoded login = .ok (.ofLogin .login .display (ascii "alice/foobar")) := by
    decide +kernel
  have hlet : letIn 5 3 (decoded login)
      = act (.send (Wire.messageStr welcome)) fun _ => entered 5 3 .display := by
    rw [hread, letIn, if_pos (by decide +kernel), if_pos (by decide +kernel)]
    rfl
  obtain ⟨infd', hreceive, -⟩ := react_frame 5 .timeout {} hcont (by decide)
  obtain ⟨outfd, hsend, -⟩ := Framing.exec_send welcome_short (Framing.Outfd.open_nil [])
  have hsent : react 5 .timeout ⟨infd', ⟨[], []⟩, 0⟩ {} (.send (Wire.messageStr welcome))
      = some ⟨.ok (), .sent (Wire.messageStr welcome) (.ok ()), ⟨infd', outfd, 0⟩, {}⟩ :=
    @react_of_send _ _ _ _ _ (.ok ()) _ hsend
  have hregister := Server.step_registerDisplay Server.good_init 5
  have hrun : system.run [.accept 5 3 infd ⟨[], []⟩, .turn 5 .timeout, .turn 5 .timeout,
      .turn 5 .timeout] = _ :=
    runFrom_accept rfl (runFrom_turn (System.put_self ..) (chat_eq 5 3) hreceive
      (runFrom_turn (System.put_self ..) hlet hsent
        (runFrom_turn (System.put_self ..) rfl (react_call.mpr ⟨_, _, hregister, rfl⟩)
          (Machine.runFrom_nil _ _))))
  have hdisplay : 5 ∈ (Server.machine.init.register 5).displayClients :=
    Finset.mem_insert_self 5 ∅
  exact ⟨_, _, hrun, hdisplay, ((broadcasts_reach hrun).1 5).mp hdisplay⟩

end Restaurant.Session
