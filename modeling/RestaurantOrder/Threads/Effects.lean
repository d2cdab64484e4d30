import RestaurantOrder.Threads.Programs

/-! What an operation does while its thread has the server's mutex.

    Between `lock` and `unlock` nobody else writes the server or pushes messages, so the thread sees
    what it writes and pushes itself. Step by step it does what the server model does at once: `Does`
    is the judgement that a program has the effect of a piece of code, with one rule for each way to
    put programs together, and `body_op` says it of each call.

        program   lock ──▶ read ──▶ write ──▶ push ──▶ unlock
        code               get ───▶ modify ─▶ enqueue            -/

namespace Restaurant.Threads
open Schemes Process

variable {T : Type}

/-- The shared state as the server model has it. -/
def Memory.view (m : Memory T) : Server :=
  { m.server with queue := fun c => (m.queues c).pushed }

/-- What a thread sees between `lock` and `unlock` of the server's mutex, and whether it is past it. -/
@[ext] structure Span where
  server : Server
  left : Bool := false

/-- The conversation of the thread that has the server's mutex with what is shared. -/
def inside : Protocol Prim Prim.Answer Span where
  allows g
    | .lock .server | .wait _ | .pop _ => False
    | _ => g.left = false
  answers g
    | .read, r => { r with queue := g.server.queue } = g.server
    | .iterate clients, r => r.Nodup ∧ r.toFinset = clients
    | _, _ => True
  next g
    | .write s, _ => { g with server := { s with queue := g.server.queue } }
    | .push client msg, _ => { g with server := g.server.enqueue client [msg] }
    | .unlock .server, _ => { g with left := true }
    | _, _ => g

/-- A program under the mutex does from the state `s` on what the code does. -/
def DoesAt {α : Type} (p : Prog α) (x : CppOn Server α) (s : Server) : Prop :=
  Keeps inside (fun r g => g = ⟨(exec x s).2, false⟩ ∧ r = (exec x s).1) p ⟨s, false⟩

def Does {α : Type} (p : Prog α) (x : CppOn Server α) : Prop := ∀ s, DoesAt p x s

section Rules
variable {α β : Type} {p : Prog α} {x : CppOn Server α} {f : α → Prog β} {h : α → CppOn Server β}
  {s : Server}

theorem DoesAt.bind (hp : DoesAt p x s) (hf : ∀ a, Does (f a) (h a)) :
    DoesAt (p >>= f) (x >>= h) s := by
  refine Keeps.bind (Keeps.mono ?_ hp)
  rintro r g ⟨rfl, rfl⟩
  rcases hx : exec x s with ⟨e | a, s'⟩
  · rw [exec_bind_error hx]
    exact ⟨rfl, rfl⟩
  · rw [exec_bind_ok hx]
    exact hf a s'

theorem Does.bind (hp : Does p x) (hf : ∀ a, Does (f a) (h a)) : Does (p >>= f) (x >>= h) :=
  fun s => (hp s).bind hf

theorem Does.lift (y : Cpp α) : Does (liftM y : Prog α) (liftM y : CppOn Server α) :=
  fun _ => ⟨rfl, rfl⟩

/-- A read sees all of the server but what is in the queues. -/
theorem DoesAt.read {f : Server → Prog β} {h : Server → CppOn Server β}
    (hf : ∀ q, DoesAt (f { s with queue := q }) (h s) s) : DoesAt (read >>= f) (get >>= h) s := by
  refine ⟨rfl, fun r hr => ?_⟩
  obtain ⟨orders, clients, next, queue⟩ := r
  obtain ⟨orders', clients', next', queue'⟩ := s
  obtain ⟨rfl, rfl, rfl, -⟩ := (Server.mk.injEq ..).mp hr
  exact hf queue

/-- A write that leaves the queues alone. -/
theorem Does.update {f : Server → Server}
    (hf : ∀ s q, { f { s with queue := q } with queue := s.queue } = f s) :
    Does (update f) (modify f : CppOn Server Unit) := by
  refine fun s => DoesAt.read fun q => ⟨rfl, fun _ _ => ?_⟩
  refine ⟨?_, rfl⟩
  show Span.mk { f { s with queue := q } with queue := s.queue } false = _
  rw [hf s q]
  rfl

theorem Does.ite {c : Prop} [Decidable c] {p q : Prog α} {x y : CppOn Server α} (hp : Does p x)
    (hq : Does q y) : Does (if c then p else q) (if c then x else y) := by
  split
  · exact hp
  · exact hq

/-- A check that may throw, and the rest. -/
theorem Does.check {c : Prop} [Decidable c] {p : Prog Unit} {x : CppOn Server Unit}
    {f : Unit → Prog β} {h : Unit → CppOn Server β} (hp : Does p x) (hf : ∀ u, Does (f u) (h u)) :
    Does (if c then p >>= f else f ()) (if c then x >>= h else h ()) :=
  Does.ite (hp.bind hf) (hf ())

end Rules

/-! ### The programs -/

theorem enqueue_does (c : Client) (msg : Message) :
    Does (enqueue c msg) (modify fun s => s.enqueue c [msg]) :=
  fun _ => ⟨rfl, fun _ _ => ⟨rfl, fun _ _ => ⟨rfl, fun _ _ => ⟨rfl, fun _ _ => ⟨rfl, rfl⟩⟩⟩⟩⟩

/-- The loop of `broadcast` in any order. -/
theorem enqueueAll_does {msg copy : Message} (hcopy : msg.duplicate = .ok copy) {cs : List Client}
    (hnodup : cs.Nodup) : Does (enqueueAll msg cs) (modify fun s : Server =>
      { s with queue := fun c => if c ∈ cs then s.queue c ++ [copy] else s.queue c }) := by
  induction cs with
  | nil => exact fun s => ⟨by simp, rfl⟩
  | cons c cs ih =>
    obtain ⟨hnew, hnodup⟩ := List.nodup_cons.mp hnodup
    intro s
    rw [enqueueAll, hcopy, lift_eq_done, Process.ok_bind]
    refine Keeps.bind (Keeps.mono ?_ (enqueue_does c copy s))
    rintro r g ⟨rfl, rfl⟩
    refine Keeps.mono ?_ (ih hnodup _)
    rintro r g ⟨rfl, rfl⟩
    refine ⟨?_, rfl⟩
    simp only [exec_modify, Span.mk.injEq, Server.mk.injEq, Server.enqueue, true_and, and_true]
    funext c'
    by_cases hc : c' = c
    · subst hc
      simp [hnew]
    · simp [hc]

theorem broadcast_does (msg : Message) : Does (broadcast msg) (Server.broadcast msg) := by
  refine fun s => DoesAt.read fun q => ⟨rfl, fun cs hcs => ?_⟩
  obtain ⟨hnodup, hset⟩ : cs.Nodup ∧ cs.toFinset = s.displayClients := hcs
  have hloop : DoesAt (enqueueAll msg cs) (if s.displayClients.Nonempty then do
      let copy ← msg.duplicate
      set (s.tell [copy])
      else pure ()) s := by
    cases cs with
    | nil =>
      rw [← hset, if_neg (by simp)]
      exact ⟨rfl, rfl⟩
    | cons c cs =>
      rw [if_pos ⟨c, by rw [← hset]; simp⟩]
      rcases hcopy : msg.duplicate with e | copy
      · rw [enqueueAll, hcopy]
        exact ⟨rfl, rfl⟩
      · refine Keeps.mono ?_ (enqueueAll_does hcopy hnodup s)
        rintro r g ⟨rfl, rfl⟩
        refine ⟨?_, rfl⟩
        simp [Server.tell, ← hset]
  exact hloop

theorem enqueueOrders_does (c : Client) (pairs : List (Int32 × Order)) :
    Does (enqueueOrders c pairs) (Server.enqueueOrders c pairs) := by
  induction pairs with
  | nil => exact Does.lift (.ok ())
  | cons p pairs ih =>
    exact (Does.lift _).bind fun copy => (enqueue_does c _).bind fun _ => ih

theorem registerDisplay_does (c : Client) : ∃ p, registerDisplay c = guarded p ∧
    Does p (Server.registerDisplay c) := by
  refine ⟨_, rfl, ?_⟩
  refine (Does.update fun _ _ => rfl).bind fun _ s => DoesAt.read fun q => ?_
  exact enqueueOrders_does c _ s

theorem unregisterDisplay_does (c : Client) : ∃ p, unregisterDisplay c = guarded p ∧
    Does p (Server.unregisterDisplay c) :=
  ⟨_, rfl, Does.update fun _ _ => rfl⟩

theorem processNewOrder_does (order : Order) : ∃ p, processNewOrder order = guarded p ∧
    Does p (Server.processNewOrder order) := by
  refine ⟨_, rfl, fun s => DoesAt.read fun q => ?_⟩
  refine (Does.lift _ s).bind fun next => (Does.update fun _ _ => rfl).bind fun _ => ?_
  refine (Does.lift _).bind fun items => (Does.update fun _ _ => rfl).bind fun _ => ?_
  exact (broadcast_does _).bind fun _ => Does.lift (.ok _)

theorem processOrderUpdate_does (orderId : Int32) (orderStatus : OrderStatus) :
    ∃ p, processOrderUpdate orderId orderStatus = guarded p ∧
      Does p (Server.processOrderUpdate orderId orderStatus) := by
  refine ⟨_, rfl, fun s => DoesAt.read fun q => ?_⟩
  dsimp only
  cases s.orders[orderId]? with
  | none => exact Does.lift _ s
  | some order =>
    refine Does.check (Does.lift _) (fun _ => ?_) s
    refine (Does.update fun _ _ => rfl).bind fun _ => (broadcast_does _).bind fun _ => ?_
    exact Does.update fun _ _ => rfl

theorem processItemUpdate_does (orderId itemId : Int32) (itemStatus : ItemStatus) :
    ∃ p, processItemUpdate orderId itemId itemStatus = guarded p ∧
      Does p (Server.processItemUpdate orderId itemId itemStatus) := by
  refine ⟨_, rfl, fun s => DoesAt.read fun q => ?_⟩
  dsimp only
  cases s.orders[orderId]? with
  | none => exact Does.lift _ s
  | some order =>
    refine (Does.lift _ s).bind fun found => ?_
    cases found with
    | none => exact Does.lift _
    | some i =>
      refine (Does.lift _).bind fun p => (Does.lift _).bind fun item => ?_
      refine Does.check (Does.lift _) fun _ => ?_
      refine (Does.update fun _ _ => rfl).bind fun _ => (broadcast_does _).bind fun _ => ?_
      refine Does.ite ?_ (Does.ite ?_ (Does.lift (.ok ())))
      · exact (Does.update fun _ _ => rfl).bind fun _ => broadcast_does _
      · refine (Does.lift _).bind fun allDone => Does.ite ?_ (Does.lift (.ok ()))
        exact (Does.update fun _ _ => rfl).bind fun _ => broadcast_does _

/-- Every call takes the server's mutex first, and then does what the server model says. -/
theorem call_does (op : Op) : ∃ (α : Type) (p : Prog α) (x : CppOn Server α) (f : α → Option Int32),
    call op = (guarded p >>= fun a => pure (f a)) ∧ Server.call op = (x >>= fun a => pure (f a)) ∧
    Does p x := by
  cases op with
  | newOrder order =>
    obtain ⟨p, hp, hdoes⟩ := processNewOrder_does order
    exact ⟨_, p, _, some, by rw [call, hp], rfl, hdoes⟩
  | itemUpdate orderId itemId itemStatus =>
    obtain ⟨p, hp, hdoes⟩ := processItemUpdate_does orderId itemId itemStatus
    exact ⟨_, p, _, fun _ => none, by rw [call, hp], rfl, hdoes⟩
  | orderUpdate orderId orderStatus =>
    obtain ⟨p, hp, hdoes⟩ := processOrderUpdate_does orderId orderStatus
    exact ⟨_, p, _, fun _ => none, by rw [call, hp], rfl, hdoes⟩
  | registerDisplay c =>
    obtain ⟨p, hp, hdoes⟩ := registerDisplay_does c
    exact ⟨_, p, _, fun _ => none, by rw [call, hp], rfl, hdoes⟩
  | unregisterDisplay c =>
    obtain ⟨p, hp, hdoes⟩ := unregisterDisplay_does c
    exact ⟨_, p, _, fun _ => none, by rw [call, hp], rfl, hdoes⟩

/-! ### A call as one step -/

/-- Where the call ends, the mutex is given back and the state is the one that the operation steps to
    from `s`; an exception is the operation's. -/
def Committed (op : Op) (s : Server) (r : Cpp Unit) (g : Span) : Prop :=
  r ≠ .error .undefined → g.left = true ∧ ∃ out, Server.machine.step s op = some (out, g.server) ∧
    ∀ e, r = raise e → out = .error e

theorem body_op (op : Op) : ∃ k, Call.body (.server op) = act (.lock .server) k ∧
    ∀ s, Keeps inside (Committed op s) (k ()) ⟨s, false⟩ := by
  obtain ⟨α, p, x, f, hcall, hserver, hdoes⟩ := call_does op
  rw [Call.body, hcall]
  refine ⟨_, rfl, fun s => Keeps.bind (Keeps.bind (Keeps.leaving (Keeps.mono ?_ (hdoes s))))⟩
  have hstep : Server.machine.step s op = Server.observed (exec (x >>= fun a => pure (f a)) s) :=
    congrArg (fun y => Server.observed (exec y s)) hserver
  rintro r g ⟨rfl, rfl⟩
  rcases hx : exec x s with ⟨(e | _) | a, s'⟩
  · refine ⟨rfl, fun _ _ _ => ⟨rfl, .error e, ?_, ?_⟩⟩
    · rw [hstep, exec_bind_error hx]
      rfl
    · intro e' he
      cases he
      rfl
  · exact fun hdef => absurd rfl hdef
  · refine ⟨rfl, fun _ _ _ => ⟨rfl, .ok (f a), ?_, nofun⟩⟩
    rw [hstep, exec_bind_ok hx]
    rfl

end Restaurant.Threads
