import RestaurantOrder.Threads.Programs

/-! What every program keeps to.

    A thread is guarded while it holds the server's mutex, and it has an errand while it is at work on
    a queue. The errands of `enqueue` and of `dequeue` are the two ways through this picture, and a
    thread that waits is neither guarded nor on an errand.

        none ──lock──▶ pushing ──push──▶ pushed ──unlock──▶ posting ──post──▶ none
        none ──wait──▶ fetching ──lock──▶ popping ──pop──▶ popped ──unlock──▶ none

    Each call starts unguarded and without an errand, and so it ends (`body_returns`). -/

namespace Restaurant.Threads
open Schemes Process

inductive Errand where
  | none
  | pushing (client : Client)
  | pushed (client : Client)
  | posting (client : Client)
  | fetching (client : Client)
  | popping (client : Client)
  | popped (client : Client)

namespace Errand

/-- The queue whose mutex is held. -/
def holds : Errand → Option Client
  | pushing c | pushed c | popping c | popped c => some c
  | _ => Option.none

/-- The queue in which a message was put that is not posted yet. -/
def toPost : Errand → Option Client
  | pushed c | posting c => some c
  | _ => Option.none

/-- The queue from which a message is due after a wait with success. -/
def toPop : Errand → Option Client
  | fetching c | popping c => some c
  | _ => Option.none

/-- The errand is about this queue, if there is one. -/
def On (c : Client) : Errand → Prop
  | none => True
  | pushing c' | pushed c' | posting c' | fetching c' | popping c' | popped c' => c' = c

theorem On.toPost_ne {e : Errand} {c c' : Client} (h : e.On c) (hc : c' ≠ c) : e.toPost ≠ some c' := by
  cases e <;> simp_all [On, toPost, eq_comm]

theorem On.toPop_ne {e : Errand} {c c' : Client} (h : e.On c) (hc : c' ≠ c) : e.toPop ≠ some c' := by
  cases e <;> simp_all [On, toPop, eq_comm]

def lock (c : Client) : Errand → Errand
  | fetching _ => popping c
  | _ => pushing c

def unlock (c : Client) : Errand → Errand
  | pushed _ => posting c
  | _ => none

end Errand

structure Phase where
  guarded : Bool := false
  errand : Errand := .none

def Phase.Holds (g : Phase) : Mutex → Prop
  | .server => g.guarded = true
  | .queue c => g.errand.holds = some c

/-- The server's mutex protects the server, and a queue's mutex its deque. It is locked before a
    queue's mutex or not at all. -/
def Allowed (g : Phase) : Prim → Prop
  | .lock .server => g.guarded = false ∧ g.errand = .none
  | .lock (.queue c) => g.errand = .none ∨ g.guarded = false ∧ g.errand = .fetching c
  | .unlock .server => g.guarded = true ∧ g.errand = .none
  | .unlock (.queue c) => g.errand = .pushed c ∨ g.errand = .popped c
  | .read | .write _ | .iterate _ => g.guarded = true ∧ g.errand = .none
  | .push c _ => g.errand = .pushing c
  | .post c => g.errand = .posting c
  | .wait _ => g.guarded = false ∧ g.errand = .none
  | .pop c => g.errand = .popping c

def after (g : Phase) : (a : Prim) → a.Answer → Phase
  | .lock .server, _ => { g with guarded := true }
  | .lock (.queue c), _ => { g with errand := g.errand.lock c }
  | .unlock .server, _ => { g with guarded := false }
  | .unlock (.queue c), _ => { g with errand := g.errand.unlock c }
  | .push c _, _ => { g with errand := .pushed c }
  | .post _, _ => { g with errand := .none }
  | .wait c, true => { g with errand := .fetching c }
  | .pop c, _ => { g with errand := .popped c }
  | _, _ => g

def discipline : Protocol Prim Prim.Answer Phase where
  allows := Allowed
  answers _ _ _ := True
  next := after

/-! ### Queues -/

theorem enqueue_returns (c : Client) (msg : Message) (guarded : Bool) :
    Returns discipline (enqueue c msg) ⟨guarded, .none⟩ := by
  refine ⟨fun _ _ _ _ => trivial, ?_⟩
  -- pushing, pushed, posting
  refine ⟨Or.inl rfl, fun _ _ => ⟨rfl, fun _ _ => ⟨Or.inl rfl, fun _ _ => ⟨rfl, fun _ _ => ?_⟩⟩⟩⟩
  exact fun _ => rfl

theorem dequeue_returns (c : Client) : Returns discipline (dequeue c) {} := by
  constructor
  · rintro (_ | _)
    · trivial
    · exact fun _ _ _ => trivial
  · refine ⟨⟨rfl, rfl⟩, ?_⟩
    rintro (_ | _) -
    · exact fun _ => rfl
    · -- fetching, popping, popped
      refine ⟨Or.inr ⟨rfl, rfl⟩, fun _ _ => ⟨rfl, fun _ _ => ⟨Or.inr rfl, fun _ _ => ?_⟩⟩⟩
      exact fun _ => rfl

/-! ### The server -/

/-- The program can be run under the server's mutex: it holds that mutex to the end, and no other
    one then. -/
abbrev Inside {α : Type} (p : Prog α) : Prop := Returns discipline p ⟨true, .none⟩

theorem read_inside : Inside read := ⟨fun _ => trivial, ⟨rfl, rfl⟩, fun _ _ _ => rfl⟩

theorem update_inside (f : Server → Server) : Inside (update f) :=
  read_inside.bind fun _ => ⟨fun _ => trivial, ⟨rfl, rfl⟩, fun _ _ _ => rfl⟩

theorem iterate_inside (cs : Finset Client) : Inside (iterate cs) :=
  ⟨fun _ => trivial, ⟨rfl, rfl⟩, fun _ _ _ => rfl⟩

theorem lift_inside {α : Type} (x : Cpp α) : Inside (liftM x : Prog α) := Returns.done x _

/-- The destructor unlocks the mutex after a result as after an exception. -/
theorem guarded_returns {α : Type} {body : Prog α} (h : Inside body) :
    Returns discipline (guarded body) {} := by
  refine ⟨fun _ => h.1.leaving fun _ => trivial, ⟨rfl, rfl⟩, fun _ _ => Keeps.leaving (h.2.mono ?_)⟩
  rintro ((e | _) | a) g hg
  · obtain rfl := hg nofun
    exact ⟨⟨rfl, rfl⟩, fun _ _ _ => rfl⟩
  · exact fun hr => absurd rfl hr
  · obtain rfl := hg nofun
    exact ⟨⟨rfl, rfl⟩, fun _ _ _ => rfl⟩

theorem enqueueAll_inside (msg : Message) (cs : List Client) : Inside (enqueueAll msg cs) := by
  induction cs with
  | nil => exact lift_inside (.ok ())
  | cons c cs ih =>
    exact (lift_inside _).bind fun copy => (enqueue_returns c copy true).bind fun _ => ih

theorem broadcast_inside (msg : Message) : Inside (broadcast msg) :=
  read_inside.bind fun _ => (iterate_inside _).bind fun cs => enqueueAll_inside msg cs

theorem enqueueOrders_inside (c : Client) (pairs : List (Int32 × Order)) :
    Inside (enqueueOrders c pairs) := by
  induction pairs with
  | nil => exact lift_inside (.ok ())
  | cons p pairs ih =>
    exact (lift_inside _).bind fun copy => (enqueue_returns c _ true).bind fun _ => ih

theorem registerDisplay_returns (c : Client) : Returns discipline (registerDisplay c) {} :=
  guarded_returns <| (update_inside _).bind fun _ => read_inside.bind fun _ =>
    enqueueOrders_inside c _

theorem unregisterDisplay_returns (c : Client) : Returns discipline (unregisterDisplay c) {} :=
  guarded_returns (update_inside _)

theorem processNewOrder_returns (order : Order) : Returns discipline (processNewOrder order) {} := by
  refine guarded_returns <| read_inside.bind fun s => (lift_inside _).bind fun next => ?_
  refine (update_inside _).bind fun _ => (lift_inside _).bind fun items => ?_
  exact (update_inside _).bind fun _ => (broadcast_inside _).bind fun _ => lift_inside (.ok _)

theorem processItemUpdate_returns (orderId itemId : Int32) (itemStatus : ItemStatus) :
    Returns discipline (processItemUpdate orderId itemId itemStatus) {} := by
  refine guarded_returns <| read_inside.bind fun s => ?_
  split
  · exact lift_inside _
  · refine (lift_inside _).bind fun found => ?_
    split
    · exact lift_inside _
    · refine (lift_inside _).bind fun p => (lift_inside _).bind fun item => ?_
      refine Returns.check (lift_inside _) fun _ => ?_
      refine (update_inside _).bind fun _ => (broadcast_inside _).bind fun _ => ?_
      split
      · exact (update_inside _).bind fun _ => broadcast_inside _
      · split
        · refine (lift_inside _).bind fun allDone => ?_
          split
          · exact (update_inside _).bind fun _ => broadcast_inside _
          · exact lift_inside (.ok ())
        · exact lift_inside (.ok ())

theorem processOrderUpdate_returns (orderId : Int32) (orderStatus : OrderStatus) :
    Returns discipline (processOrderUpdate orderId orderStatus) {} := by
  refine guarded_returns <| read_inside.bind fun s => ?_
  split
  · exact lift_inside _
  · refine Returns.check (lift_inside _) fun _ => ?_
    exact (update_inside _).bind fun _ => (broadcast_inside _).bind fun _ => update_inside _

theorem call_returns (op : Op) : Returns discipline (call op) {} := by
  cases op with
  | newOrder order => exact (processNewOrder_returns order).bind fun _ => Returns.done _ _
  | itemUpdate orderId itemId itemStatus =>
    exact (processItemUpdate_returns orderId itemId itemStatus).bind fun _ => Returns.done _ _
  | orderUpdate orderId orderStatus =>
    exact (processOrderUpdate_returns orderId orderStatus).bind fun _ => Returns.done _ _
  | registerDisplay c => exact (registerDisplay_returns c).bind fun _ => Returns.done _ _
  | unregisterDisplay c => exact (unregisterDisplay_returns c).bind fun _ => Returns.done _ _

theorem body_returns (call : Call) : Returns discipline call.body {} := by
  cases call with
  | enqueue c msg => exact enqueue_returns c msg false
  | dequeue c => exact (dequeue_returns c).bind fun _ => Returns.done _ _
  | server op => exact (call_returns op).bind fun _ => Returns.done _ _

end Restaurant.Threads
