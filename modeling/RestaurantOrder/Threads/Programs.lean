import RestaurantOrder.Schemes.Threads
import RestaurantOrder.Server.Step

/-! The operations step by step: message_queue.cpp, guard.h and the methods of server.cpp once more.

    Here a method is a program that locks and unlocks mutexes, reads and writes what the server's mutex
    protects, and uses the deque and the semaphore of a queue. Any number of threads run such programs,
    one action at a time and in any order; each client has a queue with a mutex of its own.

        process_new_order   lock server, .., (lock queue, push, unlock queue, post)*, unlock server
        dequeue             wait, lock queue, pop, unlock queue -/

namespace Restaurant.Threads
open Schemes Process

/-- The server's `m_mutex`, and the one of a client's `m_queue`. -/
inductive Mutex where
  | server
  | queue (client : Client)
  deriving DecidableEq, Repr

/-- `read` and `write` are about what the server's mutex protects, `iterate` is the order in which a
    loop goes through an `unordered_set`, and the rest is done to the queue of a client. -/
inductive Prim where
  | lock (mutex : Mutex)
  | unlock (mutex : Mutex)
  | read
  | write (server : Server)
  | iterate (clients : Finset Client)
  | push (client : Client) (msg : Message)
  | post (client : Client)
  | wait (client : Client)
  | pop (client : Client)

/-- `wait` says whether the semaphore was decremented. -/
abbrev Prim.Answer : Prim → Type
  | .read => Server
  | .iterate _ => List Client
  | .wait _ => Bool
  | .pop _ => Message
  | _ => Unit

abbrev Prog (α : Type) := Process Prim Prim.Answer Exception α

def lock (mutex : Mutex) : Prog Unit := perform (Prim.lock mutex)
def unlock (mutex : Mutex) : Prog Unit := perform (Prim.unlock mutex)
def read : Prog Server := perform Prim.read
def write (server : Server) : Prog Unit := perform (Prim.write server)
def iterate (clients : Finset Client) : Prog (List Client) := perform (Prim.iterate clients)
def push (client : Client) (msg : Message) : Prog Unit := perform (Prim.push client msg)
def post (client : Client) : Prog Unit := perform (Prim.post client)
def wait (client : Client) : Prog Bool := perform (Prim.wait client)
def pop (client : Client) : Prog Message := perform (Prim.pop client)

/-! ### The programs -/

/-- `MessageQueue::enqueue`. -/
def enqueue (client : Client) (msg : Message) : Prog Unit := do
  lock (.queue client)
  push client msg
  unlock (.queue client)
  post client

/-- `MessageQueue::dequeue`; `none` is the empty pointer. -/
def dequeue (client : Client) : Prog (Option Message) := do
  if !(← wait client) then return none
  lock (.queue client)
  let msg ← pop client
  unlock (.queue client)
  return some msg

/-- A body with `Guard g(m_mutex)` at its top. -/
def guarded {α : Type} (body : Prog α) : Prog α := do
  lock .server
  leaving (unlock .server) body

def update (f : Server → Server) : Prog Unit := do
  write (f (← read))

/-- The loop of `broadcast` over the display clients. -/
def enqueueAll (msg : Message) : List Client → Prog Unit
  | [] => pure ()
  | client :: rest => do
    enqueue client (← msg.duplicate)
    enqueueAll msg rest

def broadcast (msg : Message) : Prog Unit := do
  enqueueAll msg (← iterate (← read).displayClients)

/-- The loop of `register_display` over the orders. -/
def enqueueOrders (client : Client) : List (Int32 × Order) → Prog Unit
  | [] => pure ()
  | pair :: rest => do
    enqueue client (.ofOrder .dispOrder (some (← pair.2.duplicate)))
    enqueueOrders client rest

def registerDisplay (client : Client) : Prog Unit := guarded do
  update fun s => { s with displayClients := insert client s.displayClients }
  enqueueOrders client (← read).orders.toList

def unregisterDisplay (client : Client) : Prog Unit := guarded do
  update fun s => { s with displayClients := s.displayClients.erase client }

def processNewOrder (order : Order) : Prog Int32 := guarded do
  let id := (← read).nextOrderId
  let next ← Server.increment id
  update fun s => { s with nextOrderId := next }
  let items ← Server.setOrderIds id order.items
  let order := { order.setId id with items }.setStatus .new
  update (·.setOrder id order)
  broadcast (.ofOrder .dispOrder (some order))
  return id

def processItemUpdate (orderId itemId : Int32) (itemStatus : ItemStatus) : Prog Unit := guarded do
  match (← read).orders[orderId]? with
  | none => Server.semanticError "order not found"
  | some order =>
    match ← order.findItem itemId with
    | none => Server.semanticError "item not found"
    | some i =>
      let cur := (← deref (← order.at i)).status
      if !(cur = .new && itemStatus = .inProgress || cur = .inProgress && itemStatus = .done) then
        Server.semanticError "invalid item status transition"
      let order := order.setItemStatus i itemStatus
      update (·.setOrder orderId order)
      broadcast (.ofItemStatus .dispItemUpdate orderId itemId itemStatus)
      if itemStatus = .inProgress && order.status = .new then
        update (·.setOrder orderId (order.setStatus .inProgress))
        broadcast (.ofOrderStatus .dispOrderUpdate orderId .inProgress)
      else if itemStatus = .done && order.status = .inProgress then
        if ← Server.allDone order.items then
          update (·.setOrder orderId (order.setStatus .done))
          broadcast (.ofOrderStatus .dispOrderUpdate orderId .done)

def processOrderUpdate (orderId : Int32) (orderStatus : OrderStatus) : Prog Unit := guarded do
  match (← read).orders[orderId]? with
  | none => Server.semanticError "order not found"
  | some order =>
    if order.status ≠ .done || orderStatus ≠ .delivered then
      Server.semanticError "invalid order status transition"
    update (·.setOrder orderId (order.setStatus .delivered))
    broadcast (.ofOrderStatus .dispOrderUpdate orderId .delivered)
    update (·.eraseOrder orderId)

def call : Op → Prog (Option Int32)
  | .newOrder order => do return some (← processNewOrder order)
  | .itemUpdate orderId itemId itemStatus => do
    processItemUpdate orderId itemId itemStatus
    return none
  | .orderUpdate orderId orderStatus => do
    processOrderUpdate orderId orderStatus
    return none
  | .registerDisplay client => do
    registerDisplay client
    return none
  | .unregisterDisplay client => do
    unregisterDisplay client
    return none

/-- What a thread calls. -/
inductive Call where
  | enqueue (client : Client) (msg : Message)
  | dequeue (client : Client)
  | server (op : Op)
  deriving DecidableEq, Repr

def Call.body : Call → Prog Unit
  | .enqueue client msg => Threads.enqueue client msg
  | .dequeue client => do
    let _ ← Threads.dequeue client
  | .server op => do
    let _ ← call op

/-! ### What the threads share -/

/-- A queue: the deque `m_queue` and the value of the semaphore `m_avail`. Besides, the history: all
    messages pushed and popped, the number of posts, who has pushed and not posted yet, and who has
    waited with success and not popped yet. -/
structure MessageQueue (T : Type) where
  queue : List Message := []
  avail : ℕ := 0
  pushed : List Message := []
  popped : List Message := []
  posts : ℕ := 0
  posting : Finset T := ∅
  popping : Finset T := ∅

/-- `server` is what the server's mutex protects; its queues are `queues` here. -/
structure Memory (T : Type) where
  server : Server := {}
  owner : Mutex → Option T := fun _ => none
  queues : Client → MessageQueue T := fun _ => {}

/-- What is open when an action is performed: does a wait time out, and in which order does a loop go
    through a set? -/
structure Choice where
  timeout : Bool := false
  order : List Client := []

variable {T : Type}

def Memory.setOwner (m : Memory T) (mutex : Mutex) (t : Option T) : Memory T :=
  { m with owner := Function.update m.owner mutex t }

def Memory.setQueue (m : Memory T) (client : Client) (q : MessageQueue T) : Memory T :=
  { m with queues := Function.update m.queues client q }

variable [DecidableEq T]

namespace MessageQueue

def push (q : MessageQueue T) (t : T) (msg : Message) : MessageQueue T :=
  { q with
    queue := q.queue ++ [msg]
    pushed := q.pushed ++ [msg]
    posting := insert t q.posting }

def post (q : MessageQueue T) (t : T) : MessageQueue T :=
  { q with
    avail := q.avail + 1
    posts := q.posts + 1
    posting := q.posting.erase t }

/-- A thread waits as long as the semaphore is 0. -/
def wait (q : MessageQueue T) (t : T) : Option (MessageQueue T) :=
  match q.avail with
  | 0 => none
  | n + 1 => some { q with avail := n, popping := insert t q.popping }

/-- `front` and `pop_front`, which have no meaning on an empty deque. -/
def pop (q : MessageQueue T) (t : T) : Option (Message × MessageQueue T) :=
  match q.queue with
  | [] => none
  | msg :: rest => some (msg, { q with
      queue := rest
      popped := q.popped ++ [msg]
      popping := q.popping.erase t })

end MessageQueue

/-- An action of a thread on what is shared; `none` if it cannot be performed. A mutex is not
    recursive. A semaphore may time out at any moment. -/
def Memory.perform (choice : Choice) (t : T) (m : Memory T) :
    (a : Prim) → Option (a.Answer × Memory T)
  | .lock mutex => if m.owner mutex = none then some ((), m.setOwner mutex (some t)) else none
  | .unlock mutex => if m.owner mutex = some t then some ((), m.setOwner mutex none) else none
  | .read => some (m.server, m)
  | .write server => some ((), { m with server })
  | .iterate clients =>
    if choice.order.Nodup ∧ choice.order.toFinset = clients then some (choice.order, m) else none
  | .push client msg => some ((), m.setQueue client ((m.queues client).push t msg))
  | .post client => some ((), m.setQueue client ((m.queues client).post t))
  | .wait client =>
    if choice.timeout then some (false, m)
    else ((m.queues client).wait t).map fun q => (true, m.setQueue client q)
  | .pop client => ((m.queues client).pop t).map fun r => (r.1, m.setQueue client r.2)

/-! ### What an action has done -/

section
variable {m m' : Memory T} {choice : Choice} {t : T}

theorem perform_lock {l : Mutex} {r : Unit} (h : m.perform choice t (.lock l) = some (r, m')) :
    m.owner l = none ∧ m' = m.setOwner l (some t) := by
  simp only [Memory.perform, Option.ite_none_right_eq_some, Option.some.injEq, Prod.mk.injEq] at h
  exact ⟨h.1, h.2.2.symm⟩

theorem perform_unlock {l : Mutex} {r : Unit} (h : m.perform choice t (.unlock l) = some (r, m')) :
    m.owner l = some t ∧ m' = m.setOwner l none := by
  simp only [Memory.perform, Option.ite_none_right_eq_some, Option.some.injEq, Prod.mk.injEq] at h
  exact ⟨h.1, h.2.2.symm⟩

theorem perform_iterate {cs : Finset Client} {r : List Client}
    (h : m.perform choice t (.iterate cs) = some (r, m')) : (r.Nodup ∧ r.toFinset = cs) ∧ m' = m := by
  simp only [Memory.perform, Option.ite_none_right_eq_some, Option.some.injEq, Prod.mk.injEq] at h
  obtain ⟨horder, rfl, rfl⟩ := h
  exact ⟨horder, rfl⟩

/-- A wait times out, or it takes one from the semaphore. -/
theorem perform_wait {c : Client} {r : Bool} (h : m.perform choice t (.wait c) = some (r, m')) :
    (r = false ∧ m' = m) ∨ r = true ∧ ∃ n, (m.queues c).avail = n + 1 ∧ m' = m.setQueue c
      { m.queues c with avail := n, popping := insert t (m.queues c).popping } := by
  simp only [Memory.perform] at h
  split at h
  · obtain ⟨rfl, rfl⟩ := Prod.mk.inj (Option.some.inj h)
    exact Or.inl ⟨rfl, rfl⟩
  · simp only [Option.map_eq_some_iff, Prod.mk.injEq] at h
    obtain ⟨q, hq, rfl, rfl⟩ := h
    unfold MessageQueue.wait at hq
    split at hq
    · cases hq
    · next n havail =>
      obtain rfl := Option.some.inj hq
      exact Or.inr ⟨rfl, n, havail, rfl⟩

theorem perform_pop {c : Client} {msg : Message} (h : m.perform choice t (.pop c) = some (msg, m')) :
    ∃ rest, (m.queues c).queue = msg :: rest ∧ m' = m.setQueue c
      { m.queues c with
        queue := rest
        popped := (m.queues c).popped ++ [msg]
        popping := (m.queues c).popping.erase t } := by
  simp only [Memory.perform, Option.map_eq_some_iff, Prod.mk.injEq] at h
  obtain ⟨⟨msg', q⟩, hq, rfl, rfl⟩ := h
  unfold MessageQueue.pop at hq
  split at hq
  · cases hq
  · next msg rest hqueue =>
    obtain ⟨rfl, rfl⟩ := Prod.mk.inj (Option.some.inj hq)
    exact ⟨rest, hqueue, rfl⟩

end

/-- The threads of the server: each makes one call after the other. -/
def threads (T : Type) [DecidableEq T] :
    Machine (Pool (Memory T) T Prim Prim.Answer Exception) (Turn T Call Choice) Unit :=
  pool {} Call.body Memory.perform

end Restaurant.Threads
