import RestaurantOrder.Model.Message
import RestaurantOrder.Schemes.Replica
import Mathlib.Data.Finset.Basic

/-! The server: server.h and server.cpp.

    Every method runs under one mutex, so an operation is code on the server's state. `m_orders` maps
    an id to its order; the set of display clients holds their addresses. The queue of a client is
    kept as everything that was ever put in it: what the client has already taken out is a beginning
    of that. -/

namespace Restaurant
open Schemes

/-- The address of a `Client` object. -/
abbrev Client := ℕ

/-- The type of `m_orders`. -/
abbrev Orders := Std.ExtTreeMap Int32 Order

structure Server where
  orders : Orders := ∅
  displayClients : Finset Client := ∅
  nextOrderId : Int32 := 1000
  queue : Client → List Message := fun _ => []

namespace Server

/-- `throw SemanticError(what)`. -/
def semanticError {α : Type} (what : String) : Cpp α := raise (.semanticError (ascii what))

/-- `Client::enqueue`. -/
def enqueue (s : Server) (client : Client) (msgs : List Message) : Server :=
  { s with queue := Function.update s.queue client (s.queue client ++ msgs) }

/-- Put messages in the queues of all display clients. -/
def tell (s : Server) (msgs : List Message) : Server :=
  { s with queue := fun c => if c ∈ s.displayClients then s.queue c ++ msgs else s.queue c }

def setOrder (s : Server) (id : Int32) (order : Order) : Server :=
  { s with orders := s.orders.insert id order }

def eraseOrder (s : Server) (id : Int32) : Server :=
  { s with orders := s.orders.erase id }

/-- The loop over the set duplicates the message for each client; the order of the clients does not
    show, as each has a queue of its own. -/
def broadcast (msg : Message) : CppOn Server Unit := do
  let s ← get
  if s.displayClients.Nonempty then
    let copy ← msg.duplicate
    set (s.tell [copy])

/-- The loop of `register_display` over the orders, in the order of their ids. -/
def enqueueOrders (client : Client) : List (Int32 × Order) → CppOn Server Unit
  | [] => pure ()
  | pair :: rest => do
    let copy ← pair.2.duplicate
    modify fun s => s.enqueue client [.ofOrder .dispOrder (some copy)]
    enqueueOrders client rest

def registerDisplay (client : Client) : CppOn Server Unit := do
  modify fun s => { s with displayClients := insert client s.displayClients }
  enqueueOrders client (← get).orders.toList

def unregisterDisplay (client : Client) : CppOn Server Unit :=
  modify fun s => { s with displayClients := s.displayClients.erase client }

/-- `++` on an `int`; overflow is undefined. -/
def increment (n : Int32) : Cpp Int32 :=
  if n = Int32.maxValue then .error .undefined else .ok (n + 1)

/-- The loop of `process_new_order` over the items. -/
def setOrderIds (id : Int32) (items : List (Option Item)) : Cpp (List (Option Item)) :=
  items.mapM fun p => return some ((← deref p).setOrderId id)

/-- `process_new_order`; the caller has checked that there is an order. -/
def processNewOrder (order : Order) : CppOn Server Int32 := do
  let id := (← get).nextOrderId
  let next ← increment id
  modify fun s => { s with nextOrderId := next }
  let items ← setOrderIds id order.items
  let order := { order.setId id with items }.setStatus .new
  modify (·.setOrder id order)
  broadcast (.ofOrder .dispOrder (some order))
  return id

/-- The loop over the items that decides whether an order is done. -/
def allDone : List (Option Item) → Cpp Bool
  | [] => .ok true
  | p :: ps => do
    if (← deref p).status ≠ .done then return false else allDone ps

def processItemUpdate (orderId itemId : Int32) (itemStatus : ItemStatus) : CppOn Server Unit := do
  match (← get).orders[orderId]? with
  | none => semanticError "order not found"
  | some order =>
    match ← order.findItem itemId with
    | none => semanticError "item not found"
    | some i =>
      let cur := (← deref (← order.at i)).status
      if !(cur = .new && itemStatus = .inProgress || cur = .inProgress && itemStatus = .done) then
        semanticError "invalid item status transition"
      let order := order.setItemStatus i itemStatus
      modify (·.setOrder orderId order)
      broadcast (.ofItemStatus .dispItemUpdate orderId itemId itemStatus)
      if itemStatus = .inProgress && order.status = .new then
        modify (·.setOrder orderId (order.setStatus .inProgress))
        broadcast (.ofOrderStatus .dispOrderUpdate orderId .inProgress)
      else if itemStatus = .done && order.status = .inProgress then
        if ← allDone order.items then
          modify (·.setOrder orderId (order.setStatus .done))
          broadcast (.ofOrderStatus .dispOrderUpdate orderId .done)

def processOrderUpdate (orderId : Int32) (orderStatus : OrderStatus) : CppOn Server Unit := do
  match (← get).orders[orderId]? with
  | none => semanticError "order not found"
  | some order =>
    if order.status ≠ .done || orderStatus ≠ .delivered then
      semanticError "invalid order status transition"
    modify (·.setOrder orderId (order.setStatus .delivered))
    broadcast (.ofOrderStatus .dispOrderUpdate orderId .delivered)
    modify (·.eraseOrder orderId)

/-! ### What the operations do to a state -/

@[simp] theorem tell_orders (s : Server) (ms : List Message) : (s.tell ms).orders = s.orders := rfl
@[simp] theorem tell_nextOrderId (s : Server) (ms : List Message) :
    (s.tell ms).nextOrderId = s.nextOrderId := rfl
@[simp] theorem setOrder_displayClients (s : Server) (k : Int32) (o : Order) :
    (s.setOrder k o).displayClients = s.displayClients := rfl
@[simp] theorem setOrder_nextOrderId (s : Server) (k : Int32) (o : Order) :
    (s.setOrder k o).nextOrderId = s.nextOrderId := rfl
@[simp] theorem setOrder_queue (s : Server) (k : Int32) (o : Order) :
    (s.setOrder k o).queue = s.queue := rfl
@[simp] theorem eraseOrder_displayClients (s : Server) (k : Int32) :
    (s.eraseOrder k).displayClients = s.displayClients := rfl
@[simp] theorem eraseOrder_nextOrderId (s : Server) (k : Int32) :
    (s.eraseOrder k).nextOrderId = s.nextOrderId := rfl

theorem setOrder_tell (s : Server) (k : Int32) (o : Order) (ms : List Message) :
    (s.tell ms).setOrder k o = (s.setOrder k o).tell ms := rfl

theorem eraseOrder_tell (s : Server) (k : Int32) (ms : List Message) :
    (s.tell ms).eraseOrder k = (s.eraseOrder k).tell ms := rfl

theorem tell_tell (s : Server) (ms ms' : List Message) :
    (s.tell ms).tell ms' = s.tell (ms ++ ms') := by
  simp only [tell, Server.mk.injEq, true_and]
  funext c
  by_cases h : c ∈ s.displayClients <;> simp [h]

theorem tell_queue_of_mem {s : Server} {c : Client} (h : c ∈ s.displayClients) (ms : List Message) :
    (s.tell ms).queue c = s.queue c ++ ms := if_pos h

theorem tell_queue_of_not_mem {s : Server} {c : Client} (h : c ∉ s.displayClients)
    (ms : List Message) : (s.tell ms).queue c = s.queue c := if_neg h

theorem getElem?_setOrder (s : Server) (k j : Int32) (o : Order) :
    (s.setOrder k o).orders[j]? = if k = j then some o else s.orders[j]? := by
  simp only [setOrder, Std.ExtTreeMap.getElem?_insert, Std.compare_eq_iff_eq]

theorem getElem?_eraseOrder (s : Server) (k j : Int32) :
    (s.eraseOrder k).orders[j]? = if k = j then none else s.orders[j]? := by
  simp only [eraseOrder, Std.ExtTreeMap.getElem?_erase, Std.compare_eq_iff_eq]

theorem getElem?_setOrder_self (s : Server) (k : Int32) (o : Order) :
    (s.setOrder k o).orders[k]? = some o := (getElem?_setOrder s k k o).trans (if_pos rfl)

theorem getElem?_eraseOrder_self (s : Server) (k : Int32) : (s.eraseOrder k).orders[k]? = none :=
  (getElem?_eraseOrder s k k).trans (if_pos rfl)

/-- Only the last order set for an id stays. -/
theorem setOrder_setOrder (s : Server) (k : Int32) (o o' : Order) :
    (s.setOrder k o).setOrder k o' = s.setOrder k o' := by
  have h : ((s.setOrder k o).setOrder k o').orders = (s.setOrder k o').orders := by
    refine Std.ExtTreeMap.ext_getElem? fun j => ?_
    simp only [getElem?_setOrder]
    split <;> rfl
  exact congrArg (fun orders : Orders => { s with orders }) h

theorem eraseOrder_setOrder (s : Server) (k : Int32) (o : Order) :
    (s.setOrder k o).eraseOrder k = s.eraseOrder k := by
  have h : ((s.setOrder k o).eraseOrder k).orders = (s.eraseOrder k).orders := by
    refine Std.ExtTreeMap.ext_getElem? fun j => ?_
    simp only [getElem?_setOrder, getElem?_eraseOrder]
    split <;> rfl
  exact congrArg (fun orders : Orders => { s with orders }) h

/-! ### Running the loops -/

theorem exec_broadcast {msg : Message} (h : msg.Full) (s : Server) :
    exec (broadcast msg) s = (.ok (), s.tell [msg]) := by
  rw [broadcast, exec_bind_ok (exec_get s)]
  by_cases hc : s.displayClients.Nonempty
  · rw [if_pos hc, Message.duplicate_full h]; rfl
  · rw [if_neg hc, exec_pure, tell]
    obtain ⟨orders, clients, next, queue⟩ := s
    obtain rfl := Finset.not_nonempty_iff_eq_empty.mp hc
    rfl

theorem enqueue_enqueue (s : Server) (c : Client) (ms ms' : List Message) :
    (s.enqueue c ms).enqueue c ms' = s.enqueue c (ms ++ ms') := by
  simp [enqueue]

/-- The messages of a snapshot. -/
def snapshot (orders : Orders) : List Message :=
  orders.toList.map fun pair => .ofOrder .dispOrder (some pair.2)

/-- The effect of `register_display`. -/
def register (s : Server) (client : Client) : Server :=
  { s with displayClients := insert client s.displayClients }.enqueue client (snapshot s.orders)

/-- The snapshot goes to the client that registers, and to no other. -/
theorem register_queue_self (s : Server) (c : Client) :
    (s.register c).queue c = s.queue c ++ snapshot s.orders := Function.update_self ..

theorem register_queue_of_ne {c c' : Client} (h : c ≠ c') (s : Server) :
    (s.register c').queue c = s.queue c := Function.update_of_ne h ..

theorem exec_enqueueOrders (c : Client) {pairs : List (Int32 × Order)} (h : ∀ p ∈ pairs, p.2.Full)
    (s : Server) : exec (enqueueOrders c pairs) s
      = (.ok (), s.enqueue c (pairs.map fun pair => .ofOrder .dispOrder (some pair.2))) := by
  induction pairs generalizing s with
  | nil => simp [enqueueOrders, enqueue]
  | cons p pairs ih =>
    rw [enqueueOrders, Order.duplicate, Order.copy_full (h p List.mem_cons_self), lift_ok_bind,
      exec_bind_ok (exec_modify _ s), ih fun q hq => h q (List.mem_cons_of_mem _ hq), enqueue_enqueue]
    rfl

theorem exec_registerDisplay {s : Server} (h : ∀ (k : Int32) (o : Order), s.orders[k]? = some o → o.Full)
    (c : Client) : exec (registerDisplay c) s = (.ok (), s.register c) := by
  rw [registerDisplay, exec_bind_ok (exec_modify _ s), exec_bind_ok (exec_get _),
    exec_enqueueOrders]
  · rfl
  · rintro ⟨k, o⟩ hp
    exact h k o (Std.ExtTreeMap.mem_toList_iff_getElem?_eq_some.mp hp)

theorem setOrderIds_full (id : Int32) (its : List Item) :
    setOrderIds id (its.map some) = .ok ((its.map (·.setOrderId id)).map some) := by
  rw [setOrderIds, Order.mapM_deref fun it : Item => it.setOrderId id, List.map_map]
  rfl

theorem setOrderIds_null (id : Int32) {ps : List (Option Item)} (h : none ∈ ps) :
    setOrderIds id ps = .error .undefined :=
  Order.mapM_deref_null (fun it : Item => it.setOrderId id) h

theorem allDone_full (its : List Item) :
    allDone (its.map some) = .ok (its.all fun it => it.status = .done) := by
  induction its with
  | nil => rfl
  | cons it its ih =>
    rw [List.map_cons, allDone, deref_some, ok_bind, ih]
    by_cases h : it.status = .done <;> simp [h]

end Server

end Restaurant
