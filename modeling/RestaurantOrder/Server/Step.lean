import RestaurantOrder.Server.Server

/-! Runs of the server, and all that one operation can do.

    The clients' threads take turns at the mutex, so a run is a sequence of operations in any order.
    `Took s op out s'` lists the ways an operation changes the state; on a state without null items a
    defined operation takes one of them (`step_took`), and the later invariants are proved from these
    seven cases alone.

        placed        a new order under the next id, told as DISP_ORDER
        itemUpdated   one item a status further, the order with it if that is due
        delivered     a done order leaves
        registered, unregistered, and two ways to be refused -/

namespace Restaurant
open Schemes

/-- The operations of the server. -/
inductive Op where
  | newOrder (order : Order)
  | itemUpdate (orderId itemId : Int32) (itemStatus : ItemStatus)
  | orderUpdate (orderId : Int32) (orderStatus : OrderStatus)
  | registerDisplay (client : Client)
  | unregisterDisplay (client : Client)
  deriving DecidableEq, Repr

/-- What an operation returns or throws; only `process_new_order` returns a number. -/
abbrev Out := Except Exception (Option Int32)

/-- One status further, as `process_item_update` allows it. -/
def ItemStatus.Next (cur st : ItemStatus) : Prop :=
  cur = .new ∧ st = .inProgress ∨ cur = .inProgress ∧ st = .done

theorem ItemStatus.Next.ne {cur st : ItemStatus} (h : cur.Next st) : st ≠ cur := by
  rcases h with ⟨rfl, rfl⟩ | ⟨rfl, rfl⟩ <;> exact nofun

theorem ItemStatus.Next.ne_invalid {cur st : ItemStatus} (h : cur.Next st) : st ≠ .invalid := by
  rcases h with ⟨-, rfl⟩ | ⟨-, rfl⟩ <;> exact nofun

theorem ItemStatus.Next.ne_new {cur st : ItemStatus} (h : cur.Next st) : st ≠ .new := by
  rcases h with ⟨-, rfl⟩ | ⟨-, rfl⟩ <;> exact nofun

theorem ItemStatus.Next.ne_done {cur st : ItemStatus} (h : cur.Next st) : cur ≠ .done := by
  rcases h with ⟨rfl, -⟩ | ⟨rfl, -⟩ <;> exact nofun

namespace Server

def call : Op → CppOn Server (Option Int32)
  | .newOrder order => do return some (← processNewOrder order)
  | .itemUpdate orderId itemId itemStatus => do
    processItemUpdate orderId itemId itemStatus
    return none
  | .orderUpdate orderId orderStatus => do
    processOrderUpdate orderId orderStatus
    return none
  | .registerDisplay client => do
    registerDisplay client
    return none
  | .unregisterDisplay client => do
    unregisterDisplay client
    return none

/-- What a finished call shows; there is nothing to show of one that goes undefined. -/
def observed : Cpp (Option Int32) × Server → Option (Out × Server)
  | (.ok r, s') => some (.ok r, s')
  | (.error (.throws e), s') => some (.error e, s')
  | (.error .undefined, _) => none

/-- The server as a machine over its operations. -/
def machine : Machine Server Op Out where
  init := {}
  step s op := observed (exec (call op) s)

/-- What holds of every state: no item pointer of a stored order is null, an order is stored under its
    own id, and ids are given out from 1000 upwards. -/
structure Good (s : Server) : Prop where
  full : ∀ (k : Int32) (o : Order), s.orders[k]? = some o → o.Full
  id : ∀ (k : Int32) (o : Order), s.orders[k]? = some o → o.id = k
  issued : ∀ (k : Int32) (o : Order), s.orders[k]? = some o →
    1000 ≤ k.toInt ∧ k.toInt < s.nextOrderId.toInt
  next : 1000 ≤ s.nextOrderId.toInt

/-! ### What the operations change -/

/-- The order that `process_new_order` stores. -/
def placedOrder (id : Int32) (its : List Item) : Order :=
  { id, status := .new, items := (its.map (·.setOrderId id)).map some }

/-- The status that an order changes to after one of its items has. -/
def autoTransition (status : OrderStatus) (itemStatus : ItemStatus) (its : List Item) :
    Option OrderStatus :=
  if itemStatus = .inProgress ∧ status = .new then some .inProgress
  else if itemStatus = .done ∧ status = .inProgress ∧ ∀ it ∈ its, it.status = .done then some .done
  else none

/-- The items after an update of the one at position `i`. -/
def updatedItems (its : List Item) (i : ℕ) (st : ItemStatus) : List Item :=
  its.modify i (·.setStatus st)

/-- The order after an update of its item at position `i`. -/
def updatedOrder (o : Order) (its : List Item) (i : ℕ) (st : ItemStatus) : Order :=
  { o with
    status := (autoTransition o.status st (updatedItems its i st)).getD o.status
    items := (updatedItems its i st).map some }

/-- What display clients are told of an item update. -/
def updateMessages (k itemId : Int32) (st : ItemStatus) (u : Option OrderStatus) : List Message :=
  .ofItemStatus .dispItemUpdate k itemId st :: (u.map (.ofOrderStatus .dispOrderUpdate k)).toList

/-- The position of the item that `find_item` finds. -/
def position (itemId : Int32) (its : List Item) : Option ℕ := its.findIdx? fun it => it.id = itemId

inductive Took (s : Server) : Op → Out → Server → Prop
  | placed {o its} (hits : o.items = its.map some) (hmax : s.nextOrderId ≠ Int32.maxValue) :
      Took s (.newOrder o) (.ok (some s.nextOrderId))
        ((({ s with nextOrderId := s.nextOrderId + 1 } : Server).setOrder s.nextOrderId
          (placedOrder s.nextOrderId its)).tell
            [.ofOrder .dispOrder (some (placedOrder s.nextOrderId its))])
  | itemUpdated {k itemId st o its i it} (ho : s.orders[k]? = some o)
      (hits : o.items = its.map some) (hi : position itemId its = some i) (hit : its[i]? = some it)
      (hst : it.status.Next st) :
      Took s (.itemUpdate k itemId st) (.ok none)
        ((s.setOrder k (updatedOrder o its i st)).tell
          (updateMessages k itemId st (autoTransition o.status st (updatedItems its i st))))
  | itemRefused {k itemId st} (what) : Took s (.itemUpdate k itemId st) (.error (.semanticError what)) s
  | delivered {k o} (ho : s.orders[k]? = some o) (hdone : o.status = .done) :
      Took s (.orderUpdate k .delivered) (.ok none)
        ((s.eraseOrder k).tell [.ofOrderStatus .dispOrderUpdate k .delivered])
  | orderRefused {k st} (what) : Took s (.orderUpdate k st) (.error (.semanticError what)) s
  | registered {c} : Took s (.registerDisplay c) (.ok none) (s.register c)
  | unregistered {c} : Took s (.unregisterDisplay c) (.ok none)
      { s with displayClients := s.displayClients.erase c }

/-! ### Items after an update -/

theorem getElem?_updatedItems {its : List Item} {i j : ℕ} {st : ItemStatus} :
    (updatedItems its i st)[j]?
      = if i = j then its[j]?.map (·.setStatus st) else its[j]? := by
  rw [updatedItems, List.getElem?_modify]
  by_cases h : i = j <;> simp [h]

/-- The updated item, with its new status, is among the items. -/
theorem mem_updatedItems {its : List Item} {i : ℕ} {it : Item} (hit : its[i]? = some it)
    (st : ItemStatus) : it.setStatus st ∈ updatedItems its i st := by
  refine List.mem_of_getElem? (i := i) ?_
  rw [getElem?_updatedItems, if_pos rfl, hit]
  rfl

/-- An item after the update is an item from before, or such an item with the new status. -/
theorem of_mem_updatedItems {its : List Item} {i : ℕ} {st : ItemStatus} {it' : Item}
    (h : it' ∈ updatedItems its i st) : ∃ it ∈ its, it' = it ∨ it' = it.setStatus st := by
  obtain ⟨j, hj⟩ := List.mem_iff_getElem?.mp h
  rw [getElem?_updatedItems] at hj
  split at hj
  · obtain ⟨it, hit, rfl⟩ := Option.map_eq_some_iff.mp hj
    exact ⟨it, List.mem_of_getElem? hit, Or.inr rfl⟩
  · exact ⟨it', List.mem_of_getElem? hj, Or.inl rfl⟩

theorem ids_updatedItems (its : List Item) (i : ℕ) (st : ItemStatus) :
    (updatedItems its i st).map Item.id = its.map Item.id := by
  refine List.ext_getElem? fun j => ?_
  rw [List.getElem?_map, List.getElem?_map, getElem?_updatedItems]
  by_cases h : i = j
  · rw [if_pos h, Option.map_map]; rfl
  · rw [if_neg h]

/-- Where `find_item` finds an item depends on the ids only. -/
theorem position_eq (itemId : Int32) (its : List Item) :
    position itemId its = (its.map Item.id).findIdx? (· = itemId) := by
  rw [position, List.findIdx?_map]; rfl

theorem position_updatedItems (itemId : Int32) (its : List Item) (i : ℕ) (st : ItemStatus) :
    position itemId (updatedItems its i st) = position itemId its := by
  rw [position_eq, position_eq, ids_updatedItems]

/-- `find_item` finds an item with the id, and none before it has the id. -/
theorem position_some {itemId : Int32} {its : List Item} {i : ℕ}
    (h : position itemId its = some i) : ∃ it, its[i]? = some it ∧ it.id = itemId := by
  obtain ⟨hi, hid, -⟩ := List.findIdx?_eq_some_iff_getElem.mp h
  exact ⟨its[i], List.getElem?_eq_getElem hi, by simpa using hid⟩

/-! ### New orders -/

theorem exec_processNewOrder {s : Server} {o : Order} {its : List Item}
    (hits : o.items = its.map some) (hmax : s.nextOrderId ≠ Int32.maxValue) :
    exec (processNewOrder o) s = (.ok s.nextOrderId,
      (({ s with nextOrderId := s.nextOrderId + 1 } : Server).setOrder s.nextOrderId
        (placedOrder s.nextOrderId its)).tell
          [.ofOrder .dispOrder (some (placedOrder s.nextOrderId its))]) := by
  have hfull : (Message.ofOrder .dispOrder (some (placedOrder s.nextOrderId its))).Full := by
    intro o' ho'
    obtain rfl := Option.some.inj ho'
    exact ⟨_, rfl⟩
  rw [processNewOrder, exec_bind_ok (exec_get s)]
  simp only [increment, if_neg hmax, lift_ok_bind]
  rw [exec_bind_ok (exec_modify _ s), hits, setOrderIds_full, lift_ok_bind,
    exec_bind_ok (exec_modify _ _)]
  exact exec_bind_ok (exec_broadcast hfull _)

theorem exec_processNewOrder_undefined {s : Server} {o : Order}
    (h : none ∈ o.items ∨ s.nextOrderId = Int32.maxValue) :
    (exec (processNewOrder o) s).1 = .error .undefined := by
  rw [processNewOrder, exec_bind_ok (exec_get s)]
  by_cases hmax : s.nextOrderId = Int32.maxValue
  · simp only [increment, if_pos hmax]; rfl
  · simp only [increment, if_neg hmax, lift_ok_bind]
    rw [exec_bind_ok (exec_modify _ s), setOrderIds_null s.nextOrderId (h.resolve_right hmax)]
    rfl

/-! ### Updates -/

/-- The test of `process_item_update` on the status change. -/
theorem next_iff {cur st : ItemStatus} :
    (cur = .new && st = .inProgress || cur = .inProgress && st = .done) = true ↔ cur.Next st := by
  simp [ItemStatus.Next]

theorem findItem_eq {o : Order} {its : List Item} (hits : o.items = its.map some)
    (itemId : Int32) : o.findItem itemId = .ok (position itemId its) := by
  rw [Order.findItem, hits, Order.findLoop_full]; rfl

theorem setItemStatus_eq {o : Order} {its : List Item} (hits : o.items = its.map some) (i : ℕ)
    (st : ItemStatus) :
    o.setItemStatus i st = { o with items := (updatedItems its i st).map some } := by
  rw [updatedItems, ← Order.setItemStatus_full hits i st]; rfl

/-- Changing the status of an order and telling it. -/
theorem exec_setStatus (s : Server) (k : Int32) (o : Order) (u : OrderStatus) (ms : List Message) :
    exec (do
      modify (·.setOrder k (o.setStatus u))
      broadcast (.ofOrderStatus .dispOrderUpdate k u)) ((s.setOrder k o).tell ms)
    = (.ok (), (s.setOrder k (o.setStatus u)).tell
        (ms ++ [.ofOrderStatus .dispOrderUpdate k u])) := by
  rw [exec_bind_ok (exec_modify _ _), exec_broadcast (Message.full_of_none rfl), setOrder_tell,
    setOrder_setOrder, tell_tell]

theorem exec_processItemUpdate {s : Server} {k itemId : Int32} {st : ItemStatus} {o : Order}
    {its : List Item} {i : ℕ} {it : Item} (ho : s.orders[k]? = some o)
    (hits : o.items = its.map some) (hi : position itemId its = some i) (hit : its[i]? = some it)
    (hst : it.status.Next st) :
    exec (processItemUpdate k itemId st) s = (.ok (),
      (s.setOrder k (updatedOrder o its i st)).tell
        (updateMessages k itemId st (autoTransition o.status st (updatedItems its i st)))) := by
  obtain ⟨hlt, hget⟩ := List.getElem?_eq_some_iff.mp hit
  have hall := allDone_full (updatedItems its i st)
  rw [processItemUpdate, exec_bind_ok (exec_get s), ho]
  simp only [findItem_eq hits, hi, lift_ok_bind, Order.at_full hits hlt, deref_some, hget,
    next_iff.mpr hst, Bool.not_true, Bool.false_eq_true, if_false, setItemStatus_eq hits]
  rw [exec_bind_ok (exec_modify _ s), exec_bind_ok (exec_broadcast (Message.full_of_none rfl) _)]
  rw [updatedOrder, autoTransition, updateMessages]
  by_cases hstart : st = .inProgress ∧ o.status = .new
  · have htest : (st = .inProgress && o.status = .new) = true := by simpa using hstart
    rw [if_pos htest, if_pos hstart]
    exact exec_setStatus s k { o with items := (updatedItems its i st).map some } .inProgress _
  have htest : ¬(st = .inProgress && o.status = .new) = true := by simpa using hstart
  rw [if_neg htest, if_neg hstart]
  by_cases hfinish : st = .done ∧ o.status = .inProgress
  case neg =>
    have htest : ¬(st = .done && o.status = .inProgress) = true := by simpa using hfinish
    rw [if_neg htest, if_neg fun h => hfinish ⟨h.1, h.2.1⟩]
    rfl
  have htest : (st = .done && o.status = .inProgress) = true := by simpa using hfinish
  rw [if_pos htest, hall, lift_ok_bind]
  by_cases hdone : ∀ it ∈ updatedItems its i st, it.status = .done
  · have htest : ((updatedItems its i st).all fun it => it.status = .done) = true := by
      simpa using hdone
    rw [if_pos htest, if_pos ⟨hfinish.1, hfinish.2, hdone⟩]
    exact exec_setStatus s k { o with items := (updatedItems its i st).map some } .done _
  · have htest : ¬((updatedItems its i st).all fun it => it.status = .done) = true := by
      simpa using hdone
    rw [if_neg htest, if_neg fun h => hdone h.2.2]
    rfl

/-- The texts of the SemanticErrors. -/
def refusals : List String :=
  ["order not found", "item not found", "invalid item status transition",
    "invalid order status transition"]

theorem exec_processItemUpdate_noOrder {s : Server} {k : Int32} (itemId : Int32) (st : ItemStatus)
    (ho : s.orders[k]? = none) :
    exec (processItemUpdate k itemId st) s = (semanticError "order not found", s) := by
  rw [processItemUpdate, exec_bind_ok (exec_get s), ho]
  rfl

theorem exec_processItemUpdate_noItem {s : Server} {k itemId : Int32} (st : ItemStatus) {o : Order}
    {its : List Item} (ho : s.orders[k]? = some o) (hits : o.items = its.map some)
    (hi : position itemId its = none) :
    exec (processItemUpdate k itemId st) s = (semanticError "item not found", s) := by
  rw [processItemUpdate, exec_bind_ok (exec_get s), ho]
  simp only [findItem_eq hits, lift_ok_bind, hi]
  rfl

theorem exec_processItemUpdate_notNext {s : Server} {k itemId : Int32} {st : ItemStatus} {o : Order}
    {its : List Item} {i : ℕ} {it : Item} (ho : s.orders[k]? = some o)
    (hits : o.items = its.map some) (hi : position itemId its = some i) (hit : its[i]? = some it)
    (hst : ¬it.status.Next st) :
    exec (processItemUpdate k itemId st) s
      = (semanticError "invalid item status transition", s) := by
  obtain ⟨hlt, hget⟩ := List.getElem?_eq_some_iff.mp hit
  rw [← next_iff, Bool.not_eq_true] at hst
  rw [processItemUpdate, exec_bind_ok (exec_get s), ho]
  simp only [findItem_eq hits, hi, lift_ok_bind, Order.at_full hits hlt, deref_some, hget, hst]
  rw [Bool.not_false, if_pos rfl]
  rfl

/-- An item update is refused unless it moves an item of a stored order one status further. -/
theorem exec_processItemUpdate_refused {s : Server} (hs : s.Good) {k itemId : Int32}
    {st : ItemStatus}
    (h : ¬∃ o its i it, s.orders[k]? = some o ∧ o.items = its.map some ∧
      position itemId its = some i ∧ its[i]? = some it ∧ it.status.Next st) :
    ∃ what ∈ refusals, exec (processItemUpdate k itemId st) s = (semanticError what, s) := by
  cases ho : s.orders[k]? with
  | none => exact ⟨_, by simp [refusals], exec_processItemUpdate_noOrder itemId st ho⟩
  | some o =>
    obtain ⟨its, hits⟩ := hs.full k o ho
    cases hi : position itemId its with
    | none => exact ⟨_, by simp [refusals], exec_processItemUpdate_noItem st ho hits hi⟩
    | some i =>
      obtain ⟨it, hit, -⟩ := position_some hi
      have hst : ¬it.status.Next st := fun hn => h ⟨o, its, i, it, ho, hits, hi, hit, hn⟩
      exact ⟨_, by simp [refusals], exec_processItemUpdate_notNext ho hits hi hit hst⟩

theorem exec_processOrderUpdate {s : Server} {k : Int32} {o : Order}
    (ho : s.orders[k]? = some o) (hdone : o.status = .done) :
    exec (processOrderUpdate k .delivered) s
      = (.ok (), (s.eraseOrder k).tell [.ofOrderStatus .dispOrderUpdate k .delivered]) := by
  rw [processOrderUpdate, exec_bind_ok (exec_get s), ho]
  simp only [hdone, ne_eq, not_true_eq_false, decide_false, Bool.or_self, Bool.false_eq_true,
    if_false]
  rw [exec_bind_ok (exec_modify _ s), exec_bind_ok (exec_broadcast (Message.full_of_none rfl) _), exec_modify,
    eraseOrder_tell, eraseOrder_setOrder]

theorem exec_processOrderUpdate_noOrder {s : Server} {k : Int32} (st : OrderStatus)
    (ho : s.orders[k]? = none) :
    exec (processOrderUpdate k st) s = (semanticError "order not found", s) := by
  rw [processOrderUpdate, exec_bind_ok (exec_get s), ho]
  rfl

theorem exec_processOrderUpdate_notDue {s : Server} {k : Int32} {st : OrderStatus} {o : Order}
    (ho : s.orders[k]? = some o) (h : ¬(o.status = .done ∧ st = .delivered)) :
    exec (processOrderUpdate k st) s
      = (semanticError "invalid order status transition", s) := by
  have htest : (o.status ≠ .done || st ≠ .delivered) = true := by
    rw [Bool.or_eq_true, decide_eq_true_eq, decide_eq_true_eq, ← not_and_or]
    exact h
  rw [processOrderUpdate, exec_bind_ok (exec_get s), ho]
  simp only [htest, if_true]
  rfl

/-- An order update is refused unless it delivers a done order. -/
theorem exec_processOrderUpdate_refused {s : Server} {k : Int32} {st : OrderStatus}
    (h : ¬∃ o, s.orders[k]? = some o ∧ o.status = .done ∧ st = .delivered) :
    ∃ what ∈ refusals, exec (processOrderUpdate k st) s = (semanticError what, s) := by
  cases ho : s.orders[k]? with
  | none => exact ⟨_, by simp [refusals], exec_processOrderUpdate_noOrder st ho⟩
  | some o =>
    have hdue : ¬(o.status = .done ∧ st = .delivered) := fun hn => h ⟨o, ho, hn⟩
    exact ⟨_, by simp [refusals], exec_processOrderUpdate_notDue ho hdue⟩

/-! ### The seven cases -/

theorem step_eq (s : Server) (op : Op) : machine.step s op = observed (exec (call op) s) := rfl

theorem step_newOrder {s : Server} {o : Order} {its : List Item} (hits : o.items = its.map some)
    (hmax : s.nextOrderId ≠ Int32.maxValue) : ∃ out s', machine.step s (.newOrder o) = some (out, s')
      ∧ Took s (.newOrder o) out s' := by
  refine ⟨_, _, ?_, .placed hits hmax⟩
  rw [step_eq, call, exec_bind_ok (exec_processNewOrder hits hmax)]
  rfl

theorem step_newOrder_undefined {s : Server} {o : Order}
    (h : none ∈ o.items ∨ s.nextOrderId = Int32.maxValue) :
    machine.step s (.newOrder o) = none := by
  have hu := exec_processNewOrder_undefined h
  rcases hrun : exec (processNewOrder o) s with ⟨r, s'⟩
  rw [hrun] at hu
  obtain rfl : r = .error .undefined := hu
  rw [step_eq, call, exec_bind_error hrun]
  rfl

theorem step_itemUpdated {s : Server} {k itemId : Int32} {st : ItemStatus} {o : Order}
    {its : List Item} {i : ℕ} {it : Item} (ho : s.orders[k]? = some o)
    (hits : o.items = its.map some) (hi : position itemId its = some i) (hit : its[i]? = some it)
    (hst : it.status.Next st) :
    machine.step s (.itemUpdate k itemId st) = some (.ok none,
      (s.setOrder k (updatedOrder o its i st)).tell
        (updateMessages k itemId st (autoTransition o.status st (updatedItems its i st)))) := by
  rw [step_eq, call, exec_bind_ok (exec_processItemUpdate ho hits hi hit hst)]
  rfl

theorem step_delivered {s : Server} {k : Int32} {o : Order} (ho : s.orders[k]? = some o)
    (hdone : o.status = .done) : machine.step s (.orderUpdate k .delivered) = some (.ok none,
      (s.eraseOrder k).tell [.ofOrderStatus .dispOrderUpdate k .delivered]) := by
  rw [step_eq, call, exec_bind_ok (exec_processOrderUpdate ho hdone)]
  rfl

theorem step_itemUpdate {s : Server} (hs : s.Good) (k itemId : Int32) (st : ItemStatus) :
    ∃ out s', machine.step s (.itemUpdate k itemId st) = some (out, s') ∧
      Took s (.itemUpdate k itemId st) out s' := by
  by_cases h : ∃ o its i it, s.orders[k]? = some o ∧ o.items = its.map some ∧
      position itemId its = some i ∧ its[i]? = some it ∧ it.status.Next st
  · obtain ⟨o, its, i, it, ho, hits, hi, hit, hst⟩ := h
    exact ⟨_, _, step_itemUpdated ho hits hi hit hst, .itemUpdated ho hits hi hit hst⟩
  · obtain ⟨what, -, hw⟩ := exec_processItemUpdate_refused hs h
    refine ⟨_, _, ?_, .itemRefused (ascii what)⟩
    rw [step_eq, call, exec_bind_error hw]
    rfl

theorem step_orderUpdate (s : Server) (k : Int32) (st : OrderStatus) :
    ∃ out s', machine.step s (.orderUpdate k st) = some (out, s') ∧
      Took s (.orderUpdate k st) out s' := by
  by_cases h : ∃ o, s.orders[k]? = some o ∧ o.status = .done ∧ st = .delivered
  · obtain ⟨o, ho, hdone, rfl⟩ := h
    exact ⟨_, _, step_delivered ho hdone, .delivered ho hdone⟩
  · obtain ⟨what, -, hw⟩ := exec_processOrderUpdate_refused h
    refine ⟨_, _, ?_, .orderRefused (ascii what)⟩
    rw [step_eq, call, exec_bind_error hw]
    rfl

theorem step_registerDisplay {s : Server} (hs : s.Good) (c : Client) :
    machine.step s (.registerDisplay c) = some (.ok none, s.register c) := by
  rw [step_eq, call, exec_bind_ok (exec_registerDisplay hs.full c)]
  rfl

/-- On a state without null items every operation that is defined takes one of the seven cases, and
    only a new order can be undefined. -/
theorem step_defined {s : Server} (hs : s.Good) (op : Op) :
    (∃ out s', machine.step s op = some (out, s') ∧ Took s op out s') ∨
      ∃ o, op = .newOrder o ∧ (¬o.Full ∨ s.nextOrderId = Int32.maxValue) ∧
        machine.step s op = none := by
  cases op with
  | newOrder o =>
    by_cases hmax : s.nextOrderId = Int32.maxValue
    case pos => exact Or.inr ⟨o, rfl, Or.inr hmax, step_newOrder_undefined (Or.inr hmax)⟩
    rcases Order.full_or_null o.items with ⟨its, hits⟩ | hnull
    · exact Or.inl (step_newOrder hits hmax)
    · have hfull : ¬o.Full := fun hf => Order.full_iff.mp hf hnull
      exact Or.inr ⟨o, rfl, Or.inl hfull, step_newOrder_undefined (Or.inl hnull)⟩
  | itemUpdate k itemId st => exact Or.inl (step_itemUpdate hs k itemId st)
  | orderUpdate k st => exact Or.inl (step_orderUpdate s k st)
  | registerDisplay c => exact Or.inl ⟨_, _, step_registerDisplay hs c, .registered⟩
  | unregisterDisplay c => exact Or.inl ⟨_, _, rfl, .unregistered⟩

theorem step_took {s s' : Server} {op : Op} {out : Out} (hs : s.Good)
    (h : machine.step s op = some (out, s')) : Took s op out s' := by
  rcases step_defined hs op with ⟨out', s'', h', htook⟩ | ⟨_, _, _, h'⟩
  · rw [h] at h'
    obtain ⟨rfl, rfl⟩ := Prod.mk.inj (Option.some.inj h')
    exact htook
  · rw [h] at h'; cases h'

/-- An operation throws a SemanticError with one of the four texts, and leaves the state alone. -/
theorem step_throws {s s' : Server} {op : Op} {e : Exception} (hs : s.Good)
    (h : machine.step s op = some (.error e, s')) :
    s' = s ∧ ∃ what ∈ refusals, e = .semanticError (ascii what) := by
  have refused : ∀ {x : Cpp (Option Int32) × Server} {what : String}, what ∈ refusals →
      exec (call op) s = x → x = (semanticError what, s) →
      s' = s ∧ ∃ what ∈ refusals, e = .semanticError (ascii what) := by
    rintro _ what hwhat hx rfl
    rw [step_eq, hx] at h
    obtain ⟨he, rfl⟩ := Prod.mk.inj (Option.some.inj h)
    exact ⟨rfl, what, hwhat, (Except.error.inj he).symm⟩
  rcases hop : op with o | ⟨k, itemId, st⟩ | ⟨k, st⟩ | c | c <;> subst hop
  · cases step_took hs h
  · by_cases hup : ∃ o its i it, s.orders[k]? = some o ∧ o.items = its.map some ∧
      position itemId its = some i ∧ its[i]? = some it ∧ it.status.Next st
    · obtain ⟨o, its, i, it, ho, hits, hi, hit, hst⟩ := hup
      cases h.symm.trans (step_itemUpdated ho hits hi hit hst)
    · obtain ⟨what, hwhat, hw⟩ := exec_processItemUpdate_refused hs hup
      exact refused hwhat (exec_bind_error hw) rfl
  · by_cases hup : ∃ o, s.orders[k]? = some o ∧ o.status = .done ∧ st = .delivered
    · obtain ⟨o, ho, hdone, rfl⟩ := hup
      cases h.symm.trans (step_delivered ho hdone)
    · obtain ⟨what, hwhat, hw⟩ := exec_processOrderUpdate_refused hup
      exact refused hwhat (exec_bind_error hw) rfl
  · cases step_took hs h
  · cases step_took hs h

/-- An id below the greatest `int` has a successor. -/
theorem toInt_succ {n : Int32} (h : n ≠ Int32.maxValue) : (n + 1).toInt = n.toInt + 1 := by
  have hlt : n.toInt ≠ Int32.maxValue.toInt := fun he => h (Int32.toInt_inj.mp he)
  have hmax : Int32.maxValue.toInt = 2 ^ 31 - 1 := by decide
  have hle := n.toInt_lt
  have hge := n.le_toInt
  rw [Int32.toInt_add, show (1 : Int32).toInt = 1 from rfl]
  exact Int.bmod_eq_of_le (by omega) (by omega)

/-- The orders after an operation: one placed or updated, and others that were there before. -/
theorem Took.orders {s s' : Server} {op : Op} {out : Out} (h : Took s op out s') {j : Int32}
    {o' : Order} (hj : s'.orders[j]? = some o') :
    s.orders[j]? = some o' ∨
      (∃ o its, op = .newOrder o ∧ o.items = its.map some ∧ j = s.nextOrderId ∧
        s.nextOrderId ≠ Int32.maxValue ∧ o' = placedOrder j its) ∨
      ∃ itemId st o its i it, op = .itemUpdate j itemId st ∧ s.orders[j]? = some o ∧
        o.items = its.map some ∧ position itemId its = some i ∧ its[i]? = some it ∧
        it.status.Next st ∧ o' = updatedOrder o its i st := by
  cases h with
  | @placed o its hits hmax =>
    rw [tell_orders, getElem?_setOrder] at hj
    split at hj
    · next hk =>
      obtain rfl := Option.some.inj hj
      exact Or.inr (Or.inl ⟨o, its, rfl, hits, hk.symm, hmax, by rw [hk]⟩)
    · exact Or.inl hj
  | @itemUpdated k itemId st o its i it ho hits hi hit hst =>
    rw [tell_orders, getElem?_setOrder] at hj
    split at hj
    · next hk =>
      subst hk
      obtain rfl := Option.some.inj hj
      exact Or.inr (Or.inr ⟨itemId, st, o, its, i, it, rfl, ho, hits, hi, hit, hst, rfl⟩)
    · exact Or.inl hj
  | delivered ho hdone =>
    rw [tell_orders, getElem?_eraseOrder] at hj
    split at hj
    · cases hj
    · exact Or.inl hj
  | itemRefused => exact Or.inl hj
  | orderRefused => exact Or.inl hj
  | registered => exact Or.inl hj
  | unregistered => exact Or.inl hj

/-- Ids only go up. -/
theorem Took.next {s s' : Server} {op : Op} {out : Out} (h : Took s op out s') :
    s'.nextOrderId.toInt = s.nextOrderId.toInt ∨
      (∃ o, op = .newOrder o) ∧ s'.nextOrderId.toInt = s.nextOrderId.toInt + 1 := by
  cases h with
  | @placed o its hits hmax => exact Or.inr ⟨⟨o, rfl⟩, toInt_succ hmax⟩
  | _ => exact Or.inl rfl

/-- Who is told of changes after an operation. -/
theorem Took.displays {s s' : Server} {op : Op} {out : Out} (h : Took s op out s') (c : Client) :
    c ∈ s'.displayClients ↔
      op = .registerDisplay c ∨ c ∈ s.displayClients ∧ op ≠ .unregisterDisplay c := by
  cases h with
  | @registered c' =>
    show c ∈ insert c' s.displayClients ↔ _
    rw [Finset.mem_insert, eq_comm]
    simp
  | @unregistered c' =>
    rw [Finset.mem_erase, and_comm, ne_comm]
    simp
  | placed => simp [tell]
  | itemUpdated => simp [tell]
  | delivered => simp [tell]
  | itemRefused => simp
  | orderRefused => simp

theorem Took.good {s s' : Server} {op : Op} {out : Out} (h : Took s op out s') (hs : s.Good) :
    s'.Good := by
  have hnext : s.nextOrderId.toInt ≤ s'.nextOrderId.toInt := by
    rcases h.next with h | ⟨-, h⟩ <;> omega
  refine ⟨fun j o' hj => ?_, fun j o' hj => ?_, fun j o' hj => ?_, hs.next.trans hnext⟩
  · rcases h.orders hj with hj | ⟨_, its, -, -, -, -, rfl⟩ | ⟨_, _, _, _, _, _, -, -, -, -, -, -, rfl⟩
    · exact hs.full j o' hj
    · exact ⟨_, rfl⟩
    · exact ⟨_, rfl⟩
  · rcases h.orders hj with hj | ⟨_, its, -, -, -, -, rfl⟩ | ⟨_, _, o, _, _, _, -, ho, -, -, -, -, rfl⟩
    · exact hs.id j o' hj
    · rfl
    · exact hs.id j o ho
  · rcases h.orders hj with hj | ⟨o, its, rfl, -, rfl, hmax, -⟩ | ⟨_, _, o, _, _, _, -, ho, -⟩
    · have := hs.issued j o' hj; omega
    · cases h with
      | placed hits hmax =>
        have := hs.next
        have := toInt_succ hmax
        simp only [tell_nextOrderId, setOrder_nextOrderId]
        omega
    · have := hs.issued j o ho; omega

theorem mem_tell {s : Server} {ms : List Message} {c : Client} {m : Message}
    (h : m ∈ (s.tell ms).queue c) : m ∈ s.queue c ∨ m ∈ ms := by
  simp only [tell] at h
  split at h
  · exact List.mem_append.mp h
  · exact Or.inl h

/-- What an operation puts in a queue carries no order, or it is the DISP_ORDER of a stored order. -/
theorem Took.queue {s s' : Server} {op : Op} {out : Out} (h : Took s op out s') {c : Client}
    {m : Message} (hm : m ∈ s'.queue c) :
    m ∈ s.queue c ∨ m.order = none ∨
      ∃ (k : Int32) (o : Order), s'.orders[k]? = some o ∧ m = .ofOrder .dispOrder (some o) := by
  cases h with
  | @placed o its hits hmax =>
    refine (mem_tell hm).imp_right fun hm => Or.inr ⟨s.nextOrderId, _, ?_, List.mem_singleton.mp hm⟩
    rw [tell_orders, getElem?_setOrder_self]
  | @itemUpdated k itemId st o its i it ho hits hi hit hst =>
    refine (mem_tell hm).imp_right fun hm => Or.inl ?_
    rcases List.mem_cons.mp hm with rfl | hm
    · rfl
    · obtain ⟨u, -, rfl⟩ := Option.map_eq_some_iff.mp (Option.mem_toList.mp hm)
      rfl
  | delivered ho hdone =>
    refine (mem_tell hm).imp_right fun hm => Or.inl ?_
    rw [List.mem_singleton.mp hm]
    rfl
  | itemRefused => exact Or.inl hm
  | orderRefused => exact Or.inl hm
  | @registered c' =>
    by_cases hc : c = c'
    · subst hc
      rw [register_queue_self, List.mem_append] at hm
      refine hm.imp_right fun hm => Or.inr ?_
      obtain ⟨⟨k, o⟩, hp, rfl⟩ := List.mem_map.mp hm
      exact ⟨k, o, Std.ExtTreeMap.mem_toList_iff_getElem?_eq_some.mp hp, rfl⟩
    · rw [register_queue_of_ne hc] at hm
      exact Or.inl hm
  | unregistered => exact Or.inl hm

/-! ### Invariants of runs -/

theorem good_init : Good machine.init where
  full k o h := by simp [machine] at h
  id k o h := by simp [machine] at h
  issued k o h := by simp [machine] at h
  next := by decide

/-- INVARIANTS: what holds at the start and is preserved by each of the seven cases, on operations
    that satisfy `A`, holds after every run of such operations. -/
theorem runFrom_inv {A : Op → Prop} {P : List Op → List Out → Server → Prop} {s₀ : Server}
    (hs₀ : s₀.Good) (h0 : P [] [] s₀)
    (hstep : ∀ {ops outs s op out s'}, P ops outs s → s.Good → A op → Took s op out s' →
      P (ops ++ [op]) (outs ++ [out]) s')
    {ops : List Op} {outs : List Out} {s : Server} (hA : ∀ op ∈ ops, A op)
    (h : machine.runFrom s₀ ops = some (outs, s)) : s.Good ∧ P ops outs s := by
  refine Machine.runFrom_induct (P := fun ops outs s => (∀ op ∈ ops, A op) → s.Good ∧ P ops outs s)
    (fun _ => ⟨hs₀, h0⟩) ?_ h hA
  intro ops outs s op out s' _ ih hs hA'
  obtain ⟨hgood, hP⟩ := ih fun o ho => hA' o (List.mem_append_left _ ho)
  have htook := step_took hgood hs
  exact ⟨htook.good hgood, hstep hP hgood (hA' op (by simp)) htook⟩

theorem run_inv {A : Op → Prop} {P : List Op → List Out → Server → Prop}
    (h0 : P [] [] machine.init)
    (hstep : ∀ {ops outs s op out s'}, P ops outs s → s.Good → A op → Took s op out s' →
      P (ops ++ [op]) (outs ++ [out]) s')
    {ops : List Op} {outs : List Out} {s : Server} (hA : ∀ op ∈ ops, A op)
    (h : machine.run ops = some (outs, s)) : s.Good ∧ P ops outs s :=
  runFrom_inv good_init h0 hstep hA h

/-- ORDERS: what holds of every order as it is placed, and is preserved by each update of one of its
    items, holds of all stored orders. The orders placed satisfy `Q`. -/
theorem runFrom_orders {Q : Order → Prop} {R : Int32 → Order → Prop} {s₀ : Server} (hs₀ : s₀.Good)
    (h0 : ∀ (k : Int32) (o : Order), s₀.orders[k]? = some o → R k o)
    (hplaced : ∀ o its (id : Int32), Q o → o.items = its.map some → 1000 ≤ id.toInt →
      R id (placedOrder id its))
    (hupdated : ∀ k o its itemId i it st, R k o → o.items = its.map some →
      position itemId its = some i → its[i]? = some it → it.status.Next st →
      R k (updatedOrder o its i st))
    {ops : List Op} {outs : List Out} {s : Server} (hQ : ∀ o, .newOrder o ∈ ops → Q o)
    (h : machine.runFrom s₀ ops = some (outs, s)) :
    s.Good ∧ ∀ (k : Int32) (o : Order), s.orders[k]? = some o → R k o := by
  refine runFrom_inv (A := fun op => ∀ o, op = .newOrder o → Q o)
    (P := fun _ _ s => ∀ (k : Int32) (o : Order), s.orders[k]? = some o → R k o) hs₀ h0 ?_ ?_ h
  · intro ops outs s op out s' hR hs hop htook j o' hj
    rcases htook.orders hj with hj | ⟨o, its, rfl, hits, rfl, -, rfl⟩ |
      ⟨itemId, st, o, its, i, it, -, ho, hits, hi, hit, hst, rfl⟩
    · exact hR j o' hj
    · exact hplaced o its _ (hop o rfl) hits hs.next
    · exact hupdated j o its itemId i it st (hR j o ho) hits hi hit hst
  · rintro _ hop o rfl
    exact hQ o hop

theorem run_orders {Q : Order → Prop} {R : Int32 → Order → Prop}
    (hplaced : ∀ o its (id : Int32), Q o → o.items = its.map some → 1000 ≤ id.toInt →
      R id (placedOrder id its))
    (hupdated : ∀ k o its itemId i it st, R k o → o.items = its.map some →
      position itemId its = some i → its[i]? = some it → it.status.Next st →
      R k (updatedOrder o its i st))
    {ops : List Op} {outs : List Out} {s : Server} (hQ : ∀ o, .newOrder o ∈ ops → Q o)
    (h : machine.run ops = some (outs, s)) :
    s.Good ∧ ∀ (k : Int32) (o : Order), s.orders[k]? = some o → R k o :=
  runFrom_orders good_init (fun k o h => by simp [machine] at h) hplaced hupdated hQ h

theorem run_good {ops : List Op} {outs : List Out} {s : Server}
    (h : machine.run ops = some (outs, s)) : s.Good :=
  (run_inv (A := fun _ => True) (P := fun _ _ _ => True) trivial (fun _ _ _ _ => trivial)
    (fun _ _ => trivial) h).1

/-- A client that has not registered has been sent nothing. -/
theorem unseen_run {pre : List Op} {c : Client} (hpre : .registerDisplay c ∉ pre) {outs : List Out}
    {s : Server} (h : machine.run pre = some (outs, s)) :
    c ∉ s.displayClients ∧ s.queue c = [] := by
  refine (run_inv (A := (· ≠ .registerDisplay c))
    (P := fun _ _ s => c ∉ s.displayClients ∧ s.queue c = []) ⟨by simp [machine], rfl⟩ ?_
    (fun op hop he => hpre (he ▸ hop)) h).2
  rintro ops outs s op out s' ⟨hc, hq⟩ _ hop htook
  cases htook with
  | placed => exact ⟨hc, (tell_queue_of_not_mem hc _).trans hq⟩
  | itemUpdated => exact ⟨hc, (tell_queue_of_not_mem hc _).trans hq⟩
  | delivered => exact ⟨hc, (tell_queue_of_not_mem hc _).trans hq⟩
  | itemRefused => exact ⟨hc, hq⟩
  | orderRefused => exact ⟨hc, hq⟩
  | @registered c' =>
    have hne : c ≠ c' := fun he => hop (by rw [he])
    refine ⟨fun hm => ?_, (register_queue_of_ne hne s).trans hq⟩
    rcases Finset.mem_insert.mp hm with he | hm
    · exact hne he
    · exact hc hm
  | unregistered => exact ⟨fun hm => hc (Finset.mem_of_mem_erase hm), hq⟩

/-- A run in which a client registers for the first time: its queue then is the snapshot. -/
theorem registered_run {pre post : List Op} {c : Client} (hpre : .registerDisplay c ∉ pre)
    {outs : List Out} {s : Server} (h : machine.run (pre ++ .registerDisplay c :: post) = some (outs, s)) :
    ∃ outs₁ s₁ outs₂, machine.run pre = some (outs₁, s₁) ∧ s₁.Good ∧
      (s₁.register c).Good ∧ (s₁.register c).queue c = snapshot s₁.orders ∧
      machine.runFrom (s₁.register c) post = some (outs₂, s) := by
  obtain ⟨outs₁, s₁, outs₂, hrun₁, hrest, -⟩ := Machine.run_append h
  obtain ⟨out, s₂, outs₃, hreg, hrun₂, -⟩ := Machine.runFrom_cons.mp hrest
  have hgood := run_good hrun₁
  obtain ⟨-, hempty⟩ := unseen_run hpre hrun₁
  have hgood₂ := (step_took hgood hreg).good hgood
  rw [step_registerDisplay hgood] at hreg
  obtain ⟨-, rfl⟩ := Prod.mk.inj (Option.some.inj hreg)
  refine ⟨outs₁, s₁, outs₃, hrun₁, hgood, hgood₂, ?_, hrun₂⟩
  rw [register_queue_self, hempty, List.nil_append]

end Server

end Restaurant
