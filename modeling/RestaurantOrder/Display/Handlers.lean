import RestaurantOrder.Server.Server
import RestaurantOrder.Wire.RoundTrip

/-! The display program: display_main.cpp.

    The main loop keeps a map of the orders and changes it as the server's messages tell. A message
    reaches it through `Wire::encode` and `Wire::decode`; a display that has been sent a stream of
    messages holds what `display` computes. -/

namespace Restaurant.Display
open Schemes

/-- `throw ProtocolError(what)`. -/
def protocolError {α : Type} (what : String) : Cpp α := raise (.protocolError (ascii what))

def handleDispOrder (msg : Message) (orders : Orders) : Cpp Orders :=
  match msg.order with
  | none => protocolError "missing order in DISP_ORDER"
  | some order => return orders.insert order.id (← order.duplicate)

def handleDispItemUpdate (msg : Message) (orders : Orders) : Cpp Orders := do
  if !msg.hasOrderId || !msg.hasItemId || !msg.hasItemStatus then
    protocolError "missing fields in DISP_ITEM_UPDATE"
  match orders[msg.orderId]? with
  | none => protocolError "unknown order id in DISP_ITEM_UPDATE"
  | some order =>
    match ← order.findItem msg.itemId with
    | none => protocolError "unknown item id in DISP_ITEM_UPDATE"
    | some i => return orders.insert msg.orderId (order.setItemStatus i msg.itemStatus)

def handleDispOrderUpdate (msg : Message) (orders : Orders) : Cpp Orders := do
  if !msg.hasOrderId || !msg.hasOrderStatus then
    protocolError "missing fields in DISP_ORDER_UPDATE"
  match orders[msg.orderId]? with
  | none => protocolError "unknown order id in DISP_ORDER_UPDATE"
  | some order =>
    if msg.orderStatus = .delivered then return orders.erase msg.orderId
    return orders.insert msg.orderId (order.setStatus msg.orderStatus)

/-- One turn of the main loop, with the message received. -/
def handle (orders : Orders) (msg : Message) : Cpp Orders :=
  match msg.type with
  | .dispOrder => handleDispOrder msg orders
  | .dispItemUpdate => handleDispItemUpdate msg orders
  | .dispOrderUpdate => handleDispOrderUpdate msg orders
  | .dispHeartbeat => .ok orders
  | _ => protocolError "unexpected message type in display loop"

/-- A message on its way: encoded by the server and decoded by the display program. -/
def relay (msg : Message) : Cpp Message := do
  let encoded ← runOn [] (Wire.encode msg)
  runOn {} (Wire.decode encoded)

/-- One turn of the main loop, with the message sent. -/
def turn (orders : Orders) (msg : Message) : Cpp Orders := do handle orders (← relay msg)

/-- What the display holds after a stream of messages. -/
def display (stream : List Message) : Cpp Orders := stream.foldlM turn ∅

/-! ### Messages on their way -/

theorem relay_sendable {msg : Message} (h : Wire.Sendable msg) : relay msg = .ok msg := by
  rw [relay, runOn_ok (Wire.exec_encode h.text.1 []), ok_bind,
    runOn_ok (Wire.decode_messageStr h {})]

theorem turn_sendable {msg : Message} (h : Wire.Sendable msg) (orders : Orders) :
    turn orders msg = handle orders msg := by
  rw [turn, relay_sendable h]; rfl

theorem turn_heartbeat (orders : Orders) : turn orders (.ofType .dispHeartbeat) = .ok orders :=
  turn_sendable .heartbeat orders

/-! ### Handling -/

theorem handle_dispOrder {orders : Orders} {order : Order} (h : order.Full) :
    handle orders (.ofOrder .dispOrder (some order)) = .ok (orders.insert order.id order) := by
  show handleDispOrder (.ofOrder .dispOrder (some order)) orders = _
  simp only [handleDispOrder, Message.ofOrder, Order.duplicate, Order.copy_full h]
  rfl

theorem handle_dispItemUpdate {orders : Orders} {k itemId : Int32} {st : ItemStatus} {order : Order}
    {i : ℕ} (hk : 0 < k) (hid : 0 < itemId) (hst : st ≠ .invalid) (ho : orders[k]? = some order)
    (hi : order.findItem itemId = .ok (some i)) :
    handle orders (.ofItemStatus .dispItemUpdate k itemId st)
      = .ok (orders.insert k (order.setItemStatus i st)) := by
  show handleDispItemUpdate _ _ = _
  have hfields : (Message.ofItemStatus .dispItemUpdate k itemId st).hasOrderId = true ∧
      (Message.ofItemStatus .dispItemUpdate k itemId st).hasItemId = true ∧
      (Message.ofItemStatus .dispItemUpdate k itemId st).hasItemStatus = true :=
    ⟨decide_eq_true (Wire.zero_le_of_pos hk), decide_eq_true (Wire.zero_le_of_pos hid),
      decide_eq_true hst⟩
  rw [handleDispItemUpdate, hfields.1, hfields.2.1, hfields.2.2]
  simp [Message.ofItemStatus, ho, hi]

theorem handle_dispOrderUpdate {orders : Orders} {k : Int32} {u : OrderStatus} {order : Order}
    (hk : 0 < k) (hu : u ≠ .invalid) (ho : orders[k]? = some order) :
    handle orders (.ofOrderStatus .dispOrderUpdate k u)
      = .ok (if u = .delivered then orders.erase k else orders.insert k (order.setStatus u)) := by
  show handleDispOrderUpdate _ _ = _
  have hfields : (Message.ofOrderStatus .dispOrderUpdate k u).hasOrderId = true ∧
      (Message.ofOrderStatus .dispOrderUpdate k u).hasOrderStatus = true :=
    ⟨decide_eq_true (Wire.zero_le_of_pos hk), decide_eq_true hu⟩
  rw [handleDispOrderUpdate, hfields.1, hfields.2]
  by_cases hd : u = .delivered <;> simp [Message.ofOrderStatus, ho, hd]

end Restaurant.Display
