import RestaurantOrder.Model.Order

/-! The messages of message.h and message.cpp.

    One class holds the fields of all message types; a constructor sets the fields of its type and
    leaves the others at the values of `Message()`. Assignment copies an order deeply, so it is
    undefined on an order with a null item and the identity on every other message
    (`assign_full`). -/

namespace Restaurant
open Schemes

inductive MessageType where
  | invalid
  | login | quit | orderNew | itemUpdate | orderUpdate
  | ok | error
  | dispOrder | dispItemUpdate | dispOrderUpdate | dispHeartbeat
  deriving DecidableEq, Repr

/-- A message; the default values are those of `Message()`. -/
structure Message where
  type : MessageType := .invalid
  clientMode : ClientMode := .invalid
  str : Bytes := []
  order : Option Order := none
  orderId : Int32 := -1
  orderStatus : OrderStatus := .invalid
  itemId : Int32 := -1
  itemStatus : ItemStatus := .invalid
  deriving DecidableEq, Repr

namespace Message

/-! ### Constructors -/

def ofType (type : MessageType) : Message := { type }

def ofStr (type : MessageType) (str : Bytes) : Message := { type, str }

def ofLogin (type : MessageType) (clientMode : ClientMode) (str : Bytes) : Message :=
  { type, clientMode, str }

def ofOrder (type : MessageType) (order : Option Order) : Message := { type, order }

def ofOrderStatus (type : MessageType) (orderId : Int32) (orderStatus : OrderStatus) : Message :=
  { type, orderId, orderStatus }

def ofItemStatus (type : MessageType) (orderId itemId : Int32) (itemStatus : ItemStatus) :
    Message :=
  { type, orderId, itemId, itemStatus }

/-! ### Accessors -/

def hasClientMode (m : Message) : Bool := m.clientMode ≠ .invalid

def hasStr (m : Message) : Bool := !m.str.isEmpty

def hasOrder (m : Message) : Bool := m.order.isSome

def hasOrderId (m : Message) : Bool := 0 ≤ m.orderId

def hasOrderStatus (m : Message) : Bool := m.orderStatus ≠ .invalid

def hasItemId (m : Message) : Bool := 0 ≤ m.itemId

def hasItemStatus (m : Message) : Bool := m.itemStatus ≠ .invalid

/-! ### Copies -/

/-- `operator=` from another message. -/
def assign (lhs rhs : Message) : Cpp Message := do
  let order ← match rhs.order with
    | some order => some <$> order.duplicate
    | none => pure none
  return { lhs with
    type := rhs.type, clientMode := rhs.clientMode, str := rhs.str, order := order,
    orderId := rhs.orderId, orderStatus := rhs.orderStatus,
    itemId := rhs.itemId, itemStatus := rhs.itemStatus }

/-- The copy constructor: assignment to `Message()`. -/
def copy (other : Message) : Cpp Message := assign {} other

def duplicate (m : Message) : Cpp Message := copy m

/-- The message's order, if it has one, has no null item. -/
def Full (m : Message) : Prop := ∀ o ∈ m.order, o.Full

theorem full_of_none {m : Message} (h : m.order = none) : m.Full := fun o ho => by
  rw [h] at ho; cases ho

/-- Assignment replaces every field. -/
theorem assign_full {lhs rhs : Message} (h : rhs.Full) : assign lhs rhs = .ok rhs := by
  rw [assign]
  cases ho : rhs.order with
  | none => simp [← ho]
  | some o => simp [Order.duplicate, Order.copy_full (h o ho), ← ho]

/-- Assignment copies the order, and cannot copy a null item. -/
theorem assign_null {lhs rhs : Message} (h : ¬rhs.Full) : assign lhs rhs = .error .undefined := by
  rw [Full] at h
  push Not at h
  obtain ⟨o, ho, hnull⟩ := h
  rw [Option.mem_def] at ho
  simp only [assign, ho, Order.duplicate, Order.copy_null hnull]
  rfl

theorem duplicate_full {m : Message} (h : m.Full) : m.duplicate = .ok m := by
  rw [duplicate, copy]; exact assign_full h

end Message

end Restaurant
