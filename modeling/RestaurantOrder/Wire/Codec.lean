import RestaurantOrder.Wire.Text
import RestaurantOrder.Schemes.Names

/-! The encoding of messages: wire.cpp.

        message ──encode──▶ TYPE|field|...|field
        order   ──encode_order──▶ id,status,item;...;item
        item    ──▶ order id:id:status:desc:qty

    `encode` writes to its result string and `decode` to its message argument, each as the last
    statement of a case. A loop over items is a recursion over them. -/

namespace Restaurant.Wire
open Schemes

/-! ### Names -/

def clientModeNames : NameTable ClientMode Bytes where
  entries := [(.invalid, ascii "INVALID"), (.updater, ascii "UPDATER"),
    (.display, ascii "DISPLAY")]
  unnamed := ascii "<invalid>"
  unknown := .invalid
  keys := by decide
  names := by decide
  total a := by cases a <;> decide

def messageTypeNames : NameTable MessageType Bytes where
  entries := [(.invalid, ascii "INVALID"), (.login, ascii "LOGIN"), (.quit, ascii "QUIT"),
    (.orderNew, ascii "ORDER_NEW"), (.itemUpdate, ascii "ITEM_UPDATE"),
    (.orderUpdate, ascii "ORDER_UPDATE"), (.ok, ascii "OK"), (.error, ascii "ERROR"),
    (.dispOrder, ascii "DISP_ORDER"), (.dispItemUpdate, ascii "DISP_ITEM_UPDATE"),
    (.dispOrderUpdate, ascii "DISP_ORDER_UPDATE"), (.dispHeartbeat, ascii "DISP_HEARTBEAT")]
  unnamed := ascii "<invalid>"
  unknown := .invalid
  keys := by decide
  names := by decide
  total a := by cases a <;> decide

def itemStatusNames : NameTable ItemStatus Bytes where
  entries := [(.invalid, ascii "INVALID"), (.new, ascii "NEW"),
    (.inProgress, ascii "IN_PROGRESS"), (.done, ascii "DONE")]
  unnamed := ascii "<invalid>"
  unknown := .invalid
  keys := by decide
  names := by decide
  total a := by cases a <;> decide

def orderStatusNames : NameTable OrderStatus Bytes where
  entries := [(.invalid, ascii "INVALID"), (.new, ascii "NEW"),
    (.inProgress, ascii "IN_PROGRESS"), (.done, ascii "DONE"), (.delivered, ascii "DELIVERED")]
  unnamed := ascii "<invalid>"
  unknown := .invalid
  keys := by decide
  names := by decide
  total a := by cases a <;> decide

def clientModeToStr : ClientMode → Bytes := clientModeNames.print

def strToClientMode : Bytes → ClientMode := clientModeNames.parse

def messageTypeToStr : MessageType → Bytes := messageTypeNames.print

def strToMessageType : Bytes → MessageType := messageTypeNames.parse

def itemStatusToStr : ItemStatus → Bytes := itemStatusNames.print

def strToItemStatus : Bytes → ItemStatus := itemStatusNames.parse

def orderStatusToStr : OrderStatus → Bytes := orderStatusNames.print

def strToOrderStatus : Bytes → OrderStatus := orderStatusNames.parse

/-! ### Encoding -/

/-- `throw InvalidMessage(what)`. -/
def invalid {α : Type} (what : String) : Cpp α := raise (.invalidMessage (ascii what))

@[simp] theorem invalid_bind {α β : Type} (what : String) (f : α → Cpp β) :
    (invalid what >>= f) = invalid what := rfl

/-- One item of an encoded order. -/
def encodeItem (it : Item) : Bytes :=
  toStr it.orderId ++ ascii ":" ++
  toStr it.id ++ ascii ":" ++
  itemStatusToStr it.status ++ ascii ":" ++
  it.desc ++ ascii ":" ++
  toStr it.qty

/-- The loop of `encode_order` at index `i`, with the text `out` so far. -/
def encodeItems (out : Bytes) (i : ℕ) : List (Option Item) → Cpp Bytes
  | [] => .ok out
  | none :: _ => invalid "invalid order item payload"
  | some it :: rest =>
    let out := if i > 0 then out ++ ascii ";" else out
    encodeItems (out ++ encodeItem it) (i + 1) rest

def encodeOrder : Option Order → Cpp Bytes
  | none => invalid "invalid order payload"
  | some order =>
    if order.numItems ≤ 0 then invalid "invalid order payload"
    else
      encodeItems (toStr order.id ++ ascii "," ++ orderStatusToStr order.status ++ ascii ",") 0
        order.items

/-- `encode`, working on `result_str`. -/
def encode (msg : Message) : CppOn Bytes Unit :=
  match msg.type with
  | .login => do
    if !msg.hasClientMode || !msg.hasStr then invalid "invalid LOGIN message"
    set (ascii "LOGIN|" ++ clientModeToStr msg.clientMode ++ ascii "|" ++ msg.str)
  | .quit => do
    if !msg.hasStr then invalid "invalid QUIT message"
    set (ascii "QUIT|" ++ msg.str)
  | .orderNew => do
    set (ascii "ORDER_NEW|" ++ (← encodeOrder msg.order))
  | .itemUpdate => do
    if !msg.hasOrderId || !msg.hasItemId || !msg.hasItemStatus then
      invalid "invalid ITEM_UPDATE message"
    set (ascii "ITEM_UPDATE|" ++ toStr msg.orderId ++ ascii "|" ++ toStr msg.itemId ++ ascii "|" ++
      itemStatusToStr msg.itemStatus)
  | .orderUpdate => do
    if !msg.hasOrderId || !msg.hasOrderStatus then invalid "invalid ORDER_UPDATE message"
    set (ascii "ORDER_UPDATE|" ++ toStr msg.orderId ++ ascii "|" ++
      orderStatusToStr msg.orderStatus)
  | .ok => do
    if !msg.hasStr then invalid "invalid OK message"
    set (ascii "OK|" ++ msg.str)
  | .error => do
    if !msg.hasStr then invalid "invalid ERROR message"
    set (ascii "ERROR|" ++ msg.str)
  | .dispOrder => do
    set (ascii "DISP_ORDER|" ++ (← encodeOrder msg.order))
  | .dispItemUpdate => do
    if !msg.hasOrderId || !msg.hasItemId || !msg.hasItemStatus then
      invalid "invalid DISP_ITEM_UPDATE message"
    set (ascii "DISP_ITEM_UPDATE|" ++ toStr msg.orderId ++ ascii "|" ++ toStr msg.itemId ++
      ascii "|" ++ itemStatusToStr msg.itemStatus)
  | .dispOrderUpdate => do
    if !msg.hasOrderId || !msg.hasOrderStatus then invalid "invalid DISP_ORDER_UPDATE message"
    set (ascii "DISP_ORDER_UPDATE|" ++ toStr msg.orderId ++ ascii "|" ++
      orderStatusToStr msg.orderStatus)
  | .dispHeartbeat => set (ascii "DISP_HEARTBEAT")
  | .invalid => invalid "invalid message type for encoding"

/-! ### Decoding -/

/-- `operator[]` of a vector. -/
def nth (v : List Bytes) (i : ℕ) : Cpp Bytes :=
  match v[i]? with
  | some s => .ok s
  | none => .error .undefined

/-- The body of the loop of `decode_order`: one item text. -/
def decodeItem (i : Bytes) : Cpp Item := do
  let parts ← Util.split i (byte ':')
  if parts.length ≠ 5 then invalid "invalid item field count"
  let itemOrderId ← parsePositiveInt (← nth parts 0) (ascii "item order id")
  let itemId ← parsePositiveInt (← nth parts 1) (ascii "item id")
  let itemStatus := strToItemStatus (← nth parts 2)
  if itemStatus = .invalid then invalid "invalid item status"
  let qty ← parsePositiveInt (← nth parts 4) (ascii "item quantity")
  return { orderId := itemOrderId, id := itemId, status := itemStatus, desc := ← nth parts 3, qty }

/-- The loop of `decode_order` over the rest of the item texts. -/
def decodeItems (order : Order) : List Bytes → Cpp Order
  | [] => .ok order
  | i :: rest => do
    let it ← decodeItem i
    decodeItems (order.addItem (some it)) rest

def decodeOrder (s : Bytes) : Cpp Order := do
  let fields ← Util.split s (byte ',')
  if fields.length ≠ 3 then invalid "invalid order field count"
  let orderId ← parsePositiveInt (← nth fields 0) (ascii "order id")
  let orderStatus := strToOrderStatus (← nth fields 1)
  if orderStatus = .invalid then invalid "invalid order status"
  let itemFields ← Util.split (← nth fields 2) (byte ';')
  if itemFields.isEmpty then invalid "order has no items"
  decodeItems { id := orderId, status := orderStatus, items := [] } itemFields

/-- `msg = rhs`. -/
def assignMsg (rhs : Message) : CppOn Message Unit := do
  set (← Message.assign (← get) rhs)

/-- The case of `LOGIN`. -/
def decodeLogin (type : MessageType) (overallFields : List Bytes) : CppOn Message Unit := do
  if overallFields.length ≠ 3 then invalid "invalid LOGIN field count"
  let mode := strToClientMode (← nth overallFields 1)
  if mode = .invalid then invalid "invalid client mode"
  assignMsg (.ofLogin type mode (← nth overallFields 2))

/-- The case of `QUIT`, `OK` and `ERROR`. -/
def decodeString (type : MessageType) (overallFields : List Bytes) : CppOn Message Unit := do
  if overallFields.length ≠ 2 then invalid "invalid string message field count"
  assignMsg (.ofStr type (← nth overallFields 1))

/-- The case of `ORDER_NEW` and `DISP_ORDER`. -/
def decodeOrderMsg (type : MessageType) (overallFields : List Bytes) : CppOn Message Unit := do
  if overallFields.length ≠ 2 then invalid "invalid order message field count"
  let order ← decodeOrder (← nth overallFields 1)
  assignMsg (.ofOrder type (some order))

/-- The case of `ITEM_UPDATE` and `DISP_ITEM_UPDATE`. -/
def decodeItemUpdate (type : MessageType) (overallFields : List Bytes) : CppOn Message Unit := do
  if overallFields.length ≠ 4 then invalid "invalid item update field count"
  let orderId ← parsePositiveInt (← nth overallFields 1) (ascii "order id")
  let itemId ← parsePositiveInt (← nth overallFields 2) (ascii "item id")
  let itemStatus := strToItemStatus (← nth overallFields 3)
  if itemStatus = .invalid then invalid "invalid item status"
  assignMsg (.ofItemStatus type orderId itemId itemStatus)

/-- The case of `ORDER_UPDATE` and `DISP_ORDER_UPDATE`. -/
def decodeOrderUpdate (type : MessageType) (overallFields : List Bytes) : CppOn Message Unit := do
  if overallFields.length ≠ 3 then invalid "invalid order update field count"
  let orderId ← parsePositiveInt (← nth overallFields 1) (ascii "order id")
  let orderStatus := strToOrderStatus (← nth overallFields 2)
  if orderStatus = .invalid then invalid "invalid order status"
  assignMsg (.ofOrderStatus type orderId orderStatus)

/-- The case of `DISP_HEARTBEAT`. -/
def decodeHeartbeat (type : MessageType) (overallFields : List Bytes) : CppOn Message Unit := do
  if overallFields.length ≠ 1 then invalid "invalid heartbeat field count"
  assignMsg (.ofType type)

/-- The switch over the message type. -/
def decodePayload (type : MessageType) (overallFields : List Bytes) : CppOn Message Unit :=
  match type with
  | .login => decodeLogin type overallFields
  | .quit | .ok | .error => decodeString type overallFields
  | .orderNew | .dispOrder => decodeOrderMsg type overallFields
  | .itemUpdate | .dispItemUpdate => decodeItemUpdate type overallFields
  | .orderUpdate | .dispOrderUpdate => decodeOrderUpdate type overallFields
  | .dispHeartbeat => decodeHeartbeat type overallFields
  | .invalid => invalid "invalid message type for decoding"

/-- `decode`, working on `msg`. -/
def decode (givenStr : Bytes) : CppOn Message Unit := do
  let overallFields ← Util.split givenStr (byte '|')
  if overallFields.isEmpty then invalid "empty message"
  let type := strToMessageType (← nth overallFields 0)
  if type = .invalid then invalid "invalid message type"
  decodePayload type overallFields

end Restaurant.Wire
