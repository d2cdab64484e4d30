import RestaurantOrder.Schemes.Process
import RestaurantOrder.Server.Client
import RestaurantOrder.Server.Step

/-! The thread of a client: `Client::chat` with its two loops, and passwd_db.cpp.

    A thread receives and sends frames, calls operations of the server and takes messages out of its
    queue. Each of these is one action, which is answered with a value or an exception; an operation of
    the server is one action, as it runs under the server's mutex. `m_running` is a variable of the
    loop, since only its own thread looks at it.

        receive LOGIN ──▶ send OK ──▶ display_loop: register, (dequeue, send)*, unregister
                                 ──▶ updater_loop: (receive, call, send)* -/

namespace Restaurant

namespace PasswordDB
open Schemes

/-- `s_passwd_db`. -/
def passwdDb : List Bytes :=
  [ascii "admin/password123", ascii "testuser/testpass2026", ascii "guest/guestaccess",
    ascii "jdoe/qwerty789", ascii "dev_account/devmode!", ascii "staff_member/orange-juice-44",
    ascii "student01/classroom!", ascii "root/supersecret", ascii "demo_user/demo-only-99",
    ascii "app_tester/let-me-in-now", ascii "alice/foobar", ascii "bob/frotz"]

def authenticate (cred : Bytes) : Bool := passwdDb.contains cred

end PasswordDB

namespace Session
open Schemes Process

/-- What a client's thread does with its surroundings. -/
inductive Act where
  | receive
  | send (text : Bytes)
  | call (op : Op)
  | dequeue
  deriving DecidableEq, Repr

/-- What an action returns: the text of a frame, the result of an operation, the message taken or the
    empty pointer. -/
abbrev Act.Value : Act → Type
  | .receive => Bytes
  | .send _ => Unit
  | .call _ => Option Int32
  | .dequeue => Option Message

abbrev Act.Answer (a : Act) : Type := Except Exception a.Value

abbrev Proc (α : Type) := Process Act Act.Answer Exception α

/-- A value is returned and an exception thrown. -/
def answered {α : Type} : Except Exception α → Cpp α
  | .ok a => .ok a
  | .error e => raise e

/-- Do an action; an exception that it ends with goes on from here. -/
def ask (a : Act) : Proc a.Value := act a fun r => done (answered r)

/-- `throw ProtocolError(what)`. -/
def protocolError {α : Type} (what : String) : Cpp α := raise (.protocolError (ascii what))

/-- `Client::send_message`. -/
def sendMessage (msg : Message) : Proc Bool :=
  handle (fun _ => return false) do
    let encoded ← runOn [] (Wire.encode msg)
    ask (.send encoded)
    return true

def processNewOrder (order : Order) : Proc Int32 := do
  match ← ask (.call (.newOrder order)) with
  | some id => return id
  | none => .done (.error .undefined)

/-- The body of the loop of `display_loop`: was the message sent? -/
def displayTurn : Proc Bool := do
  match ← ask .dequeue with
  | some msg => sendMessage msg
  | none => sendMessage (.ofType .dispHeartbeat)

/-- `Client::display_loop` of the client at an address. -/
def displayLoop (this : Client) (n : ℕ) : Proc Unit := do
  let _ ← ask (.call (.registerDisplay this))
  handle (fun _ => return ()) (loop displayTurn n)
  let _ ← ask (.call (.unregisterDisplay this))

/-- `catch (const SemanticError &e)` in `updater_loop`: an ERROR reply with the text of the exception. -/
def replySemanticError : Exception → Proc Bool
  | .semanticError what => do
    let _ ← sendMessage (.ofStr .error what)
    return true
  | e => raise e

/-- What `updater_loop` does with a message: does the loop go on? -/
def respond (msg : Message) : Proc Bool := do
  if msg.type = .quit then
    let _ ← sendMessage (.ofStr .ok (ascii "bye"))
    return false
  else if msg.type = .orderNew then
    match msg.order with
    | none =>
      let _ ← sendMessage (.ofStr .error (ascii "missing order"))
      return true
    | some order =>
      let id ← processNewOrder order
      let _ ← sendMessage (.ofStr .ok (ascii "Created order id " ++ toStr id))
      return true
  else if msg.type = .itemUpdate then
    if !msg.hasOrderId || !msg.hasItemId || !msg.hasItemStatus then
      let _ ← sendMessage (.ofStr .error (ascii "missing item fields"))
      return true
    handle replySemanticError do
      let _ ← ask (.call (.itemUpdate msg.orderId msg.itemId msg.itemStatus))
      let _ ← sendMessage (.ofStr .ok (ascii "successful item update"))
      return true
  else if msg.type = .orderUpdate then
    if !msg.hasOrderId || !msg.hasOrderStatus then
      let _ ← sendMessage (.ofStr .error (ascii "missing order fields"))
      return true
    handle replySemanticError do
      let _ ← ask (.call (.orderUpdate msg.orderId msg.orderStatus))
      let _ ← sendMessage (.ofStr .ok (ascii "successful order update"))
      return true
  else
    let _ ← sendMessage (.ofStr .error (ascii "Updater: unexpected message type"))
    return true

/-- The handlers of `updater_loop`, which set `m_running` to false. -/
def stopRunning : Exception → Proc Bool
  | .ioException _ => return false
  | .invalidMessage _ => return false
  | e => raise e

/-- The body of the loop of `updater_loop`: does the loop go on? -/
def updaterTurn : Proc Bool :=
  handle stopRunning do
    let raw ← ask .receive
    let msg ← runOn {} (Wire.decode raw)
    respond msg

/-- `Client::updater_loop`. -/
def updaterLoop (n : ℕ) : Proc Unit := loop updaterTurn n

/-- `Client::chat`; `n` bounds the turns of its loops that are looked at. -/
def chat (this : Client) (n : ℕ) : Proc Unit :=
  handle (fun _ => return ()) do
  let raw ← ask .receive
  let loginMsg ← runOn {} (Wire.decode raw)
  if loginMsg.type ≠ .login then protocolError "expected LOGIN"
  if !loginMsg.hasClientMode || !loginMsg.hasStr then protocolError "LOGIN missing fields"
  let mode := loginMsg.clientMode
  let authenticated := PasswordDB.authenticate loginMsg.str
  if !authenticated then
    let _ ← sendMessage (.ofStr .error (ascii "Invalid credentials"))
    return
  let _ ← sendMessage (.ofStr .ok (ascii "Login successful"))
  if mode = .display then displayLoop this n
  else if mode = .updater then updaterLoop n
  else protocolError "invalid client mode"

end Session

end Restaurant
