import RestaurantOrder.Programs.Terminal
import RestaurantOrder.Wire.RoundTrip

/-! The updater client: updater_main.cpp.

    In each turn of its loop the program prints a prompt, reads a command and the lines that belong to
    it, sends one request and reports the response. A line that is no field of its command ends the
    program, and so does everything else that goes wrong; a line that is no command is ignored.

        "> "  item_update / 3 / 1 / DONE ──▶ ITEM_UPDATE|3|1|DONE ──▶ "Success: .." or "Failure: .."

    `Typed` says which lines ask for which request. -/

namespace Restaurant.Updater
open Schemes Process Program ClientUtil

/-! ### updater_main.cpp -/

def printResultResponse (response : Message) : Proc Unit :=
  if response.type = .ok then cout (ascii "Success: " ++ response.str ++ ascii "\n")
  else if response.type = .error then cout (ascii "Failure: " ++ response.str ++ ascii "\n")
  else unexpectedType

/-- The loop of `handle_order_new` over the items that are left, with the order so far. -/
def readItems (order : Order) : ℕ → Proc Order
  | 0 => return order
  | left + 1 => do
    let itemIdS ← getline
    let itemDesc ← getline
    let itemQtyS ← getline
    let itemId ← ClientUtil.parsePositiveInt itemIdS (ascii "item id")
    let itemQty ← ClientUtil.parsePositiveInt itemQtyS (ascii "item quantity")
    let item : Item := { orderId := 1, id := itemId, status := .new, desc := itemDesc, qty := itemQty }
    readItems (order.addItem (some item)) left

def handleOrderNew : Proc Unit := do
  let line ← getline
  let numItems ← ClientUtil.parsePositiveInt line (ascii "number of items")
  let order ← readItems { id := 1, status := .new, items := [] } numItems.toInt.toNat
  let response ← sendRequestReceiveResponse (.ofOrder .orderNew (some order))
  printResultResponse response

def handleItemUpdate : Proc Unit := do
  let orderIdS ← getline
  let itemIdS ← getline
  let itemStatusS ← getline
  let orderId ← ClientUtil.parsePositiveInt orderIdS (ascii "order id")
  let itemId ← ClientUtil.parsePositiveInt itemIdS (ascii "item id")
  let itemStatus := Wire.strToItemStatus itemStatusS
  if itemStatus = .invalid then protocolError (ascii "invalid item status")
  let response ← sendRequestReceiveResponse (.ofItemStatus .itemUpdate orderId itemId itemStatus)
  printResultResponse response

def handleOrderUpdate : Proc Unit := do
  let orderIdS ← getline
  let orderStatusS ← getline
  let orderId ← ClientUtil.parsePositiveInt orderIdS (ascii "order id")
  let orderStatus := Wire.strToOrderStatus orderStatusS
  if orderStatus = .invalid then protocolError (ascii "invalid order status")
  let response ← sendRequestReceiveResponse (.ofOrderStatus .orderUpdate orderId orderStatus)
  printResultResponse response

def handleQuit : Proc Unit := do
  let response ← sendRequestReceiveResponse (.ofStr .quit (ascii "quit"))
  if response.type ≠ .ok then unexpectedType

/-- The body of the loop of `main`: does the loop go on? -/
def commandTurn : Proc Bool := do
  cout (ascii "> ")
  match ← perform Act.getline with
  | none => return false
  | some command =>
    if command = ascii "quit" then
      handleQuit
      return false
    if command = ascii "order_new" then handleOrderNew
    else if command = ascii "item_update" then handleItemUpdate
    else if command = ascii "order_update" then handleOrderUpdate
    return true

/-- `main`; `n` bounds the turns of its loop that are looked at. -/
def main (argv : List Bytes) (n : ℕ) : Proc Int32 := clientMain .updater argv (loop commandTurn n)

/-! ### What is typed -/

/-- The lines of an item, and the item that `handle_order_new` makes of them. -/
def ItemTyped (it : Item) (lines : List Bytes) : Prop :=
  ∃ idS qtyS, lines = [idS, it.desc, qtyS] ∧ 0 < it.id ∧ Spelled it.id idS ∧ 0 < it.qty ∧
    Spelled it.qty qtyS ∧ it.orderId = 1 ∧ it.status = .new

/-- The lines behind a prompt, the command first, and the request that they ask for. -/
inductive Typed : List Bytes → Message → Prop
  | quit : Typed [ascii "quit"] (.ofStr .quit (ascii "quit"))
  | orderNew {count : Int32} {countS its fields} (hcount : 0 < count) (hs : Spelled count countS)
      (hlen : its.length = count.toInt.toNat) (hits : List.Forall₂ ItemTyped its fields) :
      Typed (ascii "order_new" :: countS :: fields.flatten)
        (.ofOrder .orderNew (some { id := 1, status := .new, items := its.map some }))
  | itemUpdate {orderId itemId st k i} (hk : 0 < orderId) (hks : Spelled orderId k) (hi : 0 < itemId)
      (his : Spelled itemId i) (hst : st ≠ .invalid) :
      Typed [ascii "item_update", k, i, Wire.itemStatusToStr st]
        (.ofItemStatus .itemUpdate orderId itemId st)
  | orderUpdate {orderId st k} (hk : 0 < orderId) (hks : Spelled orderId k) (hst : st ≠ .invalid) :
      Typed [ascii "order_update", k, Wire.orderStatusToStr st]
        (.ofOrderStatus .orderUpdate orderId st)

/-- The line that a response is reported by. -/
def report (response : Message) : Option Bytes :=
  if response.type = .ok then some (ascii "Success: " ++ response.str ++ ascii "\n")
  else if response.type = .error then some (ascii "Failure: " ++ response.str ++ ascii "\n")
  else none

end Restaurant.Updater
