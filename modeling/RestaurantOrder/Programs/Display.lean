import RestaurantOrder.Display.Handlers
import RestaurantOrder.Programs.Ledger
import RestaurantOrder.Programs.Screen

/-! The display client: the `main` of display_main.cpp.

    Behind its login the program shows an empty screen, and then receives one message after the other.
    Each changes the map of orders, and unless it is a heartbeat the screen is shown anew. The loop has
    no end of its own: the program ends when a transfer fails, or with a message that does not fit the
    orders that it has.

        receive ──▶ decode ──▶ handler ──▶ refresh_display ──▶ receive ..
                      └──────────┴──── throws ──▶ close, "Error: .."  -/

namespace Restaurant.Display
open Schemes Process Program ClientUtil
open Wire (MessageText)

/-- The body of the main loop, with the orders before it and behind it. -/
def watchTurn (orders : Orders) : Proc Orders := do
  let msg ← receiveMessage
  let orders ← handle orders msg
  if msg.type ≠ .dispHeartbeat then refreshDisplay orders
  return orders

/-- The main loop; `n` bounds the turns that are looked at. -/
def watch : ℕ → Orders → Proc Unit
  | 0, _ => more
  | n + 1, orders => do
    let orders ← watchTurn orders
    watch n orders

def main (argv : List Bytes) (n : ℕ) : Proc Int32 :=
  clientMain .display argv do
    refreshDisplay ∅
    watch n ∅

/-! ### What is shown -/

/-- What a text makes of the orders and of what has been printed. -/
def hearText (w : Orders × List Bytes) (raw : Bytes) : Cpp (Orders × List Bytes) := do
  let msg ← Session.decoded raw
  let orders ← handle w.1 msg
  return (orders, if msg.type = .dispHeartbeat then w.2 else w.2 ++ screen orders)

/-- The orders after the texts that were received behind the login, and what is printed for them. -/
def watched (texts : List Bytes) : Cpp (Orders × List Bytes) :=
  texts.foldlM hearText (∅, screen ∅)

end Restaurant.Display
