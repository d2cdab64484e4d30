import RestaurantOrder.Programs.Terminal
import RestaurantOrder.Schemes.Codes
import RestaurantOrder.Schemes.Replica
import RestaurantOrder.Server.Server
import RestaurantOrder.Wire.Agreement

/-! The screen of the display program: `print_order` and `refresh_display` of display_main.cpp.

    A refresh clears the screen and prints the orders in the order of their ids, each with its items;
    printed is what is handed to `std::cout`. Whatever the descriptions say, the text of a screen tells
    the orders, and the output of the program tells all the screens that there have been
    (`screens_legible`).

        ESC[2J ESC[H
        Order 1000: NEW
          Item 7: NEW
            Samosa, Quantity 2 -/

namespace Restaurant.Display
open Schemes Process Program

/-- `CLEAR_SCREEN`. -/
def clearScreen : Bytes := ascii "\x1b[2J\x1b[H"

def orderLine (order : Order) : Bytes :=
  ascii "Order " ++ toStr order.id ++ ascii ": " ++ Wire.orderStatusToStr order.status ++ ascii "\n"

def itemLine (item : Item) : Bytes :=
  ascii "  Item " ++ toStr item.id ++ ascii ": " ++ Wire.itemStatusToStr item.status ++ ascii "\n"

def descLine (item : Item) : Bytes :=
  ascii "    " ++ item.desc ++ ascii ", Quantity " ++ toStr item.qty ++ ascii "\n"

/-- The loop of `print_order` over the items. -/
def printItems : List (Option Item) → Proc Unit
  | [] => return ()
  | p :: ps => do
    let item ← deref p
    cout (itemLine item)
    cout (descLine item)
    printItems ps

def printOrder (order : Order) : Proc Unit := do
  cout (orderLine order)
  printItems order.items

/-- The loop of `refresh_display` over the map. -/
def printOrders : List (Int32 × Order) → Proc Unit
  | [] => return ()
  | (_, order) :: rest => do
    printOrder order
    printOrders rest

/-- Of what it hands to `std::cout` only `CLEAR_SCREEN` is flushed. -/
def refreshDisplay (orders : Orders) : Proc Unit := do
  cout clearScreen
  printOrders orders.toList

/-! ### What is printed -/

/-- Print one text after the other. -/
def printAll : List Bytes → Proc Unit
  | [] => return ()
  | text :: texts => do
    cout text
    printAll texts

def itemLines (item : Item) : List Bytes := [itemLine item, descLine item]

def orderLines (order : Order) : List Bytes :=
  orderLine order :: order.items.reduceOption.flatMap itemLines

/-- The texts that a refresh prints. -/
def screen (orders : Orders) : List Bytes :=
  clearScreen :: orders.toList.flatMap fun p => orderLines p.2

theorem printAll_append (texts texts' : List Bytes) :
    printAll (texts ++ texts') = printAll texts >>= fun _ => printAll texts' := by
  induction texts with
  | nil => rfl
  | cons text texts ih =>
    simp only [List.cons_append, printAll, cout, perform_bind, act_bind, ih]

theorem printItems_full (its : List Item) :
    printItems (its.map some) = printAll (its.flatMap itemLines) := by
  induction its with
  | nil => rfl
  | cons it its ih =>
    simp only [List.map_cons, printItems, ih, List.flatMap_cons, itemLines, List.cons_append,
      List.nil_append, printAll, deref_some, lift_eq_done, Process.ok_bind]

theorem printOrder_full {order : Order} (h : order.Full) :
    printOrder order = printAll (orderLines order) := by
  obtain ⟨its, hits⟩ := h
  rw [printOrder, orderLines, hits, Wire.reduceOption_map_some, printItems_full, printAll]

theorem printOrders_full {pairs : List (Int32 × Order)} (h : ∀ p ∈ pairs, p.2.Full) :
    printOrders pairs = printAll (pairs.flatMap fun p => orderLines p.2) := by
  induction pairs with
  | nil => rfl
  | cons p pairs ih =>
    obtain ⟨k, order⟩ := p
    rw [printOrders, List.flatMap_cons, printAll_append, printOrder_full (h _ List.mem_cons_self),
      ih fun q hq => h q (List.mem_cons_of_mem _ hq)]

/-- A refresh of orders without null items prints their screen. -/
theorem refreshDisplay_full {orders : Orders}
    (h : ∀ (k : Int32) (o : Order), orders[k]? = some o → o.Full) :
    refreshDisplay orders = printAll (screen orders) := by
  rw [refreshDisplay, screen, printAll, printOrders_full]
  rintro ⟨k, o⟩ hp
  exact h k o (Std.ExtTreeMap.mem_toList_iff_getElem?_eq_some.mp hp)

/-! ### Reading a screen -/

/-- What the orders on a screen are like, so that they can be read off it. -/
structure Presentable (k : Int32) (o : Order) : Prop where
  id : o.id = k
  items : ∃ its : List Item, o.items = its.map some ∧ ∀ it ∈ its, it.orderId = k ∧ byte ',' ∉ it.desc

/-- Orders that can be told from their screen. -/
def Presented (orders : Orders) : Prop :=
  ∀ (k : Int32) (o : Order), orders[k]? = some o → Presentable k o

theorem decimal_injective : Function.Injective decimal := fun n m h => by
  rw [← value_decimal n, h, value_decimal]

theorem decimal_ne_minus (n : ℕ) (s : Bytes) : decimal n ≠ byte '-' :: s := by
  intro h
  have hdigit : isDigit (byte '-') = true :=
    isDigit_decimal _ (show byte '-' ∈ decimal n by rw [h]; exact List.mem_cons_self)
  revert hdigit
  decide

/-- A number can be read off what is printed for it. -/
theorem toStr_injective : Function.Injective toStr := by
  intro n m h
  rw [← Int32.toInt_inj]
  rcases Wire.toStr_cases n with ⟨hn, hs⟩ | ⟨hn, hs⟩ <;>
    rcases Wire.toStr_cases m with ⟨hm, hs'⟩ | ⟨hm, hs'⟩ <;> rw [hs, hs'] at h
  · have habs := decimal_injective h
    omega
  · exact absurd h (decimal_ne_minus _ _)
  · exact absurd h.symm (decimal_ne_minus _ _)
  · have habs := decimal_injective (List.cons.inj h).2
    omega

theorem newline_toStr (n : Int32) : byte '\n' ∉ toStr n := by
  have hdigits : byte '\n' ∉ decimal n.toInt.natAbs := fun h => by
    have hdigit := isDigit_decimal _ h
    revert hdigit
    decide
  rcases Wire.toStr_cases n with ⟨-, h⟩ | ⟨-, h⟩ <;> rw [h]
  · exact hdigits
  · simpa using ⟨by decide, hdigits⟩

theorem newline_itemStatus (st : ItemStatus) : byte '\n' ∉ Wire.itemStatusToStr st := by
  cases st <;> decide

theorem newline_orderStatus (st : OrderStatus) : byte '\n' ∉ Wire.orderStatusToStr st := by
  cases st <;> decide

theorem colon_toStr (n : Int32) : byte ':' ∉ toStr n := (Wire.plain_toStr n).not_mem rfl

/-- The lines of an item tell it, if its order is known. -/
theorem item_legible (k : Int32) : Legible
    (fun it : Item => it.orderId = k ∧ byte ',' ∉ it.desc) (fun _ => True)
    (fun it => (itemLines it).flatten) := by
  rintro it it' x y ⟨hk, hd⟩ ⟨hk', hd'⟩ - - h
  simp only [itemLines, itemLine, descLine, List.flatten_cons, List.flatten_nil, List.append_nil,
    List.append_assoc] at h
  obtain ⟨hid, h⟩ := Legible.upTo rfl (colon_toStr it.id) (colon_toStr it'.id)
    (List.append_cancel_left h)
  obtain ⟨hst, h⟩ := Legible.upTo rfl (newline_itemStatus it.status) (newline_itemStatus it'.status) h
  obtain ⟨hdesc, h⟩ := Legible.upTo rfl hd hd' (List.append_cancel_left h)
  obtain ⟨hqty, h⟩ := Legible.upTo rfl (newline_toStr it.qty) (newline_toStr it'.qty) h
  refine ⟨?_, h⟩
  cases it
  cases it'
  rw [Item.mk.injEq]
  exact ⟨hk.trans hk'.symm, toStr_injective hid, Wire.itemStatusNames.print_injective hst, hdesc,
    toStr_injective hqty⟩

/-- The lines of an order tell it, if no line of another item follows. -/
theorem order_legible : Legible (fun p : Int32 × Order => Presentable p.1 p.2)
    (fun x => x.head? ≠ some (byte ' ')) (fun p => (orderLines p.2).flatten) := by
  rintro ⟨k, o⟩ ⟨k', o'⟩ x y (ho : Presentable k o) (ho' : Presentable k' o') hx hy h
  obtain ⟨hid, its, hits, hall⟩ := ho
  obtain ⟨hid', its', hits', hall'⟩ := ho'
  simp only [orderLines, orderLine, hits, hits', Wire.reduceOption_map_some, List.flatten_cons,
    List.append_assoc] at h
  obtain ⟨hids, h⟩ := Legible.upTo rfl (colon_toStr o.id) (colon_toStr o'.id)
    (List.append_cancel_left h)
  obtain ⟨hst, h⟩ := Legible.upTo rfl (newline_orderStatus o.status) (newline_orderStatus o'.status) h
  obtain rfl : k = k' := by
    rw [← hid, ← hid']
    exact toStr_injective hids
  have hflat : ∀ its : List Item, (its.flatMap itemLines).flatten
      = its.flatMap fun it => (itemLines it).flatten := fun its => by
    rw [List.flatMap, List.flatten_flatten, List.map_map]
    rfl
  rw [hflat, hflat] at h
  obtain ⟨rfl, hxy⟩ := (item_legible k).flatMap (S := fun x => x.head? ≠ some (byte ' '))
    (fun _ _ _ _ => trivial) (fun it x r _ hx hxr => hx (by rw [hxr]; rfl)) hall hall' hx hy h
  refine ⟨Prod.ext rfl ?_, hxy⟩
  cases o
  cases o'
  rw [Order.mk.injEq]
  exact ⟨hid.trans hid'.symm, Wire.orderStatusNames.print_injective hst, hits.trans hits'.symm⟩

/-- What follows a screen is no order and no item. -/
theorem screen_legible : Legible Presented
    (fun x => x.head? ≠ some (byte ' ') ∧ x.head? ≠ some (byte 'O'))
    (fun orders => (screen orders).flatten) := by
  intro orders orders' x y ho ho' hx hy h
  have hflat : ∀ orders : Orders, (screen orders).flatten
      = clearScreen ++ orders.toList.flatMap fun p => (orderLines p.2).flatten := fun orders => by
    rw [screen, List.flatten_cons, List.flatMap, List.flatten_flatten, List.map_map]
    rfl
  have hmem : ∀ {orders : Orders}, Presented orders → ∀ p ∈ orders.toList, Presentable p.1 p.2 :=
    fun ho p hp => ho p.1 p.2 (Std.ExtTreeMap.mem_toList_iff_getElem?_eq_some.mp hp)
  -- an order begins with `O`, so no order begins where the items of another one go on
  have hend : ∀ (l : List (Int32 × Order)) (x : Bytes), (∀ p ∈ l, Presentable p.1 p.2) →
      x.head? ≠ some (byte ' ') ∧ x.head? ≠ some (byte 'O') →
      ((l.flatMap fun p => (orderLines p.2).flatten) ++ x).head? ≠ some (byte ' ') := by
    intro l x _ hx
    cases l with
    | nil => exact hx.1
    | cons p l => exact fun hhead => absurd (Option.some.inj hhead) (by decide)
  simp only [hflat, List.append_assoc] at h
  obtain ⟨hsame, hxy⟩ := order_legible.flatMap hend (fun p x r _ hx hxr => hx.2 (by rw [hxr]; rfl))
    (hmem ho) (hmem ho') hx hy (List.append_cancel_left h)
  refine ⟨?_, hxy⟩
  rw [← foldl_insert_toList orders, hsame, foldl_insert_toList]

/-- CORRECT: whatever a display has printed, the maps of orders that it has shown can be read off it, one
    after the other: the ids and statuses of all orders and items, the descriptions and the quantities.
    The orders are stored under their own ids, with these ids in their items, and no description has a
    comma in it. -/
theorem screens_legible {shown shown' : List Orders} (h : ∀ orders ∈ shown, Presented orders)
    (h' : ∀ orders ∈ shown', Presented orders)
    (heq : (shown.flatMap screen).flatten = (shown'.flatMap screen).flatten) : shown = shown' := by
  have hflat : ∀ shown : List Orders, (shown.flatMap screen).flatten
      = shown.flatMap fun orders => (screen orders).flatten := fun shown => by
    rw [List.flatMap, List.flatten_flatten, List.map_map]
    rfl
  rw [hflat, hflat] at heq
  have hend : ∀ (l : List Orders) (x : Bytes), (∀ orders ∈ l, Presented orders) → x = [] →
      ((l.flatMap fun orders => (screen orders).flatten) ++ x).head? ≠ some (byte ' ') ∧
        ((l.flatMap fun orders => (screen orders).flatten) ++ x).head? ≠ some (byte 'O') := by
    rintro (_ | ⟨orders, l⟩) x - rfl
    · exact ⟨nofun, nofun⟩
    · exact ⟨fun hhead => absurd (Option.some.inj hhead) (by decide),
        fun hhead => absurd (Option.some.inj hhead) (by decide)⟩
  exact (screen_legible.flatMap hend (fun orders x r _ hx hxr => by rw [hx] at hxr; cases hxr)).injective
    rfl h h' heq

theorem presented_insert {orders : Orders} (h : Presented orders) {k : Int32} {o : Order}
    (ho : Presentable k o) : Presented (orders.insert k o) := by
  intro k' o' hk'
  rw [Std.ExtTreeMap.getElem?_insert] at hk'
  split at hk'
  · next hk =>
    obtain rfl := Std.compare_eq_iff_eq.mp hk
    obtain rfl := Option.some.inj hk'
    exact ho
  · exact h k' o' hk'

/-- An order written twice looks like the order written once, and so it is the same. -/
theorem screens_legible_twice :
    let o (st : OrderStatus) : Order := ⟨1000, st, [some ⟨1000, 7, .new, ascii "Item 8: NEW\n", -2⟩]⟩
    let once : Orders := (∅ : Orders).insert 1000 (o .inProgress)
    let twice : Orders := ((∅ : Orders).insert 1000 (o .new)).insert 1000 (o .inProgress)
    [∅, once] = [∅, twice] := by
  intro o once twice
  have hempty : Presented ∅ := fun k o ho => by simp at ho
  have ho : ∀ st, Presentable 1000 (o st) := fun st => ⟨rfl, [_], rfl, by
    intro it hit
    obtain rfl := List.mem_singleton.mp hit
    exact ⟨rfl, by decide⟩⟩
  have honce : Presented once := presented_insert hempty (ho _)
  have htwice : Presented twice := presented_insert (presented_insert hempty (ho _)) (ho _)
  exact screens_legible (by simpa using ⟨hempty, honce⟩) (by simpa using ⟨hempty, htwice⟩)
    (by decide +kernel)

end Restaurant.Display
