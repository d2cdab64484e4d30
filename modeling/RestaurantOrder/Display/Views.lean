import RestaurantOrder.Display.Stored
import RestaurantOrder.Schemes.Copies
import RestaurantOrder.Session.System

/-! The views of a display: the orders that it has after each message.

    A client that registers is sent the orders as they are, one by one, and after that what changes. So
    its display first has the orders of that moment one by one (`arrivals`), and from then on those that
    the server has after each operation that changes them (`made`). Only in an item update that changes
    the status of the order as well there is a view in between, with the item changed and the status not
    yet (`between`). No two views in a row are the same.

        ∅ ──▶ o₁ ──▶ o₁ o₂ ──▶ .. ──▶ s.orders ──▶ (between) ──▶ s'.orders ──▶ .. -/

namespace Restaurant.Display
open Schemes Server
open Session (Deed)
open Wire (Decoded)

/-- The orders one by one, as they come in. -/
def arrivals (orders : Orders) : List Orders :=
  orders.toList.scanl (fun view p => view.insert p.1 p.2) ∅

/-- The view between the two messages of an item update, if there are two: the orders after it, but for
    the status of the order, which is the one before it. -/
def between (k : Int32) (before after : Orders) : List Orders :=
  match before[k]?, after[k]? with
  | some o, some o' =>
    if o'.status = o.status then [] else [after.insert k { o' with status := o.status }]
  | _, _ => []

/-- The views that are made by what is done in the server. -/
def made : Deed → List Orders
  | (.newOrder _, .ok _, _, after) => [after.orders]
  | (.itemUpdate k _ _, .ok _, before, after) =>
    between k before.orders after.orders ++ [after.orders]
  | (.orderUpdate _ _, .ok _, _, after) => [after.orders]
  | _ => []

/-- What every message to a display is like. -/
def Change (m : Message) : Prop := Wire.Sendable m ∧ m.type ≠ .dispHeartbeat

/-! ### The snapshot -/

theorem arrivals_cons (orders : Orders) : arrivals orders = ∅ :: (arrivals orders).tail := by
  rw [arrivals]
  cases orders.toList with
  | nil => rfl
  | cons p pairs => rw [List.scanl_cons, List.tail_cons]

/-- The orders that come last are all of them. -/
theorem arrivals_getLastD (orders : Orders) : (arrivals orders).tail.getLastD ∅ = orders := by
  have key : ∀ (pairs : List (Int32 × Order)) (view : Orders),
      (pairs.scanl (fun view p => view.insert p.1 p.2) view).tail.getLastD view
        = pairs.foldl (fun view p => view.insert p.1 p.2) view := by
    intro pairs
    induction pairs with
    | nil => exact fun _ => rfl
    | cons p pairs ih =>
      intro view
      rw [List.scanl_cons, List.tail_cons, List.foldl_cons, ← ih]
      cases pairs with
      | nil => rfl
      | cons q pairs => rw [List.scanl_cons, List.getLastD_cons, List.tail_cons]
  rw [arrivals, key, foldl_insert_toList]

/-- A snapshot brings the orders one by one. -/
theorem snapshot_views {orders : Orders}
    (hid : ∀ (k : Int32) (o : Order), orders[k]? = some o → o.id = k)
    (hsend : ∀ (k : Int32) (o : Order), orders[k]? = some o → Wire.Order.Sendable o) :
    Copies turn ∅ (snapshot orders) (arrivals orders).tail := by
  have key : ∀ (pairs : List (Int32 × Order)) (view : Orders),
      (∀ p ∈ pairs, p.2.id = p.1 ∧ Wire.Order.Sendable p.2) →
      Copies turn view (pairs.map fun p => Message.ofOrder .dispOrder (some p.2))
        (pairs.scanl (fun view p => view.insert p.1 p.2) view).tail := by
    intro pairs
    induction pairs with
    | nil => exact fun _ _ => .nil
    | cons p pairs ih =>
      intro view hp
      obtain ⟨hpid, hpsend⟩ := hp p List.mem_cons_self
      have hnext := ih (view.insert p.1 p.2) fun q hq => hp q (List.mem_cons_of_mem _ hq)
      have hturn : turn view (.ofOrder .dispOrder (some p.2)) = pure (view.insert p.1 p.2) := by
        rw [turn_dispOrder hpsend, hpid]
        rfl
      rw [List.map_cons, List.scanl_cons, List.tail_cons]
      cases pairs with
      | nil => exact .one hturn
      | cons q pairs =>
        rw [List.scanl_cons] at hnext ⊢
        exact .cons hturn hnext
  refine key _ _ ?_
  rintro ⟨k, o⟩ hp
  have ho := Std.ExtTreeMap.mem_toList_iff_getElem?_eq_some.mp hp
  exact ⟨hid k o ho, hsend k o ho⟩

theorem snapshot_changes {orders : Orders}
    (hsend : ∀ (k : Int32) (o : Order), orders[k]? = some o → Wire.Order.Sendable o) :
    ∀ m ∈ snapshot orders, Change m := by
  intro m hm
  obtain ⟨⟨k, o⟩, hp, rfl⟩ := List.mem_map.mp hm
  have ho := Std.ExtTreeMap.mem_toList_iff_getElem?_eq_some.mp hp
  exact ⟨.order (Or.inr rfl) (hsend k o ho), nofun⟩

/-! ### One operation -/

/-- Changing nothing but the status of the order, and then the status. -/
theorem between_updated {orders : Orders} {k : Int32} {o : Order} (ho : orders[k]? = some o)
    (its : List Item) (i : ℕ) (st : ItemStatus) :
    between k orders (orders.insert k (updatedOrder o its i st))
      = ((autoTransition o.status st (updatedItems its i st)).map fun _ =>
          orders.insert k { o with items := (updatedItems its i st).map some }).toList := by
  have hnow : (orders.insert k (updatedOrder o its i st))[k]? = some (updatedOrder o its i st) :=
    Std.ExtTreeMap.getElem?_insert_self
  rw [between, ho, hnow]
  simp only [updatedOrder, insert_insert]
  cases hu : autoTransition o.status st (updatedItems its i st) with
  | none => exact if_pos rfl
  | some u => exact if_neg (autoTransition_next hu).ne

/-- The messages of an item update make the view in between, if there is one, and the view after it. -/
theorem updateMessages_views {orders : Orders} {k itemId : Int32} {st : ItemStatus} {o : Order}
    {its : List Item} {i : ℕ} {it : Item} (ho : orders[k]? = some o) (hid : o.id = k)
    (hsend : Wire.Order.Sendable o) (hits : o.items = its.map some)
    (hi : position itemId its = some i) (hst : it.status.Next st) :
    Copies turn orders
      (updateMessages k itemId st (autoTransition o.status st (updatedItems its i st)))
      (between k orders (orders.insert k (updatedOrder o its i st))
        ++ [orders.insert k (updatedOrder o its i st)]) := by
  have hall := turn_updateMessages ho hid hsend hits hi hst
  have hk : 0 < k := hid ▸ hsend.id
  have hfirst : turn orders (.ofItemStatus .dispItemUpdate k itemId st)
      = .ok (orders.insert k { o with items := (updatedItems its i st).map some }) := by
    rw [turn_sendable (.itemUpdate (Or.inr rfl) hk (pos_of_position hsend hits hi) hst.ne_invalid),
      handle_dispItemUpdate hk (pos_of_position hsend hits hi) hst.ne_invalid ho
        (by rw [findItem_eq hits, hi]), setItemStatus_eq hits]
  rw [updateMessages, List.foldlM_cons, hfirst, ok_bind] at hall
  rw [updateMessages, between_updated ho]
  cases hu : autoTransition o.status st (updatedItems its i st) with
  | none =>
    rw [hu] at hall
    refine .one ?_
    rw [hfirst]
    exact hall
  | some u =>
    rw [hu] at hall
    simp only [Option.map_some, Option.toList_some, List.foldlM_cons, List.foldlM_nil] at hall
    refine .cons hfirst (.one ?_)
    rw [bind_pure] at hall
    exact hall

/-- STEP: what an operation puts in the client's queue makes the views of the operation. -/
theorem took_views {c : Client} {s s' : Server} {op : Op} {out : Out} (hw : Watched c s)
    (hop : Apart c op) (h : Took s op out s') : ∃ ms, s'.queue c = s.queue c ++ ms ∧
      (∀ m ∈ ms, Change m) ∧ Copies turn s.orders ms (made (op, out, s, s')) := by
  have hnone : ∀ m ∈ ([] : List Message), Change m := fun m hm => absurd hm List.not_mem_nil
  cases h with
  | @placed o its hits hmax =>
    have hsend := sendable_placed (hop.1 o rfl) hits hw.good.next
    refine ⟨_, tell_queue_of_mem hw.registered _, fun m hm => ?_, .one ?_⟩
    · rw [List.mem_singleton.mp hm]
      exact ⟨.order (Or.inr rfl) hsend, nofun⟩
    · rw [turn_dispOrder hsend]
      rfl
  | @itemUpdated k itemId st o its i it ho hits hi hit hst =>
    have hsend := hw.sendable k o ho
    refine ⟨_, tell_queue_of_mem hw.registered _, fun m hm => ⟨?_, ?_⟩,
      updateMessages_views ho (hw.good.id k o ho) hsend hits hi hst⟩
    · exact sendable_updateMessages (pos_of_issued (hw.good.issued k o ho).1)
        (pos_of_position hsend hits hi) hst (fun u hu => (autoTransition_ne hu).1) m hm
    · rcases List.mem_cons.mp hm with rfl | hm
      · exact nofun
      · obtain ⟨u, -, rfl⟩ := Option.map_eq_some_iff.mp (Option.mem_toList.mp hm)
        exact nofun
  | @delivered k o ho hdone =>
    have hk : 0 < k := pos_of_issued (hw.good.issued k o ho).1
    have hvalid : OrderStatus.delivered ≠ .invalid := by decide
    have hsend : Wire.Sendable (.ofOrderStatus .dispOrderUpdate k .delivered) :=
      .orderUpdate (Or.inr rfl) hk hvalid
    refine ⟨_, tell_queue_of_mem hw.registered _, fun m hm => ?_, .one ?_⟩
    · rw [List.mem_singleton.mp hm]
      exact ⟨hsend, nofun⟩
    · rw [turn_sendable hsend, handle_dispOrderUpdate hk hvalid ho, if_pos rfl]
      rfl
  | itemRefused => exact ⟨[], by simp, hnone, .nil⟩
  | orderRefused => exact ⟨[], by simp, hnone, .nil⟩
  | @registered c' =>
    have hne : c ≠ c' := fun he => hop.2.1 (by rw [he])
    refine ⟨[], ?_, hnone, .nil⟩
    rw [List.append_nil]
    exact register_queue_of_ne hne s
  | unregistered => exact ⟨[], by simp, hnone, .nil⟩

/-- The last of its views shows the orders after it. -/
theorem made_getLastD {s s' : Server} {op : Op} {out : Out} (h : Took s op out s') :
    (made (op, out, s, s')).getLastD s.orders = s'.orders := by
  cases h with
  | itemUpdated => exact List.getLastD_concat
  | _ => rfl

/-! ### No view comes twice in a row -/

theorem insert_ne {orders : Orders} {k : Int32} {o o' : Order} (ho : orders[k]? = some o)
    (hne : o' ≠ o) : orders ≠ orders.insert k o' := by
  intro he
  have hnow : orders[k]? = some o' := he ▸ Std.ExtTreeMap.getElem?_insert_self
  exact hne (Option.some.inj (hnow.symm.trans ho))

/-- An update changes the item that it is for. -/
theorem updatedItems_ne {its : List Item} {i : ℕ} {it : Item} {st : ItemStatus}
    (hit : its[i]? = some it) (hst : it.status.Next st) :
    (updatedItems its i st).map some ≠ its.map some := by
  intro he
  have hits : updatedItems its i st = its := (Option.some_injective _).list_map he
  have hget : (updatedItems its i st)[i]? = some (it.setStatus st) := by
    rw [getElem?_updatedItems, if_pos rfl, hit]
    rfl
  rw [hits, hit] at hget
  exact hst.ne (congrArg Item.status (Option.some.inj hget)).symm

theorem between_chain {orders : Orders} {k : Int32} {o : Order} {its : List Item} {i : ℕ} {it : Item}
    {st : ItemStatus} (ho : orders[k]? = some o) (hits : o.items = its.map some)
    (hit : its[i]? = some it) (hst : it.status.Next st) :
    (orders :: (between k orders (orders.insert k (updatedOrder o its i st))
      ++ [orders.insert k (updatedOrder o its i st)])).IsChain (· ≠ ·) := by
  have hitems : ∀ o' : Order, o'.items = (updatedItems its i st).map some → o' ≠ o := by
    rintro o' ho' rfl
    exact updatedItems_ne hit hst (ho'.symm.trans hits)
  rw [between_updated ho]
  cases hu : autoTransition o.status st (updatedItems its i st) with
  | none => exact List.isChain_pair.mpr (insert_ne ho (hitems _ rfl))
  | some u =>
    refine List.isChain_cons_cons.mpr ⟨insert_ne ho (hitems _ rfl), List.isChain_pair.mpr ?_⟩
    let half : Order := { o with items := (updatedItems its i st).map some }
    have hstatus : updatedOrder o its i st ≠ half := by
      intro he
      have hsame : (updatedOrder o its i st).status = half.status := congrArg Order.status he
      rw [updatedOrder, hu, Option.getD_some] at hsame
      exact (autoTransition_next hu).ne hsame
    have hne : orders.insert k half ≠ (orders.insert k half).insert k (updatedOrder o its i st) :=
      insert_ne Std.ExtTreeMap.getElem?_insert_self hstatus
    rw [insert_insert] at hne
    exact hne

/-- STEP: each view of an operation differs from the one before it. -/
theorem made_chain {s s' : Server} {op : Op} {out : Out} (hs : s.Good) (h : Took s op out s') :
    (s.orders :: made (op, out, s, s')).IsChain (· ≠ ·) := by
  cases h with
  | @placed o its hits hmax =>
    refine List.isChain_pair.mpr fun he => ?_
    have hnow : s.orders[s.nextOrderId]? = some (placedOrder s.nextOrderId its) :=
      he ▸ Std.ExtTreeMap.getElem?_insert_self
    exact lt_irrefl _ (hs.issued _ _ hnow).2
  | itemUpdated ho hits hi hit hst => exact between_chain ho hits hit hst
  | @delivered k o ho hdone =>
    refine List.isChain_pair.mpr fun he => ?_
    have hgone : s.orders[k]? = none := he ▸ getElem?_eraseOrder_self s k
    cases hgone.symm.trans ho
  | _ => exact List.isChain_singleton _

/-- Each order comes in once. -/
theorem arrivals_chain (orders : Orders) : (arrivals orders).IsChain (· ≠ ·) := by
  have key : ∀ (pairs : List (Int32 × Order)) (view : Orders),
      (pairs.Pairwise fun p q => p.1 ≠ q.1) → (∀ p ∈ pairs, view[p.1]? = none) →
      (pairs.scanl (fun view p => view.insert p.1 p.2) view).IsChain (· ≠ ·) := by
    intro pairs
    induction pairs with
    | nil => exact fun view _ _ => List.isChain_singleton view
    | cons p pairs ih =>
      intro view hkeys hnew
      obtain ⟨hp, hkeys⟩ := List.pairwise_cons.mp hkeys
      have hrest := ih (view.insert p.1 p.2) hkeys fun q hq => by
        rw [Std.ExtTreeMap.getElem?_insert, if_neg (by simpa using hp q hq)]
        exact hnew q (List.mem_cons_of_mem _ hq)
      have hne : view ≠ view.insert p.1 p.2 := fun he => by
        have hnow : view[p.1]? = some p.2 := he ▸ Std.ExtTreeMap.getElem?_insert_self
        cases hnow.symm.trans (hnew p List.mem_cons_self)
      rw [List.scanl_cons]
      cases pairs with
      | nil => exact List.isChain_pair.mpr hne
      | cons q pairs =>
        rw [List.scanl_cons] at hrest ⊢
        exact List.isChain_cons_cons.mpr ⟨hne, hrest⟩
  refine key _ ∅ (Std.ExtTreeMap.distinct_keys_toList.imp fun hne he => hne ?_) (by simp)
  rw [he]
  exact Std.ReflCmp.compare_self

/-! ### What the orders on a display are like -/

/-- An order that can be sent, under its own id and with this id in its items. -/
structure Displayed (k : Int32) (o : Order) : Prop where
  id : o.id = k
  sendable : Wire.Order.Sendable o
  orderIds : o.All (·.orderId = k)

def AllDisplayed (orders : Orders) : Prop := ∀ (k : Int32) (o : Order), orders[k]? = some o → Displayed k o

theorem AllDisplayed.insert {orders : Orders} (h : AllDisplayed orders) {k : Int32} {o : Order}
    (ho : Displayed k o) : AllDisplayed (orders.insert k o) := by
  intro k' o' hk'
  rw [Std.ExtTreeMap.getElem?_insert] at hk'
  split at hk'
  · next hk =>
    obtain rfl := Std.compare_eq_iff_eq.mp hk
    obtain rfl := Option.some.inj hk'
    exact ho
  · exact h k' o' hk'

/-- STEP: an operation on a decoded order leaves such orders. -/
theorem took_allDisplayed {s s' : Server} {op : Op} {out : Out} (hs : s.Good) (h : AllDisplayed s.orders)
    (hop : ∀ o, op = .newOrder o → Decoded o) (htook : Took s op out s') : AllDisplayed s'.orders := by
  have hsend := took_sendable hs (fun k o ho => (h k o ho).sendable) hop htook
  intro k o' hk
  refine ⟨(htook.good hs).id k o' hk, hsend k o' hk, ?_⟩
  rcases htook.orders hk with hk | ⟨o, its, -, -, rfl, -, rfl⟩ |
    ⟨_, st, o, its, i, it, -, ho, hits, -, -, -, rfl⟩
  · exact (h k o' hk).orderIds
  · exact orderIds_placed _ its
  · exact orderIds_updated hits (h k o ho).orderIds i st

theorem allDisplayed_run {ops : List Op} {outs : List Out} {s : Server}
    (hdec : ∀ o, .newOrder o ∈ ops → Decoded o) (h : machine.run ops = some (outs, s)) :
    s.Good ∧ AllDisplayed s.orders := by
  obtain ⟨hgood, hsend⟩ := sendable_run hdec h
  exact ⟨hgood, fun k o ho => ⟨hgood.id k o ho, hsend k o ho, orderIds_run h k o ho⟩⟩

/-- The orders that come in are such orders, if all of them are. -/
theorem arrivals_allDisplayed {orders : Orders} (h : AllDisplayed orders) :
    ∀ view ∈ arrivals orders, AllDisplayed view := by
  have key : ∀ (pairs : List (Int32 × Order)) (view : Orders), AllDisplayed view →
      (∀ p ∈ pairs, Displayed p.1 p.2) →
      ∀ view' ∈ pairs.scanl (fun view p => view.insert p.1 p.2) view, AllDisplayed view' := by
    intro pairs
    induction pairs with
    | nil =>
      intro view hview _ view' hview'
      rw [List.scanl_nil, List.mem_singleton] at hview'
      exact hview' ▸ hview
    | cons p pairs ih =>
      intro view hview hp view' hview'
      rw [List.scanl_cons, List.mem_cons] at hview'
      rcases hview' with rfl | hview'
      · exact hview
      · exact ih _ (hview.insert (hp p List.mem_cons_self)) (fun q hq => hp q (List.mem_cons_of_mem _ hq))
          view' hview'
  refine key _ ∅ (fun k o ho => by simp at ho) ?_
  rintro ⟨k, o⟩ hp
  exact h k o (Std.ExtTreeMap.mem_toList_iff_getElem?_eq_some.mp hp)

theorem between_allDisplayed {before after : Orders} (h : AllDisplayed before) (h' : AllDisplayed after)
    (k : Int32) : ∀ view ∈ between k before after, AllDisplayed view := by
  intro view hview
  rw [between] at hview
  split at hview
  · next o o' ho ho' =>
    split at hview
    · cases hview
    · obtain rfl := List.mem_singleton.mp hview
      obtain ⟨hid, hsend, hids⟩ := h' k o' ho'
      exact h'.insert ⟨hid, ⟨hsend.id, (h k o ho).sendable.status, hsend.items⟩, hids⟩
  · cases hview

/-- And so are those in the views of an operation, if those before it and behind it are. -/
theorem made_allDisplayed {deed : Deed} (h : AllDisplayed deed.2.2.1.orders)
    (h' : AllDisplayed deed.2.2.2.orders) : ∀ view ∈ made deed, AllDisplayed view := by
  intro view hview
  rw [made.eq_def] at hview
  split at hview
  · exact List.mem_singleton.mp hview ▸ h'
  · rcases List.mem_append.mp hview with hview | hview
    · exact between_allDisplayed h h' _ view hview
    · exact List.mem_singleton.mp hview ▸ h'
  · exact List.mem_singleton.mp hview ▸ h'
  · cases hview

end Restaurant.Display
