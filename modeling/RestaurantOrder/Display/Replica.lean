import RestaurantOrder.Display.Handlers
import RestaurantOrder.Server.Ids

/-! The display is a replica of the server.

    A client that registers is sent the orders as they are and after that every change, and each
    change that the server makes to its map is what the display's handlers make of the messages sent
    with it (`took_follows`). So the replica scheme applies, with the server's map as the data and the
    client's queue as the log.

        m_orders ──operation──▶ m_orders'
           ‖                       ‖
        display ──its messages──▶ display'          -/

namespace Restaurant.Display
open Schemes Server
open Wire (Decoded)

/-! ### Orders that can be sent -/

theorem pos_of_issued {k : Int32} (h : 1000 ≤ k.toInt) : 0 < k := by
  rw [Int32.lt_iff_toInt_lt, Int32.toInt_zero]; omega

theorem sendable_placed {o : Order} {its : List Item} {id : Int32} (hdec : Decoded o)
    (hits : o.items = its.map some) (hid : 1000 ≤ id.toInt) :
    Wire.Order.Sendable (placedOrder id its) := by
  obtain ⟨hne, hall⟩ := hdec.sendable.of_items hits
  refine ⟨pos_of_issued hid, nofun, _, rfl, by simpa using hne, ?_⟩
  simp only [List.forall_mem_map]
  intro it hit
  have h := hall it hit
  exact ⟨pos_of_issued hid, h.id, h.status, h.desc, h.qty⟩

theorem sendable_updated {o : Order} {its : List Item} {i : ℕ} {it : Item} {st : ItemStatus}
    (hits : o.items = its.map some) (hst : it.status.Next st) (h : Wire.Order.Sendable o) :
    Wire.Order.Sendable (updatedOrder o its i st) := by
  obtain ⟨hne, hall⟩ := h.of_items hits
  have hvalid := hst.ne_invalid
  refine ⟨h.id, ?_, _, rfl, ?_, ?_⟩
  · simp only [updatedOrder]
    cases hu : autoTransition o.status st (updatedItems its i st) with
    | none => exact h.status
    | some u => exact (autoTransition_ne hu).1
  · rw [ne_eq, updatedItems, List.modify_eq_nil_iff]
    exact hne
  · intro it' hit'
    obtain ⟨it₀, hit₀, he⟩ := of_mem_updatedItems hit'
    have h₀ := hall it₀ hit₀
    rcases he with rfl | rfl
    · exact h₀
    · exact ⟨h₀.orderId, h₀.id, hvalid, h₀.desc, h₀.qty⟩

theorem sendable_run {ops : List Op} {outs : List Out} {s : Server}
    (hdec : ∀ o, .newOrder o ∈ ops → Decoded o) (h : machine.run ops = some (outs, s)) :
    s.Good ∧ ∀ (k : Int32) (o : Order), s.orders[k]? = some o → Wire.Order.Sendable o :=
  run_orders (Q := Decoded) (R := fun _ => Wire.Order.Sendable)
    (fun _ _ _ hQ hits hid => sendable_placed hQ hits hid)
    (fun _ _ _ _ _ _ _ hR hits _ _ hst => sendable_updated hits hst hR) hdec h

/-! ### The snapshot -/

theorem turn_dispOrder {o : Order} (h : Wire.Order.Sendable o) (orders : Orders) :
    turn orders (.ofOrder .dispOrder (some o)) = .ok (orders.insert o.id o) := by
  rw [turn_sendable (.order (Or.inr rfl) h), handle_dispOrder h.full]

/-- A snapshot makes an empty display show the orders. -/
theorem display_snapshot {orders : Orders}
    (hid : ∀ (k : Int32) (o : Order), orders[k]? = some o → o.id = k)
    (hsend : ∀ (k : Int32) (o : Order), orders[k]? = some o → Wire.Order.Sendable o) :
    display (snapshot orders) = .ok orders := by
  have key : ∀ (pairs : List (Int32 × Order)) (acc : Orders),
      (∀ p ∈ pairs, p.2.id = p.1 ∧ Wire.Order.Sendable p.2) →
      (pairs.map fun p => Message.ofOrder .dispOrder (some p.2)).foldlM turn acc
        = .ok (pairs.foldl (fun acc p => acc.insert p.1 p.2) acc) := by
    intro pairs
    induction pairs with
    | nil => exact fun _ _ => rfl
    | cons p pairs ih =>
      intro acc hp
      obtain ⟨hpid, hpsend⟩ := hp p List.mem_cons_self
      rw [List.map_cons, List.foldlM_cons, turn_dispOrder hpsend, ok_bind, hpid, List.foldl_cons]
      exact ih _ fun q hq => hp q (List.mem_cons_of_mem _ hq)
  rw [display, snapshot, key _ _ ?_, foldl_insert_toList]
  rintro ⟨k, o⟩ hp
  have ho := Std.ExtTreeMap.mem_toList_iff_getElem?_eq_some.mp hp
  exact ⟨hid k o ho, hsend k o ho⟩

/-! ### One operation -/

theorem insert_insert (orders : Orders) (k : Int32) (o o' : Order) :
    (orders.insert k o).insert k o' = orders.insert k o' :=
  congrArg Server.orders (setOrder_setOrder { orders } k o o')

/-- The id that `find_item` finds an item by is one that can be sent. -/
theorem pos_of_position {o : Order} {its : List Item} {itemId : Int32} {i : ℕ}
    (h : Wire.Order.Sendable o) (hits : o.items = its.map some) (hi : position itemId its = some i) :
    0 < itemId := by
  obtain ⟨it, hit, rfl⟩ := position_some hi
  exact ((h.of_items hits).2 it (List.mem_of_getElem? hit)).id

/-- The messages of an item update make of the order what the server made of it. -/
theorem turn_updateMessages {orders : Orders} {k itemId : Int32} {st : ItemStatus} {o : Order}
    {its : List Item} {i : ℕ} {it : Item} (ho : orders[k]? = some o) (hid : o.id = k)
    (hsend : Wire.Order.Sendable o) (hits : o.items = its.map some)
    (hi : position itemId its = some i) (hst : it.status.Next st) :
    (updateMessages k itemId st (autoTransition o.status st (updatedItems its i st))).foldlM turn
      orders = .ok (orders.insert k (updatedOrder o its i st)) := by
  have hk : 0 < k := hid ▸ hsend.id
  have hvalid := hst.ne_invalid
  have hitem := pos_of_position hsend hits hi
  have hfirst : turn orders (.ofItemStatus .dispItemUpdate k itemId st)
      = .ok (orders.insert k { o with items := (updatedItems its i st).map some }) := by
    rw [turn_sendable (.itemUpdate (Or.inr rfl) hk hitem hvalid),
      handle_dispItemUpdate hk hitem hvalid ho (by rw [findItem_eq hits, hi]),
      setItemStatus_eq hits]
  rw [updateMessages, List.foldlM_cons, hfirst, ok_bind, updatedOrder]
  cases hu : autoTransition o.status st (updatedItems its i st) with
  | none => rfl
  | some u =>
    obtain ⟨hvalid', hlive⟩ := autoTransition_ne hu
    have hnow : (orders.insert k { o with items := (updatedItems its i st).map some })[k]?
        = some { o with items := (updatedItems its i st).map some } :=
      Std.ExtTreeMap.getElem?_insert_self
    simp only [Option.map_some, Option.toList_some, List.foldlM_cons, List.foldlM_nil]
    rw [turn_sendable (.orderUpdate (Or.inr rfl) hk hvalid'),
      handle_dispOrderUpdate hk hvalid' hnow, if_neg hlive, insert_insert]
    rfl

/-- The state of a client that is being sent every change. -/
structure Watched (c : Client) (s : Server) : Prop where
  good : s.Good
  sendable : ∀ (k : Int32) (o : Order), s.orders[k]? = some o → Wire.Order.Sendable o
  registered : c ∈ s.displayClients

/-- Operations on decoded orders that do not register or unregister the client. -/
def Apart (c : Client) (op : Op) : Prop :=
  (∀ o, op = .newOrder o → Decoded o) ∧ op ≠ .registerDisplay c ∧ op ≠ .unregisterDisplay c

theorem took_sendable {s s' : Server} {op : Op} {out : Out} (hs : s.Good)
    (hsend : ∀ (k : Int32) (o : Order), s.orders[k]? = some o → Wire.Order.Sendable o)
    (hop : ∀ o, op = .newOrder o → Decoded o) (h : Took s op out s') :
    ∀ (k : Int32) (o : Order), s'.orders[k]? = some o → Wire.Order.Sendable o := by
  intro k o' hk
  rcases h.orders hk with hk | ⟨o, its, rfl, hits, rfl, -, rfl⟩ |
    ⟨_, st, o, its, i, it, -, ho, hits, -, -, hst, rfl⟩
  · exact hsend k o' hk
  · exact sendable_placed (hop o rfl) hits hs.next
  · exact sendable_updated hits hst (hsend k o ho)

/-- FOLLOW: the messages that an operation puts in the client's queue take a display of the orders
    before it to a display of the orders after it. -/
theorem took_follows {c : Client} {s s' : Server} {op : Op} {out : Out} (hw : Watched c s)
    (hop : Apart c op) (h : Took s op out s') :
    Watched c s' ∧ ∃ ms, s'.queue c = s.queue c ++ ms ∧
      ms.foldlM turn s.orders = Except.ok s'.orders := by
  have hsend' := took_sendable hw.good hw.sendable hop.1 h
  have hgood' := h.good hw.good
  cases h with
  | @placed o its hits hmax =>
    refine ⟨⟨hgood', hsend', hw.registered⟩, _, tell_queue_of_mem hw.registered _, ?_⟩
    simp only [List.foldlM_cons, List.foldlM_nil]
    rw [turn_dispOrder (sendable_placed (hop.1 o rfl) hits hw.good.next)]
    rfl
  | itemUpdated ho hits hi hit hst =>
    refine ⟨⟨hgood', hsend', hw.registered⟩, _, tell_queue_of_mem hw.registered _, ?_⟩
    exact turn_updateMessages ho (hw.good.id _ _ ho) (hw.sendable _ _ ho) hits hi hst
  | @delivered k o ho hdone =>
    refine ⟨⟨hgood', hsend', hw.registered⟩, _, tell_queue_of_mem hw.registered _, ?_⟩
    have hk : 0 < k := pos_of_issued (hw.good.issued k o ho).1
    simp only [List.foldlM_cons, List.foldlM_nil]
    have hvalid : OrderStatus.delivered ≠ .invalid := by decide
    rw [turn_sendable (.orderUpdate (Or.inr rfl) hk hvalid),
      handle_dispOrderUpdate hk hvalid ho, if_pos rfl]
    rfl
  | itemRefused => exact ⟨hw, [], by simp, rfl⟩
  | orderRefused => exact ⟨hw, [], by simp, rfl⟩
  | @registered c' =>
    have hne : c ≠ c' := fun he => hop.2.1 (by rw [he])
    refine ⟨⟨hgood', hsend', Finset.mem_insert_of_mem hw.registered⟩, [], ?_, rfl⟩
    rw [List.append_nil]
    exact register_queue_of_ne hne s
  | @unregistered c' =>
    have hne : c ≠ c' := fun he => hop.2.2 (by rw [he])
    exact ⟨⟨hgood', hsend', Finset.mem_erase.mpr ⟨hne, hw.registered⟩⟩, [], by simp, rfl⟩

/-! ### Whole runs -/

/-- What a client has been sent since it registered makes a display of the orders. -/
theorem display_run {pre post : List Op} {c : Client}
    (hdec : ∀ o, .newOrder o ∈ pre ++ post → Decoded o) (hpre : .registerDisplay c ∉ pre)
    (hpost : .registerDisplay c ∉ post) (hstay : .unregisterDisplay c ∉ post) {outs : List Out}
    {s : Server} (h : machine.run (pre ++ .registerDisplay c :: post) = some (outs, s)) :
    display (s.queue c) = .ok s.orders := by
  obtain ⟨outs₁, s₁, outs₂, hrun₁, hgood, hgood₂, hqueue, hrun₂⟩ := registered_run hpre h
  have hsend := (sendable_run (fun o ho => hdec o (List.mem_append_left _ ho)) hrun₁).2
  have hwatched : Watched c (s₁.register c) := ⟨hgood₂, hsend, Finset.mem_insert_self c _⟩
  obtain ⟨-, ms, hms, hdata⟩ := follows (M := machine) (Watched c) (Apart c) Server.orders
    (fun s => s.queue c) turn
    (fun s op out s' hw hop hs => took_follows hw hop (step_took hw.good hs)) hwatched
    (fun op hop => ⟨fun o ho => hdec o (List.mem_append_right _ (ho ▸ hop)),
      fun he => hpost (he ▸ hop), fun he => hstay (he ▸ hop)⟩) hrun₂
  have hshow : display (snapshot s₁.orders) = .ok s₁.orders :=
    display_snapshot (fun k o => hgood.id k o) hsend
  rw [hms, hqueue, display, List.foldlM_append]
  rw [display] at hshow
  rw [hshow, ok_bind]
  exact hdata

/-- Heartbeats in a stream show nothing. -/
theorem display_heartbeats (stream : List Message) :
    display stream = display (stream.filter (· ≠ .ofType .dispHeartbeat)) := by
  have h := foldlM_filter turn (· = .ofType .dispHeartbeat)
    (fun m hm orders => by rw [of_decide_eq_true hm]; exact turn_heartbeat orders) stream ∅
  simpa only [display, decide_not] using h

/-- CORRECT: the display refines the server. A client registers once, anywhere in a run of any
    length, and stays; then after each operation the messages that were put in its queue, with
    heartbeats anywhere among them and each encoded and decoded on the way, take an empty display to
    the orders of the server, and no handler throws. -/
theorem display_refines {pre post : List Op} {c : Client}
    (hdec : ∀ o, .newOrder o ∈ pre ++ post → Decoded o)
    (hcount : created (pre ++ post) < 2 ^ 31 - 1000) (hpre : .registerDisplay c ∉ pre)
    (hpost : .registerDisplay c ∉ post) (hstay : .unregisterDisplay c ∉ post) (n : ℕ) :
    ∃ outs s, machine.run (pre ++ .registerDisplay c :: post.take n) = some (outs, s) ∧
      ∀ stream, stream.filter (· ≠ .ofType .dispHeartbeat) = s.queue c →
        display stream = .ok s.orders := by
  have htake : post.take n ⊆ post := List.take_subset n post
  have hnew : ∀ o, .newOrder o ∈ pre ++ .registerDisplay c :: post.take n →
      .newOrder o ∈ pre ++ post := by
    intro o ho
    simp only [List.mem_append, List.mem_cons, reduceCtorEq, false_or] at ho ⊢
    exact ho.imp_right fun h => htake h
  have hfewer : created (pre ++ .registerDisplay c :: post.take n) ≤ created (pre ++ post) := by
    have hle : created (post.take n) ≤ created post :=
      (List.take_sublist n post).countP_le
    simp only [created, List.countP_append, List.countP_cons] at hle ⊢
    simpa using hle
  obtain ⟨outs, s, hrun⟩ := run_exists _ (fun o ho => (hdec o (hnew o ho)).sendable.full)
    (hfewer.trans_lt hcount)
  refine ⟨outs, s, hrun, fun stream hstream => ?_⟩
  rw [display_heartbeats, hstream]
  refine display_run (fun o ho => hdec o ?_) hpre (fun h => hpost (htake h))
    (fun h => hstay (htake h)) hrun
  rw [List.mem_append] at ho ⊢
  exact ho.imp_right fun h => htake h

/-- A client registers between two orders and sees the first one being served. -/
theorem display_refines_two :
    let o : Order := ⟨1, .new, [some ⟨1, 7, .new, ascii "Samosa", 2⟩]⟩
    let pre : List Op := [.newOrder o]
    let post : List Op := [.newOrder o, .itemUpdate 1000 7 .inProgress, .itemUpdate 1000 7 .done]
    ∃ outs s, machine.run (pre ++ .registerDisplay 1 :: post.take 2) = some (outs, s) ∧
      ∀ stream, stream.filter (· ≠ .ofType .dispHeartbeat) = s.queue 1 →
        display stream = .ok s.orders := by
  intro o pre post
  have hdec : Decoded o := ⟨ascii "ORDER_NEW|1,NEW,1:7:NEW:Samosa:2", {}, .ofOrder .orderNew (some o),
    by decide +kernel, rfl, rfl⟩
  have hmem : ∀ o', .newOrder o' ∈ pre ++ post → o' = o := by simp [pre, post]
  exact display_refines (fun o' ho => hmem o' ho ▸ hdec) (by decide) (by decide) (by decide)
    (by decide) 2

end Restaurant.Display
