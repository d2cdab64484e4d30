import RestaurantOrder.Display.Replica
import RestaurantOrder.Server.Lifecycle

/-! What is stored and what is queued stays well formed.

    The decoder makes orders with at least one item and valid fields, `process_new_order` gives an
    order and all its items the next id, updates touch nothing but statuses, and what is queued is
    made of stored orders and of ids and statuses that an update has checked.

        decode ──▶ new order ──id, NEW──▶ m_orders ──updates──▶ m_orders
                                             │                    │
                                          DISP_ORDER        DISP_..._UPDATE  ──▶ queues

    CORRECT: `stored_well_formed`, for every run on decoded orders. -/

namespace Restaurant.Display
open Schemes Server
open Wire (Decoded encode decode)

/-- An item of a well formed order with the id `k`. -/
structure WellFormedItem (k : Int32) (it : Item) : Prop where
  orderId : it.orderId = k
  id : 0 < it.id
  status : it.status ≠ .invalid
  desc : Wire.Plain it.desc
  qty : 0 < it.qty

/-- What holds of the order stored under `k`. -/
structure WellFormed (s : Server) (k : Int32) (o : Order) : Prop where
  issued : 1000 ≤ k.toInt ∧ k.toInt < s.nextOrderId.toInt
  id : o.id = k
  status : o.status = .new ∨ o.status = .inProgress ∨ o.status = .done
  items : ∃ its, o.items = its.map some ∧ its ≠ [] ∧ ∀ it ∈ its, WellFormedItem k it

/-! ### Order ids of items -/

theorem orderIds_placed (id : Int32) (its : List Item) :
    (placedOrder id its).All (·.orderId = id) := by
  intro it hit
  simp only [placedOrder, List.mem_map, Option.some.injEq, exists_eq_right] at hit
  obtain ⟨it₀, -, rfl⟩ := hit
  rfl

theorem orderIds_updated {k : Int32} {o : Order} {its : List Item} (hits : o.items = its.map some)
    (h : o.All (·.orderId = k)) (i : ℕ) (st : ItemStatus) :
    (updatedOrder o its i st).All (·.orderId = k) := by
  intro it' hit'
  simp only [updatedOrder, List.mem_map, Option.some.injEq, exists_eq_right] at hit'
  obtain ⟨it, hit, he⟩ := of_mem_updatedItems hit'
  have hid : it.orderId = k := h it (by rw [hits]; exact List.mem_map_of_mem hit)
  rcases he with rfl | rfl
  · exact hid
  · exact hid

theorem orderIds_run {ops : List Op} {outs : List Out} {s : Server}
    (h : machine.run ops = some (outs, s)) :
    ∀ (k : Int32) (o : Order), s.orders[k]? = some o → o.All (·.orderId = k) :=
  (run_orders (Q := fun _ => True) (R := fun k o => o.All (·.orderId = k))
    (fun _ its id _ _ _ => orderIds_placed id its)
    (fun _ _ _ _ i _ st hR hits _ _ _ => orderIds_updated hits hR i st) (fun _ _ => trivial) h).2

/-! ### Queues -/

/-- The messages of an item update can be sent. -/
theorem sendable_updateMessages {k itemId : Int32} {st cur : ItemStatus} {u : Option OrderStatus}
    (hk : 0 < k) (hi : 0 < itemId) (hst : cur.Next st) (hu : ∀ u' ∈ u, u' ≠ .invalid) :
    ∀ m ∈ updateMessages k itemId st u, Wire.Sendable m := by
  intro m hm
  rcases List.mem_cons.mp hm with rfl | hm
  · exact .itemUpdate (Or.inr rfl) hk hi hst.ne_invalid
  · obtain ⟨u', hu', rfl⟩ := Option.map_eq_some_iff.mp (Option.mem_toList.mp hm)
    exact .orderUpdate (Or.inr rfl) hk (hu u' hu')

/-- QUEUES: what an operation puts in a queue can be sent. -/
theorem took_queue_sendable {s s' : Server} {op : Op} {out : Out} (hs : s.Good)
    (hsend : ∀ (k : Int32) (o : Order), s.orders[k]? = some o → Wire.Order.Sendable o)
    (hop : ∀ o, op = .newOrder o → Decoded o) (h : Took s op out s') {c : Client} {m : Message}
    (hm : m ∈ s'.queue c) : m ∈ s.queue c ∨ Wire.Sendable m := by
  have hpos : ∀ {k : Int32} {o : Order}, s.orders[k]? = some o → 0 < k := fun ho =>
    pos_of_issued (hs.issued _ _ ho).1
  cases h with
  | @placed o its hits hmax =>
    refine (mem_tell hm).imp_right fun hm => ?_
    rw [List.mem_singleton.mp hm]
    exact .order (Or.inr rfl) (sendable_placed (hop o rfl) hits hs.next)
  | @itemUpdated k itemId st o its i it ho hits hi hit hst =>
    refine (mem_tell hm).imp_right fun hm => ?_
    have hitem := pos_of_position (hsend k o ho) hits hi
    exact sendable_updateMessages (hpos ho) hitem hst (fun u hu => (autoTransition_ne hu).1) m hm
  | delivered ho hdone =>
    refine (mem_tell hm).imp_right fun hm => ?_
    rw [List.mem_singleton.mp hm]
    exact .orderUpdate (Or.inr rfl) (hpos ho) (by decide)
  | itemRefused => exact Or.inl hm
  | orderRefused => exact Or.inl hm
  | @registered c' =>
    by_cases hc : c = c'
    · subst hc
      rw [register_queue_self, List.mem_append] at hm
      refine hm.imp_right fun hm => ?_
      obtain ⟨⟨k, o⟩, hp, rfl⟩ := List.mem_map.mp hm
      exact .order (Or.inr rfl) (hsend k o (Std.ExtTreeMap.mem_toList_iff_getElem?_eq_some.mp hp))
    · rw [register_queue_of_ne hc] at hm
      exact Or.inl hm
  | unregistered => exact Or.inl hm

theorem queue_sendable_run {ops : List Op} {outs : List Out} {s : Server}
    (hdec : ∀ o, .newOrder o ∈ ops → Decoded o) (h : machine.run ops = some (outs, s)) :
    ∀ c, ∀ m ∈ s.queue c, Wire.Sendable m := by
  refine (run_inv (A := fun op => ∀ o, op = .newOrder o → Decoded o)
    (P := fun _ _ s => (∀ (k : Int32) (o : Order), s.orders[k]? = some o → Wire.Order.Sendable o) ∧
      ∀ c, ∀ m ∈ s.queue c, Wire.Sendable m) ?_ ?_ ?_ h).2.2
  · exact ⟨fun k o h => by simp [machine] at h, fun c m hm => by simp [machine] at hm⟩
  · rintro ops outs s op out s' ⟨hsend, hqueue⟩ hs hop htook
    refine ⟨took_sendable hs hsend hop htook, fun c m hm => ?_⟩
    rcases took_queue_sendable hs hsend hop htook hm with hm | hm
    · exact hqueue c m hm
    · exact hm
  · rintro _ hop o rfl
    exact hdec o hop

/-! ### Whole runs -/

theorem wellFormed_of {s : Server} {k : Int32} {o : Order} (hs : Alive s)
    (ho : s.orders[k]? = some o) (hsend : Wire.Order.Sendable o) (hids : o.All (·.orderId = k)) :
    WellFormed s k o := by
  obtain ⟨its, hits, hne, hall⟩ := hsend.items
  refine ⟨hs.good.issued k o ho, hs.good.id k o ho, hs.live k o ho, its, hits, hne, fun it hit => ?_⟩
  have hitem := hall it hit
  have hmem : some it ∈ o.items := by rw [hits]; exact List.mem_map_of_mem hit
  exact ⟨hids it hmem, hitem.id, hitem.status, hitem.desc, hitem.qty⟩

/-- CORRECT: in every state reached by operations on decoded orders, fewer than 2^31 - 1000 of them
    created, each stored order is well formed, and each message in a queue survives encoding and
    decoding unchanged, whatever the string and the message it is written to held before. -/
theorem stored_well_formed {ops : List Op} (hdec : ∀ o, .newOrder o ∈ ops → Decoded o)
    (hcount : created ops < 2 ^ 31 - 1000) :
    ∃ outs s, machine.run ops = some (outs, s) ∧
      (∀ (k : Int32) (o : Order), s.orders[k]? = some o → WellFormed s k o) ∧
      ∀ c, ∀ m ∈ s.queue c, Wire.Sendable m ∧
        ∃ str, (∀ r, exec (encode m) r = (.ok (), str)) ∧ ∀ m₀, exec (decode str) m₀ = (.ok (), m) := by
  obtain ⟨outs, s, hrun⟩ := run_exists ops (fun o ho => (hdec o ho).sendable.full) hcount
  have hsend := (sendable_run hdec hrun).2
  refine ⟨outs, s, hrun, fun k o ho => ?_, fun c m hm => ?_⟩
  · exact wellFormed_of (alive_run hrun) ho (hsend k o ho) (orderIds_run hrun k o ho)
  · have hm := queue_sendable_run hdec hrun c m hm
    exact ⟨hm, Wire.decode_encode hm⟩

/-- The client wrote other order ids into its order. -/
theorem stored_well_formed_two :
    let o : Order := ⟨1, .delivered, [some ⟨5, 7, .new, ascii "Samosa", 2⟩, some ⟨6, 8, .done, [], 1⟩]⟩
    let ops : List Op := [.registerDisplay 0, .newOrder o, .itemUpdate 1000 7 .inProgress,
      .registerDisplay 1]
    ∃ outs s, machine.run ops = some (outs, s) ∧
      (∀ (k : Int32) (o : Order), s.orders[k]? = some o → WellFormed s k o) ∧
      ∀ c, ∀ m ∈ s.queue c, Wire.Sendable m ∧
        ∃ str, (∀ r, exec (encode m) r = (.ok (), str)) ∧
          ∀ m₀, exec (decode str) m₀ = (.ok (), m) := by
  intro o ops
  have hdec : Decoded o := ⟨ascii "ORDER_NEW|1,DELIVERED,5:7:NEW:Samosa:2;6:8:DONE::1", {},
    .ofOrder .orderNew (some o), by decide +kernel, rfl, rfl⟩
  refine stored_well_formed (fun o' ho => ?_) (by decide)
  obtain rfl : o' = o := by simpa [ops] using ho
  exact hdec

end Restaurant.Display
