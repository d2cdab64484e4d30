import RestaurantOrder.Server.Client
import RestaurantOrder.Server.Completion
import Mathlib.Algebra.Order.BigOperators.Group.List

/-! Can every order that is accepted be shown?

    A frame carries 9998 bytes of text. The text of a DISP_ORDER is longer than that of the ORDER_NEW
    it comes from: the server writes its own id into the order and into every item, and a status grows
    when it becomes IN_PROGRESS. `displaySize k o` is the most that it can grow to, and `shown_iff` is
    the pair

        FITS: no text of the order is longer than `displaySize`;
        REACHED: updates lead to a text of that length, sent to a display that registers then;

    so every DISP_ORDER of the order can be sent exactly if `displaySize` is at most 9998. -/

namespace Restaurant.Server
open Schemes
open Wire (orderStatusToStr itemStatusToStr messageStr orderStr encodeItem)
open Client (Fits Shown)

/-! ### Sizes -/

/-- The bytes of an item in the text of an order. -/
def itemSize (it : Item) : ℕ :=
  (toStr it.orderId).length + (toStr it.id).length + (itemStatusToStr it.status).length
    + it.desc.length + (toStr it.qty).length + 4

/-- The bytes of the text of an order. -/
def orderSize (id : Int32) (status : OrderStatus) (its : List Item) : ℕ :=
  (toStr id).length + (orderStatusToStr status).length + 1 + (its.map fun it => itemSize it + 1).sum

/-- The bytes of `DISP_ORDER|`. -/
def headSize : ℕ := 11

/-- The items once every item that can be started is: it is NEW, and `find_item` reaches it. -/
def started (its : List Item) : List Item :=
  its.mapIdx fun j it =>
    if it.status = .new ∧ position it.id its = some j then it.setStatus .inProgress else it

/-- The bytes of the DISP_ORDER of a received order under the id `k`, with all items that can be
    started IN_PROGRESS, and the order IN_PROGRESS if there are any. -/
def displaySize (k : Int32) (o : Order) : ℕ :=
  let its := o.items.reduceOption
  headSize + orderSize k (if started its = its then .new else .inProgress)
    ((started its).map (·.setOrderId k))

theorem length_encodeItem (it : Item) : (encodeItem it).length = itemSize it := by
  have hsep : ascii ":" = [byte ':'] := rfl
  simp only [encodeItem, hsep, List.length_append, List.length_singleton, itemSize]
  omega

theorem length_join (c : Byte) (ts : List Bytes) (hne : ts ≠ []) :
    (join c ts).length + 1 = (ts.map fun t => t.length + 1).sum := by
  obtain ⟨t, ts, rfl⟩ := List.exists_cons_of_ne_nil hne
  rw [Wire.join_cons_flatMap, List.length_append, List.length_flatMap, List.map_cons, List.sum_cons,
    Nat.add_right_comm]
  rfl

theorem length_orderStr (id : Int32) (status : OrderStatus) {its : List Item} (hne : its ≠ []) :
    (orderStr id status its).length = orderSize id status its := by
  have hitems := length_join (byte ';') (its.map encodeItem) (by simpa using hne)
  have hfields := length_join (byte ',') ([toStr id, orderStatusToStr status,
    join (byte ';') (its.map encodeItem)]) (List.cons_ne_nil _ _)
  simp only [List.map_map, Function.comp_def, length_encodeItem] at hitems
  simp only [List.map_cons, List.map_nil, List.sum_cons, List.sum_nil, hitems] at hfields
  rw [orderStr, orderSize]
  omega

/-- The length of the text of a message with an order. -/
theorem length_messageStr {type : MessageType} (ht : type = .orderNew ∨ type = .dispOrder)
    {o : Order} (its : List Item) (hits : o.items = its.map some) (hne : its ≠ []) :
    (messageStr (.ofOrder type (some o))).length
      = (Wire.messageTypeToStr type).length + 1 + orderSize o.id o.status its := by
  have hpay : Wire.payload (.ofOrder type (some o)) = [orderStr o.id o.status its] := by
    rcases ht with rfl | rfl <;>
      simp only [Wire.payload, Message.ofOrder, hits, Wire.reduceOption_map_some]
  have hjoin := length_join (byte '|') ([Wire.messageTypeToStr type,
    orderStr o.id o.status its]) (List.cons_ne_nil _ _)
  rw [messageStr, hpay, show (Message.ofOrder type (some o)).type = type from rfl]
  simp only [List.map_cons, List.map_nil, List.sum_cons, List.sum_nil,
    length_orderStr o.id o.status hne] at hjoin
  omega

/-- A DISP_ORDER of an order with items fits if its size is at most 9998. -/
theorem fits_dispOrder {o : Order} (its : List Item) (hits : o.items = its.map some)
    (hne : its ≠ []) :
    Fits (.ofOrder .dispOrder (some o)) ↔ headSize + orderSize o.id o.status its ≤ 9998 := by
  have hhead : (Wire.messageTypeToStr .dispOrder).length + 1 = headSize := by decide
  rw [Client.fits_iff, length_messageStr (Or.inr rfl) its hits hne, hhead]
  exact and_iff_right ⟨o, its, rfl, hits, hne⟩

/-- A text is no longer than one with longer statuses. -/
theorem orderSize_le {id : Int32} {status status' : OrderStatus} {its its' : List Item}
    (hstatus : (orderStatusToStr status).length ≤ (orderStatusToStr status').length)
    (hits : List.Forall₂ (fun it it' => itemSize it ≤ itemSize it') its its') :
    orderSize id status its ≤ orderSize id status' its' := by
  have hsum : (its.map fun it => itemSize it + 1).sum ≤ (its'.map fun it => itemSize it + 1).sum := by
    refine List.Forall₂.sum_le_sum ?_
    rw [List.forall₂_map_left_iff, List.forall₂_map_right_iff]
    exact hits.imp fun _ _ h => Nat.add_le_add_right h 1
  rw [orderSize, orderSize]
  omega

/-! ### The largest an order gets -/

theorem getElem?_started (its : List Item) (j : ℕ) :
    (started its)[j]? = its[j]?.map fun it =>
      if it.status = .new ∧ position it.id its = some j then it.setStatus .inProgress else it := by
  rw [started, List.getElem?_mapIdx]

theorem length_started (its : List Item) : (started its).length = its.length := List.length_mapIdx

/-- No item can be started. -/
theorem started_eq_self {its : List Item} : started its = its ↔
    ∀ (j : ℕ) (it : Item), its[j]? = some it → position it.id its = some j → it.status ≠ .new := by
  constructor
  · intro h j it hj hpos hnew
    have hget := getElem?_started its j
    rw [h, hj, Option.map_some, if_pos ⟨hnew, hpos⟩] at hget
    have hst := congrArg Item.status (Option.some.inj hget)
    rw [hnew] at hst
    cases hst
  · intro h
    refine List.ext_getElem? fun j => ?_
    rw [getElem?_started]
    cases hj : its[j]? with
    | none => rfl
    | some it => rw [Option.map_some, if_neg fun hc => h j it hj hc.2 hc.1]

/-- Starting an item that can be started brings the items nearer to all being started. -/
theorem started_start {its : List Item} {itemId : Int32} {i : ℕ} {it : Item}
    (hi : position itemId its = some i) (hit : its[i]? = some it) (hnew : it.status = .new) :
    started (updatedItems its i .inProgress) = started its := by
  obtain ⟨it', hit', rfl⟩ := position_some hi
  obtain rfl : it' = it := Option.some.inj (hit'.symm.trans hit)
  refine List.ext_getElem? fun j => ?_
  rw [getElem?_started, getElem?_started, getElem?_updatedItems]
  by_cases hij : i = j
  · subst hij
    have hold : (it'.setStatus .inProgress).status ≠ .new := nofun
    rw [if_pos rfl, hit, Option.map_some, Option.map_some, Option.map_some,
      if_neg fun hc => hold hc.1, if_pos ⟨hnew, hi⟩]
  · rw [if_neg hij]
    simp only [position_updatedItems]

/-- Finishing an item does not change which items can be started. -/
theorem started_finish {its : List Item} {i : ℕ} {it : Item} (hit : its[i]? = some it)
    (hcur : it.status = .inProgress) :
    started (updatedItems its i .done) = updatedItems (started its) i .done := by
  refine List.ext_getElem? fun j => ?_
  rw [getElem?_started, getElem?_updatedItems, getElem?_updatedItems, getElem?_started]
  simp only [position_updatedItems]
  by_cases hij : i = j
  · subst hij
    have hold : it.status ≠ .new := by rw [hcur]; exact nofun
    have hnew : (it.setStatus .done).status ≠ .new := nofun
    rw [if_pos rfl, if_pos rfl, hit, Option.map_some, Option.map_some, Option.map_some,
      Option.map_some, if_neg fun hc => hnew hc.1, if_neg fun hc => hold hc.1]
  · rw [if_neg hij, if_neg hij]

/-- The order's status once all items that can be started are. -/
def startedStatus (status : OrderStatus) (its : List Item) : OrderStatus :=
  if status = .new ∧ started its ≠ its then .inProgress else status

theorem startedStatus_of_ne {status : OrderStatus} (h : status ≠ .new) (its : List Item) :
    startedStatus status its = status := if_neg fun hc => h hc.1

/-- The size of the order once all items that can be started are. -/
def peakSize (id : Int32) (status : OrderStatus) (its : List Item) : ℕ :=
  orderSize id (startedStatus status its) (started its)

theorem itemSize_setStatus {it : Item} {st : ItemStatus}
    (h : (itemStatusToStr st).length ≤ (itemStatusToStr it.status).length) :
    itemSize (it.setStatus st) ≤ itemSize it := by
  simp only [itemSize, Item.setStatus]
  omega

theorem size_le_started (its : List Item) :
    List.Forall₂ (fun it it' => itemSize it ≤ itemSize it') its (started its) := by
  rw [List.forall₂_iff_get]
  refine ⟨(length_started its).symm, fun j hj hj' => ?_⟩
  simp only [List.get_eq_getElem, started, List.getElem_mapIdx]
  split
  · next hc =>
    have hlen : (itemStatusToStr .new).length ≤ (itemStatusToStr .inProgress).length := by decide
    simp only [itemSize, Item.setStatus, hc.1]
    omega
  · exact le_rfl

/-- An order is no larger than it can get. -/
theorem orderSize_le_peakSize (id : Int32) (status : OrderStatus) (its : List Item) :
    orderSize id status its ≤ peakSize id status its := by
  refine orderSize_le ?_ (size_le_started its)
  rw [startedStatus]
  split
  · next hc => rw [hc.1]; decide
  · exact le_rfl

/-- Starting an item brings the order nearer to the largest it gets. -/
theorem startedStatus_start {o : Order} {its : List Item} {itemId : Int32} {i : ℕ} {it : Item}
    (hi : position itemId its = some i) (hit : its[i]? = some it) (hnew : it.status = .new) :
    startedStatus (updatedOrder o its i .inProgress).status (updatedItems its i .inProgress)
      = startedStatus o.status its := by
  obtain ⟨it', hit', rfl⟩ := position_some hi
  obtain rfl : it' = it := Option.some.inj (hit'.symm.trans hit)
  have hne : started its ≠ its := fun h => started_eq_self.mp h i it' hit hi hnew
  by_cases ho : o.status = .new
  · have hu : (updatedOrder o its i .inProgress).status = .inProgress := by
      simp [updatedOrder, autoTransition, ho]
    rw [hu, startedStatus_of_ne (by decide : OrderStatus.inProgress ≠ .new), startedStatus,
      if_pos ⟨ho, hne⟩]
  · have hu : (updatedOrder o its i .inProgress).status = o.status := by
      simp [updatedOrder, autoTransition, ho]
    rw [hu, startedStatus_of_ne ho, startedStatus_of_ne ho]

/-- Finishing an item does not make the order's status longer than it could get. -/
theorem startedStatus_finish {o : Order} {its : List Item} {i : ℕ} {it : Item}
    (hit : its[i]? = some it) (hcur : it.status = .inProgress) :
    (orderStatusToStr (startedStatus (updatedOrder o its i .done).status
        (updatedItems its i .done))).length
      ≤ (orderStatusToStr (startedStatus o.status its)).length := by
  by_cases ho : o.status = .new
  · have hu : (updatedOrder o its i .done).status = .new := by
      simp [updatedOrder, autoTransition, ho]
    rw [hu, ho]
    by_cases hs : started its = its
    · have hs' : started (updatedItems its i .done) = updatedItems its i .done := by
        rw [started_finish hit hcur, hs]
      rw [startedStatus, startedStatus, if_neg fun hc => hc.2 hs', if_neg fun hc => hc.2 hs]
    · have hpeak : startedStatus .new its = .inProgress := if_pos ⟨rfl, hs⟩
      rw [hpeak, startedStatus]
      split <;> decide
  · have hnew : (updatedOrder o its i .done).status = .done ∧ o.status = .inProgress ∨
        (updatedOrder o its i .done).status = o.status := by
      simp only [updatedOrder]
      cases hu : autoTransition o.status .done (updatedItems its i .done) with
      | none => exact Or.inr rfl
      | some u =>
        rcases autoTransition_eq_some.mp hu with ⟨hc, -⟩ | ⟨-, hold, -, rfl⟩
        · cases hc
        · exact Or.inl ⟨rfl, hold⟩
    rw [startedStatus_of_ne ho]
    rcases hnew with ⟨hu, hold⟩ | hu
    · rw [hu, hold, startedStatus_of_ne (by decide : OrderStatus.done ≠ .new)]
      decide
    · rw [hu, startedStatus_of_ne ho]

/-- FITS: an item update does not make an order larger than it could get before. -/
theorem peakSize_updated {o : Order} {its : List Item} {itemId : Int32} {i : ℕ} {it : Item}
    {st : ItemStatus} (hi : position itemId its = some i) (hit : its[i]? = some it)
    (hst : it.status.Next st) :
    peakSize o.id (updatedOrder o its i st).status (updatedItems its i st)
      ≤ peakSize o.id o.status its := by
  rcases hst with ⟨hcur, rfl⟩ | ⟨hcur, rfl⟩
  · rw [peakSize, peakSize, startedStatus_start hi hit hcur, started_start hi hit hcur]
  · refine orderSize_le (startedStatus_finish hit hcur) ?_
    rw [started_finish hit hcur, List.forall₂_iff_get]
    refine ⟨by simp [updatedItems], fun j hj hj' => ?_⟩
    simp only [List.get_eq_getElem, updatedItems, List.getElem_modify]
    split
    · next hij =>
      subst hij
      have hst : (started its)[i].status = .inProgress := by
        have hget := getElem?_started its i
        have hold : it.status ≠ .new := by rw [hcur]; decide
        rw [hit, Option.map_some, if_neg fun hc => hold hc.1] at hget
        rw [(List.getElem?_eq_some_iff.mp hget).2, hcur]
      exact itemSize_setStatus (by rw [hst]; decide)
    · exact le_rfl

/-! ### Every text fits -/

/-- An order with items, which can get no larger than `B`. -/
def Bounded (B : ℕ) (o : Order) : Prop :=
  ∃ its, o.items = its.map some ∧ its ≠ [] ∧ peakSize o.id o.status its ≤ B

theorem bounded_updated {B : ℕ} {o : Order} {its : List Item} {itemId : Int32} {i : ℕ} {it : Item}
    {st : ItemStatus} (hits : o.items = its.map some) (hi : position itemId its = some i)
    (hit : its[i]? = some it) (hst : it.status.Next st) (h : Bounded B o) :
    Bounded B (updatedOrder o its i st) := by
  obtain ⟨its', hits', hne, hle⟩ := h
  obtain rfl := Order.items_inj hits hits'
  refine ⟨_, rfl, ?_, (peakSize_updated hi hit hst).trans hle⟩
  rw [ne_eq, updatedItems, List.modify_eq_nil_iff]
  exact hne

/-- Every message with order `k` is a DISP_ORDER of a bounded order. -/
def Queued (k : Int32) (B : ℕ) (s : Server) : Prop :=
  ∀ c, ∀ m ∈ s.queue c, ∀ o, m.order = some o → o.id = k →
    m = .ofOrder .dispOrder (some o) ∧ Bounded B o

/-- Once order `k` has been placed it is bounded, where it is stored and in every message. -/
structure Sized (k : Int32) (B : ℕ) (s : Server) : Prop where
  placed : k.toInt < s.nextOrderId.toInt
  stored : ∀ o, s.orders[k]? = some o → Bounded B o
  queued : Queued k B s

theorem Took.queued {k : Int32} {B : ℕ} {s s' : Server} {op : Op} {out : Out} (hs : s.Good)
    (htook : Took s op out s') (h : Queued k B s)
    (hstored : ∀ o, s'.orders[k]? = some o → Bounded B o) : Queued k B s' := by
  intro c m hm o ho hid
  rcases htook.queue hm with hm | hnone | ⟨j, o', ho', rfl⟩
  · exact h c m hm o ho hid
  · rw [hnone] at ho
    cases ho
  · obtain rfl : o' = o := Option.some.inj ho
    obtain rfl : k = j := hid.symm.trans ((htook.good hs).id j o' ho')
    exact ⟨rfl, hstored o' ho'⟩

theorem Took.sized {k : Int32} {B : ℕ} {s s' : Server} {op : Op} {out : Out} (hs : s.Good)
    (h : Sized k B s) (htook : Took s op out s') : Sized k B s' := by
  have hplaced := h.placed
  have hstored : ∀ o, s'.orders[k]? = some o → Bounded B o := by
    intro o' ho'
    rcases htook.orders ho' with ho | ⟨_, _, -, -, rfl, -⟩ |
      ⟨_, _, o, its, i, it, -, ho, hits, hi, hit, hst, rfl⟩
    · exact h.stored o' ho
    · omega
    · exact bounded_updated hits hi hit hst (h.stored o ho)
  refine ⟨?_, hstored, htook.queued hs h.queued hstored⟩
  rcases htook.next with hn | ⟨-, hn⟩ <;> omega

/-- A DISP_ORDER in a queue is of an order that has been placed. -/
theorem queued_run {ops : List Op} {outs : List Out} {s : Server}
    (h : machine.run ops = some (outs, s)) {c : Client} {m : Message} (hm : m ∈ s.queue c) {o : Order}
    (ho : m.order = some o) : o.id.toInt < s.nextOrderId.toInt := by
  refine (run_inv (A := fun _ => True) (P := fun _ _ s => ∀ c, ∀ m ∈ s.queue c, ∀ o, m.order = some o →
    o.id.toInt < s.nextOrderId.toInt) (fun c m hm => absurd hm List.not_mem_nil) ?_
    (fun _ _ => trivial) h).2 c m hm o ho
  intro ops outs s op out s' hq hs _ htook c m hm o ho
  have hnext : s.nextOrderId.toInt ≤ s'.nextOrderId.toInt := by
    rcases htook.next with hn | ⟨-, hn⟩ <;> omega
  rcases htook.queue hm with hm | hnone | ⟨k, o', ho', rfl⟩
  · exact (hq c m hm o ho).trans_le hnext
  · rw [hnone] at ho
    cases ho
  · obtain rfl : o' = o := Option.some.inj ho
    have hgood := htook.good hs
    rw [hgood.id k o' ho']
    exact (hgood.issued k o' ho').2

/-- The size that a received order can get to under the id `k`. -/
def placedSize (k : Int32) (its : List Item) : ℕ := peakSize k .new (its.map (·.setOrderId k))

theorem sized_placed {ops : List Op} {outs : List Out} {s s' : Server} {o : Order} {its : List Item}
    {out : Out} (h : machine.run ops = some (outs, s)) (hits : o.items = its.map some) (hne : its ≠ [])
    (htook : Took s (.newOrder o) out s') :
    Sized s.nextOrderId (placedSize s.nextOrderId its) s' := by
  have hbounded : Bounded (placedSize s.nextOrderId its) (placedOrder s.nextOrderId its) :=
    ⟨_, rfl, by simpa using hne, le_rfl⟩
  -- no message is about the id yet
  have hnone : Queued s.nextOrderId (placedSize s.nextOrderId its) s := by
    intro c m hm o' ho' hid
    exact absurd (queued_run h hm ho') (by rw [hid]; omega)
  have hqueued := htook.queued (run_good h) hnone
  cases htook with
  | @placed _ its' hits' hmax =>
    obtain rfl := Order.items_inj hits hits'
    have hstored : ∀ o', (((({ s with nextOrderId := s.nextOrderId + 1 } : Server).setOrder
        s.nextOrderId (placedOrder s.nextOrderId its)).tell
          [.ofOrder .dispOrder (some (placedOrder s.nextOrderId its))]).orders[s.nextOrderId]?
        = some o') → Bounded (placedSize s.nextOrderId its) o' := by
      intro o' ho'
      rw [tell_orders, getElem?_setOrder_self] at ho'
      exact Option.some.inj ho' ▸ hbounded
    refine ⟨?_, hstored, hqueued hstored⟩
    rw [tell_nextOrderId, setOrder_nextOrderId, toInt_succ hmax]
    omega

/-- FITS: after an order has been placed, its messages stay within the size it can get to. -/
theorem sized_run {pre post : List Op} {o : Order} {its : List Item} (hits : o.items = its.map some)
    (hne : its ≠ []) {outs₀ outs : List Out} {s₀ s : Server}
    (h₀ : machine.run pre = some (outs₀, s₀))
    (h : machine.run (pre ++ .newOrder o :: post) = some (outs, s)) :
    Sized s₀.nextOrderId (placedSize s₀.nextOrderId its) s := by
  obtain ⟨outs₁, s₁, outs₂, hrun₁, hrest, -⟩ := Machine.run_append h
  obtain ⟨rfl, rfl⟩ := Prod.mk.inj (Option.some.inj (h₀.symm.trans hrun₁))
  obtain ⟨out, s₂, outs₃, hstep, hrun₂, -⟩ := Machine.runFrom_cons.mp hrest
  have hgood := run_good h₀
  have htook := step_took hgood hstep
  exact (runFrom_inv (A := fun _ => True)
    (P := fun _ _ s => Sized s₀.nextOrderId (placedSize s₀.nextOrderId its) s) (htook.good hgood)
    (sized_placed h₀ hits hne htook) (fun hsized hs _ htook => htook.sized hs hsized)
    (fun _ _ => trivial) hrun₂).2

/-! ### The largest text is sent -/

/-- REACHED: item updates start all items of a stored order that can be started. The recursion is on
    the updates that its items still need. -/
theorem reach_started {s : Server} {k : Int32} {o : Order} {its : List Item} (hs : s.Good)
    (ho : s.orders[k]? = some o) (hits : o.items = its.map some) :
    ∃ (updates : List (Int32 × ItemStatus)) (outs : List Out) (s' : Server),
      machine.runFrom s (updates.map fun u => .itemUpdate k u.1 u.2) = some (outs, s') ∧ s'.Good ∧
      s'.orders[k]? = some { o with
        status := startedStatus o.status its
        items := (started its).map some } := by
  by_cases h : started its = its
  · refine ⟨[], [], s, rfl, hs, ?_⟩
    have hstatus : startedStatus o.status its = o.status := if_neg fun hc => hc.2 h
    rw [hstatus, h, ← hits, ho]
  · obtain ⟨j, it, hj, hpos, hnew⟩ : ∃ (j : ℕ) (it : Item), its[j]? = some it ∧
        position it.id its = some j ∧ it.status = .new := by
      rw [started_eq_self] at h
      simpa using h
    have hstep := step_itemUpdated ho hits hpos hj (Or.inl ⟨hnew, rfl⟩)
    have hgood := (step_took hs hstep).good hs
    have hless := work_updated hj (Or.inl ⟨hnew, rfl⟩)
    obtain ⟨updates, outs, s', hrun, hgood', hstored⟩ := reach_started hgood
      (by rw [tell_orders, getElem?_setOrder_self]) rfl
    refine ⟨(it.id, .inProgress) :: updates, _, s',
      Machine.runFrom_cons.mpr ⟨_, _, outs, hstep, hrun, rfl⟩, hgood', ?_⟩
    rw [hstored, startedStatus_start hpos hj hnew, started_start hpos hj hnew]
    rfl
termination_by work its

/-! ### All orders that are accepted -/

/-- An order that came in a frame that `receive` accepted, with a text that `decode` turned into an
    ORDER_NEW. -/
def Accepted (o : Order) : Prop :=
  ∃ fd s₀ fd' s m₀ m, exec Framing.receive (fd, s₀) = (.ok (), (fd', s)) ∧
    exec (Wire.decode s) m₀ = (.ok (), m) ∧ m.type = .orderNew ∧ m.order = some o

theorem Accepted.decoded {o : Order} (h : Accepted o) : Wire.Decoded o := by
  obtain ⟨_, _, _, s, m₀, m, -, hdec, htype, ho⟩ := h
  exact ⟨s, m₀, m, hdec, htype, ho⟩

/-- A text that is not too long reaches `decode` in a frame. -/
theorem accepted_of_text {o : Order} {s : Bytes} (hlen : s.length ≤ 9998)
    (hdec : exec (Wire.decode s) {} = (.ok (), .ofOrder .orderNew (some o))) : Accepted o := by
  have hcont := (Framing.Infd.content_data (Framing.frame s) false).trans (List.append_nil _).symm
  obtain ⟨fd', hrun, -⟩ := Framing.exec_receive hcont hlen []
  exact ⟨_, _, fd', s, {}, _, hrun, hdec, rfl, rfl⟩

/-- Which items can be started does not depend on their order ids. -/
theorem started_setOrderId (k : Int32) (its : List Item) :
    started (its.map (·.setOrderId k)) = (started its).map (·.setOrderId k) := by
  have hpos : ∀ itemId, position itemId (its.map (·.setOrderId k)) = position itemId its := by
    intro itemId
    rw [position_eq, position_eq, List.map_map]
    rfl
  refine List.ext_getElem? fun j => ?_
  rw [getElem?_started, List.getElem?_map, List.getElem?_map, getElem?_started]
  cases its[j]? with
  | none => rfl
  | some it =>
    have hsame : ((it.setOrderId k).status = .new ∧
        position (it.setOrderId k).id (its.map (·.setOrderId k)) = some j) ↔
          it.status = .new ∧ position it.id its = some j := by
      rw [hpos]; exact Iff.rfl
    simp only [Option.map_some]
    by_cases hc : it.status = .new ∧ position it.id its = some j
    · rw [if_pos (hsame.mpr hc), if_pos hc]; rfl
    · rw [if_neg (mt hsame.mp hc), if_neg hc]

theorem started_setOrderId_eq_self {k : Int32} {its : List Item} :
    started (its.map (·.setOrderId k)) = its.map (·.setOrderId k) ↔ started its = its := by
  refine ⟨fun h => ?_, fun h => by rw [started_setOrderId, h]⟩
  rw [started_eq_self] at h ⊢
  intro j it hj hpos
  refine h j (it.setOrderId k) (by rw [List.getElem?_map, hj]; rfl) ?_
  rw [position_eq, List.map_map]
  rw [position_eq] at hpos
  exact hpos

theorem displaySize_eq {o : Order} {its : List Item} (hits : o.items = its.map some) (k : Int32) :
    displaySize k o = headSize + placedSize k its := by
  simp only [displaySize, hits, Wire.reduceOption_map_some, placedSize, peakSize, startedStatus]
  by_cases h : started its = its
  · rw [if_pos h, if_neg fun hc => hc.2 (started_setOrderId_eq_self.mpr h), started_setOrderId]
  · rw [if_neg h, if_pos ⟨trivial, fun hc => h (started_setOrderId_eq_self.mp hc)⟩, started_setOrderId]

/-- REACHED: some run sends a DISP_ORDER of the largest size. -/
theorem largest_sent {pre : List Op} {o : Order} {its : List Item} (hits : o.items = its.map some)
    {outs₀ : List Out} {s₀ : Server} (h₀ : machine.run pre = some (outs₀, s₀))
    (hmax : s₀.nextOrderId ≠ Int32.maxValue) :
    ∃ post outs s c, machine.run (pre ++ .newOrder o :: post) = some (outs, s) ∧
      .ofOrder .dispOrder (some ⟨s₀.nextOrderId,
        startedStatus .new (its.map (·.setOrderId s₀.nextOrderId)),
        (started (its.map (·.setOrderId s₀.nextOrderId))).map some⟩) ∈ s.queue c := by
  have hgood := run_good h₀
  obtain ⟨out, s₁, hplace, htook⟩ := step_newOrder hits hmax
  have hgood₁ := htook.good hgood
  have hstored : s₁.orders[s₀.nextOrderId]? = some (placedOrder s₀.nextOrderId its) := by
    cases htook with
    | @placed _ its' hits' _ =>
      obtain rfl := Order.items_inj hits hits'
      rw [tell_orders, getElem?_setOrder_self]
  obtain ⟨updates, outs, s₂, hrun, hgood₂, hpeak⟩ := reach_started hgood₁ hstored rfl
  have hreg := step_registerDisplay hgood₂ 0
  have hpost : machine.runFrom s₁ (updates.map (fun u => .itemUpdate s₀.nextOrderId u.1 u.2)
      ++ [.registerDisplay 0]) = some (outs ++ [.ok none], s₂.register 0) :=
    Machine.runFrom_append.mpr ⟨outs, s₂, _, hrun, Machine.runFrom_one.mpr ⟨_, hreg, rfl⟩, rfl⟩
  refine ⟨_, _, s₂.register 0, 0,
    Machine.runFrom_append.mpr ⟨outs₀, s₀, _, h₀, Machine.runFrom_cons.mpr ⟨_, _, _, hplace, hpost, rfl⟩,
      rfl⟩, ?_⟩
  rw [register_queue_self]
  refine List.mem_append_right _ (List.mem_map.mpr ⟨(s₀.nextOrderId, _), ?_, rfl⟩)
  exact Std.ExtTreeMap.mem_toList_iff_getElem?_eq_some.mpr hpeak

/-- CORRECT: for every order that is accepted, in every state, with whatever id it gets: each
    DISP_ORDER of the order that is enqueued in any run from there on can be shown exactly if the
    largest of them is at most 9998 bytes long. -/
theorem shown_iff {o : Order} (hacc : Accepted o) {pre : List Op} {outs₀ : List Out} {s₀ : Server}
    (h₀ : machine.run pre = some (outs₀, s₀)) (hmax : s₀.nextOrderId ≠ Int32.maxValue) :
    (∀ post outs s, machine.run (pre ++ .newOrder o :: post) = some (outs, s) →
      ∀ c, ∀ m ∈ s.queue c, ∀ o', m.type = .dispOrder → m.order = some o' →
        o'.id = s₀.nextOrderId → Shown m) ↔
    displaySize s₀.nextOrderId o ≤ 9998 := by
  obtain ⟨its, hits, hne, -⟩ := hacc.decoded.sendable.items
  have hne' : started (its.map (·.setOrderId s₀.nextOrderId)) ≠ [] := by
    simpa [started] using hne
  constructor
  · intro hshown
    obtain ⟨post, outs, s, c, hrun, hm⟩ := largest_sent hits h₀ hmax
    have hfits := (hshown post outs s hrun c _ hm _ rfl rfl rfl).fits
    rw [displaySize_eq hits, placedSize, peakSize]
    rwa [fits_dispOrder _ rfl hne'] at hfits
  · intro hle post outs s hrun c m hm o' _ ho' hid
    rw [displaySize_eq hits] at hle
    obtain ⟨rfl, its', hits', hne', hsize⟩ := (sized_run hits hne h₀ hrun).queued c m hm o' ho' hid
    refine ((fits_dispOrder its' hits' hne').mpr ?_).shown
    have := orderSize_le_peakSize o'.id o'.status its'
    omega

/-- The orders of an ordinary size can always be shown. -/
theorem shown_iff_two :
    let o : Order := ⟨1, .new, [some ⟨1, 7, .new, ascii "Samosa", 2⟩]⟩
    ∀ post outs s, machine.run ([] ++ .newOrder o :: post) = some (outs, s) →
      ∀ c, ∀ m ∈ s.queue c, ∀ o', m.type = .dispOrder → m.order = some o' →
        o'.id = 1000 → Shown m := by
  intro o
  have hacc : Accepted o :=
    accepted_of_text (s := ascii "ORDER_NEW|1,NEW,1:7:NEW:Samosa:2") (by decide) (by decide +kernel)
  exact (shown_iff hacc (show machine.run [] = some ([], machine.init) from rfl) (by decide)).mpr (by decide +kernel)

/-- An order of one item whose description has 9972 bytes: its ORDER_NEW takes 9998 bytes and its
    DISP_ORDER 10005. -/
theorem long_order {desc : Bytes} (hplain : Wire.Plain desc) (hlen : desc.length = 9972) :
    Accepted ⟨1, .new, [some ⟨1, 1, .new, desc, 1⟩]⟩ ∧
      ¬Fits (.ofOrder .dispOrder (some ⟨1000, .new, [some ⟨1000, 1, .new, desc, 1⟩]⟩)) := by
  have hsize : ∀ k : Int32, orderSize k .new [⟨k, 1, .new, desc, 1⟩] = 2 * (toStr k).length + 9986 := by
    intro k
    have hone : (toStr 1).length = 1 := by decide
    have hstatus : (orderStatusToStr .new).length = 3 ∧ (itemStatusToStr .new).length = 3 := by decide
    simp only [orderSize, itemSize, List.map_cons, List.map_nil, List.sum_cons, List.sum_nil, hone,
      hstatus.1, hstatus.2, hlen]
    omega
  constructor
  · refine accepted_of_text (s := messageStr (.ofOrder .orderNew
      (some ⟨1, .new, [some ⟨1, 1, .new, desc, 1⟩]⟩))) ?_ (Wire.decode_messageStr (.order (Or.inl rfl) ?_) {})
    · have hone : (toStr 1).length = 1 := by decide
      have hhead : (Wire.messageTypeToStr .orderNew).length = 9 := by decide
      rw [length_messageStr (Or.inl rfl) [⟨1, 1, .new, desc, 1⟩] rfl (List.cons_ne_nil _ _),
        hsize, hone, hhead]
    · have hone : (0 : Int32) < 1 := by decide
      refine ⟨hone, nofun, [⟨1, 1, .new, desc, 1⟩], rfl, List.cons_ne_nil _ _, fun it hit => ?_⟩
      rw [List.mem_singleton.mp hit]
      exact ⟨hone, hone, nofun, hplain, hone⟩
  · have hfour : (toStr 1000).length = 4 := by decide
    rw [fits_dispOrder [⟨1000, 1, .new, desc, 1⟩] rfl (List.cons_ne_nil _ _), hsize, hfour,
      headSize]
    decide

/-- An ORDER_NEW of 9998 bytes is accepted; the DISP_ORDER made of it, sent to a display that waits
    for it, is too long. -/
theorem not_shown_long :
    let o : Order := ⟨1, .new, [some ⟨1, 1, .new, List.replicate 9972 (byte 'a'), 1⟩]⟩
    Accepted o ∧ ∃ outs s m, machine.run [.registerDisplay 1, .newOrder o] = some (outs, s) ∧
      m ∈ s.queue 1 ∧ m.type = .dispOrder ∧ m.order.map Order.id = some 1000 ∧ ¬Shown m := by
  intro o
  have hplain : Wire.Plain (List.replicate 9972 (byte 'a')) := fun b hb => by
    rw [List.eq_of_mem_replicate hb]
    decide
  obtain ⟨hacc, hlong⟩ := long_order hplain List.length_replicate
  have hitems : o.items = [⟨1, 1, .new, List.replicate 9972 (byte 'a'), 1⟩].map some := rfl
  obtain ⟨out, s, hplace, htook⟩ := step_newOrder (s := machine.init.register 1) hitems (by decide)
  refine ⟨hacc, _, s, _, Machine.runFrom_cons.mpr ⟨_, _, _, step_registerDisplay good_init 1,
    Machine.runFrom_one.mpr ⟨_, hplace, rfl⟩, rfl⟩, ?_, rfl, rfl, fun h => hlong h.fits⟩
  cases htook with
  | @placed _ its hits hmax =>
    obtain rfl := Order.items_inj hitems hits
    rw [tell_queue_of_mem (Finset.mem_insert_self 1 _)]
    exact List.mem_append_right _ (List.mem_singleton.mpr rfl)

end Restaurant.Server
