import RestaurantOrder.Server.Ids

/-! The life of an order, in the map and in the stream of every display.

        not there ──▶ NEW ──▶ IN_PROGRESS ──▶ DONE ──▶ gone

    An operation moves an order at most one status further, and an item too. A display is sent the
    order with the status it has at that moment and from then on each status that follows, one by one,
    up to DELIVERED: `Stream k ms st` says that the messages `ms` about order `k` have told its life
    up to the status `st`.

    CORRECT: `lives_forward`, for every run. -/

namespace Restaurant
open Schemes

/-- One order status further. -/
def OrderStatus.Next (cur st : OrderStatus) : Prop :=
  cur = .new ∧ st = .inProgress ∨ cur = .inProgress ∧ st = .done ∨ cur = .done ∧ st = .delivered

theorem OrderStatus.Next.ne {cur st : OrderStatus} (h : cur.Next st) : st ≠ cur := by
  rcases h with ⟨rfl, rfl⟩ | ⟨rfl, rfl⟩ | ⟨rfl, rfl⟩ <;> exact nofun

namespace Server

/-! ### In the map -/

/-- The status of a stored order. -/
def Live (o : Order) : Prop := o.status = .new ∨ o.status = .inProgress ∨ o.status = .done

theorem autoTransition_next {status u : OrderStatus} {st : ItemStatus} {its : List Item}
    (h : autoTransition status st its = some u) : status.Next u := by
  rcases autoTransition_eq_some.mp h with ⟨-, rfl, rfl⟩ | ⟨-, rfl, -, rfl⟩
  · exact Or.inl ⟨rfl, rfl⟩
  · exact Or.inr (Or.inl ⟨rfl, rfl⟩)

/-- An item update keeps the order's status or moves it one further. -/
theorem updatedOrder_status (o : Order) (its : List Item) (i : ℕ) (st : ItemStatus) :
    (updatedOrder o its i st).status = o.status ∨
      o.status.Next (updatedOrder o its i st).status ∧
        (updatedOrder o its i st).status ≠ .delivered := by
  simp only [updatedOrder]
  cases hu : autoTransition o.status st (updatedItems its i st) with
  | none => exact Or.inl rfl
  | some u => exact Or.inr ⟨autoTransition_next hu, (autoTransition_ne hu).2⟩

theorem live_updated {o : Order} {its : List Item} {i : ℕ} {st : ItemStatus} (h : Live o) :
    Live (updatedOrder o its i st) := by
  rcases updatedOrder_status o its i st with he | ⟨hn, hd⟩
  · rw [Live, he]; exact h
  · rcases hn with ⟨-, he⟩ | ⟨-, he⟩ | ⟨-, he⟩
    · exact Or.inr (Or.inl he)
    · exact Or.inr (Or.inr he)
    · exact absurd he hd

/-- What holds of every state reached, with the statuses of the stored orders. -/
structure Alive (s : Server) : Prop where
  good : s.Good
  live : ∀ (k : Int32) (o : Order), s.orders[k]? = some o → Live o

theorem alive_init : Alive machine.init := ⟨good_init, fun k o h => by simp [machine] at h⟩

theorem Took.alive {s s' : Server} {op : Op} {out : Out} (h : Took s op out s') (hs : Alive s) :
    Alive s' := by
  refine ⟨h.good hs.good, fun k o' hk => ?_⟩
  rcases h.orders hk with hk | ⟨_, _, -, -, -, -, rfl⟩ | ⟨_, _, o, _, _, _, -, ho, -, -, -, -, rfl⟩
  · exact hs.live k o' hk
  · exact Or.inl rfl
  · exact live_updated (hs.live k o ho)

/-- The ladder that an order climbs, as its status is seen in the map. -/
def rungs : List (Option OrderStatus) := [none, some .new, some .inProgress, some .done, none]

/-- The status of order `k` in the map. -/
def statusIn (k : Int32) (s : Server) : Option OrderStatus := s.orders[k]?.map (·.status)

/-- Order `k` is on rung `n` of its ladder. On the first and the last rung it is not stored; they
    differ in whether its id has been given out. -/
structure Rung (k : Int32) (s : Server) (n : ℕ) : Prop where
  alive : Alive s
  observed : rungs[n]? = some (statusIn k s)
  unissued : statusIn k s = none → (n = 0 ↔ s.nextOrderId.toInt ≤ k.toInt)

theorem statusIn_some {k : Int32} {s : Server} {o : Order} (h : s.orders[k]? = some o) :
    statusIn k s = some o.status := by
  rw [statusIn, h]
  rfl

/-- Each status has its rung. -/
theorem rung_of_live {n : ℕ} {st : OrderStatus} (h : rungs[n]? = some (some st)) :
    n = 1 ∧ st = .new ∨ n = 2 ∧ st = .inProgress ∨ n = 3 ∧ st = .done := by
  have hn : n < 5 := (List.getElem?_eq_some_iff.mp h).1
  interval_cases n <;> simp_all [rungs]

/-- A stored order that is stored afterwards stays on its rung or goes to the next. -/
theorem rung_of_status {k : Int32} {s s' : Server} {o o' : Order} {n : ℕ} (h : Rung k s n)
    (hs' : Alive s') (ho : s.orders[k]? = some o) (ho' : s'.orders[k]? = some o')
    (hmove : o'.status = o.status ∨ o.status.Next o'.status ∧ o'.status ≠ .delivered) :
    Rung k s' n ∨ Rung k s' (n + 1) := by
  have hobs := h.observed
  rw [statusIn_some ho] at hobs
  have hseen := statusIn_some ho'
  have hstored : ∀ m : ℕ, statusIn k s' = none → (m = 0 ↔ s'.nextOrderId.toInt ≤ k.toInt) := by
    intro m hnone
    rw [hseen] at hnone
    cases hnone
  rcases hmove with he | ⟨hnext, hlive⟩
  · exact Or.inl ⟨hs', by rw [hseen, he]; exact hobs, hstored n⟩
  · refine Or.inr ⟨hs', ?_, hstored _⟩
    rw [hseen]
    rcases rung_of_live hobs with ⟨rfl, hst⟩ | ⟨rfl, hst⟩ | ⟨rfl, hst⟩ <;>
      rcases hnext with ⟨hcur, he⟩ | ⟨hcur, he⟩ | ⟨hcur, he⟩ <;> rw [hcur] at hst <;> try cases hst
    · rw [he]; rfl
    · rw [he]; rfl
    · exact absurd he hlive

/-- Nothing about order `k` changes. -/
theorem rung_of_same {k : Int32} {s s' : Server} {n : ℕ} (h : Rung k s n) (hs' : Alive s')
    (hk : s'.orders[k]? = s.orders[k]?)
    (hnext : s.nextOrderId.toInt ≤ k.toInt ↔ s'.nextOrderId.toInt ≤ k.toInt) : Rung k s' n := by
  have hsame : statusIn k s' = statusIn k s := by rw [statusIn, statusIn, hk]
  refine ⟨hs', by rw [hsame]; exact h.observed, fun hnone => ?_⟩
  rw [← hnext]
  exact h.unissued (hsame.symm.trans hnone)

/-- An operation leaves an order on its rung or takes it to the next. -/
theorem Took.climbs {k : Int32} {s s' : Server} {op : Op} {out : Out} {n : ℕ} (h : Rung k s n)
    (htook : Took s op out s') : Rung k s' n ∨ Rung k s' (n + 1) := by
  have hs := h.alive
  have hs' := htook.alive hs
  cases htook with
  | @placed o its hits hmax =>
    have hnext := toInt_succ hmax
    by_cases hk : s.nextOrderId = k
    · subst hk
      -- the id was not given out, so the order is on the first rung
      have hnone : statusIn s.nextOrderId s = none := by
        rw [statusIn, Option.map_eq_none_iff, Option.eq_none_iff_forall_ne_some]
        exact fun o' ho' => absurd (hs.good.issued _ o' ho').2 (by omega)
      obtain rfl : n = 0 := (h.unissued hnone).mpr le_rfl
      have hstored := getElem?_setOrder_self { s with nextOrderId := s.nextOrderId + 1 }
        s.nextOrderId (placedOrder s.nextOrderId its)
      have hseen := statusIn_some hstored
      exact Or.inr ⟨hs', congrArg some hseen.symm, fun hn => nomatch hseen.symm.trans hn⟩
    · refine Or.inl (rung_of_same h hs' ?_ ?_)
      · rw [tell_orders, getElem?_setOrder, if_neg hk]
      · have hne : s.nextOrderId.toInt ≠ k.toInt := fun he => hk (Int32.toInt_inj.mp he)
        rw [tell_nextOrderId, setOrder_nextOrderId]
        simp only [hnext]
        omega
  | @itemUpdated k' itemId st o its i it ho hits hi hit hst =>
    by_cases hk : k' = k
    · subst hk
      exact rung_of_status h hs' ho (by rw [tell_orders, getElem?_setOrder_self])
        (updatedOrder_status o its i st)
    · exact Or.inl (rung_of_same h hs' (by rw [tell_orders, getElem?_setOrder, if_neg hk]) Iff.rfl)
  | @delivered k' o ho hdone =>
    by_cases hk : k' = k
    · subst hk
      have hobs := h.observed
      rw [statusIn_some ho] at hobs
      obtain rfl : n = 3 := by
        rcases rung_of_live hobs with ⟨-, hst⟩ | ⟨-, hst⟩ | ⟨rfl, -⟩
        · rw [hdone] at hst; cases hst
        · rw [hdone] at hst; cases hst
        · rfl
      have hissued := (hs.good.issued _ _ ho).2
      refine Or.inr ⟨hs', ?_, fun _ => ?_⟩
      · rw [statusIn, tell_orders, getElem?_eraseOrder_self]
        rfl
      · rw [tell_nextOrderId, eraseOrder_nextOrderId]
        omega
    · exact Or.inl (rung_of_same h hs' (by rw [tell_orders, getElem?_eraseOrder, if_neg hk]) Iff.rfl)
  | itemRefused => exact Or.inl h
  | orderRefused => exact Or.inl h
  | registered => exact Or.inl (rung_of_same h hs' rfl Iff.rfl)
  | unregistered => exact Or.inl (rung_of_same h hs' rfl Iff.rfl)

/-- The statuses of an order along a run are the rungs of the ladder, one after the other. -/
theorem statuses_climb (k : Int32) (ops : List Op) :
    (machine.visits (statusIn k) machine.init ops).destutter (· ≠ ·) <+: rungs := by
  have hstep : ∀ s n op out s', Rung k s n → machine.step s op = some (out, s') →
      Rung k s' n ∨ Rung k s' (n + 1) :=
    fun s n op out s' h hs => Took.climbs h (step_took h.alive.good hs)
  have hclimb := Machine.climbs (M := machine) (fun s n h => h.observed)
    (by decide : rungs.IsChain (· ≠ ·)) hstep ops machine.init
  have hnone : statusIn k machine.init = none := by simp [statusIn, machine]
  -- an id below the first one is never given out
  by_cases hk : machine.init.nextOrderId.toInt ≤ k.toInt
  · exact hclimb 0 ⟨alive_init, congrArg some hnone.symm, fun _ => iff_of_true rfl hk⟩
  · have hlast := hclimb 4 ⟨alive_init, congrArg some hnone.symm, fun _ => iff_of_false (by decide) hk⟩
    exact hlast.trans (List.prefix_append [none] _)

/-- An item keeps its status or moves one status further. -/
def ItemMoves (p p' : Option Item) : Prop :=
  p' = p ∨ ∃ it st, p = some it ∧ it.status.Next st ∧ p' = some (it.setStatus st)

/-- An operation moves the items of an order one by one. -/
theorem Took.items {k : Int32} {s s' : Server} {op : Op} {out : Out} {o o' : Order} (hs : s.Good)
    (h : Took s op out s') (ho : s.orders[k]? = some o) (ho' : s'.orders[k]? = some o') :
    List.Forall₂ ItemMoves o.items o'.items := by
  have hsame : ∀ ps : List (Option Item), List.Forall₂ ItemMoves ps ps := fun ps =>
    List.forall₂_same.mpr fun p _ => Or.inl rfl
  rcases h.orders ho' with hk | ⟨_, _, -, -, rfl, -, -⟩ |
    ⟨_, st, o₁, its, i, it, -, ho₁, hits, -, hit, hst, rfl⟩
  · obtain rfl : o = o' := Option.some.inj (ho.symm.trans hk)
    exact hsame o.items
  · exact absurd (hs.issued _ o ho).2 (by omega)
  · obtain rfl : o = o₁ := Option.some.inj (ho.symm.trans ho₁)
    rw [hits, updatedOrder, List.forall₂_iff_get]
    refine ⟨by simp [updatedItems], fun j hj hj' => ?_⟩
    have hj₀ : j < its.length := by simpa using hj
    simp only [List.get_eq_getElem, List.getElem_map, updatedItems, List.getElem_modify]
    by_cases hij : i = j
    · subst hij
      obtain ⟨_, rfl⟩ := List.getElem?_eq_some_iff.mp hit
      rw [if_pos rfl]
      exact Or.inr ⟨_, st, rfl, hst, rfl⟩
    · rw [if_neg hij]
      exact Or.inl rfl

/-! ### In the streams of the displays -/

/-- Is the message about order `k`? -/
def about (k : Int32) (m : Message) : Bool :=
  match m.type with
  | .dispOrder => m.order.any (·.id = k)
  | .dispItemUpdate | .dispOrderUpdate => m.orderId = k
  | _ => false

/-- The order status that a DISP_ORDER_UPDATE carries. -/
def statusOf (m : Message) : Option OrderStatus :=
  if m.type = .dispOrderUpdate then some m.orderStatus else none

/-- The statuses that are still to come. -/
def successors : OrderStatus → List OrderStatus
  | .new => [.inProgress, .done, .delivered]
  | .inProgress => [.done, .delivered]
  | .done => [.delivered]
  | .delivered => []
  | .invalid => []

/-- The messages `ms` have told the life of order `k`, from some moment on, up to status `st`. -/
inductive Stream (k : Int32) : List Message → OrderStatus → Prop
  | start {o} (hid : o.id = k) : Stream k [.ofOrder .dispOrder (some o)] o.status
  | item {ms st} (itemId itemStatus) (h : Stream k ms st) (hlive : st ≠ .delivered) :
      Stream k (ms ++ [.ofItemStatus .dispItemUpdate k itemId itemStatus]) st
  | order {ms st st'} (h : Stream k ms st) (hnext : st.Next st') :
      Stream k (ms ++ [.ofOrderStatus .dispOrderUpdate k st']) st'

theorem successors_next {st st' : OrderStatus} (h : st.Next st') :
    successors st = st' :: successors st' := by
  rcases h with ⟨rfl, rfl⟩ | ⟨rfl, rfl⟩ | ⟨rfl, rfl⟩ <;> rfl

/-- What an element that is not in a list is followed by, after one more. -/
theorem eq_nil_of_snoc {α : Type} {l a b : List α} {x d : α} (hd : d ∉ l)
    (h : l ++ [x] = a ++ d :: b) : b = [] := by
  rcases List.eq_nil_or_concat b with rfl | ⟨b', y, rfl⟩
  · rfl
  · rw [List.concat_eq_append, ← List.cons_append, ← List.append_assoc] at h
    have hl : l = a ++ d :: b' := (List.append_inj' h rfl).1
    exact absurd (by rw [hl]; simp) hd

/-- How a stream looks: one DISP_ORDER, then statuses that follow each other from the one it
    carries, and nothing after DELIVERED. -/
structure Told (k : Int32) (ms : List Message) (st : OrderStatus) (o : Order)
    (rest : List Message) : Prop where
  id : o.id = k
  first : ms = .ofOrder .dispOrder (some o) :: rest
  once : ∀ m ∈ rest, m.type ≠ .dispOrder
  statuses : rest.filterMap statusOf ++ successors st = successors o.status
  delivered : .ofOrderStatus .dispOrderUpdate k .delivered ∈ rest → st = .delivered
  last : ∀ a b, rest = a ++ .ofOrderStatus .dispOrderUpdate k .delivered :: b → b = []

theorem Stream.told {k : Int32} {ms : List Message} {st : OrderStatus} (h : Stream k ms st) :
    ∃ o rest, Told k ms st o rest := by
  induction h with
  | @start o hid =>
    exact ⟨o, [], hid, rfl, by simp, rfl, by simp, fun a b h => by simp at h⟩
  | @item ms st itemId itemStatus _ hlive ih =>
    obtain ⟨o, rest, ht⟩ := ih
    have hnot : Message.ofOrderStatus .dispOrderUpdate k .delivered ∉ rest := fun hm =>
      hlive (ht.delivered hm)
    refine ⟨o, rest ++ [_], ht.id, by rw [ht.first]; rfl, ?_, ?_, ?_, fun a b => eq_nil_of_snoc hnot⟩
    · intro m hm
      rcases List.mem_append.mp hm with hm | hm
      · exact ht.once m hm
      · rw [List.mem_singleton] at hm; subst hm; exact nofun
    · rw [List.filterMap_append, ← ht.statuses]
      simp [statusOf, Message.ofItemStatus]
    · intro hm
      rcases List.mem_append.mp hm with hm | hm
      · exact ht.delivered hm
      · rw [List.mem_singleton] at hm
        cases congrArg Message.type hm
  | @order ms st st' _ hnext ih =>
    obtain ⟨o, rest, ht⟩ := ih
    have hne : st ≠ .delivered := by
      rcases hnext with ⟨rfl, -⟩ | ⟨rfl, -⟩ | ⟨rfl, -⟩ <;> exact nofun
    have hnot : Message.ofOrderStatus .dispOrderUpdate k .delivered ∉ rest := fun hm =>
      hne (ht.delivered hm)
    refine ⟨o, rest ++ [_], ht.id, by rw [ht.first]; rfl, ?_, ?_, ?_, fun a b => eq_nil_of_snoc hnot⟩
    · intro m hm
      rcases List.mem_append.mp hm with hm | hm
      · exact ht.once m hm
      · rw [List.mem_singleton] at hm; subst hm; exact nofun
    · rw [List.filterMap_append, ← ht.statuses, successors_next hnext]
      simp [statusOf, Message.ofOrderStatus]
    · intro hm
      rcases List.mem_append.mp hm with hm | hm
      · exact absurd hm hnot
      · rw [List.mem_singleton] at hm
        exact (congrArg Message.orderStatus hm).symm

/-- What client `c` has been sent about order `k`. -/
def sent (k : Int32) (c : Client) (s : Server) : List Message := (s.queue c).filter (about k)

/-- A client has been sent a stream about order `k`, or nothing yet; while it is registered, the
    stream tells the status that the order has. -/
structure Following (k : Int32) (c : Client) (s : Server) : Prop where
  fresh : s.nextOrderId.toInt ≤ k.toInt → sent k c s = []
  stream : sent k c s = [] ∨ ∃ st, Stream k (sent k c s) st
  sync : c ∈ s.displayClients → ∀ o, s.orders[k]? = some o → Stream k (sent k c s) o.status

theorem sent_tell {k : Int32} {c : Client} {s : Server} {ms : List Message} :
    sent k c (s.tell ms)
      = if c ∈ s.displayClients then sent k c s ++ ms.filter (about k) else sent k c s := by
  rw [sent, tell]
  by_cases h : c ∈ s.displayClients <;> simp [h, sent]

/-- The client is sent nothing about the order, and if it is registered the order's status stays. -/
theorem Following.idle {k : Int32} {c : Client} {s s' : Server} (h : Following k c s)
    (hsent : sent k c s' = sent k c s) (hnext : s.nextOrderId.toInt ≤ s'.nextOrderId.toInt)
    (hsync : c ∈ s'.displayClients → c ∈ s.displayClients ∧ ∀ o', s'.orders[k]? = some o' →
      ∃ o, s.orders[k]? = some o ∧ o.status = o'.status) : Following k c s' where
  fresh hk := hsent ▸ h.fresh (hnext.trans hk)
  stream := hsent ▸ h.stream
  sync hc o' ho' := by
    obtain ⟨hc₀, hstatus⟩ := hsync hc
    obtain ⟨o, ho, he⟩ := hstatus o' ho'
    rw [hsent, ← he]
    exact h.sync hc₀ o ho

/-- A message about the order that carries its stream on. -/
theorem Following.told {k : Int32} {c : Client} {s' : Server} (st : OrderStatus)
    (hfresh : k.toInt < s'.nextOrderId.toInt) (hstream : Stream k (sent k c s') st)
    (hstatus : ∀ o', s'.orders[k]? = some o' → o'.status = st) : Following k c s' where
  fresh hk := absurd hk (by omega)
  stream := Or.inr ⟨st, hstream⟩
  sync _ o' ho' := hstatus o' ho' ▸ hstream

theorem about_order {k : Int32} {o : Order} :
    about k (.ofOrder .dispOrder (some o)) = decide (o.id = k) := rfl

theorem about_itemUpdate {k j itemId : Int32} {st : ItemStatus} :
    about k (.ofItemStatus .dispItemUpdate j itemId st) = decide (j = k) := rfl

theorem about_orderUpdate {k j : Int32} {u : OrderStatus} :
    about k (.ofOrderStatus .dispOrderUpdate j u) = decide (j = k) := rfl

/-- The messages of an update are all about the order. -/
theorem filter_updateMessages {k j itemId : Int32} {st : ItemStatus} {u : Option OrderStatus} :
    (updateMessages j itemId st u).filter (about k)
      = if j = k then updateMessages j itemId st u else [] := by
  by_cases h : j = k <;> cases u <;> simp [updateMessages, about_itemUpdate, about_orderUpdate, h]

theorem Took.following {k : Int32} {c : Client} {s s' : Server} {op : Op} {out : Out}
    (hs : Alive s) (h : Following k c s) (hop : op ≠ .registerDisplay c)
    (htook : Took s op out s') : Following k c s' := by
  cases htook with
  | @placed o its hits hmax =>
    have hnext : s.nextOrderId.toInt ≤ (s.nextOrderId + 1).toInt := by rw [toInt_succ hmax]; omega
    have hid : (placedOrder s.nextOrderId its).id = s.nextOrderId := rfl
    by_cases hc : c ∈ s.displayClients
    case neg =>
      exact h.idle (sent_tell.trans (if_neg hc)) hnext fun hc' => absurd hc' hc
    by_cases hk : s.nextOrderId = k
    · subst hk
      have hsent := h.fresh le_rfl
      refine Following.told .new (by
        rw [tell_nextOrderId, setOrder_nextOrderId]
        simp only [toInt_succ hmax]
        omega) ?_ fun o' ho' => ?_
      · rw [sent_tell, setOrder_displayClients, if_pos hc]
        have : sent s.nextOrderId c
            (({ s with nextOrderId := s.nextOrderId + 1 } : Server).setOrder s.nextOrderId
              (placedOrder s.nextOrderId its)) = [] := hsent
        rw [this, List.filter_cons_of_pos (by rw [about_order, hid]; simp)]
        exact .start rfl
      · rw [tell_orders, getElem?_setOrder_self] at ho'
        rw [← Option.some.inj ho']
        rfl
    · have hsilent : about k (.ofOrder .dispOrder (some (placedOrder s.nextOrderId its))) = false := by
        rw [about_order, hid]; simpa using hk
      refine h.idle ?_ hnext fun _ => ⟨hc, fun o' ho' => ?_⟩
      · rw [sent_tell, setOrder_displayClients, if_pos hc, List.filter_cons_of_neg (by simp [hsilent])]
        simp [sent]
      · rw [tell_orders, getElem?_setOrder, if_neg hk] at ho'
        exact ⟨o', ho', rfl⟩
  | @itemUpdated j itemId st o its i it ho hits hi hit hst =>
    by_cases hc : c ∈ s.displayClients
    case neg =>
      exact h.idle (sent_tell.trans (if_neg hc)) le_rfl fun hc' => absurd hc' hc
    have hsent : sent k c (s.setOrder j (updatedOrder o its i st)) = sent k c s := rfl
    by_cases hk : j = k
    · subst hk
      have hold := h.sync hc o ho
      have hlive : o.status ≠ .delivered := by
        rcases hs.live j o ho with h | h | h <;> rw [h] <;> exact nofun
      refine Following.told (updatedOrder o its i st).status (hs.good.issued j o ho).2 ?_
        fun o' ho' => ?_
      · rw [sent_tell, setOrder_displayClients, if_pos hc, hsent, filter_updateMessages, if_pos rfl,
          updatedOrder, updateMessages]
        have hitem := Stream.item itemId st hold hlive
        cases hu : autoTransition o.status st (updatedItems its i st) with
        | none => exact hitem
        | some u =>
          have horder := Stream.order hitem (autoTransition_next hu)
          rw [List.append_assoc] at horder
          exact horder
      · rw [tell_orders, getElem?_setOrder_self] at ho'
        rw [← Option.some.inj ho']
    · refine h.idle ?_ le_rfl fun _ => ⟨hc, fun o' ho' => ?_⟩
      · rw [sent_tell, setOrder_displayClients, if_pos hc, hsent, filter_updateMessages, if_neg hk,
          List.append_nil]
      · rw [tell_orders, getElem?_setOrder, if_neg hk] at ho'
        exact ⟨o', ho', rfl⟩
  | @delivered j o ho hdone =>
    by_cases hc : c ∈ s.displayClients
    case neg =>
      exact h.idle (sent_tell.trans (if_neg hc)) le_rfl fun hc' => absurd hc' hc
    have hsent : sent k c (s.eraseOrder j) = sent k c s := rfl
    by_cases hk : j = k
    · subst hk
      refine Following.told .delivered (hs.good.issued j o ho).2 ?_ fun o' ho' => ?_
      · rw [sent_tell, eraseOrder_displayClients, if_pos hc, hsent,
          List.filter_cons_of_pos (by rw [about_orderUpdate]; simp)]
        exact .order (h.sync hc o ho) (Or.inr (Or.inr ⟨hdone, rfl⟩))
      · rw [tell_orders, getElem?_eraseOrder_self] at ho'
        cases ho'
    · refine h.idle ?_ le_rfl fun _ => ⟨hc, fun o' ho' => ?_⟩
      · rw [sent_tell, eraseOrder_displayClients, if_pos hc, hsent,
          List.filter_cons_of_neg (by rw [about_orderUpdate]; simpa using hk)]
        simp
      · rw [tell_orders, getElem?_eraseOrder, if_neg hk] at ho'
        exact ⟨o', ho', rfl⟩
  | itemRefused => exact h
  | orderRefused => exact h
  | @registered c' =>
    have hne : c ≠ c' := fun he => hop (by rw [he])
    refine h.idle ?_ le_rfl fun hc => ⟨?_, fun o' ho' => ⟨o', ho', rfl⟩⟩
    · exact congrArg (List.filter (about k)) (register_queue_of_ne hne s)
    · rcases Finset.mem_insert.mp hc with he | hc
      · exact absurd he hne
      · exact hc
  | unregistered =>
    exact h.idle rfl le_rfl fun hc => ⟨Finset.mem_of_mem_erase hc, fun o' ho' => ⟨o', ho', rfl⟩⟩

/-- A snapshot tells the order once, if it is there. -/
theorem filter_snapshot {s : Server} (hs : s.Good) (k : Int32) :
    (snapshot s.orders).filter (about k)
      = (s.orders[k]?.map fun o => Message.ofOrder .dispOrder (some o)).toList := by
  have hkey : ∀ p ∈ s.orders.toList,
      (about k ∘ fun p => Message.ofOrder .dispOrder (some p.2)) p = decide (p.1 = k) := by
    rintro ⟨j, o⟩ hp
    have ho := Std.ExtTreeMap.mem_toList_iff_getElem?_eq_some.mp hp
    rw [Function.comp_apply, about_order, hs.id j o ho]
  rw [snapshot, List.filter_map, List.filter_congr hkey, filter_toList]
  cases s.orders[k]? <;> rfl

/-- A client that registers is sent the order with the status it has. -/
theorem following_register {k : Int32} {c : Client} {s : Server} (hs : s.Good)
    (hqueue : (s.register c).queue c = snapshot s.orders) : Following k c (s.register c) := by
  have hsent : sent k c (s.register c)
      = (s.orders[k]?.map fun o => Message.ofOrder .dispOrder (some o)).toList := by
    rw [sent, hqueue, filter_snapshot hs]
  cases ho : s.orders[k]? with
  | none =>
    rw [ho] at hsent
    refine ⟨fun _ => hsent, Or.inl hsent, fun _ o' ho' => ?_⟩
    rw [show (s.register c).orders[k]? = s.orders[k]? from rfl, ho] at ho'
    cases ho'
  | some o =>
    rw [ho] at hsent
    have hstream : Stream k (sent k c (s.register c)) o.status := by
      rw [hsent]
      exact .start (hs.id k o ho)
    refine Following.told o.status (hs.issued k o ho).2 hstream fun o' ho' => ?_
    rw [show (s.register c).orders[k]? = s.orders[k]? from rfl, ho] at ho'
    rw [Option.some.inj ho']

/-! ### Whole runs -/

theorem alive_run {ops : List Op} {outs : List Out} {s : Server}
    (h : machine.run ops = some (outs, s)) : Alive s :=
  (run_inv (A := fun _ => True) (P := fun _ _ s => Alive s) alive_init
    (fun hs _ _ htook => htook.alive hs) (fun _ _ => trivial) h).2

/-- The messages about an order in the queue of a client that registers once. -/
theorem following_run {k : Int32} {pre post : List Op} {c : Client}
    (hpre : .registerDisplay c ∉ pre) (hpost : .registerDisplay c ∉ post) {outs : List Out}
    {s : Server} (h : machine.run (pre ++ .registerDisplay c :: post) = some (outs, s)) :
    Following k c s := by
  obtain ⟨outs₁, s₁, outs₂, hrun₁, hgood, hgood₂, hqueue, hrun₂⟩ := registered_run hpre h
  have halive : Alive (s₁.register c) := ⟨hgood₂, (alive_run hrun₁).live⟩
  refine (runFrom_inv (A := (· ≠ .registerDisplay c)) (P := fun _ _ s => Alive s ∧ Following k c s)
    hgood₂ ⟨halive, following_register hgood hqueue⟩ ?_ (fun op hop he => hpost (he ▸ hop)) hrun₂).2.2
  rintro ops outs s op out s' ⟨hs, hf⟩ _ hop htook
  exact ⟨htook.alive hs, htook.following hs hf hop⟩

/-- CORRECT: statuses only move forward one step, and every display stream shows it. For every run and
    every order id, the statuses of the order along the run are the beginning of its ladder, with
    nothing after it is gone; an operation moves each of its items at most one status further; and
    what a client that registers once is sent about the order is one DISP_ORDER, then the statuses
    that follow the one it carries, one by one, and nothing after DELIVERED. -/
theorem lives_forward {ops : List Op} {outs : List Out} {s : Server}
    (h : machine.run ops = some (outs, s)) (k : Int32) :
    (machine.visits (statusIn k) machine.init ops).destutter (· ≠ ·)
      <+: [none, some .new, some .inProgress, some .done, none] ∧
    (∀ pre op post outs₁ s₁ out s₂ o o', ops = pre ++ op :: post →
      machine.run pre = some (outs₁, s₁) → machine.step s₁ op = some (out, s₂) →
      s₁.orders[k]? = some o → s₂.orders[k]? = some o' →
      List.Forall₂ ItemMoves o.items o'.items) ∧
    ∀ pre c post, ops = pre ++ .registerDisplay c :: post → .registerDisplay c ∉ pre →
      .registerDisplay c ∉ post → sent k c s = [] ∨ ∃ o rest,
        sent k c s = .ofOrder .dispOrder (some o) :: rest ∧ (∀ m ∈ rest, m.type ≠ .dispOrder) ∧
        rest.filterMap statusOf <+: successors o.status ∧
        ∀ a b, rest = a ++ .ofOrderStatus .dispOrderUpdate k .delivered :: b → b = [] := by
  refine ⟨statuses_climb k ops, ?_, ?_⟩
  · intro pre op post outs₁ s₁ out s₂ o o' _ hpre hstep ho ho'
    have hgood := run_good hpre
    exact (step_took hgood hstep).items hgood ho ho'
  · rintro pre c post rfl hpre hpost
    rcases (following_run (k := k) hpre hpost h).stream with hnil | ⟨st, hstream⟩
    · exact Or.inl hnil
    · obtain ⟨o, rest, ht⟩ := hstream.told
      exact Or.inr ⟨o, rest, ht.first, ht.once, ⟨_, ht.statuses⟩, ht.last⟩

/-- An order lives its life to the end; a client that registers in between is sent the rest. -/
theorem lives_forward_two :
    let o : Order := ⟨1, .new, [some ⟨1, 7, .new, ascii "Samosa", 2⟩]⟩
    let ops : List Op := [.newOrder o, .itemUpdate 1000 7 .inProgress, .registerDisplay 1,
      .itemUpdate 1000 7 .done, .orderUpdate 1000 .delivered]
    ∃ outs s, machine.run ops = some (outs, s) ∧
      (machine.visits (statusIn 1000) machine.init ops).destutter (· ≠ ·)
        <+: [none, some .new, some .inProgress, some .done, none] ∧
      (sent 1000 1 s = [] ∨ ∃ o rest,
        sent 1000 1 s = .ofOrder .dispOrder (some o) :: rest ∧
        (∀ m ∈ rest, m.type ≠ .dispOrder) ∧ rest.filterMap statusOf <+: successors o.status ∧
        ∀ a b, rest = a ++ .ofOrderStatus .dispOrderUpdate 1000 .delivered :: b → b = []) := by
  intro o ops
  obtain ⟨outs, s, hrun⟩ := run_exists ops (fun o' ho' => by
    obtain rfl : o' = o := by simpa [ops] using ho'
    exact ⟨[_], rfl⟩) (by decide)
  obtain ⟨hstatus, -, hsent⟩ := lives_forward hrun 1000
  exact ⟨outs, s, hrun, hstatus, hsent [_, _] 1 [_, _] rfl (by decide) (by decide)⟩

end Server

end Restaurant
