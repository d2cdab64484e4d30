import RestaurantOrder.Schemes.Interleave
import RestaurantOrder.Server.Updates

/-! Do updates commute?

    What an update answers and what it does to the map depends on the entry of its order and on
    nothing else (`update_mirrors`), so updates of different orders commute. Two updates of one order
    both read its status and may write it. They commute if they address different items: while one of
    two items is still to become done, the other cannot finish the order, and the order starts with
    the first of its items to start, whichever that is (`settled_comm`).

        order NEW, items NEW and IN_PROGRESS

          start the first    IN_PROGRESS       finish the second    NEW
          finish the second  IN_PROGRESS       start the first      IN_PROGRESS

    CORRECT: `updates_commute`, in all reachable states and for whole interleavings. -/

namespace Restaurant
open Schemes

instance (cur st : ItemStatus) : Decidable (cur.Next st) :=
  inferInstanceAs (Decidable (_ ∨ _))

/-- The operations of an updater client. -/
def Op.IsUpdate : Op → Prop
  | .itemUpdate _ _ _ | .orderUpdate _ _ => True
  | _ => False

/-- Two updates that address different orders, or two item updates that address different items. -/
def Op.Independent : Op → Op → Prop
  | .itemUpdate k itemId _, .itemUpdate k' itemId' _ => (k, itemId) ≠ (k', itemId')
  | .itemUpdate k _ _, .orderUpdate k' _ => k ≠ k'
  | .orderUpdate k _, .itemUpdate k' _ _ => k ≠ k'
  | .orderUpdate k _, .orderUpdate k' _ => k ≠ k'
  | _, _ => False

theorem Op.Independent.isUpdate {op op' : Op} (h : op.Independent op') :
    op.IsUpdate ∧ op'.IsUpdate := by
  cases op <;> cases op' <;> first | exact ⟨trivial, trivial⟩ | exact h.elim

namespace Server

/-! ### What an update does to the entry of its order -/

def refused (what : String) : Out := .error (.semanticError (ascii what))

/-- The item that `find_item` points to, with its position. -/
def found (itemId : Int32) (its : List Item) : Option (ℕ × Item) :=
  (position itemId its).bind fun i => its[i]?.map (i, ·)

/-- An item update, on the entry of its order. -/
def itemEntry (itemId : Int32) (st : ItemStatus) : Option Order → Out × Option Order
  | none => (refused "order not found", none)
  | some o =>
    let its := o.items.reduceOption
    match found itemId its with
    | none => (refused "item not found", some o)
    | some (i, it) =>
      if it.status.Next st then (.ok none, some (updatedOrder o its i st))
      else (refused "invalid item status transition", some o)

/-- An order update, on the entry of its order. -/
def orderEntry (st : OrderStatus) : Option Order → Out × Option Order
  | none => (refused "order not found", none)
  | some o =>
    if o.status = .done ∧ st = .delivered then (.ok none, none)
    else (refused "invalid order status transition", some o)

/-- Do to the entry of `k` what `f` does. -/
def atEntry (orders : Orders) (k : Int32) (f : Option Order → Out × Option Order) : Out × Orders :=
  ((f orders[k]?).1, orders.alter k fun e => (f e).2)

/-- An update, on the map alone. -/
def update (orders : Orders) : Op → Out × Orders
  | .itemUpdate k itemId st => atEntry orders k (itemEntry itemId st)
  | .orderUpdate k st => atEntry orders k (orderEntry st)
  | _ => (.ok none, orders)

theorem getElem?_atEntry (orders : Orders) (k j : Int32) (f : Option Order → Out × Option Order) :
    (atEntry orders k f).2[j]? = if k = j then (f orders[k]?).2 else orders[j]? := by
  simp only [atEntry, Std.ExtTreeMap.getElem?_alter, Std.compare_eq_iff_eq]

theorem eq_atEntry {orders orders' : Orders} {k : Int32} {f : Option Order → Out × Option Order}
    (h : ∀ j, orders'[j]? = if k = j then (f orders[k]?).2 else orders[j]?) :
    orders' = (atEntry orders k f).2 :=
  Std.ExtTreeMap.ext_getElem? fun j => by rw [h j, getElem?_atEntry]

theorem found_eq_none {itemId : Int32} {its : List Item} (h : position itemId its = none) :
    found itemId its = none := by
  rw [found, h]; rfl

theorem found_eq_some {itemId : Int32} {its : List Item} {i : ℕ} {it : Item} :
    found itemId its = some (i, it) ↔ position itemId its = some i ∧ its[i]? = some it := by
  simp only [found, Option.bind_eq_some_iff, Option.map_eq_some_iff, Prod.mk.injEq]
  constructor
  · rintro ⟨_, hi, _, hit, rfl, rfl⟩
    exact ⟨hi, hit⟩
  · rintro ⟨hi, hit⟩
    exact ⟨i, hi, it, hit, rfl, rfl⟩

theorem itemEntry_noItem {o : Order} {itemId : Int32} (st : ItemStatus)
    (h : found itemId o.items.reduceOption = none) :
    itemEntry itemId st (some o) = (refused "item not found", some o) := by
  rw [itemEntry, h]

theorem itemEntry_found {o : Order} {itemId : Int32} (st : ItemStatus) {i : ℕ} {it : Item}
    (h : found itemId o.items.reduceOption = some (i, it)) :
    itemEntry itemId st (some o) =
      if it.status.Next st then (.ok none, some (updatedOrder o o.items.reduceOption i st))
      else (refused "invalid item status transition", some o) := by
  rw [itemEntry, h]

/-! ### The server does what these do -/

theorem step_refused {s : Server} {op : Op} {what : String}
    (h : exec (call op) s = (semanticError what, s)) :
    machine.step s op = some (refused what, s) := by
  rw [step_eq, h]
  rfl

/-- A refused update answers for the entry and leaves it. -/
theorem mirrors_refused {s : Server} (hs : s.Good) {op : Op} {k : Int32} {what : String}
    {f : Option Order → Out × Option Order} (h : exec (call op) s = (semanticError what, s))
    (hf : f s.orders[k]? = (refused what, s.orders[k]?)) :
    ∃ s', machine.step s op = some ((atEntry s.orders k f).1, s') ∧
      s'.orders = (atEntry s.orders k f).2 ∧ s'.Good := by
  refine ⟨s, ?_, eq_atEntry fun j => ?_, hs⟩
  · rw [step_refused h, atEntry, hf]
  · rw [hf]
    split
    · next hk => rw [hk]
    · rfl

theorem mirrors_itemUpdate {s : Server} (hs : s.Good) (k itemId : Int32) (st : ItemStatus) :
    ∃ s', machine.step s (.itemUpdate k itemId st)
        = some ((atEntry s.orders k (itemEntry itemId st)).1, s') ∧
      s'.orders = (atEntry s.orders k (itemEntry itemId st)).2 ∧ s'.Good := by
  cases ho : s.orders[k]? with
  | none =>
    refine mirrors_refused hs (exec_bind_error (exec_processItemUpdate_noOrder itemId st ho)) ?_
    rw [ho]
    rfl
  | some o =>
    obtain ⟨its, hits⟩ := hs.full k o ho
    have hred : o.items.reduceOption = its := by rw [hits, Wire.reduceOption_map_some]
    cases hi : position itemId its with
    | none =>
      refine mirrors_refused hs (exec_bind_error (exec_processItemUpdate_noItem st ho hits hi)) ?_
      rw [ho, itemEntry_noItem st (by rw [hred]; exact found_eq_none hi)]
    | some i =>
      obtain ⟨it, hit, -⟩ := position_some hi
      have hentry := itemEntry_found st (by rw [hred]; exact found_eq_some.mpr ⟨hi, hit⟩)
      by_cases hst : it.status.Next st
      · rw [if_pos hst, hred] at hentry
        have hstep := step_itemUpdated ho hits hi hit hst
        refine ⟨_, ?_, eq_atEntry fun j => ?_, (step_took hs hstep).good hs⟩
        · rw [hstep, atEntry, ho, hentry]
        · rw [tell_orders, getElem?_setOrder, ho, hentry]
      · rw [if_neg hst] at hentry
        refine mirrors_refused hs
          (exec_bind_error (exec_processItemUpdate_notNext ho hits hi hit hst)) ?_
        rw [ho, hentry]

theorem mirrors_orderUpdate {s : Server} (hs : s.Good) (k : Int32) (st : OrderStatus) :
    ∃ s', machine.step s (.orderUpdate k st)
        = some ((atEntry s.orders k (orderEntry st)).1, s') ∧
      s'.orders = (atEntry s.orders k (orderEntry st)).2 ∧ s'.Good := by
  cases ho : s.orders[k]? with
  | none =>
    refine mirrors_refused hs (exec_bind_error (exec_processOrderUpdate_noOrder st ho)) ?_
    rw [ho]
    rfl
  | some o =>
    by_cases hdue : o.status = .done ∧ st = .delivered
    · have hentry : orderEntry st (some o) = (.ok none, none) := if_pos hdue
      obtain ⟨hdone, rfl⟩ := hdue
      have hstep := step_delivered ho hdone
      refine ⟨_, ?_, eq_atEntry fun j => ?_, (step_took hs hstep).good hs⟩
      · rw [hstep, atEntry, ho, hentry]
      · rw [tell_orders, getElem?_eraseOrder, ho, hentry]
    · refine mirrors_refused hs (exec_bind_error (exec_processOrderUpdate_notDue ho hdue)) ?_
      rw [ho]
      exact if_neg hdue

/-- REFINEMENT: the server answers updates and changes its map as `update` does. -/
theorem update_mirrors : machine.Mirrors Server.orders Good Op.IsUpdate update := by
  intro s op hs hop
  cases op with
  | itemUpdate k itemId st => exact mirrors_itemUpdate hs k itemId st
  | orderUpdate k st => exact mirrors_orderUpdate hs k st
  | newOrder => exact hop.elim
  | registerDisplay => exact hop.elim
  | unregisterDisplay => exact hop.elim

/-! ### Two items of one order -/

/-- The order after an update of one item and then of another. -/
def bothUpdated (o : Order) (its : List Item) (i : ℕ) (st : ItemStatus) (j : ℕ) (st' : ItemStatus) :
    Order :=
  updatedOrder (updatedOrder o its i st) (updatedItems its i st) j st'

/-- The status of an order after an update of an item while not all items are done. -/
def openStatus (status : OrderStatus) (st : ItemStatus) : OrderStatus :=
  if st = .inProgress ∧ status = .new then .inProgress else status

theorem openStatus_comm (status : OrderStatus) (st st' : ItemStatus) :
    openStatus (openStatus status st) st' = openStatus (openStatus status st') st := by
  simp only [openStatus]
  by_cases h : st = .inProgress <;> by_cases h' : st' = .inProgress <;>
    by_cases hs : status = .new <;> simp [h, h', hs]

theorem autoTransition_open {its : List Item} (h : ¬∀ it ∈ its, it.status = .done)
    (status : OrderStatus) (st : ItemStatus) :
    (autoTransition status st its).getD status = openStatus status st := by
  rw [autoTransition, openStatus]
  by_cases hstart : st = .inProgress ∧ status = .new
  · rw [if_pos hstart, if_pos hstart]; rfl
  · rw [if_neg hstart, if_neg hstart, if_neg fun hc => h hc.2.2]; rfl

/-- An update leaves an item elsewhere. -/
theorem getElem?_updatedItems_ne {its : List Item} {i j : ℕ} (h : i ≠ j) (st : ItemStatus) :
    (updatedItems its i st)[j]? = its[j]? := by
  rw [getElem?_updatedItems, if_neg h]

theorem updatedItems_comm {i j : ℕ} (h : i ≠ j) (its : List Item) (st st' : ItemStatus) :
    updatedItems (updatedItems its i st) j st' = updatedItems (updatedItems its j st') i st :=
  List.modify_modify_ne _ _ its h

/-- While item `j` is not done, an update of item `i` only starts the order. -/
theorem status_updatedOrder_open {o : Order} {its : List Item} {i j : ℕ} {jt : Item} (hij : i ≠ j)
    (hj : its[j]? = some jt) (hopen : jt.status ≠ .done) (st : ItemStatus) :
    (updatedOrder o its i st).status = openStatus o.status st := by
  refine autoTransition_open (fun hall => hopen (hall jt ?_)) o.status st
  exact List.mem_of_getElem? ((getElem?_updatedItems_ne hij st).trans hj)

/-- The status after two updates: the first only starts the order, the second may finish it. -/
theorem status_bothUpdated {o : Order} {its : List Item} {i j : ℕ} {it jt : Item} {st st' : ItemStatus}
    (hij : i ≠ j) (hi : its[i]? = some it) (hj : its[j]? = some jt) (hst : it.status.Next st)
    (hst' : jt.status.Next st') :
    (bothUpdated o its i st j st').status =
      if o.status = .inProgress ∧ ∀ it ∈ updatedItems (updatedItems its i st) j st', it.status = .done
      then .done else openStatus (openStatus o.status st) st' := by
  have hfirst := status_updatedOrder_open (o := o) hij hj hst'.ne_done st
  have hsecond : (bothUpdated o its i st j st').status = (autoTransition (openStatus o.status st) st'
      (updatedItems (updatedItems its i st) j st')).getD (openStatus o.status st) := by
    rw [← hfirst]; rfl
  rw [hsecond]
  by_cases hall : ∀ it ∈ updatedItems (updatedItems its i st) j st', it.status = .done
  case neg => rw [autoTransition_open hall, if_neg fun hc => hall hc.2]
  -- both items are done then, so neither update starts the order
  have hdone : st = .done := by
    refine hall _ (List.mem_of_getElem? (i := i) (a := it.setStatus st) ?_)
    rw [getElem?_updatedItems_ne hij.symm, getElem?_updatedItems, if_pos rfl, hi]
    rfl
  have hdone' : st' = .done := by
    have hj' := (getElem?_updatedItems_ne hij st).trans hj
    exact hall _ (mem_updatedItems hj' st')
  subst hdone hdone'
  have hopen : ∀ status, openStatus status .done = status := fun _ => if_neg fun hc => nomatch hc.1
  rw [hopen, hopen, autoTransition, if_neg fun hc => nomatch hc.1]
  by_cases hs : o.status = .inProgress
  · rw [if_pos ⟨rfl, hs, hall⟩, if_pos ⟨hs, hall⟩]; rfl
  · rw [if_neg fun hc => hs hc.2.1, if_neg fun hc => hs hc.1]; rfl

/-- SETTLED: after updates of two of its items an order is the same, whichever came first. -/
theorem settled_comm {o : Order} {its : List Item} {i j : ℕ} {it jt : Item} {st st' : ItemStatus}
    (hij : i ≠ j) (hi : its[i]? = some it) (hj : its[j]? = some jt) (hst : it.status.Next st)
    (hst' : jt.status.Next st') :
    bothUpdated o its i st j st' = bothUpdated o its j st' i st := by
  have hstatus : (bothUpdated o its i st j st').status = (bothUpdated o its j st' i st).status := by
    rw [status_bothUpdated hij hi hj hst hst', status_bothUpdated hij.symm hj hi hst' hst,
      updatedItems_comm hij, openStatus_comm]
  have hitems : (bothUpdated o its i st j st').items = (bothUpdated o its j st' i st).items :=
    congrArg (List.map some) (updatedItems_comm hij its st st')
  rw [Order.mk.injEq]
  exact ⟨rfl, hstatus, hitems⟩

/-! ### Entries -/

/-- Different ids find different items. -/
theorem found_ne {itemId itemId' : Int32} (hne : itemId ≠ itemId') {its : List Item} {i j : ℕ}
    {it jt : Item} (hi : found itemId its = some (i, it)) (hj : found itemId' its = some (j, jt)) :
    i ≠ j := by
  rintro rfl
  obtain ⟨_, hit, hid⟩ := position_some (found_eq_some.mp hi).1
  obtain ⟨_, hjt, hjd⟩ := position_some (found_eq_some.mp hj).1
  obtain rfl := Option.some.inj (hit.symm.trans hjt)
  exact hne (hid.symm.trans hjd)

/-- What `find_item` finds for one id does not show an update of what it finds for another. -/
theorem found_updatedItems {itemId itemId' : Int32} (hne : itemId ≠ itemId') {its : List Item} {j : ℕ}
    {jt : Item} (hj : found itemId' its = some (j, jt)) (st : ItemStatus) :
    found itemId (updatedItems its j st) = found itemId its := by
  rw [found, found, position_updatedItems]
  cases hi : position itemId its with
  | none => rfl
  | some i =>
    obtain ⟨it, hit, -⟩ := position_some hi
    have hij := found_ne hne (found_eq_some.mpr ⟨hi, hit⟩) hj
    simp only [Option.bind_some, getElem?_updatedItems_ne hij.symm]

theorem reduceOption_updatedOrder (o : Order) (its : List Item) (i : ℕ) (st : ItemStatus) :
    (updatedOrder o its i st).items.reduceOption = updatedItems its i st :=
  Wire.reduceOption_map_some _

/-- An item update refuses and leaves the order, or makes the change. -/
theorem itemEntry_cases (itemId : Int32) (st : ItemStatus) (o : Order) :
    (∃ what, itemEntry itemId st (some o) = (refused what, some o)) ∨
      ∃ i it, found itemId o.items.reduceOption = some (i, it) ∧ it.status.Next st ∧
        itemEntry itemId st (some o)
          = (.ok none, some (updatedOrder o o.items.reduceOption i st)) := by
  cases h : found itemId o.items.reduceOption with
  | none => exact Or.inl ⟨_, itemEntry_noItem st h⟩
  | some p =>
    obtain ⟨i, it⟩ := p
    have hentry := itemEntry_found st h
    by_cases hst : it.status.Next st
    · exact Or.inr ⟨i, it, rfl, hst, hentry.trans (if_pos hst)⟩
    · exact Or.inl ⟨_, hentry.trans (if_neg hst)⟩

/-- After a change through another item id, an update still finds its item. -/
theorem itemEntry_updated {itemId itemId' : Int32} (hne : itemId ≠ itemId') (st st' : ItemStatus)
    {o : Order} {j : ℕ} {jt : Item} (hj : found itemId' o.items.reduceOption = some (j, jt)) :
    itemEntry itemId st (some (updatedOrder o o.items.reduceOption j st')) =
      match found itemId o.items.reduceOption with
      | none =>
        (refused "item not found", some (updatedOrder o o.items.reduceOption j st'))
      | some (i, it) =>
        if it.status.Next st then (.ok none, some (bothUpdated o o.items.reduceOption j st' i st))
        else (refused "invalid item status transition",
          some (updatedOrder o o.items.reduceOption j st')) := by
  have hfound := found_updatedItems hne hj st'
  rw [← reduceOption_updatedOrder o] at hfound
  cases h : found itemId o.items.reduceOption with
  | none => exact itemEntry_noItem st (hfound.trans h)
  | some p =>
    obtain ⟨i, it⟩ := p
    rw [itemEntry_found st (hfound.trans h), reduceOption_updatedOrder]
    rfl

/-- The answer to an update does not show an update through another item id. -/
theorem itemEntry_answer {itemId itemId' : Int32} (hne : itemId ≠ itemId') (st st' : ItemStatus)
    (e : Option Order) :
    (itemEntry itemId st (itemEntry itemId' st' e).2).1 = (itemEntry itemId st e).1 := by
  cases e with
  | none => rfl
  | some o =>
    rcases itemEntry_cases itemId' st' o with ⟨what, h⟩ | ⟨j, jt, hj, -, h⟩
    · rw [h]
    · rw [h, itemEntry_updated hne st st' hj]
      cases hi : found itemId o.items.reduceOption with
      | none => rw [itemEntry_noItem st hi]
      | some p =>
        obtain ⟨i, it⟩ := p
        rw [itemEntry_found st hi]
        by_cases hst : it.status.Next st
        · simp only [if_pos hst]
        · simp only [if_neg hst]

/-- A refused update leaves the entry. -/
theorem itemEntry_refused {itemId : Int32} {st : ItemStatus} {e : Option Order} {what : String}
    (h : (itemEntry itemId st e).1 = refused what) : (itemEntry itemId st e).2 = e := by
  cases e with
  | none => rfl
  | some o =>
    rcases itemEntry_cases itemId st o with ⟨_, h'⟩ | ⟨_, _, -, -, h'⟩
    · rw [h']
    · rw [h'] at h; cases h

/-- Updates of one order commute if they address different items. -/
theorem commutes_itemEntry {itemId itemId' : Int32} (hne : itemId ≠ itemId') (st st' : ItemStatus) :
    Commutes (fun (e : Option Order) f => f e) (itemEntry itemId st) (itemEntry itemId' st') where
  left := itemEntry_answer hne st st'
  right := itemEntry_answer hne.symm st' st
  data e := by
    have hans := itemEntry_answer hne st st' e
    have hans' := itemEntry_answer hne.symm st' st e
    cases e with
    | none => rfl
    | some o =>
      rcases itemEntry_cases itemId st o with ⟨what, h⟩ | ⟨i, it, hi, hst, h⟩
      · rw [h] at hans
        rw [itemEntry_refused hans, h]
      · rcases itemEntry_cases itemId' st' o with ⟨what, h'⟩ | ⟨j, jt, hj, hst', h'⟩
        · rw [h'] at hans'
          rw [itemEntry_refused hans', h']
        · -- both change the order
          have hij := found_ne hne hi hj
          have hcomm := settled_comm (o := o) hij (found_eq_some.mp hi).2 (found_eq_some.mp hj).2
            hst hst'
          rw [h, h', itemEntry_updated hne.symm st' st hi, itemEntry_updated hne st st' hj, hi, hj]
          simp only [if_pos hst, if_pos hst', hcomm]

/-! ### The map -/

/-- Updates of different entries commute. -/
theorem commutes_of_ne {op op' : Op} {k k' : Int32} {f f' : Option Order → Out × Option Order}
    (h : ∀ orders, update orders op = atEntry orders k f)
    (h' : ∀ orders, update orders op' = atEntry orders k' f') (hne : k ≠ k') :
    Commutes update op op' where
  left orders := by
    rw [h, h, h', atEntry, getElem?_atEntry, if_neg hne.symm]
    rfl
  right orders := by
    rw [h, h', h', atEntry, getElem?_atEntry, if_neg hne]
    rfl
  data orders := by
    refine Std.ExtTreeMap.ext_getElem? fun j => ?_
    simp only [h, h', getElem?_atEntry, if_neg hne, if_neg hne.symm]
    by_cases hk : k = j <;> by_cases hk' : k' = j <;> simp only [hk, hk', if_true, if_false]
    exact absurd (hk.trans hk'.symm) hne

/-- Updates of one entry commute if they do on the entry. -/
theorem commutes_of_entry {op op' : Op} {k : Int32} {f f' : Option Order → Out × Option Order}
    (h : ∀ orders, update orders op = atEntry orders k f)
    (h' : ∀ orders, update orders op' = atEntry orders k f')
    (hf : Commutes (fun (e : Option Order) f => f e) f f') : Commutes update op op' where
  left orders := by
    rw [h, h, h', atEntry, getElem?_atEntry, if_pos rfl, hf.left]
    rfl
  right orders := by
    rw [h, h', h', atEntry, getElem?_atEntry, if_pos rfl, hf.right]
    rfl
  data orders := by
    refine Std.ExtTreeMap.ext_getElem? fun j => ?_
    simp only [h, h', getElem?_atEntry, if_true, hf.data]
    split <;> rfl

/-- COMMUTE: independent updates do, whatever the map. -/
theorem commutes_of_independent {op op' : Op} (h : op.Independent op') : Commutes update op op' := by
  cases op with
  | itemUpdate k itemId st =>
    cases op' with
    | itemUpdate k' itemId' st' =>
      by_cases hk : k = k'
      · subst hk
        have hne : itemId ≠ itemId' := fun he => h (by rw [he])
        exact commutes_of_entry (fun _ => rfl) (fun _ => rfl) (commutes_itemEntry hne st st')
      · exact commutes_of_ne (fun _ => rfl) (fun _ => rfl) hk
    | orderUpdate k' st' => exact commutes_of_ne (fun _ => rfl) (fun _ => rfl) h
    | _ => exact h.elim
  | orderUpdate k st =>
    cases op' with
    | itemUpdate k' itemId' st' => exact commutes_of_ne (fun _ => rfl) (fun _ => rfl) h
    | orderUpdate k' st' => exact commutes_of_ne (fun _ => rfl) (fun _ => rfl) h
    | _ => exact h.elim
  | _ => exact h.elim

/-- An update succeeds or throws a SemanticError. -/
theorem update_answer {op : Op} (h : op.IsUpdate) (orders : Orders) :
    (update orders op).1 = .ok none ∨ ∃ what, (update orders op).1 = refused what := by
  cases op with
  | itemUpdate k itemId st =>
    rw [update, atEntry]
    cases orders[k]? with
    | none => exact Or.inr ⟨_, rfl⟩
    | some o =>
      rcases itemEntry_cases itemId st o with ⟨what, he⟩ | ⟨_, _, -, -, he⟩
      · exact Or.inr ⟨what, by rw [he]⟩
      · exact Or.inl (by rw [he])
  | orderUpdate k st =>
    rw [update, atEntry]
    cases orders[k]? with
    | none => exact Or.inr ⟨_, rfl⟩
    | some o =>
      rw [orderEntry]
      split
      · exact Or.inl rfl
      · exact Or.inr ⟨_, rfl⟩
  | _ => exact h.elim

/-- CORRECT: independent updates commute in every reachable state: in either order each of them
    succeeds or throws the same SemanticError, and the orders at the end are the same. So two updater
    clients whose updates are independent get the same answers and leave the same orders, however
    their updates are interleaved. -/
theorem updates_commute {ops : List Op} {outs : List Out} {s : Server}
    (h : machine.run ops = some (outs, s)) :
    (∀ op op', op.Independent op' → ∃ out out' s₁ s₂ s₁' s₂',
      machine.step s op = some (out, s₁) ∧ machine.step s₁ op' = some (out', s₂) ∧
      machine.step s op' = some (out', s₁') ∧ machine.step s₁' op = some (out, s₂') ∧
      (out = .ok none ∨ ∃ what, out = .error (.semanticError what)) ∧
      (out' = .ok none ∨ ∃ what, out' = .error (.semanticError what)) ∧ s₂.orders = s₂'.orders) ∧
    ∀ w w' : List (Bool × Op), (∀ x ∈ w, x.2.IsUpdate) →
      (∀ op ∈ part false w, ∀ op' ∈ part true w, op.Independent op') →
      (∀ c, part c w' = part c w) → ∃ os os' s₁ s₁',
        machine.runFrom s (w.map Prod.snd) = some (os, s₁) ∧
        machine.runFrom s (w'.map Prod.snd) = some (os', s₁') ∧
        (∀ c, answers c w os = answers c w' os') ∧ s₁.orders = s₁'.orders := by
  have hs := run_good h
  refine ⟨fun op op' hind => ?_, fun w w' hw hind hpart => ?_⟩
  · obtain ⟨hop, hop'⟩ := hind.isUpdate
    have hcomm := commutes_of_independent hind
    obtain ⟨s₁, hstep₁, horders₁, hs₁⟩ := update_mirrors s op hs hop
    obtain ⟨s₂, hstep₂, horders₂, -⟩ := update_mirrors s₁ op' hs₁ hop'
    obtain ⟨s₁', hstep₁', horders₁', hs₁'⟩ := update_mirrors s op' hs hop'
    obtain ⟨s₂', hstep₂', horders₂', -⟩ := update_mirrors s₁' op hs₁' hop
    rw [horders₁, hcomm.right] at hstep₂
    rw [horders₁', hcomm.left] at hstep₂'
    have hanswer : ∀ {op}, op.IsUpdate → (update s.orders op).1 = .ok none ∨
        ∃ what, (update s.orders op).1 = .error (.semanticError what) := fun hop =>
      (update_answer hop s.orders).imp_right fun ⟨what, he⟩ => ⟨ascii what, he⟩
    refine ⟨_, _, s₁, s₂, s₁', s₂', hstep₁, hstep₂, hstep₁', hstep₂', hanswer hop, hanswer hop', ?_⟩
    rw [horders₂, horders₂', horders₁, horders₁', hcomm.data]
  · have hmem : ∀ x ∈ w', x.2.IsUpdate := by
      rintro ⟨c, op⟩ hx
      have hpw : op ∈ part c w := hpart c ▸ mem_part.mpr hx
      exact hw _ (mem_part.mp hpw)
    have hcomm : ∀ op ∈ part false w, ∀ op' ∈ part true w, Commutes update op op' :=
      fun op hop op' hop' => commutes_of_independent (hind op hop op' hop')
    have hcomm' : ∀ op ∈ part false w', ∀ op' ∈ part true w', Commutes update op op' := by
      rw [hpart, hpart]; exact hcomm
    obtain ⟨s₁, hrun, hfinal⟩ := update_mirrors.runFrom hs (List.forall_mem_map.mpr hw)
    obtain ⟨s₁', hrun', hfinal'⟩ := update_mirrors.runFrom hs (List.forall_mem_map.mpr hmem)
    obtain ⟨hans, hdata⟩ := interleaved hcomm s.orders
    obtain ⟨hans', hdata'⟩ := interleaved hcomm' s.orders
    refine ⟨_, _, s₁, s₁', hrun, hrun', fun c => ?_, ?_⟩
    · rw [hans, hans', hpart]
    · rw [hfinal, hfinal', hdata, hdata', hpart, hpart]

/-- Two clients at the two items of one order, the second of which came in progress. -/
theorem updates_commute_two :
    let o : Order := ⟨1, .new, [some ⟨1, 7, .new, ascii "Samosa", 2⟩, some ⟨1, 8, .inProgress, [], 1⟩]⟩
    let first : Op := .itemUpdate 1000 7 .inProgress
    let second : Op := .itemUpdate 1000 8 .done
    ∃ outs s, machine.run [.newOrder o] = some (outs, s) ∧ ∃ os os' s₁ s₁',
      machine.runFrom s [first, second] = some (os, s₁) ∧
      machine.runFrom s [second, first] = some (os', s₁') ∧
      (∀ c, answers c [(false, first), (true, second)] os
        = answers c [(true, second), (false, first)] os') ∧ s₁.orders = s₁'.orders := by
  intro o first second
  obtain ⟨outs, s, hrun⟩ := run_exists [.newOrder o] (fun o' ho => by
    obtain rfl : o' = o := by simpa using ho
    exact ⟨[_, _], rfl⟩) (by decide)
  refine ⟨outs, s, hrun, (updates_commute hrun).2 [(false, first), (true, second)]
    [(true, second), (false, first)] ?_ ?_ (fun c => by cases c <;> rfl)⟩
  · simp [first, second, Op.IsUpdate]
  · simp [part, first, second, Op.Independent]

end Server

end Restaurant
