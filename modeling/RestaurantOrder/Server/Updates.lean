import RestaurantOrder.Server.Status

/-! Updates: which succeed, and what they change.

    Both update operations check all there is to check before they change anything. So a refused one
    leaves the state as it was (`updates_exact`), and one that succeeds changes one item, at most the
    status of its order, and the queues of the displays (`itemUpdate_changes`).

        item i, status st ──▶ DISP_ITEM_UPDATE ──▶ DISP_ORDER_UPDATE, if the order moves -/

namespace Restaurant.Server
open Schemes

/-- The first item of an order with the id. -/
def firstItem (itemId : Int32) (o : Order) : Option Item :=
  o.items.reduceOption.find? fun it => it.id = itemId

/-- The order is stored and has an item with the id, and `st` is one status further for the first
    such item. -/
def ItemUpdatable (s : Server) (k itemId : Int32) (st : ItemStatus) : Prop :=
  ∃ o it, s.orders[k]? = some o ∧ firstItem itemId o = some it ∧ it.status.Next st

/-- The order is stored and done, and is to be delivered. -/
def OrderUpdatable (s : Server) (k : Int32) (st : OrderStatus) : Prop :=
  ∃ o, s.orders[k]? = some o ∧ o.status = .done ∧ st = .delivered

/-- The first item with an id is the one that `find_item` points to. -/
theorem firstItem_iff {o : Order} {its : List Item} (hits : o.items = its.map some) {itemId : Int32}
    {it : Item} :
    firstItem itemId o = some it ↔ ∃ i, position itemId its = some i ∧ its[i]? = some it := by
  rw [firstItem, hits, Wire.reduceOption_map_some, position, List.find?_eq_some_iff_getElem]
  simp only [List.findIdx?_eq_some_iff_getElem, decide_eq_true_eq, Bool.not_eq_true',
    decide_eq_false_iff_not]
  constructor
  · rintro ⟨hid, i, hi, rfl, hfirst⟩
    exact ⟨i, ⟨hi, hid, hfirst⟩, List.getElem?_eq_getElem hi⟩
  · rintro ⟨i, ⟨hi, hid, hfirst⟩, hit⟩
    obtain ⟨_, rfl⟩ := List.getElem?_eq_some_iff.mp hit
    exact ⟨hid, i, hi, rfl, hfirst⟩

/-- On a state without null items, an update can be made exactly if `find_item` finds its item and
    the status change is allowed. -/
theorem itemUpdatable_iff {s : Server} (hs : s.Good) {k itemId : Int32} {st : ItemStatus} :
    ItemUpdatable s k itemId st ↔ ∃ o its i it, s.orders[k]? = some o ∧ o.items = its.map some ∧
      position itemId its = some i ∧ its[i]? = some it ∧ it.status.Next st := by
  constructor
  · rintro ⟨o, it, ho, hfirst, hst⟩
    obtain ⟨its, hits⟩ := hs.full k o ho
    obtain ⟨i, hi, hit⟩ := (firstItem_iff hits).mp hfirst
    exact ⟨o, its, i, it, ho, hits, hi, hit, hst⟩
  · rintro ⟨o, its, i, it, ho, hits, hi, hit, hst⟩
    exact ⟨o, it, ho, (firstItem_iff hits).mpr ⟨i, hi, hit⟩, hst⟩

theorem itemUpdate_iff {s : Server} (hs : s.Good) (k itemId : Int32) (st : ItemStatus) :
    (∃ s', exec (processItemUpdate k itemId st) s = (.ok (), s')) ↔ ItemUpdatable s k itemId st := by
  rw [itemUpdatable_iff hs]
  constructor
  · rintro ⟨s', hrun⟩
    by_contra hno
    obtain ⟨what, -, hw⟩ := exec_processItemUpdate_refused hs hno
    cases hrun.symm.trans hw
  · rintro ⟨o, its, i, it, ho, hits, hi, hit, hst⟩
    exact ⟨_, exec_processItemUpdate ho hits hi hit hst⟩

theorem orderUpdate_iff (s : Server) (k : Int32) (st : OrderStatus) :
    (∃ s', exec (processOrderUpdate k st) s = (.ok (), s')) ↔ OrderUpdatable s k st := by
  constructor
  · rintro ⟨s', hrun⟩
    by_contra hno
    obtain ⟨what, -, hw⟩ := exec_processOrderUpdate_refused hno
    cases hrun.symm.trans hw
  · rintro ⟨o, ho, hdone, rfl⟩
    exact ⟨_, exec_processOrderUpdate ho hdone⟩

/-- No operation changes anything before it throws, whichever displays there are to be told. -/
theorem throws_unchanged {s s' : Server} (hs : s.Good) {op : Op} {e : Exception}
    (h : exec (call op) s = (raise e, s')) : s' = s := by
  have hstep : machine.step s op = some (.error e, s') := by rw [step_eq, h]; rfl
  cases step_took hs hstep with
  | itemRefused => rfl
  | orderRefused => rfl

/-- The displays do not matter for what is stored. -/
theorem Good.displays {s : Server} (hs : s.Good) (displays : Finset Client) :
    ({ s with displayClients := displays } : Server).Good :=
  ⟨hs.full, hs.id, hs.issued, hs.next⟩

/-- CORRECT: in every reachable state an update succeeds exactly if it is valid, and throws
    SemanticError and changes nothing otherwise. Nothing is told before the exception: it would show
    in the queues, were there a display. -/
theorem updates_exact {ops : List Op} {outs : List Out} {s : Server}
    (h : machine.run ops = some (outs, s)) :
    (∀ k itemId st,
      ((∃ s', exec (processItemUpdate k itemId st) s = (.ok (), s')) ↔ ItemUpdatable s k itemId st) ∧
      (¬ItemUpdatable s k itemId st → ∃ what,
        exec (processItemUpdate k itemId st) s = (raise (.semanticError what), s))) ∧
    (∀ k st,
      ((∃ s', exec (processOrderUpdate k st) s = (.ok (), s')) ↔ OrderUpdatable s k st) ∧
      (¬OrderUpdatable s k st → ∃ what,
        exec (processOrderUpdate k st) s = (raise (.semanticError what), s))) ∧
    ∀ displays op what s',
      exec (call op) { s with displayClients := displays } = (raise (.semanticError what), s') →
        s' = { s with displayClients := displays } := by
  have hs := run_good h
  refine ⟨fun k itemId st => ⟨itemUpdate_iff hs k itemId st, fun hno => ?_⟩,
    fun k st => ⟨orderUpdate_iff s k st, fun hno => ?_⟩,
    fun displays op what s' hrun => throws_unchanged (hs.displays displays) hrun⟩
  · rw [itemUpdatable_iff hs] at hno
    obtain ⟨what, -, hw⟩ := exec_processItemUpdate_refused hs hno
    exact ⟨_, hw⟩
  · obtain ⟨what, -, hw⟩ := exec_processOrderUpdate_refused hno
    exact ⟨_, hw⟩

/-- With two items of one id, one of them in progress, and a display. -/
theorem updates_exact_two :
    let o : Order := ⟨1, .new, [some ⟨1, 7, .new, ascii "Samosa", 2⟩, some ⟨1, 7, .new, [], 1⟩]⟩
    ∃ outs s, machine.run [.registerDisplay 0, .newOrder o, .itemUpdate 1000 7 .inProgress]
        = some (outs, s) ∧
      ∀ k st, ((∃ s', exec (processOrderUpdate k st) s = (.ok (), s')) ↔ OrderUpdatable s k st) ∧
        (¬OrderUpdatable s k st → ∃ what,
          exec (processOrderUpdate k st) s = (raise (.semanticError what), s)) := by
  intro o
  obtain ⟨outs, s, hrun⟩ := run_exists
    [.registerDisplay 0, .newOrder o, .itemUpdate 1000 7 .inProgress]
    (fun o' ho => by obtain rfl : o' = o := by simpa using ho
                     exact ⟨[_, _], rfl⟩) (by decide)
  exact ⟨outs, s, hrun, (updates_exact hrun).2.1⟩

/-! ### What a successful update changes -/

/-- The order `o'` is `o` after its first item with the id took the status `st`. -/
structure ItemTook (itemId : Int32) (st : ItemStatus) (o o' : Order) : Prop where
  id : o'.id = o.id
  items : ∃ pre it post, o.items = pre ++ some it :: post ∧ it.id = itemId ∧
    (∀ it', some it' ∈ pre → it'.id ≠ itemId) ∧ o'.items = pre ++ some (it.setStatus st) :: post
  starts : st = .inProgress → o.status = .new → o'.status = .inProgress
  finishes : o.status = .inProgress → AllItems .done o' → o'.status = .done
  stays : ¬(st = .inProgress ∧ o.status = .new) → ¬(o.status = .inProgress ∧ AllItems .done o') →
    o'.status = o.status
  agrees : Agrees o → Agrees o'

/-- The state `s'` is `s` after a successful item update. -/
structure ItemUpdated (s s' : Server) (k itemId : Int32) (st : ItemStatus) : Prop where
  order : ∃ o o', s.orders[k]? = some o ∧ s'.orders[k]? = some o' ∧ ItemTook itemId st o o' ∧
    ∀ c, c ∈ s.displayClients → s'.queue c = s.queue c ++
      .ofItemStatus .dispItemUpdate k itemId st ::
        if o'.status ≠ o.status then [.ofOrderStatus .dispOrderUpdate k o'.status] else []
  others : ∀ j, j ≠ k → s'.orders[j]? = s.orders[j]?
  next : s'.nextOrderId = s.nextOrderId
  displays : s'.displayClients = s.displayClients
  unregistered : ∀ c, c ∉ s.displayClients → s'.queue c = s.queue c

/-- The list around the item that `find_item` points to. -/
theorem items_around {its : List Item} {itemId : Int32} {i : ℕ} {it : Item}
    (hi : position itemId its = some i) (hit : its[i]? = some it) (st : ItemStatus) :
    its = its.take i ++ it :: its.drop (i + 1) ∧ it.id = itemId ∧
      (∀ it' ∈ its.take i, it'.id ≠ itemId) ∧
      updatedItems its i st = its.take i ++ it.setStatus st :: its.drop (i + 1) := by
  obtain ⟨hlt, hid, hfirst⟩ := List.findIdx?_eq_some_iff_getElem.mp hi
  obtain ⟨_, rfl⟩ := List.getElem?_eq_some_iff.mp hit
  refine ⟨by simp, by simpa using hid, fun it' hit' => ?_, ?_⟩
  · obtain ⟨j, hj, rfl⟩ := List.mem_take_iff_getElem.mp hit'
    simpa using hfirst j (by omega)
  · rw [updatedItems, List.modify_eq_take_cons_drop hlt]

/-- An order moves exactly if one of the two transitions is due. -/
theorem itemTook_updated {o : Order} {its : List Item} {itemId : Int32} {i : ℕ} {it : Item}
    {st : ItemStatus} (hits : o.items = its.map some) (hi : position itemId its = some i)
    (hit : its[i]? = some it) (hst : it.status.Next st) :
    ItemTook itemId st o (updatedOrder o its i st) := by
  obtain ⟨haround, hid, hfirst, hupdated⟩ := items_around hi hit st
  have hmem := mem_updatedItems hit st
  have hstatus : (updatedOrder o its i st).status
      = (autoTransition o.status st (updatedItems its i st)).getD o.status := rfl
  have hall : AllItems .done (updatedOrder o its i st) ↔
      ∀ it ∈ updatedItems its i st, it.status = .done := allItems_iff rfl
  refine ⟨rfl, ⟨(its.take i).map some, it, (its.drop (i + 1)).map some, ?_, hid, ?_, ?_⟩, ?_, ?_, ?_,
    agrees_updated hits hit hst⟩
  · rw [hits, ← List.map_cons, ← List.map_append, ← haround]
  · intro it' hit'
    obtain ⟨_, hmem', he⟩ := List.mem_map.mp hit'
    obtain rfl := Option.some.inj he
    exact hfirst _ hmem'
  · rw [← List.map_cons, ← List.map_append, ← hupdated]
    rfl
  · intro hs hnew
    rw [hstatus, autoTransition_eq_some.mpr (Or.inl ⟨hs, hnew, rfl⟩)]
    rfl
  · intro hprog hdone
    -- the updated item is done too, so DONE is the status of this update
    have hs : st = .done := hall.mp hdone _ hmem
    rw [hstatus, autoTransition_eq_some.mpr (Or.inr ⟨hs, hprog, hall.mp hdone, rfl⟩)]
    rfl
  · intro hstart hfinish
    rw [hstatus]
    cases hu : autoTransition o.status st (updatedItems its i st) with
    | none => rfl
    | some u =>
      rcases autoTransition_eq_some.mp hu with ⟨hs, hnew, -⟩ | ⟨-, hprog, hdone, -⟩
      · exact absurd ⟨hs, hnew⟩ hstart
      · exact absurd ⟨hprog, hall.mpr hdone⟩ hfinish

/-- The second message goes out exactly if the order moves. -/
theorem updateMessages_eq (o : Order) (its : List Item) (i : ℕ) (k itemId : Int32)
    (st : ItemStatus) :
    updateMessages k itemId st (autoTransition o.status st (updatedItems its i st))
      = .ofItemStatus .dispItemUpdate k itemId st ::
        if (updatedOrder o its i st).status ≠ o.status then
          [.ofOrderStatus .dispOrderUpdate k (updatedOrder o its i st).status] else [] := by
  have hstatus : (updatedOrder o its i st).status
      = (autoTransition o.status st (updatedItems its i st)).getD o.status := rfl
  rw [updateMessages, hstatus]
  cases hu : autoTransition o.status st (updatedItems its i st) with
  | none => simp
  | some u =>
    have hne : u ≠ o.status := by
      rcases autoTransition_eq_some.mp hu with ⟨-, hnew, rfl⟩ | ⟨-, hprog, -, rfl⟩
      · rw [hnew]; decide
      · rw [hprog]; decide
    simp [hne]

/-- CORRECT: a successful item update in a reachable state changes the first item with the id and at
    most the status of its order, and tells every registered display and nobody else. -/
theorem itemUpdate_changes {ops : List Op} {outs : List Out} {s s' : Server} {k itemId : Int32}
    {st : ItemStatus} (h : machine.run ops = some (outs, s))
    (hrun : exec (processItemUpdate k itemId st) s = (.ok (), s')) :
    ItemUpdated s s' k itemId st := by
  have hs := run_good h
  obtain ⟨o, its, i, it, ho, hits, hi, hit, hst⟩ :=
    (itemUpdatable_iff hs).mp ((itemUpdate_iff hs k itemId st).mp ⟨s', hrun⟩)
  rw [exec_processItemUpdate ho hits hi hit hst, Prod.mk.injEq] at hrun
  obtain ⟨-, rfl⟩ := hrun
  refine ⟨⟨o, updatedOrder o its i st, ho, ?_, itemTook_updated hits hi hit hst, fun c hc => ?_⟩,
    fun j hj => ?_, rfl, rfl, fun c hc => tell_queue_of_not_mem hc _⟩
  · rw [tell_orders, getElem?_setOrder_self]
  · rw [← updateMessages_eq]
    exact tell_queue_of_mem hc _
  · rw [tell_orders, getElem?_setOrder, if_neg hj.symm]

/-- The last item of an order becomes done, in front of a display. -/
theorem itemUpdate_changes_two :
    let o : Order := ⟨1, .new, [some ⟨1, 7, .new, ascii "Samosa", 2⟩]⟩
    ∃ outs s s', machine.run [.registerDisplay 0, .newOrder o, .itemUpdate 1000 7 .inProgress]
        = some (outs, s) ∧
      exec (processItemUpdate 1000 7 .done) s = (.ok (), s') ∧ ItemUpdated s s' 1000 7 .done := by
  intro o
  obtain ⟨outs, s, hrun⟩ := run_exists
    [.registerDisplay 0, .newOrder o, .itemUpdate 1000 7 .inProgress]
    (fun o' ho => by obtain rfl : o' = o := by simpa using ho
                     exact ⟨[_], rfl⟩) (by decide)
  have hstored : (machine.run [.registerDisplay 0, .newOrder o, .itemUpdate 1000 7 .inProgress]).map
      (fun r => r.2.orders[(1000 : Int32)]?)
      = some (some ⟨1000, .inProgress, [some ⟨1000, 7, .inProgress, ascii "Samosa", 2⟩]⟩) := by
    decide +kernel
  rw [hrun] at hstored
  have hdone := @exec_processItemUpdate s 1000 7 .done _
    [⟨1000, 7, .inProgress, ascii "Samosa", 2⟩] 0 _ (Option.some.inj hstored) rfl rfl rfl
    (Or.inr ⟨rfl, rfl⟩)
  exact ⟨outs, s, _, hrun, hdone, itemUpdate_changes hrun hdone⟩

end Restaurant.Server
