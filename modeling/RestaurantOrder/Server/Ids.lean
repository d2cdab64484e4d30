import RestaurantOrder.Server.Step

/-! Order ids: none is lost, used twice or delivered early.

    A run has a history: the ids that `process_new_order` returned and the ids that
    `process_order_update` accepted. The ids returned are 1000, 1001, ... in the order of the calls, the
    map holds those of them that have not been delivered, and a done order has only done items, so an
    order that is delivered is done to the last item.

    CORRECT: `ids_and_orders`, for runs of fewer than 2^31 - 1000 new orders. Such runs are defined:
    only the overflow of the next id and a null item can stop one (`step_defined`). -/

namespace Restaurant.Server
open Schemes

/-- How many orders a list of operations creates. -/
def created (ops : List Op) : ℕ := ops.countP fun
  | .newOrder _ => true
  | _ => false

/-- The id that an operation gives to a new order. -/
def issuedBy : Op × Out → Option Int32
  | (.newOrder _, .ok (some id)) => some id
  | _ => none

/-- The id of the order that an operation delivers. -/
def deliveredBy : Op × Out → Option Int32
  | (.orderUpdate id _, .ok _) => some id
  | _ => none

/-- The ids that `process_new_order` has returned, in the order of its calls. -/
def issued (ops : List Op) (outs : List Out) : List Int32 := (ops.zip outs).filterMap issuedBy

/-- The ids for which `process_order_update` has succeeded. -/
def delivered (ops : List Op) (outs : List Out) : List Int32 := (ops.zip outs).filterMap deliveredBy

/-! ### One more operation -/

theorem issued_snoc {ops : List Op} {outs : List Out} (hlen : ops.length = outs.length) (op : Op)
    (out : Out) : issued (ops ++ [op]) (outs ++ [out])
      = issued ops outs ++ (issuedBy (op, out)).toList := by
  rw [issued, List.zip_append hlen, List.filterMap_append]
  cases h : issuedBy (op, out) <;> simp [issued, h]

theorem delivered_snoc {ops : List Op} {outs : List Out} (hlen : ops.length = outs.length) (op : Op)
    (out : Out) : delivered (ops ++ [op]) (outs ++ [out])
      = delivered ops outs ++ (deliveredBy (op, out)).toList := by
  rw [delivered, List.zip_append hlen, List.filterMap_append]
  cases h : deliveredBy (op, out) <;> simp [delivered, h]

theorem created_snoc (ops : List Op) (op : Op) :
    created (ops ++ [op]) = created ops + created [op] := List.countP_append

/-- What a run's history says about the state at its end. -/
structure History (ops : List Op) (outs : List Out) (s : Server) : Prop where
  length : ops.length = outs.length
  next : s.nextOrderId.toInt = 1000 + created ops
  ids : (issued ops outs).map Int32.toInt
    = (List.range (created ops)).map fun i : ℕ => 1000 + (i : ℤ)
  delivered_issued : ∀ k ∈ delivered ops outs, k ∈ issued ops outs
  keys : ∀ k : Int32, (∃ o, s.orders[k]? = some o) ↔
    k ∈ issued ops outs ∧ k ∉ delivered ops outs

/-- The ids given out are the ones below the next. -/
theorem History.mem_issued {ops : List Op} {outs : List Out} {s : Server}
    (h : History ops outs s) {k : Int32} (hk : k ∈ issued ops outs) :
    k.toInt < s.nextOrderId.toInt := by
  have hmem := List.mem_map_of_mem (f := Int32.toInt) hk
  rw [h.ids, List.mem_map] at hmem
  obtain ⟨i, hi, hki⟩ := hmem
  rw [List.mem_range] at hi
  rw [h.next, ← hki]
  omega

/-- An operation that creates and delivers nothing and keeps the keys. -/
theorem History.keep {ops : List Op} {outs : List Out} {s s' : Server} {op : Op} {out : Out}
    (h : History ops outs s) (hc : created [op] = 0) (hi : issuedBy (op, out) = none)
    (hd : deliveredBy (op, out) = none) (hnext : s'.nextOrderId = s.nextOrderId)
    (hkeys : ∀ k : Int32, (∃ o, s'.orders[k]? = some o) ↔ ∃ o, s.orders[k]? = some o) :
    History (ops ++ [op]) (outs ++ [out]) s' where
  length := by simp [h.length]
  next := by rw [hnext, h.next, created_snoc, hc, Nat.add_zero]
  ids := by
    rw [issued_snoc h.length, hi, created_snoc, hc]
    simpa using h.ids
  delivered_issued := by
    rw [issued_snoc h.length, delivered_snoc h.length, hi, hd]
    simpa using h.delivered_issued
  keys k := by
    rw [issued_snoc h.length, delivered_snoc h.length, hi, hd, hkeys]
    simpa using h.keys k

theorem History.step {ops : List Op} {outs : List Out} {s s' : Server} {op : Op} {out : Out}
    (h : History ops outs s) (htook : Took s op out s') :
    History (ops ++ [op]) (outs ++ [out]) s' := by
  cases htook with
  | @placed o its hits hmax =>
    have hnew : created [.newOrder o] = 1 := rfl
    have hissued : issuedBy (.newOrder o, .ok (some s.nextOrderId)) = some s.nextOrderId := rfl
    have hdel : deliveredBy (.newOrder o, .ok (some s.nextOrderId)) = none := rfl
    have hfresh : s.nextOrderId ∉ issued ops outs := fun hk => by
      have := h.mem_issued hk; omega
    refine ⟨by simp [h.length], ?_, ?_, ?_, fun k => ?_⟩
    · rw [tell_nextOrderId, setOrder_nextOrderId, toInt_succ hmax, h.next, created_snoc, hnew]
      omega
    · rw [issued_snoc h.length, hissued, List.map_append, h.ids, created_snoc, hnew,
        List.range_succ, List.map_append]
      simp [h.next]
    · rw [issued_snoc h.length, delivered_snoc h.length, hissued, hdel]
      intro k hk
      exact List.mem_append_left _ (h.delivered_issued k (by simpa using hk))
    · rw [issued_snoc h.length, delivered_snoc h.length, hissued, hdel, tell_orders,
        getElem?_setOrder]
      simp only [Option.toList_some, Option.toList_none, List.append_nil, List.mem_append,
        List.mem_singleton]
      by_cases hk : s.nextOrderId = k
      · subst hk
        have hnot : s.nextOrderId ∉ delivered ops outs := fun hd =>
          hfresh (h.delivered_issued _ hd)
        simp [hnot]
      · rw [if_neg hk]
        have hk' : ¬k = s.nextOrderId := fun he => hk he.symm
        have hkeys := h.keys k
        simp only [hk', or_false]
        exact hkeys
  | @itemUpdated k itemId st o its i it ho hits hi hit hst =>
    refine h.keep rfl rfl rfl rfl fun j => ?_
    rw [tell_orders, getElem?_setOrder]
    by_cases hk : k = j
    · subst hk; simp [ho]
    · rw [if_neg hk]
  | @delivered k o ho hdone =>
    have hissued : issuedBy (.orderUpdate k .delivered, .ok none) = none := rfl
    have hdel : deliveredBy (.orderUpdate k .delivered, .ok none) = some k := rfl
    refine ⟨by simp [h.length], ?_, ?_, ?_, fun j => ?_⟩
    · rw [tell_nextOrderId, eraseOrder_nextOrderId, h.next, created_snoc]; rfl
    · have hnone : created [.orderUpdate k .delivered] = 0 := rfl
      rw [issued_snoc h.length, hissued, created_snoc, hnone]
      simpa using h.ids
    · rw [issued_snoc h.length, delivered_snoc h.length, hissued, hdel]
      intro j hj
      simp only [Option.toList_some, Option.toList_none, List.append_nil, List.mem_append,
        List.mem_singleton] at hj ⊢
      rcases hj with hj | rfl
      · exact h.delivered_issued j hj
      · exact ((h.keys _).mp ⟨o, ho⟩).1
    · rw [issued_snoc h.length, delivered_snoc h.length, hissued, hdel, tell_orders,
        getElem?_eraseOrder]
      simp only [Option.toList_some, Option.toList_none, List.append_nil, List.mem_append,
        List.mem_singleton]
      by_cases hk : k = j
      · subst hk; simp
      · rw [if_neg hk]
        have hk' : ¬j = k := fun he => hk he.symm
        simp only [hk', or_false]
        exact h.keys j
  | itemRefused => exact h.keep rfl rfl rfl rfl fun _ => Iff.rfl
  | orderRefused => exact h.keep rfl rfl rfl rfl fun _ => Iff.rfl
  | registered => exact h.keep rfl rfl rfl rfl fun _ => Iff.rfl
  | unregistered => exact h.keep rfl rfl rfl rfl fun _ => Iff.rfl

theorem history_init : History [] [] machine.init where
  length := rfl
  next := by decide
  ids := rfl
  delivered_issued := by simp [delivered]
  keys k := by simp [machine, issued]

theorem history_run {ops : List Op} {outs : List Out} {s : Server}
    (h : machine.run ops = some (outs, s)) : History ops outs s :=
  (run_inv (A := fun _ => True) history_init (fun hh _ _ htook => hh.step htook)
    (fun _ _ => trivial) h).2

/-! ### Done orders -/

/-- A done order has only done items. -/
def DoneToTheLast (o : Order) : Prop := o.status = .done → ∀ it, some it ∈ o.items → it.status = .done

theorem autoTransition_eq_some {status u : OrderStatus} {st : ItemStatus} {its : List Item} :
    autoTransition status st its = some u ↔
      st = .inProgress ∧ status = .new ∧ u = .inProgress ∨
      st = .done ∧ status = .inProgress ∧ (∀ it ∈ its, it.status = .done) ∧ u = .done := by
  rw [autoTransition]
  split
  · next h => simp [h, eq_comm]
  · next h =>
    split
    · next h' =>
      obtain ⟨rfl, rfl, hall⟩ := h'
      simp only [Option.some.injEq, reduceCtorEq, false_and, false_or, true_and, and_iff_right hall]
      exact eq_comm
    · next h' =>
      simp only [reduceCtorEq, false_iff, not_or, not_and]
      exact ⟨fun h₁ h₂ => absurd ⟨h₁, h₂⟩ h, fun h₁ h₂ h₃ => absurd ⟨h₁, h₂, h₃⟩ h'⟩

/-- An order never becomes INVALID or DELIVERED by an item update. -/
theorem autoTransition_ne {status u : OrderStatus} {st : ItemStatus} {its : List Item}
    (h : autoTransition status st its = some u) : u ≠ .invalid ∧ u ≠ .delivered := by
  rcases autoTransition_eq_some.mp h with ⟨-, -, rfl⟩ | ⟨-, -, -, rfl⟩
  · exact ⟨nofun, nofun⟩
  · exact ⟨nofun, nofun⟩

/-- An update makes an order done only by making its last item done, and does not touch an order
    that is done already. -/
theorem doneToTheLast_updated {o : Order} {its : List Item} {i : ℕ} {it : Item} {st : ItemStatus}
    (hits : o.items = its.map some) (hit : its[i]? = some it) (hst : it.status.Next st)
    (h : DoneToTheLast o) : DoneToTheLast (updatedOrder o its i st) := by
  intro hdone
  have hold : o.status ≠ .done := by
    intro hs
    exact hst.ne_done (h hs it (by rw [hits]; exact List.mem_map_of_mem (List.mem_of_getElem? hit)))
  simp only [updatedOrder] at hdone ⊢
  cases hu : autoTransition o.status st (updatedItems its i st) with
  | none => rw [hu] at hdone; exact absurd hdone hold
  | some u =>
    rw [hu] at hdone
    rcases autoTransition_eq_some.mp hu with ⟨-, -, rfl⟩ | ⟨-, -, hall, -⟩
    · cases hdone
    · simpa using hall

theorem doneToTheLast_run {ops : List Op} {outs : List Out} {s : Server}
    (h : machine.run ops = some (outs, s)) {k : Int32} {o : Order} (ho : s.orders[k]? = some o) :
    DoneToTheLast o :=
  (run_orders (Q := fun _ => True) (R := fun _ => DoneToTheLast) (fun _ _ _ _ _ _ => nofun)
    (fun _ _ _ _ _ _ _ hR hits _ hit hst => doneToTheLast_updated hits hit hst hR)
    (fun _ _ => trivial) h).2 k o ho

/-! ### Defined runs -/

theorem created_mono (ops : List Op) (op : Op) : created ops ≤ created (ops ++ [op]) := by
  rw [created_snoc]; omega

/-- A run of fewer than 2^31 - 1000 new orders, none with a null item, is defined. -/
theorem run_exists (ops : List Op) (hfull : ∀ o, .newOrder o ∈ ops → o.Full)
    (hcount : created ops < 2 ^ 31 - 1000) : ∃ outs s, machine.run ops = some (outs, s) := by
  have hstep : ∀ (ops : List Op) (s : Server) (op : Op),
      ((∀ o, .newOrder o ∈ ops ++ [op] → o.Full) ∧ created (ops ++ [op]) < 2 ^ 31 - 1000) →
      (s.Good ∧ s.nextOrderId.toInt = 1000 + created ops) →
      ∃ out s', machine.step s op = some (out, s') ∧
        s'.Good ∧ s'.nextOrderId.toInt = 1000 + created (ops ++ [op]) := by
    rintro ops s op ⟨hf, hc⟩ ⟨hgood, hnext⟩
    rcases step_defined hgood op with ⟨out, s', hstep, htook⟩ | ⟨o, rfl, hbad, -⟩
    · refine ⟨out, s', hstep, htook.good hgood, ?_⟩
      rw [created_snoc]
      cases htook with
      | placed hits hmax =>
        rw [tell_nextOrderId, setOrder_nextOrderId, toInt_succ hmax, hnext]
        show (1000 : ℤ) + created ops + 1 = 1000 + (created ops + 1 : ℕ)
        omega
      | _ => exact hnext
    · rcases hbad with hbad | hmax
      · exact absurd (hf o (by simp)) hbad
      · have hlast : Int32.maxValue.toInt = 2 ^ 31 - 1 := by decide
        have hnew : created [.newOrder o] = 1 := rfl
        rw [created_snoc, hnew] at hc
        rw [hmax, hlast] at hnext
        omega
  obtain ⟨outs, s, hrun, -⟩ := Machine.run_defined (M := machine)
    (Q := fun ops => (∀ o, .newOrder o ∈ ops → o.Full) ∧ created ops < 2 ^ 31 - 1000)
    (P := fun ops s => s.Good ∧ s.nextOrderId.toInt = 1000 + created ops)
    ⟨good_init, history_init.next⟩
    (fun ops op h => ⟨fun o ho => h.1 o (List.mem_append_left _ ho),
      (created_mono ops op).trans_lt h.2⟩) hstep ops ⟨hfull, hcount⟩
  exact ⟨outs, s, hrun⟩

/-- CORRECT: in a run of fewer than 2^31 - 1000 new orders, whatever their statuses and in whatever
    order the operations come, the ids returned are 1000, 1001, ..., the map holds the orders that
    were created and not delivered, and an order that is delivered has only done items. -/
theorem ids_and_orders {ops : List Op} (hfull : ∀ o, .newOrder o ∈ ops → o.Full)
    (hcount : created ops < 2 ^ 31 - 1000) :
    ∃ outs s, machine.run ops = some (outs, s) ∧
      (issued ops outs).map Int32.toInt
        = (List.range (created ops)).map (fun i : ℕ => 1000 + (i : ℤ)) ∧
      (∀ k : Int32, k ∈ s.orders ↔ k ∈ issued ops outs ∧ k ∉ delivered ops outs) ∧
      ∀ pre k st post outs₁ s₁ r s₂, ops = pre ++ .orderUpdate k st :: post →
        machine.run pre = some (outs₁, s₁) →
        machine.step s₁ (.orderUpdate k st) = some (.ok r, s₂) →
        ∃ o, s₁.orders[k]? = some o ∧ k ∉ s₂.orders ∧ ∀ it, some it ∈ o.items → it.status = .done := by
  obtain ⟨outs, s, hrun⟩ := run_exists ops hfull hcount
  have hhist := history_run hrun
  have hmem : ∀ (s : Server) (k : Int32), k ∈ s.orders ↔ ∃ o, s.orders[k]? = some o := by
    intro s k
    rw [Std.ExtTreeMap.mem_iff_isSome_getElem?, Option.isSome_iff_exists]
  refine ⟨outs, s, hrun, hhist.ids, fun k => (hmem s k).trans (hhist.keys k), ?_⟩
  intro pre k st post outs₁ s₁ r s₂ _ hpre hstep
  have hgood := run_good hpre
  cases step_took hgood hstep with
  | @delivered _ o ho hdone =>
    refine ⟨o, ho, ?_, doneToTheLast_run hpre ho hdone⟩
    rw [hmem, tell_orders, getElem?_eraseOrder_self]
    rintro ⟨_, h⟩
    cases h

/-- Two orders, of which the first is delivered, with an update that is refused in between. -/
theorem ids_and_orders_two :
    let o : Order := ⟨1, .new, [some ⟨1, 7, .new, ascii "Samosa", 2⟩]⟩
    let ops : List Op := [.newOrder o, .itemUpdate 1000 7 .inProgress, .newOrder o,
      .itemUpdate 1000 7 .inProgress, .itemUpdate 1000 7 .done, .orderUpdate 1000 .delivered]
    ∃ outs s, machine.run ops = some (outs, s) ∧
      (issued ops outs).map Int32.toInt
        = (List.range (created ops)).map (fun i : ℕ => 1000 + (i : ℤ)) ∧
      (∀ k : Int32, k ∈ s.orders ↔ k ∈ issued ops outs ∧ k ∉ delivered ops outs) ∧
      ∀ pre k st post outs₁ s₁ r s₂, ops = pre ++ .orderUpdate k st :: post →
        machine.run pre = some (outs₁, s₁) →
        machine.step s₁ (.orderUpdate k st) = some (.ok r, s₂) →
        ∃ o, s₁.orders[k]? = some o ∧ k ∉ s₂.orders ∧
          ∀ it, some it ∈ o.items → it.status = .done := by
  refine ids_and_orders (fun o ho => ?_) (by decide)
  simp only [List.mem_cons, Op.newOrder.injEq, reduceCtorEq, List.not_mem_nil, or_false,
    false_or] at ho
  rcases ho with rfl | rfl <;> exact ⟨[_], rfl⟩

end Restaurant.Server
