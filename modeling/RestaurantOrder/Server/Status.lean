import RestaurantOrder.Server.Ids
import RestaurantOrder.Wire.RoundTrip

/-! Do order statuses and item statuses agree?

    `process_new_order` makes the order NEW and leaves its items as the client sent them, and the
    transition in `process_item_update` looks at the order's status as well as at the items. So the
    statuses agree in all reachable states exactly if the orders come with NEW items
    (`status_agrees_iff`).

        items NEW ... NEW      ──▶  some IN_PROGRESS or DONE  ──▶  DONE ... DONE
        order NEW                   IN_PROGRESS                    DONE          -/

namespace Restaurant.Server
open Schemes
open Wire (Decoded)

/-- All items have the status. -/
def AllItems (st : ItemStatus) (o : Order) : Prop := o.All fun it => it.status = st

/-- The order's status agrees with its items' statuses. -/
structure Agrees (o : Order) : Prop where
  new : o.status = .new ↔ AllItems .new o
  done : o.status = .done ↔ AllItems .done o
  inProgress : o.status = .inProgress ↔ ¬AllItems .new o ∧ ¬AllItems .done o

theorem allItems_iff {o : Order} {its : List Item} (hits : o.items = its.map some)
    {st : ItemStatus} : AllItems st o ↔ ∀ it ∈ its, it.status = st := by
  simp [AllItems, Order.All, hits]

/-! ### Agreement -/

theorem agrees_placed {o : Order} {its : List Item} (hits : o.items = its.map some)
    (hne : its ≠ []) (hnew : AllItems .new o) (id : Int32) : Agrees (placedOrder id its) := by
  have hitems : (placedOrder id its).items = (its.map (·.setOrderId id)).map some := rfl
  have hall : AllItems .new (placedOrder id its) := by
    rw [allItems_iff hits] at hnew
    rw [allItems_iff hitems]
    simpa using hnew
  have hnone : ¬AllItems .done (placedOrder id its) := fun hdone => by
    obtain ⟨it, hit⟩ := List.exists_mem_of_ne_nil _ hne
    rw [allItems_iff hitems] at hall hdone
    have hmem : it.setOrderId id ∈ its.map (·.setOrderId id) := List.mem_map_of_mem hit
    have := (hall _ hmem).symm.trans (hdone _ hmem)
    cases this
  exact ⟨⟨fun _ => hall, fun _ => rfl⟩, ⟨nofun, fun h => absurd h hnone⟩,
    ⟨nofun, fun h => absurd hall h.1⟩⟩

/-- An item update keeps the agreement. -/
theorem agrees_updated {o : Order} {its : List Item} {i : ℕ} {it : Item} {st : ItemStatus}
    (hits : o.items = its.map some) (hit : its[i]? = some it) (hst : it.status.Next st)
    (h : Agrees o) : Agrees (updatedOrder o its i st) := by
  have hmem := mem_updatedItems hit st
  have hall : ∀ st', AllItems st' (updatedOrder o its i st) ↔
      ∀ it ∈ updatedItems its i st, it.status = st' := fun st' => allItems_iff rfl
  have hold : it ∈ its := List.mem_of_getElem? hit
  -- the updated item is not NEW any more, and it was not DONE before
  have hnotnew : ¬AllItems .new (updatedOrder o its i st) := fun hn => by
    have : st = .new := (hall .new).mp hn _ hmem
    exact hst.ne_new this
  have hnotdone : ¬AllItems .done o := fun hd => by
    exact hst.ne_done ((allItems_iff hits).mp hd it hold)
  have hstatus : (updatedOrder o its i st).status
      = (autoTransition o.status st (updatedItems its i st)).getD o.status := rfl
  have hactive : o.status = .new ∨ o.status = .inProgress := by
    by_cases hn : AllItems .new o
    · exact Or.inl (h.new.mpr hn)
    · exact Or.inr (h.inProgress.mpr ⟨hn, hnotdone⟩)
  -- it is enough that the new status is DONE or IN_PROGRESS as the items say
  have key : (AllItems .done (updatedOrder o its i st) ∧ (updatedOrder o its i st).status = .done) ∨
      (¬AllItems .done (updatedOrder o its i st) ∧
        (updatedOrder o its i st).status = .inProgress) → Agrees (updatedOrder o its i st) := by
    rintro (⟨hd, hs⟩ | ⟨hd, hs⟩)
    · exact ⟨by simp [hs, hnotnew], by simp [hs, hd], by simp [hs, hd]⟩
    · exact ⟨by simp [hs, hnotnew], by simp [hs, hd], by simp [hs, hd, hnotnew]⟩
  refine key ?_
  rw [hstatus]
  rcases hst with ⟨hcur, rfl⟩ | ⟨hcur, rfl⟩
  · refine Or.inr ⟨fun hd => ?_, ?_⟩
    · have := (hall .done).mp hd _ hmem
      cases this
    · rcases hactive with ho | ho <;> simp [autoTransition, ho]
  · have ho : o.status = .inProgress := hactive.resolve_left fun hn => by
      have := (allItems_iff hits).mp (h.new.mp hn) it hold
      rw [this] at hcur; cases hcur
    by_cases hd : AllItems .done (updatedOrder o its i .done)
    · refine Or.inl ⟨hd, ?_⟩
      rw [autoTransition_eq_some.mpr (Or.inr ⟨rfl, ho, (hall .done).mp hd, rfl⟩)]
      rfl
    · refine Or.inr ⟨hd, ?_⟩
      cases hu : autoTransition o.status .done (updatedItems its i .done) with
      | none => exact ho
      | some u =>
        rcases autoTransition_eq_some.mp hu with ⟨hc, -⟩ | ⟨-, -, hdone, -⟩
        · cases hc
        · exact absurd ((hall .done).mpr hdone) hd

theorem agrees_run {ops : List Op} {outs : List Out} {s : Server}
    (hnew : ∀ o, .newOrder o ∈ ops → Decoded o ∧ AllItems .new o)
    (h : machine.run ops = some (outs, s)) {k : Int32} {o : Order} (ho : s.orders[k]? = some o) :
    Agrees o := by
  refine (run_orders (Q := fun o => Decoded o ∧ AllItems .new o) (R := fun _ => Agrees) ?_
    (fun _ _ _ _ _ _ _ hR hits _ hit hst => agrees_updated hits hit hst hR) hnew h).2 k o ho
  rintro o its id ⟨hdec, hall⟩ hits -
  exact agrees_placed hits (hdec.sendable.of_items hits).1 hall id

/-- CORRECT: over a run on decoded orders, order statuses agree with item statuses in every state
    reached exactly if every order came with NEW items only. -/
theorem status_agrees_iff {ops : List Op} {outs : List Out} {s : Server}
    (hdec : ∀ o, .newOrder o ∈ ops → Decoded o) (h : machine.run ops = some (outs, s)) :
    (∀ pre, pre <+: ops → ∀ outs₁ s₁, machine.run pre = some (outs₁, s₁) →
      ∀ (k : Int32) (o : Order), s₁.orders[k]? = some o → Agrees o) ↔
    ∀ o, .newOrder o ∈ ops → AllItems .new o := by
  constructor
  · intro hagree o ho
    obtain ⟨pre, post, rfl⟩ := List.append_of_mem ho
    -- the state right after the order was placed
    have hcut : pre ++ .newOrder o :: post = (pre ++ [.newOrder o]) ++ post := by simp
    rw [hcut] at h
    obtain ⟨outs₁, s₁, _, hrun, -, -⟩ := Machine.run_append h
    obtain ⟨outs₀, s₀, out, hpre, hstep, -⟩ := Machine.run_snoc.mp hrun
    cases step_took (run_good hpre) hstep with
    | @placed _ its hits hmax =>
      have hstored := getElem?_setOrder_self { s₀ with nextOrderId := s₀.nextOrderId + 1 }
        s₀.nextOrderId (placedOrder s₀.nextOrderId its)
      have hnew := (hagree _ ⟨post, hcut.symm⟩ _ _ hrun _ _ hstored).new.mp rfl
      have hitems : (placedOrder s₀.nextOrderId its).items
        = (its.map (·.setOrderId s₀.nextOrderId)).map some := rfl
      rw [allItems_iff hitems] at hnew
      rw [allItems_iff hits]
      simpa using hnew
  · rintro hnew pre ⟨post, rfl⟩ outs₁ s₁ hrun k o ho
    exact agrees_run (fun o ho => ⟨hdec o (List.mem_append_left _ ho),
      hnew o (List.mem_append_left _ ho)⟩) hrun ho

/-- Two orders with NEW items, one of which is served. -/
theorem status_agrees_iff_two :
    let o : Order := ⟨1, .new, [some ⟨1, 7, .new, ascii "Samosa", 2⟩]⟩
    let ops : List Op := [.newOrder o, .newOrder o, .itemUpdate 1000 7 .inProgress,
      .itemUpdate 1000 7 .done]
    ∃ outs s, machine.run ops = some (outs, s) ∧
      ((∀ pre, pre <+: ops → ∀ outs₁ s₁, machine.run pre = some (outs₁, s₁) →
        ∀ (k : Int32) (o : Order), s₁.orders[k]? = some o → Agrees o) ↔
      ∀ o, .newOrder o ∈ ops → AllItems .new o) := by
  intro o ops
  have hmem : ∀ o', .newOrder o' ∈ ops → o' = o := by simp [ops]
  have hdec : Decoded o := ⟨ascii "ORDER_NEW|1,NEW,1:7:NEW:Samosa:2", {}, .ofOrder .orderNew (some o),
    by decide +kernel, rfl, rfl⟩
  obtain ⟨outs, s, hrun⟩ := run_exists ops (fun o' ho => hmem o' ho ▸ ⟨[_], rfl⟩) (by decide)
  exact ⟨outs, s, hrun, status_agrees_iff (fun o' ho => hmem o' ho ▸ hdec) hrun⟩

/-- An order that comes with a DONE item is NEW all the same. -/
theorem not_agrees_done :
    let o : Order := ⟨1, .new, [some ⟨1, 7, .done, ascii "Samosa", 2⟩]⟩
    Decoded o ∧ ∃ outs s o', machine.run [.newOrder o] = some (outs, s) ∧
      s.orders[(1000 : Int32)]? = some o' ∧ ¬Agrees o' := by
  intro o
  refine ⟨⟨ascii "ORDER_NEW|1,NEW,1:7:DONE:Samosa:2", {}, .ofOrder .orderNew (some o),
    by decide +kernel, rfl, rfl⟩, ?_⟩
  obtain ⟨outs, s, hrun⟩ := run_exists [.newOrder o]
    (fun o' ho => by obtain rfl : o' = o := by simpa using ho
                     exact ⟨[_], rfl⟩) (by decide)
  have hstored : (machine.run [.newOrder o]).map (fun r => r.2.orders[(1000 : Int32)]?)
      = some (some ⟨1000, .new, [some ⟨1000, 7, .done, ascii "Samosa", 2⟩]⟩) := by
    decide +kernel
  rw [hrun] at hstored
  refine ⟨outs, s, _, hrun, Option.some.inj hstored, fun h => ?_⟩
  have := h.new.mp rfl _ List.mem_cons_self
  cases this

end Restaurant.Server
