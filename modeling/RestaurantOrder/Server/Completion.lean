import RestaurantOrder.Server.Status

/-! Can every order be finished?

    `find_item` reaches the first item with an id only. An order that came with NEW items can be
    finished exactly if its item ids are distinct (`completable_iff_distinctIds`): with distinct ids every
    update that is left to make can be made, and an item that shares its id with an earlier one stays
    NEW for ever. -/

namespace Restaurant.Server
open Schemes
open Wire (Decoded)

/-- Updates of the items of an order, and its delivery. -/
def completion (k : Int32) (updates : List (Int32 × ItemStatus)) : List Op :=
  updates.map (fun u => .itemUpdate k u.1 u.2) ++ [.orderUpdate k .delivered]

/-- Some item updates and a delivery succeed one after the other and remove the order. -/
def Completable (s : Server) (k : Int32) : Prop :=
  ∃ updates outs s', machine.runFrom s (completion k updates) = some (outs, s') ∧
    (∀ out ∈ outs, ∃ r, out = .ok r) ∧ k ∉ s'.orders

/-! ### Distinct ids -/

/-- With distinct ids `find_item` reaches every item, and only with distinct ids. -/
theorem nodup_iff_position {its : List Item} : (its.map Item.id).Nodup ↔
    ∀ (j : ℕ) (it : Item), its[j]? = some it → position it.id its = some j := by
  rw [List.nodup_iff_getElem?_ne_getElem?]
  constructor
  · intro h j it hj
    obtain ⟨hlt, rfl⟩ := List.getElem?_eq_some_iff.mp hj
    refine List.findIdx?_eq_some_iff_getElem.mpr ⟨hlt, by simp, fun i hij => ?_⟩
    have hne := h i j hij (by simpa using hlt)
    have hi : i < its.length := hij.trans hlt
    rw [List.getElem?_map, List.getElem?_map, List.getElem?_eq_getElem hi,
      List.getElem?_eq_getElem hlt] at hne
    simpa using hne
  · intro h i j hij hj heq
    have hj' : j < its.length := by simpa using hj
    have hi' : i < its.length := hij.trans hj'
    rw [List.getElem?_map, List.getElem?_map, List.getElem?_eq_getElem hi',
      List.getElem?_eq_getElem hj'] at heq
    have hid : its[i].id = its[j].id := Option.some.inj heq
    have hpi := h i _ (List.getElem?_eq_getElem hi')
    have hpj := h j _ (List.getElem?_eq_getElem hj')
    rw [hid, hpj] at hpi
    exact absurd (Option.some.inj hpi) (by omega)

/-! ### Progress -/

/-- How many updates an item still needs. -/
def rank : ItemStatus → ℕ
  | .new => 2
  | .inProgress => 1
  | .done => 0
  | .invalid => 0

/-- How many updates the items still need. -/
def work (its : List Item) : ℕ := (its.map fun it => rank it.status).sum

theorem rank_next {cur st : ItemStatus} (h : cur.Next st) : rank st + 1 = rank cur := by
  rcases h with ⟨rfl, rfl⟩ | ⟨rfl, rfl⟩ <;> rfl

theorem rank_eq_zero {st : ItemStatus} (hv : st ≠ .invalid) : rank st = 0 ↔ st = .done := by
  cases st <;> simp_all [rank]

/-- Nothing is left to do when all items are done. -/
theorem work_eq_zero {its : List Item} (hv : ∀ it ∈ its, it.status ≠ .invalid) :
    work its = 0 ↔ ∀ it ∈ its, it.status = .done := by
  induction its with
  | nil => simp [work]
  | cons it its ih =>
    have hrest := ih fun it hit => hv it (List.mem_cons_of_mem _ hit)
    rw [work] at hrest
    rw [work, List.map_cons, List.sum_cons, Nat.add_eq_zero_iff, hrest,
      rank_eq_zero (hv it List.mem_cons_self), List.forall_mem_cons]

/-- Each update leaves one update less. -/
theorem work_updated {its : List Item} {i : ℕ} {it : Item} {st : ItemStatus}
    (hit : its[i]? = some it) (hst : it.status.Next st) :
    work (updatedItems its i st) + 1 = work its := by
  induction its generalizing i with
  | nil => cases hit
  | cons a its ih =>
    cases i with
    | zero =>
      obtain rfl : a = it := by simpa using hit
      have hrank := rank_next hst
      simp only [updatedItems, work, List.modify_zero_cons, List.map_cons, List.sum_cons,
        Item.setStatus_status]
      omega
    | succ i =>
      have hrest := ih (i := i) (by simpa using hit)
      simp only [updatedItems, work, List.modify_succ_cons, List.map_cons, List.sum_cons] at hrest ⊢
      omega

/-- An item that is not done has a next status. -/
theorem next_exists {cur : ItemStatus} (hv : cur ≠ .invalid) (hd : cur ≠ .done) :
    ∃ st, cur.Next st := by
  cases cur with
  | invalid => exact absurd rfl hv
  | new => exact ⟨_, Or.inl ⟨rfl, rfl⟩⟩
  | inProgress => exact ⟨_, Or.inr ⟨rfl, rfl⟩⟩
  | done => exact absurd rfl hd

theorem ne_invalid_updated {its : List Item} (h : ∀ it ∈ its, it.status ≠ .invalid) {i : ℕ}
    {st cur : ItemStatus} (hst : cur.Next st) : ∀ it ∈ updatedItems its i st, it.status ≠ .invalid := by
  intro it hit
  obtain ⟨j, hj⟩ := List.mem_iff_getElem?.mp hit
  rw [getElem?_updatedItems] at hj
  split at hj
  · obtain ⟨it', -, rfl⟩ := Option.map_eq_some_iff.mp hj
    exact hst.ne_invalid
  · exact h it (List.mem_of_getElem? hj)

theorem not_mem_orders {s : Server} {k : Int32} (h : s.orders[k]? = none) : k ∉ s.orders := by
  rw [Std.ExtTreeMap.mem_iff_isSome_getElem?, h]; exact nofun

/-- An order with distinct item ids whose statuses agree can be finished. The induction is on the
    updates its items still need. -/
theorem completable_of_nodup : ∀ (n : ℕ) {s : Server} {k : Int32} {o : Order} {its : List Item},
    work its = n → s.Good → s.orders[k]? = some o → o.items = its.map some →
    (its.map Item.id).Nodup → Agrees o → (∀ it ∈ its, it.status ≠ .invalid) → Completable s k := by
  intro n
  induction n with
  | zero =>
    intro s k o its hwork hs ho hits _ hagree hv
    have hdone : o.status = .done := by
      rw [hagree.done, allItems_iff hits]
      exact (work_eq_zero hv).mp hwork
    refine ⟨[], [.ok none], _, Machine.runFrom_one.mpr ⟨_, step_delivered ho hdone, rfl⟩, ?_, ?_⟩
    · simp
    · exact not_mem_orders (by rw [tell_orders, getElem?_eraseOrder_self])
  | succ n ih =>
    intro s k o its hwork hs ho hits hnodup hagree hv
    obtain ⟨it, hit, hnd⟩ : ∃ it ∈ its, it.status ≠ .done := by
      by_contra hnone
      have hall : ∀ it ∈ its, it.status = .done := fun it hit =>
        not_not.mp fun hnd => hnone ⟨it, hit, hnd⟩
      have := (work_eq_zero hv).mpr hall
      omega
    obtain ⟨i, hi⟩ := List.mem_iff_getElem?.mp hit
    obtain ⟨st, hst⟩ := next_exists (hv it hit) hnd
    have hpos := nodup_iff_position.mp hnodup i it hi
    have hstep := step_itemUpdated ho hits hpos hi hst
    have hgood := (step_took hs hstep).good hs
    obtain ⟨updates, outs, s', hrun, hok, hgone⟩ := ih
      (by have := work_updated hi hst; omega) hgood
      (by rw [tell_orders, getElem?_setOrder_self]) rfl
      (by rw [ids_updatedItems]; exact hnodup) (agrees_updated hits hi hst hagree)
      (ne_invalid_updated hv hst)
    refine ⟨(it.id, st) :: updates, .ok none :: outs, s',
      Machine.runFrom_cons.mpr ⟨_, _, outs, hstep, hrun, rfl⟩, ?_, hgone⟩
    intro out hout
    rcases List.mem_cons.mp hout with rfl | hout
    · exact ⟨none, rfl⟩
    · exact hok out hout

/-! ### Items out of reach -/

/-- What holds of an order that came with NEW items: its status agrees with its items, no item status
    is INVALID, and items that `find_item` does not reach are NEW. -/
structure Tended (o : Order) : Prop where
  agrees : Agrees o
  valid : ∀ it, some it ∈ o.items → it.status ≠ .invalid
  late : ∀ its (j : ℕ) (it : Item), o.items = its.map some → its[j]? = some it →
    position it.id its ≠ some j → it.status = .new

theorem tended_placed {o : Order} {its : List Item} (hits : o.items = its.map some) (hne : its ≠ [])
    (hnew : AllItems .new o) (id : Int32) : Tended (placedOrder id its) := by
  have hstatus : ∀ it ∈ its.map (·.setOrderId id), it.status = .new := by
    simpa using (allItems_iff hits).mp hnew
  refine ⟨agrees_placed hits hne hnew id, fun it hit => ?_, fun its' j it hits' hj _ => ?_⟩
  · rw [hstatus it (by simpa [placedOrder] using hit)]
    exact nofun
  · obtain rfl := Order.items_inj rfl hits'
    exact hstatus it (List.mem_of_getElem? hj)

theorem tended_updated {o : Order} {its : List Item} {itemId : Int32} {i : ℕ} {it : Item}
    {st : ItemStatus} (hits : o.items = its.map some) (hi : position itemId its = some i)
    (hit : its[i]? = some it) (hst : it.status.Next st) (h : Tended o) :
    Tended (updatedOrder o its i st) := by
  have hvalid : ∀ it ∈ its, it.status ≠ .invalid := fun it hmem =>
    h.valid it (by rw [hits]; exact List.mem_map_of_mem hmem)
  refine ⟨agrees_updated hits hit hst h.agrees, fun it' hit' => ?_, fun its' j it' hits' hj hpos => ?_⟩
  · exact ne_invalid_updated hvalid hst it' (by simpa [updatedOrder] using hit')
  · obtain rfl := Order.items_inj rfl hits'
    rw [position_updatedItems] at hpos
    rw [getElem?_updatedItems] at hj
    split at hj
    · next hij =>
      -- the updated item is the one that `find_item` reaches
      subst hij
      obtain ⟨it₀, hit₀, rfl⟩ := Option.map_eq_some_iff.mp hj
      obtain ⟨it₁, hit₁, hid⟩ := position_some hi
      obtain rfl : it₀ = it₁ := Option.some.inj (hit₀.symm.trans hit₁)
      exact absurd (by rw [Item.setStatus_id, hid]; exact hi) hpos
    · exact h.late its j it' hits hj hpos

theorem tended_run {ops : List Op} {outs : List Out} {s : Server}
    (hnew : ∀ o, .newOrder o ∈ ops → Decoded o ∧ AllItems .new o)
    (h : machine.run ops = some (outs, s)) {k : Int32} {o : Order} (ho : s.orders[k]? = some o) :
    Tended o := by
  refine (run_orders (Q := fun o => Decoded o ∧ AllItems .new o) (R := fun _ => Tended) ?_
    (fun _ _ _ _ _ _ _ hR hits hi hit hst => tended_updated hits hi hit hst hR) hnew h).2 k o ho
  rintro o its id ⟨hdec, hall⟩ hits -
  exact tended_placed hits (hdec.sendable.of_items hits).1 hall id

/-- An order that gets finished has distinct item ids: it is delivered as DONE, with its items DONE,
    and an item out of reach would still be NEW. -/
theorem nodup_of_completable {s : Server} {k : Int32} {o : Order} {its : List Item} (hs : s.Good)
    (ho : s.orders[k]? = some o) (hits : o.items = its.map some) (ht : Tended o)
    (h : Completable s k) : (its.map Item.id).Nodup := by
  obtain ⟨updates, outs, s', hrun, hok, -⟩ := h
  obtain ⟨outs₁, s₁, _, hupd, hlast, rfl⟩ := Machine.runFrom_append.mp hrun
  obtain ⟨out, hstep, rfl⟩ := Machine.runFrom_one.mp hlast
  -- along the updates the order stays tended and keeps its ids
  obtain ⟨hs₁, hkept⟩ := runFrom_orders (Q := fun _ => False)
    (R := fun j o' => j = k → Tended o' ∧ ∃ its' : List Item, o'.items = its'.map some ∧
      its'.map Item.id = its.map Item.id) hs (by
        rintro j o' hj rfl
        obtain rfl := Option.some.inj (ho.symm.trans hj)
        exact ⟨ht, its, hits, rfl⟩)
    (fun _ _ _ hf => hf.elim) (by
      rintro j o' its' itemId i it st hR hits' hi hit hst rfl
      obtain ⟨ht', its₂, hits₂, hids⟩ := hR rfl
      obtain rfl := Order.items_inj hits' hits₂
      exact ⟨tended_updated hits' hi hit hst ht', _, rfl, by rw [ids_updatedItems, hids]⟩)
    (fun o' ho' => by simp at ho') hupd
  obtain ⟨r, rfl⟩ := hok out (by simp)
  cases step_took hs₁ hstep with
  | @delivered _ o₁ ho₁ hdone =>
    obtain ⟨ht₁, its₁, hits₁, hids⟩ := hkept k o₁ ho₁ rfl
    rw [← hids, nodup_iff_position]
    intro j it hj
    by_contra hpos
    have hnew := ht₁.late its₁ j it hits₁ hj hpos
    have hall := (allItems_iff hits₁).mp (ht₁.agrees.done.mp hdone) it (List.mem_of_getElem? hj)
    rw [hnew] at hall
    cases hall

theorem completable_iff {ops : List Op} {outs : List Out} {s : Server}
    (hnew : ∀ o, .newOrder o ∈ ops → Decoded o ∧ AllItems .new o)
    (h : machine.run ops = some (outs, s)) {k : Int32} {o : Order} (its : List Item)
    (ho : s.orders[k]? = some o) (hits : o.items = its.map some) :
    Completable s k ↔ (its.map Item.id).Nodup := by
  have hs := run_good h
  have ht := tended_run hnew h ho
  refine ⟨nodup_of_completable hs ho hits ht, fun hnodup => ?_⟩
  exact completable_of_nodup _ rfl hs ho hits hnodup ht.agrees fun it hit =>
    ht.valid it (by rw [hits]; exact List.mem_map_of_mem hit)

/-- The items of an order have distinct ids. -/
def DistinctIds (o : Order) : Prop :=
  ∀ its : List Item, o.items = its.map some → (its.map Item.id).Nodup

theorem distinctIds_run {ops : List Op} {outs : List Out} {s : Server}
    (hids : ∀ o, .newOrder o ∈ ops → DistinctIds o) (h : machine.run ops = some (outs, s))
    {k : Int32} {o : Order} (ho : s.orders[k]? = some o) : DistinctIds o := by
  refine (run_orders (Q := DistinctIds) (R := fun _ => DistinctIds) ?_ ?_ hids h).2 k o ho
  · intro o its id hQ hits _ its' hits'
    obtain rfl := Order.items_inj rfl hits'
    rw [List.map_map]
    exact hQ its hits
  · intro _ o its _ i _ st hR hits _ _ _ its' hits'
    obtain rfl := Order.items_inj rfl hits'
    rw [ids_updatedItems]
    exact hR its hits

/-- CORRECT: over a run on decoded orders with NEW items, every order in every state reached can be
    finished if the orders came with distinct item ids, and a stored order can be finished only then. -/
theorem completable_iff_distinctIds {ops : List Op} {outs : List Out} {s : Server}
    (hnew : ∀ o, .newOrder o ∈ ops → Decoded o ∧ AllItems .new o)
    (h : machine.run ops = some (outs, s)) :
    ((∀ o, .newOrder o ∈ ops → DistinctIds o) → ∀ k ∈ s.orders, Completable s k) ∧
      ∀ (k : Int32) (o : Order), s.orders[k]? = some o → (Completable s k ↔ DistinctIds o) := by
  have hiff : ∀ (k : Int32) (o : Order), s.orders[k]? = some o →
      (Completable s k ↔ DistinctIds o) := by
    intro k o ho
    obtain ⟨its, hits⟩ := (run_good h).full k o ho
    rw [completable_iff hnew h its ho hits]
    exact ⟨fun hn its' hits' => Order.items_inj hits hits' ▸ hn, fun hd => hd its hits⟩
  refine ⟨fun hids k hk => ?_, hiff⟩
  rw [Std.ExtTreeMap.mem_iff_isSome_getElem?, Option.isSome_iff_exists] at hk
  obtain ⟨o, ho⟩ := hk
  exact (hiff k o ho).mpr (distinctIds_run hids h ho)

/-- An order of two items with ids of their own, one of which is being made. -/
theorem completable_iff_distinctIds_two :
    let o : Order := ⟨1, .new, [some ⟨1, 7, .new, ascii "Samosa", 2⟩,
      some ⟨1, 8, .new, ascii "Dal Makhani", 1⟩]⟩
    let ops : List Op := [.newOrder o, .itemUpdate 1000 8 .inProgress]
    ∃ outs s, machine.run ops = some (outs, s) ∧
      ((∀ o, .newOrder o ∈ ops → DistinctIds o) → ∀ k ∈ s.orders, Completable s k) ∧
      ∀ (k : Int32) (o : Order), s.orders[k]? = some o → (Completable s k ↔ DistinctIds o) := by
  intro o ops
  have hmem : ∀ o', .newOrder o' ∈ ops → o' = o := by simp [ops]
  have hdec : Decoded o := ⟨ascii "ORDER_NEW|1,NEW,1:7:NEW:Samosa:2;1:8:NEW:Dal Makhani:1", {},
    .ofOrder .orderNew (some o), by decide +kernel, rfl, rfl⟩
  have hall : AllItems .new o := by
    intro it hit
    simp only [o, List.mem_cons, Option.some.injEq, List.not_mem_nil, or_false] at hit
    rcases hit with rfl | rfl <;> rfl
  obtain ⟨outs, s, hrun⟩ := run_exists ops (fun o' ho => hmem o' ho ▸ ⟨[_, _], rfl⟩)
    (by decide)
  exact ⟨outs, s, hrun, completable_iff_distinctIds (fun o' ho => hmem o' ho ▸ ⟨hdec, hall⟩) hrun⟩

/-- An order of two items with one id cannot be finished. -/
theorem not_completable_sameId :
    let o : Order := ⟨1, .new, [some ⟨1, 7, .new, ascii "Samosa", 2⟩,
      some ⟨1, 7, .new, ascii "Dal Makhani", 1⟩]⟩
    (Decoded o ∧ AllItems .new o) ∧
      ∃ outs s, machine.run [.newOrder o] = some (outs, s) ∧ (1000 : Int32) ∈ s.orders ∧
        ¬Completable s 1000 := by
  intro o
  have hdec : Decoded o := ⟨ascii "ORDER_NEW|1,NEW,1:7:NEW:Samosa:2;1:7:NEW:Dal Makhani:1", {},
    .ofOrder .orderNew (some o), by decide +kernel, rfl, rfl⟩
  have hall : AllItems .new o := by
    intro it hit
    simp only [o, List.mem_cons, Option.some.injEq, List.not_mem_nil, or_false] at hit
    rcases hit with rfl | rfl <;> rfl
  have hmem : ∀ o', .newOrder o' ∈ [Op.newOrder o] → o' = o := by simp
  obtain ⟨outs, s, hrun⟩ := run_exists [.newOrder o]
    (fun o' ho => hmem o' ho ▸ ⟨[_, _], rfl⟩) (by decide)
  have hstored : (machine.run [.newOrder o]).map (fun r => r.2.orders[(1000 : Int32)]?)
      = some (some ⟨1000, .new, [some ⟨1000, 7, .new, ascii "Samosa", 2⟩,
        some ⟨1000, 7, .new, ascii "Dal Makhani", 1⟩]⟩) := by
    decide +kernel
  rw [hrun] at hstored
  have ho := Option.some.inj hstored
  refine ⟨⟨hdec, hall⟩, outs, s, hrun, ?_, fun hc => ?_⟩
  · rw [Std.ExtTreeMap.mem_iff_isSome_getElem?, show s.orders[(1000 : Int32)]? = _ from ho]
    rfl
  · have hnodup := (completable_iff (fun o' ho => hmem o' ho ▸ ⟨hdec, hall⟩) hrun
      [⟨1000, 7, .new, ascii "Samosa", 2⟩, ⟨1000, 7, .new, ascii "Dal Makhani", 1⟩] ho rfl).mp hc
    exact absurd hnodup (by decide)

end Restaurant.Server
