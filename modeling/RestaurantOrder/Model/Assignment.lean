import RestaurantOrder.Model.Equality
import Mathlib.Logic.Function.Basic

/-! Assignment of one order object to another: `Order::operator=`.

    Objects lie at addresses, so that an order can be assigned to itself. Assignment from another
    object sets id and status and pushes copies of the items behind those that are already there; the
    copy constructor assigns to an order without items, where that makes no difference.

                       a                 b
        before         2 items           1 item
        a = b          2 + 1 items       1 item
        a = b again    2 + 1 + 1 items   1 item

    DEFECT: `copies_iff` says when the assignment copies. -/

namespace Restaurant.Order
open Schemes

/-- `*a = *b` for the objects at the addresses `a` and `b`. -/
def assignAt (objs : ℕ → Order) (a b : ℕ) : Cpp (ℕ → Order) := do
  if a ≠ b then
    return Function.update objs a (← assign (objs a) (objs b))
  else return objs

/-- In the objects after `*a = *b` the order at `a` is a copy of the one at `b`, which is as it was,
    and assigning again changes nothing. -/
structure Copied (objs after : ℕ → Order) (a b : ℕ) : Prop where
  equal : (after a).eq (after b) = .ok true
  items : (after a).items = (after b).items
  source : after b = objs b
  again : assignAt after a b = .ok after

/-- Assignment from an order without null items puts its items behind the others. -/
theorem assign_full {lhs rhs : Order} (h : rhs.Full) :
    assign lhs rhs = .ok { rhs with items := lhs.items ++ rhs.items } := by
  obtain ⟨its, hits⟩ := h
  have hm := mapM_deref (fun it : Item => it) its
  rw [assign, hits, hm]
  rfl

theorem assignAt_self (objs : ℕ → Order) (a : ℕ) : assignAt objs a a = .ok objs :=
  if_neg (not_not.mpr rfl)

theorem assignAt_other {objs : ℕ → Order} {a b : ℕ} (hab : a ≠ b) (h : (objs b).Full) :
    assignAt objs a b
      = .ok (Function.update objs a
          { objs b with items := (objs a).items ++ (objs b).items }) := by
  rw [assignAt, if_pos hab, assign_full h]
  rfl

theorem eq_self {o : Order} (h : o.Full) : o.eq o = .ok true := by
  rw [eq_defined fun hc => clash_self.mp hc h, decide_eq_true rfl]

/-- DEFECT: assignment copies exactly if the objects are the same or neither has an item. An item of
    the target stays in front of the copies, and an item of the source comes twice if the assignment
    is repeated. -/
theorem copies_iff {objs : ℕ → Order} {a b : ℕ} (h : (objs b).Full) :
    (∃ after, assignAt objs a b = .ok after ∧ Copied objs after a b) ↔
      a = b ∨ (objs a).items = [] ∧ (objs b).items = [] := by
  rcases eq_or_ne a b with rfl | hab
  · have hself := assignAt_self objs a
    exact iff_of_true ⟨objs, hself, eq_self h, rfl, rfl, hself⟩ (Or.inl rfl)
  rw [assignAt_other hab h]
  constructor
  · rintro ⟨after, hafter, hc⟩
    obtain rfl := Except.ok.inj hafter
    have hsource := hc.source
    have hitems := hc.items
    rw [Function.update_self, hsource, List.append_left_eq_self] at hitems
    -- the second assignment finds the items of the first
    have hagain := hc.again
    rw [assignAt_other hab (by rw [hsource]; exact h), Except.ok.injEq, hsource,
      Function.update_self] at hagain
    have htwice := congrArg items (congrFun hagain a)
    rw [Function.update_self, Function.update_self] at htwice
    exact Or.inr ⟨hitems, List.append_right_eq_self.mp htwice⟩
  · rintro (he | ⟨hnil, hnil'⟩)
    · exact absurd he hab
    · have hcopy : ({ objs b with items := (objs a).items ++ (objs b).items } : Order) = objs b := by
        rw [hnil, List.nil_append]
      rw [hcopy]
      have hb : Function.update objs a (objs b) b = objs b := Function.update_of_ne hab.symm _ _
      have ha : Function.update objs a (objs b) a = objs b := Function.update_self a (objs b) objs
      refine ⟨_, rfl, ?_, by rw [ha, hb], hb, ?_⟩
      · rw [ha, hb]
        exact eq_self h
      · rw [assignAt_other hab (by rw [hb]; exact h), ha, hb, hnil', List.append_nil, Except.ok.injEq,
          Function.update_idem, ← hnil']

/-- An order with an item, assigned to itself. -/
theorem copies_iff_self :
    let objs : ℕ → Order := fun _ => ⟨1, .new, [some ⟨1, 7, .new, ascii "Samosa", 2⟩]⟩
    (objs 0).items ≠ [] ∧
      ((∃ after, assignAt objs 0 0 = .ok after ∧ Copied objs after 0 0) ↔
        (0 : ℕ) = 0 ∨ (objs 0).items = [] ∧ (objs 0).items = []) :=
  ⟨List.cons_ne_nil _ _, copies_iff ⟨[_], rfl⟩⟩

/-- An order with an item keeps it when another order is assigned to it. -/
theorem assignment_keeps_items :
    let objs : ℕ → Order := fun k =>
      if k = 0 then ⟨1, .new, [some ⟨1, 7, .new, ascii "Samosa", 2⟩]⟩
      else ⟨2, .done, [some ⟨2, 8, .done, ascii "Chai", 1⟩]⟩
    (objs 0).Full ∧ (objs 1).Full ∧
      ¬∃ after, assignAt objs 0 1 = .ok after ∧ Copied objs after 0 1 := by
  intro objs
  have hfull : (objs 1).Full := ⟨[_], rfl⟩
  refine ⟨⟨[_], rfl⟩, hfull, ?_⟩
  rintro ⟨after, hafter, hc⟩
  rw [assignAt_other (by decide) hfull] at hafter
  obtain rfl := Except.ok.inj hafter
  cases hc.items

end Restaurant.Order
