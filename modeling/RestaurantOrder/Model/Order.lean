import RestaurantOrder.Schemes.Code
import RestaurantOrder.Schemes.Decimal
import Mathlib.Data.List.Basic

/-! The object model of model.h and model.cpp: items, orders and their statuses.

    An `int` is an `Int32`. A `shared_ptr` that may be null is an `Option`, and `deref` of a null one
    is undefined. An order owns its items, so a pointer to one of them is its position in the order.
    `Full` says that no item pointer of an order is null; on such orders no member function goes
    undefined and a copy is the order itself (`copy_full`). -/

namespace Restaurant
open Schemes

/-- The exceptions of except.h; `std` is any other `std::exception`. -/
inductive Exception where
  | invalidMessage (what : Bytes)
  | ioException (what : Bytes)
  | protocolError (what : Bytes)
  | semanticError (what : Bytes)
  | std (what : Bytes)
  deriving DecidableEq, Repr

/-- Code that only computes. -/
abbrev Cpp (α : Type) := Outcome Exception α

/-- Code that works on an object of type `σ`. -/
abbrev CppOn (σ α : Type) := Code Exception σ α

/-- `operator->` and `operator*` of a `shared_ptr`. -/
def deref {α : Type} : Option α → Cpp α
  | some a => .ok a
  | none => .error .undefined

@[simp] theorem deref_some {α : Type} (a : α) : deref (some a) = .ok a := rfl

inductive ClientMode where | invalid | updater | display
  deriving DecidableEq, Repr

inductive ItemStatus where | invalid | new | inProgress | done
  deriving DecidableEq, Repr

inductive OrderStatus where | invalid | new | inProgress | done | delivered
  deriving DecidableEq, Repr

structure Item where
  orderId : Int32
  id : Int32
  status : ItemStatus
  desc : Bytes
  qty : Int32
  deriving DecidableEq, Repr

structure Order where
  id : Int32
  status : OrderStatus
  items : List (Option Item)
  deriving DecidableEq, Repr

namespace Item

def setOrderId (it : Item) (orderId : Int32) : Item := { it with orderId }

def setStatus (it : Item) (status : ItemStatus) : Item := { it with status }

@[simp] theorem setOrderId_orderId (it : Item) (k : Int32) : (it.setOrderId k).orderId = k := rfl
@[simp] theorem setOrderId_id (it : Item) (k : Int32) : (it.setOrderId k).id = it.id := rfl
@[simp] theorem setOrderId_status (it : Item) (k : Int32) :
    (it.setOrderId k).status = it.status := rfl
@[simp] theorem setStatus_id (it : Item) (st : ItemStatus) : (it.setStatus st).id = it.id := rfl
@[simp] theorem setStatus_status (it : Item) (st : ItemStatus) :
    (it.setStatus st).status = st := rfl

end Item

namespace Order

def setId (o : Order) (id : Int32) : Order := { o with id }

def setStatus (o : Order) (status : OrderStatus) : Order := { o with status }

def addItem (o : Order) (it : Option Item) : Order := { o with items := o.items ++ [it] }

/-- `get_num_items`; the conversion of the size to `int` is exact below 2^31 items. -/
def numItems (o : Order) : ℕ := o.items.length

/-- `vector::at` checks its index. -/
def «at» (o : Order) (index : ℕ) : Cpp (Option Item) :=
  match o.items[index]? with
  | some p => .ok p
  | none => raise (.std (ascii "vector::_M_range_check"))

/-- The loop of `find_item` over the rest of the items: the position of the first with the id. -/
def findLoop (itemId : Int32) : List (Option Item) → Cpp (Option ℕ)
  | [] => .ok none
  | p :: ps => do
    let it ← deref p
    if it.id = itemId then return some 0
    else return (← findLoop itemId ps).map (· + 1)

/-- `find_item`: the position of the item it returns a pointer to, or none for the empty pointer. -/
def findItem (o : Order) (itemId : Int32) : Cpp (Option ℕ) := findLoop itemId o.items

/-- `set_status` on the item at a position of the order. -/
def setItemStatus (o : Order) (index : ℕ) (status : ItemStatus) : Order :=
  { o with items := o.items.modify index (Option.map (·.setStatus status)) }

/-- `operator=` from another order: the loop pushes copies behind the items already there. -/
def assign (lhs rhs : Order) : Cpp Order := do
  let copies ← rhs.items.mapM fun p => return some (← deref p)
  return { id := rhs.id, status := rhs.status, items := lhs.items ++ copies }

/-- The copy constructor: assignment to an order without items. -/
def copy (other : Order) : Cpp Order := assign { other with items := [] } other

def duplicate (o : Order) : Cpp Order := copy o

/-- No item pointer of the order is null. -/
def Full (o : Order) : Prop := ∃ its : List Item, o.items = its.map some

/-- Every item of the order satisfies `P`. -/
def All (P : Item → Prop) (o : Order) : Prop := ∀ it, some it ∈ o.items → P it

@[simp] theorem setStatus_status (o : Order) (st : OrderStatus) :
    (o.setStatus st).status = st := rfl
@[simp] theorem setStatus_id (o : Order) (st : OrderStatus) : (o.setStatus st).id = o.id := rfl

/-- The items of a list of pointers, unless one of them is null. -/
theorem full_or_null (ps : List (Option Item)) :
    (∃ its : List Item, ps = its.map some) ∨ none ∈ ps := by
  induction ps with
  | nil => exact Or.inl ⟨[], rfl⟩
  | cons p ps ih =>
    cases p with
    | none => exact Or.inr List.mem_cons_self
    | some it =>
      rcases ih with ⟨its, rfl⟩ | h
      · exact Or.inl ⟨it :: its, rfl⟩
      · exact Or.inr (List.mem_cons_of_mem _ h)

theorem full_iff {o : Order} : o.Full ↔ none ∉ o.items := by
  constructor
  · rintro ⟨its, hits⟩
    rw [hits]
    simp
  · exact fun h => (full_or_null o.items).resolve_right h

theorem mapM_deref {α β : Type} (f : α → β) (as : List α) :
    (as.map some).mapM (m := Cpp) (fun p => return some (f (← deref p)))
      = .ok (as.map fun a => some (f a)) := by
  induction as with
  | nil => rfl
  | cons a as ih =>
    rw [List.map_cons, List.mapM_cons, ih]
    rfl

theorem mapM_deref_null {α β : Type} (f : α → β) {ps : List (Option α)} (h : none ∈ ps) :
    ps.mapM (m := Cpp) (fun p => return some (f (← deref p))) = .error .undefined := by
  induction ps with
  | nil => exact absurd h List.not_mem_nil
  | cons p ps ih =>
    cases p with
    | none => rfl
    | some a =>
      have hps : none ∈ ps := by simpa using h
      rw [List.mapM_cons, ih hps]
      rfl

theorem items_inj {o : Order} {its its' : List Item} (h : o.items = its.map some)
    (h' : o.items = its'.map some) : its = its' :=
  List.map_injective_iff.mpr (Option.some_injective _) (h.symm.trans h')

/-- A copy of an order without null items is the order. -/
theorem copy_full {o : Order} (h : o.Full) : o.copy = .ok o := by
  obtain ⟨its, hits⟩ := h
  have hm := mapM_deref (fun it : Item => it) its
  rw [copy, assign, hits, hm]
  show Except.ok _ = Except.ok o
  rw [← hits]
  rfl

/-- An order with a null item cannot be copied. -/
theorem copy_null {o : Order} (h : ¬o.Full) : o.copy = .error .undefined := by
  rw [full_iff, not_not] at h
  rw [copy, assign, mapM_deref_null (fun it : Item => it) h]
  rfl

theorem findLoop_full (itemId : Int32) (its : List Item) :
    findLoop itemId (its.map some) = .ok (its.findIdx? fun it => it.id = itemId) := by
  induction its with
  | nil => rfl
  | cons it its ih =>
    rw [List.map_cons, findLoop, deref_some]
    by_cases h : it.id = itemId
    · rw [ok_bind, if_pos h, List.findIdx?_cons, decide_eq_true h]; rfl
    · rw [ok_bind, if_neg h, ih, List.findIdx?_cons, decide_eq_false h]; rfl

theorem at_full {o : Order} {its : List Item} (h : o.items = its.map some) {i : ℕ}
    (hi : i < its.length) : o.at i = .ok (some its[i]) := by
  rw [«at», h, List.getElem?_map, List.getElem?_eq_getElem hi]
  rfl

theorem setItemStatus_full {o : Order} {its : List Item} (h : o.items = its.map some) (i : ℕ)
    (st : ItemStatus) :
    (o.setItemStatus i st).items = (its.modify i (·.setStatus st)).map some := by
  rw [setItemStatus, h]
  refine List.ext_getElem? fun j => ?_
  simp only [List.getElem?_modify, List.getElem?_map]
  cases its[j]? <;> by_cases hij : i = j <;> simp [hij]

end Order

end Restaurant
