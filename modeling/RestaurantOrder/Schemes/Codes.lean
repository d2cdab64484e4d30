import Mathlib.Data.List.Basic

/-! Codes: values written one behind the other, to be read from the left.

    `Legible P S f` says that where `f` has written a value in `P` and what follows is in `S`, the text
    tells the value and what follows. A text can be read up to the first character that it does not
    contain (`until`), and a list of values as long as what follows is not the beginning of another
    one (`flatMap`).

        f a₁ ++ f a₂ ++ .. ++ rest  ──▶  a₁, a₂, .., rest -/

namespace Schemes

variable {α β σ : Type}

def Legible (P : α → Prop) (S : List σ → Prop) (f : α → List σ) : Prop :=
  ∀ ⦃a b x y⦄, P a → P b → S x → S y → f a ++ x = f b ++ y → a = b ∧ x = y

namespace Legible

/-- Nothing follows: different values are written differently. -/
theorem injective {P : α → Prop} {S : List σ → Prop} {f : α → List σ} (h : Legible P S f) (hS : S [])
    {a b : α} (ha : P a) (hb : P b) (hab : f a = f b) : a = b :=
  (h ha hb hS hS (by rw [hab])).1

/-- UNTIL: a text ends where the first `c` stands. -/
theorem «until» (c : σ) : Legible (c ∉ ·) (fun x => ∃ r, x = c :: r) (id : List σ → List σ) := by
  rintro s t _ _ hs ht ⟨x, rfl⟩ ⟨y, rfl⟩ h
  rw [id, id] at h
  induction s generalizing t with
  | nil =>
    cases t with
    | nil => exact ⟨rfl, h⟩
    | cons d t =>
      obtain ⟨rfl, -⟩ := List.cons.inj h
      exact absurd List.mem_cons_self ht
  | cons d s ih =>
    cases t with
    | nil =>
      obtain ⟨rfl, -⟩ := List.cons.inj h
      exact absurd List.mem_cons_self hs
    | cons d' t =>
      obtain ⟨rfl, hrest⟩ := List.cons.inj h
      obtain ⟨rfl, hxy⟩ := ih (fun hc => hs (List.mem_cons_of_mem _ hc))
        (fun hc => ht (List.mem_cons_of_mem _ hc)) hrest
      exact ⟨rfl, hxy⟩

/-- UP TO: a text ends where the mark stands, if it does not contain the first character of it. -/
theorem upTo {c : σ} {mark s t x y : List σ} (hmark : mark.head? = some c) (hs : c ∉ s) (ht : c ∉ t)
    (h : s ++ (mark ++ x) = t ++ (mark ++ y)) : s = t ∧ x = y := by
  obtain ⟨rest, rfl⟩ := List.head?_eq_some_iff.mp hmark
  obtain ⟨rfl, hrest⟩ := Legible.until c hs ht ⟨_, rfl⟩ ⟨_, rfl⟩ h
  exact ⟨rfl, List.append_cancel_left (List.cons.inj hrest).2⟩

/-- LIST: the values are read one by one; what follows begins with none of them. -/
theorem flatMap {P : α → Prop} {S T : List σ → Prop} {f : α → List σ} (h : Legible P T f)
    (hT : ∀ (l : List α) x, (∀ a ∈ l, P a) → S x → T (l.flatMap f ++ x))
    (hS : ∀ a x r, P a → S x → x ≠ f a ++ r) :
    Legible (fun l : List α => ∀ a ∈ l, P a) S (List.flatMap f) := by
  intro l
  induction l with
  | nil =>
    rintro (_ | ⟨b, m⟩) x y - hm hx hy heq
    · exact ⟨rfl, heq⟩
    · rw [List.flatMap_cons, List.append_assoc] at heq
      exact absurd heq (hS b x _ (hm b List.mem_cons_self) hx)
  | cons a l ih =>
    rintro (_ | ⟨b, m⟩) x y hl hm hx hy heq
    · rw [List.flatMap_cons, List.append_assoc] at heq
      exact absurd heq.symm (hS a y _ (hl a List.mem_cons_self) hy)
    · have hl' : ∀ a ∈ l, P a := fun c hc => hl c (List.mem_cons_of_mem _ hc)
      have hm' : ∀ b ∈ m, P b := fun c hc => hm c (List.mem_cons_of_mem _ hc)
      rw [List.flatMap_cons, List.flatMap_cons, List.append_assoc, List.append_assoc] at heq
      obtain ⟨rfl, hrest⟩ := h (hl a List.mem_cons_self) (hm b List.mem_cons_self) (hT l x hl' hx)
        (hT m y hm' hy) heq
      obtain ⟨rfl, hxy⟩ := ih hl' hm' hx hy hrest
      exact ⟨rfl, hxy⟩

end Legible

end Schemes
