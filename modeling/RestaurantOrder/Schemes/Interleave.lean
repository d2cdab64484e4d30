import RestaurantOrder.Schemes.Machine

/-! Two clients that feed one machine in turns.

    `F b i` answers the input `i` in the data `b`: the output, and the data afterwards. A word over
    `Bool × ι` says which client gives which input when; `part c w` is what client `c` gives, and
    `answers c w` picks what it gets out of the outputs.

        w        (c, i₁) (c', j₁) (c, i₂) ...
        part c      i₁               i₂

    Inputs commute if they get the same answers in either order and lead to the same data. Where each
    input of one client commutes with each of the other, both get the answers that they would get
    alone, and the data is the same after every interleaving (`interleaved`). -/

namespace Schemes

variable {σ β ι ο : Type} {F : β → ι → ο × β}

/-! ### Words of two clients -/

/-- What is tagged with `c`. -/
def part {α : Type} (c : Bool) (w : List (Bool × α)) : List α :=
  (w.filter (·.1 = c)).map Prod.snd

/-- The answers to client `c` among the outputs `os`. -/
def answers (c : Bool) (w : List (Bool × ι)) (os : List ο) : List ο :=
  part c ((w.map Prod.fst).zip os)

theorem part_cons {α : Type} (c d : Bool) (a : α) (w : List (Bool × α)) :
    part c ((d, a) :: w) = if d = c then a :: part c w else part c w := by
  by_cases h : d = c <;> simp [part, h]

theorem answers_cons (c d : Bool) (i : ι) (w : List (Bool × ι)) (o : ο) (os : List ο) :
    answers c ((d, i) :: w) (o :: os) = if d = c then o :: answers c w os else answers c w os :=
  part_cons c d o _

theorem mem_part {α : Type} {c : Bool} {w : List (Bool × α)} {a : α} :
    a ∈ part c w ↔ (c, a) ∈ w := by
  simp [part]

/-! ### Lists of inputs -/

variable (F) in
/-- The outputs to a list of inputs. -/
def outputs : β → List ι → List ο
  | _, [] => []
  | b, i :: is => (F b i).1 :: outputs (F b i).2 is

variable (F) in
/-- The data after a list of inputs. -/
def final (b : β) (is : List ι) : β := is.foldl (fun b i => (F b i).2) b

variable (F) in
/-- The order of the two inputs does not show. -/
structure Commutes (i j : ι) : Prop where
  left : ∀ b, (F (F b j).2 i).1 = (F b i).1
  right : ∀ b, (F (F b i).2 j).1 = (F b j).1
  data : ∀ b, (F (F b i).2 j).2 = (F (F b j).2 i).2

theorem Commutes.symm {i j : ι} (h : Commutes F i j) : Commutes F j i where
  left := h.right
  right := h.left
  data b := (h.data b).symm

/-- The answers to a list do not show an input before it that commutes with all of the list. -/
theorem outputs_past {i : ι} {js : List ι} (h : ∀ j ∈ js, Commutes F i j) (b : β) :
    outputs F (F b i).2 js = outputs F b js := by
  induction js generalizing b with
  | nil => rfl
  | cons j js ih =>
    have hj := h j List.mem_cons_self
    rw [outputs, outputs, hj.right, hj.data, ih fun k hk => h k (List.mem_cons_of_mem _ hk)]

/-- An input commutes with a list if it does with all of the list. -/
theorem final_past {i : ι} {js : List ι} (h : ∀ j ∈ js, Commutes F i j) (b : β) :
    final F (F b i).2 js = (F (final F b js) i).2 := by
  induction js generalizing b with
  | nil => rfl
  | cons j js ih =>
    have hj := h j List.mem_cons_self
    calc final F (F b i).2 (j :: js) = final F (F (F b i).2 j).2 js := rfl
      _ = final F (F (F b j).2 i).2 js := by rw [hj.data]
      _ = (F (final F (F b j).2 js) i).2 := ih (fun k hk => h k (List.mem_cons_of_mem _ hk)) _
      _ = (F (final F b (j :: js)) i).2 := rfl

/-- INTERLEAVINGS: each client gets the answers that it would get alone, and the data at the end is
    the one after first all of one client and then all of the other. -/
theorem interleaved {w : List (Bool × ι)}
    (h : ∀ i ∈ part false w, ∀ j ∈ part true w, Commutes F i j) (b : β) :
    (∀ c, answers c w (outputs F b (w.map Prod.snd)) = outputs F b (part c w)) ∧
      final F b (w.map Prod.snd) = final F (final F b (part false w)) (part true w) := by
  induction w generalizing b with
  | nil => exact ⟨fun _ => rfl, rfl⟩
  | cons x w ih =>
    obtain ⟨d, i⟩ := x
    simp only [part_cons] at h
    cases d with
    | false =>
      simp only [if_true, Bool.false_eq_true, if_false, List.mem_cons, forall_eq_or_imp] at h
      obtain ⟨hans, hdata⟩ := ih h.2 (F b i).2
      refine ⟨fun c => ?_, hdata⟩
      rw [List.map_cons, outputs, answers_cons, part_cons, hans]
      cases c with
      | false => rfl
      | true => exact outputs_past h.1 b
    | true =>
      simp only [if_true, Bool.true_eq_false, if_false, List.mem_cons, forall_eq_or_imp] at h
      have hi : ∀ k ∈ part false w, Commutes F i k := fun k hk => (h k hk).1.symm
      obtain ⟨hans, hdata⟩ := ih (fun k hk => (h k hk).2) (F b i).2
      refine ⟨fun c => ?_, ?_⟩
      · rw [List.map_cons, outputs, answers_cons, part_cons, hans]
        cases c with
        | false => exact outputs_past hi b
        | true => rfl
      · calc final F b (((true, i) :: w).map Prod.snd)
            = final F (final F (F b i).2 (part false w)) (part true w) := hdata
          _ = final F (F (final F b (part false w)) i).2 (part true w) := by rw [final_past hi]
          _ = final F (final F b (part false w)) (i :: part true w) := rfl

/-! ### Machines -/

/-- The machine answers the inputs in `A` as `F` does, and does to what `look` shows of its state what
    `F` does to the data. -/
def Machine.Mirrors (M : Machine σ ι ο) (look : σ → β) (P : σ → Prop) (A : ι → Prop)
    (F : β → ι → ο × β) : Prop :=
  ∀ s i, P s → A i →
    ∃ s', M.step s i = some ((F (look s) i).1, s') ∧ look s' = (F (look s) i).2 ∧ P s'

theorem Machine.Mirrors.runFrom {M : Machine σ ι ο} {look : σ → β} {P : σ → Prop} {A : ι → Prop}
    (hM : M.Mirrors look P A F) {s : σ} (hs : P s) {is : List ι} (hA : ∀ i ∈ is, A i) :
    ∃ s', M.runFrom s is = some (outputs F (look s) is, s') ∧ look s' = final F (look s) is := by
  induction is generalizing s with
  | nil => exact ⟨s, rfl, rfl⟩
  | cons i is ih =>
    obtain ⟨s₁, hstep, hlook, hs₁⟩ := hM s i hs (hA i List.mem_cons_self)
    obtain ⟨s₂, hrun, hfinal⟩ := ih hs₁ fun j hj => hA j (List.mem_cons_of_mem _ hj)
    rw [hlook] at hrun hfinal
    exact ⟨s₂, M.runFrom_cons.mpr ⟨_, s₁, _, hstep, hrun, rfl⟩, hfinal⟩

end Schemes
