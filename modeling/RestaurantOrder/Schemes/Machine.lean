import Mathlib.Data.List.Destutter
import Mathlib.Data.List.Infix
import Mathlib.Tactic.Common

/-! Machines that take inputs one at a time, and what holds over their runs.

    A step gives an output and the next state, or nothing when the program goes undefined there. A
    run feeds a list of inputs from the initial state.

        init ──i₁/o₁──▶ s₁ ──i₂/o₂──▶ s₂ ──▶ ...

    `steps` lists the steps of a run. `runFrom_induct` is the rule of invariants, from any state on and
    over the history of inputs and outputs as well as the state. `climbs` is about machines in which
    some observation only ever moves up a ladder: whatever the run, the observations made along it, one
    after each step, are the rungs of the ladder from the first one on. -/

namespace Schemes

structure Machine (σ ι ο : Type) where
  init : σ
  step : σ → ι → Option (ο × σ)

namespace Machine

variable {σ ι ο : Type} (M : Machine σ ι ο)

/-- Run from a given state: the outputs, and the state at the end. -/
def runFrom : σ → List ι → Option (List ο × σ)
  | s, [] => some ([], s)
  | s, i :: is => do
    let (o, s') ← M.step s i
    let (os, s'') ← runFrom s' is
    return (o :: os, s'')

/-- Run from the initial state. -/
def run (is : List ι) : Option (List ο × σ) := M.runFrom M.init is

/-- The steps of a run from `s`, each with the states around it. -/
def steps : σ → List ι → List (σ × ι × σ)
  | _, [] => []
  | s, i :: is =>
    match M.step s i with
    | some (_, s') => (s, i, s') :: steps s' is
    | none => []

@[simp] theorem runFrom_nil (s : σ) : M.runFrom s [] = some ([], s) := rfl

variable {M}

theorem runFrom_cons {s s' : σ} {i : ι} {is : List ι} {os : List ο} :
    M.runFrom s (i :: is) = some (os, s') ↔
      ∃ o s₁ os', M.step s i = some (o, s₁) ∧ M.runFrom s₁ is = some (os', s') ∧ os = o :: os' := by
  simp only [runFrom, Option.bind_eq_bind, Option.bind_eq_some_iff, Option.pure_def,
    Option.some.injEq, Prod.exists, Prod.mk.injEq]
  constructor
  · rintro ⟨o, s₁, hs, os', _, hr, rfl, rfl⟩
    exact ⟨o, s₁, os', hs, hr, rfl⟩
  · rintro ⟨o, s₁, os', hs, hr, rfl⟩
    exact ⟨o, s₁, hs, os', s', hr, rfl, rfl⟩

theorem runFrom_append {is js : List ι} : ∀ {s s' : σ} {os : List ο},
    M.runFrom s (is ++ js) = some (os, s') ↔
      ∃ os₁ s₁ os₂, M.runFrom s is = some (os₁, s₁) ∧ M.runFrom s₁ js = some (os₂, s') ∧
        os = os₁ ++ os₂ := by
  induction is with
  | nil =>
    intro s s' os
    simp only [List.nil_append, runFrom_nil, Option.some.injEq, Prod.mk.injEq]
    constructor
    · exact fun h => ⟨[], s, os, ⟨rfl, rfl⟩, h, rfl⟩
    · rintro ⟨_, _, os, ⟨rfl, rfl⟩, h, rfl⟩
      exact h
  | cons i is ih =>
    intro s s' os
    simp only [List.cons_append, runFrom_cons, ih]
    constructor
    · rintro ⟨o, s₁, _, hs, ⟨os₁, s₂, os₂, h₁, h₂, rfl⟩, rfl⟩
      exact ⟨o :: os₁, s₂, os₂, ⟨o, s₁, os₁, hs, h₁, rfl⟩, h₂, rfl⟩
    · rintro ⟨_, s₂, os₂, ⟨o, s₁, os₁, hs, h₁, rfl⟩, h₂, rfl⟩
      exact ⟨o, s₁, os₁ ++ os₂, hs, ⟨os₁, s₂, os₂, h₁, h₂, rfl⟩, rfl⟩

theorem runFrom_one {s s' : σ} {i : ι} {os : List ο} :
    M.runFrom s [i] = some (os, s') ↔ ∃ o, M.step s i = some (o, s') ∧ os = [o] := by
  simp only [runFrom_cons, runFrom_nil, Option.some.injEq, Prod.mk.injEq]
  constructor
  · rintro ⟨o, s₁, _, h, ⟨rfl, rfl⟩, rfl⟩
    exact ⟨o, h, rfl⟩
  · rintro ⟨o, h, rfl⟩
    exact ⟨o, s', [], h, ⟨rfl, rfl⟩, rfl⟩

theorem run_snoc {is : List ι} {i : ι} {os : List ο} {s' : σ} :
    M.run (is ++ [i]) = some (os, s') ↔
      ∃ os₁ s o, M.run is = some (os₁, s) ∧ M.step s i = some (o, s') ∧ os = os₁ ++ [o] := by
  simp only [run, runFrom_append, runFrom_one]
  constructor
  · rintro ⟨os₁, s, _, h, ⟨o, hs, rfl⟩, rfl⟩
    exact ⟨os₁, s, o, h, hs, rfl⟩
  · rintro ⟨os₁, s, o, h, hs, rfl⟩
    exact ⟨os₁, s, [o], h, ⟨o, hs, rfl⟩, rfl⟩

/-- A run goes through the end of each of its beginnings. -/
theorem run_append {is js : List ι} {os : List ο} {s' : σ} (h : M.run (is ++ js) = some (os, s')) :
    ∃ os₁ s os₂, M.run is = some (os₁, s) ∧ M.runFrom s js = some (os₂, s') ∧ os = os₁ ++ os₂ :=
  runFrom_append.mp h

/-- A run that goes on makes one step more. -/
theorem steps_snoc {is : List ι} {i : ι} {s s' s'' : σ} {os : List ο} {o : ο}
    (h : M.runFrom s is = some (os, s')) (hstep : M.step s' i = some (o, s'')) :
    M.steps s (is ++ [i]) = M.steps s is ++ [(s', i, s'')] := by
  induction is generalizing s os with
  | nil =>
    obtain ⟨-, rfl⟩ := Prod.mk.inj (Option.some.inj h)
    simp [steps, hstep]
  | cons j is ih =>
    obtain ⟨o', s₁, os', h₁, hrest, -⟩ := runFrom_cons.mp h
    simp only [List.cons_append, steps, h₁, ih hrest]

/-- INVARIANTS: what holds at the start and is preserved by each step, over the history so far,
    holds at the end of every run. -/
theorem runFrom_induct {s₀ : σ} {P : List ι → List ο → σ → Prop} (h0 : P [] [] s₀)
    (hstep : ∀ {is os s i o s'}, M.runFrom s₀ is = some (os, s) → P is os s →
      M.step s i = some (o, s') → P (is ++ [i]) (os ++ [o]) s')
    {is : List ι} {os : List ο} {s : σ} (h : M.runFrom s₀ is = some (os, s)) : P is os s := by
  induction is using List.reverseRecOn generalizing os s with
  | nil =>
    obtain ⟨rfl, rfl⟩ := Prod.mk.inj (Option.some.inj h)
    exact h0
  | append_singleton is i ih =>
    obtain ⟨os₁, s₁, _, h₁, h₂, rfl⟩ := runFrom_append.mp h
    obtain ⟨o, hs, rfl⟩ := runFrom_one.mp h₂
    exact hstep h₁ (ih h₁) hs

/-- A run is defined if each input is one that the states it can meet accept; `Q` is what the list of
    inputs promises. -/
theorem run_defined {Q : List ι → Prop} {P : List ι → σ → Prop} (h0 : P [] M.init)
    (hQ : ∀ is i, Q (is ++ [i]) → Q is)
    (hstep : ∀ is s i, Q (is ++ [i]) → P is s →
      ∃ o s', M.step s i = some (o, s') ∧ P (is ++ [i]) s') :
    ∀ is, Q is → ∃ os s, M.run is = some (os, s) ∧ P is s := by
  intro is
  induction is using List.reverseRecOn with
  | nil => exact fun _ => ⟨[], M.init, rfl, h0⟩
  | append_singleton is i ih =>
    intro hq
    obtain ⟨os, s, hrun, hP⟩ := ih (hQ is i hq)
    obtain ⟨o, s', hs, hP'⟩ := hstep is s i hq hP
    exact ⟨os ++ [o], s', run_snoc.mpr ⟨os, s, o, hrun, hs, rfl⟩, hP'⟩

/-! ### Ladders -/

/-- What is observed along a run from `s`, at the start and after each step. -/
def visits {β : Type} (M : Machine σ ι ο) (f : σ → β) : σ → List ι → List β
  | s, [] => [f s]
  | s, i :: is =>
    f s :: match M.step s i with
      | some (_, s') => visits M f s' is
      | none => []

/-- The observations start with the one of the first state. -/
theorem visits_eq_cons {β : Type} (f : σ → β) (s : σ) :
    ∀ is, ∃ l, M.visits f s is = f s :: l
  | [] => ⟨[], rfl⟩
  | _ :: _ => ⟨_, rfl⟩

/-- LADDER: if a state on rung `n` steps to rung `n` or `n + 1`, then a run shows the rungs one after
    the other, from the one it starts on. -/
theorem climbs {β : Type} [DecidableEq β] {f : σ → β} {rungs : List β} {Rung : σ → ℕ → Prop}
    (hobs : ∀ s n, Rung s n → rungs[n]? = some (f s)) (hne : rungs.IsChain (· ≠ ·))
    (hstep : ∀ s n i o s', Rung s n → M.step s i = some (o, s') → Rung s' n ∨ Rung s' (n + 1)) :
    ∀ is s n, Rung s n → (M.visits f s is).destutter (· ≠ ·) <+: rungs.drop n := by
  have hdrop : ∀ {s n}, Rung s n → rungs.drop n = f s :: rungs.drop (n + 1) := by
    intro s n h
    obtain ⟨hn, hget⟩ := List.getElem?_eq_some_iff.mp (hobs s n h)
    rw [List.drop_eq_getElem_cons hn, hget]
  have hbase : ∀ {s n}, Rung s n → [f s] <+: rungs.drop n := fun h => by
    rw [hdrop h]; exact List.prefix_append [_] _
  intro is
  induction is with
  | nil => exact fun s n h => hbase h
  | cons i is ih =>
    intro s n h
    rw [visits]
    cases hs : M.step s i with
    | none => exact hbase h
    | some r =>
      obtain ⟨o, s'⟩ := r
      obtain ⟨l, hl⟩ := visits_eq_cons (M := M) f s' is
      simp only
      rw [hl, List.destutter_cons_cons]
      rcases hstep s n i o s' h hs with h' | h'
      · have heq : f s = f s' := Option.some.inj ((hobs s n h).symm.trans (hobs s' n h'))
        rw [if_neg (not_not.mpr heq), heq, ← List.destutter_cons', ← hl]
        exact ih s' n h'
      · have hrest := hdrop h'
        have hchain := (hdrop h) ▸ hne.drop n
        rw [hrest, List.isChain_cons_cons] at hchain
        rw [if_pos hchain.1, hdrop h, ← List.destutter_cons', ← hl, List.cons_prefix_cons]
        exact ⟨rfl, ih s' (n + 1) h'⟩

end Machine

end Schemes
