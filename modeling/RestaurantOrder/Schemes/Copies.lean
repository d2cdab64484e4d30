import Mathlib.Data.List.Basic

/-! The copies of a follower: what it holds after each message of a log.

    Whoever applies the messages of a log one by one goes through the same copies as anybody else, only
    later: having applied a beginning of the log, it has gone through a beginning of the copies
    (`take`), and the next message makes the next copy (`next`).

        d ──a₁──▶ d₁ ──a₂──▶ d₂ ──a₃──▶ ..  -/

namespace Schemes

variable {δ μ : Type} {m : Type → Type} [Pure m]

/-- The copies that a follower holds, one after each message. -/
inductive Copies (apply : δ → μ → m δ) : δ → List μ → List δ → Prop
  | nil {d} : Copies apply d [] []
  | cons {d d' a as ds} (h : apply d a = pure d') (hs : Copies apply d' as ds) :
      Copies apply d (a :: as) (d' :: ds)

namespace Copies

variable {apply : δ → μ → m δ} {d : δ} {as bs : List μ} {ds es : List δ}

theorem length_eq (h : Copies apply d as ds) : ds.length = as.length := by
  induction h with
  | nil => rfl
  | cons _ _ ih => rw [List.length_cons, List.length_cons, ih]

theorem append (h : Copies apply d as ds) (h' : Copies apply (ds.getLastD d) bs es) :
    Copies apply d (as ++ bs) (ds ++ es) := by
  induction h with
  | nil => exact h'
  | @cons d d' a as ds ha _ ih =>
    refine cons ha (ih ?_)
    rwa [List.getLastD_cons] at h'

theorem getLastD_append (ds es : List δ) (d : δ) :
    (ds ++ es).getLastD d = es.getLastD (ds.getLastD d) := by
  rw [List.getLastD_eq_getLast?, List.getLast?_append, Option.getD_or, ← List.getLastD_eq_getLast?,
    ← List.getLastD_eq_getLast?]

theorem one {a : μ} {d' : δ} (h : apply d a = pure d') : Copies apply d [a] [d'] := cons h nil

theorem take (h : Copies apply d as ds) (j : ℕ) : Copies apply d (as.take j) (ds.take j) := by
  induction h generalizing j with
  | nil => simpa using nil
  | cons ha _ ih =>
    cases j with
    | zero => exact nil
    | succ j => exact cons ha (ih j)

/-- The next copy. -/
theorem next (h : Copies apply d as ds) {j : ℕ} {a : μ} (ha : as[j]? = some a) :
    ∃ d', ds[j]? = some d' ∧ apply ((ds.take j).getLastD d) a = pure d' := by
  induction h generalizing j with
  | nil => simp at ha
  | @cons d d' a' as ds ha' hs ih =>
    cases j with
    | zero =>
      obtain rfl := Option.some.inj ha
      exact ⟨d', rfl, ha'⟩
    | succ j =>
      obtain ⟨d'', hd'', happly⟩ := ih ha
      refine ⟨d'', hd'', ?_⟩
      rwa [List.take_succ_cons, List.getLastD_cons]

end Copies

end Schemes
