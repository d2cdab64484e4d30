import Mathlib.Tactic.Common

/-! Code that may fail to return, for models of imperative programs.

    A computation returns a value, throws an exception of type `ε`, or runs into behaviour that the
    language leaves undefined (a null dereference, a signed overflow, an index past the end).
    `Outcome` is code that only computes; `Code` works on one mutable place besides, and what it
    wrote there before it threw stays written. `exec` runs such code on a given content, and the
    `exec_*` lemmas run it one statement at a time.

        exec (x >>= f) s:   x on s ──ok a──▶ f a on s'
                                   ──error e──▶ (error e, s') -/

namespace Schemes

/-- Why a computation does not return. -/
inductive Stop (ε : Type) where
  | throws (e : ε)
  | undefined
  deriving DecidableEq, Repr

/-- What code that only computes ends with. -/
abbrev Outcome (ε α : Type) := Except (Stop ε) α

/-- Code that works on a mutable place holding a `σ`. -/
abbrev Code (ε σ α : Type) := ExceptT (Stop ε) (StateM σ) α

variable {ε σ α β : Type}

/-- `throw` of the language. -/
def raise (e : ε) : Outcome ε α := .error (.throws e)

@[simp] theorem ok_bind (a : α) (f : α → Outcome ε β) : (Except.ok a >>= f) = f a := rfl

@[simp] theorem pure_eq_ok (a : α) : (pure a : Outcome ε α) = Except.ok a := rfl

/-- Run code on a place that holds `s`: how it ends, and what the place holds then. -/
def exec (x : Code ε σ α) (s : σ) : Outcome ε α × σ := x s

@[simp] theorem exec_pure (a : α) (s : σ) : exec (pure a : Code ε σ α) s = (.ok a, s) := rfl

theorem exec_bind (x : Code ε σ α) (f : α → Code ε σ β) (s : σ) :
    exec (x >>= f) s =
      match exec x s with
      | (.ok a, s') => exec (f a) s'
      | (.error e, s') => (.error e, s') := by
  unfold exec
  show (match x s with | (r, s') => ExceptT.bindCont f r s') = _
  rcases x s with ⟨r, s'⟩
  cases r <;> rfl

theorem exec_bind_ok {x : Code ε σ α} {f : α → Code ε σ β} {s s' : σ} {a : α}
    (h : exec x s = (.ok a, s')) : exec (x >>= f) s = exec (f a) s' := by
  rw [exec_bind, h]

theorem exec_bind_error {x : Code ε σ α} {f : α → Code ε σ β} {s s' : σ} {e : Stop ε}
    (h : exec x s = (.error e, s')) : exec (x >>= f) s = (.error e, s') := by
  rw [exec_bind, h]

@[simp] theorem exec_lift (x : Outcome ε α) (s : σ) :
    exec (liftM x : Code ε σ α) s = (x, s) := rfl

@[simp] theorem lift_ok_bind (a : α) (f : α → Code ε σ β) :
    ((liftM (Except.ok a : Outcome ε α) : Code ε σ α) >>= f) = f a := rfl

@[simp] theorem exec_get (s : σ) : exec (get : Code ε σ σ) s = (.ok s, s) := rfl

@[simp] theorem exec_set (s s' : σ) : exec (set s' : Code ε σ PUnit) s = (.ok ⟨⟩, s') := rfl

@[simp] theorem exec_modify (f : σ → σ) (s : σ) :
    exec (modify f : Code ε σ PUnit) s = (.ok ⟨⟩, f s) := rfl

/-- Run code on a local variable: what the variable holds at the end. -/
def runOn (init : σ) (x : Code ε σ Unit) : Outcome ε σ :=
  match exec x init with
  | (.ok (), s) => .ok s
  | (.error e, _) => .error e

/-- A `try` block whose handler catches every exception; the place stays as the block left it. -/
def tryCatchAll (x : Code ε σ α) (handler : ε → Code ε σ α) : Code ε σ α := fun s =>
  match exec x s with
  | (.error (.throws e), s') => exec (handler e) s'
  | r => r

theorem runOn_ok {x : Code ε σ Unit} {s s' : σ} (h : exec x s = (.ok (), s')) :
    runOn s x = .ok s' := by
  rw [runOn, h]

theorem runOn_error {x : Code ε σ Unit} {s s' : σ} {e : Stop ε} (h : exec x s = (.error e, s')) :
    runOn s x = .error e := by
  rw [runOn, h]

theorem exec_tryCatchAll_ok {x : Code ε σ α} {handler : ε → Code ε σ α} {s s' : σ} {a : α}
    (h : exec x s = (.ok a, s')) : exec (tryCatchAll x handler) s = (.ok a, s') := by
  rw [exec, tryCatchAll, h]

theorem exec_tryCatchAll_throws {x : Code ε σ α} {handler : ε → Code ε σ α} {s s' : σ} {e : ε}
    (h : exec x s = (raise e, s')) : exec (tryCatchAll x handler) s = exec (handler e) s' := by
  rw [exec, tryCatchAll, h]
  rfl

/-! ### Postconditions -/

/-- The computation returns a value with `Q` or throws an exception with `E`; it never goes
    undefined. -/
def Ends (x : Outcome ε α) (Q : α → Prop) (E : ε → Prop) : Prop :=
  match x with
  | .ok a => Q a
  | .error (.throws e) => E e
  | .error .undefined => False

/-- The same for code on a place that holds `s`, with the content it leaves behind. -/
def Ensures (x : Code ε σ α) (s : σ) (Q : α → σ → Prop) (E : ε → σ → Prop) : Prop :=
  match exec x s with
  | (.ok a, s') => Q a s'
  | (.error (.throws e), s') => E e s'
  | (.error .undefined, _) => False

theorem Ends.bind {x : Outcome ε α} {f : α → Outcome ε β} {P : α → Prop} {Q : β → Prop}
    {E : ε → Prop} (hx : Ends x P E) (hf : ∀ a, P a → Ends (f a) Q E) : Ends (x >>= f) Q E := by
  rcases x with (e | _) | a
  · exact hx
  · exact hx.elim
  · exact hf a hx

theorem Ends.mono {x : Outcome ε α} {P Q : α → Prop} {E : ε → Prop} (hx : Ends x P E)
    (h : ∀ a, P a → Q a) : Ends x Q E := by
  rcases x with (e | _) | a
  · exact hx
  · exact hx
  · exact h a hx

theorem Ends.throws {x : Outcome ε α} {Q : α → Prop} {E E' : ε → Prop} (hx : Ends x Q E)
    (h : ∀ e, E e → E' e) : Ends x Q E' := by
  rcases x with (e | _) | a
  · exact h e hx
  · exact hx
  · exact hx

theorem Ensures.bind {x : Code ε σ α} {f : α → Code ε σ β} {s : σ} {P : α → σ → Prop}
    {Q : β → σ → Prop} {E : ε → σ → Prop} (hx : Ensures x s P E)
    (hf : ∀ a s', P a s' → Ensures (f a) s' Q E) : Ensures (x >>= f) s Q E := by
  rw [Ensures, exec_bind]
  rw [Ensures] at hx
  rcases h : exec x s with ⟨(e | _) | a, s'⟩ <;> rw [h] at hx
  · exact hx
  · exact hx.elim
  · exact hf a s' hx

/-- A computation inside code leaves the place alone. -/
theorem Ensures.lift {x : Outcome ε α} {s : σ} {P : α → Prop} {E : ε → σ → Prop}
    (hx : Ends x P (E · s)) : Ensures (liftM x : Code ε σ α) s (fun a s' => P a ∧ s' = s) E := by
  rcases x with (e | _) | a
  · exact hx
  · exact hx
  · exact ⟨hx, rfl⟩

/-- Run a computation first, then code on the untouched place. -/
theorem Ensures.lift_bind {x : Outcome ε α} {f : α → Code ε σ β} {s : σ} {P : α → Prop}
    {Q : β → σ → Prop} {E : ε → σ → Prop} (hx : Ends x P (E · s))
    (hf : ∀ a, P a → Ensures (f a) s Q E) : Ensures (liftM x >>= f) s Q E :=
  (Ensures.lift hx).bind fun a _ h => h.2 ▸ hf a h.1

end Schemes
