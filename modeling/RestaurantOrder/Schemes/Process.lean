import RestaurantOrder.Schemes.Code

/-! Processes: code that interacts with its surroundings, one action at a time.

    An action `a` is answered with an `R a`, and the process goes on with the answer. So a process is
    the tree of all its possible interactions; who answers, and what else happens in between, is left
    to the model that runs it. A loop is unrolled `n` times, and `more` stands where it would go on.

        act receive ──"ab"──▶ act (send ..) ──▶ done
                    ──error──▶ done

    A protocol says which actions a process may take in which state and what state they lead to.
    `Keeps P Q p g` is the judgement that `p` keeps to the protocol `P` from state `g` on and ends with
    `Q`; there is one rule for each way to put processes together. -/

namespace Schemes

inductive Process (A : Type) (R : A → Type) (ε α : Type) where
  | done (r : Outcome ε α)
  | more
  | act (a : A) (k : R a → Process A R ε α)

namespace Process

variable {A : Type} {R : A → Type} {ε α β : Type}

protected def bind : Process A R ε α → (α → Process A R ε β) → Process A R ε β
  | done (.ok a), f => f a
  | done (.error e), _ => done (.error e)
  | more, _ => more
  | act a k, f => act a fun r => (k r).bind f

instance : Monad (Process A R ε) where
  pure a := done (.ok a)
  bind := Process.bind

/-- Code that only computes needs no answers. -/
instance : MonadLift (Outcome ε) (Process A R ε) := ⟨done⟩

/-- Take an action, and return its answer. -/
def perform (a : A) : Process A R ε (R a) := act a fun r => done (.ok r)

/-- A `try` block with its handler. -/
def handle (h : ε → Process A R ε α) : Process A R ε α → Process A R ε α
  | done (.error (.throws e)) => h e
  | done r => done r
  | more => more
  | act a k => act a fun r => handle h (k r)

/-- A scope with a destructor `q`, which runs however the scope is left. -/
def leaving (q : Process A R ε Unit) : Process A R ε α → Process A R ε α
  | done (.error .undefined) => done (.error .undefined)
  | done r => q >>= fun _ => done r
  | more => more
  | act a k => act a fun r => leaving q (k r)

/-- The first `n` turns of a loop, whose body says whether to go on. -/
def loop (body : Process A R ε Bool) : ℕ → Process A R ε Unit
  | 0 => more
  | n + 1 => body >>= fun goOn => if goOn then loop body n else done (.ok ())

@[simp] theorem pure_eq_done (a : α) : (pure a : Process A R ε α) = done (.ok a) := rfl

@[simp] theorem lift_eq_done (x : Outcome ε α) : (liftM x : Process A R ε α) = done x := rfl

@[simp] theorem ok_bind (a : α) (f : α → Process A R ε β) : (done (.ok a) >>= f) = f a := rfl

@[simp] theorem error_bind (e : Stop ε) (f : α → Process A R ε β) :
    (done (.error e) >>= f) = done (.error e) := rfl

@[simp] theorem more_bind (f : α → Process A R ε β) : (more >>= f) = more := rfl

@[simp] theorem act_bind (a : A) (k : R a → Process A R ε α) (f : α → Process A R ε β) :
    (act a k >>= f) = act a fun r => k r >>= f := rfl

@[simp] theorem perform_bind (a : A) (f : R a → Process A R ε β) :
    (perform a >>= f) = act a f := rfl

/-! ### Protocols -/

end Process

/-- The states `G` of a conversation: what may be done in a state, what may be answered, and the state
    that follows. -/
structure Protocol (A : Type) (R : A → Type) (G : Type) where
  allows : G → A → Prop
  answers : G → (a : A) → R a → Prop
  next : G → (a : A) → R a → G

namespace Process

variable {A : Type} {R : A → Type} {ε α β G : Type} {P : Protocol A R G}

/-- The process keeps to the protocol, and `Q` holds of its result and the last state. -/
def Keeps (P : Protocol A R G) (Q : Outcome ε α → G → Prop) : Process A R ε α → G → Prop
  | done r, g => Q r g
  | more, _ => True
  | act a k, g => P.allows g a ∧ ∀ r, P.answers g a r → Keeps P Q (k r) (P.next g a r)

theorem Keeps.mono {Q Q' : Outcome ε α → G → Prop} (hQ : ∀ r g, Q r g → Q' r g)
    {p : Process A R ε α} {g : G} (h : Keeps P Q p g) : Keeps P Q' p g := by
  induction p generalizing g with
  | done r => exact hQ r g h
  | more => trivial
  | act a k ih => exact ⟨h.1, fun r hr => ih r (h.2 r hr)⟩

/-- WEAKEN: a protocol that allows more. -/
theorem Keeps.weaken {P' : Protocol A R G} (hallows : ∀ g a, P.allows g a → P'.allows g a)
    (hanswers : ∀ g a r, P'.answers g a r → P.answers g a r)
    (hnext : ∀ g a r, P'.next g a r = P.next g a r) {Q : Outcome ε α → G → Prop}
    {p : Process A R ε α} {g : G} (h : Keeps P Q p g) : Keeps P' Q p g := by
  induction p generalizing g with
  | done r => exact h
  | more => trivial
  | act a k ih =>
    refine ⟨hallows g a h.1, fun r hr => ?_⟩
    rw [hnext]
    exact ih r (h.2 r (hanswers g a r hr))

/-- SEQUENCE: the rest keeps to the protocol from where the first part ends; an exception skips it. -/
theorem Keeps.bind {p : Process A R ε α} {f : α → Process A R ε β} {Q : Outcome ε β → G → Prop}
    {g : G}
    (h : Keeps P (fun r g' => match r with
      | .ok a => Keeps P Q (f a) g'
      | .error e => Q (.error e) g') p g) : Keeps P Q (p >>= f) g := by
  induction p generalizing g with
  | done r =>
    rcases r with e | a
    · exact h
    · exact h
  | more => trivial
  | act a k ih => exact ⟨h.1, fun r hr => ih r (h.2 r hr)⟩

/-- TRY: the handler takes over from where the exception was thrown. -/
theorem Keeps.handle {p : Process A R ε α} {h : ε → Process A R ε α} {Q : Outcome ε α → G → Prop}
    {g : G}
    (hp : Keeps P (fun r g' => match r with
      | .error (.throws e) => Keeps P Q (h e) g'
      | r => Q r g') p g) : Keeps P Q (p.handle h) g := by
  induction p generalizing g with
  | done r => rcases r with (e | _) | a <;> exact hp
  | more => trivial
  | act a k ih => exact ⟨hp.1, fun r hr => ih r (hp.2 r hr)⟩

/-- SCOPE: the destructor runs after a result as after an exception. -/
theorem Keeps.leaving {p : Process A R ε α} {q : Process A R ε Unit} {Q : Outcome ε α → G → Prop}
    {g : G}
    (hp : Keeps P (fun r g' => match r with
      | .error .undefined => Q (.error .undefined) g'
      | r => Keeps P Q (q >>= fun _ => done r) g') p g) : Keeps P Q (Process.leaving q p) g := by
  induction p generalizing g with
  | done r => rcases r with (e | _) | a <;> exact hp
  | more => trivial
  | act a k ih => exact ⟨hp.1, fun r hr => ih r (hp.2 r hr)⟩

/-- LOOP: what holds before each turn. -/
theorem Keeps.loop {body : Process A R ε Bool} {I : G → Prop} {Q : Outcome ε Unit → G → Prop}
    (hbody : ∀ g, I g → Keeps P (fun r g' => match r with
      | .ok goOn => if goOn then I g' else Q (.ok ()) g'
      | .error e => Q (.error e) g') body g) (n : ℕ) {g : G} (hg : I g) :
    Keeps P Q (loop body n) g := by
  induction n generalizing g with
  | zero => trivial
  | succ n ih =>
    refine Keeps.bind ((hbody g hg).mono ?_)
    rintro (e | _ | _) g' h
    · exact h
    · exact h
    · exact ih h

/-! ### Code without loops that are cut off -/

/-- The process never comes to the end of an unrolled loop. -/
def Whole : Process A R ε α → Prop
  | done _ => True
  | more => False
  | act _ k => ∀ r, Whole (k r)

theorem Whole.bind {p : Process A R ε α} {f : α → Process A R ε β} (hp : Whole p)
    (hf : ∀ a, Whole (f a)) : Whole (p >>= f) := by
  induction p with
  | done r =>
    rcases r with e | a
    · trivial
    · exact hf a
  | more => exact hp.elim
  | act a k ih => exact fun r => ih r (hp r)

theorem Whole.leaving {p : Process A R ε α} {q : Process A R ε Unit} (hp : Whole p) (hq : Whole q) :
    Whole (Process.leaving q p) := by
  induction p with
  | done r => rcases r with (e | _) | a <;> first | trivial | exact hq.bind fun _ => trivial
  | more => exact hp.elim
  | act a k ih => exact fun r => ih r (hp r)

/-- The process keeps to the protocol from state `g` on and is in `g` again where it ends, by a result
    or by an exception. -/
def Returns (P : Protocol A R G) (p : Process A R ε α) (g : G) : Prop :=
  Whole p ∧ Keeps P (fun r g' => r ≠ .error .undefined → g' = g) p g

theorem Returns.done (r : Outcome ε α) (g : G) : Returns P (done r) g := ⟨trivial, fun _ => rfl⟩

theorem Returns.bind {p : Process A R ε α} {f : α → Process A R ε β} {g : G} (hp : Returns P p g)
    (hf : ∀ a, Returns P (f a) g) : Returns P (p >>= f) g := by
  refine ⟨hp.1.bind fun a => (hf a).1, Keeps.bind (hp.2.mono ?_)⟩
  rintro (e | a) g' h
  · exact fun hr => h fun he => hr (congrArg _ (Except.error.inj he))
  · obtain rfl := h nofun
    exact (hf a).2

/-- A check that may stop the process, and the rest. -/
theorem Returns.check {c : Prop} [Decidable c] {p : Process A R ε Unit}
    {f : Unit → Process A R ε β} {g : G} (hp : Returns P p g) (hf : ∀ u, Returns P (f u) g) :
    Returns P (if c then p >>= f else f ()) g := by
  split
  · exact hp.bind hf
  · exact hf ()

end Process

end Schemes
