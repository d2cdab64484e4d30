import RestaurantOrder.Schemes.Machine
import RestaurantOrder.Schemes.Process

/-! Threads that share a state, and locks.

    A pool runs calls on threads, one action at a time and in any order; each action is performed on
    what is shared, if it is not blocked. A thread that goes undefined has no next state.

        thread 1   start ──▶ act ──────▶ act ──▶ finish
        thread 2        start ──▶ act ──────▶ ...
        shared     s ───────▶ s' ──▶ s'' ──▶ ...

    `pool_inv` is the rule for calls that keep to a protocol: each thread has a state of the protocol,
    and what relates the shared state to these is preserved by each action that the protocol allows.
    `lock_order` is about who waits for whom when every thread takes its locks upwards. -/

namespace Schemes

/-- What is shared, and what each thread has left to do of the call that it is in. -/
structure Pool (σ T A : Type) (R : A → Type) (ε : Type) where
  shared : σ
  running : T → Option (Process A R ε Unit)

inductive Turn (T C κ : Type) where
  | start (t : T) (call : C)
  | act (t : T) (choice : κ)
  | finish (t : T)

variable {σ T A C κ G : Type} {R : A → Type} {ε : Type}

/-- Undefined behaviour does not go on. -/
def Process.proceed : Process A R ε Unit → Option (Process A R ε Unit)
  | .done (.error .undefined) => none
  | p => some p

section
variable [DecidableEq T]

def Pool.put (s : Pool σ T A R ε) (t : T) (p : Option (Process A R ε Unit)) : Pool σ T A R ε :=
  { s with running := Function.update s.running t p }

/-- The pool of threads that make calls with the given bodies; `perform` says how an action is
    performed by a thread, and is `none` where the thread has to wait. -/
def pool (init : σ) (body : C → Process A R ε Unit)
    (perform : κ → T → σ → (a : A) → Option (R a × σ)) :
    Machine (Pool σ T A R ε) (Turn T C κ) Unit where
  init := ⟨init, fun _ => none⟩
  step
    | s, .start t call =>
      match s.running t with
      | some _ => none
      | none => do
        let p ← (body call).proceed
        return ((), s.put t (some p))
    | s, .act t choice =>
      match s.running t with
      | some (.act a k) => do
        let (r, shared) ← perform choice t s.shared a
        let p ← (k r).proceed
        return ((), { s with shared }.put t (some p))
      | _ => none
    | s, .finish t =>
      match s.running t with
      | some (.done _) => some ((), s.put t none)
      | _ => none

end

/-- Where a thread is: in no call, or in one that keeps to the protocol; between calls it is in the
    state `g₀`. -/
def Stage (P : Protocol A R G) (g₀ : G) : Option (Process A R ε Unit) → G → Prop
  | none, g => g = g₀
  | some p, g => p ≠ .done (.error .undefined) ∧ Process.Whole p ∧
    Process.Keeps P (fun r g' => r ≠ .error .undefined → g' = g₀) p g

section
variable {P : Protocol A R G} {g₀ g : G} {p : Option (Process A R ε Unit)} {a : A}
  {k : R a → Process A R ε Unit}

theorem Stage.allows (h : Stage P g₀ p g) (hp : p = some (.act a k)) : P.allows g a := by
  subst hp
  exact h.2.2.1

theorem Stage.whole (h : Stage P g₀ p g) (hp : p = some (.act a k)) (r : R a) : (k r).Whole := by
  subst hp
  exact h.2.1 r

/-- Whoever is in no call, or at the end of one, is in the state between calls. -/
theorem Stage.ended (h : Stage P g₀ p g) (hp : ∀ a k, p ≠ some (.act a k)) : g = g₀ := by
  rcases p with _ | r | _ | ⟨a, k⟩
  · exact h
  · exact h.2.2 fun hr => h.1 (congrArg _ hr)
  · exact h.2.1.elim
  · exact absurd rfl (hp a k)

/-- Whoever is in another state has something to do. -/
theorem Stage.busy (h : Stage P g₀ p g) (hg : g ≠ g₀) : ∃ a k, p = some (.act a k) := by
  by_contra hnone
  push Not at hnone
  exact hg (h.ended hnone)

end

theorem Process.proceed_some {p p' : Process A R ε Unit} (h : p.proceed = some p') :
    p' = p ∧ p ≠ .done (.error .undefined) := by
  unfold proceed at h
  split at h
  · cases h
  · next hdef =>
    obtain rfl := Option.some.inj h
    exact ⟨rfl, fun hp => hdef hp⟩

/-! ### Steps -/

section Steps
variable [DecidableEq T] {init : σ} {body : C → Process A R ε Unit}
  {perform : κ → T → σ → (a : A) → Option (R a × σ)} {s s' : Pool σ T A R ε} {o : Unit}

theorem step_start {t : T} {call : C}
    (h : (pool init body perform).step s (.start t call) = some (o, s')) :
    s.running t = none ∧ body call ≠ .done (.error .undefined) ∧ s' = s.put t (some (body call)) := by
  rcases hrun : s.running t with _ | p
  · simp only [pool, hrun, Option.bind_eq_bind, Option.bind_eq_some_iff, Option.pure_def,
      Option.some.injEq, Prod.mk.injEq] at h
    obtain ⟨p, hp, -, rfl⟩ := h
    obtain ⟨rfl, hdef⟩ := Process.proceed_some hp
    exact ⟨rfl, hdef, rfl⟩
  · simp [pool, hrun] at h

theorem step_act {t : T} {choice : κ}
    (h : (pool init body perform).step s (.act t choice) = some (o, s')) :
    ∃ a k r shared, s.running t = some (.act a k) ∧ perform choice t s.shared a = some (r, shared) ∧
      k r ≠ .done (.error .undefined) ∧ s' = { s with shared }.put t (some (k r)) := by
  rcases hrun : s.running t with _ | r | _ | ⟨a, k⟩
  · simp [pool, hrun] at h
  · simp [pool, hrun] at h
  · simp [pool, hrun] at h
  · simp only [pool, hrun, Option.bind_eq_bind, Option.bind_eq_some_iff, Option.pure_def,
      Option.some.injEq, Prod.mk.injEq, Prod.exists] at h
    obtain ⟨r, shared, hperform, p, hp, -, rfl⟩ := h
    obtain ⟨rfl, hdef⟩ := Process.proceed_some hp
    exact ⟨a, k, r, shared, rfl, hperform, hdef, rfl⟩

theorem step_finish {t : T} (h : (pool init body perform).step s (.finish t) = some (o, s')) :
    (∃ r, s.running t = some (.done r)) ∧ s' = s.put t none := by
  rcases hrun : s.running t with _ | r | _ | ⟨a, k⟩
  · simp [pool, hrun] at h
  · simp only [pool, hrun, Option.some.injEq, Prod.mk.injEq] at h
    exact ⟨⟨r, rfl⟩, h.2.symm⟩
  · simp [pool, hrun] at h
  · simp [pool, hrun] at h

/-- What holds of the threads still does if it holds of the one that was put in. -/
theorem forall_put {Q : T → Option (Process A R ε Unit) → Prop} {t : T}
    {p : Option (Process A R ε Unit)} (ht : Q t p) (h : ∀ t', t' ≠ t → Q t' (s.running t')) :
    ∀ t', Q t' ((s.put t p).running t') := by
  intro t'
  by_cases he : t' = t
  · subst he
    simp only [Pool.put, Function.update_self]
    exact ht
  · simp only [Pool.put, Function.update_of_ne he]
    exact h t' he

/-- POOL: if each call keeps to the protocol, and each action that the protocol allows gives an answer
    that it provides for and preserves `I`, then in every state of every run there is a state of the
    protocol for each thread such that `I` holds. -/
theorem pool_inv {P : Protocol A R G} {g₀ : G} {I : σ → (T → G) → Prop} (h0 : I init fun _ => g₀)
    (hbody : ∀ call, Process.Returns P (body call) g₀)
    (hact : ∀ s g t choice a r s', I s g → P.allows (g t) a → perform choice t s a = some (r, s') →
      P.answers (g t) a r ∧ I s' (Function.update g t (P.next (g t) a r)))
    {turns : List (Turn T C κ)} {outs : List Unit}
    (h : (pool init body perform).run turns = some (outs, s)) :
    ∃ g : T → G, I s.shared g ∧ ∀ t, Stage P g₀ (s.running t) (g t) := by
  have hinit : ∃ g : T → G, I (pool init body perform).init.shared g ∧
      ∀ t, Stage P g₀ ((pool init body perform).init.running t) (g t) :=
    ⟨fun _ => g₀, h0, fun _ => rfl⟩
  refine Machine.runFrom_induct (P := fun _ _ s =>
    ∃ g : T → G, I s.shared g ∧ ∀ t, Stage P g₀ (s.running t) (g t)) hinit ?_ h
  rintro turns outs s turn o s' - ⟨g, hI, hstage⟩ hstep
  cases turn with
  | start t call =>
    obtain ⟨hnone, hdef, rfl⟩ := step_start hstep
    have hg : g t = g₀ := by
      have := hstage t
      rwa [hnone] at this
    refine ⟨g, hI, forall_put (Q := fun t' p => Stage P g₀ p (g t')) ⟨hdef, (hbody call).1, ?_⟩
      fun t' _ => hstage t'⟩
    rw [hg]
    exact (hbody call).2
  | act t choice =>
    obtain ⟨a, k, r, shared, hrun, hperform, hdef, rfl⟩ := step_act hstep
    have ht := hstage t
    rw [hrun] at ht
    obtain ⟨-, hwhole, hallows, hrest⟩ := ht
    obtain ⟨hanswers, hI'⟩ := hact _ g t choice a r shared hI hallows hperform
    refine ⟨_, hI', forall_put (Q := fun t' p =>
      Stage P g₀ p (Function.update g t (P.next (g t) a r) t')) ?_ fun t' ht' => ?_⟩
    · rw [Function.update_self]
      exact ⟨hdef, hwhole r, hrest r hanswers⟩
    · rw [Function.update_of_ne ht']
      exact hstage t'
  | finish t =>
    obtain ⟨⟨r, hrun⟩, rfl⟩ := step_finish hstep
    have ht := hstage t
    rw [hrun] at ht
    exact ⟨g, hI, forall_put (Q := fun t' p => Stage P g₀ p (g t')) (ht.ended nofun)
      fun t' _ => hstage t'⟩

end Steps

/-! ### Locks -/

/-- LOCK ORDER: if a thread that holds a lock waits for no lock but those above it, then of the threads
    that hold a lock there is one that does not wait for a lock that is taken. -/
theorem lock_order {L : Type} {owner : L → Option T} {waits : T → L → Prop} {rank : L → ℕ} {top : ℕ}
    (htop : ∀ l, rank l ≤ top)
    (horder : ∀ t l l', owner l = some t → waits t l' → rank l < rank l') {t : T} {l : L}
    (h : owner l = some t) : ∃ t l, owner l = some t ∧ ∀ l', waits t l' → owner l' = none := by
  by_cases hfree : ∀ l', waits t l' → owner l' = none
  · exact ⟨t, l, h, hfree⟩
  · push Not at hfree
    obtain ⟨l', hwaits, howner⟩ := hfree
    obtain ⟨t', ht'⟩ := Option.ne_none_iff_exists'.mp howner
    have hlt := horder t l l' h hwaits
    have hle := htop l'
    exact lock_order htop horder ht'
termination_by top - rank l

end Schemes
