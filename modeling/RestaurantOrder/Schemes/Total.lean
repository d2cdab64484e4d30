import RestaurantOrder.Schemes.Process

/-! Processes that go on until they have ended.

    `Total P Q p g` is the judgement that `p` keeps to the protocol `P` from state `g` on, ends with `Q`,
    and never comes to where an unrolled loop would go on. A loop is given enough turns by what its turns
    use up (`Total.loop`); where every action uses up something of the state, the process ends.

        left 3 ──act──▶ left 2 ──act──▶ left 1 ──▶ done, Q of what is left -/

namespace Schemes.Process

variable {A : Type} {R : A → Type} {ε α β G : Type} {P : Protocol A R G}

def Total (P : Protocol A R G) (Q : Outcome ε α → G → Prop) : Process A R ε α → G → Prop
  | done r, g => Q r g
  | more, _ => False
  | act a k, g => P.allows g a ∧ ∀ r, P.answers g a r → Total P Q (k r) (P.next g a r)

theorem Total.mono {Q Q' : Outcome ε α → G → Prop} (hQ : ∀ r g, Q r g → Q' r g)
    {p : Process A R ε α} {g : G} (h : Total P Q p g) : Total P Q' p g := by
  induction p generalizing g with
  | done r => exact hQ r g h
  | more => exact h
  | act a k ih => exact ⟨h.1, fun r hr => ih r (h.2 r hr)⟩

/-- SEQUENCE: the rest goes on from where the first part ends. -/
theorem Total.bind {p : Process A R ε α} {f : α → Process A R ε β} {Q : Outcome ε β → G → Prop} {g : G}
    (h : Total P (fun r g' => match r with
      | .ok a => Total P Q (f a) g'
      | .error e => Q (.error e) g') p g) : Total P Q (p >>= f) g := by
  induction p generalizing g with
  | done r =>
    rcases r with e | a
    · exact h
    · exact h
  | more => exact h
  | act a k ih => exact ⟨h.1, fun r hr => ih r (h.2 r hr)⟩

/-- TRY: so does the handler. -/
theorem Total.handle {p : Process A R ε α} {h : ε → Process A R ε α} {Q : Outcome ε α → G → Prop}
    {g : G}
    (hp : Total P (fun r g' => match r with
      | .error (.throws e) => Total P Q (h e) g'
      | r => Q r g') p g) : Total P Q (p.handle h) g := by
  induction p generalizing g with
  | done r => rcases r with (e | _) | a <;> exact hp
  | more => exact hp
  | act a k ih => exact ⟨hp.1, fun r hr => ih r (hp.2 r hr)⟩

/-- SCOPE: and the destructor. -/
theorem Total.leaving {p : Process A R ε α} {q : Process A R ε Unit} {Q : Outcome ε α → G → Prop}
    {g : G}
    (hp : Total P (fun r g' => match r with
      | .error .undefined => Q (.error .undefined) g'
      | r => Total P Q (q >>= fun _ => done r) g') p g) : Total P Q (Process.leaving q p) g := by
  induction p generalizing g with
  | done r => rcases r with (e | _) | a <;> exact hp
  | more => exact hp
  | act a k ih => exact ⟨hp.1, fun r hr => ih r (hp.2 r hr)⟩

/-- LOOP: what holds before each turn, with the turns that are left; there is always one left. -/
theorem Total.loop {body : Process A R ε Bool} {I : ℕ → G → Prop} {Q : Outcome ε Unit → G → Prop}
    (hpos : ∀ g, ¬I 0 g)
    (hbody : ∀ n g, I (n + 1) g → Total P (fun r g' => match r with
      | .ok goOn => if goOn then I n g' else Q (.ok ()) g'
      | .error e => Q (.error e) g') body g) {n : ℕ} {g : G} (h : I n g) :
    Total P Q (loop body n) g := by
  induction n generalizing g with
  | zero => exact (hpos g h).elim
  | succ n ih =>
    refine Total.bind ((hbody n g h).mono ?_)
    rintro (e | _ | _) g' h'
    · exact h'
    · exact h'
    · exact ih h'

end Schemes.Process
