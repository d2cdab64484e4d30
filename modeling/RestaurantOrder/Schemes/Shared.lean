import RestaurantOrder.Schemes.Machine

/-! A machine that several parties use.

    A log is what has been done with the machine, in the order in which it was done: what was put in,
    what came out, and the states before and behind it. So the log is a run of the machine
    (`Logged.run`). Where the entries say who has done it, the part of each party grows by what that
    party does (`partOf_snoc_self`, `partOf_snoc_of_ne`).

        s ──(a, i, o)──▶ s' ──(b, i', o')──▶ s'' ──(a, ..)──▶ ..      part of a:  (i, o), (..) -/

namespace Schemes

variable {κ σ ι ο β : Type} {M : Machine σ ι ο} {s s' : σ}

inductive Logged (M : Machine σ ι ο) (s : σ) : List (ι × ο × σ × σ) → σ → Prop
  | nil : Logged M s [] s
  | snoc {log s' s'' i o} (h : Logged M s log s') (hstep : M.step s' i = some (o, s'')) :
      Logged M s (log ++ [(i, o, s', s'')]) s''

theorem Logged.run {log : List (ι × ο × σ × σ)} (h : Logged M s log s') :
    M.runFrom s (log.map fun e => e.1) = some (log.map fun e => e.2.1, s') := by
  induction h with
  | nil => rfl
  | snoc _ hstep ih =>
    rw [List.map_append, List.map_append]
    exact Machine.runFrom_append.mpr
      ⟨_, _, _, ih, Machine.runFrom_one.mpr ⟨_, hstep, rfl⟩, rfl⟩

/-- What a party has done. -/
def partOf [DecidableEq κ] (c : κ) (log : List (κ × β)) : List β :=
  (log.filter fun e => e.1 = c).map Prod.snd

section
variable [DecidableEq κ] {c c' : κ}

theorem partOf_snoc_self (c : κ) (log : List (κ × β)) (b : β) :
    partOf c (log ++ [(c, b)]) = partOf c log ++ [b] := by
  simp [partOf]

theorem partOf_snoc_of_ne (h : c ≠ c') (log : List (κ × β)) (b : β) :
    partOf c (log ++ [(c', b)]) = partOf c log := by
  simp [partOf, h.symm]

end

end Schemes
