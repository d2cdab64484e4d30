import RestaurantOrder.Schemes.Machine
import Mathlib.Data.Nat.Digits.Lemmas

/-! Replicas: a follower that applies the messages of a machine to a copy of its data.

    A machine publishes a log of messages. If each step publishes messages that take its data from
    before the step to after it, then a follower that has a copy at one moment keeps up with every
    run from there on (`follows`). It gets its first copy from a snapshot of the data as puts into an
    empty map (`foldl_insert_toList`), and messages that change nothing may come in between
    (`foldlM_filter`).

        data s ──step──▶ data s'            log s ──step──▶ log s ++ ms
        copy   ──ms────▶ copy                -/

namespace Schemes

section
variable {m : Type → Type} [Monad m] [LawfulMonad m] {σ μ : Type}

/-- Messages that change nothing can be left out. -/
theorem foldlM_filter (apply : σ → μ → m σ) (noop : μ → Bool)
    (h : ∀ a, noop a = true → ∀ s, apply s a = pure s) :
    ∀ (as : List μ) (s : σ), as.foldlM apply s = (as.filter fun a => !noop a).foldlM apply s := by
  intro as
  induction as with
  | nil => exact fun _ => rfl
  | cons a as ih =>
    intro s
    cases ha : noop a with
    | true =>
      rw [List.filter_cons_of_neg (by simp [ha]), List.foldlM_cons, h a ha, pure_bind]
      exact ih s
    | false =>
      rw [List.filter_cons_of_pos (by simp [ha]), List.foldlM_cons, List.foldlM_cons]
      exact bind_congr fun s' => ih s'

end

/-- Putting the entries of a map into an empty one, in order, gives the map. -/
theorem foldl_insert_toList {κ ν : Type} [BEq κ] {cmp : κ → κ → Ordering} [Std.TransCmp cmp]
    [Std.LawfulEqCmp cmp] [Std.LawfulBEqCmp cmp] (t : Std.ExtTreeMap κ ν cmp) :
    t.toList.foldl (fun acc p => acc.insert p.1 p.2) ∅ = t := by
  have hfold : t.toList.foldl (fun acc p => acc.insert p.1 p.2) ∅
      = Std.ExtTreeMap.ofList t.toList cmp := by
    rw [Std.ExtTreeMap.ofList_eq_foldl]
  rw [hfold]
  refine Std.ExtTreeMap.ext_getElem? fun k => ?_
  cases hk : t[k]? with
  | some v =>
    have hmem := Std.ExtTreeMap.mem_toList_iff_getElem?_eq_some.mpr hk
    exact Std.ExtTreeMap.getElem?_ofList_of_mem Std.ReflCmp.compare_self
      Std.ExtTreeMap.distinct_keys_toList hmem
  | none =>
    refine Std.ExtTreeMap.getElem?_ofList_of_contains_eq_false ?_
    rw [Std.ExtTreeMap.map_fst_toList_eq_keys, Std.ExtTreeMap.contains_keys,
      Std.ExtTreeMap.contains_eq_isSome_getElem?, hk]
    rfl

/-- The entries of a list with pairwise different keys that have a given key: at most one. -/
theorem filter_key {κ ν : Type} [DecidableEq κ] {k : κ} {v : ν} {l : List (κ × ν)}
    (hl : l.Pairwise fun p q => p.1 ≠ q.1) (h : (k, v) ∈ l) :
    l.filter (fun p => p.1 = k) = [(k, v)] := by
  induction hl with
  | nil => exact absurd h List.not_mem_nil
  | @cons p l hp _ ih =>
    rcases List.mem_cons.mp h with rfl | h
    · have hrest : l.filter (fun p => p.1 = k) = [] :=
        List.filter_eq_nil_iff.mpr fun q hq => by simpa using (hp q hq).symm
      rw [List.filter_cons_of_pos (by simp), hrest]
    · have hne : p.1 ≠ k := hp _ h
      rw [List.filter_cons_of_neg (by simpa using hne), ih h]

/-- The entry of a map for a key is the only one of its entries with that key. -/
theorem filter_toList {κ ν : Type} [DecidableEq κ] {cmp : κ → κ → Ordering} [Std.TransCmp cmp]
    [Std.LawfulEqCmp cmp] (t : Std.ExtTreeMap κ ν cmp) (k : κ) :
    t.toList.filter (fun p => p.1 = k) = (t[k]?.map fun v => (k, v)).toList := by
  cases hk : t[k]? with
  | some v =>
    refine filter_key ?_ (Std.ExtTreeMap.mem_toList_iff_getElem?_eq_some.mpr hk)
    exact Std.ExtTreeMap.distinct_keys_toList.imp fun hne he =>
      hne (by rw [he]; exact Std.ReflCmp.compare_self)
  | none =>
    refine List.filter_eq_nil_iff.mpr fun p hp => ?_
    have hget := Std.ExtTreeMap.mem_toList_iff_getElem?_eq_some.mp (show (p.1, p.2) ∈ _ from hp)
    simp only [decide_eq_true_eq]
    rintro rfl
    rw [hk] at hget
    cases hget

variable {σ ι ο μ δ : Type} {m : Type → Type} [Monad m] [LawfulMonad m] {M : Machine σ ι ο}

/-- FOLLOW: over inputs that satisfy `A` and from a state in `Inv`, a run publishes messages that take
    its data from the start to the end. -/
theorem follows (Inv : σ → Prop) (A : ι → Prop) (data : σ → δ) (log : σ → List μ)
    (apply : δ → μ → m δ)
    (hstep : ∀ s i o s', Inv s → A i → M.step s i = some (o, s') →
      Inv s' ∧ ∃ ms, log s' = log s ++ ms ∧ ms.foldlM apply (data s) = pure (data s'))
    {s s' : σ} {is : List ι} {os : List ο} (hs : Inv s) (his : ∀ i ∈ is, A i)
    (h : M.runFrom s is = some (os, s')) :
    Inv s' ∧ ∃ ms, log s' = log s ++ ms ∧ ms.foldlM apply (data s) = pure (data s') := by
  induction is generalizing s os with
  | nil =>
    obtain ⟨-, rfl⟩ := Prod.mk.inj (Option.some.inj h)
    exact ⟨hs, [], by simp, rfl⟩
  | cons i is ih =>
    obtain ⟨o, s₁, os', h₁, hrest, -⟩ := Machine.runFrom_cons.mp h
    obtain ⟨hs₁, ms₁, hlog₁, hdata₁⟩ := hstep s i o s₁ hs (his i List.mem_cons_self) h₁
    obtain ⟨hs', ms₂, hlog₂, hdata₂⟩ :=
      ih hs₁ (fun j hj => his j (List.mem_cons_of_mem _ hj)) hrest
    refine ⟨hs', ms₁ ++ ms₂, by rw [hlog₂, hlog₁, List.append_assoc], ?_⟩
    rw [List.foldlM_append, hdata₁, pure_bind, hdata₂]

end Schemes
