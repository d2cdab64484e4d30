import Mathlib.Tactic.Common

/-! Splitting a list at a separator, beyond what `List.splitOn` comes with.

    The tokens are free of the separator and made of the list's own elements. The first separator
    cuts a list into its first token and the rest (`splitOn_of_find`), which is what a loop computes
    that searches the next separator from a moving position. -/

namespace Schemes

variable {α : Type} [BEq α] [LawfulBEq α]

/-- The tokens of a split contain no separator. -/
theorem not_mem_of_mem_splitOn (c : α) (l : List α) : ∀ t ∈ l.splitOn c, c ∉ t := by
  induction l with
  | nil =>
    intro t ht
    rw [List.splitOn_nil, List.mem_singleton] at ht
    subst ht
    exact List.not_mem_nil
  | cons x l ih =>
    intro t ht
    rw [List.splitOn_cons_eq_if_modifyHead] at ht
    split at ht
    · rcases List.mem_cons.mp ht with rfl | ht
      · exact List.not_mem_nil
      · exact ih t ht
    · next hx =>
      obtain ⟨hd, tl, hs⟩ := List.exists_cons_of_ne_nil (List.splitOn_ne_nil c l)
      rw [hs] at ih ht
      rcases List.mem_cons.mp ht with rfl | ht
      · have hne : ¬c = x := fun h => hx (by rw [h]; exact BEq.refl x)
        simp only [List.mem_cons, not_or]
        exact ⟨hne, ih hd List.mem_cons_self⟩
      · exact ih t (List.mem_cons_of_mem _ ht)

omit [LawfulBEq α] in
/-- The tokens of a split are made of the list's elements. -/
theorem subset_of_mem_splitOn (c : α) (l : List α) : ∀ t ∈ l.splitOn c, t ⊆ l := by
  induction l with
  | nil =>
    intro t ht
    rw [List.splitOn_nil, List.mem_singleton] at ht
    rw [ht]
    exact List.Subset.refl _
  | cons x l ih =>
    intro t ht
    rw [List.splitOn_cons_eq_if_modifyHead] at ht
    split at ht
    · rcases List.mem_cons.mp ht with rfl | ht
      · exact List.nil_subset _
      · exact List.subset_cons_of_subset x (ih t ht)
    · obtain ⟨hd, tl, hs⟩ := List.exists_cons_of_ne_nil (List.splitOn_ne_nil c l)
      rw [hs] at ih ht
      rcases List.mem_cons.mp ht with rfl | ht
      · exact List.cons_subset_cons x (ih hd List.mem_cons_self)
      · exact List.subset_cons_of_subset x (ih t (List.mem_cons_of_mem _ ht))

omit [LawfulBEq α] in
/-- There is one token more than there are separators. -/
theorem length_splitOn (c : α) (l : List α) : (l.splitOn c).length = l.count c + 1 := by
  induction l with
  | nil => rfl
  | cons x l ih =>
    rw [List.splitOn_cons_eq_if_modifyHead, List.count_cons]
    split
    · rw [List.length_cons, ih]
    · rw [List.length_modifyHead, ih]

/-- Where a search for the separator fails there is one token, and where it succeeds the list goes on
    behind what it found. -/
theorem splitOn_of_find (c : α) (l : List α) :
    match l.findIdx? (· == c) with
    | none => l.splitOn c = [l]
    | some n => n < l.length ∧ l.splitOn c = l.take n :: (l.drop (n + 1)).splitOn c := by
  cases h : l.findIdx? (· == c) with
  | none =>
    rw [List.findIdx?_eq_none_iff] at h
    exact List.splitOn_eq_singleton_of_beq_eq_false h
  | some n =>
    obtain ⟨hn, hc, hfirst⟩ := List.findIdx?_eq_some_iff_getElem.mp h
    refine ⟨hn, ?_⟩
    have hnot : c ∉ l.take n := fun hm => by
      obtain ⟨j, hj, hjc⟩ := List.mem_take_iff_getElem.mp hm
      exact hfirst j (by omega) (beq_iff_eq.mpr hjc)
    have hcut : l = l.take n ++ c :: l.drop (n + 1) := by
      rw [← eq_of_beq hc, List.getElem_cons_drop, List.take_append_drop]
    calc l.splitOn c = (l.take n ++ c :: l.drop (n + 1)).splitOn c := by rw [← hcut]
      _ = l.take n :: (l.drop (n + 1)).splitOn c :=
        List.splitOn_append_cons_self_of_not_mem hnot _

/-- The tokens `ts` with a separator between each two of them. -/
def join (c : α) (ts : List (List α)) : List α := [c].intercalate ts

/-- Splitting yields the one list of separator-free tokens that joins to the list. -/
theorem splitOn_eq_iff {c : α} {l : List α} {ts : List (List α)} :
    l.splitOn c = ts ↔ ts ≠ [] ∧ (∀ t ∈ ts, c ∉ t) ∧ l = join c ts := by
  constructor
  · rintro rfl
    exact ⟨List.splitOn_ne_nil c l, not_mem_of_mem_splitOn c l, (List.intercalate_splitOn c).symm⟩
  · rintro ⟨hne, hc, rfl⟩
    exact List.splitOn_intercalate c hc hne

omit [BEq α] [LawfulBEq α] in
theorem join_cons {c : α} {t : List α} {ts : List (List α)} (h : ts ≠ []) :
    join c (t :: ts) = t ++ c :: join c ts := by
  obtain ⟨u, us, rfl⟩ := List.exists_cons_of_ne_nil h
  rw [join, join, List.intercalate_cons_cons, List.append_assoc, List.singleton_append]

omit [BEq α] [LawfulBEq α] in
/-- An element other than the separator that is in no token is not in the joined list. -/
theorem not_mem_join {a c : α} (hac : a ≠ c) {ts : List (List α)} (h : ∀ t ∈ ts, a ∉ t) :
    a ∉ join c ts := by
  induction ts with
  | nil => simp [join]
  | cons t ts ih =>
    rcases eq_or_ne ts [] with rfl | hne
    · simpa [join] using h
    · rw [join_cons hne, List.mem_append, List.mem_cons]
      rintro (ht | rfl | hts)
      · exact h t List.mem_cons_self ht
      · exact hac rfl
      · exact ih (fun v hv => h v (List.mem_cons_of_mem _ hv)) hts

end Schemes
