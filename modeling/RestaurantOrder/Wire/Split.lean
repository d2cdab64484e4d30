import RestaurantOrder.Wire.Text

/-! `Util::split`, round by round.

    A round searches the next separator from a position on and cuts the token between the two;
    `positions` are the positions of the rounds, and `token` is what a round cuts.

        string     a b | | c d e f |
        positions  0     3 4         9
        tokens     ab      cdef

    `splitLoop_positions` says that the loop is these rounds and nothing else, `rounds` that each of
    them stays within the string and cuts the token whose turn it is.

    CORRECT: `split_join`, for every string and separator. -/

namespace Restaurant.Util
open Schemes

/-- What the loop cuts at position `pos`. -/
def token (s : Bytes) (sep : Byte) (pos : ℕ) : Cpp Bytes :=
  match find s sep pos with
  | none => substr s pos none
  | some sepPos => substr s pos (some (sepPos - pos))

/-- The positions that the loop is at, from `pos` on. -/
def positions (s : Bytes) (sep : Byte) (pos : ℕ) : List ℕ :=
  match _h : find s sep pos with
  | none => [pos]
  | some sepPos => pos :: positions s sep (sepPos + 1)
termination_by s.length - pos
decreasing_by have := find_bounds _h; omega

theorem positions_last {s : Bytes} {sep : Byte} {pos : ℕ} (h : find s sep pos = none) :
    positions s sep pos = [pos] := by
  rw [positions]
  split
  · rfl
  · next h' => cases h.symm.trans h'

theorem positions_more {s : Bytes} {sep : Byte} {pos sepPos : ℕ} (h : find s sep pos = some sepPos) :
    positions s sep pos = pos :: positions s sep (sepPos + 1) := by
  rw [positions]
  split
  · next h' => cases h.symm.trans h'
  · next h' => rw [Option.some.inj (h.symm.trans h')]

/-- The loop is its rounds, one after the other. -/
theorem splitLoop_positions (s : Bytes) (sep : Byte) (pos : ℕ) (v : List Bytes) :
    splitLoop s sep pos v = do
      let ts ← (positions s sep pos).mapM (token s sep)
      return v ++ ts := by
  rw [splitLoop]
  split
  · next h =>
    rw [positions_last h]
    simp only [List.mapM_cons, List.mapM_nil, token, h, bind_assoc, pure_bind]
  · next n h =>
    have hlt := find_bounds h
    rw [positions_more h]
    simp only [List.mapM_cons, token, h, bind_assoc, pure_bind]
    refine bind_congr fun tok => ?_
    rw [splitLoop_positions s sep (n + 1)]
    simp only [List.append_assoc, List.singleton_append]
termination_by s.length - pos

/-- Each round stays within the string and cuts one token of the string. -/
theorem rounds (s : Bytes) (sep : Byte) (pos : ℕ) (hpos : pos ≤ s.length) :
    List.Forall₂ (fun p t => p ≤ s.length ∧ token s sep p = .ok t) (positions s sep pos)
      ((s.drop pos).splitOn sep) := by
  have hfirst := splitOn_of_find sep (s.drop pos)
  have hcut : ∀ count, substr s pos (some count) = .ok ((s.drop pos).take count) := fun count =>
    if_neg (by omega)
  cases h : find s sep pos with
  | none =>
    have hnone := h
    rw [find, Option.map_eq_none_iff] at hnone
    rw [hnone] at hfirst
    rw [positions_last h, hfirst]
    refine .cons ⟨hpos, ?_⟩ .nil
    rw [token, h]
    exact if_neg (by omega)
  | some n =>
    have hb := find_bounds h
    obtain ⟨i, hi, rfl⟩ := Option.map_eq_some_iff.mp h
    rw [hi] at hfirst
    rw [positions_more h, hfirst.2]
    refine .cons ⟨hpos, ?_⟩ ?_
    · rw [token, h]
      simp only [hcut, Nat.add_sub_cancel_left]
    · have hrest := rounds s sep (pos + i + 1) (by omega)
      rwa [List.drop_drop, ← Nat.add_assoc]
termination_by s.length - pos

/-- CORRECT: `split` and joining are inverse. The loop of `split` ends after one round more than
    there are separators, each of them at a position within the string; its tokens have no separator
    in them and join to the string. And it takes every joined list of tokens without separators, empty
    ones included, apart into these tokens. -/
theorem split_join (s : Bytes) (sep : Byte) :
    split s sep = (positions s sep 0).mapM (token s sep) ∧
    (∃ ts, split s sep = .ok ts ∧
      List.Forall₂ (fun pos t => pos ≤ s.length ∧ token s sep pos = .ok t) (positions s sep 0) ts ∧
      ts ≠ [] ∧ (∀ t ∈ ts, sep ∉ t) ∧ ts.length = s.count sep + 1 ∧ join sep ts = s) ∧
    ∀ ts, ts ≠ [] → (∀ t ∈ ts, sep ∉ t) → split (join sep ts) sep = .ok ts := by
  obtain ⟨hne, hfree, hjoin⟩ := splitOn_eq_iff.mp (Eq.refl (s.splitOn sep))
  refine ⟨?_, ⟨s.splitOn sep, split_eq s sep, rounds s sep 0 (Nat.zero_le _), hne, hfree,
    length_splitOn sep s, hjoin.symm⟩, fun ts hts hfree' => ?_⟩
  · rw [split, splitLoop_positions]
    simp only [List.nil_append, bind_pure]
  · rw [split_eq, splitOn_eq_iff.mpr ⟨hts, hfree', rfl⟩]

/-- Empty tokens at the start, in the middle and at the end. -/
theorem split_join_empty :
    split (join (byte ',') [[], ascii "a", [], [], ascii "bc", []]) (byte ',')
      = .ok [[], ascii "a", [], [], ascii "bc", []] :=
  (split_join [] (byte ',')).2.2 _ (by decide) (by decide)

end Restaurant.Util
