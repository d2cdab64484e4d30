import Mathlib.Data.List.Nodup
import Mathlib.Tactic.Common

/-! Name tables of enumerations.

    One table lists every value with its name; printing searches it by value, parsing searches the
    inverted table by name, and a name that is not there parses to a designated `unknown` value. The
    structure carries that values and names are listed once, so printing and parsing undo each
    other (`parse_print`, `print_parse`). -/

namespace Schemes

variable {α ν : Type} [DecidableEq α]

/-- A pair of a list with distinct first components is the one that `lookup` finds. -/
theorem lookup_of_mem {k : α} {v : ν} {m : List (α × ν)} (hnd : (m.map Prod.fst).Nodup)
    (h : (k, v) ∈ m) : m.lookup k = some v := by
  induction m with
  | nil => exact absurd h List.not_mem_nil
  | cons p m ih =>
    obtain ⟨k', v'⟩ := p
    rw [List.map_cons, List.nodup_cons] at hnd
    rcases List.mem_cons.mp h with heq | hm
    · obtain ⟨rfl, rfl⟩ := Prod.mk.inj heq
      rw [List.lookup_cons_self]
    · have hne : (k == k') = false := by
        rw [beq_eq_false_iff_ne]
        rintro rfl
        exact hnd.1 (List.mem_map.mpr ⟨_, hm, rfl⟩)
      rw [List.lookup_cons, hne]
      exact ih hnd.2 hm

theorem mem_of_lookup {k : α} {v : ν} {m : List (α × ν)} (h : m.lookup k = some v) :
    (k, v) ∈ m := by
  obtain ⟨l, r, rfl, -⟩ := List.lookup_eq_some_iff.mp h
  simp

/-- The same pairs, searched by their second component. -/
def invert (m : List (α × ν)) : List (ν × α) := m.map Prod.swap

/-- Names for the values of `α`; `unknown` stands for everything without a name. -/
structure NameTable (α ν : Type) [DecidableEq α] [DecidableEq ν] where
  entries : List (α × ν)
  unnamed : ν
  unknown : α
  keys : (entries.map Prod.fst).Nodup
  names : (entries.map Prod.snd).Nodup
  total : ∀ a, a ∈ entries.map Prod.fst

namespace NameTable

variable [DecidableEq ν] (T : NameTable α ν)

def print (a : α) : ν := (T.entries.lookup a).getD T.unnamed

def parse (s : ν) : α := ((invert T.entries).lookup s).getD T.unknown

theorem mem_print (a : α) : (a, T.print a) ∈ T.entries := by
  obtain ⟨⟨a', s⟩, hm, rfl⟩ := List.mem_map.mp (T.total a)
  rw [print, lookup_of_mem T.keys hm]
  exact hm

theorem lookup_invert {a : α} {s : ν} (h : (a, s) ∈ T.entries) :
    (invert T.entries).lookup s = some a := by
  refine lookup_of_mem ?_ (List.mem_map.mpr ⟨_, h, rfl⟩)
  have hfst : (invert T.entries).map Prod.fst = T.entries.map Prod.snd := by
    simp [invert, Function.comp_def]
  rw [hfst]; exact T.names

@[simp] theorem parse_print (a : α) : T.parse (T.print a) = a := by
  rw [parse, T.lookup_invert (T.mem_print a)]; rfl

/-- A name that parses to something known is the name of what it parses to. -/
theorem print_parse {s : ν} (h : T.parse s ≠ T.unknown) : T.print (T.parse s) = s := by
  cases hl : (invert T.entries).lookup s with
  | none => exact absurd (by rw [parse, hl]; rfl) h
  | some a =>
    have hm := mem_of_lookup hl
    rw [invert, List.mem_map] at hm
    obtain ⟨⟨a', s'⟩, hm, heq⟩ := hm
    obtain ⟨rfl, rfl⟩ := Prod.mk.inj heq
    rw [parse, hl, Option.getD_some, print, lookup_of_mem T.keys hm, Option.getD_some]

theorem print_injective : Function.Injective T.print := fun a b h => by
  rw [← T.parse_print a, h, T.parse_print]

end NameTable

end Schemes
