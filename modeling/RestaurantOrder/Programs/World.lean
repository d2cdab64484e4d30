import RestaurantOrder.Programs.Reports
import RestaurantOrder.Programs.Shown
import RestaurantOrder.Schemes.Shared

/-! All programs together, at one server.

    Any number of updaters and displays are started, each with what its user types. In a step one of
    them, or the thread that serves it, does something; the server is the same for all. What is done in
    the server is logged.

        program 1 ◀──▶ thread 1 ──┐
        program 2 ◀──▶ thread 2 ──┼──▶ server        log: who, what, with what outcome
        program 3 ◀──▶ thread 3 ──┘                                                      -/

namespace Restaurant
open Schemes Process Program

/-- A program that is started, with its arguments and what its user types. -/
inductive Start where
  | updater (argv : List Bytes) (stdin : Bytes)
  | display (argv : List Bytes) (stdin : Bytes)

namespace Start

def argv : Start → List Bytes
  | .updater argv _ => argv
  | .display argv _ => argv

/-- Before anything has happened; `m` bounds the turns of the main loop that are looked at. -/
def seat (m : ℕ) : Start → Seat
  | .updater argv stdin => { proc := Updater.main argv m, stdin }
  | .display argv stdin => { proc := Display.main argv m, stdin }

end Start

structure World where
  seats : Client → Seat
  server : Server := {}

/-- A program with its thread, and the server. -/
def World.talk (w : World) (c : Client) : Dialogue := ⟨w.seats c, w.server⟩

def World.put (w : World) (c : Client) (d : Dialogue) : World :=
  ⟨Function.update w.seats c d.seat, d.server⟩

/-- Who has done what in the server. -/
abbrev Entry := Client × Op × Out × Server × Server

/-- What a step has added to the log. -/
def entry (c : Client) (before after : Seat) : Option Entry := (deedOf before after).map (Prod.mk c)

/-- The programs with their threads take turns; `n` bounds the turns of the threads that are looked at.
    Nothing else is done in the server. -/
def world (n m : ℕ) (starts : Client → Start) : Machine World (Client × Move) (Option Entry) where
  init := { seats := fun c => (starts c).seat m }
  step
    | _, (_, .other _) => none
    | w, (c, move) => do
      let (_, d) ← (dialogue c n (w.talk c)).step (w.talk c) move
      return (entry c (w.seats c) d.seat, w.put c d)

/-- What has been done in the server. -/
def logOf (outs : List (Option Entry)) : List Entry := outs.reduceOption

/-! ### Steps -/

section
variable {n m : ℕ} {starts : Client → Start} {w w' : World} {c c' : Client} {move : Move}
  {o : Option Entry}

@[simp] theorem World.put_server (w : World) (c : Client) (d : Dialogue) :
    (w.put c d).server = d.server := rfl

@[simp] theorem World.put_seats_self (w : World) (c : Client) (d : Dialogue) :
    (w.put c d).seats c = d.seat := Function.update_self ..

theorem World.put_seats_of_ne (h : c ≠ c') (w : World) (d : Dialogue) :
    (w.put c' d).seats c = w.seats c := Function.update_of_ne h ..

@[simp] theorem World.put_talk_self (w : World) (c : Client) (d : Dialogue) : (w.put c d).talk c = d := by
  simp [World.talk]

theorem World.put_talk_of_ne (h : c ≠ c') (w : World) (d : Dialogue) :
    (w.put c' d).talk c = ⟨w.seats c, d.server⟩ := by
  rw [World.talk, put_seats_of_ne h, put_server]

theorem step_world (h : (world n m starts).step w (c, move) = some (o, w')) :
    (∀ op, move ≠ .other op) ∧ ∃ d, (dialogue c n (w.talk c)).step (w.talk c) move = some ((), d) ∧
      o = entry c (w.seats c) d.seat ∧ w' = w.put c d := by
  cases move with
  | other op => cases h
  | _ =>
    simp only [world, Option.bind_eq_bind, Option.bind_eq_some_iff, Option.pure_def,
      Option.some.injEq, Prod.mk.injEq, Prod.exists] at h
    obtain ⟨⟨⟩, d, hstep, rfl, rfl⟩ := h
    exact ⟨by simp, d, hstep, rfl, rfl⟩

end

end Restaurant
