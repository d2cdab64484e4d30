import RestaurantOrder.Threads.Queues

/-! The threads do not lock each other out.

    An operation does put messages in queues while it holds the server's mutex, so a thread may hold
    two mutexes. But it locks them upwards, and with a queue's mutex it locks nothing more:

        server (0)  ──▶  queue of a client (1)

    So of the threads that hold a mutex one does not wait for another, and it can go on, since what it
    is about to take from a queue is there. -/

namespace Restaurant.Threads
open Schemes Process

def Mutex.rank : Mutex → ℕ
  | .server => 0
  | .queue _ => 1

theorem Mutex.rank_le (l : Mutex) : l.rank ≤ 1 := by
  cases l <;> simp [Mutex.rank]

variable {T : Type}

/-- A thread requests a mutex. -/
def Requests (s : Pool (Memory T) T Prim Prim.Answer Exception) (t : T) (l : Mutex) : Prop :=
  ∃ k, s.running t = some (.act (.lock l) k)

/-- It requests one that is taken. -/
def Blocked (s : Pool (Memory T) T Prim Prim.Answer Exception) (t : T) : Prop :=
  ∃ l, Requests s t l ∧ s.shared.owner l ≠ none

/-- The call of a thread is over, by a result or by an exception, or the thread is in none. -/
def Finished (s : Pool (Memory T) T Prim Prim.Answer Exception) (t : T) : Prop :=
  s.running t = none ∨ ∃ r, s.running t = some (.done r)

section Phases
variable {g : Phase} {a : Prim} {l l' : Mutex}

theorem Allowed.not_holds (h : Allowed g (.lock l)) : ¬g.Holds l := by
  obtain ⟨guarded, errand⟩ := g
  cases l with
  | server =>
    obtain ⟨rfl, rfl⟩ := h
    exact nofun
  | queue c => rcases h with rfl | ⟨rfl, rfl⟩ <;> exact nofun

/-- Locks are taken upwards. -/
theorem Allowed.rank_lt (h : Allowed g (.lock l')) (hl : g.Holds l) : l.rank < l'.rank := by
  obtain ⟨guarded, errand⟩ := g
  cases l' with
  | server =>
    obtain ⟨rfl, rfl⟩ := h
    cases l <;> cases hl
  | queue c =>
    cases l with
    | server => exact Nat.zero_lt_one
    | queue c' => rcases h with rfl | ⟨rfl, rfl⟩ <;> cases hl

theorem Allowed.waits_free (c : Client) (h : Allowed g (.wait c)) : ¬g.Holds l := by
  obtain ⟨guarded, errand⟩ := g
  obtain ⟨rfl, rfl⟩ := h
  cases l <;> exact nofun

theorem Allowed.holds (h : Allowed g (.unlock l)) : g.Holds l := by
  obtain ⟨guarded, errand⟩ := g
  cases l with
  | server => exact h.1
  | queue c => rcases h with rfl | rfl <;> rfl

theorem not_holds_idle (l : Mutex) : ¬Phase.Holds {} l := by
  cases l <;> exact nofun

end Phases

variable [DecidableEq T] {turns : List (Turn T Call Choice)} {outs : List Unit}
  {s : Pool (Memory T) T Prim Prim.Answer Exception}

/-- The thread can perform the action that it is about to do. -/
def Enabled (s : Pool (Memory T) T Prim Prim.Answer Exception) (t : T) : Prop :=
  ∃ a k choice r m, s.running t = some (.act a k) ∧ s.shared.perform choice t a = some (r, m)

/-- Then there is a step, unless the program goes undefined behind the action. -/
theorem Enabled.step {t : T} (h : Enabled s t) : ∃ a k choice r m,
    s.running t = some (.act a k) ∧ s.shared.perform choice t a = some (r, m) ∧
    (k r = .done (.error .undefined) ∨ (threads T).step s (.act t choice)
      = some ((), { s with shared := m }.put t (some (k r)))) := by
  obtain ⟨a, k, choice, r, m, hrun, hperform⟩ := h
  refine ⟨a, k, choice, r, m, hrun, hperform, ?_⟩
  by_cases hdef : k r = .done (.error .undefined)
  · exact Or.inl hdef
  · refine Or.inr ?_
    have hproceed : (k r).proceed = some (k r) := by
      unfold Process.proceed
      split
      · next hk => exact absurd hk hdef
      · rfl
    simp [threads, pool, hrun, hperform, hproceed]

/-- What an action needs, besides that a mutex is free, is there. -/
theorem Sound.enabled {m : Memory T} {g : T → Phase} (h : Sound m g) {t : T} {a : Prim}
    (hallowed : Allowed (g t) a) (hfree : ∀ l, a = .lock l → m.owner l = none) :
    ∃ choice r m', m.perform choice t a = some (r, m') := by
  cases a with
  | lock l => exact ⟨{}, _, _, if_pos (hfree l rfl)⟩
  | unlock l => exact ⟨{}, _, _, if_pos ((h.owner l t).mpr hallowed.holds)⟩
  | iterate cs => exact ⟨{ order := cs.toList }, _, _, if_pos ⟨cs.nodup_toList, cs.toList_toFinset⟩⟩
  | wait c => exact ⟨{ timeout := true }, false, m, rfl⟩
  | pop c =>
    have hg : (g t).errand = .popping c := hallowed
    have hqueue := (h.queues c).queue_ne_nil (by rw [hg]; rfl : (g t).errand.toPop = some c)
    obtain ⟨msg, rest, hcons⟩ := List.exists_cons_of_ne_nil hqueue
    refine ⟨{}, msg, ?_⟩
    simp [Memory.perform, MessageQueue.pop, hcons]
  | _ => exact ⟨{}, _, _, rfl⟩

/-- What is promised of a state: nobody requests a mutex twice, nobody requests one with a queue's
    mutex in hand, nobody waits for a message with a mutex in hand; if somebody is blocked then
    somebody who holds a mutex can go on; and whoever is out of a call holds none. -/
structure DeadlockFree (s : Pool (Memory T) T Prim Prim.Answer Exception) : Prop where
  once : ∀ t l, Requests s t l → s.shared.owner l ≠ some t
  queueLast : ∀ t c l, s.shared.owner (.queue c) = some t → ¬Requests s t l
  waitsFree : ∀ t c k l, s.running t = some (.act (.wait c) k) → s.shared.owner l ≠ some t
  goesOn : (∃ t, Blocked s t) → ∃ t l, s.shared.owner l = some t ∧ Enabled s t
  exits : ∀ t l, Finished s t → s.shared.owner l ≠ some t

/-- NO DEADLOCK: in every state of every run. -/
theorem no_deadlock (h : (threads T).run turns = some (outs, s)) : DeadlockFree s := by
  obtain ⟨g, hsound, hstage⟩ := run_sound h
  have hallowed : ∀ {t a k}, s.running t = some (.act a k) → Allowed (g t) a :=
    fun hrun => (hstage _).allows hrun
  constructor
  · rintro t l ⟨k, hrun⟩ howner
    exact (hallowed hrun).not_holds ((hsound.owner l t).mp howner)
  · rintro t c l howner ⟨k, hrun⟩
    have hlt := (hallowed hrun).rank_lt ((hsound.owner _ t).mp howner)
    exact absurd l.rank_le (Nat.not_le_of_lt hlt)
  · intro t c k l hrun howner
    exact (hallowed hrun).waits_free c ((hsound.owner l t).mp howner)
  · rintro ⟨t, l, -, htaken⟩
    obtain ⟨t₀, ht₀⟩ := Option.ne_none_iff_exists'.mp htaken
    -- up the order of the locks to a holder that does not wait
    have horder : ∀ t l l', s.shared.owner l = some t → Requests s t l' → l.rank < l'.rank := by
      rintro t l l' howner ⟨k, hrun⟩
      exact (hallowed hrun).rank_lt ((hsound.owner l t).mp howner)
    obtain ⟨t', l', howner, hfree⟩ := lock_order Mutex.rank_le horder ht₀
    have hholds := (hsound.owner l' t').mp howner
    obtain ⟨a, k, hrun⟩ := (hstage t').busy fun hidle => not_holds_idle l' (hidle ▸ hholds)
    obtain ⟨choice, r, m, hperform⟩ := hsound.enabled (hallowed hrun) (by
      rintro l'' rfl
      exact hfree l'' ⟨k, hrun⟩)
    exact ⟨t', l', howner, a, k, choice, r, m, hrun, hperform⟩
  · intro t l hout howner
    have hidle : g t = {} := (hstage t).ended fun a k hrun => by
      rcases hout with hnone | ⟨r, hdone⟩
      · cases hnone.symm.trans hrun
      · cases hdone.symm.trans hrun
    rw [hsound.owner, hidle] at howner
    exact not_holds_idle l howner

/-- Two threads update an order that is not there: one has the server's mutex and the other is blocked,
    and when the first has thrown its SemanticError the mutex is free. -/
theorem no_deadlock_two :
    (∃ outs s, (threads ℕ).run [.start 0 (.server (.orderUpdate 5 .delivered)),
      .start 1 (.server (.orderUpdate 5 .delivered)), .act 0 {}] = some (outs, s) ∧
      Blocked s 1 ∧ DeadlockFree s) ∧
    ∃ outs s, (threads ℕ).run [.start 0 (.server (.orderUpdate 5 .delivered)),
      .start 1 (.server (.orderUpdate 5 .delivered)), .act 0 {}, .act 0 {}, .act 0 {}]
        = some (outs, s) ∧
      s.running 0 = some (.done (Server.semanticError "order not found")) ∧ DeadlockFree s := by
  have hblocked : ∃ outs s, (threads ℕ).run [.start 0 (.server (.orderUpdate 5 .delivered)),
      .start 1 (.server (.orderUpdate 5 .delivered)), .act 0 {}] = some (outs, s) ∧ Blocked s 1 :=
    ⟨_, _, rfl, .server, ⟨_, rfl⟩, nofun⟩
  have hthrown : ∃ outs s, (threads ℕ).run [.start 0 (.server (.orderUpdate 5 .delivered)),
      .start 1 (.server (.orderUpdate 5 .delivered)), .act 0 {}, .act 0 {}, .act 0 {}]
        = some (outs, s) ∧
      s.running 0 = some (.done (Server.semanticError "order not found")) := ⟨_, _, rfl, rfl⟩
  obtain ⟨outs, s, hrun, hs⟩ := hblocked
  obtain ⟨outs', s', hrun', hs'⟩ := hthrown
  exact ⟨⟨outs, s, hrun, hs, no_deadlock hrun⟩, outs', s', hrun', hs', no_deadlock hrun'⟩

end Restaurant.Threads
