import RestaurantOrder.Threads.Invariant

/-! Nothing is lost, duplicated or reordered in a queue.

    Any number of threads put messages in a queue and take them out, from inside the operations of the
    server or not. A thread that has waited with success finds a message, whoever else is there: the
    messages that are posted for it are in the deque before they are posted, and each pop that is due
    has one of them (`message_queue_exact`). It returns the message that it has popped
    (`dequeue_fetches`). -/

namespace Restaurant.Threads
open Schemes Process

variable {T : Type}

namespace Balanced
variable {c : Client} {q : MessageQueue T} {g : T → Phase}

/-- All that was posted and not popped is in the deque. -/
theorem enough (h : Balanced c q g) : q.avail + q.popping.card ≤ q.queue.length := by
  have hlen := congrArg List.length h.order
  have hpushes := h.pushes
  have hposts := h.posts
  rw [List.length_append] at hlen
  omega

theorem popped_le (h : Balanced c q g) : q.popped.length ≤ q.posts := by
  have hposts := h.posts
  omega

/-- A thread that is to pop finds a message. -/
theorem queue_ne_nil (h : Balanced c q g) {t : T} (ht : (g t).errand.toPop = some c) :
    q.queue ≠ [] := by
  intro hempty
  have hpos := Finset.card_pos.mpr ⟨t, (h.popping t).mpr ht⟩
  have hle := h.enough
  rw [hempty, List.length_nil] at hle
  omega

/-- With nobody at work on the queue the semaphore counts the messages. -/
theorem settled (h : Balanced c q g) (hidle : ∀ t, g t = {}) : q.avail = q.queue.length := by
  have hposting : q.posting = ∅ := Finset.eq_empty_of_forall_notMem fun t ht => by
    have hdue := (h.posting t).mp ht
    rw [hidle t] at hdue
    cases hdue
  have hpopping : q.popping = ∅ := Finset.eq_empty_of_forall_notMem fun t ht => by
    have hdue := (h.popping t).mp ht
    rw [hidle t] at hdue
    cases hdue
  have hlen := congrArg List.length h.order
  have hpushes := h.pushes
  have hposts := h.posts
  rw [List.length_append] at hlen
  rw [hposting, Finset.card_empty] at hpushes
  rw [hpopping, Finset.card_empty] at hposts
  omega

end Balanced

variable [DecidableEq T] {turns : List (Turn T Call Choice)} {outs : List Unit}
  {s : Pool (Memory T) T Prim Prim.Answer Exception}

/-- The threads between their wait and their pop are those that are about to lock the queue's mutex,
    or have it and are about to pop. -/
theorem popping_running (h : (threads T).run turns = some (outs, s)) {c : Client} {t : T}
    (ht : t ∈ (s.shared.queues c).popping) :
    ∃ a k, s.running t = some (.act a k) ∧
      (a = .lock (.queue c) ∨ a = .pop c ∧ s.shared.owner (.queue c) = some t) := by
  obtain ⟨g, hsound, hstage⟩ := run_sound h
  have hdue := ((hsound.queues c).popping t).mp ht
  obtain ⟨a, k, hrun⟩ := (hstage t).busy fun hidle => by rw [hidle] at hdue; cases hdue
  refine ⟨a, k, hrun, ?_⟩
  have hallowed : Allowed (g t) a := (hstage t).allows hrun
  rw [hsound.owner]
  rcases hgt : g t with ⟨guarded, errand⟩
  rw [hgt] at hallowed hdue
  cases errand <;> simp only [Errand.toPop, Option.some.injEq, reduceCtorEq] at hdue <;> subst hdue
  · -- fetching
    rcases a with (_ | _) | (_ | _) | _ | _ | _ | _ | _ | _ | _ <;> simp_all [Allowed]
  · -- popping
    rcases a with (_ | _) | (_ | _) | _ | _ | _ | _ | _ | _ | _ <;>
      simp_all [Allowed, Phase.Holds, Errand.holds]

/-! ### What a `dequeue` returns -/

/-- What a call has got out of a queue: whether its wait has succeeded, and what it has popped. -/
structure Catch where
  waited : Bool := false
  popped : List Message := []

def fetching : Protocol Prim Prim.Answer Catch where
  allows _ _ := True
  answers _ _ _ := True
  next g
    | .wait _, r => { g with waited := r }
    | .pop _, msg => { g with popped := g.popped ++ [msg] }
    | _, _ => g

/-- It returns the message that it has popped, and the empty pointer if its wait has failed. -/
theorem dequeue_fetches (c : Client) : Keeps fetching
    (fun r g => ∃ found, r = .ok found ∧ g.waited = found.isSome ∧ g.popped = found.toList)
    (dequeue c) {} := by
  refine ⟨trivial, ?_⟩
  rintro (_ | _) -
  · exact ⟨none, rfl, rfl, rfl⟩
  · -- lock, pop, unlock
    refine ⟨trivial, fun _ _ => ⟨trivial, fun msg _ => ⟨trivial, fun _ _ => ?_⟩⟩⟩
    exact ⟨some msg, rfl, rfl, rfl⟩

/-! ### Exactness -/

/-- What is promised of the queue of a client: the semaphore and the threads between wait and pop are
    as many as the posts less the pops, and no more than the messages in the deque; who is about to
    pop finds a message; what was popped is a beginning of what was pushed; and when no call is in
    progress the semaphore counts the messages. -/
structure Exact (s : Pool (Memory T) T Prim Prim.Answer Exception) (q : MessageQueue T) (c : Client) :
    Prop where
  counted : q.avail + q.popping.card = q.posts - q.popped.length
  popped_le : q.popped.length ≤ q.posts
  enough : q.avail + q.popping.card ≤ q.queue.length
  finds : ∀ t k, s.running t = some (.act (.pop c) k) → q.queue ≠ []
  order : q.popped <+: q.pushed
  settled : (∀ t, s.running t = none) → q.avail = q.queue.length

/-- QUEUE: this holds of every queue in every state of every run. -/
theorem message_queue_exact (h : (threads T).run turns = some (outs, s)) (c : Client) :
    Exact s (s.shared.queues c) c := by
  obtain ⟨g, hsound, hstage⟩ := run_sound h
  have hbal := hsound.queues c
  refine ⟨?_, hbal.popped_le, hbal.enough, fun t k hrun => ?_, ⟨_, hbal.order.symm⟩, fun hidle => ?_⟩
  · have hposts := hbal.posts
    omega
  · have hg : (g t).errand = .popping c := (hstage t).allows hrun
    exact hbal.queue_ne_nil (by rw [hg]; rfl)
  · exact hbal.settled fun t => (hstage t).ended fun a k => by rw [hidle t]; exact nofun

/-- One thread has put a heartbeat in the queue and another has waited for it, but not popped it yet. -/
theorem message_queue_exact_two : ∃ outs s,
    (threads ℕ).run [.start 0 (.enqueue 7 (.ofType .dispHeartbeat)), .start 1 (.dequeue 7),
      .act 0 {}, .act 0 {}, .act 0 {}, .act 0 {}, .act 1 {}] = some (outs, s) ∧
    (s.shared.queues 7).popping = {1} ∧ Exact s (s.shared.queues 7) 7 := by
  have hrun : ∃ outs s,
      (threads ℕ).run [.start 0 (.enqueue 7 (.ofType .dispHeartbeat)), .start 1 (.dequeue 7),
        .act 0 {}, .act 0 {}, .act 0 {}, .act 0 {}, .act 1 {}] = some (outs, s) ∧
      (s.shared.queues 7).popping = {1} := ⟨_, _, rfl, rfl⟩
  obtain ⟨outs, s, hrun, hpopping⟩ := hrun
  exact ⟨outs, s, hrun, hpopping, message_queue_exact hrun 7⟩

end Restaurant.Threads
