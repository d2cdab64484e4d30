import RestaurantOrder.Threads.Effects
import RestaurantOrder.Threads.Invariant

/-! The operations take effect one after the other.

    The server model lets an operation happen in one step. Here this is a theorem: whatever the threads
    do in between, whenever the server's mutex is free, the shared server and all that was ever pushed
    are what the operations that have given it back lead to, one at a time (`operations_atomic`).

        thread 1   lock ──▶ read ──▶ write ──▶ push ──▶ unlock
        thread 2       wait ──▶ lock queue ──▶ pop          lock ──▶ ...
        server     S ──────────────── operation ───────▶ S' ──▶ ... -/

namespace Restaurant.Threads
open Schemes Process

variable {T : Type}

/-- What `dequeue` does leaves the server and all that was pushed alone. -/
def aside : Protocol Prim Prim.Answer Unit where
  allows _
    | .wait _ | .lock (.queue _) | .pop _ | .unlock (.queue _) => True
    | _ => False
  answers _ _ _ := True
  next _ _ _ := ()

theorem dequeue_aside (c : Client) :
    Keeps aside (fun r _ => r = .ok ()) (Call.body (.dequeue c)) () := by
  refine ⟨trivial, ?_⟩
  rintro (_ | _) -
  · exact rfl
  · exact ⟨trivial, fun _ _ => ⟨trivial, fun _ _ => ⟨trivial, fun _ _ => rfl⟩⟩⟩

/-- Where a thread is in a call, when the operations so far have led to `s`: `P` holds of the
    operations that were called, and `E` of the exceptions that were thrown. -/
inductive Role (P : Op → Prop) (E : Exception → Prop) (m : Memory T) (s : Server) (t : T) :
    Option (Prog Unit) → Prop
  | idle : Role P E m s t none
  | finished {r : Cpp Unit} (hr : ∀ e, r = raise e → E e) : Role P E m s t (some (done r))
  | dequeuing {p : Prog Unit} (hp : Keeps aside (fun r _ => r = .ok ()) p ()) :
    Role P E m s t (some p)
  | starting {op : Op} {k : Unit → Prog Unit} (hop : P op)
    (hk : ∀ s, Keeps inside (Committed op s) (k ()) ⟨s, false⟩) :
    Role P E m s t (some (act (.lock .server) k))
  | working {op : Op} {p : Prog Unit} (hop : P op) (howner : m.owner .server = some t)
    (hp : Keeps inside (Committed op s) p ⟨m.view, false⟩) : Role P E m s t (some p)

/-- The role of a thread that does nothing, while another one moves. -/
theorem Role.frame {P P' : Op → Prop} {E E' : Exception → Prop} {m m' : Memory T} {s s' : Server}
    {t : T} {p : Option (Prog Unit)} (h : Role P E m s t p) (hP : ∀ op, P op → P' op)
    (hE : ∀ e, E e → E' e)
    (hm : m.owner .server = some t → m'.owner .server = some t ∧ m'.view = m.view ∧ s' = s) :
    Role P' E' m' s' t p := by
  cases h with
  | idle => exact .idle
  | finished hr => exact .finished fun e he => hE e (hr e he)
  | dequeuing hp => exact .dequeuing hp
  | starting hop hk => exact .starting (hP _ hop) hk
  | working hop howner hp =>
    obtain ⟨howner', hview, rfl⟩ := hm howner
    exact .working (hP _ hop) howner' (hview ▸ hp)

section Steps
variable {m m' : Memory T}

theorem view_setQueue {c : Client} {q : MessageQueue T} (h : q.pushed = (m.queues c).pushed) :
    (m.setQueue c q).view = m.view := by
  simp only [Memory.view, Memory.setQueue, Server.mk.injEq, true_and]
  funext c'
  by_cases hc : c' = c
  · subst hc
    simpa using h
  · simp [hc]

variable [DecidableEq T] {choice : Choice} {t : T} {a : Prim} {r : a.Answer}

theorem perform_aside (hallowed : aside.allows () a) (h : m.perform choice t a = some (r, m')) :
    m'.view = m.view ∧ m'.owner .server = m.owner .server := by
  cases a with
  | lock l =>
    obtain ⟨-, rfl⟩ := perform_lock h
    cases l with
    | server => exact hallowed.elim
    | queue c => exact ⟨rfl, rfl⟩
  | unlock l =>
    obtain ⟨-, rfl⟩ := perform_unlock h
    cases l with
    | server => exact hallowed.elim
    | queue c => exact ⟨rfl, rfl⟩
  | wait c =>
    obtain ⟨-, rfl⟩ | ⟨-, n, -, rfl⟩ := perform_wait h
    · exact ⟨rfl, rfl⟩
    · exact ⟨view_setQueue rfl, rfl⟩
  | pop c =>
    obtain ⟨rest, -, rfl⟩ := perform_pop h
    exact ⟨view_setQueue rfl, rfl⟩
  | _ => exact hallowed.elim

/-- What the owner of the server's mutex does comes out as it sees it, and the others see it when the
    mutex is free again. -/
theorem perform_inside (hallowed : inside.allows ⟨m.view, false⟩ a)
    (h : m.perform choice t a = some (r, m')) :
    inside.answers ⟨m.view, false⟩ a r ∧ (inside.next ⟨m.view, false⟩ a r).server = m'.view ∧
    (((inside.next ⟨m.view, false⟩ a r).left = false ∧ m'.owner .server = m.owner .server) ∨
      ((inside.next ⟨m.view, false⟩ a r).left = true ∧ m'.owner .server = none)) := by
  cases a with
  | lock l =>
    obtain ⟨-, rfl⟩ := perform_lock h
    cases l with
    | server => exact hallowed.elim
    | queue c => exact ⟨trivial, rfl, Or.inl ⟨rfl, rfl⟩⟩
  | unlock l =>
    obtain ⟨-, rfl⟩ := perform_unlock h
    cases l with
    | server => exact ⟨trivial, rfl, Or.inr ⟨rfl, rfl⟩⟩
    | queue c => exact ⟨trivial, rfl, Or.inl ⟨rfl, rfl⟩⟩
  | read =>
    obtain ⟨rfl, rfl⟩ := Prod.mk.inj (Option.some.inj h)
    exact ⟨rfl, rfl, Or.inl ⟨rfl, rfl⟩⟩
  | write server =>
    obtain ⟨rfl, rfl⟩ := Prod.mk.inj (Option.some.inj h)
    exact ⟨trivial, rfl, Or.inl ⟨rfl, rfl⟩⟩
  | iterate clients =>
    obtain ⟨horder, rfl⟩ := perform_iterate h
    exact ⟨horder, rfl, Or.inl ⟨rfl, rfl⟩⟩
  | push c msg =>
    obtain ⟨rfl, rfl⟩ := Prod.mk.inj (Option.some.inj h)
    refine ⟨trivial, ?_, Or.inl ⟨rfl, rfl⟩⟩
    simp only [inside, Server.enqueue, Memory.view, Memory.setQueue, Server.mk.injEq, true_and]
    funext c'
    by_cases hc : c' = c
    · subst hc
      simp [MessageQueue.push]
    · simp [hc]
  | post c =>
    obtain ⟨rfl, rfl⟩ := Prod.mk.inj (Option.some.inj h)
    exact ⟨trivial, (view_setQueue (q := (m.queues c).post t) rfl).symm, Or.inl ⟨rfl, rfl⟩⟩
  | wait c => exact hallowed.elim
  | pop c => exact hallowed.elim

end Steps

/-! ### Runs -/

/-- Past the mutex nothing is left to do. -/
theorem inside_left {Q : Cpp Unit → Span → Prop} {p : Prog Unit} {s : Server}
    (h : Keeps inside Q p ⟨s, true⟩) (hwhole : Whole p) : ∃ r, p = done r ∧ Q r ⟨s, true⟩ := by
  cases p with
  | done r => exact ⟨r, rfl, h⟩
  | more => exact hwhole.elim
  | act a k => rcases a with (_ | _) | _ | _ | _ | _ | _ | _ | _ | _ <;> cases h.1

def Called (turns : List (Turn T Call Choice)) (op : Op) : Prop :=
  ∃ t, Turn.start t (.server op) ∈ turns

/-- The operations of `trace` have led to `state`. -/
structure Led (turns : List (Turn T Call Choice)) (s : Pool (Memory T) T Prim Prim.Answer Exception)
    (trace : List (Op × Out)) (state : Server) : Prop where
  run : Server.machine.run (trace.map Prod.fst) = some (trace.map Prod.snd, state)
  called : ∀ op ∈ trace.map Prod.fst, Called turns op
  view : s.shared.owner .server = none → s.shared.view = state
  roles : ∀ t, Role (Called turns) (fun e => ∃ op, (op, .error e) ∈ trace) s.shared state t
    (s.running t)

theorem Called.snoc {turns : List (Turn T Call Choice)} {op : Op} {turn : Turn T Call Choice}
    (h : Called turns op) : Called (turns ++ [turn]) op := by
  obtain ⟨t, ht⟩ := h
  exact ⟨t, List.mem_append_left _ ht⟩

section Runs
variable [DecidableEq T] {turns : List (Turn T Call Choice)} {outs : List Unit}
  {s : Pool (Memory T) T Prim Prim.Answer Exception} {trace : List (Op × Out)} {state : Server}

/-- A thread moves, and the operations so far stay the same. -/
theorem Led.move (h : Led turns s trace state) {t : T} {p : Option (Prog Unit)} {m : Memory T}
    {turn : Turn T Call Choice} (hview : m.owner .server = none → m.view = state)
    (hmove : ∀ t', t' ≠ t → s.shared.owner .server = some t' →
      m.owner .server = some t' ∧ m.view = s.shared.view)
    (ht : Role (Called (turns ++ [turn])) (fun e => ∃ op, (op, .error e) ∈ trace) m state t p) :
    Led (turns ++ [turn]) ({ s with shared := m }.put t p) trace state where
  run := h.run
  called op hop := (h.called op hop).snoc
  view := hview
  roles := forall_put (s := { s with shared := m }) (Q := fun t' p =>
      Role (Called (turns ++ [turn])) (fun e => ∃ op, (op, .error e) ∈ trace) m state t' p) ht
    fun t' ht' => (h.roles t').frame (fun _ hop => hop.snoc) (fun _ he => he) fun howner =>
      ⟨(hmove t' ht' howner).1, (hmove t' ht' howner).2, rfl⟩

/-- The thread with the server's mutex gives it back, and its operation is done. -/
theorem Led.commit (h : Led turns s trace state) (turn : Turn T Call Choice) {t : T} {r : Cpp Unit}
    {m : Memory T} {op : Op} (hop : Called turns op)
    (howner : s.shared.owner .server = some t) (hdef : r ≠ .error .undefined)
    (hcommitted : Committed op state r ⟨m.view, true⟩) :
    ∃ out, Led (turns ++ [turn]) ({ s with shared := m }.put t (some (done r)))
      (trace ++ [(op, out)]) m.view := by
  obtain ⟨-, out, hstep, hthrown⟩ := hcommitted hdef
  refine ⟨out, ?_, ?_, fun _ => rfl, ?_⟩
  · rw [List.map_append, List.map_append]
    exact Machine.run_snoc.mpr ⟨_, _, _, h.run, hstep, rfl⟩
  · intro op' hop'
    rw [List.map_append, List.mem_append] at hop'
    rcases hop' with hop' | hop'
    · exact (h.called op' hop').snoc
    · obtain rfl : op' = op := by simpa using hop'
      exact hop.snoc
  · refine forall_put (s := { s with shared := m }) (Q := fun t' p =>
      Role (Called (turns ++ [turn])) (fun e => ∃ op', (op', .error e) ∈ trace ++ [(op, out)]) m m.view
        t' p) (.finished fun e he => ⟨op, ?_⟩) fun t' ht' => ?_
    · rw [hthrown e he]
      exact List.mem_append_right _ (List.mem_singleton_self _)
    · refine (h.roles t').frame (fun _ hop => hop.snoc) ?_ fun howner' => ?_
      · rintro e ⟨op', hop'⟩
        exact ⟨op', List.mem_append_left _ hop'⟩
      · exact absurd (Option.some.inj (howner'.symm.trans howner)) ht'

/-- An action of a thread. -/
theorem Led.act (h : Led turns s trace state) (hrun : (threads T).run turns = some (outs, s)) {t : T}
    {choice : Choice} {s' : Pool (Memory T) T Prim Prim.Answer Exception} {o : Unit}
    (hstep : (threads T).step s (.act t choice) = some (o, s')) :
    ∃ trace' state', Led (turns ++ [.act t choice]) s' trace' state' := by
  obtain ⟨a, k, r, m, ht, hperform, hdef, rfl⟩ := step_act hstep
  have hrole := h.roles t
  rw [ht] at hrole
  rcases hrole with _ | _ | ⟨hallowed, hrest⟩ | ⟨hop, hk⟩ | ⟨hop, howner, hallowed, hrest⟩
  · -- dequeuing
    obtain ⟨hview, howner⟩ := perform_aside hallowed hperform
    refine ⟨trace, state, h.move ?_ ?_ (.dequeuing (hrest r trivial))⟩
    · rw [howner, hview]
      exact h.view
    · intro t' _ howner'
      exact ⟨howner.trans howner', hview⟩
  · -- starting: the operation begins on the state that all before have led to
    obtain ⟨hfree, rfl⟩ := perform_lock hperform
    refine ⟨trace, state, h.move ?_ ?_ (.working hop.snoc ?_ ?_)⟩
    · intro howner
      simp [Memory.setOwner] at howner
    · intro t' _ howner
      cases hfree.symm.trans howner
    · simp [Memory.setOwner]
    · have hview : (s.shared.setOwner .server (some t)).view = state := h.view hfree
      rw [hview]
      exact hk state
  · -- working
    obtain ⟨hanswers, hserver, hleft⟩ := perform_inside hallowed hperform
    have hk := hrest r hanswers
    rcases hleft with ⟨hleft, howner'⟩ | ⟨hleft, -⟩
    · have hspan : inside.next ⟨s.shared.view, false⟩ a r = ⟨m.view, false⟩ :=
        Span.ext hserver hleft
      rw [hspan] at hk
      refine ⟨trace, state, h.move ?_ ?_ (.working hop.snoc (howner'.trans howner) hk)⟩
      · intro hfree
        cases hfree.symm.trans (howner'.trans howner)
      · intro t' ht' howner''
        exact absurd (Option.some.inj (howner''.symm.trans howner)) ht'
    · have hspan : inside.next ⟨s.shared.view, false⟩ a r = ⟨m.view, true⟩ :=
        Span.ext hserver hleft
      rw [hspan] at hk
      obtain ⟨g, -, hstage⟩ := run_sound hrun
      obtain ⟨result, hdone, hcommitted⟩ := inside_left hk ((hstage t).whole ht r)
      rw [hdone] at hdef ⊢
      obtain ⟨out, hled⟩ := h.commit (.act t choice) hop howner
        (fun hr => hdef (congrArg done hr)) hcommitted
      exact ⟨_, _, hled⟩

/-- ATOMIC: in every run in which messages are put in queues by operations alone, the operations that
    have given the server's mutex back have led from the start, one after the other, to what is seen
    whenever the mutex is free; and a call throws only what its operation has thrown there. -/
theorem operations_atomic (h : (threads T).run turns = some (outs, s))
    (hqueues : ∀ t c msg, Turn.start t (.enqueue c msg) ∉ turns) : ∃ trace : List (Op × Out), ∃ state,
    Server.machine.run (trace.map Prod.fst) = some (trace.map Prod.snd, state) ∧
    (∀ op ∈ trace.map Prod.fst, Called turns op) ∧
    (s.shared.owner .server = none → s.shared.view = state) ∧
    ∀ t e, s.running t = some (.done (raise e)) → ∃ op, (op, .error e) ∈ trace := by
  have hled : (∀ t c msg, Turn.start t (.enqueue c msg) ∉ turns) →
      ∃ trace state, Led turns s trace state := by
    refine Machine.runFrom_induct (P := fun turns _ s =>
      (∀ t c msg, Turn.start t (.enqueue c msg) ∉ turns) →
        ∃ trace state, Led turns s trace state) ?_ ?_ h
    · exact fun _ => ⟨[], {}, rfl, by simp, fun _ => rfl, fun _ => .idle⟩
    · rintro turns outs s turn o s' hrun ih hstep hqueues
      obtain ⟨trace, state, hled⟩ := ih fun t c msg hmem => hqueues t c msg (List.mem_append_left _ hmem)
      cases turn with
      | start t call =>
        obtain ⟨-, -, rfl⟩ := step_start hstep
        refine ⟨trace, state, hled.move hled.view (fun _ _ howner => ⟨howner, rfl⟩) ?_⟩
        cases call with
        | enqueue c msg =>
          exact absurd (List.mem_append_right _ (List.mem_singleton_self _)) (hqueues t c msg)
        | dequeue c => exact .dequeuing (dequeue_aside c)
        | server op =>
          obtain ⟨k, hbody, hk⟩ := body_op op
          rw [hbody]
          exact .starting ⟨t, List.mem_append_right _ (List.mem_singleton_self _)⟩ hk
      | act t choice => exact hled.act hrun hstep
      | finish t =>
        obtain ⟨-, rfl⟩ := step_finish hstep
        exact ⟨trace, state, hled.move hled.view (fun _ _ howner => ⟨howner, rfl⟩) .idle⟩
  obtain ⟨trace, state, hled⟩ := hled hqueues
  refine ⟨trace, state, hled.run, hled.called, hled.view, fun t e hrun => ?_⟩
  have hrole := hled.roles t
  rw [hrun] at hrole
  rcases hrole with _ | hr | hr | _ | ⟨-, -, hcommitted⟩
  · exact hr e rfl
  · cases hr
  · exact nomatch (hcommitted nofun).1

end Runs

end Restaurant.Threads
