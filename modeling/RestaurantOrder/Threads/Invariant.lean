import RestaurantOrder.Threads.Discipline

/-! What holds in every state of every run of the threads.

    The owners of the mutexes are those whose phase says so. And the books of each queue balance:

        pushed   = popped ++ queue
        pushes   = posts + threads between push and post
        posts    = pops + semaphore + threads between wait and pop

    `Sound.perform` is the step lemma, for each action that the discipline allows, and `run_sound` is
    the invariant over runs. -/

namespace Restaurant.Threads
open Schemes Process

variable {T : Type}

/-- The books of the queue of a client. -/
structure Balanced (c : Client) (q : MessageQueue T) (g : T → Phase) : Prop where
  posting : ∀ t, t ∈ q.posting ↔ (g t).errand.toPost = some c
  popping : ∀ t, t ∈ q.popping ↔ (g t).errand.toPop = some c
  order : q.pushed = q.popped ++ q.queue
  pushes : q.pushed.length = q.posts + q.posting.card
  posts : q.posts = q.popped.length + q.avail + q.popping.card

structure Sound (m : Memory T) (g : T → Phase) : Prop where
  owner : ∀ l t, m.owner l = some t ↔ (g t).Holds l
  queues : ∀ c, Balanced c (m.queues c) g

theorem sound_init : Sound (T := T) {} fun _ => {} where
  owner l t := by cases l <;> simp [Phase.Holds, Errand.holds]
  queues c := by constructor <;> simp [Errand.toPost, Errand.toPop]

/-! ### One thread moves -/

section Moves
variable [DecidableEq T] {m : Memory T} {g : T → Phase} {t : T} {p : Phase} {c : Client} {q : MessageQueue T}

/-- A set of the threads whose errand is about `c`, when one thread moves. -/
theorem mem_moved {f : Errand → Option Client} {S S' : Finset T}
    (h : ∀ t', t' ∈ S ↔ f (g t').errand = some c) (ht : t ∈ S' ↔ f p.errand = some c)
    (hne : ∀ t', t' ≠ t → (t' ∈ S' ↔ t' ∈ S)) :
    ∀ t', t' ∈ S' ↔ f (Function.update g t p t').errand = some c := by
  intro t'
  by_cases he : t' = t
  · subst he
    rw [Function.update_self]
    exact ht
  · rw [Function.update_of_ne he, hne t' he]
    exact h t'

/-- The books of a queue do not change if the thread neither posts nor pops there before or after. -/
theorem Balanced.still (h : Balanced c q g)
    (hpost : p.errand.toPost = some c ↔ (g t).errand.toPost = some c)
    (hpop : p.errand.toPop = some c ↔ (g t).errand.toPop = some c) :
    Balanced c q (Function.update g t p) where
  posting := mem_moved h.posting ((h.posting t).trans hpost.symm) fun _ _ => Iff.rfl
  popping := mem_moved h.popping ((h.popping t).trans hpop.symm) fun _ _ => Iff.rfl
  order := h.order
  pushes := h.pushes
  posts := h.posts

theorem Balanced.push (h : Balanced c q g) (hg : (g t).errand = .pushing c)
    (hp : p.errand = .pushed c) (msg : Message) :
    Balanced c (q.push t msg) (Function.update g t p) where
  posting := mem_moved h.posting (by simp [MessageQueue.push, hp, Errand.toPost])
    fun t' hne => by simp [MessageQueue.push, hne]
  popping := mem_moved h.popping (by simp [h.popping, hg, hp, MessageQueue.push, Errand.toPop])
    fun _ _ => Iff.rfl
  order := by simp [MessageQueue.push, h.order]
  pushes := by
    have hnew : t ∉ q.posting := by simp [h.posting, hg, Errand.toPost]
    have hlen := h.pushes
    simp only [MessageQueue.push, List.length_append, List.length_singleton,
      Finset.card_insert_of_notMem hnew]
    omega
  posts := h.posts

theorem Balanced.post (h : Balanced c q g) (hg : (g t).errand = .posting c)
    (hp : p.errand = .none) : Balanced c (q.post t) (Function.update g t p) where
  posting := mem_moved h.posting (by simp [MessageQueue.post, hp, Errand.toPost])
    fun t' hne => by simp [MessageQueue.post, hne]
  popping := mem_moved h.popping (by simp [h.popping, hg, hp, MessageQueue.post, Errand.toPop])
    fun _ _ => Iff.rfl
  order := h.order
  pushes := by
    have hold : t ∈ q.posting := by simp [h.posting, hg, Errand.toPost]
    have hcard := Finset.card_erase_add_one hold
    have hlen := h.pushes
    simp only [MessageQueue.post]
    omega
  posts := by
    have hposts := h.posts
    simp only [MessageQueue.post]
    omega

theorem Balanced.wait (h : Balanced c q g) (hg : (g t).errand = .none)
    (hp : p.errand = .fetching c) {n : ℕ} (havail : q.avail = n + 1) :
    Balanced c { q with avail := n, popping := insert t q.popping } (Function.update g t p) where
  posting := mem_moved h.posting (by simp [h.posting, hg, hp, Errand.toPost]) fun _ _ => Iff.rfl
  popping := mem_moved h.popping (by simp [hp, Errand.toPop]) fun t' hne => by simp [hne]
  order := h.order
  pushes := h.pushes
  posts := by
    have hnew : t ∉ q.popping := by simp [h.popping, hg, Errand.toPop]
    have hposts := h.posts
    simp only [Finset.card_insert_of_notMem hnew]
    omega

theorem Balanced.pop (h : Balanced c q g) (hg : (g t).errand = .popping c)
    (hp : p.errand = .popped c) {msg : Message} {rest : List Message} (hqueue : q.queue = msg :: rest) :
    Balanced c { q with
      queue := rest
      popped := q.popped ++ [msg]
      popping := q.popping.erase t } (Function.update g t p) where
  posting := mem_moved h.posting (by simp [h.posting, hg, hp, Errand.toPost]) fun _ _ => Iff.rfl
  popping := mem_moved h.popping (by simp [hp, Errand.toPop]) fun t' hne => by simp [hne]
  order := by simp [h.order, hqueue]
  pushes := h.pushes
  posts := by
    have hold : t ∈ q.popping := by simp [h.popping, hg, Errand.toPop]
    have hcard := Finset.card_erase_add_one hold
    have hposts := h.posts
    simp only [List.length_append, List.length_singleton]
    omega

/-- The owners do not change. -/
theorem owner_still (h : ∀ l t', m.owner l = some t' ↔ (g t').Holds l)
    (hp : ∀ l, p.Holds l ↔ (g t).Holds l) :
    ∀ l t', m.owner l = some t' ↔ (Function.update g t p t').Holds l := by
  intro l t'
  by_cases he : t' = t
  · subst he
    rw [Function.update_self, h, hp]
  · rw [Function.update_of_ne he, h]

theorem owner_lock {l : Mutex} (h : ∀ l t', m.owner l = some t' ↔ (g t').Holds l)
    (hfree : m.owner l = none) (hp : ∀ l', p.Holds l' ↔ l' = l ∨ (g t).Holds l') :
    ∀ l' t', (m.setOwner l (some t)).owner l' = some t' ↔ (Function.update g t p t').Holds l' := by
  intro l' t'
  simp only [Memory.setOwner, Function.update_apply]
  by_cases hl : l' = l <;> by_cases he : t' = t
  · simp [hl, he, hp]
  · simp only [hl, if_pos, if_neg he, ← h, hfree]
    simp [Ne.symm he]
  · simp [hl, he, hp, h]
  · simp [hl, he, h]

theorem owner_unlock {l : Mutex} (h : ∀ l t', m.owner l = some t' ↔ (g t').Holds l)
    (hmine : m.owner l = some t) (hp : ∀ l', p.Holds l' ↔ l' ≠ l ∧ (g t).Holds l') :
    ∀ l' t', (m.setOwner l none).owner l' = some t' ↔ (Function.update g t p t').Holds l' := by
  intro l' t'
  simp only [Memory.setOwner, Function.update_apply]
  by_cases hl : l' = l <;> by_cases he : t' = t
  · simp [hl, he, hp]
  · simp only [hl, if_pos, if_neg he, ← h, hmine]
    simp [Ne.symm he]
  · simp [hl, he, hp, h]
  · simp [hl, he, h]

/-- Something happens in the queue that the thread is at work on. -/
theorem Sound.setQueue (h : Sound m g) (hq : Balanced c q (Function.update g t p))
    (hg : (g t).errand.On c) (hp : p.errand.On c) (hholds : ∀ l, p.Holds l ↔ (g t).Holds l) :
    Sound (m.setQueue c q) (Function.update g t p) where
  owner := owner_still h.owner hholds
  queues c' := by
    by_cases hc : c' = c
    · subst hc
      simpa [Memory.setQueue] using hq
    · simp only [Memory.setQueue, Function.update_of_ne hc]
      exact (h.queues c').still (iff_of_false (hp.toPost_ne hc) (hg.toPost_ne hc))
        (iff_of_false (hp.toPop_ne hc) (hg.toPop_ne hc))

/-- A mutex is locked or unlocked. -/
theorem Sound.setOwner {l : Mutex} {t' : Option T} (h : Sound m g)
    (howner : ∀ l' t'', (m.setOwner l t').owner l' = some t'' ↔
      (Function.update g t p t'').Holds l')
    (hpost : p.errand.toPost = (g t).errand.toPost) (hpop : p.errand.toPop = (g t).errand.toPop) :
    Sound (m.setOwner l t') (Function.update g t p) where
  owner := howner
  queues c' := (h.queues c').still (by rw [hpost]) (by rw [hpop])

/-! ### The step -/

/-- Nothing is shared by what the thread alone knows. -/
theorem Sound.stays (h : Sound m g) : Sound m (Function.update g t (g t)) := by
  rwa [Function.update_eq_self]

theorem Sound.lock (h : Sound m g) {l : Mutex} (hallowed : Allowed (g t) (.lock l))
    (hfree : m.owner l = none) :
    Sound (m.setOwner l (some t)) (Function.update g t (after (g t) (.lock l) ())) := by
  rcases hgt : g t with ⟨guarded, errand⟩
  rw [hgt] at hallowed
  cases l with
  | server =>
    obtain ⟨rfl, rfl⟩ := hallowed
    refine h.setOwner (owner_lock h.owner hfree fun l' => ?_) (by rw [hgt]; rfl) (by rw [hgt]; rfl)
    cases l' <;> simp [after, hgt, Phase.Holds]
  | queue c =>
    obtain ⟨hlocked, hnone, hpost, hpop⟩ : (errand.lock c).holds = some c ∧ errand.holds = none ∧
        (errand.lock c).toPost = errand.toPost ∧ (errand.lock c).toPop = errand.toPop := by
      rcases hallowed with rfl | ⟨rfl, rfl⟩ <;> exact ⟨rfl, rfl, rfl, rfl⟩
    refine h.setOwner (owner_lock h.owner hfree fun l' => ?_) (by rw [hgt]; exact hpost)
      (by rw [hgt]; exact hpop)
    cases l' <;> simp [after, hgt, Phase.Holds, hlocked, hnone, eq_comm]

theorem Sound.unlock (h : Sound m g) {l : Mutex} (hallowed : Allowed (g t) (.unlock l))
    (hmine : m.owner l = some t) :
    Sound (m.setOwner l none) (Function.update g t (after (g t) (.unlock l) ())) := by
  rcases hgt : g t with ⟨guarded, errand⟩
  rw [hgt] at hallowed
  cases l with
  | server =>
    obtain ⟨rfl, rfl⟩ := hallowed
    refine h.setOwner (owner_unlock h.owner hmine fun l' => ?_) (by rw [hgt]; rfl)
      (by rw [hgt]; rfl)
    cases l' <;> simp [after, hgt, Phase.Holds, Errand.holds]
  | queue c =>
    obtain ⟨hunlocked, hheld, hpost, hpop⟩ : (errand.unlock c).holds = none ∧
        errand.holds = some c ∧ (errand.unlock c).toPost = errand.toPost ∧
        (errand.unlock c).toPop = errand.toPop := by
      rcases hallowed with rfl | rfl <;> exact ⟨rfl, rfl, rfl, rfl⟩
    refine h.setOwner (owner_unlock h.owner hmine fun l' => ?_) (by rw [hgt]; exact hpost)
      (by rw [hgt]; exact hpop)
    cases l' <;> simp [after, hgt, Phase.Holds, hunlocked, hheld, eq_comm]

/-- STEP: an action that the discipline allows keeps the owners and the books right. -/
theorem Sound.perform (h : Sound m g) {choice : Choice} {a : Prim} {r : a.Answer} {m' : Memory T}
    (hallowed : Allowed (g t) a) (hperform : m.perform choice t a = some (r, m')) :
    Sound m' (Function.update g t (after (g t) a r)) := by
  cases a with
  | lock l =>
    obtain ⟨hfree, rfl⟩ := perform_lock hperform
    exact h.lock hallowed hfree
  | unlock l =>
    obtain ⟨hmine, rfl⟩ := perform_unlock hperform
    exact h.unlock hallowed hmine
  | read =>
    obtain ⟨rfl, rfl⟩ := Prod.mk.inj (Option.some.inj hperform)
    exact h.stays
  | write server =>
    obtain ⟨rfl, rfl⟩ := Prod.mk.inj (Option.some.inj hperform)
    exact ⟨h.stays.owner, h.stays.queues⟩
  | iterate clients =>
    obtain ⟨-, rfl⟩ := perform_iterate hperform
    exact h.stays
  | push c msg =>
    obtain ⟨rfl, rfl⟩ := Prod.mk.inj (Option.some.inj hperform)
    have hg : (g t).errand = .pushing c := hallowed
    refine h.setQueue ((h.queues c).push hg rfl msg) (by rw [hg]; rfl) rfl fun l => ?_
    cases l <;> simp [after, hg, Phase.Holds, Errand.holds]
  | post c =>
    obtain ⟨rfl, rfl⟩ := Prod.mk.inj (Option.some.inj hperform)
    have hg : (g t).errand = .posting c := hallowed
    refine h.setQueue ((h.queues c).post hg rfl) (by rw [hg]; rfl) trivial fun l => ?_
    cases l <;> simp [after, hg, Phase.Holds, Errand.holds]
  | wait c =>
    obtain ⟨rfl, rfl⟩ | ⟨rfl, n, havail, rfl⟩ := perform_wait hperform
    · exact h.stays
    · have hg : (g t).errand = .none := hallowed.2
      refine h.setQueue ((h.queues c).wait hg rfl havail) (by rw [hg]; trivial) rfl fun l => ?_
      cases l <;> simp [after, hg, Phase.Holds, Errand.holds]
  | pop c =>
    obtain ⟨rest, hqueue, rfl⟩ := perform_pop hperform
    have hg : (g t).errand = .popping c := hallowed
    refine h.setQueue ((h.queues c).pop hg rfl hqueue) (by rw [hg]; rfl) rfl fun l => ?_
    cases l <;> simp [after, hg, Phase.Holds, Errand.holds]

/-- RUN: in every state of every run each thread is in a phase such that the owners and the books are
    right, and what the thread is about to do is allowed in its phase. -/
theorem run_sound {turns : List (Turn T Call Choice)} {outs : List Unit}
    {s : Pool (Memory T) T Prim Prim.Answer Exception} (h : (threads T).run turns = some (outs, s)) :
    ∃ g : T → Phase, Sound s.shared g ∧ ∀ t, Stage discipline {} (s.running t) (g t) := by
  refine pool_inv sound_init body_returns ?_ h
  exact fun m g t choice a r m' hm hallowed hperform => ⟨trivial, hm.perform hallowed hperform⟩

end Moves

end Restaurant.Threads
