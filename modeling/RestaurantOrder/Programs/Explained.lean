import RestaurantOrder.Programs.Progress
import RestaurantOrder.Programs.World

/-! One log explains what all the programs print.

    Each program of the world stays coupled with its thread, whatever the others do (`run_explained`).
    The operations that the threads of the others call are all such that a display can follow them. So
    what every updater reports and what every display shows comes from one run of the server
    (`world_explained`), and this is a run on decoded orders (`world_server`).

        log       (1, place) (2, register) (3, update) (1, place) ..
        updater   reports what it did in the log
        display   shows the orders that the server had along the log -/

namespace Restaurant
open Schemes Process Program
open Wire (MessageText Decoded)
open Display (Apart AtRest screen tale)
open Updater (effect CarriesOut report)
open Session (Deed Exchange requestOf carried)

/-- A program is coupled with its thread. -/
def Lives (n : ℕ) (log : List Deed) (killed : Prop) (w : World) (c : Client) : Start → Prop
  | .updater .. => Updater.Coupled c n (w.seats c)
  | .display .. => Display.Coupled c n 0 log killed (w.talk c)

/-- The log is a run of the server, and everybody's part in it is what their thread has called. -/
structure Explained (n : ℕ) (starts : Client → Start) (all : List (Client × Move)) (log : List Entry)
    (w : World) : Prop where
  good : w.server.Good
  logged : Logged Server.machine {} (log.map Prod.snd) w.server
  decoded : ∀ e ∈ log, ∀ o, e.2.1 = .newOrder o → Decoded o
  parts : ∀ c, partOf c log = (w.seats c).past.filterMap carried
  lives : ∀ c, Lives n (log.map Prod.snd) (∃ code, (c, .kill code) ∈ all) w c (starts c)

/-! ### What the threads of others call -/

theorem request_decoded {msg : Message} {raw : Bytes} (htext : MessageText Spelled msg raw) {o : Order}
    (hop : requestOf msg = some (.newOrder o)) : Decoded o := by
  rw [requestOf] at hop
  split at hop
  · next htype =>
    obtain ⟨o', ho, hnew⟩ := Option.map_eq_some_iff.mp hop
    obtain rfl := Op.newOrder.inj hnew
    exact ⟨raw, {}, msg, Wire.decode_text htext {}, htype, ho⟩
  all_goals simp at hop

section
variable {n : ℕ} {log : List Deed} {killed : Prop} {w : World} {c c' : Client}

/-- It is a request that was read, or the registration of its own client. -/
theorem Lives.calls {start : Start} (h : Lives n log killed w c start) {op : Op}
    {f : Out → Session.Proc Unit} (hthread : (w.seats c).thread = some (act (Session.Act.call op) f)) :
    (∃ msg raw, MessageText Spelled msg raw ∧ requestOf msg = some op) ∨
      op = .registerDisplay c ∨ op = .unregisterDisplay c := by
  cases start with
  | updater argv stdin =>
    obtain ⟨-, hs, hlink⟩ := h
    rcases hlink with hunlinked | ⟨p, hp, -, hlinked⟩
    · cases hunlinked.thread.symm.trans hthread
    obtain rfl := Option.some.inj (hp.symm.trans hthread)
    rcases hlinked.course with hcourse | ⟨-, hdone⟩
    · cases Updater.course_next hcourse (hlinked.not_display hs) with
      | calling htext hop => exact Or.inl ⟨_, _, htext, hop⟩
    · cases hdone
  | display argv stdin =>
    obtain ⟨-, -, -, hlink⟩ := h
    rcases hlink with hunlinked | ⟨p, hp, -, hlinked⟩
    · cases hunlinked.thread.symm.trans hthread
    obtain rfl := Option.some.inj (hp.symm.trans hthread)
    rcases hlinked.feed with hfeed | ⟨-, hdone⟩
    · rcases hfeed.calls rfl with ⟨rfl, -⟩ | ⟨rfl, -⟩
      · exact Or.inr (Or.inl rfl)
      · exact Or.inr (Or.inr rfl)
    · cases hdone

theorem Lives.decoded {start : Start} (h : Lives n log killed w c start) {o : Order}
    {f : Out → Session.Proc Unit}
    (hthread : (w.seats c).thread = some (act (Session.Act.call (.newOrder o)) f)) : Decoded o := by
  rcases h.calls hthread with ⟨msg, raw, htext, hop⟩ | hop | hop
  · exact request_decoded htext hop
  · cases hop
  · cases hop

/-- So the others can follow it. -/
theorem Lives.apart {start : Start} (h : Lives n log killed w c start) {op : Op}
    {f : Out → Session.Proc Unit} (hthread : (w.seats c).thread = some (act (Session.Act.call op) f))
    (hne : c' ≠ c) : Apart c' op := by
  rcases h.calls hthread with ⟨msg, raw, htext, hop⟩ | rfl | rfl
  · obtain ⟨hreg, hunreg⟩ := Session.requestOf_ne hop
    exact ⟨fun o ho => request_decoded htext (ho ▸ hop), hreg c', hunreg c'⟩
  · exact ⟨by simp, by simp [hne.symm], by simp⟩
  · exact ⟨by simp, by simp, by simp [hne.symm]⟩

/-! ### Steps -/

/-- Its own move keeps a program coupled with its thread. -/
theorem Lives.own {start : Start} (h : Lives n log killed w c start) (hgood : w.server.Good)
    {move : Move} (hown : ∀ op, move ≠ .other op) (hkilled : ∀ code, move = .kill code → killed)
    {d : Dialogue} (hstep : (dialogue c n (w.talk c)).step (w.talk c) move = some ((), d)) :
    Lives n (log ++ (deedOf (w.seats c) d.seat).toList) killed (w.put c d) c start := by
  cases start with
  | updater argv stdin =>
    rw [Lives] at h ⊢
    rw [World.put_seats_self]
    have hcoupled : Updater.Coupled c n (w.talk c).seat := h
    exact (hcoupled.step hgood hstep).2
  | display argv stdin =>
    rw [Lives] at h ⊢
    have hdeed : deed (w.talk c, move, d) = deedOf (w.seats c) d.seat := deed_own hown
    rw [World.put_talk_self, ← hdeed]
    exact h.step hkilled (fun op hop => absurd hop (hown op)) hstep

/-- FRAME: what another one does outside the server is nothing to it. -/
theorem Lives.others_idle {start : Start} (h : Lives n log killed w c start) (hne : c ≠ c')
    {d : Dialogue} (hserver : d.server = w.server) : Lives n log killed (w.put c' d) c start := by
  cases start with
  | updater argv stdin =>
    rw [Lives] at h ⊢
    rw [World.put_seats_of_ne hne]
    exact h
  | display argv stdin =>
    rw [Lives] at h ⊢
    rw [World.put_talk_of_ne hne, hserver]
    exact h

/-- What another one does in the server keeps it coupled, if a display can follow it. -/
theorem Lives.others {start : Start} (h : Lives n log killed w c start) (hne : c ≠ c') {d : Dialogue}
    {op : Op} {out : Out} (hop : Server.machine.step w.server op = some (out, d.server))
    (hapart : Apart c op) :
    Lives n (log ++ [(op, out, w.server, d.server)]) killed (w.put c' d) c start := by
  cases start with
  | updater argv stdin =>
    rw [Lives] at h ⊢
    rw [World.put_seats_of_ne hne]
    exact h
  | display argv stdin =>
    rw [Lives] at h ⊢
    rw [World.put_talk_of_ne hne]
    have hother : (dialogue c n (w.talk c)).step (w.talk c) (.other op)
        = some ((), ⟨w.seats c, d.server⟩) := step_others.mpr ⟨out, _, hop, rfl⟩
    have hdeed : deed (w.talk c, .other op, ⟨w.seats c, d.server⟩)
        = some (op, out, w.server, d.server) := by
      rw [deed, show Server.machine.step (w.talk c).server op = _ from hop]
      rfl
    have hnext := h.step (by simp) (fun op' hop' => Move.other.inj hop' ▸ hapart) hother
    rw [hdeed] at hnext
    exact hnext

end

/-- STEP: whatever happens next is explained by what it adds to the log. -/
theorem Explained.step {n m : ℕ} {starts : Client → Start} {all : List (Client × Move)}
    {log : List Entry} {w w' : World} (h : Explained n starts all log w) {c : Client} {move : Move}
    (hmem : (c, move) ∈ all) {o : Option Entry}
    (hstep : (world n m starts).step w (c, move) = some (o, w')) :
    Explained n starts all (log ++ o.toList) w' := by
  obtain ⟨hown, d, htalk, rfl, rfl⟩ := step_world hstep
  have hkilled : ∀ code, move = .kill code → ∃ code, (c, Move.kill code) ∈ all :=
    fun code hcode => ⟨code, hcode ▸ hmem⟩
  have hlives := (h.lives c).own h.good hown hkilled htalk
  rcases step_own htalk hown with ⟨hserver, hdeed, hcarried⟩ | ⟨op, f, out, hthread, hop, hdeed, hcarried⟩
  · have hdeed' : deedOf (w.seats c) d.seat = none := hdeed
    rw [hdeed', Option.toList_none, List.append_nil] at hlives
    rw [entry, hdeed', Option.map_none, Option.toList_none, List.append_nil]
    refine ⟨?_, ?_, h.decoded, fun c' => ?_, fun c' => ?_⟩
    · rw [World.put_server, hserver]
      exact h.good
    · rw [World.put_server, hserver]
      exact h.logged
    · rw [h.parts c']
      by_cases hc : c' = c
      · subst hc
        rw [World.put_seats_self]
        exact hcarried.symm
      · rw [World.put_seats_of_ne hc]
    · by_cases hc : c' = c
      · exact hc ▸ hlives
      · exact (h.lives c').others_idle hc hserver
  · have hdeed' : deedOf (w.seats c) d.seat = some (op, out, w.server, d.server) := hdeed
    rw [hdeed', Option.toList_some] at hlives
    rw [entry, hdeed', Option.map_some, Option.toList_some]
    refine ⟨(Server.step_took h.good hop).good h.good, ?_, fun e he => ?_, fun c' => ?_, fun c' => ?_⟩
    · rw [List.map_append]
      exact h.logged.snoc hop
    · rcases List.mem_append.mp he with he | he
      · exact h.decoded e he
      · obtain rfl := List.mem_singleton.mp he
        rintro o rfl
        exact (h.lives c).decoded hthread
    · by_cases hc : c' = c
      · subst hc
        rw [partOf_snoc_self, h.parts c', World.put_seats_self]
        exact hcarried.symm
      · rw [partOf_snoc_of_ne hc, h.parts c', World.put_seats_of_ne hc]
    · rw [List.map_append]
      by_cases hc : c' = c
      · exact hc ▸ hlives
      · exact (h.lives c').others hc hop ((h.lives c).apart hthread hc)

/-! ### Runs -/

theorem Explained.begin {n m : ℕ} {starts : Client → Start} (hargv : ∀ c, (starts c).argv ≠ [])
    (all : List (Client × Move)) : Explained n starts all [] (world n m starts).init := by
  refine ⟨Server.good_init, .nil, fun e he => absurd he List.not_mem_nil, fun c => ?_, fun c => ?_⟩
  · show [] = ((starts c).seat m).past.filterMap carried
    cases starts c <;> rfl
  · have hc := hargv c
    have htalk : (world n m starts).init.talk c = ⟨(starts c).seat m, {}⟩ := rfl
    cases hstart : starts c with
    | updater argv stdin =>
      rw [hstart] at hc htalk
      have hseat : (world n m starts).init.seats c = _ := congrArg Dialogue.seat htalk
      rw [Lives, hseat]
      exact Updater.Coupled.begin hc m stdin
    | display argv stdin =>
      rw [hstart] at hc htalk
      rw [Lives, List.map_nil, htalk]
      have hnone : Display.AllDisplayed ∅ := fun k o ho => by simp at ho
      exact Display.Coupled.begin hc (show Server.Good {} from Server.good_init) hnone
        (Finset.notMem_empty c) n m stdin _

/-- INVARIANTS: every run is explained by its log. -/
theorem run_explained {n m : ℕ} {starts : Client → Start} (hargv : ∀ c, (starts c).argv ≠ [])
    {moves : List (Client × Move)} {outs : List (Option Entry)} {w : World}
    (h : (world n m starts).run moves = some (outs, w)) :
    Explained n starts moves (logOf outs) w := by
  refine Machine.runFrom_induct (P := fun before outs w => before <+: moves →
    Explained n starts moves (logOf outs) w) (fun _ => Explained.begin hargv moves) ?_ h
    List.prefix_rfl
  rintro before outs w ⟨c, move⟩ o w' hrun ih hstep hprefix
  have hmem : (c, move) ∈ moves := hprefix.subset (by simp)
  rw [logOf, List.reduceOption_append, List.reduceOption_singleton]
  exact (ih ((List.prefix_append _ _).trans hprefix)).step hmem hstep

/-- The server of the world has had a run on decoded orders, so all that is known of such runs holds of
    it. -/
theorem world_server {n m : ℕ} {starts : Client → Start} (hargv : ∀ c, (starts c).argv ≠ [])
    {moves : List (Client × Move)} {outs : List (Option Entry)} {w : World}
    (h : (world n m starts).run moves = some (outs, w)) :
    ∃ ops outs, Server.machine.run ops = some (outs, w.server) ∧ ∀ o, .newOrder o ∈ ops → Decoded o := by
  obtain ⟨-, hlogged, hdecoded, -, -⟩ := run_explained hargv h
  refine ⟨_, _, hlogged.run, fun o ho => ?_⟩
  obtain ⟨deed, hdeed, hop⟩ := List.mem_map.mp ho
  obtain ⟨e, he, rfl⟩ := List.mem_map.mp hdeed
  exact hdecoded e he o hop

/-- A display at 5, and updaters that order a samosa; 3 does. -/
def samosas (c : Client) : Start :=
  let argv := [ascii "client", ascii "localhost", ascii "8080"]
  if c = 5 then .display argv (ascii "alice\nfoobar\n")
  else .updater argv (ascii "alice\nfoobar\norder_new\n1\n7\nSamosa\n2\n")

end Restaurant
