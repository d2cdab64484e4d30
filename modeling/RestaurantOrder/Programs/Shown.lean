import RestaurantOrder.Programs.Mirror

/-! What a display shows is what the server has had.

    Its screens are those of the views that the log of the server tells, in their order and each one
    whole before the next (`display_truthful`); and when nothing is on its way any more, the last screen
    shows the orders that the server has now (`display_current`). Shown, or printed, is what the program
    has handed to `std::cout`.

        log      place  place  register    place   item update       deliver
        views    ∅             .. h₂       h₃      (between) h₄      h₅
        printed  ──────────────────────────────────────▶                     -/

namespace Restaurant.Display
open Schemes Process Program
open Wire (Decoded messageStr)
open Session (Deed fed founds taken)

section
variable {this : Client} {n start : ℕ} {log : List Deed} {killed : Prop} {d : Dialogue}

theorem Coupled.sends (h : Coupled this n start log killed d) : d.seat.ledger.heard.tail <+:
    (founds d.seat.past).map fun found => messageStr (fed found) := by
  rcases h.link with hunlinked | ⟨p, -, -, hlinked⟩
  · rw [hunlinked.heard]
    exact List.nil_prefix
  · exact hlinked.sends

theorem screens_begin {views seen : List Orders} (h : seen <+: views) :
    seen.flatMap screen <+: views.flatMap screen := by
  obtain ⟨more, rfl⟩ := h
  rw [List.flatMap_append]
  exact List.prefix_append _ _

/-- What is printed is a beginning of the screens of the views that the log tells. -/
theorem Coupled.prints (h : Coupled this n start log killed d) :
    d.seat.ledger.told <+: (tale this log).views.flatMap screen := by
  obtain ⟨texts, w, htexts, hwatched, htold⟩ := h.sound.told
  obtain ⟨l, -, -, hl⟩ := h.stream.watched (htexts.trans h.sends)
  obtain rfl := Except.ok.inj (hl.symm.trans hwatched)
  rw [h.stream.view_cons, List.flatMap_cons]
  exact htold.trans ((List.prefix_append_right_inj _).mpr (screens_begin (List.take_prefix _ _)))

end

/-- An order, and a run in which a display is shown it as soon as it is placed. -/
def samosa : Order := ⟨1, .new, [some ⟨1, 7, .new, ascii "Samosa", 2⟩]⟩

def samosaShown : List Move :=
  let own : Move := .client true {}
  let carries (text : Bytes) : Weather := ⟨(Framing.frame text).map fun b => .data b [], false, []⟩
  [own, own, own, own, own, own, .thread .timeout (carries (ascii "LOGIN|DISPLAY|alice/foobar")),
    .thread .timeout {}, .client true (carries (ascii "OK|Login successful")), own, .thread .timeout {},
    .other (.newOrder samosa), .thread .message {}, .thread .timeout {},
    .client true (carries (ascii "DISP_ORDER|1000,NEW,1000:7:NEW:Samosa:2")), own, own, own, own]

theorem samosa_apart : ∀ op, .other op ∈ samosaShown → Apart 5 op := by
  intro op hop
  obtain rfl : op = .newOrder samosa := by simpa [samosaShown] using hop
  refine ⟨fun o ho => ?_, by simp, by simp⟩
  obtain rfl := Op.newOrder.inj ho
  exact ⟨ascii "ORDER_NEW|1,NEW,1:7:NEW:Samosa:2", {}, .ofOrder .orderNew (some samosa),
    by decide +kernel, rfl, rfl⟩

/-- The queue is empty, the thread waits for a message and the display for a text, and no byte is on its
    way or has been lost. -/
structure AtRest (this : Client) (d : Dialogue) : Prop where
  queue : d.seat.taken = (d.server.queue this).length
  thread : ∃ f, d.seat.thread = some (act .dequeue f)
  bytes : d.seat.toClient = []
  reset : d.seat.reset = false
  proc : ∃ k, d.seat.proc = act .receive k

/-- Is the thread waiting for a message, and the display for a text? -/
def waits (d : Dialogue) : Bool :=
  match d.seat.thread, d.seat.proc with
  | some (.act .dequeue _), .act .receive _ => true
  | _, _ => false

theorem waits_iff {d : Dialogue} : waits d = true ↔
    (∃ f, d.seat.thread = some (act .dequeue f)) ∧ ∃ k, d.seat.proc = act .receive k := by
  constructor
  · intro h
    rw [waits] at h
    split at h
    · next hthread hproc => exact ⟨⟨_, hthread⟩, _, hproc⟩
    · cases h
  · rintro ⟨⟨f, hthread⟩, k, hproc⟩
    rw [waits, hthread, hproc]

instance (this : Client) (d : Dialogue) : Decidable (AtRest this d) :=
  decidable_of_iff (d.seat.taken = (d.server.queue this).length ∧ d.seat.toClient = [] ∧
      d.seat.reset = false ∧ waits d = true)
    ⟨fun ⟨hqueue, hbytes, hreset, hwaits⟩ =>
      ⟨hqueue, (waits_iff.mp hwaits).1, hbytes, hreset, (waits_iff.mp hwaits).2⟩,
    fun h => ⟨h.queue, h.bytes, h.reset, waits_iff.mpr ⟨h.thread, h.proc⟩⟩⟩

theorem screen_last (views : List Orders) :
    screen (views.getLastD ∅) <:+ screen ∅ ++ views.flatMap screen := by
  rcases List.eq_nil_or_concat' views with rfl | ⟨views, view, rfl⟩
  · simp
  · rw [List.getLastD_concat, List.flatMap_append, List.flatMap_singleton, ← List.append_assoc]
    exact List.suffix_append _ _

theorem Coupled.current {this : Client} {n start : ℕ} {log : List Deed} {killed : Prop} {d : Dialogue}
    (h : Coupled this n start log killed d) (hrest : AtRest this d) :
    screen d.server.orders <:+ d.seat.ledger.told := by
  obtain ⟨hqueue, ⟨f, hthread⟩, hbytes, hreset, k, hproc⟩ := hrest
  rcases h.link with hunlinked | ⟨p, hp, -, hlinked⟩
  · cases hunlinked.thread.symm.trans hthread
  obtain rfl := Option.some.inj (hp.symm.trans hthread)
  have hfeed := hlinked.feed.resolve_right fun hdone => by cases hdone.2
  obtain ⟨houts, hshort, hinside⟩ := hfeed.waiting rfl
  -- the display waits for a message, not for the response to its login
  have hkeeps := h.keeps.resolve_right fun ⟨_, code, hdone⟩ => by cases hproc.symm.trans hdone
  rw [hproc] at hkeeps
  have hstage := allowed_receive hkeeps.1
  have hchannel := hlinked.wired.outbound.resolve_left (not_over hstage)
  rw [hbytes] at hchannel
  have hheard : d.seat.ledger.heard = outs d.seat.past := hchannel.all hreset hshort
  rw [outs, houts] at hheard
  have hnot : ¬d.seat.ledger.stage = .waiting := fun hwaiting => by
    rw [(h.sound.waiting hwaiting).2] at hheard
    cases hheard
  obtain ⟨orders, hwatches⟩ := hkeeps.1.resolve_left hnot
  -- it has heard of all the messages that were put in the queue
  have hall : taken d.seat.past = queued this start d.server := by
    refine h.stream.took.eq_of_length ?_
    rw [queued, List.length_drop, ← hqueue, h.stream.count]
    omega
  have hwatched := hwatches.watched
  rw [hheard, List.tail_cons, watched, watched_views (fun m hm => h.stream.changes m (hall ▸ hm))
    (hall ▸ h.stream.copies) (screen ∅)] at hwatched
  obtain ⟨-, htold⟩ := Prod.mk.inj (Except.ok.inj hwatched)
  rw [← htold, ← h.stream.last (h.stream.displays.mpr hinside)]
  exact screen_last _

/-- CORRECT: whenever nothing is on its way to a display, the last thing that it has printed is the
    screen of the orders that the server has at this moment, whatever has happened before; printed, that
    is handed to `std::cout`. -/
theorem display_current {this : Client} {n m : ℕ} {argv : List Bytes} (hargv : argv ≠ [])
    {ops : List Op} {outs : List Out} {server : Server}
    (hserver : Server.machine.run ops = some (outs, server)) (hdec : ∀ o, .newOrder o ∈ ops → Decoded o)
    (hfree : this ∉ server.displayClients) {stdin : Bytes} {moves : List Move}
    (hothers : ∀ op, .other op ∈ moves → Apart this op) {us : List Unit} {d : Dialogue}
    (h : (dialogue this n (started this argv m stdin server)).run moves = some (us, d))
    (hrest : AtRest this d) : screen d.server.orders <:+ d.seat.ledger.told := by
  obtain ⟨hgood, hdisplayed⟩ := allDisplayed_run hdec hserver
  exact (run_coupled (Coupled.begin hargv hgood hdisplayed hfree n m stdin _) hothers h).current hrest

/-- The display has shown the order, and nothing is on its way. -/
theorem display_current_samosa :
    let begun := started 5 [ascii "display", ascii "localhost", ascii "8080"] 3
      (ascii "alice\nfoobar\n") {}
    ∃ us d, (dialogue 5 3 begun).run samosaShown = some (us, d) ∧ AtRest 5 d ∧
      screen d.server.orders <:+ d.seat.ledger.told := by
  intro begun
  have hrun : ((dialogue 5 3 begun).run samosaShown).map (fun p => decide (AtRest 5 p.2)) = some true := by
    decide +kernel
  obtain ⟨⟨us, d⟩, hd, hdecide⟩ := Option.map_eq_some_iff.mp hrun
  have hrest : AtRest 5 d := of_decide_eq_true hdecide
  exact ⟨us, d, hd, hrest, display_current (List.cons_ne_nil _ _)
    (show Server.machine.run [] = some ([], {}) from rfl) (fun o ho => absurd ho List.not_mem_nil)
    (Finset.notMem_empty 5) samosa_apart hd hrest⟩

end Restaurant.Display
