import RestaurantOrder.Display.Story
import RestaurantOrder.Programs.Viewing
import RestaurantOrder.Programs.Wired
import RestaurantOrder.Wire.Types

/-! A display and its thread: the screens tell what has happened in the server.

    What the display hears behind its login is what its thread has taken out of the queue, with
    heartbeats in between, so the screens are those of the views that the log tells (`run_coupled`).

        server ──queue──▶ thread ──texts──▶ display ──▶ screens
        views   ∅ v₁ v₂ v₃ v₄     heard v₁ v₂ v₃         shown ∅ v₁ v₂ -/

namespace Restaurant.Display
open Schemes Process Program
open Wire (messageStr)
open Session (Deed Happening Feed carried fed founds taken Inside Accepts)

/-! ### Ledgers -/

/-- What is true of the ledger of a display at every moment. -/
structure Sound (g : Ledger) : Prop where
  login : ∀ e ∈ g.asked, ∃ user pass,
    e.2 = messageStr (.ofLogin .login .display (user ++ ascii "/" ++ pass))
  once : g.asked.length ≤ 1
  unasked : g.asked = [] → g.heard = []
  waiting : g.stage = .waiting → g.asked ≠ [] ∧ g.heard = []
  told : ∃ seen w, seen <+: g.heard.tail ∧ watched seen = .ok w ∧ g.told <+: w.2

theorem sound_nil : Sound {} :=
  ⟨by simp, Nat.zero_le 1, fun _ => rfl, nofun, [], _, List.nil_prefix, rfl, List.nil_prefix⟩

/-- The login is all that is sent. -/
theorem Sound.asks {g : Ledger} (h : Sound g) {text : Bytes} (hlogin : g.LogsIn .display text)
    {stage : Stage} {failed : Bool} :
    Sound { g with stage, failed, asked := g.asked ++ [(g.lines, text)] } := by
  obtain ⟨hasked, user, pass, hlines, rfl⟩ := hlogin
  refine ⟨fun e he => ?_, ?_, fun hnil => ?_, fun _ => ⟨?_, h.unasked hasked⟩, h.told⟩
  · rw [hasked, List.nil_append, List.mem_singleton] at he
    exact ⟨user, pass, by rw [he]⟩
  · simp [hasked]
  · simp at hnil
  · simp

theorem tail_more (heard : List Bytes) (raw : Bytes) : heard.tail <+: (heard ++ [raw]).tail := by
  cases heard with
  | nil => exact List.nil_prefix
  | cons raw₀ rest => exact List.prefix_append _ _

/-- What is allowed keeps the ledger sound, whatever comes of it. -/
theorem Sound.note {g : Ledger} (h : Sound g) {a : Act} (ha : Allowed g a) (r : a.Answer) :
    Sound (g.note a r) := by
  cases a with
  | openClientfd hostname port => cases r <;> exact { h with waiting := nofun }
  | getline => exact { h with }
  | complain text => exact h
  | close => exact { h with waiting := nofun }
  | send text =>
    obtain ⟨-, hlogin⟩ := ha.resolve_right fun hfalse => hfalse
    cases r <;> exact h.asks hlogin
  | receive =>
    have hasked : g.asked ≠ [] := by
      rcases ha with hwaiting | ⟨orders, hw⟩
      · exact (h.waiting hwaiting).1
      · intro hnil
        obtain ⟨raw, rest, msg, hheard, -⟩ := hw.welcomed
        rw [h.unasked hnil] at hheard
        cases hheard
    obtain ⟨seen, w, hseen, hwatched, htold⟩ := h.told
    cases r with
    | error e => exact { h with waiting := nofun }
    | ok raw =>
      exact { h with
        unasked := fun hnil => absurd hnil hasked, waiting := nofun
        told := ⟨seen, w, hseen.trans (tail_more _ raw), hwatched, htold⟩ }
  | print text =>
    rcases ha with ⟨-, hprompt⟩ | hshows
    · rw [note_prompt hprompt]
      exact h
    · rw [note_shows hshows]
      obtain ⟨orders, printed, hw, -, htold⟩ := hshows
      exact { h with told := ⟨_, _, List.prefix_rfl, hw.watched, htold⟩ }

/-! ### What is heard -/

theorem decoded_sent {m : Message} (h : Wire.Sendable m) : Session.decoded (messageStr m) = .ok m :=
  Session.decoded_iff.mpr (h.text.2.mono fun _ _ => Digits.spelled)

theorem hearText_heartbeat (w : Orders × List Bytes) : hearText w (messageStr (fed none)) = .ok w := by
  rw [fed, Option.getD_none, hearText, decoded_sent .heartbeat]
  rfl

theorem hearText_change {m : Message} (h : Change m) {orders orders' : Orders}
    (hturn : turn orders m = pure orders') (printed : List Bytes) :
    hearText (orders, printed) (messageStr (fed (some m))) = .ok (orders', printed ++ screen orders') := by
  rw [turn_sendable h.1] at hturn
  rw [fed, Option.getD_some, hearText, decoded_sent h.1, Schemes.ok_bind, hturn]
  show Except.ok (orders', if m.type = .dispHeartbeat then printed else printed ++ screen orders') = _
  rw [if_neg h.2]

/-- What is heard of a stream with heartbeats in it are its views, and they are printed one by one. -/
theorem watched_views {l : List (Option Message)} (h : ∀ m ∈ l.reduceOption, Change m)
    {orders : Orders} {views : List Orders} (hcopies : Copies turn orders l.reduceOption views)
    (printed : List Bytes) :
    (l.map fun found => messageStr (fed found)).foldlM hearText (orders, printed)
      = .ok (views.getLastD orders, printed ++ views.flatMap screen) := by
  induction l generalizing orders views printed with
  | nil =>
    cases hcopies
    simp
  | cons found l ih =>
    rw [List.map_cons, List.foldlM_cons]
    cases found with
    | none =>
      rw [List.reduceOption_cons_of_none] at h hcopies
      rw [hearText_heartbeat, Schemes.ok_bind]
      exact ih h hcopies printed
    | some m =>
      rw [List.reduceOption_cons_of_some] at h hcopies
      cases hcopies with
      | @cons _ orders' _ _ views hturn hrest =>
        rw [hearText_change (h m List.mem_cons_self) hturn, Schemes.ok_bind,
          ih (fun m' hm' => h m' (List.mem_cons_of_mem _ hm')) hrest, List.getLastD_cons,
          List.flatMap_cons, List.append_assoc]

/-! ### The invariant -/

/-- The display and its thread, once there is one. -/
structure Linked (this : Client) (n : ℕ) (s : Seat) (p : Session.Proc Unit) : Prop where
  feed : Feed this n s.past p ∨ s.past = [] ∧ p = done (.ok ())
  wired : Wired s p

/-- `killed` is whether the display has been ended from outside. -/
structure Coupled (this : Client) (n start : ℕ) (log : List Deed) (killed : Prop) (d : Dialogue) :
    Prop where
  keeps : Keeps (bookkeeping Allowed) (Returned Ended) d.seat.proc d.seat.ledger ∨
    killed ∧ ∃ code, d.seat.proc = done (.ok code)
  sound : Sound d.seat.ledger
  stream : Stream this start (tale this log) d.seat.past d.seat.taken d.server
  link : Unlinked d.seat ∨
    ∃ p, d.seat.thread = some p ∧ d.seat.ledger.stage ≠ .outside ∧ Linked this n d.seat p

section
variable {this : Client} {n start : ℕ} {t : Tale} {log : List Deed} {killed : Prop} {d : Dialogue}

/-- What the thread has sent behind the login are the messages taken and heartbeats. -/
theorem Linked.sends {s : Seat} {p : Session.Proc Unit} (h : Linked this n s p) :
    s.ledger.heard.tail <+: (founds s.past).map fun found => messageStr (fed found) := by
  have hheard : s.ledger.heard.tail <+: (outs s.past).tail := by
    rw [← List.drop_one, ← List.drop_one]
    exact h.wired.heard.drop 1
  rcases h.feed with hfeed | ⟨hpast, -⟩
  · exact hheard.trans hfeed.sends
  · rw [hpast] at hheard
    exact hheard.trans List.nil_prefix

theorem reduceOption_begins {l l' : List (Option Message)} (h : l <+: l') :
    l.reduceOption <+: l'.reduceOption := by
  obtain ⟨more, rfl⟩ := h
  rw [List.reduceOption_append]
  exact List.prefix_append _ _

/-- What was heard fits what was heard before, and shows a beginning of the views. -/
theorem Stream.watched {past : List Happening} {count : ℕ} {server : Server}
    (h : Stream this start t past count server) {seen : List Bytes}
    (hseen : seen <+: (founds past).map fun found => messageStr (fed found)) :
    ∃ l : List (Option Message), l <+: founds past ∧ seen = l.map (fun found => messageStr (fed found)) ∧
      watched seen = .ok ((t.views.tail.take l.reduceOption.length).getLastD ∅,
        screen ∅ ++ (t.views.tail.take l.reduceOption.length).flatMap screen) := by
  obtain ⟨l, hbegin, hl⟩ : ∃ l, l <+: founds past ∧ seen = l.map fun found => messageStr (fed found) :=
    ⟨(founds past).take seen.length, List.take_prefix _ _, by
      rw [List.map_take]
      exact List.prefix_iff_eq_take.mp hseen⟩
  have htook : l.reduceOption <+: queued this start server := (reduceOption_begins hbegin).trans h.took
  have hcopies := h.copies.take l.reduceOption.length
  rw [← List.prefix_iff_eq_take.mp htook] at hcopies
  refine ⟨l, hbegin, hl, ?_⟩
  rw [hl]
  exact watched_views (fun m hm => h.changes m (htook.subset hm)) hcopies _

/-! ### Steps of the program -/

/-- The login is sent before anything else, and a receive waits for something. -/
theorem allowed_send {g : Ledger} {text : Bytes} (h : Allowed g (.send text)) :
    g.stage = .calm ∧ g.asked = [] := by
  obtain ⟨hcalm, hasked, -⟩ := h.resolve_right fun hfalse => hfalse
  exact ⟨hcalm, hasked⟩

theorem allowed_receive {g : Ledger} (h : Allowed g .receive) : g.stage = .calm ∨ g.stage = .waiting := by
  rcases h with hwaiting | ⟨orders, hw⟩
  · exact Or.inr hwaiting
  · exact Or.inl hw.stage

theorem Linked.client {s : Seat} {p : Session.Proc Unit} (h : Linked this n s p)
    (hthread : s.thread = some p) (hopen : s.ledger.stage ≠ .outside) {a : Act}
    (hallowed : Allowed s.ledger a) {found : Bool} {w : Weather} {r : a.Answer} {seat : Seat}
    (hre : react this n found w s a = some (r, seat)) (proc : Proc Int32) :
    ∃ p, (seat.went a r proc).thread = some p ∧ (seat.went a r proc).ledger.stage ≠ .outside ∧
      Linked this n (seat.went a r proc) p := by
  have hnever : ∀ host port, a ≠ .openClientfd host port := by
    rintro host port rfl
    exact hopen (hallowed.resolve_right fun hfalse => hfalse)
  obtain ⟨hledger, hpast, -⟩ := react_frame hre
  obtain ⟨hwired, hthread'⟩ := h.wired.client hre hnever
    (fun text ht => by
      subst ht
      obtain ⟨hcalm, hasked⟩ := allowed_send hallowed
      have horder := h.wired.order
      rw [texts, hasked, List.map_nil, List.prefix_nil] at horder
      exact ⟨not_over (Or.inl hcalm), by rw [texts, hasked, horder]; rfl⟩)
    (fun ht => by
      subst ht
      exact not_over (allowed_receive hallowed)) proc
  refine ⟨p, hthread'.trans hthread, ?_, hpast ▸ h.feed, hwired⟩
  rw [Seat.went_ledger, hledger]
  exact stage_note hnever hopen r

/-- The display does an action. -/
theorem Coupled.client (h : Coupled this n start log killed d) {a : Act}
    {k : a.Answer → Proc Int32} (hproc : d.seat.proc = act a k) {found : Bool} {w : Weather}
    {r : a.Answer} {seat : Seat} (hre : react this n found w d.seat a = some (r, seat)) :
    Coupled this n start log killed { d with seat := seat.went a r (k r) } := by
  have hkeeps := h.keeps.resolve_right fun ⟨_, code, hdone⟩ => by cases hproc.symm.trans hdone
  rw [hproc] at hkeeps
  obtain ⟨hallowed, hnext⟩ := hkeeps
  obtain ⟨hledger, hpast, htaken⟩ := react_frame hre
  refine ⟨Or.inl ?_, ?_, ?_, ?_⟩
  · rw [Seat.went_ledger, hledger]
    exact hnext r trivial
  · rw [Seat.went_ledger, hledger]
    exact h.sound.note hallowed r
  · rw [Seat.went_past, Seat.went_taken, hpast, htaken]
    exact h.stream
  · rcases h.link with hunlinked | ⟨p, hthread, hopen, hlinked⟩
    · rcases hunlinked.client hre (fun text ht => by subst ht; exact (allowed_send hallowed).1)
        (fun ht => by subst ht; exact allowed_receive hallowed) (k r) with
        hunlinked' | ⟨hthread, hpast, hledger', hwired⟩
      · exact Or.inl hunlinked'
      · refine Or.inr ⟨_, hthread, by rw [hledger']; exact nofun, Or.inl ?_, hwired⟩
        rw [hpast]
        exact .opening
    · exact Or.inr (hlinked.client hthread hopen hallowed hre _)

/-! ### Steps of the thread -/

theorem Linked.thread {a : Session.Act} {f : a.Answer → Session.Proc Unit}
    (hs : Sound d.seat.ledger) (hstream : Stream this start t d.seat.past d.seat.taken d.server)
    (h : Linked this n d.seat (act a f)) {wake : Session.Wake} {w : Weather}
    (hbrings : w.Brings d.seat.toServer) {re : Session.Reaction a}
    (hre : Session.react this wake (d.seat.conn w) d.server a = some re) :
    Stream this start ((carried re.happening).elim t (t.next this)) (d.seat.past ++ [re.happening])
        re.conn.taken re.server ∧ Linked this n (d.seat.reacted w re (f re.answer)) (f re.answer) := by
  have hfeed := h.feed.resolve_right fun hdone => by cases hdone.2
  have hconn : Stream this start t d.seat.past (d.seat.conn w).taken d.server := hstream
  have hstream' := hconn.thread hfeed hre
  have hshort : ∀ text, a = .send text → ∀ t ∈ outs d.seat.past, t.length ≤ 9998 := by
    rintro text rfl
    exact hfeed.short rfl
  have hraw : ∀ raw, re.happening = .received (.ok raw) → ¬Accepts .updater raw := by
    intro raw hraw hacc
    have hwired := h.wired.thread hbrings hre hshort fun e he => by rw [hraw] at he; cases he
    have hmem : raw ∈ texts d.seat.ledger := hwired.order.subset (by
      show raw ∈ ins (d.seat.past ++ [re.happening])
      rw [hraw, ins_snoc]
      exact List.mem_append_right _ (List.mem_singleton_self raw))
    obtain ⟨e, he, rfl⟩ := List.mem_map.mp hmem
    obtain ⟨user, pass, htext⟩ := hs.login e he
    obtain ⟨cred, hlogin, -⟩ := hacc
    rw [htext] at hlogin
    cases Wire.mode_unique hlogin
  have hmsg : ∀ m, re.happening = .dequeued (.ok (some m)) → Wire.hasFields m := by
    intro m hm
    have hmem : m ∈ taken (d.seat.past ++ [re.happening]) := by
      rw [hm, taken_snoc]
      exact List.mem_append_right _ (List.mem_singleton_self m)
    exact (hstream'.changes m (hstream'.took.subset hmem)).1.text.1
  have hfeed' := hfeed.step rfl hstream.good hre hraw hmsg
  refine ⟨hstream', Or.inl hfeed', h.wired.thread hbrings hre hshort fun e he => ?_⟩
  exact hfeed'.failed (e := e) (he ▸ List.mem_append_right _ (List.mem_singleton_self _))

/-! ### Runs -/

theorem Sound.closed {g : Ledger} (h : Sound g) : Sound (g.note .close ()) :=
  { h with waiting := nofun }

theorem Coupled.kills (h : Coupled this n start log killed d) (hkilled : killed) (code : Int32) :
    Coupled this n start log killed { d with seat := d.seat.killed code } := by
  refine ⟨Or.inr ⟨hkilled, code, rfl⟩, h.sound.closed, h.stream, ?_⟩
  rcases h.link with hunlinked | ⟨p, hthread, -, hlinked⟩
  · exact Or.inl { hunlinked with stage := Or.inr rfl }
  · exact Or.inr ⟨p, hthread, nofun, hlinked.feed,
      hlinked.wired.unchanged rfl rfl rfl rfl rfl rfl (Or.inr (Or.inr rfl))⟩

/-- No thread could be created for the connection. -/
theorem Coupled.refused (h : Coupled this n start log killed d) (hthread : d.seat.thread.isSome)
    (hpast : d.seat.past = []) : Coupled this n start log killed
      { d with seat := { d.seat with thread := some (done (.ok ())) } } := by
  refine ⟨h.keeps, h.sound, h.stream, ?_⟩
  rcases h.link with hunlinked | ⟨p, hp, hstage, hlinked⟩
  · rw [hunlinked.thread] at hthread
    cases hthread
  · exact Or.inr ⟨_, rfl, hstage, Or.inr ⟨hpast, rfl⟩,
      { hlinked.wired with inbound := Or.inl ⟨_, rfl⟩ }⟩

/-- STEP: whatever happens next, they stay coupled. -/
theorem Coupled.step (h : Coupled this n start log killed d) {beginning d' : Dialogue} {move : Move}
    {u : Unit} (hkilled : ∀ code, move = .kill code → killed)
    (hother : ∀ op, move = .other op → Apart this op)
    (hstep : (dialogue this n beginning).step d move = some (u, d')) :
    Coupled this n start (log ++ (deed (d, move, d')).toList) killed d' := by
  cases move with
  | client found w =>
    obtain ⟨a, k, r, seat, hproc, hre, rfl⟩ := step_client.mp hstep
    have hdeed : deed (d, .client found w, { d with seat := seat.went a r (k r) }) = none :=
      deed_idle (by simp) (react_frame hre).2.1
    rw [hdeed, Option.toList_none, List.append_nil]
    exact h.client hproc hre
  | kill code =>
    obtain rfl := step_kill hstep
    have hdeed : deed (d, .kill code, { d with seat := d.seat.killed code }) = none :=
      deed_idle (by simp) rfl
    rw [hdeed, Option.toList_none, List.append_nil]
    exact h.kills (hkilled code rfl) code
  | thread wake w =>
    obtain ⟨a, f, re, hthread, hbrings, -, hre, rfl⟩ := step_thread.mp hstep
    rcases h.link with hunlinked | ⟨p, hp, hstage, hlinked⟩
    · cases hunlinked.thread.symm.trans hthread
    · obtain rfl := Option.some.inj (hp.symm.trans hthread)
      obtain ⟨hstream, hlinked'⟩ := hlinked.thread h.sound h.stream hbrings hre
      refine ⟨h.keeps, h.sound, ?_, Or.inr ⟨_, rfl, hstage, hlinked'⟩⟩
      rw [tale_more, deed_own (by simp), deedOf_reacted]
      exact hstream
  | refuse =>
    obtain ⟨hthread, hpast, hsame⟩ := step_refuse hstep
    rw [deed_idle (by simp) (by rw [hsame]), Option.toList_none, List.append_nil, hsame]
    exact h.refused hthread hpast
  | other op =>
    obtain ⟨out, server, hop, rfl⟩ := step_others.mp hstep
    have htook := Server.step_took h.stream.good hop
    refine ⟨h.keeps, h.sound, ?_, h.link⟩
    rw [tale_more, deed, hop]
    exact h.stream.other (hother op rfl) htook

end

/-! ### What is shown -/

/-- A display that is started, at a server that knows nothing of it; the queue of a new client is
    empty, whatever was put in the queue of a client that had its address before. -/
def started (this : Client) (argv : List Bytes) (m : ℕ) (stdin : Bytes) (server : Server) : Dialogue :=
  ⟨{ proc := main argv m, stdin, taken := (server.queue this).length }, server⟩

theorem Coupled.begin {this : Client} {argv : List Bytes} (hargv : argv ≠ []) {server : Server}
    (hgood : server.Good) (hdisplayed : AllDisplayed server.orders) (hfree : this ∉ server.displayClients)
    (n m : ℕ) (stdin : Bytes) (killed : Prop) :
    Coupled this n (server.queue this).length [] killed (started this argv m stdin server) where
  keeps := Or.inl (main_keeps hargv m)
  sound := sound_nil
  stream :=
    { good := hgood, displayed := hdisplayed
      displays := iff_of_false hfree (Session.not_inside_nil this)
      begun := le_rfl, count := rfl, took := List.nil_prefix
      changes := by simp [queued, started]
      copies := by
        rw [queued, started, List.drop_length]
        exact .nil
      chain := List.isChain_singleton _
      views := by
        intro view hview k o ho
        rw [List.mem_singleton.mp hview] at ho
        simp at ho
      stands := .before rfl hfree }
  link := Or.inl ⟨rfl, rfl, Or.inl rfl, rfl, rfl, rfl, rfl⟩

/-- INVARIANTS: whatever the others do and whatever fails, a display and its thread stay coupled. -/
theorem run_coupled {this : Client} {n start : ℕ} {beginning : Dialogue} {moves : List Move}
    (hbegin : Coupled this n start [] (∃ code, .kill code ∈ moves) beginning)
    (hothers : ∀ op, .other op ∈ moves → Apart this op) {us : List Unit} {d : Dialogue}
    (h : (dialogue this n beginning).run moves = some (us, d)) :
    Coupled this n start (logIn this n beginning moves) (∃ code, .kill code ∈ moves) d := by
  refine Machine.runFrom_induct (P := fun before _ d => before <+: moves →
    Coupled this n start (logIn this n beginning before) (∃ code, Move.kill code ∈ moves) d)
    (fun _ => hbegin) ?_ h List.prefix_rfl
  intro before us d move u d' hrun ih hstep hprefix
  have hmove : move ∈ moves := hprefix.subset (by simp)
  rw [logIn_snoc hrun hstep]
  exact (ih ((List.prefix_append _ _).trans hprefix)).step (fun code hcode => ⟨code, hcode ▸ hmove⟩)
    (fun op hop => hothers op (hop ▸ hmove)) hstep

end Restaurant.Display
