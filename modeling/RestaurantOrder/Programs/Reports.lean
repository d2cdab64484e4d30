import RestaurantOrder.Programs.Lockstep

/-! What an updater reports is what happened in the server.

    The requests that the updater sends are carried out one after the other as they were typed, and
    each report is the reply to its own request. At any moment at most one request is without a report;
    whether that one was carried out the updater cannot know (`updater_truthful`).

        typed      c₁ c₂ c₃            c₃ may be on its way, under way, done, or lost
        carried    x₁ x₂ (x₃)
        reported   r₁ r₂ -/

namespace Restaurant.Updater
open Schemes Process Program
open Wire (MessageText messageStr)
open Framing (frame)
open Session (Happening Deed carried Course Turn Pending Exchange Unexpected Quits requestOf sentOf Accepts)

def effect (x : Exchange) : Deed := (x.op, x.out, x.before, x.after)

/-- No description has a separator in it. -/
def Described (m : Message) : Prop :=
  ∀ o, m.order = some o → ∀ it, some it ∈ o.items → Wire.Plain it.desc

/-- The exchange carries out what was typed and sent. The text that was sent is that of the message
    typed, and what is called is the request that `decode` reads in this text. That is the message typed
    exactly if no description has a separator in it; nothing keeps a user from typing one. -/
structure CarriesOut (x : Exchange) (e : List Bytes × Bytes) : Prop where
  holds : x.Holds
  raw : x.raw = e.2
  read : Session.decoded e.2 = .ok x.msg
  typed : ∃ m, Typed e.1 m ∧ e.2 = messageStr m ∧ (x.msg = m ↔ Described m)

/-! ### What is sent -/

theorem request_some {msg : Message} {s : Bytes} (h : MessageText Spelled msg s)
    (ht : msg.type = .orderNew ∨ msg.type = .itemUpdate ∨ msg.type = .orderUpdate) :
    requestOf msg ≠ none := by
  cases h with
  | login => rcases ht with ht | ht | ht <;> cases ht
  | string hs => rcases hs with rfl | rfl | rfl <;> rcases ht with ht | ht | ht <;> cases ht
  | heartbeat => rcases ht with ht | ht | ht <;> cases ht
  | order hs =>
    rcases hs with rfl | rfl
    · exact nofun
    · rcases ht with ht | ht | ht <;> cases ht
  | itemUpdate hs =>
    rcases hs with rfl | rfl
    · exact nofun
    · rcases ht with ht | ht | ht <;> cases ht
  | orderUpdate hs =>
    rcases hs with rfl | rfl
    · exact nofun
    · rcases ht with ht | ht | ht <;> cases ht

theorem typed_type {lines : List Bytes} {m : Message} (h : Typed lines m) :
    m.type = .quit ∨ m.type = .orderNew ∨ m.type = .itemUpdate ∨ m.type = .orderUpdate := by
  cases h with
  | quit => exact Or.inl rfl
  | orderNew => exact Or.inr (Or.inl rfl)
  | itemUpdate => exact Or.inr (Or.inr (Or.inl rfl))
  | orderUpdate => exact Or.inr (Or.inr (Or.inr rfl))

/-- What is typed is never of a type that the thread does not expect. -/
theorem typed_expected {lines : List Bytes} {m : Message} (h : Typed lines m) :
    ¬Unexpected (messageStr m) := by
  rintro ⟨msg, htext, hnone, hquit⟩
  have htype := typed_type h
  rw [← Wire.type_unique htext] at htype
  exact request_some htext (htype.resolve_left hquit) hnone

/-- What can be read in a text has no separators in its descriptions. -/
theorem described_of_text {m : Message} {s : Bytes} (h : MessageText Spelled m s) : Described m := by
  cases h with
  | order ht ho =>
    obtain ⟨its, hits, -, hall⟩ := ho.sendable.items
    intro o' ho' it hit
    obtain rfl := Option.some.inj ho'
    rw [hits, List.mem_map] at hit
    obtain ⟨it', hit', hsome⟩ := hit
    obtain rfl := Option.some.inj hsome
    exact (hall it' hit').desc
  | _ => intro o ho; cases ho

/-- And what is typed without them can be read. -/
theorem typed_sendable {lines : List Bytes} {m : Message} (h : Typed lines m) (hm : Described m) :
    Wire.Sendable m := by
  cases h with
  | quit => exact .string (Or.inl rfl) (by decide) (by decide)
  | itemUpdate hk hks hi his hst => exact .itemUpdate (Or.inl rfl) hk hi hst
  | orderUpdate hk hks hst => exact .orderUpdate (Or.inl rfl) hk hst
  | @orderNew count countS its fields hcount hs hlen hits =>
    refine .order (Or.inl rfl) ⟨show (0 : Int32) < 1 by decide, show OrderStatus.new ≠ .invalid by decide,
      its, rfl, ?_, fun it hit => ?_⟩
    · rintro rfl
      rw [Int32.lt_iff_toInt_lt, Int32.toInt_zero] at hcount
      rw [List.length_nil] at hlen
      omega
    · obtain ⟨fs, idS, qtyS, -, hid, -, hqty, -, horder, hst⟩ := Wire.related_of_mem hits hit
      exact ⟨by rw [horder]; decide, hid, by rw [hst]; decide,
        hm _ rfl it (List.mem_map_of_mem hit), hqty⟩

/-! ### What is done -/

/-- Turns with no unexpected message are exchanges. -/
theorem turns_exchanges {turns : List Turn} (hturns : ∀ t ∈ turns, t.Holds)
    (hexpected : ∀ raw ∈ ins (turns.flatMap Turn.events), ¬Unexpected raw) :
    ∃ xs : List Exchange, turns = xs.map .request ∧ ∀ x ∈ xs, x.Holds := by
  induction turns with
  | nil => exact ⟨[], rfl, fun x hx => absurd hx List.not_mem_nil⟩
  | cons t turns ih =>
    have hins : ins ((t :: turns).flatMap Turn.events)
        = ins t.events ++ ins (turns.flatMap Turn.events) := List.filterMap_append ..
    rw [hins] at hexpected
    obtain ⟨xs, rfl, hxs⟩ := ih (fun t ht => hturns t (List.mem_cons_of_mem _ ht))
      fun raw hraw => hexpected raw (List.mem_append_right _ hraw)
    have ht := hturns t List.mem_cons_self
    cases t with
    | request x => exact ⟨x :: xs, rfl, List.forall_mem_cons.mpr ⟨ht, hxs⟩⟩
    | scolding raw r =>
      exact absurd ht (hexpected raw (List.mem_append_left _ (List.mem_singleton_self raw)))

theorem filterMap_exchanges {β : Type} {f : Happening → Option β} {g : Exchange → β}
    (hf : ∀ x : Exchange, x.events.filterMap f = [g x]) (xs : List Exchange) :
    ((xs.map Turn.request).flatMap Turn.events).filterMap f = xs.map g := by
  induction xs with
  | nil => rfl
  | cons x xs ih =>
    rw [List.map_cons, List.flatMap_cons, List.filterMap_append, ih, List.map_cons]
    exact congrArg (· ++ xs.map g) (hf x)

/-- The exchanges of a thread: those that it has replied to, perhaps one that it has not, and what it
    has said besides. -/
structure Exchanges (past : List Happening) (xs ys : List Exchange) (farewell : List Bytes) : Prop where
  holds : ∀ x ∈ xs ++ ys, x.Holds
  carried : past.filterMap carried = (xs ++ ys).map effect
  received : (xs ++ ys).map Exchange.raw <+: (ins past).tail
  sent : (outs past).tail = xs.map (fun x => messageStr x.reply) ++ farewell
  farewell : farewell = [] ∨ ∃ raw, (ins past).tail[xs.length]? = some raw ∧ Quits raw

theorem course_exchanges {this : Client} {n : ℕ} {past : List Happening} {p : Session.Proc Unit}
    (h : Course this n past p) (hno : ∀ raw ∈ (ins past).head?, ¬Accepts .display raw)
    (hexpected : ∀ raw ∈ (ins past).tail, ¬Unexpected raw) :
    ∃ xs ys farewell, Exchanges past xs ys farewell := by
  have hnone : ∀ {past : List Happening}, past.filterMap Session.carried = [] → (outs past).tail = [] →
      Exchanges past [] [] [] := fun hc ho =>
    ⟨fun x hx => absurd hx List.not_mem_nil, hc, List.nil_prefix, ho, Or.inl rfl⟩
  cases h with
  | opening => refine ⟨[], [], [], hnone ?_ ?_⟩ <;> rfl
  | rejected => refine ⟨[], [], [], hnone ?_ ?_⟩ <;> rfl
  | refusing => refine ⟨[], [], [], hnone ?_ ?_⟩ <;> rfl
  | refused => refine ⟨[], [], [], hnone ?_ ?_⟩ <;> rfl
  | greeting => refine ⟨[], [], [], hnone ?_ ?_⟩ <;> rfl
  | displaying hacc => exact absurd hacc (hno _ rfl)
  | @serving raw r k tail p turns hacc hturns htail hn =>
    have hins : (ins (.received (.ok raw) :: .sent (messageStr Session.welcome) r ::
        (turns.flatMap Turn.events ++ tail))).tail
          = ins (turns.flatMap Turn.events) ++ ins tail := List.filterMap_append ..
    rw [hins] at hexpected
    obtain ⟨xs, rfl, hxs⟩ := turns_exchanges hturns
      fun raw hraw => hexpected raw (List.mem_append_left _ hraw)
    rw [show ins ((xs.map Turn.request).flatMap Turn.events) = xs.map Exchange.raw from
      filterMap_exchanges (fun _ => rfl) xs] at hins
    have houts : (outs (.received (.ok raw) :: .sent (messageStr Session.welcome) r ::
        ((xs.map Turn.request).flatMap Turn.events ++ tail))).tail
          = xs.map (fun x => messageStr x.reply) ++ outs tail := by
      rw [← filterMap_exchanges (f := sentOf) (fun _ => rfl)]
      exact List.filterMap_append ..
    have hcarried : (Happening.received (.ok raw) :: .sent (messageStr Session.welcome) r ::
        ((xs.map Turn.request).flatMap Turn.events ++ tail)).filterMap Session.carried
          = xs.map effect ++ tail.filterMap Session.carried := by
      rw [← filterMap_exchanges (f := Session.carried) (g := effect) (fun _ => rfl)]
      exact List.filterMap_append ..
    -- the last turn has called its operation, or not
    have hidle : tail.filterMap Session.carried = [] →
        (outs tail = [] ∨ ∃ raw, (ins tail)[0]? = some raw ∧ Quits raw) →
        Exchanges (.received (.ok raw) :: .sent (messageStr Session.welcome) r ::
          ((xs.map Turn.request).flatMap Turn.events ++ tail)) xs [] (outs tail) := by
      intro hc ho
      refine ⟨by simpa using hxs, by rw [hcarried, hc]; simp, ?_, houts, ?_⟩
      · rw [hins, List.append_nil]
        exact List.prefix_append _ _
      · refine ho.imp_right fun ⟨raw', hraw', hquits⟩ => ⟨raw', ?_, hquits⟩
        rw [hins, List.getElem?_append_right (by simp)]
        simpa using hraw'
    cases htail with
    | @replying k x hx =>
      refine ⟨xs, [x], [], ?_, by rw [hcarried, List.map_append]; rfl, ?_, houts, Or.inl rfl⟩
      · intro y hy
        rcases List.mem_append.mp hy with hy | hy
        · exact hxs y hy
        · rw [List.mem_singleton.mp hy]
          exact hx
      · rw [hins, List.map_append]
        exact List.prefix_rfl
    | left hraw => exact ⟨xs, [], _, hidle rfl (Or.inr ⟨_, rfl, hraw⟩)⟩
    | listening => exact ⟨xs, [], _, hidle rfl (Or.inl rfl)⟩
    | asked => exact ⟨xs, [], _, hidle rfl (Or.inl rfl)⟩
    | scolding => exact ⟨xs, [], _, hidle rfl (Or.inl rfl)⟩
    | leaving => exact ⟨xs, [], _, hidle rfl (Or.inl rfl)⟩
    | stopped => exact ⟨xs, [], _, hidle rfl (Or.inl rfl)⟩

/-! ### What is reported -/

/-- A reply is reported as what it is. -/
theorem reportOf_reply {reply : Message} (h : Session.Spoken reply) {text : Bytes} :
    ReportOf (messageStr reply) text ↔ report reply = some text := by
  have htext : MessageText Spelled reply (messageStr reply) :=
    h.text.2.1.text.2.mono fun _ _ => Digits.spelled
  constructor
  · rintro ⟨msg, hmsg, hreport⟩
    have hsame : Session.decoded (messageStr reply) = .ok msg := Session.decoded_iff.mpr hmsg
    rw [Session.decoded_iff.mpr htext] at hsame
    rwa [Except.ok.inj hsame]
  · exact fun hreport => ⟨reply, htext, hreport⟩

/-- QUIT is never reported, so every report is about an exchange. -/
theorem Exchanges.told_le {this : Client} {n : ℕ} {s : Seat} {p : Session.Proc Unit}
    (h : Linked this n s p) (hs : Sound s.ledger) {xs ys : List Exchange} {farewell : List Bytes}
    (hx : Exchanges s.past xs ys farewell) : s.ledger.told.length ≤ xs.length := by
  by_contra hlt
  rw [Nat.not_le] at hlt
  obtain ⟨h₁, h₂, h₃, h₄⟩ := h.lengths hs
  have hheard : s.ledger.heard ≠ [] := by
    intro hnil
    have hlen := hs.reports.length_eq
    rw [hnil, List.tail_nil, List.take_nil, List.length_nil] at hlen
    omega
  have hmore := hs.told_lt hheard
  have hsent := congrArg List.length hx.sent
  rw [List.length_tail, List.length_append, List.length_map] at hsent
  obtain ⟨raw, hraw, msg, htext, hquit⟩ := hx.farewell.resolve_left fun hnil => by
    rw [hnil, List.length_nil] at hsent
    omega
  -- the QUIT is one of the requests that have been reported
  obtain ⟨more, hmore'⟩ := h.wired.order
  have hasked : (texts s.ledger).tail[xs.length]? = some raw := by
    rw [← hmore', List.tail_append_of_ne_nil (fun hnil => by simp [hnil] at hraw),
      List.getElem?_append_left (List.getElem?_eq_some_iff.mp hraw).1]
    exact hraw
  rw [texts, ← List.map_tail, List.getElem?_map] at hasked
  obtain ⟨e, he, rfl⟩ := Option.map_eq_some_iff.mp hasked
  have hmem : e ∈ s.ledger.asked.tail.take s.ledger.told.length :=
    List.mem_of_getElem? (i := xs.length) (by rw [List.getElem?_take_of_lt hlt]; exact he)
  obtain ⟨m, -, hm, hne⟩ := hs.reported e hmem
  rw [hm] at htext
  exact hne ((Wire.type_unique htext).symm.trans hquit)

theorem told_replies {xs : List Exchange} (hxs : ∀ x ∈ xs, x.Holds) {told : List Bytes}
    (h : List.Forall₂ (fun x text => ReportOf (messageStr x.reply) text) xs told) :
    told.map some = xs.map fun x => report x.reply := by
  induction h with
  | nil => rfl
  | cons hreport _ ih =>
    have hspoken := (hxs _ List.mem_cons_self).spoken
    rw [List.map_cons, List.map_cons, ih fun x hx => hxs x (List.mem_cons_of_mem _ hx),
      (reportOf_reply hspoken).mp hreport]

theorem tail_begins {l l' : List Bytes} (h : l <+: l') : l.tail <+: l'.tail := by
  rw [← List.drop_one, ← List.drop_one]
  exact h.drop 1

theorem Exchanges.reports {this : Client} {n : ℕ} {s : Seat} {p : Session.Proc Unit}
    (h : Linked this n s p) (hs : Sound s.ledger) {xs ys : List Exchange} {farewell : List Bytes}
    (hx : Exchanges s.past xs ys farewell) :
    s.ledger.told.map some = ((xs ++ ys).take s.ledger.told.length).map fun x => report x.reply := by
  have hle := hx.told_le h hs
  have hreports := hs.reports
  have hlen := hreports.length_eq
  rw [List.length_take] at hlen
  obtain ⟨more, hmore⟩ := hx.sent ▸ tail_begins h.wired.heard
  have hheard : s.ledger.heard.tail.take s.ledger.told.length
      = (xs.take s.ledger.told.length).map fun x => messageStr x.reply := by
    have hmost : (s.ledger.heard.tail ++ more).take s.ledger.told.length
        = s.ledger.heard.tail.take s.ledger.told.length := List.take_append_of_le_length (by omega)
    rw [← hmost, hmore, List.take_append_of_le_length (by simpa using hle), List.map_take]
  rw [hheard, List.forall₂_map_left_iff] at hreports
  rw [List.take_append_of_le_length hle]
  exact told_replies (fun x hmem => hx.holds x (List.mem_append_left _ (List.mem_of_mem_take hmem)))
    hreports

/-- What has been carried out was asked for. -/
theorem Exchanges.carriesOut {this : Client} {n : ℕ} {s : Seat} {p : Session.Proc Unit}
    (h : Linked this n s p) (hs : Sound s.ledger) {xs ys : List Exchange} {farewell : List Bytes}
    (hx : Exchanges s.past xs ys farewell) :
    List.Forall₂ CarriesOut (xs ++ ys) (s.ledger.asked.tail.take (xs ++ ys).length) := by
  have hprefix : (xs ++ ys).map Exchange.raw <+: s.ledger.asked.tail.map Prod.snd := by
    rw [List.map_tail]
    exact hx.received.trans (tail_begins h.wired.order)
  have hlen := hprefix.length_le
  rw [List.length_map, List.length_map] at hlen
  have htexts : (xs ++ ys).map Exchange.raw
      = (s.ledger.asked.tail.take (xs ++ ys).length).map Prod.snd := by
    rw [List.map_take]
    simpa using List.prefix_iff_eq_take.mp hprefix
  have hall : List.Forall₂ (· = ·) ((xs ++ ys).map Exchange.raw)
      ((s.ledger.asked.tail.take (xs ++ ys).length).map Prod.snd) := by
    rw [List.forall₂_eq_eq_eq]
    exact htexts
  rw [List.forall₂_map_left_iff, List.forall₂_map_right_iff] at hall
  rw [List.forall₂_iff_get] at hall ⊢
  refine ⟨hall.1, fun i hi hi' => ?_⟩
  have hraw := hall.2 i hi hi'
  have hx' := hx.holds _ (List.get_mem (xs ++ ys) ⟨i, hi⟩)
  obtain ⟨m, hm, htext⟩ := hs.typed _ (List.mem_of_mem_take (List.get_mem _ ⟨i, hi'⟩))
  have hread := hx'.text
  rw [hraw] at hread
  refine ⟨hx', hraw, Session.decoded_iff.mpr hread, m, hm, htext, fun hsame => ?_, fun hplain => ?_⟩
  · exact hsame ▸ described_of_text hread
  · have hsame : MessageText Spelled m (messageStr m) :=
      (typed_sendable hm hplain).text.2.mono fun _ _ => Digits.spelled
    rw [htext] at hread
    exact Wire.text_unique hread hsame

/-- What the thread has called was asked for, and what is reported are the replies. -/
theorem Coupled.reports {this : Client} {n : ℕ} {s : Seat} (h : Coupled this n s) :
    ∃ xs : List Exchange,
      s.past.filterMap carried = xs.map effect ∧
      List.Forall₂ CarriesOut xs (s.ledger.asked.tail.take xs.length) ∧
      s.ledger.told.map some = (xs.take s.ledger.told.length).map (fun x => report x.reply) ∧
      s.ledger.asked.tail.length ≤ s.ledger.told.length + 1 := by
  obtain ⟨-, hs, hlink⟩ := h
  have hunreported : s.ledger.asked.tail.length ≤ s.ledger.told.length + 1 := by
    have := hs.unreported
    rw [List.length_tail]
    omega
  rcases hlink with hunlinked | ⟨p, -, -, hlinked⟩
  · have hheard : s.ledger.heard = [] := by
      have := hs.answered
      rw [hunlinked.asked, List.length_nil] at this
      exact List.length_eq_zero_iff.mp (by omega)
    have htold : s.ledger.told = [] := by
      have hreports := hs.reports
      rw [hheard, List.tail_nil, List.take_nil] at hreports
      exact List.forall₂_nil_left_iff.mp hreports
    exact ⟨[], by rw [hunlinked.past]; rfl, .nil, by rw [htold]; rfl, hunreported⟩
  · obtain ⟨xs, ys, farewell, hx⟩ : ∃ xs ys farewell, Exchanges s.past xs ys farewell := by
      rcases hlinked.course with hcourse | ⟨hpast, -⟩
      · refine course_exchanges hcourse (hlinked.not_display hs) fun raw hraw => ?_
        have hmem : raw ∈ (texts s.ledger).tail := (tail_begins hlinked.wired.order).subset hraw
        rw [texts, ← List.map_tail] at hmem
        obtain ⟨e, he, rfl⟩ := List.mem_map.mp hmem
        obtain ⟨m, hm, htext⟩ := hs.typed e he
        rw [htext]
        exact typed_expected hm
      · rw [hpast]
        exact ⟨[], [], [], fun x hx => absurd hx List.not_mem_nil, rfl, List.nil_prefix, rfl, Or.inl rfl⟩
    exact ⟨xs ++ ys, hx.carried, hx.carriesOut hlinked hs, hx.reports hlinked hs, hunreported⟩

/-- CORRECT: in every run of an updater and its thread, whatever other threads do in the server,
    however the transfers are cut into pieces or fail, and wherever one of the two ends: the operations
    that the thread calls are those of the texts sent for the commands typed, one by one and in their
    order, each called once and as the server carries it out; they are the commands typed exactly where no
    description has a separator in it; each report is the reply to its own command; and there is at most
    one request that has not been reported. -/
theorem updater_truthful {this : Client} {n m : ℕ} {argv : List Bytes} (hargv : argv ≠ [])
    {stdin : Bytes} {server : Server} (hgood : server.Good) {moves : List Move} {us : List Unit}
    {d : Dialogue}
    (h : (dialogue this n ⟨{ proc := main argv m, stdin }, server⟩).run moves = some (us, d)) :
    ∃ xs : List Exchange,
      d.seat.past.filterMap carried = xs.map effect ∧
      List.Forall₂ CarriesOut xs (d.seat.ledger.asked.tail.take xs.length) ∧
      d.seat.ledger.told.map some
        = (xs.take d.seat.ledger.told.length).map (fun x => report x.reply) ∧
      d.seat.ledger.asked.tail.length ≤ d.seat.ledger.told.length + 1 :=
  (run_coupled hgood (Coupled.begin hargv m stdin) h).2.reports

/-- An updater is refused an update, and says so. -/
theorem updater_truthful_refused :
    let argv := [ascii "updater", ascii "localhost", ascii "8080"]
    let stdin := ascii "alice\nfoobar\norder_update\n7\nDONE\n"
    let own : Move := .client true {}
    let carries (text : Bytes) : Weather := ⟨(frame text).map fun b => .data b [], false, []⟩
    let moves := [own, own, own, own, own, own,
      .thread .timeout (carries (ascii "LOGIN|UPDATER|alice/foobar")), .thread .timeout {},
      .client true (carries (ascii "OK|Login successful")), own, own, own, own, own,
      .thread .timeout (carries (ascii "ORDER_UPDATE|7|DONE")), .thread .timeout {}, .thread .timeout {},
      .client true (carries (ascii "ERROR|order not found")), own]
    ∃ us d, (dialogue 5 3 ⟨{ proc := main argv 3, stdin }, {}⟩).run moves = some (us, d) ∧
      d.seat.ledger.told = [ascii "Failure: order not found\n"] ∧
      ∃ xs : List Exchange,
        d.seat.past.filterMap carried = xs.map effect ∧
        List.Forall₂ CarriesOut xs (d.seat.ledger.asked.tail.take xs.length) ∧
        d.seat.ledger.told.map some
          = (xs.take d.seat.ledger.told.length).map (fun x => report x.reply) ∧
        d.seat.ledger.asked.tail.length ≤ d.seat.ledger.told.length + 1 := by
  intro argv stdin own carries moves
  have hrun : ((dialogue 5 3 ⟨{ proc := main argv 3, stdin }, {}⟩).run moves).map
      (fun p => p.2.seat.ledger.told) = some [ascii "Failure: order not found\n"] := by decide +kernel
  obtain ⟨⟨us, d⟩, hd, htold⟩ := Option.map_eq_some_iff.mp hrun
  exact ⟨us, d, hd, htold, updater_truthful (List.cons_ne_nil _ _) Server.good_init hd⟩

end Restaurant.Updater
