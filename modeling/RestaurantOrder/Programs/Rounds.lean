import RestaurantOrder.Programs.Ledger

/-! The rounds of the updater client.

    Behind the login come rounds: the prompt, the lines of a command, one request, its response, its
    report. A request is sent only when everything before it has been answered and reported, and it is
    what the lines ask for (`main_keeps`). So the ledger is `Sound` at every moment of every run: the
    reports are those of the responses, one by one, and at most one request is without a report. -/

namespace Restaurant.Updater
open Schemes Process Program ClientUtil
open Wire (MessageText messageStr)

/-- Between two commands: nothing is due, and every response to a request has been reported. -/
structure Ready (g : Ledger) : Prop where
  stage : g.stage = .calm
  welcomed : g.Welcomed
  told : g.told.length + 1 = g.heard.length

/-- The text is the request that the lines ask for. -/
def Requests (g : Ledger) (text : Bytes) : Prop :=
  Ready g ∧ ∃ m, Typed g.lines m ∧ text = messageStr m

/-- What was sent is the request that the lines ask for, and not QUIT. -/
def RequestOf (e : List Bytes × Bytes) : Prop :=
  ∃ m, Typed e.1 m ∧ e.2 = messageStr m ∧ m.type ≠ .quit

/-- The text reports the response that has just come. -/
def Reports (g : Ledger) (text : Bytes) : Prop :=
  g.stage = .calm ∧ g.told.length + 2 = g.heard.length ∧ (∀ e ∈ g.asked.getLast?, RequestOf e) ∧
    ∃ raw msg, g.heard.getLast? = some raw ∧ MessageText Spelled msg raw ∧ report msg = some text

/-- What the updater may do. -/
def Allowed (g : Ledger) (a : Act) : Prop :=
  Opens .updater g a ∨
    match a with
    | .print text => text = ascii "> " ∨ Reports g text
    | .send text => Requests g text
    | _ => False

/-! ### One round -/

theorem note_report {response : Message} {text : Bytes} (h : report response = some text)
    (g : Ledger) (r : Unit) : g.note (.print text) r = { g with told := g.told ++ [text] } := by
  have hhead : text.head? = some (byte 'S') ∨ text.head? = some (byte 'F') := by
    rw [report] at h
    split at h
    · obtain rfl := Option.some.inj h
      exact Or.inl rfl
    · split at h
      · obtain rfl := Option.some.inj h
        exact Or.inr rfl
      · cases h
  rw [Ledger.note, if_neg, if_neg]
  · rintro (rfl | rfl) <;> revert hhead <;> decide
  · rintro rfl
    revert hhead
    decide

theorem typed_hasFields {lines : List Bytes} {m : Message} (h : Typed lines m) :
    Wire.hasFields m := by
  cases h with
  | quit => exact rfl
  | @orderNew count countS its fields hcount hs hlen hits =>
    refine ⟨_, its, rfl, rfl, ?_⟩
    rintro rfl
    have hpos : (0 : Int32).toInt < count.toInt := Int32.lt_iff_toInt_lt.mp hcount
    rw [Int32.toInt_zero] at hpos
    rw [List.length_nil] at hlen
    omega
  | itemUpdate hk hks hi his hst =>
    exact ⟨decide_eq_true (Wire.zero_le_of_pos hk), decide_eq_true (Wire.zero_le_of_pos hi),
      decide_eq_true hst⟩
  | orderUpdate hk hks hst =>
    exact ⟨decide_eq_true (Wire.zero_le_of_pos hk), decide_eq_true hst⟩

theorem receive_allowed (g : Ledger) (h : g.stage = .waiting) : Allowed g .receive := Or.inl h

theorem getline_allowed (g : Ledger) : Allowed g .getline := Or.inl trivial

theorem Ready.reads {g : Ledger} (h : Ready g) (lines : List Bytes) : Ready (g.reads lines) :=
  ⟨h.stage, h.welcomed, h.told⟩

/-- How the handler of a command ends: ready for the next one, or with an exception. -/
def Handled (r : Cpp Unit) (g : Ledger) : Prop :=
  match r with
  | .ok _ => Ready g
  | .error (.throws _) => g.Idle
  | .error .undefined => False

/-- A request that the lines ask for is sent, and its response is reported. -/
theorem request_keeps {g : Ledger} (hg : Ready g) {m : Message} (hm : Typed g.lines m)
    (hquit : m.type ≠ .quit) : Keeps (bookkeeping Allowed) Handled (do
      let response ← sendRequestReceiveResponse m
      printResultResponse response) g := by
  refine Keeps.bind ((sendRequestReceiveResponse_keeps (typed_hasFields hm)
    (Or.inr ⟨hg, m, hm, rfl⟩) receive_allowed).mono ?_)
  rintro ((e | _) | response) g' hend
  · exact hend.1
  · exact hend
  obtain ⟨raw, htext, rfl⟩ := hend
  obtain ⟨raw₀, rest, msg₀, hheard, htext₀, hok⟩ := hg.welcomed
  have hready : ∀ text, report response = some text → Keeps (bookkeeping Allowed) Handled (cout text)
      (g.answers (messageStr m) raw) := by
    intro text htold
    have hlen := hg.told
    refine ⟨Or.inr (Or.inr ⟨rfl, ?_, ?_, raw, response, List.getLast?_concat, htext, htold⟩), fun r _ => ?_⟩
    · simp only [Ledger.answers, List.length_append, List.length_singleton]
      omega
    · intro e he
      obtain rfl := Option.some.inj (List.getLast?_concat.symm.trans he)
      exact ⟨m, hm, rfl, hquit⟩
    rw [show (bookkeeping Allowed).next _ _ r = _ from note_report htold _ r]
    refine ⟨rfl, ⟨raw₀, rest ++ [raw], msg₀, by simp [Ledger.answers, hheard], htext₀, hok⟩, ?_⟩
    simp only [Ledger.answers, List.length_append, List.length_singleton]
    omega
  show Keeps _ _ (printResultResponse response) _
  rw [printResultResponse]
  split
  · next ht => exact hready _ (by rw [report, if_pos ht])
  · next ht =>
    split
    · next ht' => exact hready _ (by rw [report, if_neg ht, if_pos ht'])
    · exact Or.inl rfl

/-! ### The commands -/

/-- A field that must be a positive integer. -/
theorem keeps_positive {β : Type} {s field : Bytes} {f : Int32 → Proc β}
    {Q : Cpp β → Ledger → Prop} {g : Ledger}
    (hf : ∀ n, 0 < n → Spelled n s → Keeps (bookkeeping Allowed) Q (f n) g)
    (hthrow : ∀ e, Q (raise e) g) :
    Keeps (bookkeeping Allowed) Q (liftM (ClientUtil.parsePositiveInt s field) >>= f) g := by
  rcases ClientUtil.parsePositiveInt_cases s field with ⟨n, h, hn, hs⟩ | h <;> rw [h]
  · exact hf n hn hs
  · exact hthrow _

/-- The loop reads three lines an item, and makes the items that are typed there. -/
theorem readItems_keeps (left : ℕ) (order : Order) {g : Ledger} (hcalm : g.stage = .calm) :
    Keeps (bookkeeping Allowed) (fun r g' => match r with
      | .ok order' => ∃ its fields, its.length = left ∧ List.Forall₂ ItemTyped its fields ∧
          order' = { order with items := order.items ++ its.map some } ∧
          g' = g.reads fields.flatten
      | .error (.throws _) => g'.Idle
      | .error .undefined => False) (readItems order left) g := by
  induction left generalizing order g with
  | zero => exact ⟨[], [], rfl, .nil, by simp, by simp [Ledger.reads]⟩
  | succ left ih =>
    refine keeps_getline (getline_allowed _) fun idS => ?_
    refine keeps_getline (getline_allowed _) fun desc => ?_
    refine keeps_getline (getline_allowed _) fun qtyS => ?_
    refine keeps_positive (fun id hid hids => ?_) fun e => Or.inl hcalm
    refine keeps_positive (fun qty hqty hqtys => ?_) fun e => Or.inl hcalm
    rw [reads_reads, reads_reads]
    refine (ih (g := g.reads [idS, desc, qtyS]) _ hcalm).mono ?_
    rintro ((e | _) | order') g' h
    · exact h
    · exact h
    obtain ⟨its, fields, rfl, hits, rfl, rfl⟩ := h
    let item : Item := { orderId := 1, id := id, status := .new, desc := desc, qty := qty }
    have hitem : ItemTyped item [idS, desc, qtyS] := ⟨idS, qtyS, rfl, hid, hids, hqty, hqtys, rfl, rfl⟩
    refine ⟨item :: its, [idS, desc, qtyS] :: fields, rfl, .cons hitem hits, ?_, reads_reads ..⟩
    simp [Order.addItem, item]

theorem handleOrderNew_keeps {g : Ledger} (hg : Ready g) (hlines : g.lines = [ascii "order_new"]) :
    Keeps (bookkeeping Allowed) Handled handleOrderNew g := by
  refine keeps_getline (getline_allowed _) fun countS => ?_
  refine keeps_positive (fun count hcount hs => ?_) fun e => Or.inl hg.stage
  refine Keeps.bind ((readItems_keeps _ _ (g := g.reads [countS]) hg.stage).mono ?_)
  rintro ((e | _) | order) g' h
  · exact h
  · exact h
  obtain ⟨its, fields, hlen, hits, rfl, rfl⟩ := h
  rw [reads_reads]
  refine request_keeps (hg.reads _) ?_ nofun
  rw [Ledger.reads, hlines]
  exact .orderNew hcount hs hlen hits

theorem handleItemUpdate_keeps {g : Ledger} (hg : Ready g)
    (hlines : g.lines = [ascii "item_update"]) :
    Keeps (bookkeeping Allowed) Handled handleItemUpdate g := by
  refine keeps_getline (getline_allowed _) fun k => ?_
  refine keeps_getline (getline_allowed _) fun i => ?_
  refine keeps_getline (getline_allowed _) fun status => ?_
  refine keeps_positive (fun orderId hk hks => ?_) fun e => Or.inl hg.stage
  refine keeps_positive (fun itemId hi his => ?_) fun e => Or.inl hg.stage
  refine keeps_unless (Or.inl hg.stage) fun hst => ?_
  rw [reads_reads, reads_reads]
  have hname : Wire.itemStatusToStr (Wire.strToItemStatus status) = status :=
    Wire.itemStatusNames.print_parse hst
  have htyped := Typed.itemUpdate hk hks hi his hst
  rw [hname] at htyped
  refine request_keeps (hg.reads _) ?_ nofun
  rw [Ledger.reads, hlines]
  exact htyped

theorem handleOrderUpdate_keeps {g : Ledger} (hg : Ready g)
    (hlines : g.lines = [ascii "order_update"]) :
    Keeps (bookkeeping Allowed) Handled handleOrderUpdate g := by
  refine keeps_getline (getline_allowed _) fun k => ?_
  refine keeps_getline (getline_allowed _) fun status => ?_
  refine keeps_positive (fun orderId hk hks => ?_) fun e => Or.inl hg.stage
  refine keeps_unless (Or.inl hg.stage) fun hst => ?_
  rw [reads_reads]
  have hname : Wire.orderStatusToStr (Wire.strToOrderStatus status) = status :=
    Wire.orderStatusNames.print_parse hst
  have htyped := Typed.orderUpdate hk hks hst
  rw [hname] at htyped
  refine request_keeps (hg.reads _) ?_ nofun
  rw [Ledger.reads, hlines]
  exact htyped

/-- The updater may end for any reason. -/
abbrev Done {α : Type} (r : Cpp α) (g : Ledger) : Prop := Stopped (fun _ => True) r g

/-- QUIT is sent, and its response is not reported. -/
theorem handleQuit_keeps {g : Ledger} (hg : Ready g) (hlines : g.lines = [ascii "quit"]) :
    Keeps (bookkeeping Allowed) Done handleQuit g := by
  have htyped : Typed g.lines (.ofStr .quit (ascii "quit")) := hlines ▸ .quit
  refine Keeps.bind ((sendRequestReceiveResponse_keeps (typed_hasFields htyped)
    (Or.inr ⟨hg, _, htyped, rfl⟩) receive_allowed).mono ?_)
  rintro ((e | _) | response) g' hend
  · exact ⟨hend.1, trivial, nofun⟩
  · exact hend.elim
  obtain ⟨raw, -, rfl⟩ := hend
  by_cases hok : response.type = .ok
  · simp only [hok, ne_eq, not_true_eq_false, if_false]
    exact ⟨Or.inl rfl, trivial, nofun⟩
  · simp only [hok, ne_eq, not_false_eq_true, if_true]
    exact ⟨Or.inl rfl, trivial, nofun⟩

/-- How a turn ends: ready for the next one, or with the session. -/
def Turned (r : Cpp Bool) (g : Ledger) : Prop :=
  match r with
  | .ok goOn => if goOn then Ready g else Done (.ok () : Cpp Unit) g
  | .error e => Done (.error e : Cpp Unit) g

theorem goesOn_keeps {p : Proc Unit} {g : Ledger} (hp : Keeps (bookkeeping Allowed) Handled p g) :
    Keeps (bookkeeping Allowed) Turned (p >>= fun _ => (return true : Proc Bool)) g := by
  refine Keeps.bind (hp.mono ?_)
  rintro ((e | _) | ⟨⟩) g' h
  · exact ⟨h, trivial, nofun⟩
  · exact h.elim
  · exact h

theorem commandTurn_keeps {g : Ledger} (hg : Ready g) :
    Keeps (bookkeeping Allowed) Turned commandTurn g := by
  refine ⟨Or.inr (Or.inl rfl), fun _ _ => ⟨getline_allowed _, fun line _ => ?_⟩⟩
  cases line with
  | none => exact ⟨Or.inl hg.stage, trivial, nofun⟩
  | some command =>
    have hready : Ready { g with lines := [command] } := ⟨hg.stage, hg.welcomed, hg.told⟩
    show Keeps _ _ (if command = ascii "quit" then _ else _) ({ g with lines := [command] } : Ledger)
    split
    · next hquit =>
      refine Keeps.bind ((handleQuit_keeps hready (by rw [hquit])).mono ?_)
      rintro ((e | _) | ⟨⟩) g' h
      · exact ⟨h.1, trivial, nofun⟩
      · exact absurd rfl h.2.2
      · exact h
    split
    · next hnew => exact goesOn_keeps (handleOrderNew_keeps hready (by rw [hnew]))
    split
    · next hitem => exact goesOn_keeps (handleItemUpdate_keeps hready (by rw [hitem]))
    split
    · next horder => exact goesOn_keeps (handleOrderUpdate_keeps hready (by rw [horder]))
    · exact hready

theorem commands_keep (n : ℕ) {g : Ledger} (hg : g.Begun) :
    Keeps (bookkeeping Allowed) Done (loop commandTurn n) g := by
  have hready : Ready g := ⟨hg.stage, hg.welcomed, by rw [hg.told, hg.heard]; rfl⟩
  refine Keeps.loop (I := Ready) (fun g' hg' => (commandTurn_keeps hg').mono ?_) n hready
  rintro (e | goOn) g'' h
  · exact h
  · exact h

/-- The updater does what its ledger allows, closes what it opens, and returns from `main`. -/
theorem main_keeps {argv : List Bytes} (hargv : argv ≠ []) (n : ℕ) :
    Keeps (bookkeeping Allowed) (Returned fun _ => True) (main argv n) {} :=
  clientMain_keeps (show ClientMode.updater ≠ .invalid by decide) (fun _ _ h => Or.inl h) reason_any
    (fun _ hg => commands_keep n hg) hargv

/-! ### Sound ledgers -/

/-- The text reports the response. -/
def ReportOf (raw text : Bytes) : Prop :=
  ∃ msg, MessageText Spelled msg raw ∧ report msg = some text

/-- What is true of the ledger of an updater at every moment. -/
structure Sound (g : Ledger) : Prop where
  login : ∀ e ∈ g.asked.head?, ∃ user pass, e.1 = [user, pass] ∧
    e.2 = messageStr (.ofLogin .login .updater (user ++ ascii "/" ++ pass))
  typed : ∀ e ∈ g.asked.tail, ∃ m, Typed e.1 m ∧ e.2 = messageStr m
  reports : List.Forall₂ ReportOf (g.heard.tail.take g.told.length) g.told
  reported : ∀ e ∈ g.asked.tail.take g.told.length, RequestOf e
  unreported : g.asked.length ≤ g.told.length + 2
  answered : g.heard.length ≤ g.asked.length
  pending : g.asked.length ≤ g.heard.length + 1
  outside : g.stage = .outside → g.asked = []
  calm : g.stage = .calm → g.asked.length = g.heard.length
  waiting : g.stage = .waiting → g.asked.length = g.heard.length + 1

theorem sound_nil : Sound {} :=
  ⟨by simp, by simp, .nil, by simp, by simp, by simp, by simp, fun _ => rfl, fun _ => rfl, nofun⟩

theorem Sound.told_lt {g : Ledger} (h : Sound g) (hheard : g.heard ≠ []) :
    g.told.length < g.heard.length := by
  have hlen := h.reports.length_eq
  have hpos := List.length_pos_of_ne_nil hheard
  rw [List.length_take, List.length_tail] at hlen
  omega

/-- The login is sent first. -/
theorem Sound.asks_login {g : Ledger} (h : Sound g) (hcalm : g.stage = .calm) {text : Bytes}
    (hlogin : g.LogsIn .updater text) {stage : Stage} {failed : Bool} (hne : stage ≠ .outside)
    (hnc : stage ≠ .calm) :
    Sound { g with stage, failed, asked := g.asked ++ [(g.lines, text)] } := by
  obtain ⟨hasked, user, pass, hlines, rfl⟩ := hlogin
  have hheard : g.heard.length = 0 := by rw [← h.calm hcalm, hasked]; rfl
  refine ⟨?_, ?_, h.reports, ?_, ?_, ?_, ?_, fun hs => absurd hs hne, fun hs => absurd hs hnc,
    fun _ => ?_⟩
  · simp [hasked, hlines]
  · simp [hasked]
  · simp [hasked]
  · simp [hasked]
  · simp [hheard]
  · simp [hasked]
  · simp [hasked, hheard]

/-- A request is sent when there is nothing left to report. -/
theorem Sound.asks_request {g : Ledger} (h : Sound g) {text : Bytes} (hreq : Requests g text)
    {stage : Stage} {failed : Bool} (hne : stage ≠ .outside) (hnc : stage ≠ .calm) :
    Sound { g with stage, failed, asked := g.asked ++ [(g.lines, text)] } := by
  obtain ⟨hready, m, hm, rfl⟩ := hreq
  have hlen := h.calm hready.stage
  have htold := hready.told
  have hcons : g.asked ≠ [] := fun hnil => by rw [hnil, List.length_nil] at hlen; omega
  refine ⟨?_, ?_, h.reports, ?_, ?_, ?_, ?_, fun hs => absurd hs hne, fun hs => absurd hs hnc,
    fun _ => ?_⟩
  · rw [List.head?_append_of_ne_nil _ hcons]
    exact h.login
  · rw [List.tail_append_of_ne_nil hcons]
    intro e he
    rcases List.mem_append.mp he with he | he
    · exact h.typed e he
    · obtain rfl := List.mem_singleton.mp he
      exact ⟨m, hm, rfl⟩
  · have hle : g.told.length ≤ g.asked.tail.length := by rw [List.length_tail]; omega
    rw [List.tail_append_of_ne_nil hcons, List.take_append_of_le_length hle]
    exact h.reported
  all_goals
    simp only [List.length_append, List.length_singleton]
    omega

/-- A response that comes leaves the earlier reports as they are. -/
theorem Sound.reports_hear {g : Ledger} (h : Sound g) (raw : Bytes) :
    List.Forall₂ ReportOf ((g.heard ++ [raw]).tail.take g.told.length) g.told := by
  have hlen := h.reports.length_eq
  rw [List.length_take] at hlen
  rcases hheard : g.heard with _ | ⟨raw₀, rest⟩
  · rw [hheard, List.tail_nil, List.length_nil, Nat.min_zero] at hlen
    rw [List.length_eq_zero_iff.mp hlen.symm]
    exact .nil
  · have hreports := h.reports
    rw [hheard, List.tail_cons] at hlen hreports
    rw [List.cons_append, List.tail_cons, List.take_append_of_le_length (by omega)]
    exact hreports

/-- The report of the last response. -/
theorem Sound.reports_tell {g : Ledger} (h : Sound g) {text : Bytes} (hreport : Reports g text) :
    List.Forall₂ ReportOf (g.heard.tail.take (g.told ++ [text]).length) (g.told ++ [text]) := by
  obtain ⟨-, hlen, -, raw, msg, hlast, htext, hmsg⟩ := hreport
  obtain ⟨init, hheard⟩ := List.getLast?_eq_some_iff.mp hlast
  have hreports := h.reports
  rw [hheard, List.length_append, List.length_singleton] at hlen
  have hne : init ≠ [] := fun hnil => by rw [hnil, List.length_nil] at hlen; omega
  have htail : init.tail.length = g.told.length := by rw [List.length_tail]; omega
  rw [hheard, List.tail_append_of_ne_nil hne] at hreports ⊢
  rw [List.take_append_of_le_length htail.ge, List.take_of_length_le htail.le] at hreports
  rw [List.take_of_length_le (by simp [htail])]
  exact List.rel_append hreports (.cons ⟨msg, htext, hmsg⟩ .nil)

theorem Sound.reported_tell {g : Ledger} (h : Sound g) {text : Bytes} (hreport : Reports g text) :
    ∀ e ∈ g.asked.tail.take (g.told ++ [text]).length, RequestOf e := by
  obtain ⟨hcalm, hlen, hlast, -⟩ := hreport
  have hasked := h.calm hcalm
  obtain ⟨init, e, hinit⟩ : ∃ init e, g.asked = init ++ [e] := by
    rcases List.eq_nil_or_concat' g.asked with hnil | ⟨init, e, h⟩
    · rw [hnil, List.length_nil] at hasked
      omega
    · exact ⟨init, e, h⟩
  have hreported := h.reported
  rw [hinit, List.length_append, List.length_singleton] at hasked
  have hne : init ≠ [] := fun hnil => by rw [hnil, List.length_nil] at hasked; omega
  have htail : init.tail.length = g.told.length := by rw [List.length_tail]; omega
  rw [hinit, List.tail_append_of_ne_nil hne] at hreported ⊢
  rw [List.take_append_of_le_length htail.ge, List.take_of_length_le htail.le] at hreported
  rw [List.take_of_length_le (by simp [htail])]
  intro e' he'
  rcases List.mem_append.mp he' with he' | he'
  · exact hreported e' he'
  · rw [List.mem_singleton.mp he']
    exact hlast e (by rw [hinit, List.getLast?_concat]; rfl)

/-- What is allowed keeps the ledger sound, whatever comes of it. -/
theorem Sound.note {g : Ledger} (h : Sound g) {a : Act} (ha : Allowed g a) (r : a.Answer) :
    Sound (g.note a r) := by
  cases a with
  | openClientfd hostname port =>
    have houtside : g.stage = .outside := by
      rcases ha with ha | ha
      · exact ha
      · exact ha.elim
    have hasked := h.outside houtside
    have hheard : g.heard.length = 0 := by
      have := h.answered
      rw [hasked, List.length_nil] at this
      omega
    cases r with
    | false => exact { h with outside := nofun, calm := nofun, waiting := nofun }
    | true =>
      exact { h with
        outside := nofun, calm := fun _ => (congrArg _ hasked).trans hheard.symm, waiting := nofun }
  | getline => exact { h with }
  | complain text => exact h
  | close => exact { h with outside := nofun, calm := nofun, waiting := nofun }
  | send text =>
    have hcalm : g.stage = .calm := by
      rcases ha with ⟨hcalm, -⟩ | ⟨hready, -⟩
      · exact hcalm
      · exact hready.stage
    rcases r with e | ⟨⟩
    · rcases ha with ⟨-, hlogin⟩ | hreq
      · exact h.asks_login hcalm hlogin nofun nofun
      · exact h.asks_request hreq nofun nofun
    · rcases ha with ⟨-, hlogin⟩ | hreq
      · exact h.asks_login hcalm hlogin nofun nofun
      · exact h.asks_request hreq nofun nofun
  | receive =>
    have hwaiting : g.stage = .waiting := by
      rcases ha with ha | ha
      · exact ha
      · exact ha.elim
    have hlen := h.waiting hwaiting
    rcases r with e | raw
    · exact { h with outside := nofun, calm := nofun, waiting := nofun }
    · refine { h with
        reports := h.reports_hear raw, answered := ?_, pending := ?_, outside := nofun,
        calm := fun _ => ?_, waiting := nofun }
      all_goals
        simp only [Ledger.note, List.length_append, List.length_singleton]
        omega
  | print text =>
    rcases ha with ⟨-, hprompt⟩ | rfl | hreport
    · rw [note_prompt hprompt]
      exact h
    · exact { h with }
    · obtain ⟨-, -, -, raw, msg, -, -, hmsg⟩ := id hreport
      rw [note_report hmsg]
      refine { h with
        reports := h.reports_tell hreport, reported := h.reported_tell hreport, unreported := ?_ }
      have := h.unreported
      simp only [List.length_append, List.length_singleton]
      omega

end Restaurant.Updater
