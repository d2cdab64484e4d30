import RestaurantOrder.Programs.Display

/-! What the display program shows is what it has heard.

    The screens that are printed are those of the texts received, each printed to its end before the
    next text is received (`main_keeps`). The program ends only when a transfer has failed, when its
    login was refused, or with a text that does not fit what it has heard before. -/

namespace Restaurant.Display
open Schemes Process Program ClientUtil
open Wire (MessageText)

/-- The login was answered, and what was heard since then makes these orders and these prints. -/
structure Watches (g : Ledger) (orders : Orders) (printed : List Bytes) : Prop where
  stage : g.stage = .calm
  welcomed : g.Welcomed
  watched : watched g.heard.tail = .ok (orders, printed)

/-- The text is printed next. -/
def Shows (g : Ledger) (text : Bytes) : Prop :=
  ∃ orders printed, Watches g orders printed ∧ text ∈ printed ∧ g.told ++ [text] <+: printed

/-- What the display may do. -/
def Allowed (g : Ledger) (a : Act) : Prop :=
  Opens .display g a ∨
    match a with
    | .print text => Shows g text
    | .receive => ∃ orders, Watches g orders g.told
    | _ => False

/-- Why it may end. -/
def Ended (g : Ledger) : Prop :=
  g.failed = true ∨ ¬g.Welcomed ∨ ∀ w, watched g.heard.tail ≠ .ok w

theorem reason_ended : Reason Ended :=
  ⟨fun _ _ h => h, fun _ h => Or.inl h, fun _ h => Or.inr (Or.inl h)⟩

/-! ### The handlers -/

def FullOrders (orders : Orders) : Prop :=
  ∀ (k : Int32) (o : Order), orders[k]? = some o → o.Full

theorem fullOrders_empty : FullOrders ∅ := fun k o h => by simp at h

theorem FullOrders.insert {orders : Orders} (h : FullOrders orders) {o : Order} (ho : o.Full)
    (k : Int32) : FullOrders (orders.insert k o) := by
  intro k' o' h'
  rw [Std.ExtTreeMap.getElem?_insert] at h'
  split at h'
  · obtain rfl := Option.some.inj h'
    exact ho
  · exact h k' o' h'

theorem FullOrders.erase {orders : Orders} (h : FullOrders orders) (k : Int32) :
    FullOrders (orders.erase k) := by
  intro k' o' h'
  rw [Std.ExtTreeMap.getElem?_erase] at h'
  split at h'
  · cases h'
  · exact h k' o' h'

theorem message_full {msg : Message} {raw : Bytes} (h : MessageText Spelled msg raw) : msg.Full := by
  cases h with
  | order ht ho => exact Wire.full_of_order ho
  | _ => exact Message.full_of_none rfl

/-- On orders without null items, a handler goes through or throws, and leaves such orders. -/
theorem handle_ends {orders : Orders} (h : FullOrders orders) {msg : Message} (hmsg : msg.Full) :
    Ends (handle orders msg) FullOrders (fun _ => True) := by
  unfold handle
  split
  · rw [handleDispOrder]
    cases ho : msg.order with
    | none => trivial
    | some o =>
      simp only [Order.duplicate, Order.copy_full (hmsg o ho)]
      exact h.insert (hmsg o ho) _
  · rw [handleDispItemUpdate]
    split
    · trivial
    · cases ho : orders[msg.orderId]? with
      | none => trivial
      | some o =>
        obtain ⟨its, hits⟩ := h _ o ho
        simp only [Order.findItem, hits, Order.findLoop_full]
        cases its.findIdx? fun it => decide (it.id = msg.itemId) with
        | none => trivial
        | some i => exact h.insert ⟨_, Order.setItemStatus_full hits i _⟩ _
  · rw [handleDispOrderUpdate]
    split
    · trivial
    · cases ho : orders[msg.orderId]? with
      | none => trivial
      | some o =>
        simp only
        split
        · exact h.erase _
        · have hset : (o.setStatus msg.orderStatus).Full := h _ o ho
          exact h.insert hset _
  · exact h
  · trivial

/-! ### Printing -/

/-- How the texts of a screen begin. -/
def OnScreen (text : Bytes) : Prop :=
  text.head? = some 27 ∨ text.head? = some (byte 'O') ∨ text.head? = some (byte ' ')

theorem screen_texts {orders : Orders} {text : Bytes} (h : text ∈ screen orders) : OnScreen text := by
  rw [screen, List.mem_cons, List.mem_flatMap] at h
  rcases h with rfl | ⟨⟨k, o⟩, -, h⟩
  · exact Or.inl rfl
  rw [orderLines, List.mem_cons, List.mem_flatMap] at h
  rcases h with rfl | ⟨it, -, h⟩
  · exact Or.inr (Or.inl rfl)
  · rw [itemLines, List.mem_pair] at h
    rcases h with rfl | rfl <;> exact Or.inr (Or.inr rfl)

theorem hearText_ok {w w' : Orders × List Bytes} {raw : Bytes} (h : hearText w raw = .ok w') :
    ∃ msg, MessageText Spelled msg raw ∧ handle w.1 msg = .ok w'.1 ∧
      w'.2 = if msg.type = .dispHeartbeat then w.2 else w.2 ++ screen w'.1 := by
  rw [hearText] at h
  rcases Session.decoded_cases raw with ⟨msg, hmsg, htext⟩ | ⟨what, hmsg⟩ <;> rw [hmsg] at h
  · refine ⟨msg, htext, ?_⟩
    rw [Schemes.ok_bind] at h
    cases hh : handle w.1 msg with
    | error e => rw [hh] at h; cases h
    | ok orders =>
      rw [hh] at h
      obtain rfl := Except.ok.inj h
      exact ⟨rfl, rfl⟩
  · cases h

/-- What is printed are screens, and the orders on them have no null items. -/
theorem watched_screens {texts : List Bytes} {w : Orders × List Bytes} (h : watched texts = .ok w) :
    FullOrders w.1 ∧ ∀ text ∈ w.2, ∃ orders, text ∈ screen orders := by
  induction texts using List.reverseRecOn generalizing w with
  | nil =>
    obtain rfl := Except.ok.inj h
    exact ⟨fullOrders_empty, fun text htext => ⟨∅, htext⟩⟩
  | append_singleton texts raw ih =>
    rw [watched, List.foldlM_append] at h
    cases hw : watched texts with
    | error e =>
      rw [watched] at hw
      rw [hw] at h
      cases h
    | ok w₀ =>
      obtain ⟨hfull, hscreens⟩ := ih hw
      rw [watched] at hw
      rw [hw, Schemes.ok_bind, List.foldlM_cons] at h
      cases hh : hearText w₀ raw with
      | error e => rw [hh] at h; cases h
      | ok w₁ =>
        rw [hh] at h
        obtain rfl := Except.ok.inj h
        obtain ⟨msg, htext, hhandle, hprinted⟩ := hearText_ok hh
        have hends := handle_ends hfull (message_full htext)
        rw [hhandle] at hends
        refine ⟨hends, fun text hmem => ?_⟩
        rw [hprinted] at hmem
        split at hmem
        · exact hscreens text hmem
        · rcases List.mem_append.mp hmem with hmem | hmem
          · exact hscreens text hmem
          · exact ⟨_, hmem⟩

/-- No text of a screen is a prompt. -/
theorem note_onScreen {text : Bytes} (h : OnScreen text) (g : Ledger) (r : Unit) :
    g.note (.print text) r = { g with told := g.told ++ [text] } := by
  rw [OnScreen] at h
  rw [Ledger.note, if_neg, if_neg]
  · rintro (rfl | rfl) <;> revert h <;> decide
  · rintro rfl
    revert h
    decide

theorem note_shows {g : Ledger} {text : Bytes} (h : Shows g text) (r : Unit) :
    g.note (.print text) r = { g with told := g.told ++ [text] } := by
  obtain ⟨orders, printed, hw, hmem, -⟩ := h
  obtain ⟨orders', hscreen⟩ := (watched_screens hw.watched).2 text hmem
  exact note_onScreen (screen_texts hscreen) g r

/-- A screen is printed text by text. -/
theorem printAll_keeps {texts printed : List Bytes} {orders : Orders} {g : Ledger}
    (hw : Watches g orders printed) (hprinted : g.told ++ texts = printed)
    {Q : Cpp Unit → Ledger → Prop} (hQ : Q (.ok ()) { g with told := printed }) :
    Keeps (bookkeeping Allowed) Q (printAll texts) g := by
  induction texts generalizing g with
  | nil =>
    rw [List.append_nil] at hprinted
    subst hprinted
    exact hQ
  | cons text texts ih =>
    have hshows : Shows g text := by
      refine ⟨orders, printed, hw, ?_, texts, ?_⟩
      · rw [← hprinted]
        simp
      · rw [← hprinted, List.append_assoc]
        rfl
    refine ⟨Or.inr hshows, fun r _ => ?_⟩
    rw [show (bookkeeping Allowed).next g (.print text) r = _ from note_shows hshows r]
    exact ih (g := { g with told := g.told ++ [text] }) ⟨hw.stage, hw.welcomed, hw.watched⟩
      (by rw [← hprinted, List.append_assoc]; rfl) hQ

/-! ### The main loop -/

theorem welcomed_tail {g : Ledger} (h : g.Welcomed) (raw : Bytes) :
    (g.heard ++ [raw]).tail = g.heard.tail ++ [raw] := by
  obtain ⟨raw₀, rest, -, hheard, -⟩ := h
  rw [hheard]
  rfl

theorem welcomed_concat {g g' : Ledger} (h : g.Welcomed) {raw : Bytes}
    (hheard : g'.heard = g.heard ++ [raw]) : g'.Welcomed := by
  obtain ⟨raw₀, rest, msg, hheard₀, htext, hok⟩ := h
  exact ⟨raw₀, rest ++ [raw], msg, by rw [hheard, hheard₀]; rfl, htext, hok⟩

theorem watched_concat {texts : List Bytes} {w : Orders × List Bytes} (h : watched texts = .ok w)
    (raw : Bytes) : watched (texts ++ [raw]) = hearText w raw := by
  rw [watched, List.foldlM_append]
  rw [watched] at h
  rw [h, Schemes.ok_bind, List.foldlM_cons]
  cases hearText w raw <;> rfl

/-- A turn shows what has come, or ends the program with it. -/
theorem watchTurn_keeps {g : Ledger} {orders : Orders} (hw : Watches g orders g.told) :
    Keeps (bookkeeping Allowed) (fun r g' => match r with
      | .ok orders' => Watches g' orders' g'.told
      | .error e => Stopped Ended (.error e : Cpp Unit) g') (watchTurn orders) g := by
  have hfull : FullOrders orders := (watched_screens hw.watched).1
  refine ⟨Or.inr ⟨orders, hw⟩, fun r _ => ?_⟩
  rcases r with e | raw
  · exact ⟨Or.inr rfl, Or.inl rfl, nofun⟩
  have hheard := welcomed_tail hw.welcomed raw
  have hnext : watched (g.heard ++ [raw]).tail = hearText (orders, g.told) raw := by
    rw [hheard]
    exact watched_concat hw.watched raw
  -- the ledger has the text now, and its stage is calm as before
  have hstop : ∀ e, hearText (orders, g.told) raw = raise e →
      Stopped Ended (raise e : Cpp Unit) (g.note .receive (.ok raw)) := by
    intro e he
    refine ⟨Or.inl rfl, Or.inr (Or.inr fun w hwatched => ?_), nofun⟩
    cases hwatched.symm.trans (hnext.trans he)
  show Keeps _ _ (done (Session.decoded raw) >>= _) (g.note .receive (.ok raw))
  rcases Session.decoded_cases raw with ⟨msg, hmsg, htext⟩ | ⟨what, hmsg⟩ <;> rw [hmsg]
  case inr => exact hstop _ (by rw [hearText, hmsg]; rfl)
  have hends := handle_ends hfull (message_full htext)
  rw [Process.ok_bind]
  rcases hhandle : handle orders msg with (e | _) | orders'
  · exact hstop _ (by rw [hearText, hmsg, Schemes.ok_bind, hhandle]; rfl)
  · rw [hhandle] at hends
    exact hends.elim
  rw [hhandle] at hends
  have hhear : hearText (orders, g.told) raw
      = .ok (orders', if msg.type = .dispHeartbeat then g.told else g.told ++ screen orders') := by
    rw [hearText, hmsg, Schemes.ok_bind, hhandle]
    rfl
  have hwatches : Watches (g.note .receive (.ok raw)) orders'
      (if msg.type = .dispHeartbeat then g.told else g.told ++ screen orders') :=
    ⟨rfl, welcomed_concat hw.welcomed rfl, hnext.trans hhear⟩
  rw [lift_eq_done, Process.ok_bind]
  by_cases hbeat : msg.type = .dispHeartbeat
  · rw [if_pos hbeat] at hwatches
    simp only [hbeat, ne_eq, not_true_eq_false, if_false]
    exact hwatches
  · rw [if_neg hbeat] at hwatches
    simp only [hbeat, ne_eq, not_false_eq_true, if_true, refreshDisplay_full hends]
    refine Keeps.bind (printAll_keeps hwatches rfl ?_)
    exact ⟨hwatches.stage, hwatches.welcomed, hwatches.watched⟩

theorem watch_keeps (n : ℕ) {g : Ledger} {orders : Orders} (hw : Watches g orders g.told) :
    Keeps (bookkeeping Allowed) (Stopped Ended) (watch n orders) g := by
  induction n generalizing g orders with
  | zero => trivial
  | succ n ih =>
    refine Keeps.bind ((watchTurn_keeps hw).mono ?_)
    rintro (e | orders') g' h
    · exact h
    · exact ih h

/-- The display does what its ledger allows, closes what it opens, and returns from `main`. -/
theorem main_keeps {argv : List Bytes} (hargv : argv ≠ []) (n : ℕ) :
    Keeps (bookkeeping Allowed) (Returned Ended) (main argv n) {} := by
  refine clientMain_keeps (show ClientMode.display ≠ .invalid by decide) (fun _ _ h => Or.inl h)
    reason_ended (fun g hg => ?_) hargv
  have hheard : g.heard.tail = [] := by
    have hlen := hg.heard
    rw [← List.length_eq_zero_iff, List.length_tail, hlen]
  have hw : Watches g ∅ (screen ∅) := ⟨hg.stage, hg.welcomed, by rw [hheard]; rfl⟩
  rw [refreshDisplay_full fullOrders_empty]
  refine Keeps.bind (printAll_keeps hw (by rw [hg.told]; rfl) ?_)
  exact watch_keeps n ⟨hw.stage, hw.welcomed, hw.watched⟩

end Restaurant.Display
