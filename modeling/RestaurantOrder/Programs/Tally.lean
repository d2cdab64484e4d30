import RestaurantOrder.Programs.Fair
import RestaurantOrder.Programs.Viewing
import RestaurantOrder.Schemes.Total

/-! What a display does is paid for by what it hears and tells.

    Each text that it receives and each text that it prints is an action, and besides these there are
    only those that begin and end the program, nine at most (`run_counted`). So a display that hears
    nothing new comes to wait.

        open, four for the login, send | receive, print .. | receive, print .. | close, complain -/

namespace Restaurant.Display
open Schemes Process Program ClientUtil

/-- How many actions there have been, and how many texts may still come. -/
structure Tally where
  ledger : Ledger
  acts : ℕ
  left : ℕ

/-- There have been no more actions than texts heard and told, and `k`. -/
def Tally.Within (k : ℕ) (t : Tally) : Prop :=
  t.acts ≤ t.ledger.heard.length + t.ledger.told.length + k

def counting : Protocol Program.Act Program.Act.Answer Tally where
  allows t _ := t.Within 8
  answers t
    | .receive, _ => 0 < t.left
    | _, _ => True
  next t
    | .receive, r => ⟨t.ledger.note .receive r, t.acts + 1, t.left - 1⟩
    | a, r => ⟨t.ledger.note a r, t.acts + 1, t.left⟩

section
variable {t : Tally} {k k' : ℕ}

theorem Tally.Within.mono (h : t.Within k) (hk : k ≤ k') : t.Within k' :=
  h.trans (Nat.add_le_add_left hk _)

theorem note_grows (g : Ledger) (a : Act) (r : a.Answer) :
    g.heard.length ≤ (g.note a r).heard.length ∧ g.told.length ≤ (g.note a r).told.length := by
  cases a with
  | send text => cases r <;> exact ⟨le_rfl, le_rfl⟩
  | receive => cases r <;> simp [Ledger.note]
  | print text =>
    rw [Ledger.note]
    split
    · exact ⟨le_rfl, le_rfl⟩
    · split <;> simp
  | _ => exact ⟨le_rfl, le_rfl⟩

/-- An action is one more. -/
theorem Tally.Within.acts (h : t.Within k) (a : Act) (r : a.Answer) (left : ℕ) :
    Tally.Within (k + 1) ⟨t.ledger.note a r, t.acts + 1, left⟩ := by
  obtain ⟨hheard, htold⟩ := note_grows t.ledger a r
  rw [Tally.Within] at h
  show t.acts + 1 ≤ (t.ledger.note a r).heard.length + (t.ledger.note a r).told.length + (k + 1)
  omega

/-- A text that is heard pays for itself. -/
theorem Tally.Within.hears (h : t.Within k) (raw : Bytes) (left : ℕ) :
    Tally.Within k ⟨t.ledger.note .receive (.ok raw), t.acts + 1, left⟩ := by
  rw [Tally.Within] at h ⊢
  simp only [Ledger.note, List.length_append, List.length_singleton]
  omega

/-- And so does a text of a screen that is printed. -/
theorem Tally.Within.tells (h : t.Within k) {text : Bytes} (htext : OnScreen text) (r : Unit) :
    Tally.Within k ⟨t.ledger.note (.print text) r, t.acts + 1, t.left⟩ := by
  rw [Tally.Within] at h ⊢
  simp only [note_onScreen htext, List.length_append, List.length_singleton]
  omega

end

/-! ### Screens -/

section
variable {t : Tally}

/-- What is printed pays for itself, and no text may come meanwhile. -/
def Paid (left : ℕ) (r : Cpp Unit) (t : Tally) : Prop :=
  match r with
  | .ok _ => t.Within 6 ∧ t.left = left
  | .error _ => t.Within 7

theorem total_tells {α : Type} {Q : Cpp α → Tally → Prop} {f : Unit → Proc α} {text : Bytes}
    (h : t.Within 6) (htext : OnScreen text)
    (hf : ∀ t' : Tally, t'.Within 6 → t'.left = t.left → Total counting Q (f ()) t') :
    Total counting Q (cout text >>= f) t :=
  ⟨h.mono (by decide), fun r _ => hf _ (h.tells htext r) rfl⟩

theorem printItems_total (items : List (Option Item)) (h : t.Within 6) :
    Total counting (Paid t.left) (printItems items) t := by
  induction items generalizing t with
  | nil => exact ⟨h, rfl⟩
  | cons p ps ih =>
    rw [printItems]
    cases p with
    | none => exact h.mono (by decide)
    | some item =>
      rw [deref_some, lift_eq_done, Process.ok_bind]
      refine total_tells h (Or.inr (Or.inr rfl)) fun t₁ h₁ hleft₁ => ?_
      refine total_tells h₁ (Or.inr (Or.inr rfl)) fun t₂ h₂ hleft₂ => ?_
      rw [← hleft₁, ← hleft₂]
      exact ih h₂

theorem printOrders_total (pairs : List (Int32 × Order)) (h : t.Within 6) :
    Total counting (Paid t.left) (printOrders pairs) t := by
  induction pairs generalizing t with
  | nil => exact ⟨h, rfl⟩
  | cons p rest ih =>
    obtain ⟨k, order⟩ := p
    refine Total.bind (p := printOrder order) (total_tells h (Or.inr (Or.inl rfl)) fun t₁ h₁ hleft₁ => ?_)
    refine (printItems_total order.items h₁).mono ?_
    rintro (e | ⟨⟩) t₂ h₂
    · exact h₂
    · obtain ⟨h₂, hleft₂⟩ := h₂
      rw [← hleft₁, ← hleft₂]
      exact ih h₂

theorem refreshDisplay_total (orders : Orders) (h : t.Within 6) :
    Total counting (Paid t.left) (refreshDisplay orders) t := by
  refine total_tells h (Or.inl rfl) fun t₁ h₁ hleft₁ => ?_
  rw [← hleft₁]
  exact printOrders_total _ h₁

/-! ### The program -/

/-- A turn hears a text, or is the last. -/
theorem watchTurn_total (orders : Orders) (h : t.Within 6) :
    Total counting (fun r t' => match r with
      | .ok _ => t'.Within 6 ∧ t'.left < t.left
      | .error _ => t'.Within 7) (watchTurn orders) t := by
  refine ⟨h.mono (by decide), fun r (hleft : 0 < t.left) => ?_⟩
  rcases r with e | raw
  · exact h.acts .receive _ _
  have h₁ := h.hears raw (t.left - 1)
  show Total counting _ (done (Session.decoded raw) >>= _)
    ⟨t.ledger.note .receive (.ok raw), t.acts + 1, t.left - 1⟩
  rcases Session.decoded raw with e | msg
  · exact h₁.mono (by decide)
  rw [Process.ok_bind]
  rcases handle orders msg with e | orders'
  · exact h₁.mono (by decide)
  rw [lift_eq_done, Process.ok_bind]
  have hless : t.left - 1 < t.left := by omega
  split
  · refine Total.bind ((refreshDisplay_total orders' h₁).mono ?_)
    rintro (e | ⟨⟩) t' h'
    · exact h'
    · exact ⟨h'.1, h'.2.trans_lt hless⟩
  · exact ⟨h₁, hless⟩

theorem watch_total {m : ℕ} (orders : Orders) (h : t.Within 6) (hm : t.left < m) :
    Total counting (fun _ t' => t'.Within 7) (watch m orders) t := by
  induction m generalizing t orders with
  | zero => exact absurd hm (Nat.not_lt_zero _)
  | succ m ih =>
    refine Total.bind ((watchTurn_total orders h).mono ?_)
    rintro (e | orders') t' h'
    · exact h'
    · exact ih orders' h'.1 (h'.2.trans_le (Nat.le_of_lt_succ hm))

/-- A request and its response. -/
theorem request_total {α : Type} {Q : Cpp α → Tally → Prop} {f : Message → Proc α} {m : Message}
    (h : t.Within 5) (hthrow : ∀ e (t' : Tally), t'.Within 7 → Q (.error e) t')
    (hf : ∀ response (t' : Tally), t'.Within 6 → t'.left < t.left → Total counting Q (f response) t') :
    Total counting Q (sendRequestReceiveResponse m >>= f) t := by
  show Total counting Q (((done (runOn [] (Wire.encode m)) >>= send) >>= fun _ => receiveMessage) >>= f) t
  rcases runOn [] (Wire.encode m) with e | encoded
  · exact hthrow e t (h.mono (by decide))
  refine ⟨h.mono (by decide), fun r _ => ?_⟩
  have h₁ := h.acts (.send encoded) r t.left
  rcases r with e | ⟨⟩
  · exact hthrow _ _ (h₁.mono (by decide))
  refine ⟨h₁.mono (by decide), fun r (hleft : 0 < t.left) => ?_⟩
  rcases r with e | raw
  · exact hthrow _ _ (h₁.acts .receive _ _)
  have h₂ := h₁.hears raw (t.left - 1)
  show Total counting Q (done (Session.decoded raw) >>= f) _
  rcases Session.decoded raw with e | response
  · exact hthrow e _ (h₂.mono (by decide))
  · exact hf response _ h₂ (show t.left - 1 < t.left by omega)

/-- The login, and the main loop. -/
theorem loggedIn_total {m : ℕ} (h : t.Within 1) (hm : t.left ≤ m) :
    Total counting (fun _ t' => t'.Within 7) (loggedIn .display do
      refreshDisplay ∅
      watch m ∅) t := by
  have hlift : ∀ {k} {t : Tally}, t.Within k → k ≤ 8 → counting.allows t .close := fun h hk => h.mono hk
  refine Total.bind (p := promptForCredentials) ⟨hlift h (by decide), fun r _ => ?_⟩
  have h₁ := h.acts (.print (ascii "username: ")) r t.left
  refine ⟨hlift h₁ (by decide), fun user _ => ?_⟩
  have h₂ := h₁.acts .getline user t.left
  refine ⟨hlift h₂ (by decide), fun r _ => ?_⟩
  have h₃ := h₂.acts (.print (ascii "password: ")) r t.left
  refine ⟨hlift h₃ (by decide), fun pass _ => ?_⟩
  have h₄ := h₃.acts .getline pass t.left
  refine request_total h₄ (fun e t' h' => h') fun response t₅ h₅ hleft => ?_
  split
  · exact ⟨hlift h₅ (by decide), fun r _ => h₅.acts _ r _⟩
  have hrest : Total counting (fun _ t' => t'.Within 7) (do
      refreshDisplay ∅
      watch m ∅
      return (0 : Int32)) t₅ := by
    refine Total.bind ((refreshDisplay_total ∅ h₅).mono ?_)
    rintro (e | ⟨⟩) t₆ h₆
    · exact h₆
    refine Total.bind ((watch_total ∅ h₆.1 (h₆.2.trans_lt (hleft.trans_le hm))).mono ?_)
    rintro (e | ⟨⟩) t₇ h₇
    · exact h₇
    · exact h₇
  split
  · exact h₅.mono (by decide)
  · exact hrest

/-- Besides what is heard and told there are nine actions at most. -/
theorem main_total {argv : List Bytes} (hargv : argv ≠ []) (m : ℕ) :
    Total counting (fun _ t => t.Within 9) (main argv m) ⟨{}, 0, m⟩ := by
  have hbegin : Tally.Within 0 ⟨{}, 0, m⟩ := Nat.zero_le _
  unfold main clientMain
  split
  · next hostname port =>
    refine Total.handle ⟨hbegin.mono (by decide), fun fd _ => ?_⟩
    have h₁ := hbegin.acts (.openClientfd hostname port) fd m
    cases fd with
    | false => exact ⟨h₁.mono (by decide), fun _ _ => (h₁.acts (.complain _) () m).mono (by decide)⟩
    | true =>
      refine Total.leaving ((loggedIn_total h₁ le_rfl).mono ?_)
      rintro ((e | _) | code) t h
      · refine ⟨h.mono (by decide), fun _ _ => ?_⟩
        have h' := h.acts .close () t.left
        exact ⟨h', fun _ _ => h'.acts (.complain _) () _⟩
      · exact h.mono (by decide)
      · exact ⟨h.mono (by decide), fun _ _ => (h.acts .close () t.left).mono (by decide)⟩
  · exact ⟨hbegin.mono (by decide), fun _ _ => (hbegin.acts (.complain _) () m).mono (by decide)⟩
  · exact absurd rfl hargv

end

/-! ### Runs -/

/-- COUNT: as long as there are more turns than moves, what the display has done is paid for. -/
theorem run_counted {this : Client} {n m : ℕ} {argv : List Bytes} (hargv : argv ≠ []) {start : Dialogue}
    (hproc : start.seat.proc = main argv m) (hledger : start.seat.ledger = {}) {moves : List Move}
    (hfair : ∀ move ∈ moves, move.Fair) {us : List Unit} {d : Dialogue}
    (h : (dialogue this n start).run moves = some (us, d)) (hm : moves.length ≤ m) :
    ∃ left, Total counting (fun _ t => t.Within 9) d.seat.proc
      ⟨d.seat.ledger, moves.countP Move.byClient, left⟩ := by
  have hrun : moves.length ≤ m → ∃ left, m ≤ left + moves.length ∧
      Total counting (fun _ t => t.Within 9) d.seat.proc
        ⟨d.seat.ledger, moves.countP Move.byClient, left⟩ := by
    refine fair_induct (P := fun moves d => moves.length ≤ m → ∃ left, m ≤ left + moves.length ∧
      Total counting (fun _ t => t.Within 9) d.seat.proc
        ⟨d.seat.ledger, moves.countP Move.byClient, left⟩) ?_ ?_ ?_ ?_ hfair h
    · intro _
      refine ⟨m, le_rfl, ?_⟩
      rw [hproc, hledger]
      exact main_total hargv m
    · intro moves d found w a k r seat ih _ hproc hre hlen
      rw [List.length_append, List.length_singleton] at hlen ⊢
      obtain ⟨left, hleft, htotal⟩ := ih (by omega)
      rw [hproc] at htotal
      obtain ⟨hledger, -⟩ := react_frame hre
      have hcount : (moves ++ [Move.client found w]).countP Move.byClient
          = moves.countP Move.byClient + 1 := by
        simp [Move.byClient]
      rw [hcount]
      show ∃ left, _ ∧ Total counting _ (k r) ⟨seat.ledger.note a r, _, left⟩
      rw [hledger]
      cases a with
      | receive => exact ⟨left - 1, by omega, htotal.2 r (show 0 < left by omega)⟩
      | _ => exact ⟨left, by omega, htotal.2 r trivial⟩
    · intro moves d wake w a f re ih _ _ _ _ hlen
      rw [List.length_append, List.length_singleton] at hlen ⊢
      obtain ⟨left, hleft, htotal⟩ := ih (by omega)
      exact ⟨left, by omega, by simpa [Move.byClient, Seat.reacted] using htotal⟩
    · intro moves d op server ih hlen
      rw [List.length_append, List.length_singleton] at hlen ⊢
      obtain ⟨left, hleft, htotal⟩ := ih (by omega)
      exact ⟨left, by omega, by simpa [Move.byClient] using htotal⟩
  obtain ⟨left, -, htotal⟩ := hrun hm
  exact ⟨left, htotal⟩

end Restaurant.Display
