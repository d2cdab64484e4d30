import RestaurantOrder.Programs.Ledger
import RestaurantOrder.Schemes.Total

/-! The updater comes to an end.

    Each turn of its loop reads a line, and a line that is not there ends the program at the next field.
    So every byte of the input pays for eight actions, and a few more are paid for in advance
    (`main_total`).

        "> "  item_update / 3 / 1 / DONE  ──▶  one prompt, four lines, send, receive, report -/

namespace Restaurant.Updater
open Schemes Process Program ClientUtil

/-- The input that is left, and the actions that are. -/
structure Budget where
  stdin : Bytes
  left : ℕ

/-- A line that is read is the next one of the input, and every action is paid for. -/
def typing : Protocol Program.Act Program.Act.Answer Budget where
  allows g _ := 0 < g.left
  answers g
    | .getline, line => line = (nextLine g.stdin).1
    | _, _ => True
  next g
    | .getline, _ => ⟨(nextLine g.stdin).2, g.left - 1⟩
    | _, _ => { g with left := g.left - 1 }

/-- The actions that an input pays for, with those that are paid for in advance. -/
def allowance (stdin : Bytes) (extra : ℕ) : ℕ := 8 * stdin.length + extra

/-! ### Lines -/

theorem nextLine_le (stdin : Bytes) : (nextLine stdin).2.length ≤ stdin.length := by
  rw [nextLine]
  split
  · exact Nat.zero_le _
  · have := (List.dropWhile_sublist (l := stdin) (· != 10)).length_le
    simp only [List.length_drop]
    omega

/-- A line that is there uses up some of the input. -/
theorem nextLine_lt {stdin line : Bytes} (h : (nextLine stdin).1 = some line) :
    (nextLine stdin).2.length < stdin.length := by
  rw [nextLine] at h ⊢
  split at h
  · cases h
  · next hne =>
    have hpos : 0 < stdin.length := List.length_pos_iff.mpr (by simpa using hne)
    have := (List.dropWhile_sublist (l := stdin) (· != 10)).length_le
    rw [if_neg hne]
    simp only [List.length_drop]
    omega

section
variable {α : Type} {Q : Cpp α → Budget → Prop} {stdin : Bytes} {b : ℕ}

theorem total_getline {f : Bytes → Proc α} (hpos : 0 < b)
    (h : ∀ line rest, rest.length ≤ stdin.length → (line ≠ [] → rest.length < stdin.length) →
      Total typing Q (f line) ⟨rest, b - 1⟩) : Total typing Q (getline >>= f) ⟨stdin, b⟩ := by
  refine ⟨hpos, ?_⟩
  rintro line (hline : line = (nextLine stdin).1)
  refine h (line.getD []) (nextLine stdin).2 (nextLine_le stdin) fun hne => ?_
  cases line with
  | none => exact absurd rfl hne
  | some line => exact nextLine_lt hline.symm

theorem total_cout {f : Unit → Proc α} {text : Bytes} (hpos : 0 < b)
    (h : Total typing Q (f ()) ⟨stdin, b - 1⟩) : Total typing Q (cout text >>= f) ⟨stdin, b⟩ :=
  ⟨hpos, fun _ _ => h⟩

/-- Code that only computes costs nothing. -/
theorem total_lift {β : Type} {x : Cpp β} {f : β → Proc α} (hthrow : ∀ e, Q (.error e) ⟨stdin, b⟩)
    (h : ∀ v, x = .ok v → Total typing Q (f v) ⟨stdin, b⟩) :
    Total typing Q (liftM x >>= f) ⟨stdin, b⟩ := by
  rw [lift_eq_done]
  cases hx : x with
  | error e => exact hthrow e
  | ok v => exact h v hx

/-- A check that throws, before the rest. -/
theorem total_unless {c : Prop} [Decidable c] {what : Bytes} {f : Unit → Proc α}
    (hthrow : Q (raise (.protocolError what)) ⟨stdin, b⟩) (h : Total typing Q (f ()) ⟨stdin, b⟩) :
    Total typing Q (if c then liftM (protocolError what : Cpp Unit) >>= f else f ()) ⟨stdin, b⟩ := by
  split
  · exact hthrow
  · exact h

/-! ### Requests -/

/-- A request and its response take two actions. -/
theorem total_request {f : Message → Proc α} {m : Message} (hpos : 1 < b)
    (hthrow : ∀ e b', b ≤ b' + 2 → Q (.error e) ⟨stdin, b'⟩)
    (h : ∀ response, Total typing Q (f response) ⟨stdin, b - 2⟩) :
    Total typing Q (sendRequestReceiveResponse m >>= f) ⟨stdin, b⟩ := by
  show Total typing Q (((done (runOn [] (Wire.encode m)) >>= send) >>= fun _ => receiveMessage) >>= f)
    ⟨stdin, b⟩
  rcases runOn [] (Wire.encode m) with e | encoded
  · exact hthrow e b (by omega)
  refine ⟨show 0 < b by omega, fun r _ => ?_⟩
  rcases r with e | ⟨⟩
  · exact hthrow _ (b - 1) (by omega)
  refine ⟨show 0 < b - 1 by omega, fun r _ => ?_⟩
  rcases r with e | raw
  · exact hthrow _ (b - 1 - 1) (by omega)
  show Total typing Q (done (Session.decoded raw) >>= f) ⟨stdin, b - 1 - 1⟩
  rcases Session.decoded raw with e | response
  · exact hthrow e (b - 1 - 1) (by omega)
  · exact h response

end

/-! ### The commands -/

/-- Enough is left: after an exception for what `main` does then, else for the rest of the input. -/
def Pays {α : Type} (stdin : Bytes) (extra : ℕ) (r : Cpp α) (g : Budget) : Prop :=
  match r with
  | .ok _ => g.stdin.length ≤ stdin.length ∧ allowance g.stdin extra ≤ g.left
  | .error _ => 2 ≤ g.left

theorem printed_total {stdin : Bytes} {b : ℕ} {response : Message} (hb : allowance stdin 5 ≤ b) :
    Total typing (Pays stdin 4) (printResultResponse response) ⟨stdin, b⟩ := by
  rw [allowance] at hb
  have hprint : ∀ text, Total typing (Pays stdin 4) (cout text) ⟨stdin, b⟩ := fun text =>
    ⟨show 0 < b by omega, fun _ _ => ⟨le_rfl, show allowance stdin 4 ≤ b - 1 by rw [allowance]; omega⟩⟩
  rw [printResultResponse]
  split
  · exact hprint _
  split
  · exact hprint _
  · show 2 ≤ b
    omega

theorem reported_total {stdin : Bytes} {b : ℕ} {m : Message} (hb : allowance stdin 7 ≤ b) :
    Total typing (Pays stdin 4) (do
      let response ← sendRequestReceiveResponse m
      printResultResponse response) ⟨stdin, b⟩ := by
  rw [allowance] at hb
  refine total_request (by omega) (fun e b' hb' => show 2 ≤ b' by omega) fun response => ?_
  exact printed_total (by rw [allowance]; omega)

theorem Pays.shorter {α : Type} {stdin stdin' : Bytes} (hle : stdin'.length ≤ stdin.length) {extra : ℕ}
    {r : Cpp α} {g : Budget} (h : Pays stdin' extra r g) : Pays stdin extra r g := by
  cases r with
  | error e => exact h
  | ok v => exact ⟨h.1.trans hle, h.2⟩

/-- No line is no number. -/
theorem spelled_ne_nil {n : Int32} {s : Bytes} (h : Spelled n s) : s ≠ [] := by
  rintro rfl
  obtain ⟨blanks, plus, digits, hs, -, -, hdigits⟩ := h
  exact hdigits.1 (List.append_eq_nil_iff.mp hs.symm).2

/-- The loop over the items costs what it reads. -/
theorem readItems_total (left : ℕ) (order : Order) {extra : ℕ} (hextra : 5 ≤ extra) {stdin : Bytes}
    {b : ℕ} (hb : allowance stdin extra ≤ b) :
    Total typing (Pays stdin extra) (readItems order left) ⟨stdin, b⟩ := by
  induction left generalizing order stdin b with
  | zero => exact ⟨le_rfl, hb⟩
  | succ left ih =>
    rw [allowance] at hb
    refine total_getline (by omega) fun idS rest₁ hle₁ hlt₁ => ?_
    refine total_getline (by omega) fun desc rest₂ hle₂ _ => ?_
    refine total_getline (by omega) fun qtyS rest₃ hle₃ _ => ?_
    refine total_lift (fun e => show 2 ≤ b - 1 - 1 - 1 by omega) fun id hid => ?_
    refine total_lift (fun e => show 2 ≤ b - 1 - 1 - 1 by omega) fun qty _ => ?_
    have hlt := hlt₁ (spelled_ne_nil (ClientUtil.parsePositiveInt_iff.mp hid).2)
    exact (ih _ (by rw [allowance]; omega)).mono fun r g h => h.shorter (by omega)

theorem handleOrderNew_total {stdin : Bytes} {b : ℕ} (hb : allowance stdin 10 ≤ b) :
    Total typing (Pays stdin 4) handleOrderNew ⟨stdin, b⟩ := by
  rw [allowance] at hb
  refine total_getline (by omega) fun countS rest hle _ => ?_
  refine total_lift (fun e => show 2 ≤ b - 1 by omega) fun count _ => ?_
  refine Total.bind ((readItems_total _ _ (show 5 ≤ 7 by decide) (by rw [allowance]; omega)).mono ?_)
  rintro (e | order) g h
  · exact h
  · obtain ⟨hle', hb'⟩ := h
    exact (reported_total hb').mono fun r g h => h.shorter (hle'.trans hle)

/-- The lines of the other commands, and their request. -/
theorem handleItemUpdate_total {stdin : Bytes} {b : ℕ} (hb : allowance stdin 10 ≤ b) :
    Total typing (Pays stdin 4) handleItemUpdate ⟨stdin, b⟩ := by
  rw [allowance] at hb
  refine total_getline (by omega) fun k rest₁ hle₁ _ => ?_
  refine total_getline (by omega) fun i rest₂ hle₂ _ => ?_
  refine total_getline (by omega) fun status rest₃ hle₃ _ => ?_
  have hstop : ∀ e, Pays stdin 4 (.error e : Cpp Unit) ⟨rest₃, b - 1 - 1 - 1⟩ := fun e =>
    show 2 ≤ b - 1 - 1 - 1 by omega
  refine total_lift hstop fun orderId _ => total_lift hstop fun itemId _ => ?_
  have hrest : ∀ m, Total typing (Pays stdin 4) (do
      let response ← sendRequestReceiveResponse m
      printResultResponse response) ⟨rest₃, b - 1 - 1 - 1⟩ := fun m =>
    (reported_total (by rw [allowance]; omega)).mono fun r g h => h.shorter (by omega)
  exact total_unless (hstop _) (hrest _)

theorem handleOrderUpdate_total {stdin : Bytes} {b : ℕ} (hb : allowance stdin 10 ≤ b) :
    Total typing (Pays stdin 4) handleOrderUpdate ⟨stdin, b⟩ := by
  rw [allowance] at hb
  refine total_getline (by omega) fun k rest₁ hle₁ _ => ?_
  refine total_getline (by omega) fun status rest₂ hle₂ _ => ?_
  have hstop : ∀ e, Pays stdin 4 (.error e : Cpp Unit) ⟨rest₂, b - 1 - 1⟩ := fun e =>
    show 2 ≤ b - 1 - 1 by omega
  refine total_lift hstop fun orderId _ => ?_
  have hrest : ∀ m, Total typing (Pays stdin 4) (do
      let response ← sendRequestReceiveResponse m
      printResultResponse response) ⟨rest₂, b - 1 - 1⟩ := fun m =>
    (reported_total (by rw [allowance]; omega)).mono fun r g h => h.shorter (by omega)
  exact total_unless (hstop _) (hrest _)

theorem handleQuit_total {stdin : Bytes} {b : ℕ} (hb : allowance stdin 10 ≤ b) :
    Total typing (Pays stdin 4) handleQuit ⟨stdin, b⟩ := by
  rw [allowance] at hb
  refine total_request (by omega) (fun e b' hb' => show 2 ≤ b' by omega) fun response => ?_
  split
  · show 2 ≤ b - 2
    omega
  · exact ⟨le_rfl, show allowance stdin 4 ≤ b - 2 by rw [allowance]; omega⟩

/-- A turn that goes on has read a line. -/
def TurnPays (stdin : Bytes) (r : Cpp Bool) (g : Budget) : Prop :=
  match r with
  | .ok goOn => if goOn then g.stdin.length < stdin.length ∧ allowance g.stdin 4 ≤ g.left else 2 ≤ g.left
  | .error _ => 2 ≤ g.left

/-- The commands after which the loop goes on. -/
theorem goesOn_total {stdin rest : Bytes} (hlt : rest.length < stdin.length) {b : ℕ} {p : Proc Unit}
    (hp : Total typing (Pays rest 4) p ⟨rest, b⟩) :
    Total typing (TurnPays stdin) (p >>= fun _ => (return true : Proc Bool)) ⟨rest, b⟩ := by
  refine Total.bind (hp.mono ?_)
  rintro (e | ⟨⟩) g h
  · exact h
  · exact ⟨h.1.trans_lt hlt, h.2⟩

theorem commandTurn_total {stdin : Bytes} {b : ℕ} (hb : allowance stdin 4 ≤ b) :
    Total typing (TurnPays stdin) commandTurn ⟨stdin, b⟩ := by
  rw [allowance] at hb
  refine total_cout (by omega) ⟨show 0 < b - 1 by omega, ?_⟩
  rintro line (hline : line = (nextLine stdin).1)
  cases line with
  | none =>
    show 2 ≤ b - 1 - 1
    omega
  | some command =>
    have hlt := nextLine_lt hline.symm
    have hleft : allowance (nextLine stdin).2 10 ≤ b - 1 - 1 := by rw [allowance]; omega
    show Total typing _ (if command = ascii "quit" then _ else _) ⟨(nextLine stdin).2, b - 1 - 1⟩
    split
    · refine Total.bind ((handleQuit_total hleft).mono ?_)
      rintro (e | ⟨⟩) g h
      · exact h
      · have hpaid := h.2
        rw [allowance] at hpaid
        show 2 ≤ g.left
        omega
    split
    · exact goesOn_total hlt (handleOrderNew_total hleft)
    split
    · exact goesOn_total hlt (handleItemUpdate_total hleft)
    split
    · exact goesOn_total hlt (handleOrderUpdate_total hleft)
    · refine goesOn_total (p := return ()) hlt ⟨le_rfl, ?_⟩
      rw [allowance] at hleft ⊢
      exact (Nat.add_le_add_left (by decide) _).trans hleft

/-! ### The program -/

/-- What `main` still does: close the connection, and report an exception. -/
def Closes {α : Type} (_ : Cpp α) (g : Budget) : Prop := 2 ≤ g.left

theorem commands_total {stdin : Bytes} {m b : ℕ} (hm : stdin.length < m) (hb : allowance stdin 4 ≤ b) :
    Total typing Closes (loop commandTurn m) ⟨stdin, b⟩ := by
  refine Total.loop (I := fun n g => g.stdin.length < n ∧ allowance g.stdin 4 ≤ g.left)
    (fun g h => absurd h.1 (Nat.not_lt_zero _)) ?_ ⟨hm, hb⟩
  rintro n ⟨stdin, b⟩ ⟨hn, hb⟩
  refine (commandTurn_total hb).mono ?_
  rintro (e | _ | _) g h
  · exact h
  · exact h
  · exact ⟨h.1.trans_le (Nat.le_of_lt_succ hn), h.2⟩

/-- The login, and the loop. -/
theorem loggedIn_total {stdin : Bytes} {m b : ℕ} (hm : stdin.length < m) (hb : allowance stdin 10 ≤ b) :
    Total typing Closes (loggedIn .updater (loop commandTurn m)) ⟨stdin, b⟩ := by
  rw [allowance] at hb
  refine Total.bind (p := promptForCredentials) (total_cout (by omega) ?_)
  refine total_getline (by omega) fun user rest₁ hle₁ _ => total_cout (by omega) ?_
  refine total_getline (by omega) fun pass rest₂ hle₂ _ => ?_
  refine total_request (by omega) (fun e b' hb' => show 2 ≤ b' by omega) fun response => ?_
  split
  · exact ⟨show 0 < b - 1 - 1 - 1 - 1 - 2 by omega, fun _ _ => show 2 ≤ b - 1 - 1 - 1 - 1 - 2 - 1 by omega⟩
  have hcommands : Total typing Closes (loop commandTurn m) ⟨rest₂, b - 1 - 1 - 1 - 1 - 2⟩ :=
    commands_total (by omega) (by rw [allowance]; omega)
  have hrest : Total typing Closes (loop commandTurn m >>= fun _ => (return 0 : Proc Int32))
      ⟨rest₂, b - 1 - 1 - 1 - 1 - 2⟩ := by
    refine Total.bind (hcommands.mono ?_)
    rintro (e | ⟨⟩) g h
    · exact h
    · exact h
  exact total_unless (show 2 ≤ b - 1 - 1 - 1 - 1 - 2 by omega) hrest

/-- Eight actions for each byte of the input, and eleven: to connect, to log in, to end. -/
theorem main_total {argv : List Bytes} (hargv : argv ≠ []) {stdin : Bytes} {m b : ℕ}
    (hm : stdin.length < m) (hb : allowance stdin 11 ≤ b) :
    Total typing (fun _ _ => True) (main argv m) ⟨stdin, b⟩ := by
  rw [allowance] at hb
  unfold main clientMain
  split
  · next hostname port =>
    refine Total.handle ⟨show 0 < b by omega, fun fd _ => ?_⟩
    cases fd with
    | false => exact ⟨show 0 < b - 1 by omega, fun _ _ => trivial⟩
    | true =>
      refine Total.leaving ((loggedIn_total (b := b - 1) hm (by rw [allowance]; omega)).mono ?_)
      rintro ((e | _) | code) g (h : 2 ≤ g.left)
      · exact ⟨Nat.lt_of_lt_of_le Nat.two_pos h, fun _ _ =>
          ⟨show 0 < g.left - 1 by omega, fun _ _ => trivial⟩⟩
      · trivial
      · exact ⟨Nat.lt_of_lt_of_le Nat.two_pos h, fun _ _ => trivial⟩
  · exact ⟨show 0 < b by omega, fun _ _ => trivial⟩
  · exact absurd rfl hargv

end Restaurant.Updater
