import RestaurantOrder.Framing.Rio
import RestaurantOrder.Wire.Text

/-! Frames: `IO::send` and `IO::receive` of io.cpp.

        frame s:   four digits | s | newline
                   the length of s and the newline

    CORRECT: `receive` returns exactly the string of a frame at the front of the input and takes just
    that frame from it (`exec_receive_iff`), so a sequence of frames is read back as the strings that
    were sent (`exec_receiveAll`). -/

namespace Restaurant.Framing
open Schemes

/-- `throw IOException(what)`. -/
def ioError {α : Type} (what : String) : Cpp α := raise (.ioException (ascii what))

/-- `make_length_prefix`: `setw(4)` and `setfill('0')`. -/
def makeLengthPrefix (payloadLenWithNewline : ℕ) : Cpp Bytes := do
  if payloadLenWithNewline > 9999 then ioError "message too long to frame"
  return padded 4 payloadLenWithNewline

/-- The loop of `parse_length_prefix`. -/
def checkDigits : Bytes → Cpp Unit
  | [] => .ok ()
  | c :: cs => do
    if !isDigit c then ioError "invalid length prefix"
    checkDigits cs

def parseLengthPrefix (size : Bytes) : Cpp Int32 := do
  checkDigits size
  let (n, _) ← stoi size
  if n ≤ 0 then ioError "invalid framed length"
  return n

def newline : Byte := 10

def send (s : Bytes) : CppOn Outfd Unit := do
  let framed := (← makeLengthPrefix (s.length + 1)) ++ s ++ [newline]
  let (n, fd) := rioWriten (← get) framed
  set fd
  if !n then ioError "error sending framed message"

/-- `rio_readn` on the input, besides the string that `receive` works on. -/
def readn (n : ℕ) : CppOn (Infd × Bytes) (Option Bytes) := do
  let (fd, s) ← get
  let (res, fd') := rioReadn fd n
  set (fd', s)
  return res

/-- Did `rio_readn` return the count it was given? -/
def complete (n : ℕ) (res : Option Bytes) : Bool := res.any fun bs => bs.length = n

def receive : CppOn (Infd × Bytes) Unit := do
  let size ← readn 4
  if !complete 4 size then ioError "error reading length prefix"
  let framedLen ← parseLengthPrefix (size.getD [])
  let body ← readn framedLen.toInt.toNat
  if !complete framedLen.toInt.toNat body then
    ioError "error reading framed payload"
  let body := body.getD []
  if body.getLast? ≠ some newline then
    ioError "missing terminating newline in framed payload"
  modify fun (fd, _) => (fd, body.dropLast)

/-- The bytes that `send` writes for a string. -/
def frame (s : Bytes) : Bytes := padded 4 (s.length + 1) ++ s ++ [newline]

/-! ### Sending -/

theorem exec_send {s : Bytes} (hs : s.length ≤ 9998) {fd : Outfd} (h : fd.Open) :
    ∃ fd' : Outfd, exec (send s) fd = (.ok (), fd') ∧ fd'.written = fd.written ++ frame s ∧
      fd'.Open := by
  obtain ⟨fd', hrun, hw, hopen⟩ := rioWriten_open h (frame s)
  refine ⟨fd', ?_, hw, hopen⟩
  rw [frame] at hrun
  rw [send, makeLengthPrefix, if_neg (by omega)]
  simp only [pure_eq_ok, lift_ok_bind, exec_bind, exec_get, exec_set, hrun]
  rfl

/-- A string that is too long is not sent at all. -/
theorem exec_send_long {s : Bytes} (hs : 9998 < s.length) (fd : Outfd) :
    exec (send s) fd
      = (ioError "message too long to frame", fd) := by
  rw [send, makeLengthPrefix, if_pos (by omega)]
  rfl

/-- Nothing of a string is sent if the first write meets an error. -/
theorem exec_send_broken {s : Bytes} (hs : s.length ≤ 9998) (written : Bytes)
    (rest : List Departure) : exec (send s) ⟨written, .broken :: rest⟩
      = (ioError "error sending framed message", ⟨written, rest⟩) := by
  have hrun : rioWriten ⟨written, .broken :: rest⟩ (padded 4 (s.length + 1) ++ s ++ [newline])
      = (false, ⟨written, rest⟩) := by
    rw [rioWriten]
    cases hbs : padded 4 (s.length + 1) ++ s ++ [newline] with
    | nil => simp at hbs
    | cons b bs => rfl
  rw [send, makeLengthPrefix, if_neg (by omega)]
  simp only [pure_eq_ok, lift_ok_bind, exec_bind, exec_get, exec_set, hrun]
  rfl

/-- Sending a string writes a beginning of its frame, whatever errors occur. -/
theorem exec_send_ends (s : Bytes) (fd : Outfd) : ∃ r fd' part, exec (send s) fd = (r, fd') ∧
    fd'.written = fd.written ++ part ∧ part <+: frame s ∧
      (r = .ok () ∨ ∃ what, r = raise (.ioException what)) := by
  by_cases hs : 9998 < s.length
  · exact ⟨_, fd, [], exec_send_long hs fd, by simp, List.nil_prefix, Or.inr ⟨_, rfl⟩⟩
  obtain ⟨part, hw, hpart⟩ := rioWriten_part fd (frame s)
  rcases hres : rioWriten fd (frame s) with ⟨ok, fd'⟩
  rw [hres] at hw
  have hrun : exec (send s) fd
      = exec (if !ok then liftM (ioError "error sending framed message" : Cpp Unit) else pure ())
          fd' := by
    rw [frame] at hres
    rw [send, makeLengthPrefix, if_neg (by omega)]
    simp only [pure_eq_ok, lift_ok_bind, exec_bind, exec_get, exec_set, hres]
  cases ok with
  | true => exact ⟨_, fd', part, hrun, hw, hpart, Or.inl rfl⟩
  | false => exact ⟨_, fd', part, hrun, hw, hpart, Or.inr ⟨_, rfl⟩⟩

/-! ### The length prefix -/

theorem checkDigits_ok {s : Bytes} (h : ∀ b ∈ s, isDigit b = true) : checkDigits s = .ok () := by
  induction s with
  | nil => rfl
  | cons c cs ih =>
    rw [checkDigits, h c List.mem_cons_self]
    exact ih fun b hb => h b (List.mem_cons_of_mem _ hb)

theorem checkDigits_throws {s : Bytes} (h : ¬∀ b ∈ s, isDigit b = true) :
    checkDigits s = ioError "invalid length prefix" := by
  induction s with
  | nil => exact absurd (fun _ hb => absurd hb List.not_mem_nil) h
  | cons c cs ih =>
    rw [checkDigits]
    cases hc : isDigit c with
    | false => rfl
    | true =>
      refine ih fun hcs => h ?_
      intro b hb
      rcases List.mem_cons.mp hb with rfl | hb
      · exact hc
      · exact hcs b hb

/-- Four bytes are the prefix of a length, or they are rejected. -/
theorem parseLengthPrefix_ends {size : Bytes} (hlen : size.length = 4) :
    Ends (parseLengthPrefix size) (fun n => ∃ k : ℕ, 0 < k ∧ k < 10000 ∧ n.toInt = k ∧ size = padded 4 k)
      (fun e => ∃ what, e = .ioException what) := by
  rw [parseLengthPrefix]
  by_cases hd : ∀ b ∈ size, isDigit b = true
  case neg => rw [checkDigits_throws hd]; exact ⟨_, rfl⟩
  have hne : size ≠ [] := by rintro rfl; cases hlen
  have hlt : value size < 10 ^ 4 := hlen ▸ value_lt hd
  have hint : (Int32.ofInt (value size)).toInt = value size :=
    Int32.toInt_ofInt_of_le (by omega) (by omega)
  have hstoi : stoi size = .ok (Int32.ofInt (value size), size.length) :=
    stoi_spelled (Digits.spelled ⟨hne, hd, hint.symm⟩)
  rw [checkDigits_ok hd, hstoi]
  simp only [ok_bind]
  split
  · exact ⟨_, rfl⟩
  · next h =>
    have hpos : (0 : Int32).toInt < (Int32.ofInt (value size)).toInt :=
      Int32.lt_iff_toInt_lt.mp (Int32.not_le.mp h)
    rw [hint, Int32.toInt_zero] at hpos
    exact ⟨value size, by omega, hlt, hint, (padded_value (by decide) hd hlen).symm⟩

/-- The prefix of a length is read as that length. -/
theorem parseLengthPrefix_padded {k : ℕ} (hpos : 0 < k) (hlt : k < 10000) :
    ∃ n : Int32, parseLengthPrefix (padded 4 k) = .ok n ∧ n.toInt.toNat = k := by
  have hint : (Int32.ofInt k).toInt = k := Int32.toInt_ofInt_of_le (by omega) (by omega)
  have hlen : (padded 4 k).length = 4 := length_padded (by decide) hlt
  have hne : padded 4 k ≠ [] := by intro h; rw [h] at hlen; cases hlen
  have hstoi : stoi (padded 4 k) = .ok (Int32.ofInt k, (padded 4 k).length) :=
    stoi_spelled (Digits.spelled ⟨hne, isDigit_padded, by rw [value_padded, hint]⟩)
  have hle : ¬Int32.ofInt k ≤ 0 := by
    rw [Int32.not_le, Int32.lt_iff_toInt_lt, hint, Int32.toInt_zero]; omega
  refine ⟨Int32.ofInt k, ?_, by rw [hint]; rfl⟩
  rw [parseLengthPrefix, checkDigits_ok isDigit_padded, hstoi]
  simp only [ok_bind, if_neg hle]
  rfl

/-! ### Receiving -/

theorem exec_readn (n : ℕ) (fd : Infd) (s : Bytes) :
    exec (readn n) (fd, s) = (.ok (rioReadn fd n).1, ((rioReadn fd n).2, s)) := rfl

/-- A complete read has taken the bytes it returns from the content. -/
theorem complete_readn {fd : Infd} {n : ℕ} (h : complete n (rioReadn fd n).1 = true) :
    ∃ a, (rioReadn fd n).1 = some a ∧ a.length = n ∧
      fd.content = a ++ (rioReadn fd n).2.content := by
  by_cases hn : n ≤ fd.content.length
  · have hlen : (fd.content.take n).length = n := by rw [List.length_take]; omega
    obtain ⟨fd', hrun, hrest⟩ := rioReadn_enough (List.take_append_drop n fd.content).symm hlen
    rw [hrun]
    exact ⟨_, rfl, hlen, by rw [hrest, List.take_append_drop]⟩
  · obtain ⟨fd', res, hrun, hshort⟩ := rioReadn_short (Nat.lt_of_not_le hn)
    rw [hrun] at h
    cases res with
    | none => cases h
    | some bs => exact absurd (by simpa [complete] using h) (hshort bs rfl)

/-- The exception is IOException, and the output string is as it was. -/
def Failed (s₀ : Bytes) (e : Exception) (io : Infd × Bytes) : Prop :=
  (∃ what, e = .ioException what) ∧ io.2 = s₀

theorem receive_ensures (fd : Infd) (s₀ : Bytes) :
    Ensures receive (fd, s₀)
      (fun _ io => io.2.length ≤ 9998 ∧ fd.content = frame io.2 ++ io.1.content) (Failed s₀) := by
  rw [receive]
  refine Ensures.bind (P := fun res io => io = ((rioReadn fd 4).2, s₀) ∧ res = (rioReadn fd 4).1)
    ⟨rfl, rfl⟩ ?_
  rintro res _ ⟨rfl, rfl⟩
  cases hsize : complete 4 (rioReadn fd 4).1
  case false => exact ⟨⟨_, rfl⟩, rfl⟩
  obtain ⟨size, hres, hlen, hcont⟩ := complete_readn hsize
  generalize (rioReadn fd 4).2 = fd₁ at hcont
  rw [hres]
  refine Ensures.lift_bind ((parseLengthPrefix_ends hlen).throws fun e he => ⟨he, rfl⟩) ?_
  rintro n ⟨k, hpos, hlt, hn, rfl⟩
  have hk : n.toInt.toNat = k := by rw [hn]; rfl
  rw [hk]
  refine Ensures.bind (P := fun res io => io = ((rioReadn fd₁ k).2, s₀) ∧ res = (rioReadn fd₁ k).1)
    ⟨rfl, rfl⟩ ?_
  rintro res _ ⟨rfl, rfl⟩
  cases hbody : complete k (rioReadn fd₁ k).1
  case false => exact ⟨⟨_, rfl⟩, rfl⟩
  obtain ⟨body, hres', hlen', hcont'⟩ := complete_readn hbody
  rw [hres']
  by_cases hlast : body.getLast? = some newline
  case neg =>
    simp only [Option.getD_some, hlast, not_false_eq_true, ne_eq, if_true]
    exact ⟨⟨_, rfl⟩, rfl⟩
  simp only [Option.getD_some, hlast, not_true_eq_false, ne_eq, if_false]
  have hdrop : body.dropLast ++ [newline] = body := List.dropLast_append_getLast? newline hlast
  have hbound : body.dropLast.length + 1 = k := by
    rw [← hlen', ← congrArg List.length hdrop, List.length_append]; rfl
  refine ⟨show body.dropLast.length ≤ 9998 by omega, ?_⟩
  show fd.content = frame body.dropLast ++ (rioReadn fd₁ k).2.content
  rw [hcont, hcont', frame, hbound, List.append_assoc (padded 4 k), hdrop, List.append_assoc]

/-- A frame at the front of the input is received, and what is behind it stays. -/
theorem exec_receive {fd : Infd} {s r : Bytes} (h : fd.content = frame s ++ r)
    (hs : s.length ≤ 9998) (s₀ : Bytes) :
    ∃ fd' : Infd, exec receive (fd, s₀) = (.ok (), (fd', s)) ∧ fd'.content = r := by
  rw [frame, List.append_assoc, List.append_assoc] at h
  have hlen : (padded 4 (s.length + 1)).length = 4 := length_padded (by decide) (by omega)
  obtain ⟨fd₁, hrun₁, hcont₁⟩ := rioReadn_enough h hlen
  rw [← List.append_assoc] at hcont₁
  obtain ⟨n, hparse, hn⟩ := parseLengthPrefix_padded (k := s.length + 1) (by omega) (by omega)
  have hlen' : (s ++ [newline]).length = s.length + 1 := List.length_append
  obtain ⟨fd₂, hrun₂, hcont₂⟩ := rioReadn_enough hcont₁ hlen'
  refine ⟨fd₂, ?_, hcont₂⟩
  have hfull : complete 4 (some (padded 4 (s.length + 1))) = true := by simp [complete, hlen]
  have hfull' : complete (s.length + 1) (some (s ++ [newline])) = true := by
    simp [complete]
  rw [receive, exec_bind, exec_readn, hrun₁]
  simp only [hfull, Bool.not_true, Bool.false_eq_true, if_false, Option.getD_some, hparse,
    lift_ok_bind, hn]
  rw [exec_bind, exec_readn, hrun₂]
  simp [hfull']

/-- CORRECT: `receive` returns a string exactly if its frame is at the front of the input. -/
theorem exec_receive_iff {fd : Infd} {s₀ s r : Bytes} :
    (∃ fd' : Infd, exec receive (fd, s₀) = (.ok (), (fd', s)) ∧ fd'.content = r) ↔
      fd.content = frame s ++ r ∧ s.length ≤ 9998 := by
  constructor
  · rintro ⟨fd', hrun, rfl⟩
    have h := receive_ensures fd s₀
    rw [Ensures, hrun] at h
    exact h.symm
  · rintro ⟨h, hs⟩
    exact exec_receive h hs s₀

/-- On any other input it throws IOException and leaves its output string alone. -/
theorem exec_receive_fails {fd : Infd} (h : ¬∃ s r, fd.content = frame s ++ r ∧ s.length ≤ 9998)
    (s₀ : Bytes) :
    ∃ what fd', exec receive (fd, s₀) = (raise (.ioException what), (fd', s₀)) := by
  have hens := receive_ensures fd s₀
  rw [Ensures] at hens
  rcases hrun : exec receive (fd, s₀) with ⟨(e | _) | ⟨⟩, fd', s⟩ <;> rw [hrun] at hens
  · obtain ⟨⟨what, rfl⟩, rfl⟩ := hens
    exact ⟨what, fd', rfl⟩
  · exact hens.elim
  · exact absurd ⟨s, fd'.content, hens.symm⟩ h

/-! ### Sequences of frames -/

/-- Send one string after the other. -/
def sendAll : List Bytes → CppOn Outfd Unit
  | [] => pure ()
  | s :: ss => do
    send s
    sendAll ss

/-- Receive `n` strings. -/
def receiveAll : ℕ → CppOn (Infd × Bytes) (List Bytes)
  | 0 => pure []
  | n + 1 => do
    receive
    let (_, s) ← get
    return s :: (← receiveAll n)

theorem exec_sendAll {ss : List Bytes} (hss : ∀ s ∈ ss, s.length ≤ 9998) {fd : Outfd}
    (hopen : fd.Open) : ∃ fd' : Outfd, exec (sendAll ss) fd = (.ok (), fd') ∧
      fd'.written = fd.written ++ ss.flatMap frame := by
  induction ss generalizing fd with
  | nil => exact ⟨fd, rfl, by simp⟩
  | cons s ss ih =>
    obtain ⟨fd₁, hrun₁, hw₁, hopen₁⟩ := exec_send (hss s List.mem_cons_self) hopen
    obtain ⟨fd₂, hrun₂, hw₂⟩ := ih (fun t ht => hss t (List.mem_cons_of_mem _ ht)) hopen₁
    refine ⟨fd₂, ?_, ?_⟩
    · rw [sendAll, exec_bind_ok hrun₁, hrun₂]
    · rw [hw₂, hw₁, List.flatMap_cons, List.append_assoc]

/-- The frames of some strings are received as these strings, and nothing behind them is taken. -/
theorem exec_receiveAll {ss : List Bytes} (hss : ∀ s ∈ ss, s.length ≤ 9998) {fd : Infd} {r : Bytes}
    (h : fd.content = ss.flatMap frame ++ r) (s₀ : Bytes) :
    ∃ fd' s', exec (receiveAll ss.length) (fd, s₀) = (.ok ss, (fd', s')) ∧ fd'.content = r := by
  induction ss generalizing fd s₀ with
  | nil => exact ⟨fd, s₀, rfl, by simpa using h⟩
  | cons s ss ih =>
    rw [List.flatMap_cons, List.append_assoc] at h
    obtain ⟨fd₁, hrun₁, hcont₁⟩ := exec_receive h (hss s List.mem_cons_self) s₀
    obtain ⟨fd₂, s₂, hrun₂, hcont₂⟩ := ih (fun t ht => hss t (List.mem_cons_of_mem _ ht)) hcont₁ s
    refine ⟨fd₂, s₂, ?_, hcont₂⟩
    rw [List.length_cons, receiveAll, exec_bind_ok hrun₁, exec_bind_ok (exec_get _)]
    simp only [exec_bind, hrun₂]
    rfl

/-- CORRECT: framing is exact and self-delimiting. Sending writes the frame of a string that fits and
    nothing of one that does not; receiving takes exactly a frame from the front of the input and
    fails on everything else; and the strings of a sequence of frames are the strings sent, however
    the transfers are cut into pieces. -/
theorem framing_exact :
    (∀ s, s.length ≤ 9998 → ∀ out : Outfd, out.Open → ∃ out' : Outfd,
      exec (send s) out = (.ok (), out') ∧ out'.written = out.written ++ frame s) ∧
    (∀ s, 9998 < s.length → ∀ out, ∃ what,
      exec (send s) out = (raise (.ioException what), out)) ∧
    (∀ (fd : Infd) s₀ s r,
      (∃ fd' : Infd, exec receive (fd, s₀) = (.ok (), (fd', s)) ∧ fd'.content = r) ↔
        fd.content = frame s ++ r ∧ s.length ≤ 9998) ∧
    (∀ fd : Infd, (¬∃ s r, fd.content = frame s ++ r ∧ s.length ≤ 9998) → ∀ s₀, ∃ what fd',
      exec receive (fd, s₀) = (raise (.ioException what), (fd', s₀))) ∧
    ∀ ss : List Bytes, (∀ s ∈ ss, s.length ≤ 9998) → ∀ out : Outfd, out.Open → out.written = [] →
      ∃ out' : Outfd, exec (sendAll ss) out = (.ok (), out') ∧
        ∀ (fd : Infd) (r : Bytes), fd.content = out'.written ++ r → ∀ s₀, ∃ fd' s',
          exec (receiveAll ss.length) (fd, s₀) = (.ok ss, (fd', s')) ∧ fd'.content = r := by
  refine ⟨?_, fun s hs out => ⟨_, exec_send_long hs out⟩, fun _ _ _ _ => exec_receive_iff,
    fun _ h s₀ => exec_receive_fails h s₀, ?_⟩
  · intro s hs out hopen
    obtain ⟨out', hrun, hw, -⟩ := exec_send hs hopen
    exact ⟨out', hrun, hw⟩
  · intro ss hss out hopen hempty
    obtain ⟨out', hrun, hw⟩ := exec_sendAll hss hopen
    rw [hempty, List.nil_append] at hw
    exact ⟨out', hrun, fun fd r h s₀ => exec_receiveAll hss (hw ▸ h) s₀⟩

/-- Two strings, one that looks like a frame and an empty one, over writes that are cut short. -/
theorem framing_exact_two :
    let ss := [ascii "0001\n", []]
    ∃ out' : Outfd, exec (sendAll ss) ⟨[], [.room 0, .interrupted, .room 2]⟩ = (.ok (), out') ∧
      ∀ (fd : Infd) (r : Bytes), fd.content = out'.written ++ r → ∀ s₀, ∃ fd' s',
        exec (receiveAll ss.length) (fd, s₀) = (.ok ss, (fd', s')) ∧ fd'.content = r :=
  framing_exact.2.2.2.2 [ascii "0001\n", []] (by decide) _ (by simp [Outfd.Open]) rfl

end Restaurant.Framing
