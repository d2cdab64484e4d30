import RestaurantOrder.Model.Order

/-! Robust reads and writes: `rio_readn` and `rio_writen` of csapp.cpp.

    `read` and `write` may transfer fewer bytes than asked for, and a signal may interrupt them. A
    descriptor is a script of what its system calls meet; `content` is the bytes that are still to
    come in. The loops hide the script: how many bytes they transfer depends on the content and on
    an error at its end only (`rioReadn_enough`, `rioReadn_short`, `rioWriten_open`).

        arrivals:  data ab · interrupted · data c ──rio_readn 3──▶ abc -/

namespace Restaurant.Framing
open Schemes

/-! ### Reading -/

/-- What a call of `read` meets: a nonempty piece of data, or a signal. -/
inductive Arrival where
  | data (b : Byte) (bs : Bytes)
  | interrupted
  deriving DecidableEq, Repr

/-- A descriptor to read from. Behind its last arrival `read` fails or is at the end of file. -/
structure Infd where
  arrivals : List Arrival
  fails : Bool
  deriving DecidableEq, Repr

namespace Infd

def bytesOf : Arrival → Bytes
  | .data b bs => b :: bs
  | .interrupted => []

/-- The bytes still to come. -/
def content (fd : Infd) : Bytes := fd.arrivals.flatMap bytesOf

/-- Input that comes one byte at a time. -/
@[simp] theorem content_data (bs : Bytes) (fails : Bool) :
    content ⟨bs.map fun b => .data b [], fails⟩ = bs := by
  simp [content, bytesOf, List.flatMap_map]

end Infd

/-- What `read` returns: some bytes, none of them at the end of file, `EINTR`, or another error. -/
inductive ReadResult where
  | got (bs : Bytes)
  | eintr
  | failed
  deriving DecidableEq, Repr

/-- The system call: it takes bytes from the first piece of data only. -/
def read (fd : Infd) (n : ℕ) : ReadResult × Infd :=
  match fd.arrivals with
  | [] => (if fd.fails then .failed else .got [], fd)
  | .interrupted :: rest => (.eintr, { fd with arrivals := rest })
  | .data b bs :: rest =>
    match (b :: bs).drop n with
    | [] => (.got (b :: bs), { fd with arrivals := rest })
    | c :: cs => (.got ((b :: bs).take n), { fd with arrivals := .data c cs :: rest })

/-- A read that returns data leaves the rest of the content to come. -/
theorem read_got {fd fd' : Infd} {n : ℕ} {b : Byte} {bs : Bytes}
    (h : read fd n = (.got (b :: bs), fd')) :
    fd.content = b :: bs ++ fd'.content ∧ (b :: bs).length ≤ n ∧ fd'.fails = fd.fails ∧
      fd'.arrivals.length ≤ fd.arrivals.length := by
  rw [read] at h
  rcases harr : fd.arrivals with _ | ⟨⟨a, as⟩ | _, rest⟩ <;> simp only [harr] at h
  · split at h <;> cases h
  · rw [Infd.content, harr, List.flatMap_cons, Infd.bytesOf]
    have hcut : (a :: as).take n ++ (a :: as).drop n = a :: as := List.take_append_drop n _
    rcases hd : (a :: as).drop n with _ | ⟨c, cs⟩ <;> rw [hd] at h hcut
    · cases h
      have hlen : (b :: bs).length ≤ n := List.drop_eq_nil_iff.mp hd
      exact ⟨rfl, hlen, rfl, by simp⟩
    · obtain ⟨htake, rfl⟩ := Prod.mk.inj h
      rw [ReadResult.got.injEq] at htake
      rw [htake] at hcut
      refine ⟨?_, ?_, rfl, by simp⟩
      · rw [← hcut, List.append_assoc]; rfl
      · rw [← htake, List.length_take]; exact Nat.min_le_left _ _
  · cases h

theorem read_eintr {fd fd' : Infd} {n : ℕ} (h : read fd n = (.eintr, fd')) :
    fd.content = fd'.content ∧ fd'.fails = fd.fails ∧
      fd'.arrivals.length < fd.arrivals.length := by
  rw [read] at h
  rcases harr : fd.arrivals with _ | ⟨⟨a, as⟩ | _, rest⟩ <;> simp only [harr] at h
  · split at h <;> cases h
  · split at h <;> cases h
  · cases h
    exact ⟨by rw [Infd.content, harr]; rfl, rfl, by simp⟩

/-- A read ends at the end of file or fails only when nothing is to come. -/
theorem read_end {fd fd' : Infd} {n : ℕ} (hn : 0 < n)
    (h : read fd n = (.got [], fd') ∨ read fd n = (.failed, fd')) :
    fd.content = [] ∧ fd' = fd ∧ (fd.fails = true ↔ read fd n = (.failed, fd')) := by
  have hread := read.eq_1 fd n
  rcases harr : fd.arrivals with _ | ⟨⟨a, as⟩ | _, rest⟩ <;> simp only [harr] at hread
  · rw [hread] at h ⊢
    refine ⟨by rw [Infd.content, harr]; rfl, ?_, ?_⟩
    · rcases h with h | h <;> exact (Prod.mk.inj h).2.symm
    · cases hf : fd.fails <;> simp_all
  · have htake : (a :: as).take n ≠ [] := by simp; omega
    rw [hread] at h
    split at h
    · rcases h with h | h <;> cases h
    · rcases h with h | h
      · exact absurd (ReadResult.got.inj (Prod.mk.inj h).1) htake
      · cases h
  · rw [hread] at h
    rcases h with h | h <;> cases h

/-- The loop of `rio_readn` with the bytes read so far; none is its return value -1. -/
def readLoop (fd : Infd) (nleft : ℕ) (buf : Bytes) : Option Bytes × Infd :=
  if _hn : 0 < nleft then
    match _h : read fd nleft with
    | (.failed, fd') => (none, fd')
    | (.eintr, fd') => readLoop fd' nleft buf
    | (.got [], fd') => (some buf, fd')
    | (.got (b :: bs), fd') => readLoop fd' (nleft - (b :: bs).length) (buf ++ b :: bs)
  else (some buf, fd)
termination_by nleft + fd.arrivals.length
decreasing_by
  · have := (read_eintr _h).2.2; omega
  · have := (read_got _h).2.2.2; rw [List.length_cons]; omega

def rioReadn (fd : Infd) (n : ℕ) : Option Bytes × Infd := readLoop fd n []

/-- The loop reads what it was asked for if that much is to come, and else up to the end. -/
theorem readLoop_spec (fd : Infd) (nleft : ℕ) (buf : Bytes) :
    ∃ fd' : Infd, fd'.fails = fd.fails ∧
      ((nleft ≤ fd.content.length ∧ readLoop fd nleft buf = (some (buf ++ fd.content.take nleft), fd')
          ∧ fd'.content = fd.content.drop nleft) ∨
        (fd.content.length < nleft ∧ fd'.content = [] ∧
          readLoop fd nleft buf
            = (if fd.fails then none else some (buf ++ fd.content), fd'))) := by
  rw [readLoop]
  by_cases hn : 0 < nleft
  case neg =>
    obtain rfl : nleft = 0 := by omega
    exact ⟨fd, rfl, Or.inl ⟨Nat.zero_le _, by simp, by simp⟩⟩
  rw [dif_pos hn]
  split
  · next fd₁ h =>
    obtain ⟨hnil, rfl, hfail⟩ := read_end hn (Or.inr h)
    exact ⟨fd₁, rfl, Or.inr ⟨by simpa [hnil] using hn, hnil, by simp [hfail.mpr h]⟩⟩
  · next fd₁ h =>
    obtain ⟨hcont, hfails, hlt⟩ := read_eintr h
    rw [hcont, ← hfails]
    exact readLoop_spec fd₁ nleft buf
  · next fd₁ h =>
    obtain ⟨hnil, rfl, hfail⟩ := read_end hn (Or.inl h)
    have hok : fd₁.fails = false := by
      rw [Bool.eq_false_iff]
      intro hf
      have := (hfail.mp hf).symm.trans h
      cases this
    exact ⟨fd₁, rfl, Or.inr ⟨by simpa [hnil] using hn, hnil, by simp [hnil, hok]⟩⟩
  · next b bs fd₁ h =>
    obtain ⟨hcont, hlen, hfails, harr⟩ := read_got h
    rw [List.length_cons] at hlen
    have hdec : nleft - (b :: bs).length + fd₁.arrivals.length < nleft + fd.arrivals.length := by
      rw [List.length_cons]; omega
    obtain ⟨fd', hf', hrun⟩ := readLoop_spec fd₁ (nleft - (b :: bs).length) (buf ++ b :: bs)
    refine ⟨fd', hf'.trans hfails, ?_⟩
    have hpiece : (b :: bs).length ≤ nleft := hlen
    have htake := List.take_of_length_le hpiece
    have hnone := List.drop_of_length_le hpiece
    rw [hcont, List.length_append, List.take_append, List.drop_append, htake, hnone]
    rcases hrun with ⟨hle, hres, hdrop⟩ | ⟨hlt, hnil, hres⟩
    · exact Or.inl ⟨by omega, by rw [hres, List.append_assoc], hdrop⟩
    · exact Or.inr ⟨by omega, hnil, by rw [hres, hfails, List.append_assoc]⟩
termination_by nleft + fd.arrivals.length

/-- `rio_readn` transfers the full count if that many bytes are to come. -/
theorem rioReadn_enough {fd : Infd} {n : ℕ} {a r : Bytes} (h : fd.content = a ++ r)
    (hlen : a.length = n) :
    ∃ fd' : Infd, rioReadn fd n = (some a, fd') ∧ fd'.content = r := by
  obtain ⟨fd', -, ⟨-, hres, hdrop⟩ | ⟨hlt, -⟩⟩ := readLoop_spec fd n []
  · rw [h, List.take_left' hlen, List.nil_append] at hres
    rw [h, List.drop_left' hlen] at hdrop
    exact ⟨fd', hres, hdrop⟩
  · rw [h, List.length_append] at hlt; omega

/-- It transfers less only at the end of file or at an error. -/
theorem rioReadn_short {fd : Infd} {n : ℕ} (h : fd.content.length < n) :
    ∃ fd' res, rioReadn fd n = (res, fd') ∧ ∀ bs ∈ res, bs.length ≠ n := by
  obtain ⟨fd', -, ⟨hle, -⟩ | ⟨-, -, hres⟩⟩ := readLoop_spec fd n []
  · omega
  · refine ⟨fd', _, hres, fun bs hbs => ?_⟩
    split at hbs
    · cases hbs
    · obtain rfl := Option.some.inj hbs
      rw [List.nil_append]; omega

/-! ### Writing -/

/-- What a call of `write` meets: room for `k + 1` bytes, a signal, or an error. -/
inductive Departure where
  | room (k : ℕ)
  | interrupted
  | broken
  deriving DecidableEq, Repr

/-- A descriptor to write to, with what has been written. Behind its last departure there is room
    for everything. -/
structure Outfd where
  written : Bytes
  departures : List Departure
  deriving DecidableEq, Repr

/-- No write to the descriptor meets an error. -/
def Outfd.Open (fd : Outfd) : Prop := .broken ∉ fd.departures

theorem Outfd.open_nil (written : Bytes) : Outfd.Open ⟨written, []⟩ := List.not_mem_nil

/-- The loop of `rio_writen` over the bytes that are left; false is its return value -1. -/
def writeLoop : List Departure → Bytes → Bytes → Bool × Outfd
  | departures, written, [] => (true, ⟨written, departures⟩)
  | [], written, b :: bs => (true, ⟨written ++ b :: bs, []⟩)
  | .broken :: rest, written, _ :: _ => (false, ⟨written, rest⟩)
  | .interrupted :: rest, written, b :: bs => writeLoop rest written (b :: bs)
  | .room k :: rest, written, b :: bs =>
    writeLoop rest (written ++ (b :: bs).take (k + 1)) ((b :: bs).drop (k + 1))

def rioWriten (fd : Outfd) (bs : Bytes) : Bool × Outfd := writeLoop fd.departures fd.written bs

theorem writeLoop_open : ∀ (departures : List Departure) (written left : Bytes),
    .broken ∉ departures → ∃ fd' : Outfd, writeLoop departures written left = (true, fd') ∧
      fd'.written = written ++ left ∧ fd'.Open
  | departures, written, [], h => by
      rw [writeLoop]
      exact ⟨_, rfl, by simp, h⟩
  | [], written, b :: bs, _ => ⟨_, rfl, rfl, List.not_mem_nil⟩
  | .broken :: rest, _, _ :: _, h => absurd List.mem_cons_self h
  | .interrupted :: rest, written, b :: bs, h =>
      writeLoop_open rest written (b :: bs) fun hr => h (List.mem_cons_of_mem _ hr)
  | .room k :: rest, written, b :: bs, h => by
      rw [writeLoop]
      obtain ⟨fd', hrun, hw, hopen⟩ := writeLoop_open rest (written ++ (b :: bs).take (k + 1))
        ((b :: bs).drop (k + 1)) fun hr => h (List.mem_cons_of_mem _ hr)
      exact ⟨fd', hrun, by rw [hw, List.append_assoc, List.take_append_drop], hopen⟩

/-- `rio_writen` transfers everything if no error occurs. -/
theorem rioWriten_open {fd : Outfd} (h : fd.Open) (bs : Bytes) :
    ∃ fd' : Outfd, rioWriten fd bs = (true, fd') ∧ fd'.written = fd.written ++ bs ∧ fd'.Open :=
  writeLoop_open fd.departures fd.written bs h

theorem writeLoop_part : ∀ (departures : List Departure) (written left : Bytes),
    ∃ part, (writeLoop departures written left).2.written = written ++ part ∧ part <+: left
  | departures, written, [] => ⟨[], by rw [writeLoop, List.append_nil], List.nil_prefix⟩
  | [], written, b :: bs => ⟨b :: bs, rfl, List.prefix_rfl⟩
  | .broken :: rest, written, b :: bs => ⟨[], by rw [writeLoop, List.append_nil], List.nil_prefix⟩
  | .interrupted :: rest, written, b :: bs => writeLoop_part rest written (b :: bs)
  | .room k :: rest, written, b :: bs => by
      obtain ⟨part, hw, hpart⟩ := writeLoop_part rest (written ++ (b :: bs).take (k + 1))
        ((b :: bs).drop (k + 1))
      refine ⟨(b :: bs).take (k + 1) ++ part, by rw [writeLoop, hw, List.append_assoc], ?_⟩
      conv_rhs => rw [← List.take_append_drop (k + 1) (b :: bs)]
      exact (List.prefix_append_right_inj _).mpr hpart

/-- Whatever errors occur, a beginning is written. -/
theorem rioWriten_part (fd : Outfd) (bs : Bytes) :
    ∃ part, (rioWriten fd bs).2.written = fd.written ++ part ∧ part <+: bs :=
  writeLoop_part fd.departures fd.written bs

end Restaurant.Framing
