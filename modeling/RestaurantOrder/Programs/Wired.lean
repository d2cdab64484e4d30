import RestaurantOrder.Programs.Dialogue

/-! What is on its way between a program and its thread.

    The thread receives the texts that the program has sent, one after the other, and the program
    receives what the thread has sent, whatever the two are doing otherwise. The program sends when the
    thread has received all that it has sent before; the thread may send ahead.

        received by the thread ≤ sent by the program
        received by the program ≤ sent by the thread -/

namespace Restaurant.Program
open Schemes Process
open Framing (frame)
open Session (Happening sentOf)

def receivedText : Happening → Option Bytes
  | .received (.ok raw) => some raw
  | _ => none

/-- The texts that a thread has received. -/
def ins (past : List Happening) : List Bytes := past.filterMap receivedText

/-- The texts that it has sent. -/
def outs (past : List Happening) : List Bytes := past.filterMap sentOf

/-- The texts that a program has sent. -/
def texts (g : Ledger) : List Bytes := g.asked.map Prod.snd

/-- It sends and receives nothing any more. -/
def Over (g : Ledger) : Prop := g.stage = .broken ∨ g.stage = .closed

structure Wired (s : Seat) (p : Session.Proc Unit) : Prop where
  order : ins s.past <+: texts s.ledger
  inbound : (∃ r, p = done r) ∨ Channel s.reset (texts s.ledger) (ins s.past) s.toServer
  heard : s.ledger.heard <+: outs s.past
  outbound : Over s.ledger ∨ Channel s.reset (outs s.past) s.ledger.heard s.toClient
  short : Over s.ledger ∨ ∀ t ∈ texts s.ledger, t.length ≤ 9998

/-- Before its connection is open the program has sent nothing. -/
structure Unlinked (s : Seat) : Prop where
  thread : s.thread = none
  past : s.past = []
  stage : s.ledger.stage = .outside ∨ s.ledger.stage = .closed
  asked : s.ledger.asked = []
  heard : s.ledger.heard = []
  toServer : s.toServer = []
  toClient : s.toClient = []

/-! ### Ledgers and pasts -/

theorem ins_snoc (past : List Happening) (h : Happening) :
    ins (past ++ [h]) = ins past ++ (receivedText h).toList := by
  rw [ins, List.filterMap_append]
  cases hh : receivedText h with
  | none => simp [hh, ins]
  | some raw => simp [hh, ins]

theorem outs_snoc (past : List Happening) (h : Happening) :
    outs (past ++ [h]) = outs past ++ (sentOf h).toList := by
  rw [outs, List.filterMap_append]
  cases hh : sentOf h with
  | none => simp [hh, outs]
  | some text => simp [hh, outs]

@[simp] theorem texts_send (g : Ledger) (text : Bytes) (r : Except Exception Unit) :
    texts (g.note (.send text) r) = texts g ++ [text] := by
  cases r <;> simp [texts, Ledger.note]

@[simp] theorem heard_send (g : Ledger) (text : Bytes) (r : Except Exception Unit) :
    (g.note (.send text) r).heard = g.heard := by
  cases r <;> rfl

/-- What a program says or reads elsewhere changes nothing that its thread could know of. -/
theorem note_else (g : Ledger) {a : Act} (r : a.Answer) (hopen : ∀ host port, a ≠ .openClientfd host port)
    (hsend : ∀ text, a ≠ .send text) (hreceive : a ≠ .receive) :
    (g.note a r).asked = g.asked ∧ (g.note a r).heard = g.heard ∧
      ((g.note a r).stage = g.stage ∨ (g.note a r).stage = .closed) := by
  cases a with
  | send text => exact absurd rfl (hsend text)
  | receive => exact absurd rfl hreceive
  | openClientfd host port => exact absurd rfl (hopen host port)
  | print text =>
    rw [Ledger.note]
    split
    · exact ⟨rfl, rfl, Or.inl rfl⟩
    · split <;> exact ⟨rfl, rfl, Or.inl rfl⟩
  | close => exact ⟨rfl, rfl, Or.inr rfl⟩
  | _ => exact ⟨rfl, rfl, Or.inl rfl⟩

theorem stage_note {g : Ledger} {a : Act} (hopen : ∀ host port, a ≠ .openClientfd host port)
    (h : g.stage ≠ .outside) (r : a.Answer) : (g.note a r).stage ≠ .outside := by
  cases a with
  | openClientfd host port => exact absurd rfl (hopen host port)
  | send text => cases r <;> simp [Ledger.note]
  | receive => cases r <;> simp [Ledger.note]
  | print text =>
    rw [Ledger.note]
    split
    · exact h
    · split <;> exact h
  | close => simp [Ledger.note]
  | _ => exact h

theorem not_over {g : Ledger} (h : g.stage = .calm ∨ g.stage = .waiting) : ¬Over g := by
  rintro (hover | hover) <;> rcases h with h | h <;> cases hover.symm.trans h

theorem not_done {a : Session.Act} {f : a.Answer → Session.Proc Unit} :
    ¬∃ r, (act a f : Session.Proc Unit) = done r := by
  rintro ⟨r, h⟩
  cases h

theorem reset_of_or {reset b : Bool} (h : (reset || b) = false) : reset = false ∧ b = false := by
  simpa using h

theorem eq_of_bne {xs ys : Bytes} (h : (xs != ys) = false) : xs = ys := by simpa using h

/-! ### Steps of the program -/

section
variable {this : Client} {n : ℕ} {s : Seat} {p : Session.Proc Unit}

theorem Wired.init (hpast : s.past = []) (htexts : texts s.ledger = []) (hheard : s.ledger.heard = [])
    (hto : s.toServer = []) (hfrom : s.toClient = []) : Wired s p := by
  refine ⟨?_, Or.inr ?_, ?_, Or.inr ?_, Or.inr ?_⟩
  · rw [hpast, htexts]
    exact List.prefix_rfl
  · rw [hpast, htexts, hto]
    exact Channel.init _
  · rw [hheard]
    exact List.nil_prefix
  · rw [hpast, hheard, hfrom]
    exact Channel.init _
  · rw [htexts]
    exact nofun

/-- FRAME: what has no part in the connection leaves it as it is. -/
theorem Wired.unchanged (h : Wired s p) {s' : Seat} (hpast : s'.past = s.past)
    (hto : s'.toServer = s.toServer) (hfrom : s'.toClient = s.toClient) (hreset : s'.reset = s.reset)
    (hasked : s'.ledger.asked = s.ledger.asked) (hheard : s'.ledger.heard = s.ledger.heard)
    (hstage : s'.ledger.stage = s.ledger.stage ∨ Over s'.ledger) : Wired s' p := by
  have htexts : texts s'.ledger = texts s.ledger := by rw [texts, texts, hasked]
  refine ⟨?_, ?_, ?_, ?_, ?_⟩
  · rw [hpast, htexts]
    exact h.order
  · rw [hpast, htexts, hto, hreset]
    exact h.inbound
  · rw [hpast, hheard]
    exact h.heard
  · rw [hpast, hheard, hfrom, hreset]
    rcases hstage with hstage | hover
    · rw [Over, hstage]
      exact h.outbound
    · exact Or.inl hover
  · rw [htexts]
    rcases hstage with hstage | hover
    · rw [Over, hstage]
      exact h.short
    · exact Or.inl hover

/-- The program sends when the thread has received everything. -/
theorem Wired.asks (h : Wired s p) (hover : ¬Over s.ledger) (hins : ins s.past = texts s.ledger)
    {text part : Bytes} (hpart : part <+: framed text) {r : Except Exception Unit}
    (hr : r = .ok () → text.length ≤ 9998) (proc : Proc Int32) :
    Wired (({ s with
      toServer := s.toServer ++ part, reset := s.reset || part != framed text } : Seat).went
        (.send text) r proc) p := by
  have hshort := h.short.resolve_left hover
  refine ⟨?_, ?_, ?_, ?_, ?_⟩
  · rw [Seat.went_ledger, texts_send]
    exact h.order.trans (List.prefix_append _ _)
  · refine h.inbound.imp_right fun hin => ?_
    rw [Seat.went_ledger, texts_send]
    refine hin.send (Or.inl ?_) hshort hpart fun hl => ?_
    · rw [hins, List.drop_length, hin.empty (by rw [hins])]
      rfl
    · obtain ⟨hl, hall⟩ := reset_of_or hl
      exact ⟨hl, eq_of_bne hall⟩
  · rw [Seat.went_ledger, heard_send]
    exact h.heard
  · rw [Seat.went_ledger, heard_send]
    exact Or.inr ((h.outbound.resolve_left hover).lose List.prefix_rfl fun hl =>
      ⟨(reset_of_or hl).1, rfl⟩)
  · rw [Seat.went_ledger]
    rcases r with e | ⟨⟩
    · exact Or.inl (Or.inl rfl)
    · refine Or.inr fun t ht => ?_
      rw [texts_send] at ht
      rcases List.mem_append.mp ht with ht | ht
      · exact hshort t ht
      · rw [List.mem_singleton.mp ht]
        exact hr rfl

/-- It receives what the thread has sent next, or fails. -/
theorem Wired.hears (h : Wired s p) (hover : ¬Over s.ledger) {w : Weather}
    (hbrings : w.Brings s.toClient) {r : Except Exception Bytes} {rest : Bytes}
    (hr : (∃ text, r = .ok text ∧ text.length ≤ 9998 ∧ w.infd.content = frame text ++ rest) ∨
      ∃ what, r = .error (.ioException what)) (proc : Proc Int32) :
    Wired (({ s with
      toClient := rest, reset := s.reset || w.infd.content != s.toClient } : Seat).went .receive r
        proc) p := by
  have hin : (∃ r, p = done r) ∨ Channel (s.reset || w.infd.content != s.toClient) (texts s.ledger)
      (ins s.past) s.toServer := h.inbound.imp_right fun hin =>
    hin.lose List.prefix_rfl fun hl => ⟨(reset_of_or hl).1, rfl⟩
  rcases hr with ⟨text, rfl, hlen, hcont⟩ | ⟨what, rfl⟩
  · have hout : Channel (s.reset || w.infd.content != s.toClient) (outs s.past)
        (s.ledger.heard ++ [text]) rest :=
      (h.outbound.resolve_left hover).receive hlen (hcont ▸ hbrings.prefix) fun hl =>
        ⟨(reset_of_or hl).1, hcont.symm.trans (eq_of_bne (reset_of_or hl).2)⟩
    exact ⟨h.order, hin, hout.order, Or.inr hout, Or.inr (h.short.resolve_left hover)⟩
  · exact ⟨h.order, hin, h.heard, Or.inl (Or.inl rfl), Or.inl (Or.inl rfl)⟩

/-- STEP: the program does something with its connection open. -/
theorem Wired.client (h : Wired s p) {a : Act} {found : Bool} {w : Weather} {r : a.Answer}
    {seat : Seat} (hre : react this n found w s a = some (r, seat))
    (hopen : ∀ host port, a ≠ .openClientfd host port)
    (hsend : ∀ text, a = .send text → ¬Over s.ledger ∧ ins s.past = texts s.ledger)
    (hreceive : a = .receive → ¬Over s.ledger) (proc : Proc Int32) :
    Wired (seat.went a r proc) p ∧ seat.thread = s.thread := by
  cases a with
  | openClientfd host port => exact absurd rfl (hopen host port)
  | send text =>
    obtain ⟨hover, hins⟩ := hsend text rfl
    obtain ⟨part, rfl, hpart, hr, -⟩ := react_send hre
    exact ⟨h.asks hover hins hpart hr proc, rfl⟩
  | receive =>
    obtain ⟨hbrings, -, rest, rfl, hr⟩ := react_receive hre
    exact ⟨h.hears (hreceive rfl) hbrings (hr.imp_right And.left) proc, rfl⟩
  | _ =>
    obtain ⟨stdin, hungUp, rfl⟩ := react_else hre nofun nofun nofun
    obtain ⟨hasked, hheard, hstage⟩ := note_else s.ledger r nofun nofun nofun
    exact ⟨h.unchanged rfl rfl rfl rfl hasked hheard (hstage.imp_right Or.inr), rfl⟩

/-- STEP: the program does something before its connection is open, or opens it. -/
theorem Unlinked.client (h : Unlinked s) {a : Act} {found : Bool} {w : Weather} {r : a.Answer}
    {seat : Seat} (hre : react this n found w s a = some (r, seat))
    (hsend : ∀ text, a = .send text → s.ledger.stage = .calm)
    (hreceive : a = .receive → s.ledger.stage = .calm ∨ s.ledger.stage = .waiting)
    (proc : Proc Int32) :
    Unlinked (seat.went a r proc) ∨
      (seat.went a r proc).thread = some (Session.chat this n) ∧ (seat.went a r proc).past = [] ∧
        (seat.went a r proc).ledger = { s.ledger with stage := .calm } ∧
        Wired (seat.went a r proc) (Session.chat this n) := by
  have hnot : ∀ {stage}, s.ledger.stage = stage → stage = .outside ∨ stage = .closed := by
    rintro stage rfl
    exact h.stage
  cases a with
  | send text => rcases hnot (hsend text rfl) with hstage | hstage <;> cases hstage
  | receive =>
    rcases hreceive rfl with hcalm | hwaiting
    · rcases hnot hcalm with hstage | hstage <;> cases hstage
    · rcases hnot hwaiting with hstage | hstage <;> cases hstage
  | openClientfd host port =>
    obtain ⟨rfl, rfl⟩ := Prod.mk.inj (Option.some.inj hre)
    cases found with
    | false => exact Or.inl { h with stage := Or.inr rfl }
    | true =>
      have htexts : texts s.ledger = [] := by rw [texts, h.asked]; rfl
      exact Or.inr ⟨rfl, h.past, rfl, Wired.init h.past htexts h.heard h.toServer h.toClient⟩
  | _ =>
    obtain ⟨stdin, hungUp, rfl⟩ := react_else hre nofun nofun nofun
    obtain ⟨hasked, hheard, hstage⟩ := note_else s.ledger r nofun nofun nofun
    refine Or.inl { h with stage := ?_, asked := hasked.trans h.asked, heard := hheard.trans h.heard }
    rcases hstage with hstage | hstage
    · exact h.stage.imp hstage.trans hstage.trans
    · exact Or.inr hstage

/-! ### Steps of the thread -/

/-- STEP: the thread does something; it is at its end if it fails to receive. -/
theorem Wired.thread {a : Session.Act} {f : a.Answer → Session.Proc Unit} (h : Wired s (act a f))
    {wake : Session.Wake} {w : Weather} (hbrings : w.Brings s.toServer) {server : Server}
    {re : Session.Reaction a} (hre : Session.react this wake (s.conn w) server a = some re)
    (hshort : ∀ text, a = .send text → ∀ t ∈ outs s.past, t.length ≤ 9998)
    (hfails : ∀ e, re.happening = .received (.error e) → ∃ r, f re.answer = done r) :
    Wired (s.reacted w re (f re.answer)) (f re.answer) := by
  have hin := h.inbound.resolve_left not_done
  have hlost : ∀ b, (s.reset || w.infd.content != s.toServer || b) = false →
      s.reset = false ∧ w.infd.content = s.toServer := fun b hl =>
    ⟨(reset_of_or (reset_of_or hl).1).1, eq_of_bne (reset_of_or (reset_of_or hl).1).2⟩
  -- what neither receives nor sends
  have hworks : re.conn.infd = w.infd → re.conn.outfd.written = s.toClient →
      receivedText re.happening = none → sentOf re.happening = none →
      Wired (s.reacted w re (f re.answer)) (f re.answer) := by
    intro hinfd hwritten hreceived hsent
    have hins : ins (s.past ++ [re.happening]) = ins s.past := by simp [ins_snoc, hreceived]
    have houts : outs (s.past ++ [re.happening]) = outs s.past := by simp [outs_snoc, hsent]
    refine ⟨hins ▸ h.order, Or.inr ?_, houts ▸ h.heard, h.outbound.imp_right fun hout => ?_, h.short⟩
    · rw [Seat.reacted_past, Seat.reacted_toServer, hins, hinfd]
      exact hin.lose hbrings.prefix (hlost _)
    · rw [Seat.reacted_past, Seat.reacted_toClient, houts, hwritten]
      exact hout.lose List.prefix_rfl fun hl => ⟨(hlost _ hl).1, rfl⟩
  cases a with
  | call op =>
    obtain ⟨out, server', -, rfl⟩ := Session.react_call.mp hre
    exact hworks rfl rfl rfl rfl
  | dequeue =>
    obtain ⟨hhap, -, hinfd, houtfd⟩ := Session.react_dequeued hre
    exact hworks hinfd (by rw [houtfd]; rfl) (by rw [hhap]; rfl) (by rw [hhap]; rfl)
  | receive =>
    obtain ⟨r, infd, hre', hcases⟩ := Session.react_receive this wake (s.conn w) server
    obtain rfl := Option.some.inj (hre'.symm.trans hre)
    have houts : outs (s.past ++ [.received r]) = outs s.past := by simp [outs_snoc, sentOf]
    have hout : Over s.ledger ∨ Channel (s.reset || w.infd.content != s.toServer || false)
        (outs (s.past ++ [.received r])) s.ledger.heard s.toClient := by
      rw [houts]
      exact h.outbound.imp_right fun hout =>
        hout.lose List.prefix_rfl fun hl => ⟨(hlost _ hl).1, rfl⟩
    obtain ⟨text, rfl, hlen, hcont⟩ | ⟨⟨what, rfl⟩, -⟩ := hcases
    · have hins : ins (s.past ++ [.received (.ok text)]) = ins s.past ++ [text] := ins_snoc ..
      have hin' : Channel (s.reset || w.infd.content != s.toServer || false) (texts s.ledger)
          (ins s.past ++ [text]) infd.content :=
        hin.receive hlen (hcont ▸ hbrings.prefix) fun hl =>
          ⟨(hlost _ hl).1, hcont.symm.trans (hlost _ hl).2⟩
      rw [← hins] at hin'
      exact ⟨hin'.order, Or.inr hin', houts ▸ h.heard, hout, h.short⟩
    · have hins : ins (s.past ++ [.received (.error (.ioException what))]) = ins s.past := by
        simp [ins_snoc, receivedText]
      exact ⟨hins ▸ h.order, Or.inl (hfails _ rfl), houts ▸ h.heard, hout, h.short⟩
  | send text =>
    obtain ⟨hinfd, -, part, hwritten, hpart, -, hnone, -⟩ := thread_send hre
    have hhap := (Session.react_sent hre).1
    have hins : ins (s.past ++ [re.happening]) = ins s.past := by
      rw [hhap]
      simp [ins_snoc, receivedText]
    have houts : outs (s.past ++ [re.happening]) = outs s.past ++ [text] := by
      rw [hhap]
      exact outs_snoc ..
    refine ⟨hins ▸ h.order, Or.inr ?_, ?_, h.outbound.imp_right fun hout => ?_, h.short⟩
    · rw [Seat.reacted_past, Seat.reacted_toServer, hins, hinfd]
      exact hin.lose hbrings.prefix (hlost _)
    · rw [Seat.reacted_past, houts]
      exact h.heard.trans (List.prefix_append _ _)
    · rw [Seat.reacted_past, Seat.reacted_toClient, Seat.reacted_reset, houts, hwritten]
      refine hout.send ?_ (hshort text rfl) hpart fun hl => ⟨(hlost _ hl).1, ?_⟩
      · cases hreset : s.reset with
        | true => exact Or.inr (hnone hreset)
        | false => exact Or.inl (hout.whole hreset)
      · have hall := (reset_of_or hl).2
        rw [hhap] at hall
        exact List.append_cancel_left (eq_of_bne hall)

end

end Restaurant.Program
