import RestaurantOrder.Session.Requests

/-! The script of an input: what the peer of a session has to say.

    The script are the messages that stand in the input one behind the other, up to the first QUIT and
    before anything that is no message. It is a matter of the bytes alone. The session of an updater
    hears its script from the beginning, and all of it before it ends (`run_script`).

        input     frame m₀ | frame m₁ | frame m₂ | frame QUIT | ..       or a frame that is no message
        script    m₀ m₁ m₂ QUIT
        heard     m₀ m₁ -/

namespace Restaurant.Session
open Schemes Process
open Framing (frame)
open Wire (MessageText text_unique)

/-- The text of the frame at the front of the input, and what stands behind the frame. -/
def unframe (content : Bytes) : Option (Bytes × Bytes) :=
  let text := (content.drop 4).take (value (content.take 4) - 1)
  let rest := content.drop (text.length + 5)
  if content = frame text ++ rest ∧ text.length ≤ 9998 then some (text, rest) else none

/-- The first `n` messages of the script at most. -/
def messages : ℕ → Bytes → List Message
  | 0, _ => []
  | n + 1, content =>
    match unframe content with
    | none => []
    | some (text, rest) =>
      match decoded text with
      | .error _ => []
      | .ok msg => msg :: if msg.type = .quit then [] else messages n rest

def script (content : Bytes) : List Message := messages content.length content

/-- The message that was received. -/
def heardOf : Happening → Option Message
  | .received (.ok raw) => (decoded raw).toOption
  | _ => none

/-- What was received is the last of the script, or stands behind it. -/
def Happening.Closes : Happening → Prop
  | .received r => Malformed r ∨ ∃ raw, r = .ok raw ∧ Quits raw
  | _ => False

/-! ### Scripts -/

theorem length_frame {s : Bytes} (hs : s.length ≤ 9998) : (frame s).length = s.length + 5 := by
  rw [frame, List.length_append, List.length_append, length_padded (by decide) (by omega)]
  simp
  omega

theorem unframe_iff {content text rest : Bytes} :
    unframe content = some (text, rest) ↔ content = frame text ++ rest ∧ text.length ≤ 9998 := by
  constructor
  · intro h
    simp only [unframe, Option.ite_none_right_eq_some, Option.some.injEq, Prod.mk.injEq] at h
    obtain ⟨hcont, htext, hrest⟩ := h
    rw [hrest, htext] at hcont
    exact hcont
  · rintro ⟨rfl, hlen⟩
    have hprefix : (padded 4 (text.length + 1)).length = 4 := length_padded (by decide) (by omega)
    have hsize : value ((frame text ++ rest).take 4) - 1 = text.length := by
      rw [frame, List.append_assoc, List.append_assoc, List.take_left' hprefix, value_padded]
      rfl
    have htext : ((frame text ++ rest).drop 4).take text.length = text := by
      rw [frame, List.append_assoc, List.append_assoc, List.drop_left' hprefix, List.take_left]
    have hrest : (frame text ++ rest).drop (text.length + 5) = rest := by
      rw [← length_frame hlen, List.drop_left]
    simp [unframe, hsize, htext, hrest, hlen]

theorem unframe_none {content : Bytes} (h : ¬∃ s r, content = frame s ++ r ∧ s.length ≤ 9998) :
    unframe content = none := by
  rw [Option.eq_none_iff_forall_not_mem]
  rintro ⟨text, rest⟩ hmem
  exact h ⟨text, rest, unframe_iff.mp hmem⟩

/-- More than the length of the input is not needed. -/
theorem messages_eq_script {n : ℕ} {content : Bytes} (hn : content.length ≤ n) :
    messages n content = script content := by
  have key : ∀ (n m : ℕ) (content : Bytes), content.length ≤ n → content.length ≤ m →
      messages n content = messages m content := by
    intro n
    induction n with
    | zero =>
      intro m content hn _
      obtain rfl := List.eq_nil_of_length_eq_zero (Nat.le_zero.mp hn)
      cases m <;> rfl
    | succ n ih =>
      intro m content hn hm
      cases m with
      | zero =>
        obtain rfl := List.eq_nil_of_length_eq_zero (Nat.le_zero.mp hm)
        rfl
      | succ m =>
        simp only [messages]
        cases hframe : unframe content with
        | none => rfl
        | some p =>
          obtain ⟨hcont, hlen⟩ := unframe_iff.mp hframe
          have hlength := congrArg List.length hcont
          rw [List.length_append, length_frame hlen] at hlength
          simp only
          rw [ih m p.2 (by omega) (by omega)]
  exact key n content.length content hn le_rfl

/-- The script goes on with the message in the frame at the front. -/
theorem script_message {text : Bytes} {msg : Message} (hlen : text.length ≤ 9998)
    (h : MessageText Spelled msg text) (rest : Bytes) :
    script (frame text ++ rest) = msg :: if msg.type = .quit then [] else script rest := by
  have hframe : unframe (frame text ++ rest) = some (text, rest) := unframe_iff.mpr ⟨rfl, hlen⟩
  obtain ⟨n, hn⟩ : ∃ n, (frame text ++ rest).length = n + 1 :=
    ⟨text.length + 4 + rest.length, by rw [List.length_append, length_frame hlen]; omega⟩
  have hrest : rest.length ≤ n := by
    rw [List.length_append, length_frame hlen] at hn
    omega
  rw [script, hn, messages, hframe]
  simp only [decoded_iff.mpr h]
  rw [messages_eq_script hrest]

/-- It ends before a frame that is no message. -/
theorem script_malformed {text : Bytes} (hlen : text.length ≤ 9998)
    (h : ∀ msg, ¬MessageText Spelled msg text) (rest : Bytes) : script (frame text ++ rest) = [] := by
  have hframe : unframe (frame text ++ rest) = some (text, rest) := unframe_iff.mpr ⟨rfl, hlen⟩
  rw [script]
  cases (frame text ++ rest).length with
  | zero => rfl
  | succ n =>
    rw [messages, hframe]
    simp only
    cases hdec : decoded text with
    | error e => rfl
    | ok msg => exact absurd (decoded_iff.mp hdec) (h msg)

theorem script_none {content : Bytes} (h : ¬∃ s r, content = frame s ++ r ∧ s.length ≤ 9998) :
    script content = [] := by
  rw [script]
  cases content.length with
  | zero => rfl
  | succ n => rw [messages, unframe_none h]

/-! ### Hearing it -/

theorem heardOf_ok {raw : Bytes} {msg : Message} (h : MessageText Spelled msg raw) :
    heardOf (.received (.ok raw)) = some msg := by
  rw [heardOf, decoded_iff.mpr h]
  rfl

theorem heardOf_eq_some {e : Happening} {msg : Message} (h : heardOf e = some msg) :
    ∃ raw, e = .received (.ok raw) ∧ MessageText Spelled msg raw := by
  rcases e with (e | raw) | _ | _ | _
  · cases h
  · refine ⟨raw, rfl, decoded_iff.mp ?_⟩
    rw [heardOf] at h
    cases hdec : decoded raw with
    | error e => rw [hdec] at h; cases h
    | ok msg' =>
      rw [hdec] at h
      obtain rfl := Option.some.inj h
      rfl
  all_goals cases h

theorem heardOf_malformed {r : Except Exception Bytes} (h : Malformed r) :
    heardOf (.received r) = none := by
  rw [Option.eq_none_iff_forall_not_mem]
  intro msg hmem
  obtain ⟨raw, hr, htext⟩ := heardOf_eq_some hmem
  exact h raw (Happening.received.inj hr) msg htext

theorem not_closes {raw : Bytes} {msg : Message} (htext : MessageText Spelled msg raw)
    (hquit : msg.type ≠ .quit) : ¬(Happening.received (.ok raw)).Closes := by
  rintro (hbad | ⟨raw', hraw, msg', htext', hquit'⟩)
  · exact hbad raw rfl msg htext
  · obtain rfl := Except.ok.inj hraw
    obtain rfl := text_unique htext htext'
    exact hquit hquit'

/-- How much of the script has been heard: all of it, or what is left of the input has the rest. -/
def Hearing (content : Bytes) (es : List Happening) (left : Bytes) : Prop :=
  (∃ h ∈ es, h.Closes) ∧ es.filterMap heardOf = script content ∨
    (∀ h ∈ es, ¬h.Closes) ∧ es.filterMap heardOf ++ script left = script content

theorem Hearing.begins {content left : Bytes} {es : List Happening} (h : Hearing content es left) :
    es.filterMap heardOf <+: script content := by
  rcases h with ⟨-, hall⟩ | ⟨-, hrest⟩
  · rw [hall]
  · exact ⟨_, hrest⟩

/-- FRAME: nothing is received. -/
theorem Hearing.deaf {content : Bytes} {es : List Happening} {left : Bytes} (h : Hearing content es left)
    {e : Happening} (hnone : receivedOf e = none) : Hearing content (es ++ [e]) left := by
  have hcloses : ¬e.Closes := by
    cases e with
    | received r => cases hnone
    | _ => exact id
  have hheard : (es ++ [e]).filterMap heardOf = es.filterMap heardOf := by
    rw [List.filterMap_append]
    cases e with
    | received r => cases hnone
    | _ => exact List.append_nil _
  rw [Hearing, hheard]
  refine h.imp (And.imp_left ?_) (And.imp_left ?_)
  · rintro ⟨e', he', hcloses'⟩
    exact ⟨e', List.mem_append_left _ he', hcloses'⟩
  · intro hopen e' he'
    rcases List.mem_append.mp he' with he' | he'
    · exact hopen e' he'
    · exact List.mem_singleton.mp he' ▸ hcloses

/-- A session that has not heard the end of its script hears the next message of it. -/
theorem Hearing.snoc {content : Bytes} {es : List Happening} {left : Bytes}
    (h : Hearing content es left) (hopen : ∀ h ∈ es, ¬h.Closes) {r : Except Exception Bytes} {left' : Bytes}
    (hr : (∃ s, r = .ok s ∧ s.length ≤ 9998 ∧ left = frame s ++ left') ∨
      (∃ what, r = .error (.ioException what)) ∧ ¬∃ s r, left = frame s ++ r ∧ s.length ≤ 9998) :
    Hearing content (es ++ [.received r]) left' := by
  obtain ⟨⟨e, he, hcloses⟩, -⟩ | ⟨-, hrest⟩ := h
  · exact absurd hcloses (hopen e he)
  have hmem : ∀ h' : Happening, h' ∈ es ++ [h'] := fun h' => by simp
  have hends : Malformed r → script left = [] → Hearing content (es ++ [.received r]) left' := by
    intro hbad hnil
    refine Or.inl ⟨⟨_, hmem _, Or.inl hbad⟩, ?_⟩
    rw [List.filterMap_append, ← hrest, hnil]
    simp [heardOf_malformed hbad]
  rcases hr with ⟨s, rfl, hs, rfl⟩ | ⟨⟨what, rfl⟩, hno⟩
  case inr => exact hends (fun raw hraw => by cases hraw) (script_none hno)
  rcases decoded_cases s with ⟨msg, -, htext⟩ | ⟨what, hdec⟩
  case inr =>
    have hbad : ∀ msg, ¬MessageText Spelled msg s := fun msg htext => by
      cases hdec.symm.trans (decoded_iff.mpr htext)
    refine hends (fun raw hraw msg => ?_) (script_malformed hs hbad left')
    obtain rfl := Except.ok.inj hraw
    exact hbad msg
  rw [script_message hs htext] at hrest
  have hheard : (es ++ [Happening.received (.ok s)]).filterMap heardOf = es.filterMap heardOf ++ [msg] := by
    rw [List.filterMap_append]
    simp [heardOf_ok htext]
  by_cases hquit : msg.type = .quit
  · rw [if_pos hquit] at hrest
    exact Or.inl ⟨⟨_, hmem _, Or.inr ⟨s, rfl, msg, htext, hquit⟩⟩, hheard.trans hrest⟩
  · rw [if_neg hquit] at hrest
    refine Or.inr ⟨fun e he => ?_, by rw [hheard, List.append_assoc]; exact hrest⟩
    rcases List.mem_append.mp he with he | he
    · exact hopen e he
    · exact List.mem_singleton.mp he ▸ not_closes htext hquit

/-! ### Sessions -/

theorem Accepts.not_closes {mode : ClientMode} {raw : Bytes} (h : Accepts mode raw) :
    ¬(Happening.received (.ok raw)).Closes := by
  obtain ⟨cred, htext, -⟩ := h
  exact Session.not_closes htext (show MessageType.login ≠ .quit by decide)

/-- A request is no QUIT. -/
theorem request_not_quit {msg : Message} {op : Op} (h : requestOf msg = some op) : msg.type ≠ .quit := by
  intro hquit
  rw [requestOf, hquit] at h
  cases h

theorem Turn.Holds.not_closes {t : Turn} (ht : t.Holds) : ∀ h ∈ t.events, ¬h.Closes := by
  intro h hmem
  cases t with
  | request x =>
    simp only [Turn.events, Exchange.events, List.mem_cons, List.not_mem_nil, or_false] at hmem
    rcases hmem with rfl | rfl | rfl
    · exact Session.not_closes (Exchange.Holds.text ht) (request_not_quit (Exchange.Holds.op ht))
    · exact id
    · exact id
  | scolding raw r =>
    obtain ⟨msg, htext, -, hquit⟩ := id ht
    rcases List.mem_pair.mp hmem with rfl | rfl
    · exact Session.not_closes htext hquit
    · exact id

section Updater
variable {this : Client} {n : ℕ} {es : List Happening} {p : Proc Unit}

/-- A session that receives has not heard the end of its script. -/
theorem Course.listens (h : Course this n es p) {f : Act.receive.Answer → Proc Unit}
    (hp : p = act Act.receive f) : ∀ h ∈ es, ¬h.Closes := by
  cases h with
  | opening => simp
  | rejected => cases hp
  | refusing => cases hp
  | refused => cases hp
  | greeting => cases hp
  | displaying hacc hevents hkeeps =>
    subst hp
    exact absurd hkeeps.1 id
  | @serving raw r k tail p turns hacc hturns htail hn =>
    intro h hmem
    rw [List.mem_cons, List.mem_cons, List.mem_append, List.mem_flatMap] at hmem
    rcases hmem with rfl | rfl | ⟨t, ht, hmem⟩ | hmem
    · exact hacc.not_closes
    · exact id
    · exact (hturns t ht).not_closes h hmem
    · cases htail with
      | listening => exact absurd hmem List.not_mem_nil
      | _ => cases hp

/-- A session that was let in ends with the end of its script. -/
theorem Course.closes (h : Course this n es p)
    (hlogin : ∀ r rest, es = .received r :: rest → ∃ raw, r = .ok raw ∧ Accepts .updater raw)
    (hp : p = done (.ok ())) : ∃ h ∈ es, h.Closes := by
  cases h with
  | opening => rw [chat_eq] at hp; cases hp
  | rejected hno =>
    obtain ⟨raw, hr, hacc⟩ := hlogin _ _ rfl
    exact absurd hacc (hno _ raw hr)
  | refusing => cases hp
  | refused hno =>
    obtain ⟨raw, hr, hacc⟩ := hlogin _ _ rfl
    obtain rfl := Except.ok.inj hr
    exact absurd hacc (hno _)
  | greeting => cases hp
  | displaying hacc =>
    obtain ⟨raw, hr, hacc'⟩ := hlogin _ _ rfl
    obtain rfl := Except.ok.inj hr
    cases hacc.unique hacc'
  | @serving raw r k tail p turns hacc hturns htail hn =>
    have hbehind : ∀ h ∈ tail, h ∈ Happening.received (.ok raw) :: .sent (Wire.messageStr welcome) r ::
        (turns.flatMap Turn.events ++ tail) := fun h hmem => by simp [hmem]
    cases htail with
    | listening => exact absurd hp (serving_ne_done _ _)
    | left hraw => exact ⟨_, hbehind _ List.mem_cons_self, Or.inr ⟨_, rfl, hraw⟩⟩
    | stopped hbad => exact ⟨_, hbehind _ List.mem_cons_self, Or.inl hbad⟩
    | _ => cases hp

end Updater

/-- HEAR: whatever the others do and whatever fails, what the session of an updater has heard is a
    beginning of its script, and when it has ended, all of it. -/
theorem run_script {this : Client} {n : ℕ} {conn : Connection} {server : Server} (hs : server.Good)
    (hlogin : LogsIn .updater conn.infd.content) {moves : List Move}
    {outs : List (Option Happening)} {scene : Scene}
    (h : (among this (opening this n conn server)).run moves = some (outs, scene)) :
    (happenings outs).filterMap heardOf <+: script conn.infd.content ∧
      (scene.Ended → (happenings outs).filterMap heardOf = script conn.infd.content) := by
  obtain ⟨-, hcourse, hhearing⟩ := run_inv (A := fun _ => True)
    (P := fun es scene => Course this n es scene.proc ∧
      Hearing conn.infd.content es scene.conn.infd.content) hs
    ⟨.opening, Or.inr ⟨by simp, rfl⟩⟩
    (by
      rintro es scene wake a k re ⟨hcourse, hhearing⟩ hgood hproc hre
      refine ⟨hcourse.step hproc hgood hre, ?_⟩
      by_cases ha : a = .receive
      · subst ha
        obtain ⟨r, infd, hre', hr⟩ := react_receive this wake scene.conn scene.server
        obtain rfl := Option.some.inj (hre'.symm.trans hre)
        exact hhearing.snoc (hcourse.listens hproc) hr
      · obtain ⟨hinfd, hnone⟩ := react_infd hre ha
        rw [hinfd]
        exact hhearing.deaf hnone)
    (fun _ _ _ _ _ hP _ _ _ => hP) (fun _ _ => trivial) h
  refine ⟨hhearing.begins, fun hend => ?_⟩
  obtain ⟨login, rest, hcont, hlen, hacc⟩ := hlogin
  have hrec : Received [login] rest (happenings outs) scene.conn :=
    run_received hs (by simpa using hlen) (by rw [List.flatMap_singleton]; exact hcont) h
  have hclosed := hcourse.closes (fun r es hes => ⟨login, Received.head (hes ▸ hrec), hacc⟩) hend
  rcases hhearing with ⟨-, hall⟩ | ⟨hopen, -⟩
  · exact hall
  · obtain ⟨e, he, hcloses⟩ := hclosed
    exact absurd hcloses (hopen e he)

end Restaurant.Session
