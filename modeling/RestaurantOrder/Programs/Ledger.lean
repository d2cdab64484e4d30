import RestaurantOrder.Programs.Updater
import RestaurantOrder.Session.Turns

/-! What a client program has asked, heard and told.

    The ledger of a program is what its actions so far amount to: the texts it has sent with the lines
    it had read for them, the texts it has received, and what it has printed besides its prompts. The
    ledger says what the program may do next; `Keeps` is the judgement that it does nothing else.

        stage   outside ──open──▶ calm ──send──▶ waiting ──receive──▶ calm ──close──▶ closed
                                   a transfer fails ──▶ broken ──close──▶ closed -/

namespace Restaurant.Program
open Schemes Process ClientUtil
open Wire (MessageText messageStr)

/-- Where the connection of a program stands. -/
inductive Stage where
  | outside
  | calm
  | waiting
  | broken
  | closed
  deriving DecidableEq, Repr

/-- `lines` are those read since the last prompt for a command, or since the start; `failed` is whether
    a transfer has failed. -/
structure Ledger where
  stage : Stage := .outside
  failed : Bool := false
  lines : List Bytes := []
  asked : List (List Bytes × Bytes) := []
  heard : List Bytes := []
  told : List Bytes := []

def Ledger.note (g : Ledger) : (a : Act) → a.Answer → Ledger
  | .openClientfd .., fd => { g with stage := if fd then .calm else .closed }
  | .getline, line => { g with lines := g.lines ++ [line.getD []] }
  | .print text, _ =>
    if text = ascii "> " then { g with lines := [] }
    else if text = ascii "username: " ∨ text = ascii "password: " then g
    else { g with told := g.told ++ [text] }
  | .complain _, _ => g
  | .send text, .ok _ => { g with stage := .waiting, asked := g.asked ++ [(g.lines, text)] }
  | .send text, .error _ =>
    { g with stage := .broken, failed := true, asked := g.asked ++ [(g.lines, text)] }
  | .receive, .ok text => { g with stage := .calm, heard := g.heard ++ [text] }
  | .receive, .error _ => { g with stage := .broken, failed := true }
  | .close, _ => { g with stage := .closed }

/-- The ledger after more lines have been read. -/
def Ledger.reads (g : Ledger) (lines : List Bytes) : Ledger := { g with lines := g.lines ++ lines }

/-- The ledger after a request has been sent and its response received. -/
def Ledger.answers (g : Ledger) (request response : Bytes) : Ledger :=
  { g with
    stage := .calm, asked := g.asked ++ [(g.lines, request)], heard := g.heard ++ [response] }

@[simp] theorem reads_reads (g : Ledger) (ls ls' : List Bytes) :
    (g.reads ls).reads ls' = g.reads (ls ++ ls') := by
  rw [Ledger.reads, Ledger.reads, Ledger.reads, List.append_assoc]

/-- The protocol of the programs that do what is allowed by the ledger. -/
def bookkeeping (allowed : Ledger → Act → Prop) : Protocol Act Act.Answer Ledger where
  allows := allowed
  answers _ _ _ := True
  next := Ledger.note

theorem note_prompt {text : Bytes} (h : text = ascii "username: " ∨ text = ascii "password: ")
    (g : Ledger) (r : Unit) : g.note (.print text) r = g := by
  rw [Ledger.note, if_neg (by rcases h with rfl | rfl <;> decide), if_pos h]

/-- The connection is open and no response is due, so it can be closed. -/
def Ledger.Idle (g : Ledger) : Prop := g.stage = .calm ∨ g.stage = .broken

/-- The login was answered with OK. -/
def Ledger.Welcomed (g : Ledger) : Prop :=
  ∃ raw rest msg, g.heard = raw :: rest ∧ MessageText Spelled msg raw ∧ msg.type = .ok

/-- The text is a LOGIN with the two lines that were read. -/
def Ledger.LogsIn (mode : ClientMode) (g : Ledger) (text : Bytes) : Prop :=
  g.asked = [] ∧ ∃ user pass, g.lines = [user, pass] ∧
    text = messageStr (.ofLogin .login mode (user ++ ascii "/" ++ pass))

/-- What every client program may do, up to its login. -/
def Opens (mode : ClientMode) (g : Ledger) : Act → Prop
  | .openClientfd .. => g.stage = .outside
  | .getline => True
  | .print text => g.asked = [] ∧ (text = ascii "username: " ∨ text = ascii "password: ")
  | .complain _ => True
  | .send text => g.stage = .calm ∧ g.LogsIn mode text
  | .receive => g.stage = .waiting
  | .close => g.Idle

/-! ### Requests and responses -/

section
variable {allowed : Ledger → Act → Prop}

theorem keeps_getline {α : Type} {f : Bytes → Proc α} {Q : Cpp α → Ledger → Prop} {g : Ledger}
    (hallowed : allowed g .getline)
    (h : ∀ line, Keeps (bookkeeping allowed) Q (f line) (g.reads [line])) :
    Keeps (bookkeeping allowed) Q (getline >>= f) g :=
  ⟨hallowed, fun line _ => h (line.getD [])⟩

theorem keeps_prompt {α : Type} {text : Bytes} {f : Unit → Proc α} {Q : Cpp α → Ledger → Prop}
    {g : Ledger} (hallowed : allowed g (.print text))
    (htext : text = ascii "username: " ∨ text = ascii "password: ")
    (h : Keeps (bookkeeping allowed) Q (f ()) g) : Keeps (bookkeeping allowed) Q (cout text >>= f) g :=
  ⟨hallowed, fun r _ => show Keeps _ Q (f r) (g.note (.print text) r) from
    (note_prompt htext g r).symm ▸ h⟩

/-- A check that throws, before the rest. -/
theorem keeps_unless {α : Type} {c : Prop} [Decidable c] {what : Bytes} {f : Unit → Proc α}
    {Q : Cpp α → Ledger → Prop} {g : Ledger} (hthrow : Q (raise (.protocolError what)) g)
    (h : ¬c → Keeps (bookkeeping allowed) Q (f ()) g) : Keeps (bookkeeping allowed) Q
      (if c then liftM (protocolError what : Cpp Unit) >>= f else f ()) g := by
  split
  · exact hthrow
  · next hc => exact h hc

/-- How a request and its response end: the response was received and is one, or a transfer has failed
    or what was received is no message, and the connection can be closed. -/
def Answered (g : Ledger) (request : Message) (r : Cpp Message) (g' : Ledger) : Prop :=
  match r with
  | .ok response => ∃ raw, MessageText Spelled response raw ∧ g' = g.answers (messageStr request) raw
  | .error (.throws _) => g'.Idle ∧ (g'.failed = true ∨
      ∃ raw, g'.heard = g.heard ++ [raw] ∧ ∀ msg, ¬MessageText Spelled msg raw)
  | .error .undefined => False

theorem sendRequestReceiveResponse_keeps {request : Message} (hfields : Wire.hasFields request)
    {g : Ledger} (hsend : allowed g (.send (messageStr request)))
    (hreceive : ∀ g' : Ledger, g'.stage = .waiting → allowed g' .receive) :
    Keeps (bookkeeping allowed) (Answered g request) (sendRequestReceiveResponse request) g := by
  have hencode : sendRequestReceiveResponse request = act (.send (messageStr request)) fun r =>
      done (answered r) >>= fun _ => receiveMessage := by
    rw [sendRequestReceiveResponse, sendMessage, runOn_ok (Wire.exec_encode hfields [])]
    rfl
  rw [hencode]
  refine ⟨hsend, fun r _ => ?_⟩
  rcases r with e | ⟨⟩
  · exact ⟨Or.inr rfl, Or.inl rfl⟩
  refine ⟨hreceive _ rfl, fun r _ => ?_⟩
  rcases r with e | raw
  · exact ⟨Or.inr rfl, Or.inl rfl⟩
  show Keeps _ _ (done (Session.decoded raw)) _
  rcases Session.decoded_cases raw with ⟨msg, hmsg, htext⟩ | ⟨what, hmsg⟩ <;> rw [hmsg]
  · exact ⟨raw, htext, rfl⟩
  · refine ⟨Or.inl rfl, Or.inr ⟨raw, rfl, fun msg htext => ?_⟩⟩
    rw [Session.decoded_iff.mpr htext] at hmsg
    cases hmsg

/-! ### The frame of main -/

/-- A reason for a program to end is one whatever the stage, and a transfer that failed or a login that
    was not answered with OK is always one. -/
structure Reason (E : Ledger → Prop) : Prop where
  stage : ∀ g stage, E g → E { g with stage }
  failed : ∀ g, g.failed = true → E g
  refused : ∀ g, ¬g.Welcomed → E g

theorem reason_any : Reason fun _ => True :=
  ⟨fun _ _ _ => trivial, fun _ _ => trivial, fun _ _ => trivial⟩

/-- The session is over: no undefined behaviour, and the connection can be closed, for a reason. -/
def Stopped {α : Type} (E : Ledger → Prop) (r : Cpp α) (g : Ledger) : Prop :=
  g.Idle ∧ E g ∧ r ≠ .error .undefined

/-- `main` has returned, for a reason, and has closed what it opened. -/
def Returned (E : Ledger → Prop) (r : Cpp Int32) (g : Ledger) : Prop :=
  (g.stage = .outside ∨ g.stage = .closed) ∧ E g ∧ ∃ code, r = .ok code

/-- Right behind the login. -/
structure Ledger.Begun (g : Ledger) : Prop where
  stage : g.stage = .calm
  welcomed : g.Welcomed
  heard : g.heard.length = 1
  told : g.told = []

theorem login_hasFields {mode : ClientMode} (hmode : mode ≠ .invalid) (user pass : Bytes) :
    Wire.hasFields (.ofLogin .login mode (user ++ ascii "/" ++ pass)) :=
  ⟨decide_eq_true hmode, by simp [Message.ofLogin, Message.hasStr, ascii]⟩

theorem promptForCredentials_keeps {mode : ClientMode} (hopens : ∀ g a, Opens mode g a → allowed g a)
    {g : Ledger} (hasked : g.asked = []) :
    Keeps (bookkeeping allowed) (fun r g' => ∃ user pass, r = .ok (user ++ ascii "/" ++ pass) ∧
      g' = g.reads [user, pass]) promptForCredentials g := by
  refine keeps_prompt (hopens _ _ ⟨hasked, Or.inl rfl⟩) (Or.inl rfl) ?_
  refine keeps_getline (hopens _ _ trivial) fun user => ?_
  refine keeps_prompt (hopens _ _ ⟨hasked, Or.inr rfl⟩) (Or.inr rfl) ?_
  exact keeps_getline (hopens _ _ trivial) fun pass => ⟨user, pass, rfl, reads_reads ..⟩

/-- The login, and what follows it. -/
theorem loggedIn_keeps {mode : ClientMode} (hmode : mode ≠ .invalid)
    (hopens : ∀ g a, Opens mode g a → allowed g a) {E : Ledger → Prop} (hE : Reason E)
    {rest : Proc Unit}
    (hrest : ∀ g : Ledger, g.Begun → Keeps (bookkeeping allowed) (Stopped E) rest g) {g : Ledger}
    (hstage : g.stage = .calm) (hlines : g.lines = []) (hasked : g.asked = [])
    (hheard : g.heard = []) (htold : g.told = []) :
    Keeps (bookkeeping allowed) (Stopped E) (loggedIn mode rest) g := by
  refine Keeps.bind ((promptForCredentials_keeps hopens hasked).mono ?_)
  rintro _ g' ⟨user, pass, rfl, rfl⟩
  have hlogin : Opens mode (g.reads [user, pass]) (.send (messageStr
      (.ofLogin .login mode (user ++ ascii "/" ++ pass)))) :=
    ⟨hstage, hasked, user, pass, by rw [Ledger.reads, hlines]; rfl, rfl⟩
  -- a first response that is not OK is no welcome
  have hrefused : ∀ {g' : Ledger} {raw : Bytes}, g'.heard = [raw] →
      (∀ msg, MessageText Spelled msg raw → msg.type ≠ .ok) → E g' := by
    intro g' raw hheard' hnot
    refine hE.refused g' ?_
    rintro ⟨raw', rest, msg, hheard'', htext, hok⟩
    obtain ⟨rfl, -⟩ := List.cons.inj (hheard'.symm.trans hheard'')
    exact hnot msg htext hok
  refine Keeps.bind ((sendRequestReceiveResponse_keeps (login_hasFields hmode user pass)
    (hopens _ _ hlogin) fun g' hg' => hopens g' .receive hg').mono ?_)
  rintro ((e | _) | response) g' hend
  · obtain ⟨hidle, hfailed | ⟨raw, hraw, hno⟩⟩ := hend
    · exact ⟨hidle, hE.failed g' hfailed, nofun⟩
    · refine ⟨hidle, hrefused ?_ fun msg htext => absurd htext (hno msg), nofun⟩
      rw [hraw, Ledger.reads, hheard, List.nil_append]
  · exact hend.elim
  obtain ⟨raw, htext, rfl⟩ := hend
  have hraw : ∀ request, ((g.reads [user, pass]).answers request raw).heard = [raw] := fun _ => by
    rw [Ledger.answers, Ledger.reads, hheard]
    rfl
  have hother : ∀ request, response.type ≠ .ok → E ((g.reads [user, pass]).answers request raw) :=
    fun request hne => hrefused (hraw request) fun msg hmsg => by
      have hsame := (Session.decoded_iff.mpr hmsg).symm.trans (Session.decoded_iff.mpr htext)
      rw [Except.ok.inj hsame]
      exact hne
  by_cases herror : response.type = .error
  · simp only [herror, if_true]
    exact ⟨hopens _ _ trivial, fun _ _ => ⟨Or.inl rfl, hother _ (by rw [herror]; decide), nofun⟩⟩
  by_cases hok : response.type = .ok
  · simp only [hok, reduceCtorEq, if_false, ne_eq, not_true_eq_false]
    refine Keeps.bind ((hrest _ ⟨rfl, ⟨raw, [], response, hraw _, htext, hok⟩, congrArg _ (hraw _),
      htold⟩).mono ?_)
    rintro (e | ⟨⟩) g' ⟨hidle, hreason, hne⟩
    · exact ⟨hidle, hreason, fun he => hne (congrArg _ (Except.error.inj he))⟩
    · exact ⟨hidle, hreason, nofun⟩
  · simp only [herror, hok, if_false, ne_eq, not_false_eq_true, if_true]
    exact ⟨Or.inl rfl, hother _ hok, nofun⟩

/-- A program that begins with a login and ends without undefined behaviour closes what it opens, and
    returns from `main`. -/
theorem clientMain_keeps {mode : ClientMode} (hmode : mode ≠ .invalid)
    (hopens : ∀ g a, Opens mode g a → allowed g a) {E : Ledger → Prop} (hE : Reason E)
    {rest : Proc Unit}
    (hrest : ∀ g : Ledger, g.Begun → Keeps (bookkeeping allowed) (Stopped E) rest g)
    {argv : List Bytes} (hargv : argv ≠ []) :
    Keeps (bookkeeping allowed) (Returned E) (clientMain mode argv rest) {} := by
  have hnever : ∀ stage, E { stage } := fun stage =>
    hE.refused _ fun ⟨_, _, _, hheard, _⟩ => List.cons_ne_nil _ _ hheard.symm
  have husage : ∀ program : Bytes, Keeps (bookkeeping allowed) (Returned E) (do
        cerr (ascii "Usage: " ++ program ++ ascii " <hostname> <port>\n")
        return 1 : Proc Int32) {} := fun program =>
    ⟨hopens _ _ trivial, fun _ _ => ⟨Or.inl rfl, hnever _, 1, rfl⟩⟩
  have hreport : ∀ e (g : Ledger), g.stage = .closed → E g →
      Keeps (bookkeeping allowed) (Returned E) (reportError e) g := fun e g hg hreason =>
    ⟨hopens _ _ trivial, fun _ _ => ⟨Or.inr hg, hreason, 1, rfl⟩⟩
  match argv with
  | [] => exact absurd rfl hargv
  | [program] => exact husage program
  | [program, _] => exact husage program
  | program :: _ :: _ :: _ :: _ => exact husage program
  | [_, hostname, port] =>
    refine Keeps.handle ⟨hopens _ _ rfl, fun fd _ => ?_⟩
    cases fd with
    | false => exact hreport _ _ rfl (hnever _)
    | true =>
      refine Keeps.leaving ((loggedIn_keeps hmode hopens hE hrest rfl rfl rfl rfl rfl).mono ?_)
      rintro ((e | _) | code) g ⟨hidle, hreason, hne⟩
      · exact ⟨hopens _ _ hidle, fun _ _ => hreport e _ rfl (hE.stage g _ hreason)⟩
      · exact absurd rfl hne
      · exact ⟨hopens _ _ hidle, fun _ _ => ⟨Or.inr rfl, hE.stage g _ hreason, code, rfl⟩⟩

end

end Restaurant.Program
