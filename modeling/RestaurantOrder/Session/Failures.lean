import RestaurantOrder.Session.Script

/-! What the loop of an updater goes on through.

    A send that fails and a message that the protocol does not allow there both leave the loop running,
    so that the requests behind them are carried out. Nothing goes wrong only where none stand in the
    input (`cutOff_iff`, `shutOut_iff`): the script says what stands there, and the send with the index
    `i` is the one for its message with the index `i`.

        script    LOGIN    m₁        m₂        m₃
        sends     OK       fails     ..                 no request may be among m₂ m₃ ..

    What has happened behind the login is a chain of five kinds of link:

        request ──▶ called ──▶ sent ──▶ received
        other   ──────────────▶ sent ──▶ received
        QUIT    ──────────────▶ sent                -/

namespace Restaurant.Session
open Schemes Process
open Framing (frame)
open Wire (MessageText messageStr text_unique)

/-- A send that fails. -/
def Happening.Fails : Happening → Prop
  | .sent _ (.error _) => True
  | _ => False

/-- A call of an operation. -/
def Happening.Calls : Happening → Prop
  | .called .. => True
  | _ => False

/-- A message comes in. -/
def Happening.Speaks : Happening → Prop
  | .received (.ok raw) => ∃ msg, MessageText Spelled msg raw
  | _ => False

/-- A request comes in: ORDER_NEW, ITEM_UPDATE or ORDER_UPDATE. -/
def Happening.Asks : Happening → Prop
  | .received (.ok raw) => ∃ msg op, MessageText Spelled msg raw ∧ requestOf msg = some op
  | _ => False

/-- A message comes in that is no request and no QUIT. -/
def Happening.Violates : Happening → Prop
  | .received (.ok raw) => Unexpected raw
  | _ => False

/-- Whether a send has succeeded. -/
def sentWell : Happening → Option Bool
  | .sent _ r => some r.isOk
  | _ => none

/-- The types of message that an updater may send behind its login. -/
def Expected (msg : Message) : Prop :=
  msg.type = .orderNew ∨ msg.type = .itemUpdate ∨ msg.type = .orderUpdate ∨ msg.type = .quit

/-- Behind the message for which a send fails no request stands in the input; `sends` says of each send
    whether it succeeds. -/
def Unasked (content : Bytes) (sends : List Bool) : Prop :=
  ∀ i, sends[i]? = some false → ∀ msg ∈ (script content).drop (i + 1), requestOf msg = none

/-- Behind the login, no message but the last that stands in the input is of another type. -/
def Unviolated (content : Bytes) : Prop := ∀ msg ∈ (script content).tail.dropLast, Expected msg

/-- Behind a send that fails nothing is called. -/
def CutOff (es : List Happening) : Prop := es.Pairwise fun e h => e.Fails → ¬h.Calls

/-- Behind a violation nothing is called, and there is at most one reply. -/
def ShutOut (es : List Happening) : Prop :=
  ∀ es₁ v es₂, es = es₁ ++ v :: es₂ → v.Violates →
    (∀ h ∈ es₂, ¬h.Calls) ∧ (es₂.filterMap sentOf).length ≤ 1

/-- What can follow what, behind the login. -/
inductive Follows : Happening → Happening → Prop
  | call {raw msg op out before after} (htext : MessageText Spelled msg raw)
      (hop : requestOf msg = some op) : Follows (.received (.ok raw)) (.called op out before after)
  | reply {op out before after text r} : Follows (.called op out before after) (.sent text r)
  | scold {raw r} (h : Unexpected raw) :
      Follows (.received (.ok raw)) (.sent (messageStr unexpected) r)
  | bye {raw r} (h : Quits raw) : Follows (.received (.ok raw)) (.sent (messageStr bye) r)
  | next {text r r'} : Follows (.sent text r) (.received r')

/-! ### Chains -/

section Chains
variable {α : Type} {R : α → α → Prop}

/-- In a chain something stands before each element but the first. -/
theorem before_of_chain : ∀ {e : α} {es : List α}, (e :: es).IsChain R → ∀ x ∈ es, ∃ a ∈ e :: es, R a x
  | e, x :: es, h, _, .head _ => ⟨e, List.mem_cons_self, (List.isChain_cons_cons.mp h).1⟩
  | e, y :: es, h, x, .tail _ hx => by
    obtain ⟨a, ha, hax⟩ := before_of_chain (List.isChain_cons_cons.mp h).2 x hx
    exact ⟨a, List.mem_cons_of_mem _ ha, hax⟩

/-- In a chain something stands behind each element but the last. -/
theorem behind_of_chain : ∀ {es : List α}, es.IsChain R → ∀ a ∈ es, a ∈ es.getLast? ∨ ∃ b ∈ es, R a b
  | [a], _, _, .head _ => Or.inl rfl
  | a :: b :: es, h, _, .head _ =>
    Or.inr ⟨b, List.mem_cons_of_mem _ List.mem_cons_self, (List.isChain_cons_cons.mp h).1⟩
  | e :: b :: es, h, a, .tail _ ha => by
    rcases behind_of_chain (List.isChain_cons_cons.mp h).2 a ha with hlast | ⟨c, hc, hac⟩
    · exact Or.inl (by rw [List.getLast?_cons_cons]; exact hlast)
    · exact Or.inr ⟨c, List.mem_cons_of_mem _ hc, hac⟩

/-- The last element is related to all others. -/
theorem last_of_pairwise {es : List α} (h : es.Pairwise R) {a : α} (ha : a ∈ es.getLast?) {e : α}
    (he : e ∈ es) : e = a ∨ R e a := by
  obtain ⟨init, rfl⟩ := List.getLast?_eq_some_iff.mp ha
  rcases List.mem_append.mp he with he | he
  · exact Or.inr ((List.pairwise_append.mp h).2.2 e he a (List.mem_singleton_self a))
  · exact Or.inl (List.mem_singleton.mp he)

theorem pairwise_of_split {es : List α} (h : ∀ es₁ a es₂, es = es₁ ++ a :: es₂ → ∀ b ∈ es₂, R a b) :
    es.Pairwise R := by
  induction es with
  | nil => exact .nil
  | cons e es ih =>
    refine .cons (h [] e es rfl) (ih fun es₁ a es₂ hes => h (e :: es₁) a es₂ ?_)
    rw [hes]
    rfl

/-- In what is picked out of a list, each element has its place. -/
theorem filterMap_split {β : Type} {f : α → Option β} {es : List α} {i : ℕ} {b : β}
    (h : (es.filterMap f)[i]? = some b) :
    ∃ es₁ a es₂, es = es₁ ++ a :: es₂ ∧ f a = some b ∧ (es₁.filterMap f).length = i := by
  induction es generalizing i with
  | nil => cases h
  | cons e es ih =>
    have hcons : ∀ j, (es.filterMap f)[j]? = some b → ∃ es₁ a es₂, e :: es = es₁ ++ a :: es₂ ∧
        f a = some b ∧ (es₁.filterMap f).length = ([e].filterMap f).length + j := by
      intro j hj
      obtain ⟨es₁, a, es₂, rfl, ha, rfl⟩ := ih hj
      refine ⟨e :: es₁, a, es₂, rfl, ha, ?_⟩
      rw [← List.length_append, ← List.filterMap_append]
      rfl
    cases he : f e with
    | none =>
      rw [List.filterMap_cons_none he] at h
      simpa [he] using hcons i h
    | some b' =>
      rw [List.filterMap_cons_some he] at h
      cases i with
      | zero => exact ⟨[], e, es, rfl, he.trans h, rfl⟩
      | succ i =>
        obtain ⟨es₁, a, es₂, hes, ha, hlen⟩ := hcons i h
        refine ⟨es₁, a, es₂, hes, ha, ?_⟩
        rw [hlen, List.filterMap_cons_some he]
        simp [Nat.add_comm]

theorem pairwise_dropLast {P : α → Prop} {es : List α} :
    es.Pairwise (fun a _ => P a) ↔ ∀ a ∈ es.dropLast, P a := by
  induction es with
  | nil => simp
  | cons e es ih =>
    cases es with
    | nil => simp
    | cons e' es =>
      rw [List.pairwise_cons, ih, List.dropLast_cons_cons, List.forall_mem_cons, List.forall_mem_cons]
      exact and_congr_left fun _ => and_iff_left_of_imp fun he _ _ => he

/-- The last element stays the last behind others. -/
theorem getLast?_behind {es : List α} {a : α} (ha : a ∈ es.getLast?) (e : α) (init : List α) :
    a ∈ (e :: (init ++ es)).getLast? := by
  rw [List.getLast?_cons, List.getLast?_append, Option.mem_def.mp ha]
  rfl

end Chains

/-! ### What follows what -/

theorem Follows.speaks {r : Except Exception Bytes} {b : Happening} (h : Follows (.received r) b) :
    (Happening.received r).Speaks := by
  cases h with
  | call htext => exact ⟨_, htext⟩
  | scold h => obtain ⟨msg, htext, -⟩ := h; exact ⟨msg, htext⟩
  | bye h => obtain ⟨msg, htext, -⟩ := h; exact ⟨msg, htext⟩

/-- Only a request is called. -/
theorem Follows.asks {a b : Happening} (h : Follows a b) (hb : b.Calls) : a.Asks := by
  cases h with
  | call htext hop => exact ⟨_, _, htext, hop⟩
  | _ => exact hb.elim

/-- A request is called next. -/
theorem Follows.calls {a b : Happening} (h : Follows a b) (ha : a.Asks) : b.Calls := by
  cases h with
  | call => exact trivial
  | scold h =>
    obtain ⟨msg, op, htext, hop⟩ := ha
    obtain ⟨msg', htext', hnone, -⟩ := h
    obtain rfl := text_unique htext htext'
    cases hop.symm.trans hnone
  | bye h =>
    obtain ⟨msg, op, htext, hop⟩ := ha
    obtain ⟨msg', htext', ht⟩ := h
    obtain rfl := text_unique htext htext'
    rw [requestOf, ht] at hop
    cases hop
  | reply => exact ha.elim
  | next => exact ha.elim

/-- A violation is answered with an ERROR. -/
theorem Follows.scolds {a b : Happening} (h : Follows a b) (ha : a.Violates) :
    ∃ r, b = .sent (messageStr unexpected) r := by
  cases h with
  | call htext hop =>
    obtain ⟨msg', htext', hnone, -⟩ := ha
    obtain rfl := text_unique htext htext'
    cases hop.symm.trans hnone
  | scold => exact ⟨_, rfl⟩
  | bye h =>
    obtain ⟨msg', htext', -, hquit⟩ := ha
    obtain ⟨msg, htext, ht⟩ := h
    obtain rfl := text_unique htext htext'
    exact absurd ht hquit
  | reply => exact ha.elim
  | next => exact ha.elim

theorem Happening.Asks.speaks {e : Happening} (h : e.Asks) : e.Speaks := by
  rcases e with (_ | raw) | _ | _ | _
  · exact h.elim
  · obtain ⟨msg, op, htext, -⟩ := h
    exact ⟨msg, htext⟩
  all_goals exact h.elim

theorem Happening.Violates.speaks {e : Happening} (h : e.Violates) : e.Speaks := by
  rcases e with (_ | raw) | _ | _ | _
  · exact h.elim
  · obtain ⟨msg, htext, -⟩ := h
    exact ⟨msg, htext⟩
  all_goals exact h.elim

theorem Happening.Violates.not_asks {e : Happening} (h : e.Violates) : ¬e.Asks := by
  rcases e with (_ | raw) | _ | _ | _
  · exact id
  · rintro ⟨msg, op, htext, hop⟩
    obtain ⟨msg', htext', hnone, -⟩ := h
    obtain rfl := text_unique htext htext'
    cases hop.symm.trans hnone
  all_goals exact id

theorem Happening.Speaks.not_fails {e : Happening} (h : e.Speaks) : ¬e.Fails := by
  cases e with
  | received r => exact False.elim
  | _ => exact h.elim

/-- A message is answered next, with a call or a reply. -/
theorem Follows.answers {a b : Happening} (h : Follows a b) (ha : a.Speaks) :
    b.Calls ∨ ∃ text r, b = .sent text r := by
  cases h with
  | call => exact Or.inl trivial
  | scold => exact Or.inr ⟨_, _, rfl⟩
  | bye => exact Or.inr ⟨_, _, rfl⟩
  | reply => exact ha.elim
  | next => exact ha.elim

/-! ### Sessions are chains -/

/-- The first of what happened, if any, is that something was received. -/
def Opens (es : List Happening) : Prop := ∀ a ∈ es.head?, ∃ r, a = .received r

theorem Pending.chain {k : ℕ} {tail : List Happening} {p : Proc Unit} (h : Pending k tail p) :
    tail.IsChain Follows ∧ Opens tail := by
  cases h with
  | listening => exact ⟨.nil, by simp [Opens]⟩
  | asked => exact ⟨.singleton _, by simp [Opens]⟩
  | replying h => exact ⟨List.isChain_pair.mpr (.call h.text h.op), by simp [Opens]⟩
  | scolding => exact ⟨.singleton _, by simp [Opens]⟩
  | leaving => exact ⟨.singleton _, by simp [Opens]⟩
  | left h => exact ⟨List.isChain_pair.mpr (.bye h), by simp [Opens]⟩
  | stopped => exact ⟨.singleton _, by simp [Opens]⟩

/-- Only a request makes the thread call something. -/
theorem Pending.asks {k : ℕ} {tail : List Happening} {p : Proc Unit} (h : Pending k tail p) {op : Op}
    {f : Out → Proc Unit} (hp : p = act (Act.call op) f) : ∃ a ∈ tail.getLast?, a.Asks := by
  cases h with
  | @listening k =>
    cases k with
    | zero => cases hp
    | succ k => rw [serving_succ] at hp; cases hp
  | asked htext hop => exact ⟨_, rfl, _, _, htext, hop⟩
  | _ => cases hp

/-- The session is not over with a message in hand. -/
theorem Pending.idle {k : ℕ} {tail : List Happening} {p : Proc Unit} (h : Pending k tail p)
    (hp : p = done (.ok ())) : ∃ a ∈ tail.getLast?, ¬a.Speaks := by
  cases h with
  | listening => exact absurd hp (serving_ne_done _ _)
  | left => exact ⟨_, rfl, id⟩
  | @stopped k r h =>
    refine ⟨_, rfl, fun hspeaks => ?_⟩
    cases r with
    | error e => exact hspeaks
    | ok raw =>
      obtain ⟨msg, htext⟩ := hspeaks
      exact h raw rfl msg htext
  | _ => cases hp

theorem chain_turns {turns : List Turn} (hturns : ∀ t ∈ turns, t.Holds) {tail : List Happening}
    (htail : tail.IsChain Follows) (hopens : Opens tail) :
    (turns.flatMap Turn.events ++ tail).IsChain Follows ∧ Opens (turns.flatMap Turn.events ++ tail) := by
  induction turns with
  | nil => exact ⟨htail, hopens⟩
  | cons t turns ih =>
    obtain ⟨hchain, hfirst⟩ := ih fun t' ht' => hturns t' (List.mem_cons_of_mem _ ht')
    have ht := hturns t List.mem_cons_self
    have hnext : ∀ {text r}, ∀ a ∈ (turns.flatMap Turn.events ++ tail).head?,
        Follows (.sent text r) a := fun {_ _} a ha => by
      obtain ⟨r', rfl⟩ := hfirst a ha
      exact .next
    rw [List.flatMap_cons, List.append_assoc]
    cases t with
    | request x =>
      refine ⟨?_, by simp [Opens, Turn.events, Exchange.events]⟩
      exact .cons_cons (.call (Exchange.Holds.text ht) (Exchange.Holds.op ht))
        (.cons_cons .reply (hchain.cons hnext))
    | scolding raw r =>
      exact ⟨.cons_cons (.scold ht) (hchain.cons hnext), by simp [Opens, Turn.events]⟩

section Updater
variable {this : Client} {n : ℕ} {es : List Happening} {p : Proc Unit} (h : Course this n es p)
  (hmode : ∀ mode raw rest, es = .received (.ok raw) :: rest → Accepts mode raw → mode = .updater)
include h hmode

/-- What the session of an updater has done behind its login is a chain, which begins with a send. -/
theorem Course.chain : Opens es ∧ es.tail.IsChain Follows ∧
    ∀ a ∈ es.tail.head?, ∃ text r, a = .sent text r := by
  cases h with
  | opening => exact ⟨by simp [Opens], .nil, by simp⟩
  | rejected => exact ⟨by simp [Opens], .nil, by simp⟩
  | refusing => exact ⟨by simp [Opens], .nil, by simp⟩
  | refused => exact ⟨by simp [Opens], .singleton _, by simp⟩
  | greeting => exact ⟨by simp [Opens], .nil, by simp⟩
  | serving hacc hturns htail =>
    obtain ⟨hchain, hopens⟩ := htail.chain
    obtain ⟨hturnchain, hfirst⟩ := chain_turns hturns hchain hopens
    refine ⟨by simp [Opens], hturnchain.cons fun a ha => ?_, by simp⟩
    obtain ⟨r', rfl⟩ := hfirst a ha
    exact .next
  | displaying hacc => cases hmode _ _ _ rfl hacc

theorem Course.asks {op : Op} {f : Out → Proc Unit} (hp : p = act (Act.call op) f) :
    ∃ a ∈ es.tail.getLast?, a.Asks := by
  cases h with
  | opening => rw [chat_eq] at hp; cases hp
  | rejected => cases hp
  | refusing => cases hp
  | refused => cases hp
  | greeting => cases hp
  | serving hacc hturns htail =>
    obtain ⟨a, ha, hasks⟩ := htail.asks hp
    exact ⟨a, getLast?_behind ha _ _, hasks⟩
  | displaying hacc => cases hmode _ _ _ rfl hacc

theorem Course.idle (hp : p = done (.ok ())) : ∀ a ∈ es.tail.getLast?, ¬a.Speaks := by
  cases h with
  | opening => rw [chat_eq] at hp; cases hp
  | rejected => simp
  | refusing => cases hp
  | refused => simp [Happening.Speaks]
  | greeting => cases hp
  | serving hacc hturns htail =>
    obtain ⟨b, hb, hnot⟩ := htail.idle hp
    intro a ha
    obtain rfl := Option.some.inj (ha.symm.trans (getLast?_behind hb _ _))
    exact hnot
  | displaying hacc => cases hmode _ _ _ rfl hacc

end Updater

/-- What holds of the session of an updater in every run. -/
structure Orderly (es : List Happening) (scene : Scene) : Prop where
  opens : ∀ e ∈ es.head?, ¬e.Fails ∧ (heardOf e).isSome
  chain : es.tail.IsChain Follows
  answered : ∀ e ∈ es.tail.head?, ∃ text r, e = .sent text r
  asks : ∀ op f, scene.proc = act (Act.call op) f → ∃ a ∈ es.tail.getLast?, a.Asks
  idle : scene.Ended → ∀ a ∈ es.tail.getLast?, ¬a.Speaks

theorem run_orderly {this : Client} {n : ℕ} {conn : Connection} {server : Server} (hs : server.Good)
    (hlogin : LogsIn .updater conn.infd.content) {moves : List Move}
    {outs : List (Option Happening)} {scene : Scene}
    (h : (among this (opening this n conn server)).run moves = some (outs, scene)) :
    Orderly (happenings outs) scene := by
  obtain ⟨-, hcourse⟩ := run_course hs h
  have hmode : ∀ mode raw rest, happenings outs = .received (.ok raw) :: rest →
      Accepts mode raw → mode = .updater := fun mode raw rest hes hacc =>
    (run_first hs h hes hacc).unique hlogin
  obtain ⟨hopens, hchain, hsent⟩ := hcourse.chain hmode
  refine ⟨fun e he => ?_, hchain, hsent, fun op f => hcourse.asks hmode, hcourse.idle hmode⟩
  obtain ⟨r, rfl⟩ := hopens e he
  obtain ⟨login, rest, hcont, hlen, cred, htext, -⟩ := hlogin
  have hrec : Received [login] rest (happenings outs) scene.conn :=
    run_received hs (by simpa using hlen) (by rw [List.flatMap_singleton]; exact hcont) h
  obtain ⟨es, hes⟩ : ∃ es, happenings outs = .received r :: es :=
    ⟨_, (List.cons_head?_tail he).symm⟩
  obtain rfl := Received.head (hes ▸ hrec)
  exact ⟨id, by rw [heardOf_ok htext]; rfl⟩

/-- Only a call changes the server. -/
theorem step_server {this : Client} {scene scene' : Scene} {wake : Wake} {o : Option Happening}
    (h : (among this scene).step scene (.own wake) = some (o, scene')) :
    scene'.server = scene.server ∨ ∃ op k, scene.proc = act (Act.call op) k := by
  obtain ⟨a, k, re, hproc, hre, -, rfl⟩ := step_own.mp h
  cases a with
  | receive => exact Or.inl (react_received hre).2
  | send text => exact Or.inl (react_sent hre).2
  | call op => exact Or.inr ⟨op, k, hproc⟩
  | dequeue => exact Or.inl (react_dequeued hre).2.1

/-! ### Whose send it is -/

/-- Up to a send behind the login as many messages have been heard as have been answered, behind one the
    next message is due. -/
def Balanced (es : List Happening) : Happening → Prop
  | .sent .. => (es.filterMap heardOf).length + 1 = (es.filterMap sentWell).length
  | e => e.Speaks ∨ e.Calls → (es.filterMap heardOf).length = (es.filterMap sentWell).length

@[simp] theorem heardOf_sent (text : Bytes) (r : Except Exception Unit) :
    heardOf (.sent text r) = none := rfl

@[simp] theorem heardOf_called (op : Op) (out : Out) (before after : Server) :
    heardOf (.called op out before after) = none := rfl

@[simp] theorem sentWell_received (r : Except Exception Bytes) : sentWell (.received r) = none := rfl

@[simp] theorem sentWell_sent (text : Bytes) (r : Except Exception Unit) :
    sentWell (.sent text r) = some r.isOk := rfl

@[simp] theorem sentWell_called (op : Op) (out : Out) (before after : Server) :
    sentWell (.called op out before after) = none := rfl

theorem heardOf_speaks {e : Happening} : (heardOf e).isSome ↔ e.Speaks := by
  constructor
  · intro h
    obtain ⟨msg, hmsg⟩ := Option.isSome_iff_exists.mp h
    obtain ⟨raw, rfl, htext⟩ := heardOf_eq_some hmsg
    exact ⟨msg, htext⟩
  · intro h
    rcases e with (_ | raw) | _ | _ | _
    · exact h.elim
    · obtain ⟨msg, htext⟩ := h
      rw [heardOf_ok htext]
      rfl
    all_goals exact h.elim

/-- STEP: one thing follows the other. -/
theorem Balanced.snoc {es : List Happening} {a b : Happening} (h : Balanced es a) (hab : Follows a b) :
    Balanced (es ++ [b]) b := by
  have hanswers : ∀ {text r}, (es.filterMap heardOf).length = (es.filterMap sentWell).length →
      Balanced (es ++ [.sent text r]) (.sent text r) := by
    intro text r heq
    simp [Balanced, heq]
  cases hab with
  | call htext =>
    have heq := h (Or.inl ⟨_, htext⟩)
    rintro -
    simp [List.filterMap_cons, heq]
  | reply => exact hanswers (h (Or.inr trivial))
  | scold hraw =>
    obtain ⟨msg, htext, -⟩ := hraw
    exact hanswers (h (Or.inl ⟨msg, htext⟩))
  | bye hraw =>
    obtain ⟨msg, htext, -⟩ := hraw
    exact hanswers (h (Or.inl ⟨msg, htext⟩))
  | @next text r r' =>
    rintro (hspeaks | hcalls)
    · obtain ⟨msg, hmsg⟩ := Option.isSome_iff_exists.mp (heardOf_speaks.mpr hspeaks)
      have hdue : (es.filterMap heardOf).length + 1 = (es.filterMap sentWell).length := h
      simp [hmsg, hdue]
    · exact hcalls.elim

theorem balanced_of_chain {es : List Happening} {a : Happening} (hchain : (es ++ [a]).IsChain Follows)
    (hsent : ∀ e ∈ (es ++ [a]).head?, ∃ text r, e = .sent text r) : Balanced (es ++ [a]) a := by
  induction es using List.reverseRecOn generalizing a with
  | nil =>
    obtain ⟨text, r, rfl⟩ := hsent a rfl
    exact rfl
  | append_singleton es b ih =>
    obtain ⟨hbefore, -, hlink⟩ := List.isChain_append.mp hchain
    refine (ih hbefore fun e he => hsent e ?_).snoc (hlink b (by simp) a rfl)
    rw [List.head?_append, Option.mem_def.mp he]
    rfl

/-- Behind the send with the index `i` the messages from the index `i + 1` on are heard. -/
theorem Orderly.heard_behind {es₁ es₂ : List Happening} {text : Bytes} {r : Except Exception Unit}
    {scene : Scene} (h : Orderly (es₁ ++ .sent text r :: es₂) scene) :
    (es₁.filterMap heardOf).length = (es₁.filterMap sentWell).length + 1 := by
  obtain ⟨hopens, hchain, hsent, -, -⟩ := h
  cases es₁ with
  | nil =>
    have hsome := (hopens _ rfl).2
    cases hsome
  | cons first es₁ =>
    obtain ⟨msg, hmsg⟩ := Option.isSome_iff_exists.mp (hopens first rfl).2
    obtain ⟨raw, rfl, -⟩ := heardOf_eq_some hmsg
    rw [List.cons_append, List.tail_cons, ← List.singleton_append, ← List.append_assoc] at hchain hsent
    have hbalanced := balanced_of_chain hchain.left_of_append fun e he => hsent e (by
      rw [List.head?_append, Option.mem_def.mp he]
      rfl)
    simp only [Balanced, List.filterMap_append, List.filterMap_cons, heardOf_sent, sentWell_sent,
      List.filterMap_nil, List.append_nil, List.length_append, List.length_singleton] at hbalanced
    simp only [List.filterMap_cons, hmsg, sentWell_received, List.length_cons]
    omega

/-! ### Sends that fail -/

theorem asks_of_heard {e : Happening} {msg : Message} (h : heardOf e = some msg) :
    e.Asks ↔ requestOf msg ≠ none := by
  obtain ⟨raw, rfl, htext⟩ := heardOf_eq_some h
  constructor
  · rintro ⟨msg', op, htext', hop⟩ hnone
    obtain rfl := text_unique htext htext'
    cases hnone.symm.trans hop
  · intro hne
    obtain ⟨op, hop⟩ := Option.ne_none_iff_exists'.mp hne
    exact ⟨msg, op, htext, hop⟩

/-- Where the input has no request behind a send that fails, none is heard there. -/
theorem Orderly.unasked {es : List Happening} {scene : Scene} (h : Orderly es scene) {content : Bytes}
    (hscript : es.filterMap heardOf <+: script content)
    (hcond : Unasked content (es.filterMap sentWell)) : es.Pairwise fun e h => e.Fails → ¬h.Asks := by
  refine pairwise_of_split ?_
  rintro es₁ e es₂ rfl x hx hfails hasks
  cases e with
  | sent text r =>
    cases r with
    | ok => exact hfails.elim
    | error e =>
      obtain ⟨msg, hmsg⟩ := Option.isSome_iff_exists.mp (heardOf_speaks.mpr hasks.speaks)
      refine (asks_of_heard hmsg).mp hasks (hcond (es₁.filterMap sentWell).length ?_ msg ?_)
      · rw [List.filterMap_append]
        simp
        rfl
      · have hbehind : es₂.filterMap heardOf
            = ((es₁ ++ .sent text (.error e) :: es₂).filterMap heardOf).drop
                ((es₁.filterMap sentWell).length + 1) := by
          rw [← h.heard_behind, List.filterMap_append, List.drop_left]
          rfl
        refine (hscript.drop _).subset ?_
        rw [← hbehind]
        exact List.mem_filterMap.mpr ⟨x, hx, hmsg⟩
  | _ => exact hfails.elim

/-- Where all of the input has been heard, and no request behind a send that fails, the input has none
    there. -/
theorem Orderly.unasked_of {es : List Happening} {scene : Scene} (h : Orderly es scene)
    {content : Bytes} (hscript : es.filterMap heardOf = script content)
    (hunasked : es.Pairwise fun e h => e.Fails → ¬h.Asks) : Unasked content (es.filterMap sentWell) := by
  intro i hi msg hmsg
  obtain ⟨es₁, e, es₂, rfl, he, rfl⟩ := filterMap_split hi
  cases e with
  | sent text r =>
    cases r with
    | ok => cases he
    | error e =>
      rw [← hscript, ← h.heard_behind, List.filterMap_append, List.drop_left] at hmsg
      obtain ⟨x, hx, hheard⟩ := List.mem_filterMap.mp (show msg ∈ es₂.filterMap heardOf from hmsg)
      by_contra hne
      have hbehind := (List.pairwise_cons.mp (List.pairwise_append.mp hunasked).2.1).1
      exact hbehind x hx trivial ((asks_of_heard hheard).mpr hne)
  | _ => cases he

theorem cutOff_of_chain {es : List Happening} (hchain : es.IsChain Follows)
    (h : es.Pairwise fun e h => e.Fails → ¬h.Asks) : CutOff es := by
  induction es with
  | nil => exact .nil
  | cons e es ih =>
    obtain ⟨hfirst, hrest⟩ := List.pairwise_cons.mp h
    refine .cons (fun x hx hfails hcalls => ?_) (ih hchain.tail hrest)
    obtain ⟨a, ha, hax⟩ := before_of_chain hchain x hx
    have hasks := hax.asks hcalls
    rcases List.mem_cons.mp ha with rfl | ha
    · exact hasks.speaks.not_fails hfails
    · exact hfirst a ha hfails hasks

theorem unasked_of_cutOff {es : List Happening} (hchain : es.IsChain Follows)
    (hlast : ∀ a ∈ es.getLast?, ¬a.Speaks) (h : CutOff es) :
    es.Pairwise fun e h => e.Fails → ¬h.Asks := by
  induction es with
  | nil => exact .nil
  | cons e es ih =>
    have hlast' : ∀ a ∈ es.getLast?, ¬a.Speaks := fun a ha => hlast a (getLast?_behind ha e [])
    obtain ⟨hfirst, hrest⟩ := List.pairwise_cons.mp h
    refine .cons (fun x hx hfails hasks => ?_) (ih hchain.tail hlast' hrest)
    rcases behind_of_chain hchain.tail x hx with hx | ⟨b, hb, hxb⟩
    · exact hlast' x hx hasks.speaks
    · exact hfirst b hb hfails (hxb.calls hasks)

/-- CORRECT: when a send to an updater has failed, its session calls nothing more and leaves the server
    alone, if and only if no request stands in the input behind the message that the send was for, up to
    the first QUIT and before anything that is no message. -/
theorem cutOff_iff {this : Client} {n : ℕ} {conn : Connection} {ops : List Op} {outs₀ : List Out}
    {server : Server} (hserver : Server.machine.run ops = some (outs₀, server))
    (hlogin : LogsIn .updater conn.infd.content) {moves : List Move}
    {outs : List (Option Happening)} {scene : Scene}
    (h : (among this (opening this n conn server)).run moves = some (outs, scene)) :
    (Unasked conn.infd.content ((happenings outs).filterMap sentWell) → CutOff (happenings outs) ∧
      ((∃ e ∈ happenings outs, e.Fails) → ∀ wake o scene',
        (among this scene).step scene (.own wake) = some (o, scene') →
          scene'.server = scene.server)) ∧
    (scene.Ended → CutOff (happenings outs) →
      Unasked conn.infd.content ((happenings outs).filterMap sentWell)) := by
  have hs := Server.run_good hserver
  have horderly := run_orderly hs hlogin h
  obtain ⟨hscript, hall⟩ := run_script hs hlogin h
  refine ⟨fun hcond => ?_, fun hend hcut => horderly.unasked_of (hall hend) ?_⟩
  · have hunasked := horderly.unasked hscript hcond
    obtain ⟨hopens, hchain, -, hcall, -⟩ := horderly
    generalize happenings outs = es at hopens hchain hcall hunasked ⊢
    cases es with
    | nil => exact ⟨.nil, by simp⟩
    | cons first es =>
      obtain ⟨-, hrest⟩ := List.pairwise_cons.mp hunasked
      have hfirst := (hopens first rfl).1
      refine ⟨.cons (fun _ _ hfails => absurd hfails hfirst) (cutOff_of_chain hchain hrest), ?_⟩
      rintro ⟨e, he, hfails⟩ wake o scene' hstep
      rcases step_server hstep with hsame | ⟨op, k, hproc⟩
      · exact hsame
      obtain ⟨a, ha, hasks⟩ := hcall op k hproc
      rcases List.mem_cons.mp he with rfl | he
      · exact absurd hfails hfirst
      rcases last_of_pairwise hrest ha he with rfl | hnot
      · exact absurd hfails hasks.speaks.not_fails
      · exact absurd hasks (hnot hfails)
  · obtain ⟨hopens, hchain, -, -, hidle⟩ := horderly
    generalize happenings outs = es at hopens hchain hidle hcut ⊢
    cases es with
    | nil => exact .nil
    | cons first es =>
      exact .cons (fun _ _ hfails => absurd hfails (hopens first rfl).1)
        (unasked_of_cutOff hchain (hidle hend) (List.pairwise_cons.mp hcut).2)

/-- The first order on a fresh server gets the id 1000. -/
theorem step_first {o : Order} {its : List Item} (hits : o.items = its.map some) :
    ∃ server, Server.machine.step {} (.newOrder o) = some (.ok (some 1000), server) ∧
      server.orders[(1000 : Int32)]? = some (Server.placedOrder 1000 its) := by
  obtain ⟨out, server, hplace, htook⟩ := Server.step_newOrder (s := {}) hits (by decide)
  cases htook with
  | @placed o its' hits' =>
    obtain rfl : its = its' := List.map_injective_iff.mpr (Option.some_injective _) (hits.symm.trans hits')
    refine ⟨_, hplace, ?_⟩
    rw [Server.tell_orders]
    exact Server.getElem?_setOrder_self ..

/-- The login OK fails, but the order behind it is stored. -/
theorem not_cutOff_order :
    let login := ascii "LOGIN|UPDATER|alice/foobar"
    let raw := ascii "ORDER_NEW|1,NEW,1:1:NEW:Samosa:2"
    let conn : Connection :=
      { infd := ⟨(frame login ++ frame raw).map fun b => .data b [], false⟩,
        outfd := ⟨[], [.broken]⟩ }
    ∃ outs scene, LogsIn .updater conn.infd.content ∧
      (among 7 (opening 7 2 conn {})).run [.own .timeout, .own .timeout, .own .timeout,
        .own .timeout, .own .timeout] = some (outs, scene) ∧
      ¬CutOff (happenings outs) ∧ (scene.server.orders[(1000 : Int32)]?).isSome := by
  intro login raw conn
  have hlogin : Accepts .updater login := alice_accepts
  have hread : decoded raw = .ok (.ofOrder .orderNew (some samosas)) := samosas_decoded
  have hcont : conn.infd.content = frame login ++ frame raw :=
    (Framing.Infd.content_data _ _).trans (by simp)
  obtain ⟨server, hplace, hstored⟩ := step_first samosas_items
  obtain ⟨hreply, hlen⟩ := samosas_reply
  obtain ⟨infd₁, hrest₁, hrun₁⟩ := runs_login 7 (opening 7 2 conn {}) 2 conn {} hcont
    alice_short hlogin (.error (.ioException _)) (Framing.exec_send_broken welcome_short [] [])
  obtain ⟨outfd, hsend, -⟩ := Framing.exec_send hlen (Framing.Outfd.open_nil [])
  obtain ⟨infd₂, -, hrun₂⟩ := runs_request 7 (opening 7 2 conn {}) 1 ⟨infd₁, ⟨[], []⟩, 0⟩
    (hrest₁.trans (List.append_nil _).symm) samosas_short (decoded_iff.mp hread) rfl
    Server.good_init hplace hreply (.ok ()) hsend
  refine ⟨_, _, ⟨login, _, hcont, alice_short, hlogin⟩, hrun₁ (hrun₂ (Machine.runFrom_nil _ _)),
    fun hcut => ?_, ?_⟩
  · have hbehind := (List.pairwise_cons.mp (List.pairwise_cons.mp hcut).2).1
    exact hbehind _ (List.mem_cons_of_mem _ List.mem_cons_self) trivial trivial
  · rw [hstored]
    rfl

/-- The login OK fails, and the input ends. -/
theorem cutOff_iff_login :
    let login := ascii "LOGIN|UPDATER|alice/foobar"
    let conn : Connection :=
      { infd := ⟨(frame login).map fun b => .data b [], false⟩, outfd := ⟨[], [.broken]⟩ }
    ∃ outs scene, (among 7 (opening 7 2 conn {})).run [.own .timeout, .own .timeout, .own .timeout]
        = some (outs, scene) ∧
      (∃ e ∈ happenings outs, e.Fails) ∧ CutOff (happenings outs) := by
  intro login conn
  have hlogin : Accepts .updater login := alice_accepts
  have hcont : conn.infd.content = frame login ++ [] :=
    (Framing.Infd.content_data _ _).trans (by simp)
  obtain ⟨infd, hrest, hrun₁⟩ := runs_login 7 (opening 7 2 conn {}) 2 conn {} hcont
    alice_short hlogin (.error (.ioException _)) (Framing.exec_send_broken welcome_short [] [])
  obtain ⟨what, infd', hreceive⟩ := react_end 7 .timeout ⟨infd, ⟨[], []⟩, 0⟩ {} hrest
  have hrun := hrun₁ (runFrom_own (serving_succ 1) hreceive (Machine.runFrom_nil _ _))
  refine ⟨_, _, hrun, ⟨_, List.mem_cons_of_mem _ List.mem_cons_self, trivial⟩, ?_⟩
  refine ((cutOff_iff (rfl : Server.machine.run [] = some ([], {}))
    ⟨login, _, hcont, alice_short, hlogin⟩ hrun).1 ?_).1
  rw [hcont, List.append_nil]
  rintro i - msg hmsg
  have hscript : script (frame login) = [.ofLogin .login .updater (ascii "alice/foobar")] := by
    decide +kernel
  rw [hscript, List.drop_succ_cons, List.drop_nil] at hmsg
  exact absurd hmsg List.not_mem_nil

/-! ### Messages that are not allowed there -/

/-- Behind a violation come its ERROR and then, if no message follows, at most the end of the input. -/
theorem behind_violation {v : Happening} {es : List Happening} (hchain : (v :: es).IsChain Follows)
    (hv : v.Violates) (h : ∀ x ∈ es, ¬x.Speaks) :
    ∃ r r', es <+: [.sent (messageStr unexpected) r, .received r'] := by
  rcases es with _ | ⟨s, es⟩
  · exact ⟨.ok (), .ok [], List.nil_prefix⟩
  obtain ⟨hs, hchain⟩ := List.isChain_cons_cons.mp hchain
  obtain ⟨r, rfl⟩ := hs.scolds hv
  rcases es with _ | ⟨m, es⟩
  · exact ⟨r, .ok [], _, rfl⟩
  obtain ⟨hm, hchain⟩ := List.isChain_cons_cons.mp hchain
  cases hm with
  | @next _ _ r' =>
    rcases es with _ | ⟨b, es⟩
    · exact ⟨r, r', List.prefix_rfl⟩
    · exact absurd (List.isChain_cons_cons.mp hchain).1.speaks
        (h _ (List.mem_cons_of_mem _ List.mem_cons_self))

theorem shutOut_of_chain {es : List Happening} (hchain : es.IsChain Follows)
    (h : es.Pairwise fun e h => e.Violates → ¬h.Speaks) : ShutOut es := by
  rintro es₁ v es₂ rfl hv
  have hnot := (List.pairwise_cons.mp (List.pairwise_append.mp h).2.1).1
  obtain ⟨r, r', hpre⟩ := behind_violation hchain.right_of_append hv fun x hx => hnot x hx hv
  constructor
  · intro x hx
    have hmem := hpre.subset hx
    simp only [List.mem_cons, List.not_mem_nil, or_false] at hmem
    rcases hmem with rfl | rfl <;> exact id
  · exact (hpre.sublist.filterMap sentOf).length_le

/-- A message behind a violation gets an answer of its own. -/
theorem unspoken_of_shutOut {es : List Happening} (hchain : es.IsChain Follows)
    (hlast : ∀ a ∈ es.getLast?, ¬a.Speaks) (h : ShutOut es) :
    es.Pairwise fun e h => e.Violates → ¬h.Speaks := by
  induction es with
  | nil => exact .nil
  | cons e es ih =>
    have hlast' : ∀ a ∈ es.getLast?, ¬a.Speaks := fun a ha => hlast a (getLast?_behind ha e [])
    refine .cons (fun x hx hviolates hspeaks => ?_) (ih hchain.tail hlast' fun es₁ v es₂ hes hv =>
      h (e :: es₁) v es₂ (by rw [hes]; rfl) hv)
    obtain ⟨hcalls, hsent⟩ := h [] e es rfl hviolates
    cases es with
    | nil => cases hx
    | cons s es =>
      obtain ⟨hs, hrest⟩ := List.isChain_cons_cons.mp hchain
      obtain ⟨r, rfl⟩ := hs.scolds hviolates
      rcases List.mem_cons.mp hx with rfl | hx
      · exact hspeaks
      rcases behind_of_chain hrest.tail x hx with hx | ⟨b, hb, hxb⟩
      · exact hlast' x (getLast?_behind hx _ []) hspeaks
      rcases hxb.answers hspeaks with hb' | ⟨text, r', rfl⟩
      · exact hcalls b (List.mem_cons_of_mem _ hb) hb'
      · have hmem : text ∈ es.filterMap sentOf := List.mem_filterMap.mpr ⟨_, hb, rfl⟩
        have hpos := List.length_pos_of_mem hmem
        have hlen : (messageStr unexpected :: es.filterMap sentOf).length ≤ 1 := hsent
        rw [List.length_cons] at hlen
        omega

theorem expected_iff {e : Happening} {msg : Message} (h : heardOf e = some msg) :
    Expected msg ↔ ¬e.Violates := by
  obtain ⟨raw, rfl, htext⟩ := heardOf_eq_some h
  constructor
  · intro hexpected
    exact Serviceable.not_unexpected ⟨msg, decoded_iff.mpr htext, hexpected⟩
  · intro hno
    by_contra hexpected
    have hquit : msg.type ≠ .quit := fun hquit => hexpected (Or.inr (Or.inr (Or.inr hquit)))
    refine hno ⟨msg, htext, ?_, hquit⟩
    rw [requestOf]
    split
    · next ht => exact absurd (Or.inl ht) hexpected
    · next ht => exact absurd (Or.inr (Or.inl ht)) hexpected
    · next ht => exact absurd (Or.inr (Or.inr (Or.inl ht))) hexpected
    · rfl

/-- No message is heard behind a violation, if each that another one follows is expected. -/
theorem unspoken_iff {es : List Happening} : (es.Pairwise fun e h => e.Violates → ¬h.Speaks) ↔
    ∀ msg ∈ (es.filterMap heardOf).dropLast, Expected msg := by
  rw [← pairwise_dropLast, List.pairwise_filterMap]
  constructor
  · refine List.Pairwise.imp fun {e h} hnot msg hmsg msg' hmsg' => ?_
    refine (expected_iff hmsg).mpr fun hviolates => hnot hviolates ?_
    exact heardOf_speaks.mp (Option.isSome_iff_exists.mpr ⟨msg', hmsg'⟩)
  · refine List.Pairwise.imp fun {e h} hexpected hviolates hspeaks => ?_
    obtain ⟨msg, hmsg⟩ := Option.isSome_iff_exists.mp (heardOf_speaks.mpr hviolates.speaks)
    obtain ⟨msg', hmsg'⟩ := Option.isSome_iff_exists.mp (heardOf_speaks.mpr hspeaks)
    exact (expected_iff hmsg).mp (hexpected msg hmsg msg' hmsg') hviolates

/-- Behind the login is heard what stands in the input behind the login. -/
theorem Orderly.heard_tail {es : List Happening} {scene : Scene} (h : Orderly es scene) :
    es.tail.filterMap heardOf = (es.filterMap heardOf).tail := by
  cases es with
  | nil => rfl
  | cons first es =>
    obtain ⟨msg, hmsg⟩ := Option.isSome_iff_exists.mp (h.opens first rfl).2
    rw [List.filterMap_cons_some hmsg]
    rfl

theorem dropLast_mono {α : Type} {l l' : List α} (h : l <+: l') : l.dropLast ⊆ l'.dropLast := by
  rw [List.dropLast_eq_take, List.dropLast_eq_take]
  obtain ⟨more, rfl⟩ := h
  have htake : (l ++ more).take (l.length - 1) = l.take (l.length - 1) :=
    List.take_append_of_le_length (Nat.sub_le l.length 1)
  rw [← htake]
  exact List.take_subset_take_left _ (by simp; omega)

/-- CORRECT: when a message has come in that the protocol does not allow there, the session of the
    updater calls nothing more, sends no more than one ERROR, and leaves the server alone, if and only if
    no message stands in the input behind it, up to the first QUIT and before anything that is no
    message. -/
theorem shutOut_iff {this : Client} {n : ℕ} {conn : Connection} {ops : List Op} {outs₀ : List Out}
    {server : Server} (hserver : Server.machine.run ops = some (outs₀, server))
    (hlogin : LogsIn .updater conn.infd.content) {moves : List Move}
    {outs : List (Option Happening)} {scene : Scene}
    (h : (among this (opening this n conn server)).run moves = some (outs, scene)) :
    (Unviolated conn.infd.content →
      ShutOut (happenings outs).tail ∧
      ((∃ e ∈ (happenings outs).tail, e.Violates) → ∀ wake o scene',
        (among this scene).step scene (.own wake) = some (o, scene') →
          scene'.server = scene.server)) ∧
    (scene.Ended → ShutOut (happenings outs).tail → Unviolated conn.infd.content) := by
  have hs := Server.run_good hserver
  have horderly := run_orderly hs hlogin h
  obtain ⟨hscript, hall⟩ := run_script hs hlogin h
  have htail := horderly.heard_tail
  refine ⟨fun hcond => ?_, fun hend hshut => ?_⟩
  · have hunspoken : (happenings outs).tail.Pairwise fun e h => e.Violates → ¬h.Speaks := by
      refine unspoken_iff.mpr fun msg hmsg => hcond msg (dropLast_mono ?_ hmsg)
      rw [htail, ← List.drop_one, ← List.drop_one]
      exact hscript.drop 1
    refine ⟨shutOut_of_chain horderly.chain hunspoken, ?_⟩
    rintro ⟨e, he, hviolates⟩ wake o scene' hstep
    rcases step_server hstep with hsame | ⟨op, k, hproc⟩
    · exact hsame
    obtain ⟨a, ha, hasks⟩ := horderly.asks op k hproc
    rcases last_of_pairwise hunspoken ha he with rfl | hnot
    · exact absurd hasks hviolates.not_asks
    · exact absurd hasks.speaks (hnot hviolates)
  · have hunspoken := unspoken_of_shutOut horderly.chain (horderly.idle hend) hshut
    rw [Unviolated, ← hall hend, ← htail]
    exact unspoken_iff.mp hunspoken

/-- A LOGIN is not allowed behind the login. -/
theorem Accepts.unexpected {mode : ClientMode} {raw : Bytes} (h : Accepts mode raw) :
    Unexpected raw := by
  obtain ⟨cred, htext, -⟩ := h
  refine ⟨_, htext, rfl, ?_⟩
  intro ht
  cases ht

/-- A second LOGIN gets an ERROR, and the order behind it is stored. -/
theorem not_shutOut_login :
    let login := ascii "LOGIN|UPDATER|alice/foobar"
    let raw := ascii "ORDER_NEW|1,NEW,1:1:NEW:Samosa:2"
    let conn : Connection :=
      { infd := ⟨(frame login ++ frame login ++ frame raw).map fun b => .data b [], false⟩,
        outfd := ⟨[], []⟩ }
    ∃ outs scene, LogsIn .updater conn.infd.content ∧
      (among 7 (opening 7 3 conn {})).run [.own .timeout, .own .timeout, .own .timeout,
        .own .timeout, .own .timeout, .own .timeout, .own .timeout] = some (outs, scene) ∧
      ¬ShutOut (happenings outs).tail ∧ (scene.server.orders[(1000 : Int32)]?).isSome := by
  intro login raw conn
  have hlogin : Accepts .updater login := alice_accepts
  have hread : decoded raw = .ok (.ofOrder .orderNew (some samosas)) := samosas_decoded
  have hcont : conn.infd.content = frame login ++ (frame login ++ frame raw) :=
    (Framing.Infd.content_data _ _).trans (by simp)
  obtain ⟨server, hplace, hstored⟩ := step_first samosas_items
  obtain ⟨hreply, hlen⟩ := samosas_reply
  obtain ⟨outfd₁, hsend₁, -, hopen₁⟩ := Framing.exec_send welcome_short (Framing.Outfd.open_nil [])
  obtain ⟨outfd₂, hsend₂, -, hopen₂⟩ := Framing.exec_send unexpected_short hopen₁
  obtain ⟨outfd₃, hsend₃, -⟩ := Framing.exec_send hlen hopen₂
  obtain ⟨infd₁, hrest₁, hrun₁⟩ := runs_login 7 (opening 7 3 conn {}) 3 conn {} hcont
    alice_short hlogin (.ok ()) hsend₁
  obtain ⟨infd₂, hrest₂, hrun₂⟩ := runs_unexpected 7 (opening 7 3 conn {}) 2 ⟨infd₁, outfd₁, 0⟩ {}
    hrest₁ alice_short hlogin.unexpected (.ok ()) hsend₂
  obtain ⟨infd₃, -, hrun₃⟩ := runs_request 7 (opening 7 3 conn {}) 1 ⟨infd₂, outfd₂, 0⟩
    (hrest₂.trans (List.append_nil _).symm) samosas_short (decoded_iff.mp hread) rfl
    Server.good_init hplace hreply (.ok ()) hsend₃
  refine ⟨_, _, ⟨login, _, hcont, alice_short, hlogin⟩,
    hrun₁ (hrun₂ (hrun₃ (Machine.runFrom_nil _ _))), fun hshut => ?_, ?_⟩
  · obtain ⟨hcalls, -⟩ := hshut [_] _ _ rfl hlogin.unexpected
    exact hcalls _ (List.mem_cons_of_mem _ (List.mem_cons_of_mem _ List.mem_cons_self)) trivial
  · rw [hstored]
    rfl

/-- A second LOGIN, and the input ends. -/
theorem shutOut_iff_login :
    let login := ascii "LOGIN|UPDATER|alice/foobar"
    let conn : Connection :=
      { infd := ⟨(frame login ++ frame login).map fun b => .data b [], false⟩, outfd := ⟨[], []⟩ }
    ∃ outs scene, (among 7 (opening 7 2 conn {})).run [.own .timeout, .own .timeout, .own .timeout,
        .own .timeout, .own .timeout] = some (outs, scene) ∧
      (∃ e ∈ (happenings outs).tail, e.Violates) ∧ ShutOut (happenings outs).tail := by
  intro login conn
  have hlogin : Accepts .updater login := alice_accepts
  have hcont : conn.infd.content = frame login ++ frame login :=
    (Framing.Infd.content_data _ _).trans (by simp)
  obtain ⟨outfd₁, hsend₁, -, hopen₁⟩ := Framing.exec_send welcome_short (Framing.Outfd.open_nil [])
  obtain ⟨outfd₂, hsend₂, -⟩ := Framing.exec_send unexpected_short hopen₁
  obtain ⟨infd₁, hrest₁, hrun₁⟩ := runs_login 7 (opening 7 2 conn {}) 2 conn {} hcont
    alice_short hlogin (.ok ()) hsend₁
  obtain ⟨infd₂, hrest₂, hrun₂⟩ := runs_unexpected 7 (opening 7 2 conn {}) 1 ⟨infd₁, outfd₁, 0⟩ {}
    (hrest₁.trans (List.append_nil _).symm) alice_short hlogin.unexpected (.ok ()) hsend₂
  obtain ⟨what, infd', hreceive⟩ := react_end 7 .timeout ⟨infd₂, outfd₂, 0⟩ {} hrest₂
  have hrun := hrun₁ (hrun₂ (runFrom_own (serving_succ 0) hreceive (Machine.runFrom_nil _ _)))
  refine ⟨_, _, hrun, ⟨_, List.mem_cons_of_mem _ List.mem_cons_self, hlogin.unexpected⟩, ?_⟩
  refine ((shutOut_iff (rfl : Server.machine.run [] = some ([], {}))
    ⟨login, _, hcont, alice_short, hlogin⟩ hrun).1 ?_).1
  have hscript : (script (frame login ++ frame login)).tail.dropLast = [] := by decide +kernel
  rw [Unviolated, hcont, hscript]
  exact fun msg hmsg => absurd hmsg List.not_mem_nil

end Restaurant.Session
