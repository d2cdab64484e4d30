import RestaurantOrder.Session.Course
import RestaurantOrder.Session.Traffic

/-! What the login lets through.

    The first frame decides: without an accepted LOGIN the session calls nothing, and neither what it
    sends nor where it ends depends on the server; the login of a display reads nothing more; the login
    of an updater makes no display of it.

        first frame ──no LOGIN, no credentials──▶ nothing, or one ERROR
                    ──mode DISPLAY──▶ register, dequeue, send, unregister
                    ──mode UPDATER──▶ requests and their replies           -/

namespace Restaurant.Session
open Schemes Process
open Framing (frame)
open Wire (MessageText messageStr)

/-- The first frame of the input is an accepted LOGIN in a mode. -/
def LogsIn (mode : ClientMode) (content : Bytes) : Prop :=
  ∃ raw r, content = frame raw ++ r ∧ raw.length ≤ 9998 ∧ Accepts mode raw

/-- The session has come to its end. -/
def Scene.Ended (scene : Scene) : Prop := scene.proc = done (.ok ())

/-- The session is not blocked: its next action is done in any case. -/
def Scene.Moves (this : Client) (scene : Scene) : Prop :=
  ∀ wake, ∃ o scene', (among this scene).step scene (.own wake) = some (o, scene')

theorem moves_receive {this : Client} {scene : Scene} {k : Except Exception Bytes → Proc Unit}
    (h : scene.proc = act Act.receive k) : scene.Moves this := fun wake => by
  obtain ⟨r, infd, hre, -⟩ := react_receive this wake scene.conn scene.server
  exact ⟨_, _, step_own.mpr ⟨.receive, k, _, h, hre, rfl, rfl⟩⟩

theorem moves_send {this : Client} {scene : Scene} {text : Bytes} {k : Except Exception Unit → Proc Unit}
    (h : scene.proc = act (Act.send text) k) : scene.Moves this := fun wake => by
  obtain ⟨r, outfd, part, hre, -⟩ := react_send this wake scene.conn scene.server text
  exact ⟨_, _, step_own.mpr ⟨.send text, k, _, h, hre, rfl, rfl⟩⟩

theorem LogsIn.unique {mode mode' : ClientMode} {content : Bytes} (h : LogsIn mode content)
    (h' : LogsIn mode' content) : mode = mode' := by
  obtain ⟨raw, r, rfl, hlen, hacc⟩ := h
  obtain ⟨raw', r', hcont, hlen', hacc'⟩ := h'
  obtain ⟨rfl, -⟩ := frame_unique hlen hlen' hcont
  exact hacc.unique hacc'

/-- What a session takes for its login is the first frame. -/
theorem run_first {this : Client} {start : Scene} (hs : start.server.Good) {moves : List Move}
    {outs : List (Option Happening)} {scene : Scene}
    (h : (among this start).run moves = some (outs, scene)) {mode : ClientMode} {raw : Bytes}
    {es : List Happening} (hes : happenings outs = .received (.ok raw) :: es)
    (hacc : Accepts mode raw) : LogsIn mode start.conn.infd.content := by
  have hrec : Received [] start.conn.infd.content (happenings outs) scene.conn :=
    run_received hs (fun _ ht => absurd ht List.not_mem_nil) rfl h
  rw [hes] at hrec
  rcases hrec with ⟨m, -, hnone, -⟩ | ⟨r, rs, hrs, hread⟩
  · simp [receivedOf] at hnone
  · obtain ⟨rfl, -⟩ := List.cons.inj hrs
    obtain ⟨rest, hcont, hlen⟩ := hread
    exact ⟨raw, rest, hcont, hlen, hacc⟩

/-! ### Without a login -/

/-- A session that has not been let in has called nothing, and says no more than a refusal. -/
theorem Course.outside {this : Client} {n : ℕ} {es : List Happening} {p : Proc Unit}
    (h : Course this n es p) (hno : ∀ mode raw rest, es = .received (.ok raw) :: rest → ¬Accepts mode raw) :
    (∀ h ∈ es, h.Outward) ∧ es.filterMap sentOf <+: [messageStr refusal] ∧ es.length ≤ 2 ∧
      (p = done (.ok ()) ∨ (∃ k, p = act Act.receive k) ∨ ∃ text k, p = act (Act.send text) k) := by
  cases h with
  | opening =>
    exact ⟨by simp, List.nil_prefix, by simp, Or.inr (Or.inl ⟨_, chat_eq this n⟩)⟩
  | rejected => exact ⟨by simp [Happening.Outward], List.nil_prefix, by simp, Or.inl rfl⟩
  | refusing =>
    exact ⟨by simp [Happening.Outward], List.nil_prefix, by simp, Or.inr (Or.inr ⟨_, _, rfl⟩)⟩
  | refused => exact ⟨by simp [Happening.Outward], List.prefix_rfl, by simp, Or.inl rfl⟩
  | greeting hacc => exact absurd hacc (hno _ _ _ rfl)
  | serving hacc => exact absurd hacc (hno _ _ _ rfl)
  | displaying hacc => exact absurd hacc (hno _ _ _ rfl)

/-! ### Behind a login -/

/-- Only an updater asks for something, and only a display registers. -/
theorem Course.calls {this : Client} {n : ℕ} {es : List Happening} {p : Proc Unit}
    (h : Course this n es p) {op : Op} {k : Out → Proc Unit} (hp : p = act (Act.call op) k) :
    ∃ mode raw rest, es = .received (.ok raw) :: rest ∧ Accepts mode raw ∧
      (mode = .updater ∧ (∃ msg, requestOf msg = some op) ∨
        mode = .display ∧ (op = .registerDisplay this ∨ op = .unregisterDisplay this)) := by
  cases h with
  | opening => rw [chat_eq] at hp; cases hp
  | rejected => cases hp
  | refusing => cases hp
  | refused => cases hp
  | greeting => cases hp
  | @serving raw r left tail p turns hacc hturns htail hn =>
    refine ⟨_, _, _, rfl, hacc, Or.inl ⟨rfl, ?_⟩⟩
    cases htail with
    | listening =>
      cases left with
      | zero => cases hp
      | succ left => rw [serving_succ] at hp; cases hp
    | asked htext hop => cases hp; exact ⟨_, hop⟩
    | _ => cases hp
  | @displaying raw r events registered p hacc hevents hkeeps =>
    refine ⟨_, _, _, rfl, hacc, Or.inr ⟨rfl, ?_⟩⟩
    subst hp
    have hop : op = if registered then _ else _ := hkeeps.1
    cases registered with
    | true => exact Or.inr hop
    | false => exact Or.inl hop

/-- Nothing but the work of an updater has happened in a session that is not let in as a display. -/
theorem Course.served {this : Client} {n : ℕ} {es : List Happening} {p : Proc Unit}
    (h : Course this n es p)
    (hmode : ∀ mode raw rest, es = .received (.ok raw) :: rest → Accepts mode raw → mode = .updater) :
    ∀ h ∈ es, ServedTo h := by
  have phrase : ∀ {type text}, (type, text) ∈ phrases →
      ∃ msg, Spoken msg ∧ messageStr (.ofStr type (ascii text)) = messageStr msg :=
    fun hp => ⟨_, .phrase hp, rfl⟩
  cases h with
  | opening => simp
  | rejected => simp [ServedTo]
  | refusing => simp [ServedTo]
  | refused =>
    simp only [List.mem_cons, List.not_mem_nil, or_false, forall_eq_or_imp, forall_eq]
    exact ⟨trivial, phrase (by simp [phrases])⟩
  | greeting => simp [ServedTo]
  | serving hacc hturns htail =>
    simp only [List.mem_cons, forall_eq_or_imp]
    refine ⟨trivial, phrase (by simp [phrases]), fun h hmem => ?_⟩
    rcases List.mem_append.mp hmem with hmem | hmem
    · obtain ⟨t, ht, hmem⟩ := List.mem_flatMap.mp hmem
      exact (hturns t ht).served h hmem
    · exact htail.served h hmem
  | displaying hacc => cases hmode _ _ _ rfl hacc

theorem spoken_of_served {es : List Happening} (h : ∀ e ∈ es, ServedTo e) :
    ∀ text ∈ es.filterMap sentOf, ∃ msg, Spoken msg ∧ text = messageStr msg := by
  intro text htext
  obtain ⟨e, hmem, hsent⟩ := List.mem_filterMap.mp htext
  have he := h e hmem
  cases e with
  | sent text' r => obtain rfl := Option.some.inj hsent; exact he
  | _ => cases hsent

/-- A client that others leave alone is among the displays only if its own thread has registered it. -/
theorem run_registered {this : Client} {start : Scene} (hs : start.server.Good)
    (hnot : this ∉ start.server.displayClients) {moves : List Move}
    (hothers : .other (.registerDisplay this) ∉ moves) {outs : List (Option Happening)} {scene : Scene}
    (h : (among this start).run moves = some (outs, scene))
    (hreg : this ∈ scene.server.displayClients) :
    ∃ out before after, .called (.registerDisplay this) out before after ∈ happenings outs := by
  refine (run_inv (A := (· ≠ .registerDisplay this)) (P := fun es scene =>
    this ∈ scene.server.displayClients → ∃ out before after,
      .called (.registerDisplay this) out before after ∈ es) hs (fun h => absurd h hnot) ?_ ?_ ?_ h).2 hreg
  · intro es scene wake a k re ih hgood _ hre hmem
    have hold : this ∈ scene.server.displayClients → ∃ out before after,
        .called (.registerDisplay this) out before after ∈ es ++ [re.happening] := fun hold => by
      obtain ⟨out, before, after, hin⟩ := ih hold
      exact ⟨out, before, after, List.mem_append_left _ hin⟩
    cases a with
    | receive => rw [(react_received hre).2] at hmem; exact hold hmem
    | send text => rw [(react_sent hre).2] at hmem; exact hold hmem
    | dequeue => rw [(react_dequeued hre).2.1] at hmem; exact hold hmem
    | call op =>
      obtain ⟨out, server', hstep, rfl⟩ := react_call.mp hre
      rcases ((Server.step_took hgood hstep).displays this).mp hmem with rfl | ⟨hmem, -⟩
      · exact ⟨_, _, _, List.mem_append_right _ (List.mem_singleton_self _)⟩
      · exact hold hmem
  · intro es scene op out server ih _ hop htook hmem
    rcases (htook.displays this).mp hmem with rfl | ⟨hmem, -⟩
    · exact absurd rfl hop
    · exact ih hmem
  · rintro op hop rfl
    exact hothers hop

/-- The bytes of a frame are digits, those of its text, and the newline. -/
theorem mem_frame {b : Byte} {s : Bytes} (h : b ∈ frame s) :
    isDigit b = true ∨ b ∈ s ∨ b = Framing.newline := by
  rw [frame, List.mem_append, List.mem_append, List.mem_singleton] at h
  rcases h with (h | h) | h
  · exact Or.inl (isDigit_padded b h)
  · exact Or.inr (Or.inl h)
  · exact Or.inr (Or.inr h)

/-- A byte that was written is one of a frame that was sent. -/
theorem mem_parts {parts texts : List Bytes}
    (h : List.Forall₂ (fun part text => part <+: frame text) parts texts) {b : Byte}
    (hb : b ∈ parts.flatten) : ∃ text ∈ texts, b ∈ frame text := by
  induction h with
  | nil => cases hb
  | @cons part text parts texts hpart _ ih =>
    rw [List.flatten_cons, List.mem_append] at hb
    rcases hb with hb | hb
    · exact ⟨text, List.mem_cons_self, hpart.subset hb⟩
    · obtain ⟨text', hmem, hb⟩ := ih hb
      exact ⟨text', List.mem_cons_of_mem _ hmem, hb⟩

/-- Nothing that an updater is sent looks like a message for displays. -/
theorem no_display_message {parts texts : List Bytes}
    (h : List.Forall₂ (fun part text => part <+: frame text) parts texts)
    (hspoken : ∀ text ∈ texts, ∃ msg, Spoken msg ∧ text = messageStr msg) :
    ¬ascii "DISP_" <:+: parts.flatten := by
  intro hin
  obtain ⟨text, hmem, hb⟩ := mem_parts h (hin.subset (by decide : byte 'D' ∈ ascii "DISP_"))
  obtain ⟨msg, hmsg, rfl⟩ := hspoken text hmem
  rcases mem_frame hb with hd | hb | hn
  · revert hd; decide
  · exact hmsg.text.2.2.2 hb
  · revert hn; decide

/-- CORRECT: the login gates everything. (a) If the first frame is no accepted LOGIN, nothing is called,
    at most the one ERROR is sent, and the session ends after two actions with the same bytes sent,
    whatever the server holds and does. (b) Behind a login in mode DISPLAY no step of the session
    changes the orders or the next id. (c) Behind a login in mode UPDATER the client does not become a
    display, and it is sent no message for displays. -/
theorem login_gates {this : Client} {n : ℕ} {conn : Connection} {ops : List Op} {outs₀ : List Out}
    {server : Server} (hserver : Server.machine.run ops = some (outs₀, server)) {moves : List Move}
    {outs : List (Option Happening)} {scene : Scene}
    (h : (among this (opening this n conn server)).run moves = some (outs, scene)) :
    ((∀ mode, ¬LogsIn mode conn.infd.content) →
      (∀ op out before after, .called op out before after ∉ happenings outs) ∧
      (happenings outs).filterMap sentOf <+: [messageStr refusal] ∧
      (∃ part, scene.conn.outfd.written = conn.outfd.written ++ part ∧
        part <+: frame (messageStr refusal)) ∧
      ((happenings outs).length ≤ 2 ∧ (scene.Ended ∨ scene.Moves this)) ∧
      ∀ ops' outs₀' server' moves' outs' scene', Server.machine.run ops' = some (outs₀', server') →
        (among this (opening this n conn server')).run moves' = some (outs', scene') →
        scene.Ended → scene'.Ended → scene'.conn.outfd.written = scene.conn.outfd.written) ∧
    (LogsIn .display conn.infd.content → ∀ wake o scene',
      (among this scene).step scene (.own wake) = some (o, scene') →
        scene'.server.orders = scene.server.orders ∧
        scene'.server.nextOrderId = scene.server.nextOrderId) ∧
    (LogsIn .updater conn.infd.content →
      (this ∉ server.displayClients → .other (.registerDisplay this) ∉ moves →
        this ∉ scene.server.displayClients) ∧
      (∀ text ∈ (happenings outs).filterMap sentOf, ∃ msg : Message,
        (msg.type = .ok ∨ msg.type = .error) ∧ text = messageStr msg) ∧
      ∃ part, scene.conn.outfd.written = conn.outfd.written ++ part ∧
        ¬ascii "DISP_" <:+: part) := by
  have hs := Server.run_good hserver
  obtain ⟨hgood, hcourse⟩ := run_course hs h
  obtain ⟨parts, hwritten, hparts⟩ := run_written hs h
  refine ⟨fun hno => ?_, fun hlogin wake o scene' hstep => ?_, fun hlogin => ?_⟩
  · have outside : ∀ {server' moves' outs' scene'}, server'.Good →
        (among this (opening this n conn server')).run moves' = some (outs', scene') → _ :=
      fun hs' h' => (run_course hs' h').2.outside fun mode raw rest hes hacc =>
        hno mode (run_first hs' h' hes hacc)
    obtain ⟨hout, hsent, hlen, hnext⟩ := outside hs h
    refine ⟨fun op out before after hmem => hout _ hmem, hsent, ⟨parts.flatten, hwritten, ?_⟩,
      ⟨hlen, ?_⟩, fun ops' outs₀' server' moves' outs' scene' hserver' h' hend hend' => ?_⟩
    · rcases List.prefix_cons_iff.mp hsent with hnil | ⟨rest, hrest, hnil⟩
      · rw [hnil] at hparts
        cases hparts
        exact List.nil_prefix
      · obtain rfl := List.prefix_nil.mp hnil
        rw [hrest] at hparts
        cases hparts with
        | cons hpart hnone =>
          cases hnone
          simpa using hpart
    · rcases hnext with hdone | ⟨k, hproc⟩ | ⟨text, k, hproc⟩
      · exact Or.inl hdone
      · exact Or.inr (moves_receive hproc)
      · exact Or.inr (moves_send hproc)
    · have hs' := Server.run_good hserver'
      obtain ⟨hout', -⟩ := outside hs' h'
      have hconn := (alone_unique hs hs' h h' hout hout' hend hend').2
      rw [hconn]
  · obtain ⟨a, k, re, hproc, hre, -, rfl⟩ := step_own.mp hstep
    cases a with
    | receive => rw [(react_received hre).2]; exact ⟨rfl, rfl⟩
    | send text => rw [(react_sent hre).2]; exact ⟨rfl, rfl⟩
    | dequeue => rw [(react_dequeued hre).2.1]; exact ⟨rfl, rfl⟩
    | call op =>
      obtain ⟨out, server', hop, rfl⟩ := react_call.mp hre
      obtain ⟨mode, raw, rest, hes, hacc, hcall⟩ := hcourse.calls hproc
      obtain rfl := (run_first hs h hes hacc).unique hlogin
      rcases hcall with ⟨hmode, -⟩ | ⟨-, rfl | rfl⟩
      · cases hmode
      · cases Server.step_took hgood hop
        exact ⟨rfl, rfl⟩
      · cases Server.step_took hgood hop
        exact ⟨rfl, rfl⟩
  · have honly : ∀ mode raw rest, happenings outs = .received (.ok raw) :: rest →
        Accepts mode raw → mode = .updater := fun mode raw rest hes hacc =>
      (run_first hs h hes hacc).unique hlogin
    have hserved := hcourse.served honly
    have hspoken := spoken_of_served hserved
    refine ⟨fun hnot hothers hreg => ?_, fun text htext => ?_, parts.flatten, hwritten,
      no_display_message hparts hspoken⟩
    · obtain ⟨out, before, after, hmem⟩ := run_registered hs hnot hothers h hreg
      obtain ⟨msg, hop⟩ := hserved _ hmem
      exact (requestOf_ne hop).1 this rfl
    · obtain ⟨msg, hmsg, rfl⟩ := hspoken text htext
      exact ⟨msg, hmsg.text.1, rfl⟩

/-- A stranger, and a server with a display that keeps the first order. -/
theorem login_gates_stranger :
    let raw := ascii "LOGIN|UPDATER|alice/guess"
    let conn : Connection := { infd := ⟨(frame raw).map fun b => .data b [], false⟩, outfd := ⟨[], []⟩ }
    let order : Order := ⟨1, .new, [some ⟨1, 1, .new, ascii "Samosa", 2⟩]⟩
    ∃ outs₀ server outs scene,
      Server.machine.run [.registerDisplay 5, .newOrder order] = some (outs₀, server) ∧
      (among 7 (opening 7 1 conn server)).run [.own .timeout, .own .timeout] = some (outs, scene) ∧
      scene.Ended ∧ (∀ op out before after, .called op out before after ∉ happenings outs) ∧
      (happenings outs).filterMap sentOf <+: [messageStr refusal] := by
  intro raw conn order
  obtain ⟨out, server, hplace, -⟩ := Server.step_newOrder
    (s := Server.machine.init.register 5)
    (show order.items = [⟨1, 1, .new, ascii "Samosa", 2⟩].map some from rfl) (by decide)
  have hserver : Server.machine.run [.registerDisplay 5, .newOrder order]
      = some ([.ok none, out], server) :=
    Machine.runFrom_cons.mpr ⟨_, _, _, Server.step_registerDisplay Server.good_init 5,
      Machine.runFrom_one.mpr ⟨_, hplace, rfl⟩, rfl⟩
  have hcont : conn.infd.content = frame raw ++ [] :=
    (Framing.Infd.content_data _ _).trans (by simp)
  have hread : decoded raw = .ok (.ofLogin .login .updater (ascii "alice/guess")) := by
    decide +kernel
  have hrefused : letIn 7 1 (decoded raw)
      = act (.send (messageStr refusal)) fun _ => done (.ok ()) := by
    rw [hread, letIn, if_pos (by decide +kernel), if_neg (by decide +kernel)]
  have hno : ∀ mode, ¬LogsIn mode conn.infd.content := by
    rintro mode ⟨raw', r, hcont', hlen, cred, htext, hcred⟩
    obtain ⟨rfl, -⟩ := frame_unique (by decide) hlen (hcont.symm.trans hcont')
    have hmsg := Except.ok.inj (hread.symm.trans (heard_iff.mpr htext))
    obtain rfl : _ = cred := congrArg Message.str hmsg
    revert hcred
    decide +kernel
  obtain ⟨infd, hreceive, -⟩ := react_frame 7 .timeout server hcont (by decide)
  obtain ⟨r, outfd, part, hsend, -⟩ :=
    react_send 7 .timeout { conn with infd } server (messageStr refusal)
  have hrun : (among 7 (opening 7 1 conn server)).run [.own .timeout, .own .timeout] = _ :=
    runFrom_own (chat_eq 7 1) hreceive (runFrom_own hrefused hsend rfl)
  obtain ⟨hcalled, hsent, -⟩ := (login_gates hserver hrun).1 hno
  exact ⟨_, _, _, _, hserver, hrun, rfl, hcalled, hsent⟩

end Restaurant.Session
