import RestaurantOrder.Session.Scene

/-! What goes in and out of a connection.

    The texts received are those of the frames at the front of the input, one after the other
    (`run_received`), and what is written is a beginning of the frame of each text sent
    (`run_written`). Until it calls an operation or looks at its queue, a session is the same whatever
    the server holds: it goes on as it would alone (`run_alone`). -/

namespace Restaurant.Session
open Schemes Process
open Framing (frame)

def receivedOf : Happening → Option (Except Exception Bytes)
  | .received r => some r
  | _ => none

def sentOf : Happening → Option Bytes
  | .sent text _ => some text
  | _ => none

/-- The action needs nothing but the connection. -/
def Happening.Outward : Happening → Prop
  | .received _ => True
  | .sent _ _ => True
  | _ => False

/-! ### In -/

/-- The frame at the front of the input was received, or there is none. -/
def Reading (content : Bytes) : Except Exception Bytes → Prop
  | .ok s => ∃ r, content = frame s ++ r ∧ s.length ≤ 9998
  | .error _ => ¬∃ s r, content = frame s ++ r ∧ s.length ≤ 9998

/-- A frame at the front of the input is the only one. -/
theorem frame_unique {s s' r r' : Bytes} (hs : s.length ≤ 9998) (hs' : s'.length ≤ 9998)
    (h : frame s ++ r = frame s' ++ r') : s = s' ∧ r = r' := by
  let fd : Framing.Infd := ⟨(frame s ++ r).map fun b => .data b [], false⟩
  have hcont : fd.content = frame s ++ r := Framing.Infd.content_data _ _
  obtain ⟨fd₁, hrun₁, rfl⟩ := Framing.exec_receive hcont hs []
  obtain ⟨fd₂, hrun₂, rfl⟩ := Framing.exec_receive (hcont.trans h) hs' []
  obtain ⟨hfd, hstr⟩ := Prod.mk.inj (Prod.mk.inj (hrun₁.symm.trans hrun₂)).2
  exact ⟨hstr, congrArg Framing.Infd.content hfd⟩

/-- The texts of the frames come in one after the other, then what stands behind them. -/
def Received (ts : List Bytes) (rest : Bytes) (es : List Happening) (conn : Connection) : Prop :=
  (∃ m, m ≤ ts.length ∧ es.filterMap receivedOf = (ts.take m).map .ok ∧
    conn.infd.content = (ts.drop m).flatMap frame ++ rest) ∨
  ∃ r rs, es.filterMap receivedOf = ts.map .ok ++ r :: rs ∧ Reading rest r

/-- Only a `receive` reads. -/
theorem react_infd {this : Client} {wake : Wake} {conn : Connection} {server : Server} {a : Act}
    {re : Reaction a} (h : react this wake conn server a = some re) (ha : a ≠ .receive) :
    re.conn.infd = conn.infd ∧ receivedOf re.happening = none := by
  cases a with
  | receive => exact absurd rfl ha
  | send text =>
    obtain ⟨r, outfd, part, hre, -⟩ := react_send this wake conn server text
    obtain rfl := Option.some.inj (hre.symm.trans h)
    exact ⟨rfl, rfl⟩
  | call op =>
    obtain ⟨out, server', -, rfl⟩ := react_call.mp h
    exact ⟨rfl, rfl⟩
  | dequeue => rw [(react_dequeued h).1, (react_dequeued h).2.2.1]; exact ⟨rfl, rfl⟩

theorem Received.snoc {ts : List Bytes} {rest : Bytes} (hts : ∀ t ∈ ts, t.length ≤ 9998)
    {es : List Happening} {conn : Connection} (h : Received ts rest es conn)
    {r : Except Exception Bytes} {infd : Framing.Infd}
    (hr : (∃ s, r = .ok s ∧ s.length ≤ 9998 ∧ conn.infd.content = frame s ++ infd.content) ∨
      (∃ what, r = .error (.ioException what)) ∧
        ¬∃ s r, conn.infd.content = frame s ++ r ∧ s.length ≤ 9998) :
    Received ts rest (es ++ [.received r]) { conn with infd } := by
  rcases h with ⟨m, hm, hes, hcont⟩ | ⟨r', rs, hes, hread⟩
  case inr => exact Or.inr ⟨r', rs ++ [r], by simp [hes, receivedOf], hread⟩
  rcases hm.lt_or_eq with hlt | rfl
  · rw [List.drop_eq_getElem_cons hlt, List.flatMap_cons, List.append_assoc] at hcont
    have hlen := hts _ (List.getElem_mem hlt)
    rcases hr with ⟨s, rfl, hs, hcont'⟩ | ⟨-, hno⟩
    · obtain ⟨rfl, hrest⟩ := frame_unique hlen hs (hcont.symm.trans hcont')
      refine Or.inl ⟨m + 1, hlt, ?_, hrest.symm⟩
      rw [List.filterMap_append, hes, ← List.take_append_getElem hlt, List.map_append]
      rfl
    · exact absurd ⟨_, _, hcont, hlen⟩ hno
  · rw [List.drop_length, List.flatMap_nil, List.nil_append] at hcont
    refine Or.inr ⟨r, [], by simp [hes, receivedOf], ?_⟩
    rw [← hcont]
    rcases hr with ⟨s, rfl, hs, hcont'⟩ | ⟨⟨what, rfl⟩, hno⟩
    · exact ⟨_, hcont', hs⟩
    · exact hno

theorem run_received {this : Client} {start : Scene} (hs : start.server.Good) {ts : List Bytes}
    {rest : Bytes} (hts : ∀ t ∈ ts, t.length ≤ 9998)
    (hcont : start.conn.infd.content = ts.flatMap frame ++ rest) {moves : List Move}
    {outs : List (Option Happening)} {scene : Scene}
    (h : (among this start).run moves = some (outs, scene)) :
    Received ts rest (happenings outs) scene.conn := by
  refine (run_inv (A := fun _ => True) (P := fun es scene => Received ts rest es scene.conn) hs
    (Or.inl ⟨0, Nat.zero_le _, rfl, hcont⟩) ?_ (fun _ _ _ _ _ hrec _ _ _ => hrec) (fun _ _ => trivial) h).2
  intro es scene wake a k re hrec _ _ hre
  by_cases ha : a = .receive
  · subst ha
    obtain ⟨r, infd, hre', hr⟩ := react_receive this wake scene.conn scene.server
    obtain rfl := Option.some.inj (hre'.symm.trans hre)
    exact hrec.snoc hts hr
  · obtain ⟨hinfd, hnone⟩ := react_infd hre ha
    have hes : (es ++ [re.happening]).filterMap receivedOf = es.filterMap receivedOf := by
      simp [hnone]
    rw [Received, hes, hinfd]
    exact hrec

/-! ### Out -/

/-- Only a `send` writes. -/
theorem react_outfd {this : Client} {wake : Wake} {conn : Connection} {server : Server} {a : Act}
    {re : Reaction a} (h : react this wake conn server a = some re) :
    ∃ part, re.conn.outfd.written = conn.outfd.written ++ part ∧
      part <+: ((sentOf re.happening).map frame).getD [] := by
  cases a with
  | receive =>
    obtain ⟨r, infd, hre, -⟩ := react_receive this wake conn server
    obtain rfl := Option.some.inj (hre.symm.trans h)
    exact ⟨[], (List.append_nil _).symm, List.nil_prefix⟩
  | send text =>
    obtain ⟨r, outfd, part, hre, hw, hpart, -⟩ := react_send this wake conn server text
    obtain rfl := Option.some.inj (hre.symm.trans h)
    exact ⟨part, hw, hpart⟩
  | call op =>
    obtain ⟨out, server', -, rfl⟩ := react_call.mp h
    exact ⟨[], (List.append_nil _).symm, List.nil_prefix⟩
  | dequeue =>
    rw [(react_dequeued h).2.2.2]
    exact ⟨[], (List.append_nil _).symm, List.nil_prefix⟩

/-- A beginning of the frame of each text sent is written, and nothing else. -/
theorem run_written {this : Client} {start : Scene} (hs : start.server.Good) {moves : List Move}
    {outs : List (Option Happening)} {scene : Scene}
    (h : (among this start).run moves = some (outs, scene)) :
    ∃ parts : List Bytes, scene.conn.outfd.written = start.conn.outfd.written ++ parts.flatten ∧
      List.Forall₂ (fun part text => part <+: frame text) parts
        ((happenings outs).filterMap sentOf) := by
  refine (run_inv (A := fun _ => True) (P := fun es scene => ∃ parts : List Bytes,
    scene.conn.outfd.written = start.conn.outfd.written ++ parts.flatten ∧
      List.Forall₂ (fun part text => part <+: frame text) parts (es.filterMap sentOf)) hs
    ⟨[], by simp, .nil⟩ ?_ (fun _ _ _ _ _ hw _ _ _ => hw) (fun _ _ => trivial) h).2
  rintro es scene wake a k re ⟨parts, hw, hparts⟩ _ _ hre
  obtain ⟨part, hw', hpart⟩ := react_outfd hre
  rw [List.filterMap_append]
  cases hsent : sentOf re.happening with
  | none =>
    rw [hsent] at hpart
    obtain rfl : part = [] := List.prefix_nil.mp hpart
    refine ⟨parts, by rw [hw', hw, List.append_nil], ?_⟩
    simpa [hsent] using hparts
  | some text =>
    rw [hsent] at hpart
    refine ⟨parts ++ [part], by simp [hw', hw], ?_⟩
    simpa [hsent] using List.rel_append hparts (.cons hpart .nil)

/-! ### Sessions that are left alone -/

/-- The same thread with a server of its own, which nobody uses. -/
def alone (start : Proc Unit × Connection) :
    Machine (Proc Unit × Connection) Unit Happening where
  init := start
  step := fun (proc, conn) _ =>
    match proc with
    | .act a k => do
      let re ← react 0 .timeout conn {} a
      return (re.happening, k re.answer, re.conn)
    | _ => none

/-- What is received and sent does not depend on the server. -/
theorem react_outward {this : Client} {wake : Wake} {conn : Connection} {server : Server} {a : Act}
    {re : Reaction a} (h : react this wake conn server a = some re) (hout : re.happening.Outward)
    (this' : Client) (wake' : Wake) (server' : Server) :
    react this' wake' conn server' a = some { re with server := server' } := by
  cases a with
  | receive =>
    simp only [react, Option.bind_eq_bind, Option.bind_eq_some_iff, Option.pure_def,
      Option.some.injEq] at h ⊢
    obtain ⟨r, hr, rfl⟩ := h
    exact ⟨r, hr, rfl⟩
  | send text =>
    simp only [react, Option.bind_eq_bind, Option.bind_eq_some_iff, Option.pure_def,
      Option.some.injEq] at h ⊢
    obtain ⟨r, hr, rfl⟩ := h
    exact ⟨r, hr, rfl⟩
  | call op =>
    obtain ⟨out, server'', -, rfl⟩ := react_call.mp h
    exact hout.elim
  | dequeue => rw [(react_dequeued h).1] at hout; exact hout.elim

/-- A session that has only received and sent has gone on as it would alone. -/
theorem run_alone {this : Client} {start : Scene} (hs : start.server.Good) {moves : List Move}
    {outs : List (Option Happening)} {scene : Scene}
    (h : (among this start).run moves = some (outs, scene))
    (hout : ∀ h ∈ happenings outs, h.Outward) :
    (alone (start.proc, start.conn)).run (List.replicate (happenings outs).length ())
      = some (happenings outs, scene.proc, scene.conn) := by
  refine (run_inv (A := fun _ => True) (P := fun es scene => (∀ h ∈ es, h.Outward) →
    (alone (start.proc, start.conn)).run (List.replicate es.length ()) = some (es, scene.proc, scene.conn))
    hs (fun _ => rfl) ?_ (fun _ _ _ _ _ halone _ _ _ => halone) (fun _ _ => trivial) h).2 hout
  intro es scene wake a k re halone _ hproc hre hout
  have hes := halone fun h hmem => hout h (List.mem_append_left _ hmem)
  have hre' := react_outward hre (hout _ (by simp)) 0 .timeout {}
  rw [List.length_append, List.length_singleton, List.replicate_succ']
  refine Machine.run_snoc.mpr ⟨es, _, re.happening, hes, ?_, rfl⟩
  simp [alone, hproc, hre']

/-- Behind the end of the session nothing follows. -/
theorem alone_ends {start : Proc Unit × Connection} {m m' : ℕ} {es es' : List Happening}
    {conn conn' : Connection} {r : Cpp Unit} {p' : Proc Unit}
    (h : (alone start).run (List.replicate m ()) = some (es, done r, conn))
    (h' : (alone start).run (List.replicate m' ()) = some (es', p', conn')) : m' ≤ m := by
  by_contra hlt
  obtain ⟨k, rfl⟩ : ∃ k, m' = m + (k + 1) := ⟨m' - m - 1, by omega⟩
  rw [List.replicate_add] at h'
  obtain ⟨os, s, os', hrun, hrest, -⟩ := Machine.run_append h'
  obtain ⟨-, rfl⟩ := Prod.mk.inj (Option.some.inj (hrun.symm.trans h))
  obtain ⟨o, s₁, os₁, hstep, -⟩ := Machine.runFrom_cons.mp hrest
  cases hstep

/-- Two sessions with the same connection that have only received and sent, and have come to their
    ends, are the same. -/
theorem alone_unique {this : Client} {proc : Proc Unit} {conn : Connection} {s₁ s₂ : Server}
    (hs₁ : s₁.Good) (hs₂ : s₂.Good) {moves₁ moves₂ : List Move}
    {outs₁ outs₂ : List (Option Happening)} {scene₁ scene₂ : Scene}
    (h₁ : (among this ⟨proc, conn, s₁⟩).run moves₁ = some (outs₁, scene₁))
    (h₂ : (among this ⟨proc, conn, s₂⟩).run moves₂ = some (outs₂, scene₂))
    (hout₁ : ∀ h ∈ happenings outs₁, h.Outward) (hout₂ : ∀ h ∈ happenings outs₂, h.Outward)
    {r₁ r₂ : Cpp Unit} (hdone₁ : scene₁.proc = done r₁) (hdone₂ : scene₂.proc = done r₂) :
    happenings outs₁ = happenings outs₂ ∧ scene₁.conn = scene₂.conn := by
  have hrun₁ := run_alone hs₁ h₁ hout₁
  have hrun₂ := run_alone hs₂ h₂ hout₂
  rw [hdone₁] at hrun₁
  rw [hdone₂] at hrun₂
  have hlen := le_antisymm (alone_ends hrun₂ hrun₁) (alone_ends hrun₁ hrun₂)
  rw [hlen] at hrun₁
  obtain ⟨hes, hrest⟩ := Prod.mk.inj (Option.some.inj (hrun₁.symm.trans hrun₂))
  exact ⟨hes, (Prod.mk.inj hrest).2⟩

end Restaurant.Session
