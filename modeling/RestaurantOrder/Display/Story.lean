import RestaurantOrder.Display.Views
import RestaurantOrder.Session.Feed

/-! What the queue of a display tells.

    For a client the log of what is done in the server has three chapters: before it is registered as a
    display, while it is one, and after it has been unregistered (`Tale.next`). Registered, it is sent
    the orders of that moment; from then on it is sent the views of whatever is done, none left out.

        before ──register──▶ during ──unregister──▶ after
               arrivals       │ ↺ made

    The thread takes the messages for these views out of the queue in their order, and as long as the
    client is registered the last of them shows what the server has (`Stream`). -/

namespace Restaurant.Display
open Schemes Server
open Session (Deed Happening Feed Inside calledOf carried taken)

inductive Chapter where
  | before
  | during
  | after

/-- How far the log has come for a client, and the views that its display has been sent; at first it
    shows no orders. -/
structure Tale where
  chapter : Chapter := .before
  views : List Orders := [∅]

/-- The tale goes on with what is done in the server. -/
def Tale.next (this : Client) (t : Tale) (deed : Deed) : Tale :=
  match t.chapter with
  | .before =>
    if deed.1 = .registerDisplay this then ⟨.during, arrivals deed.2.2.1.orders⟩ else t
  | .during =>
    if deed.1 = .unregisterDisplay this then ⟨.after, t.views⟩ else ⟨.during, t.views ++ made deed⟩
  | .after => t

/-- What a log tells a client. -/
def tale (this : Client) (log : List Deed) : Tale := log.foldl (Tale.next this) {}

theorem tale_more (this : Client) (log : List Deed) (o : Option Deed) :
    tale this (log ++ o.toList) = o.elim (tale this log) ((tale this log).next this) := by
  rw [tale, List.foldl_append]
  cases o <;> rfl

/-! ### The stream -/

/-- What has been put in the queue of a client since the start. -/
def queued (this : Client) (start : ℕ) (s : Server) : List Message := (s.queue this).drop start

/-- Where the thread of a client and the server stand in each chapter. -/
inductive Stands (this : Client) (past : List Happening) (s : Server) : Tale → Prop
  | before (hcalls : past.filterMap calledOf = []) (hout : this ∉ s.displayClients) :
      Stands this past s ⟨.before, [∅]⟩
  | during {later} (hcalls : past.filterMap calledOf ≠ []) (hin : this ∈ s.displayClients)
      (hlast : later.getLastD ∅ = s.orders) : Stands this past s ⟨.during, ∅ :: later⟩
  | after {later} (hcalls : past.filterMap calledOf ≠ []) (hout : this ∉ s.displayClients) :
      Stands this past s ⟨.after, ∅ :: later⟩

/-- The thread of a client and the server, with the tale of the client; `count` messages have been taken
    out of the queue, `start` of them before the client was accepted. -/
structure Stream (this : Client) (start : ℕ) (t : Tale) (past : List Happening) (count : ℕ)
    (s : Server) : Prop where
  good : s.Good
  displayed : AllDisplayed s.orders
  displays : this ∈ s.displayClients ↔ Inside this past
  begun : start ≤ (s.queue this).length
  count : count = start + (taken past).length
  took : taken past <+: queued this start s
  changes : ∀ m ∈ queued this start s, Change m
  copies : Copies turn ∅ (queued this start s) t.views.tail
  chain : t.views.IsChain (· ≠ ·)
  views : ∀ view ∈ t.views, AllDisplayed view
  stands : Stands this past s t

section
variable {this : Client} {start count : ℕ} {t : Tale} {past : List Happening} {s s' : Server}

theorem queued_append (hbegun : start ≤ (s.queue this).length) {ms : List Message}
    (h : s'.queue this = s.queue this ++ ms) : queued this start s' = queued this start s ++ ms := by
  rw [queued, h, List.drop_append_of_le_length hbegun]
  rfl

/-- Before its chapter a client has been sent nothing. -/
theorem Stream.queued_nil (h : Stream this start t past count s) (hviews : t.views = [∅]) :
    queued this start s = [] := by
  have hlen := h.copies.length_eq
  rw [hviews] at hlen
  exact List.eq_nil_of_length_eq_zero hlen.symm

theorem Stream.view_cons (h : Stream this start t past count s) : t.views = ∅ :: t.views.tail := by
  cases h.stands <;> rfl

/-- As long as it is registered, the last view shows what the server has. -/
theorem Stream.last (h : Stream this start t past count s) (hin : this ∈ s.displayClients) :
    t.views.tail.getLastD ∅ = s.orders := by
  cases h.stands with
  | before _ hout => exact absurd hin hout
  | during _ _ hlast => exact hlast
  | after _ hout => exact absurd hin hout

/-! ### Other threads -/

/-- FRAME: a client that is no display is told nothing. -/
theorem Stream.untold (h : Stream this start t past count s) {op : Op} {out : Out}
    (hout : this ∉ s.displayClients) (hop : Apart this op) (htook : Took s op out s') :
    Stream this start t past count s' := by
  have hout' : this ∉ s'.displayClients := by
    rw [htook.displays]
    simp [hop.2.1, hout]
  have hqueue : s'.queue this = s.queue this := by
    rw [Session.took_queue htook, if_neg hop.2.1, if_neg hout, List.append_nil]
  have hqueued : queued this start s' = queued this start s := by rw [queued, hqueue]; rfl
  have hstands : Stands this past s' t := by
    cases h.stands with
    | before hcalls => exact .before hcalls hout'
    | during _ hin => exact absurd hin hout
    | after hcalls => exact .after hcalls hout'
  exact { h with
    good := htook.good h.good, displayed := took_allDisplayed h.good h.displayed hop.1 htook
    displays := (iff_of_false hout' hout).trans h.displays, begun := hqueue ▸ h.begun
    took := hqueued ▸ h.took, changes := hqueued ▸ h.changes, copies := hqueued ▸ h.copies
    stands := hstands }

/-- STEP: a display is told what another thread does. -/
theorem Stream.told {later : List Orders} (h : Stream this start ⟨.during, ∅ :: later⟩ past count s)
    (hcalls : past.filterMap calledOf ≠ []) (hin : this ∈ s.displayClients)
    (hlast : later.getLastD ∅ = s.orders) {op : Op} {out : Out} (hop : Apart this op)
    (htook : Took s op out s') :
    Stream this start ⟨.during, ∅ :: later ++ made (op, out, s, s')⟩ past count s' := by
  obtain ⟨ms, hqueue, hchanges, hcopies⟩ := took_views
    ⟨h.good, fun k o ho => (h.displayed k o ho).sendable, hin⟩ hop htook
  have hqueued := queued_append h.begun hqueue
  have hdisplayed := took_allDisplayed h.good h.displayed hop.1 htook
  have hin' : this ∈ s'.displayClients := (htook.displays this).mpr (Or.inr ⟨hin, hop.2.2⟩)
  obtain ⟨hhead, hnew⟩ := List.isChain_cons.mp (made_chain h.good htook)
  refine ⟨htook.good h.good, hdisplayed, (iff_of_true hin' hin).trans h.displays, ?_, h.count, ?_, ?_, ?_,
    ?_, ?_, .during hcalls hin' ?_⟩
  · rw [hqueue, List.length_append]
    exact Nat.le_add_right_of_le h.begun
  · rw [hqueued]
    exact h.took.trans (List.prefix_append _ _)
  · rw [hqueued]
    intro m hm
    exact (List.mem_append.mp hm).elim (h.changes m) (hchanges m)
  · rw [hqueued, List.cons_append, List.tail_cons]
    exact h.copies.append (hlast ▸ hcopies)
  · refine List.isChain_append.mpr ⟨h.chain, hnew, fun view hview => ?_⟩
    rw [List.getLast?_cons, ← List.getLastD_eq_getLast?, hlast] at hview
    obtain rfl := Option.some.inj hview
    exact hhead
  · intro view hview
    rcases List.mem_append.mp hview with hview | hview
    · exact h.views view hview
    · exact made_allDisplayed h.displayed hdisplayed view hview
  · refine (Copies.getLastD_append _ _ _).trans ?_
    rw [hlast]
    exact made_getLastD htook

/-- STEP: another thread does an operation. -/
theorem Stream.other (h : Stream this start t past count s) {op : Op} {out : Out}
    (hop : Apart this op) (htook : Took s op out s') :
    Stream this start (t.next this (op, out, s, s')) past count s' := by
  cases h.stands with
  | before hcalls hout =>
    rw [Tale.next, if_neg hop.2.1]
    exact h.untold hout hop htook
  | during hcalls hin hlast =>
    rw [Tale.next, if_neg hop.2.2]
    exact h.told hcalls hin hlast hop htook
  | after hcalls hout => exact h.untold hout hop htook

/-! ### The thread of the display -/

theorem taken_snoc (past : List Happening) (h : Happening) :
    taken (past ++ [h]) = taken past ++ ((Session.foundOf h).bind id).toList := by
  rw [taken, Session.founds, List.filterMap_append, List.reduceOption_append]
  cases hh : Session.foundOf h with
  | none => simp [hh, taken, Session.founds]
  | some found => cases found <;> simp [hh, taken, Session.founds]

/-- What is no call leaves the registration as it is. -/
theorem not_called {happening : Happening} (hcalled : calledOf happening = none) (this : Client)
    (past : List Happening) :
    (Inside this (past ++ [happening]) ↔ Inside this past) ∧
      (past ++ [happening]).filterMap calledOf = past.filterMap calledOf := by
  rw [Session.inside_snoc, hcalled, List.filterMap_append]
  simp [hcalled]

/-- FRAME: where a client stands depends on the calls of its thread. -/
theorem Stands.again (h : Stands this past s t) {past' : List Happening}
    (hcalls : past'.filterMap calledOf = past.filterMap calledOf) : Stands this past' s t := by
  cases h with
  | before hnone hout => exact .before (hcalls.trans hnone) hout
  | during hsome hin hlast => exact .during (hcalls ▸ hsome) hin hlast
  | after hsome hout => exact .after (hcalls ▸ hsome) hout

/-- STEP: the thread does nothing in the server, and takes nothing out of the queue. -/
theorem Stream.waits (h : Stream this start t past count s) {happening : Happening}
    (hcalled : calledOf happening = none) (hfound : (Session.foundOf happening).bind id = none) :
    Stream this start t (past ++ [happening]) count s := by
  obtain ⟨hinside, hcalls⟩ := not_called hcalled this past
  have htaken : taken (past ++ [happening]) = taken past := by
    rw [taken_snoc, hfound]
    exact List.append_nil _
  exact { h with
    displays := h.displays.trans hinside.symm
    count := htaken.symm ▸ h.count
    took := htaken.symm ▸ h.took
    stands := h.stands.again hcalls }

/-- STEP: it takes a message out of the queue. -/
theorem Stream.takes (h : Stream this start t past count s) {happening : Happening}
    (hcalled : calledOf happening = none) {m : Message}
    (hfound : (Session.foundOf happening).bind id = some m)
    (hnext : (s.queue this)[count]? = some m) :
    Stream this start t (past ++ [happening]) (count + 1) s := by
  obtain ⟨hinside, hcalls⟩ := not_called hcalled this past
  have htaken : taken (past ++ [happening]) = taken past ++ [m] := by
    rw [taken_snoc, hfound]
    rfl
  refine { h with
    displays := h.displays.trans hinside.symm, count := ?_, took := ?_, stands := h.stands.again hcalls }
  · rw [htaken, List.length_append, h.count]
    rfl
  · have hget : (queued this start s)[(taken past).length]? = some m := by
      rw [queued, List.getElem?_drop, ← h.count]
      exact hnext
    obtain ⟨hlt, hm⟩ := List.getElem?_eq_some_iff.mp hget
    have hprefix := List.concat_get_prefix h.took hlt
    rw [List.get_eq_getElem, hm] at hprefix
    rwa [htaken]

/-- A call takes nothing out of the queue. -/
theorem taken_called {happening : Happening} {op : Op} (hcalled : calledOf happening = some op)
    (past : List Happening) : taken (past ++ [happening]) = taken past := by
  have hfound : Session.foundOf happening = none := by
    cases happening with
    | called => rfl
    | _ => cases hcalled
  rw [taken_snoc, hfound]
  exact List.append_nil _

/-- STEP: the client is registered. -/
theorem Stream.registers (h : Stream this start t past count s) (hcalls : past.filterMap calledOf = [])
    {happening : Happening} (hcalled : calledOf happening = some (.registerDisplay this)) {out : Out} :
    Stream this start (t.next this (.registerDisplay this, out, s, s.register this))
      (past ++ [happening]) count (s.register this) := by
  cases h.stands with
  | during hcalls' => exact absurd hcalls hcalls'
  | after hcalls' => exact absurd hcalls hcalls'
  | before =>
    have hempty := h.queued_nil rfl
    have hqueue := register_queue_self s this
    have hqueued : queued this start (s.register this) = snapshot s.orders := by
      rw [queued_append h.begun hqueue, hempty, List.nil_append]
    have hnothing : taken (past ++ [happening]) = [] := by
      have hnil := h.took
      rwa [hempty, List.prefix_nil, ← taken_called hcalled] at hnil
    have htook : Took s (.registerDisplay this) (.ok none) (s.register this) := .registered
    have hin : this ∈ (s.register this).displayClients := (htook.displays this).mpr (Or.inl rfl)
    rw [Tale.next, if_pos rfl]
    refine ⟨htook.good h.good, h.displayed, iff_of_true hin ?_, ?_, ?_, ?_, ?_, ?_,
      arrivals_chain s.orders, arrivals_allDisplayed h.displayed, ?_⟩
    · rw [Session.inside_snoc, hcalled]
      simp
    · rw [hqueue, List.length_append]
      exact Nat.le_add_right_of_le h.begun
    · rw [taken_called hcalled]
      exact h.count
    · rw [hnothing]
      exact List.nil_prefix
    · rw [hqueued]
      exact snapshot_changes fun k o ho => (h.displayed k o ho).sendable
    · rw [hqueued]
      exact snapshot_views (fun k o => h.good.id k o) fun k o ho => (h.displayed k o ho).sendable
    · rw [arrivals_cons]
      exact .during (by simp [List.filterMap_append, hcalled]) hin (arrivals_getLastD s.orders)

/-- STEP: the client is unregistered. -/
theorem Stream.unregisters (h : Stream this start t past count s)
    (hcalls : past.filterMap calledOf ≠ []) {happening : Happening}
    (hcalled : calledOf happening = some (.unregisterDisplay this)) {out : Out}
    (htook : Took s (.unregisterDisplay this) out s') :
    Stream this start (t.next this (.unregisterDisplay this, out, s, s')) (past ++ [happening]) count
      s' := by
  have hout : this ∉ s'.displayClients := by
    rw [htook.displays]
    simp
  have hnext : t.next this (.unregisterDisplay this, out, s, s') = ⟨.after, t.views⟩ := by
    cases h.stands with
    | before hnone => exact absurd hnone hcalls
    | during => exact if_pos rfl
    | after => rfl
  rw [hnext]
  have hgood := htook.good h.good
  cases htook
  refine { h with
    good := hgood, displays := iff_of_false hout ?_, count := ?_, took := ?_, stands := ?_ }
  · rw [Session.inside_snoc, hcalled]
    simp
  · rw [taken_called hcalled]
    exact h.count
  · rw [taken_called hcalled]
    exact h.took
  · rw [h.view_cons]
    exact .after (by simp [List.filterMap_append, hcalled]) hout

/-- STEP: the thread of the display does something. -/
theorem Stream.thread {n : ℕ} {a : Session.Act} {f : a.Answer → Session.Proc Unit}
    (hfeed : Feed this n past (.act a f)) {conn : Session.Connection}
    (h : Stream this start t past conn.taken s) {wake : Session.Wake} {re : Session.Reaction a}
    (hre : Session.react this wake conn s a = some re) :
    Stream this start ((carried re.happening).elim t (t.next this)) (past ++ [re.happening])
      re.conn.taken re.server := by
  cases a with
  | receive =>
    obtain ⟨r, infd, hre', -⟩ := Session.react_receive this wake conn s
    obtain rfl := Option.some.inj (hre'.symm.trans hre)
    exact h.waits rfl rfl
  | send text =>
    obtain ⟨r, outfd, part, hre', -⟩ := Session.react_send this wake conn s text
    obtain rfl := Option.some.inj (hre'.symm.trans hre)
    exact h.waits rfl rfl
  | dequeue =>
    cases wake with
    | message =>
      simp only [Session.react, Option.bind_eq_bind, Option.bind_eq_some_iff, Option.pure_def,
        Option.some.injEq] at hre
      obtain ⟨msg, hmsg, rfl⟩ := hre
      exact h.takes rfl rfl hmsg
    | timeout =>
      obtain rfl := Option.some.inj hre
      exact h.waits rfl rfl
    | throws e =>
      obtain rfl := Option.some.inj hre
      exact h.waits rfl rfl
  | call op =>
    obtain ⟨out, server', hstep, rfl⟩ := Session.react_call.mp hre
    have htook := step_took h.good hstep
    rcases hfeed.calls rfl with ⟨rfl, hcalls⟩ | ⟨rfl, hcalls⟩
    · cases htook
      exact h.registers hcalls rfl
    · exact h.unregisters hcalls rfl htook

end

end Restaurant.Display
