import RestaurantOrder.Server.Client
import RestaurantOrder.Session.Course
import RestaurantOrder.Session.System
import RestaurantOrder.Session.Traffic

/-! What the thread of a display does.

    Behind the login it registers its client. Then it takes one message after the other out of the queue
    and sends it, or a heartbeat when nothing has come, until a `dequeue` throws or a message cannot be
    sent; and then it unregisters its client (`Feed.step`).

        register ──▶ dequeue ──▶ send ──▶ dequeue ──▶ send ──▶ ... ──▶ unregister

    So it sends what it takes, in this order and nothing else (`Feed.sends`), and it does with it what
    the loop over a list of messages does (`feeding_runs`). -/

namespace Restaurant.Session
open Schemes Process
open Framing (Infd Outfd)
open Wire (messageStr)

/-- What is sent for what a `dequeue` has returned. -/
def fed (found : Option Message) : Message := found.getD (.ofType .dispHeartbeat)

/-- The end of a display. -/
def unfeeding (this : Client) : Proc Unit := act (.call (.unregisterDisplay this)) fun _ => done (.ok ())

/-- The rest of a turn of its loop, and the turns behind it. -/
def feedOn (this : Client) (k : ℕ) (turn : Proc Bool) : Proc Unit :=
  handle (fun _ => return ()) do
    handle (fun _ => return ()) (turn >>= fun goOn => if goOn then loop displayTurn k else done (.ok ()))
    let _ ← ask (.call (.unregisterDisplay this))

/-- The loop of a display that is registered; `k` turns are left. -/
def feeding (this : Client) (k : ℕ) : Proc Unit :=
  handle (fun _ => return ()) do
    handle (fun _ => return ()) (loop displayTurn k)
    let _ ← ask (.call (.unregisterDisplay this))

/-- A turn of that loop, once the `dequeue` has ended. -/
def fedOn (this : Client) (k : ℕ) : Except Exception (Option Message) → Proc Unit
  | .ok found => feedOn this k (sendMessage (fed found))
  | .error _ => unfeeding this

/-- The rest, once the message has been sent. -/
def feedNext (this : Client) (k : ℕ) (r : Except Exception Unit) : Proc Unit :=
  if r.isOk then feeding this k else unfeeding this

/-! ### The loop -/

theorem unfeeding_eq (this : Client) :
    (handle (fun _ => return ()) do
      let _ ← ask (.call (.unregisterDisplay this)) : Proc Unit) = unfeeding this := by
  show act (Act.call (.unregisterDisplay this)) _ = _
  rw [unfeeding]
  congr 1
  funext out
  cases out <;> rfl

theorem entered_display (this : Client) (n : ℕ) : entered this n .display
    = act (.call (.registerDisplay this)) fun out => if out.isOk then feeding this n else done (.ok ()) := by
  show act (Act.call (.registerDisplay this)) _ = _
  congr 1
  funext out
  cases out <;> rfl

theorem feeding_succ (this : Client) (k : ℕ) :
    feeding this (k + 1) = act .dequeue (fedOn this k) := by
  show act Act.dequeue _ = _
  congr 1
  funext r
  rcases r with e | _ | msg
  · exact unfeeding_eq this
  · rfl
  · rfl

theorem fedOn_ok {found : Option Message} (h : Wire.hasFields (fed found)) (this : Client) (k : ℕ) :
    fedOn this k (.ok found) = act (.send (messageStr (fed found))) (feedNext this k) := by
  rw [fedOn, sendMessage_eq h]
  show act (Act.send _) _ = _
  congr 1
  funext r
  rcases r with e | ⟨⟩
  · exact unfeeding_eq this
  · rfl

/-! ### What has happened -/

/-- A turn after which the loop goes on. -/
def fedEvents (found : Option Message) : List Happening :=
  [.dequeued (.ok found), .sent (messageStr (fed found)) (.ok ())]

/-- The way into the loop. -/
def admitted (this : Client) (raw : Bytes) (r : Except Exception Unit) (before after : Server) :
    List Happening :=
  [.received (.ok raw), .sent (messageStr welcome) r, .called (.registerDisplay this) (.ok none) before after]

/-- A turn that has ended the loop. -/
def FeedEnds (tail : List Happening) : Prop :=
  (∃ e, tail = [.dequeued (.error e)]) ∨
    ∃ found e, tail = [.dequeued (.ok found), .sent (messageStr (fed found)) (.error e)]

/-- What has happened of the last turn, and what comes next; `k` turns are left with this one. -/
inductive Feeding (this : Client) : ℕ → List Happening → Proc Unit → Prop
  | waiting {k} : Feeding this k [] (feeding this k)
  | sending {k found} : Feeding this (k + 1) [.dequeued (.ok found)]
      (act (.send (messageStr (fed found))) (feedNext this k))
  | leaving {k tail} (h : FeedEnds tail) : Feeding this (k + 1) tail (unfeeding this)
  | left {k tail out before after} (h : FeedEnds tail) : Feeding this (k + 1)
      (tail ++ [.called (.unregisterDisplay this) out before after]) (done (.ok ()))

/-- The course of a display: what can have happened, and what its thread does next. -/
inductive Feed (this : Client) (n : ℕ) : List Happening → Proc Unit → Prop
  | opening : Feed this n [] (chat this n)
  | rejected {r} : Feed this n [.received r] (done (.ok ()))
  | refusing {raw} : Feed this n [.received (.ok raw)]
      (act (.send (messageStr refusal)) fun _ => done (.ok ()))
  | refused {raw r} : Feed this n [.received (.ok raw), .sent (messageStr refusal) r] (done (.ok ()))
  | greeting {raw} : Feed this n [.received (.ok raw)]
      (act (.send (messageStr welcome)) fun _ => entered this n .display)
  | entering {raw r} : Feed this n [.received (.ok raw), .sent (messageStr welcome) r]
      (entered this n .display)
  | feeding {raw r before after k tail p} {founds : List (Option Message)}
      (hshort : ∀ found ∈ founds, (messageStr (fed found)).length ≤ 9998)
      (htail : Feeding this k tail p) (hn : founds.length + k = n) :
      Feed this n (admitted this raw r before after ++ (founds.flatMap fedEvents ++ tail)) p

/-! ### Steps -/

theorem sent_short {this : Client} {wake : Wake} {conn : Connection} {server : Server} {text : Bytes}
    {re : Reaction (.send text)} (h : react this wake conn server (.send text) = some re)
    (hok : re.answer = .ok ()) : text.length ≤ 9998 := by
  by_contra hlong
  rw [react, Framing.exec_send_long (Nat.lt_of_not_le hlong)] at h
  obtain rfl := Option.some.inj h
  cases hok

theorem hasFields_heartbeat : Wire.hasFields (.ofType .dispHeartbeat) := trivial

theorem Feeding.step {this : Client} {wake : Wake} {conn : Connection} {server : Server} {k : ℕ}
    {tail : List Happening} {p : Proc Unit} (h : Feeding this k tail p) {a : Act}
    {f : a.Answer → Proc Unit} (hp : p = act a f) {re : Reaction a}
    (hre : react this wake conn server a = some re)
    (hmsg : ∀ m, re.happening = .dequeued (.ok (some m)) → Wire.hasFields m) :
    (∃ (found : Option Message) (k' : ℕ), (messageStr (fed found)).length ≤ 9998 ∧
      fedEvents found = tail ++ [re.happening] ∧ k = k' + 1 ∧ f re.answer = feeding this k') ∨
      Feeding this k (tail ++ [re.happening]) (f re.answer) := by
  cases h with
  | waiting =>
    rcases k with _ | k
    · cases hp
    rw [feeding_succ] at hp
    cases hp
    obtain ⟨hhap, -⟩ := react_dequeued hre
    rw [hhap] at hmsg ⊢
    refine Or.inr ?_
    rcases hfound : re.answer with e | found
    · exact .leaving (Or.inl ⟨e, rfl⟩)
    · have hfields : Wire.hasFields (fed found) := by
        cases found with
        | none => exact hasFields_heartbeat
        | some m => exact hmsg m (by rw [hfound])
      rw [fedOn_ok hfields]
      exact .sending
  | @sending k found =>
    cases hp
    obtain ⟨hhap, -⟩ := react_sent hre
    rw [hhap]
    rcases hsent : re.answer with e | ⟨⟩
    · exact Or.inr (.leaving (Or.inr ⟨found, e, rfl⟩))
    · exact Or.inl ⟨found, k, sent_short hre hsent, rfl, rfl, rfl⟩
  | leaving hends =>
    cases hp
    obtain ⟨out, server', -, rfl⟩ := react_call.mp hre
    exact Or.inr (.left hends)
  | left => cases hp

/-- STEP: the thread goes on, if what it receives is no login of an updater. -/
theorem Feed.step {this : Client} {n : ℕ} {wake : Wake} {conn : Connection} {server : Server}
    {es : List Happening} {p : Proc Unit} (h : Feed this n es p) {a : Act} {f : a.Answer → Proc Unit}
    (hp : p = act a f) (hs : server.Good) {re : Reaction a}
    (hre : react this wake conn server a = some re)
    (hraw : ∀ raw, re.happening = .received (.ok raw) → ¬Accepts .updater raw)
    (hmsg : ∀ m, re.happening = .dequeued (.ok (some m)) → Wire.hasFields m) :
    Feed this n (es ++ [re.happening]) (f re.answer) := by
  cases h with
  | opening =>
    rw [chat_eq] at hp
    cases hp
    obtain ⟨hhap, -⟩ := react_received hre
    rw [hhap] at hraw ⊢
    show Feed this n [.received re.answer] (letIn this n (heard re.answer))
    rcases heard_cases re.answer with ⟨raw, msg, hr, hmsg, htext⟩ | ⟨e, he⟩
    case inr => rw [he]; exact .rejected
    rw [hmsg, hr]
    rcases letIn_cases this n htext with ⟨mode, hacc, hlet⟩ | ⟨-, hlet | hlet⟩ <;> rw [hlet]
    · rcases hacc.mode with rfl | rfl
      · exact .greeting
      · exact absurd hacc (hraw raw (by rw [hr]))
    · exact .rejected
    · exact .refusing
  | rejected => cases hp
  | refusing =>
    cases hp
    obtain ⟨hhap, -⟩ := react_sent hre
    rw [hhap]
    exact .refused
  | refused => cases hp
  | greeting =>
    cases hp
    obtain ⟨hhap, -⟩ := react_sent hre
    rw [hhap]
    exact .entering
  | @entering raw r =>
    rw [entered_display] at hp
    cases hp
    obtain ⟨out, server', hstep, rfl⟩ := react_call.mp hre
    cases Server.step_took hs hstep with
    | registered =>
      exact @Feed.feeding this n raw r server _ n [] _ [] (fun _ hmem => absurd hmem List.not_mem_nil)
        .waiting (Nat.zero_add n)
  | @feeding raw r before after k tail p founds hshort htail hn =>
    rcases htail.step hp hre hmsg with ⟨found, k', hlen, hevents, rfl, hnext⟩ | htail'
    · have hes : admitted this raw r before after ++ (founds.flatMap fedEvents ++ tail)
          ++ [re.happening]
          = admitted this raw r before after ++ ((founds ++ [found]).flatMap fedEvents ++ []) := by
        rw [List.flatMap_append, List.flatMap_singleton, hevents, List.append_nil, List.append_assoc,
          List.append_assoc]
      rw [hes, hnext]
      refine .feeding (fun x hx => ?_) .waiting ?_
      · rcases List.mem_append.mp hx with hx | hx
        · exact hshort x hx
        · exact List.mem_singleton.mp hx ▸ hlen
      · rw [List.length_append, List.length_singleton]
        omega
    · rw [List.append_assoc, List.append_assoc]
      exact .feeding hshort htail' hn

/-! ### What is sent -/

def foundOf : Happening → Option (Option Message)
  | .dequeued (.ok found) => some found
  | _ => none

/-- What the `dequeue`s have returned. -/
def founds (past : List Happening) : List (Option Message) := past.filterMap foundOf

/-- The messages that have been taken out of the queue. -/
def taken (past : List Happening) : List Message := (founds past).reduceOption

theorem filterMap_fedEvents {β : Type} {f : Happening → Option β} {g : Option Message → β}
    (hf : ∀ found, (fedEvents found).filterMap f = [g found]) (l : List (Option Message)) :
    (l.flatMap fedEvents).filterMap f = l.map g := by
  induction l with
  | nil => rfl
  | cons found l ih =>
    rw [List.flatMap_cons, List.filterMap_append, hf, ih, List.map_cons, List.singleton_append]

theorem founds_admitted {this : Client} {raw : Bytes} {r : Except Exception Unit}
    {before after : Server} {l : List (Option Message)} {tail : List Happening} :
    founds (admitted this raw r before after ++ (l.flatMap fedEvents ++ tail)) = l ++ founds tail := by
  rw [founds, List.filterMap_append, List.filterMap_append,
    filterMap_fedEvents (g := id) (fun _ => rfl), List.map_id]
  rfl

theorem sent_admitted {this : Client} {raw : Bytes} {r : Except Exception Unit}
    {before after : Server} {l : List (Option Message)} {tail : List Happening} :
    (admitted this raw r before after ++ (l.flatMap fedEvents ++ tail)).filterMap sentOf
      = messageStr welcome :: (l.map (fun found => messageStr (fed found)) ++ tail.filterMap sentOf) := by
  rw [List.filterMap_append, List.filterMap_append,
    filterMap_fedEvents (g := fun found => messageStr (fed found)) (fun _ => rfl)]
  rfl

/-- The last turn has sent what it has taken, or not yet. -/
theorem Feeding.sends {this : Client} {k : ℕ} {tail : List Happening} {p : Proc Unit}
    (h : Feeding this k tail p) :
    tail.filterMap sentOf <+: (founds tail).map fun found => messageStr (fed found) := by
  have hends : ∀ {tail}, FeedEnds tail →
      tail.filterMap sentOf <+: (founds tail).map fun found => messageStr (fed found) := by
    rintro _ (⟨e, rfl⟩ | ⟨found, e, rfl⟩)
    · exact List.prefix_rfl
    · exact List.prefix_rfl
  cases h with
  | waiting => exact List.prefix_rfl
  | sending => exact List.nil_prefix
  | leaving h => exact hends h
  | @left k tail out before after h =>
    have hsent : (tail ++ [Happening.called (.unregisterDisplay this) out before after]).filterMap sentOf
        = tail.filterMap sentOf := by
      rw [List.filterMap_append]
      exact List.append_nil _
    have hfounds : founds (tail ++ [Happening.called (.unregisterDisplay this) out before after])
        = founds tail := by
      rw [founds, List.filterMap_append]
      exact List.append_nil _
    rw [hsent, hfounds]
    exact hends h

/-- Behind the login a display is sent what was taken out of its queue, and heartbeats. -/
theorem Feed.sends {this : Client} {n : ℕ} {past : List Happening} {p : Proc Unit}
    (h : Feed this n past p) :
    (past.filterMap sentOf).tail <+: (founds past).map fun found => messageStr (fed found) := by
  cases h with
  | @feeding raw r before after k tail p l hshort htail hn =>
    rw [sent_admitted, founds_admitted, List.tail_cons, List.map_append]
    exact (List.prefix_append_right_inj _).mpr htail.sends
  | _ => exact List.nil_prefix

/-- A thread that waits for a message has sent all that it has taken, and its client is registered. -/
theorem Feed.waiting {this : Client} {n : ℕ} {past : List Happening} {p : Proc Unit}
    (h : Feed this n past p) {f : Act.dequeue.Answer → Proc Unit} (hp : p = act .dequeue f) :
    past.filterMap sentOf
        = messageStr welcome :: (founds past).map (fun found => messageStr (fed found)) ∧
      (∀ t ∈ past.filterMap sentOf, t.length ≤ 9998) ∧ Inside this past := by
  cases h with
  | opening => rw [chat_eq] at hp; cases hp
  | entering => rw [entered_display] at hp; cases hp
  | @feeding raw r before after k tail p l hshort htail hn =>
    cases htail with
    | waiting =>
      rw [sent_admitted, founds_admitted]
      refine ⟨by simp [founds], fun t ht => ?_, ?_⟩
      · rw [List.mem_cons, List.mem_append, List.mem_map] at ht
        rcases ht with rfl | ⟨found, hfound, rfl⟩ | ht
        · exact welcome_short
        · exact hshort found hfound
        · exact absurd ht List.not_mem_nil
      · refine ⟨[.received (.ok raw), .sent (messageStr welcome) r], _, l.flatMap fedEvents ++ [], rfl, rfl,
          fun h' hmem => ?_⟩
        rw [List.append_nil, List.mem_flatMap] at hmem
        obtain ⟨found, -, hmem⟩ := hmem
        rcases List.mem_pair.mp hmem with rfl | rfl <;> simp [calledOf]
    | _ => cases hp
  | _ => cases hp

/-- A thread that sends has sent nothing that is too long. -/
theorem Feed.short {this : Client} {n : ℕ} {past : List Happening} {p : Proc Unit}
    (h : Feed this n past p) {text : Bytes} {f : (Act.send text).Answer → Proc Unit}
    (hp : p = act (.send text) f) : ∀ t ∈ past.filterMap sentOf, t.length ≤ 9998 := by
  cases h with
  | opening => rw [chat_eq] at hp; cases hp
  | entering => rw [entered_display] at hp; cases hp
  | @feeding raw r before after k tail p l hshort htail hn =>
    intro t ht
    rw [sent_admitted, List.mem_cons, List.mem_append, List.mem_map] at ht
    cases htail with
    | sending =>
      rcases ht with rfl | ⟨found, hfound, rfl⟩ | ht
      · exact welcome_short
      · exact hshort found hfound
      · exact absurd ht List.not_mem_nil
    | waiting =>
      rcases k with _ | k
      · cases hp
      · rw [feeding_succ] at hp; cases hp
    | _ => cases hp
  | refusing => simp [sentOf]
  | greeting => simp [sentOf]
  | _ => cases hp

/-- A thread that fails to receive is at its end. -/
theorem Feed.failed {this : Client} {n : ℕ} {past : List Happening} {p : Proc Unit}
    (h : Feed this n past p) {e : Exception} (hmem : .received (.error e) ∈ past) :
    ∃ r, p = done r := by
  cases h with
  | rejected => exact ⟨_, rfl⟩
  | refused => exact ⟨_, rfl⟩
  | @feeding raw r before after k tail p l hshort htail hn =>
    have hl : .received (.error e) ∉ l.flatMap fedEvents := by simp [fedEvents]
    have htails : .received (.error e) ∉ tail := by
      cases htail with
      | waiting => simp
      | sending => simp
      | leaving hends => rcases hends with ⟨e, rfl⟩ | ⟨found, e, rfl⟩ <;> simp
      | left hends => rcases hends with ⟨e, rfl⟩ | ⟨found, e, rfl⟩ <;> simp
    simp [admitted, hl, htails] at hmem
  | _ => simp at hmem

/-- It registers once, and calls nothing else but what undoes that. -/
theorem Feed.calls {this : Client} {n : ℕ} {past : List Happening} {p : Proc Unit}
    (h : Feed this n past p) {op : Op} {f : (Act.call op).Answer → Proc Unit}
    (hp : p = act (.call op) f) :
    op = .registerDisplay this ∧ past.filterMap calledOf = [] ∨
      op = .unregisterDisplay this ∧ past.filterMap calledOf ≠ [] := by
  cases h with
  | opening => rw [chat_eq] at hp; cases hp
  | entering =>
    rw [entered_display] at hp
    cases hp
    exact Or.inl ⟨rfl, rfl⟩
  | @feeding raw r before after k tail p l hshort htail hn =>
    cases htail with
    | waiting =>
      rcases k with _ | k
      · cases hp
      · rw [feeding_succ] at hp; cases hp
    | leaving => cases hp; exact Or.inr ⟨rfl, List.cons_ne_nil _ _⟩
    | _ => cases hp
  | _ => cases hp

/-! ### The loop over what `dequeue` returns -/

/-- The two models of `send_message` agree. -/
theorem exec_clientSend {msg : Message} (h : Wire.hasFields msg) {r : Except Exception Unit}
    {fd fd' : Outfd} (hsend : exec (Framing.send (messageStr msg)) fd = (answered r, fd')) :
    exec (Client.sendMessage msg) fd = (.ok r.isOk, fd') := by
  cases r with
  | ok =>
    refine exec_tryCatchAll_ok ?_
    rw [runOn_ok (Wire.exec_encode h []), lift_ok_bind, exec_bind_ok hsend]
    rfl
  | error e =>
    refine exec_tryCatchAll_throws (e := e) ?_
    rw [runOn_ok (Wire.exec_encode h []), lift_ok_bind, exec_bind_error hsend]
    rfl

/-- A message that cannot be encoded ends the loop. -/
theorem fedOn_invalid {found : Option Message} (h : ¬Wire.hasFields (fed found)) (this : Client) (k : ℕ) :
    fedOn this k (.ok found) = unfeeding this := by
  obtain ⟨what, hw⟩ := Wire.exec_encode_invalid h []
  rw [fedOn, sendMessage, runOn_error hw]
  exact unfeeding_eq this

/-- The next `dequeue` can return what stands next in the queue, or nothing. -/
theorem react_next {this : Client} (infd : Infd) (fd : Outfd) {count : ℕ} {server : Server}
    {found : Option Message} {msgs : List (Option Message)}
    (h : (found :: msgs).reduceOption <+: (server.queue this).drop count) :
    ∃ wake count', msgs.reduceOption <+: (server.queue this).drop count' ∧
      react this wake ⟨infd, fd, count⟩ server .dequeue
        = some ⟨.ok found, .dequeued (.ok found), ⟨infd, fd, count'⟩, server⟩ := by
  cases found with
  | none =>
    rw [List.reduceOption_cons_of_none] at h
    exact ⟨.timeout, count, h, rfl⟩
  | some msg =>
    rw [List.reduceOption_cons_of_some] at h
    obtain ⟨more, hmore⟩ := h
    have hnext : (server.queue this)[count]? = some msg := by
      rw [← Nat.add_zero count, ← List.getElem?_drop, ← hmore]
      rfl
    refine ⟨.message, count + 1, ⟨more, ?_⟩, ?_⟩
    · rw [← List.drop_drop, ← hmore]
      rfl
    · simp [react, hnext]

/-- LOOP: the thread of a display does what `Client.displayLoop` does with what its `dequeue`s return. -/
theorem feeding_runs {this : Client} {start : Scene} {server : Server} {infd : Infd} {k : ℕ}
    {msgs : List (Option Message)} {goesOn : Bool} : ∀ {fd fd' : Outfd} {count : ℕ},
      msgs.reduceOption <+: (server.queue this).drop count →
      exec (Client.displayLoop msgs) fd = (.ok goesOn, fd') →
      ∃ moves outs count', (among this start).runFrom
          ⟨feeding this (k + msgs.length), ⟨infd, fd, count⟩, server⟩ moves
        = some (outs, ⟨if goesOn then feeding this k else unfeeding this, ⟨infd, fd', count'⟩, server⟩) := by
  induction msgs with
  | nil =>
    intro fd fd' count _ hrun
    obtain ⟨hgoes, rfl⟩ := Prod.mk.inj hrun
    obtain rfl := Except.ok.inj hgoes
    exact ⟨[], [], count, rfl⟩
  | cons found msgs ih =>
    intro fd fd' count hqueue hrun
    obtain ⟨wake, count₁, hqueue₁, hdequeue⟩ := react_next infd fd hqueue
    have hloop : Client.displayLoop (found :: msgs) = (do
        if !(← Client.sendMessage (fed found)) then return false
        Client.displayLoop msgs) := rfl
    rw [hloop] at hrun
    by_cases hf : Wire.hasFields (fed found)
    · obtain ⟨res, outfd, -, hsend, -, -, hres⟩ := Framing.exec_send_ends (messageStr (fed found)) fd
      obtain ⟨r, rfl⟩ : ∃ r, res = answered r := by
        rcases hres with rfl | ⟨what, rfl⟩
        · exact ⟨.ok (), rfl⟩
        · exact ⟨.error _, rfl⟩
      have hsent : react this .timeout ⟨infd, fd, count₁⟩ server (.send (messageStr (fed found)))
          = some ⟨r, .sent _ r, ⟨infd, outfd, count₁⟩, server⟩ := react_of_send hsend
      rw [exec_bind_ok (exec_clientSend hf hsend)] at hrun
      cases r with
      | ok =>
        obtain ⟨moves, outs, count', hrest⟩ := ih hqueue₁ hrun
        exact ⟨_, _, count', runFrom_own (feeding_succ this _) hdequeue
          (runFrom_own (fedOn_ok hf this _) hsent hrest)⟩
      | error e =>
        obtain ⟨hgoes, rfl⟩ := Prod.mk.inj hrun
        obtain rfl := Except.ok.inj hgoes
        exact ⟨_, _, count₁, runFrom_own (feeding_succ this _) hdequeue
          (runFrom_own (fedOn_ok hf this _) hsent (Machine.runFrom_nil _ _))⟩
    · have hfails := Client.exec_sendMessage_fails (fun hfits => hf (Client.fits_iff.mp hfits).1) fd
      rw [exec_bind_ok hfails] at hrun
      obtain ⟨hgoes, rfl⟩ := Prod.mk.inj hrun
      obtain rfl := Except.ok.inj hgoes
      have hend : (among this start).runFrom
          ⟨fedOn this (k + msgs.length) (.ok found), ⟨infd, fd, count₁⟩, server⟩ []
            = some ([], ⟨unfeeding this, ⟨infd, fd, count₁⟩, server⟩) := by
        rw [fedOn_invalid hf]
        rfl
      exact ⟨_, _, count₁, runFrom_own (feeding_succ this _) hdequeue hend⟩

/-- So on a descriptor that takes all bytes it goes on through messages exactly if all of them fit. -/
theorem feeding_fits {this : Client} (start : Scene) {server : Server} (infd : Infd) {fd : Outfd}
    (hopen : fd.Open) {count k : ℕ} {msgs : List (Option Message)}
    (hqueue : msgs.reduceOption <+: (server.queue this).drop count) :
    ∃ goesOn, (goesOn = true ↔ ∀ msg, some msg ∈ msgs → Client.Fits msg) ∧ ∃ moves outs conn,
      (among this start).runFrom
          ⟨feeding this (k + msgs.length), ⟨infd, fd, count⟩, server⟩ moves
        = some (outs, ⟨if goesOn then feeding this k else unfeeding this, conn, server⟩) := by
  obtain ⟨goesOn, fd', hrun, hfits⟩ := Client.exec_displayLoop hopen
  obtain ⟨moves, outs, count', hmoves⟩ := feeding_runs hqueue hrun
  exact ⟨goesOn, hfits, moves, outs, _, hmoves⟩

end Restaurant.Session
