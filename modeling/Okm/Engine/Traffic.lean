import Okm.Lib.Trace
import Okm.Engine.WireClient

/-!
# Correlation by position

What a client owes its callers, said of the events of a connection and not of the client:
`Traffic` counts the requests, the frames the transport took and the answers that came
while the connection lived, and `Told` says with what a request is to come back, by the
position of its frame or by the end of the connection.

`client_correlates` is that the client does so. In every run its futures come back with
what they were told, once, and nothing that was told is held back; only the receiver is
asked to answer no more than it was sent, and callers not to poll a future that came
back. The invariant is one equation (`ConnInv.queue`): as long as the connection lives,
the queue is what was posted less what arrived.
-/

namespace Okm.Engine

open Lib Wire

/-! ## What the events say -/

/-- A connection as its events tell it. -/
structure Traffic where
  asked : Nat := 0
  /-- The frames the transport took, each with the number of its request. -/
  posted : List (Nat × OpFrame) := []
  /-- The answers that came while the connection lived. -/
  arrived : List Bytes := []
  /-- Why the connection is over: a post failed, or the owner said so. -/
  ended : Option String := none

/-- One more event. -/
def Traffic.see (t : Traffic) : ConnEvent → Traffic
  | .request frame post =>
    match t.ended, post with
    | none, .ok () => { t with asked := t.asked + 1, posted := t.posted ++ [(t.asked, frame)] }
    | none, .error e => { t with asked := t.asked + 1, ended := some e }
    | some _, _ => { t with asked := t.asked + 1 }
  | .deliver bytes => if t.ended = none then { t with arrived := t.arrived ++ [bytes] } else t
  | .fail reason => { t with ended := some reason }
  | .poll _ => t

def trafficOf (events : List ConnEvent) : Traffic := events.foldl Traffic.see {}

/-- The traffic of a run. -/
def seen (past : List (ConnEvent × ConnAnswer)) : Traffic := trafficOf (past.map Prod.fst)

/-- The connection lives, and the answer to the request's frame has not come. -/
def Traffic.Waits (t : Traffic) (h : Nat) : Prop :=
  t.ended = none ∧ h ∈ (t.posted.drop t.arrived.length).map Prod.fst

/-- The event is the end of a request: its own post fails or is not even tried, or the
connection ends while it waits. -/
def Traffic.Fails (t : Traffic) (ev : ConnEvent) (h : Nat) (reason : String) : Prop :=
  match ev with
  | .request _ post =>
    t.ended = some reason ∧ h = t.asked
      ∨ t.ended = none ∧ post = .error reason ∧ (t.Waits h ∨ h = t.asked)
  | .fail why => t.Waits h ∧ why = reason
  | _ => False

/-- The bytes of an answer, read in the shape of the frame they answer: a chunk if it
has a stream op. -/
def decodeAs (frame : OpFrame) (bytes : Bytes) : Option OpResponse :=
  if ∃ op ∈ frame.ops, op.1 = opScanStream then OpResponse.decodeChunk bytes
  else OpResponse.decode bytes

/-- **With what a request comes back**, going by the events alone: answer `i` belongs to
frame `i`, and who has none when the connection ends gets the reason. -/
inductive Told (events : List ConnEvent) (h : Nat) : Verdict → Prop where
  | answered {i : Nat} {frame : OpFrame} {bytes : Bytes} {resp : OpResponse} :
      (trafficOf events).posted[i]? = some (h, frame) →
      (trafficOf events).arrived[i]? = some bytes → decodeAs frame bytes = some resp →
      Told events h (.ok resp)
  | garbled {i : Nat} {frame : OpFrame} {bytes : Bytes} :
      (trafficOf events).posted[i]? = some (h, frame) →
      (trafficOf events).arrived[i]? = some bytes → decodeAs frame bytes = none →
      Told events h (.error "wire client: malformed response frame")
  | failed {before after : List ConnEvent} {ev : ConnEvent} {reason : String} :
      events = before ++ ev :: after → (trafficOf before).Fails ev h reason →
      Told events h (.error reason)

/-- The future that came back. -/
def cameBack : ConnEvent × ConnAnswer → Option Nat
  | (.poll h, .ready _) => some h
  | _ => none

/-- The future of request `h` has come back. -/
def Taken (past : List (ConnEvent × ConnAnswer)) (h : Nat) : Prop := h ∈ past.filterMap cameBack

/-- Somebody polled the future of request `h`. -/
def Polled (past : List (ConnEvent × ConnAnswer)) (h : Nat) : Prop :=
  ∃ answer, (.poll h, answer) ∈ past

/-- The receiver answers only what it was sent, and a future is not polled again once it
came back. After the connection ended anything may still arrive. -/
def Legal (past : List (ConnEvent × ConnAnswer)) (ev : ConnEvent) : Prop :=
  match ev with
  | .deliver _ => (seen past).ended ≠ none ∨ (seen past).arrived.length < (seen past).posted.length
  | .poll h => h < (seen past).asked ∧ ¬ Taken past h
  | _ => True

instance Legal.decidable (past : List (ConnEvent × ConnAnswer)) (ev : ConnEvent) :
    Decidable (Legal past ev) :=
  match ev with
  | .request .. | .fail _ => isTrue trivial
  | .deliver _ => inferInstanceAs (Decidable (_ ∨ _))
  | .poll h => inferInstanceAs (Decidable (_ ∧ ¬ h ∈ past.filterMap cameBack))

/-- Runs of one connection. -/
abbrev Conn.Run (past : List (ConnEvent × ConnAnswer)) (c : Conn) : Prop :=
  Trace Conn.step (fun past _ ev => Legal past ev) {} past c

/-! ## What one more event says -/

theorem trafficOf_snoc (events : List ConnEvent) (ev : ConnEvent) :
    trafficOf (events ++ [ev]) = (trafficOf events).see ev := by
  rw [trafficOf, List.foldl_append]
  rfl

theorem seen_snoc (past : List (ConnEvent × ConnAnswer)) (ev : ConnEvent) (answer : ConnAnswer) :
    seen (past ++ [(ev, answer)]) = (seen past).see ev := by
  rw [seen, List.map_append, List.map_singleton, trafficOf_snoc]
  rfl

section

variable {t : Traffic}

theorem Traffic.see_refused {reason : String} (h : t.ended = some reason) (frame : OpFrame)
    (post : Except String Unit) :
    t.see (.request frame post) = { t with asked := t.asked + 1 } := by
  simp only [Traffic.see, h]

theorem Traffic.see_lost (h : t.ended = none) (frame : OpFrame) (e : String) :
    t.see (.request frame (.error e)) = { t with asked := t.asked + 1, ended := some e } := by
  simp only [Traffic.see, h]

theorem Traffic.see_posted (h : t.ended = none) (frame : OpFrame) :
    t.see (.request frame (.ok ()))
      = { t with asked := t.asked + 1, posted := t.posted ++ [(t.asked, frame)] } := by
  simp only [Traffic.see, h]

theorem Traffic.see_arrived (h : t.ended = none) (bytes : Bytes) :
    t.see (.deliver bytes) = { t with arrived := t.arrived ++ [bytes] } := if_pos h

theorem Traffic.see_late (h : t.ended ≠ none) (bytes : Bytes) : t.see (.deliver bytes) = t :=
  if_neg h

end

theorem readAnswer_eq (frame : OpFrame) (bytes : Bytes) :
    readAnswer (wantsChunk frame) bytes = match decodeAs frame bytes with
      | some resp => .ok resp
      | none => .error "wire client: malformed response frame" := by
  have hshape : wantsChunk frame = true ↔ ∃ op ∈ frame.ops, op.1 = opScanStream := by
    simp [wantsChunk]
  have hdecode : (if wantsChunk frame then OpResponse.decodeChunk bytes
      else OpResponse.decode bytes) = decodeAs frame bytes := by
    unfold decodeAs
    by_cases hchunk : ∃ op ∈ frame.ops, op.1 = opScanStream
    · rw [if_pos (hshape.mpr hchunk), if_pos hchunk]
    · rw [if_neg (fun h => hchunk (hshape.mp h)), if_neg hchunk]
  cases hread : decodeAs frame bytes with
  | some resp => simp only [readAnswer, hdecode, hread]
  | none => simp only [readAnswer, hdecode, hread]

/-- Frame `i` is request `h`'s, and answer `i` is there and reads so. -/
def Traffic.Answers (t : Traffic) (h : Nat) (verdict : Verdict) : Prop :=
  ∃ (i : Nat) (frame : OpFrame) (bytes : Bytes), t.posted[i]? = some (h, frame)
    ∧ t.arrived[i]? = some bytes ∧ verdict = readAnswer (wantsChunk frame) bytes

theorem told_iff {events : List ConnEvent} {h : Nat} {verdict : Verdict} :
    Told events h verdict ↔ (trafficOf events).Answers h verdict
      ∨ ∃ before ev after reason, events = before ++ ev :: after
        ∧ (trafficOf before).Fails ev h reason ∧ verdict = .error reason := by
  constructor
  · intro htold
    cases htold with
    | answered hposted harrived hread =>
      refine Or.inl ⟨_, _, _, hposted, harrived, ?_⟩
      rw [readAnswer_eq, hread]
    | garbled hposted harrived hread =>
      refine Or.inl ⟨_, _, _, hposted, harrived, ?_⟩
      rw [readAnswer_eq, hread]
    | failed hsplit hfails => exact Or.inr ⟨_, _, _, _, hsplit, hfails, rfl⟩
  · rintro (⟨i, frame, bytes, hposted, harrived, rfl⟩ | ⟨_, _, _, _, hsplit, hfails, rfl⟩)
    · rw [readAnswer_eq]
      cases hread : decodeAs frame bytes with
      | some resp => exact .answered hposted harrived hread
      | none => exact .garbled hposted harrived hread
    · exact .failed hsplit hfails

/-- The verdict an event brings. -/
def Traffic.Tells (t : Traffic) (ev : ConnEvent) (h : Nat) (verdict : Verdict) : Prop :=
  (∃ bytes frame, ev = .deliver bytes ∧ t.ended = none
      ∧ t.posted[t.arrived.length]? = some (h, frame)
      ∧ verdict = readAnswer (wantsChunk frame) bytes)
    ∨ ∃ reason, t.Fails ev h reason ∧ verdict = .error reason

theorem Traffic.answers_see {t : Traffic} (hcount : t.arrived.length ≤ t.posted.length)
    (ev : ConnEvent) (h : Nat) (verdict : Verdict) :
    (t.see ev).Answers h verdict ↔ t.Answers h verdict ∨ ∃ bytes frame, ev = .deliver bytes
      ∧ t.ended = none ∧ t.posted[t.arrived.length]? = some (h, frame)
      ∧ verdict = readAnswer (wantsChunk frame) bytes := by
  -- more frames behind those that are answered change no answer
  have hmore : ∀ more, (∃ (i : Nat) (frame : OpFrame) (bytes : Bytes),
      (t.posted ++ more)[i]? = some (h, frame) ∧ t.arrived[i]? = some bytes
        ∧ verdict = readAnswer (wantsChunk frame) bytes) ↔ t.Answers h verdict := by
    intro more
    refine exists_congr fun i => exists_congr fun frame => exists_congr fun bytes => ?_
    refine and_congr_left fun ⟨harrived, _⟩ => ?_
    have hlt := (List.getElem?_eq_some_iff.mp harrived).1
    rw [List.getElem?_append_left (by omega)]
  cases ev with
  | request frame post =>
    have hsame : (t.see (.request frame post)).Answers h verdict ↔ t.Answers h verdict := by
      cases hended : t.ended with
      | some reason =>
        rw [Traffic.see_refused hended]
        exact Iff.rfl
      | none =>
        cases post with
        | error e =>
          rw [Traffic.see_lost hended]
          exact Iff.rfl
        | ok _ =>
          rw [Traffic.see_posted hended]
          exact hmore [(t.asked, frame)]
    simp [hsame]
  | deliver bytes =>
    by_cases hended : t.ended = none
    · rw [Traffic.see_arrived hended]
      constructor
      · rintro ⟨i, frame, got, hposted, harrived, rfl⟩
        rcases lt_trichotomy i t.arrived.length with hlt | rfl | hgt
        · rw [List.getElem?_append_left hlt] at harrived
          exact Or.inl ⟨i, frame, got, hposted, harrived, rfl⟩
        · rw [List.getElem?_concat_length] at harrived
          obtain rfl := Option.some.inj harrived
          exact Or.inr ⟨bytes, frame, rfl, hended, hposted, rfl⟩
        · rw [List.getElem?_eq_none (by rw [List.length_append, List.length_singleton]; omega)]
            at harrived
          cases harrived
      · rintro (⟨i, frame, got, hposted, harrived, rfl⟩ | ⟨got, frame, hev, -, hposted, rfl⟩)
        · refine ⟨i, frame, got, hposted, ?_, rfl⟩
          rw [List.getElem?_append_left (List.getElem?_eq_some_iff.mp harrived).1]
          exact harrived
        · obtain rfl := ConnEvent.deliver.inj hev
          exact ⟨t.arrived.length, frame, bytes, hposted, List.getElem?_concat_length, rfl⟩
    · rw [Traffic.see_late hended]
      simp [hended]
  | fail reason => simp [Traffic.see, Traffic.Answers]
  | poll other => simp [Traffic.see]

/-- **One more event tells what it brings, and what was told stays.** -/
theorem told_snoc {events : List ConnEvent}
    (hcount : (trafficOf events).arrived.length ≤ (trafficOf events).posted.length) (ev : ConnEvent)
    (h : Nat) (verdict : Verdict) : Told (events ++ [ev]) h verdict
      ↔ Told events h verdict ∨ (trafficOf events).Tells ev h verdict := by
  have hfails : (∃ before e after reason, events ++ [ev] = before ++ e :: after
        ∧ (trafficOf before).Fails e h reason ∧ verdict = .error reason)
      ↔ (∃ before e after reason, events = before ++ e :: after
        ∧ (trafficOf before).Fails e h reason ∧ verdict = .error reason)
      ∨ ∃ reason, (trafficOf events).Fails ev h reason ∧ verdict = .error reason := by
    constructor
    · rintro ⟨before, e, after, reason, hsplit, hfail, hv⟩
      rcases List.eq_nil_or_concat after with rfl | ⟨after, last, rfl⟩
      · obtain ⟨rfl, hlast⟩ := List.append_inj' hsplit rfl
        obtain rfl := (List.cons.inj hlast).1
        exact Or.inr ⟨reason, hfail, hv⟩
      · rw [List.concat_eq_append, ← List.cons_append, ← List.append_assoc] at hsplit
        exact Or.inl ⟨before, e, after, reason, (List.append_inj' hsplit rfl).1, hfail, hv⟩
    · rintro (⟨before, e, after, reason, rfl, hfail, hv⟩ | ⟨reason, hfail, hv⟩)
      · exact ⟨before, e, after ++ [ev], reason, by simp, hfail, hv⟩
      · exact ⟨events, ev, [], reason, rfl, hfail, hv⟩
  rw [told_iff, told_iff, hfails, trafficOf_snoc, Traffic.answers_see hcount, Traffic.Tells]
  exact or_or_or_comm

theorem cameBack_snoc (past : List (ConnEvent × ConnAnswer)) (ev : ConnEvent) (answer : ConnAnswer)
    (h : Nat) : Taken (past ++ [(ev, answer)]) h
      ↔ Taken past h ∨ ev = .poll h ∧ ∃ verdict, answer = .ready verdict := by
  rw [Taken, List.filterMap_append, List.mem_append]
  refine or_congr_right ?_
  constructor
  · intro hmem
    cases ev with
    | poll x =>
      cases answer with
      | ready verdict =>
        obtain rfl := List.mem_singleton.mp hmem
        exact ⟨rfl, verdict, rfl⟩
      | _ => exact absurd hmem List.not_mem_nil
    | _ => exact absurd hmem List.not_mem_nil
  · rintro ⟨rfl, verdict, rfl⟩
    exact List.mem_singleton.mpr rfl

theorem polled_snoc (past : List (ConnEvent × ConnAnswer)) (ev : ConnEvent) (answer : ConnAnswer)
    (h : Nat) : Polled (past ++ [(ev, answer)]) h ↔ Polled past h ∨ ev = .poll h := by
  constructor
  · rintro ⟨got, hmem⟩
    rcases List.mem_append.mp hmem with hold | hnew
    · exact Or.inl ⟨got, hold⟩
    · exact Or.inr (Prod.mk.inj (List.mem_singleton.mp hnew)).1.symm
  · rintro (⟨got, hold⟩ | rfl)
    · exact ⟨got, List.mem_append_left _ hold⟩
    · exact ⟨answer, List.mem_append_right _ (List.mem_singleton.mpr rfl)⟩

/-! ## The invariant -/

/-- What the events of a legal run are like. -/
structure Traffic.Sound (t : Traffic) : Prop where
  count : t.arrived.length ≤ t.posted.length
  /-- Every frame has a request of its own. -/
  postedOnce : (t.posted.map Prod.fst).Nodup
  postedMade : ∀ h ∈ t.posted.map Prod.fst, h < t.asked

structure ConnInv (past : List (ConnEvent × ConnAnswer)) (c : Conn) : Prop where
  sound : (seen past).Sound
  made : c.made = (seen past).asked
  dead : c.dead = (seen past).ended
  /-- **While it lives, the queue is what was posted less what arrived.** -/
  queue : c.dead = none → c.waiters = ((seen past).posted.drop
    (seen past).arrived.length).map fun x => (x.1, wantsChunk x.2)
  /-- A dead connection has no waiters. -/
  drained : c.dead ≠ none → c.waiters = []
  books : Books c.slots c.made (Told (past.map Prod.fst)) (Taken past) (Polled past)
    (· ∈ c.waiters.map Prod.fst)

namespace ConnInv

variable {past : List (ConnEvent × ConnAnswer)} {c : Conn}

theorem start : ConnInv [] {} where
  sound := ⟨le_refl _, List.nodup_nil, fun h hh => absurd hh List.not_mem_nil⟩
  made := rfl
  dead := rfl
  queue := fun _ => rfl
  drained := fun _ => rfl
  books := by
    refine Books.start.congr (fun h v => ?_) (fun h => ?_) (fun h => ?_) fun h => ?_
    · rw [told_iff]
      simp [trafficOf, Traffic.Answers]
    · simp [Taken]
    · simp [Polled]
    · simp

/-- Who is in the queue waits, going by the events, and the other way round. -/
theorem waits_iff (inv : ConnInv past c) (h : Nat) :
    (seen past).Waits h ↔ h ∈ c.waiters.map Prod.fst := by
  rw [Traffic.Waits, ← inv.dead]
  by_cases halive : c.dead = none
  · rw [inv.queue halive, List.map_map]
    exact and_iff_right halive
  · rw [inv.drained halive]
    simp [halive]

theorem queued (inv : ConnInv past c) : (c.waiters.map Prod.fst).Nodup := by
  by_cases hdead : c.dead = none
  · rw [inv.queue hdead, List.map_map]
    exact inv.sound.postedOnce.sublist ((List.drop_sublist _ _).map _)
  · rw [inv.drained hdead]
    exact List.nodup_nil

/-- The books after an event that polls nothing, when what was told in the meantime is
what the event tells. -/
theorem books_snoc (inv : ConnInv past c) {ev : ConnEvent} (hev : ∀ h, ev ≠ .poll h)
    (answer : ConnAnswer) {slots : Nat → Slot} {made : Nat} {told : Nat → Verdict → Prop}
    {waiting waiting' : Nat → Prop} (b : Books slots made told (Taken past) (Polled past) waiting)
    (htold : ∀ h v, told h v
      ↔ Told (past.map Prod.fst) h v ∨ (seen past).Tells ev h v)
    (hwaiting : ∀ h, waiting' h ↔ waiting h) :
    Books slots made (Told ((past ++ [(ev, answer)]).map Prod.fst)) (Taken (past ++ [(ev, answer)]))
      (Polled (past ++ [(ev, answer)])) waiting' := by
  refine b.congr (fun h v => ?_) (fun h => ?_) (fun h => ?_) hwaiting
  · rw [List.map_append, List.map_singleton, told_snoc inv.sound.count]
    exact (htold h v).symm
  · rw [cameBack_snoc]
    exact or_iff_left fun hnew => hev h hnew.1
  · rw [polled_snoc]
    exact or_iff_left (hev h)

/-- A connection that ends, or had ended: nobody waits any more. -/
theorem shut (inv : ConnInv past c) {ev : ConnEvent} (answer : ConnAnswer) {d : Conn}
    (hposted : (seen past).posted = ((seen past).see ev).posted)
    (harrived : (seen past).arrived = ((seen past).see ev).arrived)
    (hasked : (seen past).asked ≤ ((seen past).see ev).asked)
    (hmade : d.made = ((seen past).see ev).asked)
    (hended : d.dead = ((seen past).see ev).ended) (hdead : d.dead ≠ none)
    (hwaiters : d.waiters = [])
    (books : Books d.slots d.made (Told ((past ++ [(ev, answer)]).map Prod.fst))
      (Taken (past ++ [(ev, answer)])) (Polled (past ++ [(ev, answer)])) fun _ => False) :
    ConnInv (past ++ [(ev, answer)]) d := by
  have hsee := seen_snoc past ev answer
  refine ⟨⟨?_, ?_, ?_⟩, ?_, ?_, fun h => absurd h hdead, fun _ => hwaiters, ?_⟩
  · rw [hsee, ← hposted, ← harrived]
    exact inv.sound.count
  · rw [hsee, ← hposted]
    exact inv.sound.postedOnce
  · intro h hh
    rw [hsee, ← hposted] at hh
    rw [hsee]
    exact lt_of_lt_of_le (inv.sound.postedMade h hh) hasked
  · rw [hsee]
    exact hmade
  · rw [hsee]
    exact hended
  · refine books.congr (fun h v => Iff.rfl) (fun h => Iff.rfl) (fun h => Iff.rfl) fun h => ?_
    rw [hwaiters]
    simp

/-- The end of the connection settles every waiter. -/
theorem fail (inv : ConnInv past c) (reason : String) :
    ConnInv (past ++ [(.fail reason, .done)]) (c.fail reason) := by
  have hbooks := Conn.books_failAll (c := { c with waiters := [] }) c.waiters reason inv.books
    (fun h hh => hh) inv.queued
  have hdrain := Conn.failAll_eq { c with waiters := [] } reason c.waiters
  have hmade : (c.fail reason).made = c.made := by
    have h := congrArg Conn.made hdrain
    exact h
  have hwaiters : (c.fail reason).waiters = [] := by
    have h := congrArg Conn.waiters hdrain
    exact h
  refine inv.shut .done rfl rfl (le_refl _) ?_ rfl (Option.some_ne_none _) hwaiters ?_
  · rw [hmade]
    exact inv.made
  · rw [hmade]
    refine inv.books_snoc (fun h => ConnEvent.noConfusion) .done hbooks (fun h v => ?_) fun h => ?_
    · rw [Traffic.Tells]
      simp only [Traffic.Fails, inv.waits_iff]
      refine or_congr_right ?_
      constructor
      · rintro ⟨hw, rfl⟩
        exact Or.inr ⟨reason, ⟨hw, rfl⟩, rfl⟩
      · rintro (⟨bytes, frame, hev, -⟩ | ⟨why, ⟨hw, rfl⟩, rfl⟩)
        · exact ConnEvent.noConfusion hev
        · exact ⟨hw, rfl⟩
    · exact (and_not_self_iff _).symm

/-- A request on a dead connection is settled at once. -/
theorem refuse (inv : ConnInv past c) (frame : OpFrame) (post : Except String Unit)
    {reason : String} (hdead : c.dead = some reason) :
    ConnInv (past ++ [(.request frame post, .future c.made)]) (c.refuse reason) := by
  have hended : (seen past).ended = some reason := inv.dead.symm.trans hdead
  have hsee := Traffic.see_refused hended frame post
  have hbooks := inv.books.make.resolve (h := c.made) (Or.inr rfl) (.error reason)
  have halive : c.dead ≠ none := by
    rw [hdead]
    exact Option.some_ne_none _
  refine inv.shut _ ?_ ?_ ?_ ?_ ?_ halive (inv.drained halive) ?_
  · rw [hsee]
  · rw [hsee]
  · rw [hsee]
    exact Nat.le_succ _
  · rw [hsee]
    exact congrArg (· + 1) inv.made
  · rw [hsee]
    exact inv.dead
  · refine inv.books_snoc (fun h => ConnEvent.noConfusion) _ hbooks (fun h v => ?_) fun h => ?_
    · rw [Traffic.Tells, inv.made]
      simp only [Traffic.Fails, hended]
      refine or_congr_right ?_
      constructor
      · rintro ⟨rfl, rfl⟩
        exact Or.inr ⟨reason, Or.inl ⟨rfl, rfl⟩, rfl⟩
      · rintro (⟨bytes, f, hev, -⟩ | ⟨why, ⟨hwhy, rfl⟩ | ⟨hnone, -⟩, rfl⟩)
        · exact ConnEvent.noConfusion hev
        · exact ⟨rfl, congrArg Except.error (Option.some.inj hwhy).symm⟩
        · cases hnone
    · rw [inv.drained halive]
      simp

/-- A post that fails settles the whole queue and the request itself. -/
theorem lose (inv : ConnInv past c) (frame : OpFrame) (e : String) (halive : c.dead = none) :
    ConnInv (past ++ [(.request frame (.error e), .future c.made)]) (c.lose e) := by
  have hended : (seen past).ended = none := inv.dead.symm.trans halive
  have hsee := Traffic.see_lost hended frame e
  have hnew : c.made ∉ c.waiters.map Prod.fst := by
    intro hh
    exact absurd (inv.books.waitingMade c.made hh) (lt_irrefl _)
  -- every waiter gets the reason, then the request itself
  have hbooks := Conn.books_failAll (c := { c.make with dead := some e, waiters := [] })
    c.waiters e inv.books.make (fun h hh => Or.inl hh) inv.queued
  have hlast := hbooks.resolve (h := c.made) ⟨Or.inr rfl, hnew⟩ (.error e)
  have hdrain := Conn.failAll_eq { c.make with dead := some e, waiters := [] } e c.waiters
  have hdead : (c.lose e).dead = some e := congrArg Conn.dead hdrain
  have hmade : (c.lose e).made = c.made + 1 := congrArg Conn.made hdrain
  have hwaiters : (c.lose e).waiters = [] := congrArg Conn.waiters hdrain
  refine inv.shut _ ?_ ?_ ?_ ?_ ?_ ?_ hwaiters ?_
  · rw [hsee]
  · rw [hsee]
  · rw [hsee]
    exact Nat.le_succ _
  · rw [hsee, hmade]
    exact congrArg (· + 1) inv.made
  · rw [hsee]
    exact hdead
  · rw [hdead]
    exact Option.some_ne_none _
  · rw [hmade]
    refine inv.books_snoc (fun h => ConnEvent.noConfusion) _ hlast (fun h v => ?_) fun h => ?_
    · rw [Traffic.Tells, inv.made]
      simp only [Traffic.Fails, inv.waits_iff, hended]
      -- told now: those that waited, and the one whose post failed
      rw [or_assoc]
      refine or_congr_right ?_
      constructor
      · rintro (⟨hw, rfl⟩ | ⟨rfl, rfl⟩)
        · exact Or.inr ⟨e, Or.inr ⟨trivial, rfl, Or.inl hw⟩, rfl⟩
        · exact Or.inr ⟨e, Or.inr ⟨trivial, rfl, Or.inr rfl⟩, rfl⟩
      · rintro (⟨bytes, f, hev, -⟩ | ⟨why, ⟨hwhy, -⟩ | ⟨-, hpost, hwho⟩, rfl⟩)
        · exact ConnEvent.noConfusion hev
        · cases hwhy
        · obtain rfl := Except.error.inj hpost
          rcases hwho with hw | rfl
          · exact Or.inl ⟨hw, rfl⟩
          · exact Or.inr ⟨rfl, rfl⟩
    · tauto

/-- **A request that went out takes the position of its frame.** -/
theorem enqueue (inv : ConnInv past c) (frame : OpFrame) (halive : c.dead = none) :
    ConnInv (past ++ [(.request frame (.ok ()), .future c.made)]) (c.enqueue frame) := by
  have hended : (seen past).ended = none := inv.dead.symm.trans halive
  have hsee := (seen_snoc past (.request frame (.ok ())) (.future c.made)).trans
    (Traffic.see_posted hended frame)
  refine ⟨⟨?_, ?_, ?_⟩, ?_, ?_, fun _ => ?_, fun hdead => absurd halive hdead, ?_⟩
  · rw [hsee, List.length_append]
    exact Nat.le_add_right_of_le inv.sound.count
  · rw [hsee, List.map_append, List.nodup_append]
    refine ⟨inv.sound.postedOnce, List.nodup_singleton _, ?_⟩
    intro x hx y hy heq
    rw [List.map_singleton, List.mem_singleton] at hy
    rw [heq, hy] at hx
    exact absurd (inv.sound.postedMade _ hx) (lt_irrefl _)
  · intro h hh
    rw [hsee, List.map_append, List.mem_append] at hh
    rw [hsee]
    rcases hh with hold | hnew
    · exact Nat.lt_succ_of_lt (inv.sound.postedMade h hold)
    · rw [List.map_singleton, List.mem_singleton] at hnew
      exact hnew ▸ Nat.lt_succ_self _
  · rw [hsee]
    exact congrArg (· + 1) inv.made
  · rw [hsee]
    exact inv.dead
  · rw [hsee, List.drop_append_of_le_length inv.sound.count, List.map_append, ← inv.queue halive,
      ← inv.made]
    rfl
  · refine inv.books_snoc (fun h => ConnEvent.noConfusion) _ inv.books.make (fun h v => ?_)
      fun h => ?_
    · rw [Traffic.Tells]
      simp only [Traffic.Fails, hended]
      refine (or_iff_left ?_).symm
      rintro (⟨bytes, f, hev, -⟩ | ⟨why, ⟨hwhy, -⟩ | ⟨-, hpost, -⟩, -⟩)
      · exact ConnEvent.noConfusion hev
      · cases hwhy
      · cases hpost
    · change h ∈ (c.waiters ++ [(c.made, wantsChunk frame)]).map Prod.fst ↔ _
      simp

theorem roundTrip (inv : ConnInv past c) (frame : OpFrame) (post : Except String Unit) :
    ConnInv (past ++ [(.request frame post, .future c.made)]) (c.roundTrip frame post) := by
  unfold Conn.roundTrip
  cases hdead : c.dead with
  | some reason => exact inv.refuse frame post hdead
  | none =>
    cases post with
    | error e => exact inv.lose frame e hdead
    | ok _ => exact inv.enqueue frame hdead

/-- An answer nobody waits for changes nothing: a legal one comes after the end. -/
theorem deliver_late (inv : ConnInv past c) (bytes : Bytes) (hdead : c.dead ≠ none) :
    c.deliver bytes = c := by
  rw [Conn.deliver, inv.drained hdead]

/-- **An answer goes to the waiter of the frame it answers.** -/
theorem deliver (inv : ConnInv past c) {bytes : Bytes} (legal : Legal past (.deliver bytes)) :
    ConnInv (past ++ [(.deliver bytes, .done)]) (c.deliver bytes) := by
  by_cases halive : c.dead = none
  · -- the first waiter is that of the next frame
    have hended : (seen past).ended = none := inv.dead.symm.trans halive
    have hlt : (seen past).arrived.length
        < (seen past).posted.length :=
      legal.resolve_left (fun h => h hended)
    have hsee := (seen_snoc past (.deliver bytes) .done).trans (Traffic.see_arrived hended bytes)
    obtain ⟨⟨h, frame⟩, hget⟩ : ∃ x, (seen past).posted[
        (seen past).arrived.length]? = some x :=
      ⟨_, List.getElem?_eq_getElem hlt⟩
    have hqueue : c.waiters = (h, wantsChunk frame) :: ((seen past).posted.drop
        ((seen past).arrived.length + 1)).map
          fun x => (x.1, wantsChunk x.2) := by
      rw [inv.queue halive, List.drop_eq_getElem_cons hlt, List.map_cons,
        (List.getElem?_eq_some_iff.mp hget).2]
    have hnodup := inv.queued
    -- its slot is resolved with what the frame reads as
    have hbooks := inv.books.resolve (h := h) (by rw [hqueue]; simp)
      (readAnswer (wantsChunk frame) bytes)
    have hstate : c.deliver bytes = Conn.resolve { c with
        waiters := ((seen past).posted.drop
          ((seen past).arrived.length + 1)).map
            fun x => (x.1, wantsChunk x.2) } h (readAnswer (wantsChunk frame) bytes) := by
      rw [Conn.deliver, hqueue]
    rw [hqueue, List.map_cons, List.nodup_cons] at hnodup
    rw [hstate]
    refine ⟨⟨?_, ?_, ?_⟩, ?_, ?_, fun _ => ?_, fun hdead => absurd halive hdead, ?_⟩
    · rw [hsee, List.length_append, List.length_singleton]
      exact hlt
    · rw [hsee]
      exact inv.sound.postedOnce
    · rw [hsee]
      exact inv.sound.postedMade
    · rw [hsee]
      exact inv.made
    · rw [hsee]
      exact inv.dead
    · rw [hsee, List.length_append, List.length_singleton]
      rfl
    · -- the verdict told is that of this frame alone
      refine inv.books_snoc (fun h => ConnEvent.noConfusion) .done hbooks (fun x v => ?_)
        fun x => ?_
      · rw [Traffic.Tells]
        refine or_congr_right ?_
        constructor
        · rintro ⟨rfl, rfl⟩
          exact Or.inl ⟨bytes, frame, rfl, hended, hget, rfl⟩
        · rintro (⟨got, f, hev, -, hpost, rfl⟩ | ⟨why, hnone, -⟩)
          · obtain rfl := ConnEvent.deliver.inj hev
            rw [hget] at hpost
            obtain ⟨rfl, rfl⟩ := Prod.mk.inj (Option.some.inj hpost)
            exact ⟨rfl, rfl⟩
          · exact hnone.elim
      · -- no other waiter is this one: the queue lists each once
        rw [hqueue, List.map_cons, List.mem_cons]
        constructor
        · intro hx
          refine ⟨Or.inr hx, ?_⟩
          rintro rfl
          exact hnodup.1 hx
        · rintro ⟨rfl | hx, hne⟩
          · exact absurd rfl hne
          · exact hx
  · -- nobody waits, and the events count nothing
    have hended : ¬ (seen past).ended = none := by
      rw [← inv.dead]
      exact halive
    have hsee := Traffic.see_late hended bytes
    rw [inv.deliver_late bytes halive]
    refine inv.shut .done ?_ ?_ ?_ ?_ ?_ halive (inv.drained halive) ?_
    · rw [hsee]
    · rw [hsee]
    · rw [hsee]
    · rw [hsee]
      exact inv.made
    · rw [hsee]
      exact inv.dead
    · refine inv.books_snoc (fun h => ConnEvent.noConfusion) .done inv.books (fun h v => ?_)
        fun h => ?_
      · rw [Traffic.Tells]
        refine (or_iff_left ?_).symm
        rintro (⟨got, f, -, halive', -⟩ | ⟨why, hnone, -⟩)
        · exact hended halive'
        · exact hnone
      · rw [inv.drained halive]
        simp

/-- A poll moves the slots only, and tells nobody anything. -/
theorem slotted (inv : ConnInv past c) {h : Nat} (answer : ConnAnswer) {slots : Nat → Slot}
    {taken asleep : Nat → Prop}
    (books : Books slots c.made (Told (past.map Prod.fst)) taken asleep
      (· ∈ c.waiters.map Prod.fst))
    (htaken : ∀ x, Taken (past ++ [(.poll h, answer)]) x ↔ taken x)
    (hasleep : ∀ x, Polled (past ++ [(.poll h, answer)]) x ↔ asleep x) :
    ConnInv (past ++ [(.poll h, answer)]) { c with slots := slots } := by
  have hsee : seen (past ++ [(.poll h, answer)]) = seen past := seen_snoc past (.poll h) answer
  refine ⟨?_, ?_, ?_, ?_, inv.drained, ?_⟩
  · rw [hsee]
    exact inv.sound
  · rw [hsee]
    exact inv.made
  · rw [hsee]
    exact inv.dead
  · rw [hsee]
    exact inv.queue
  · refine books.congr (fun x v => ?_) htaken hasleep fun x => Iff.rfl
    rw [List.map_append, List.map_singleton, told_snoc inv.sound.count]
    refine or_iff_left ?_
    rintro (⟨bytes, frame, hev, -⟩ | ⟨why, hnone, -⟩)
    · exact ConnEvent.noConfusion hev
    · exact hnone

/-- A poll comes back with what the waiter was told, or not at all. -/
theorem poll (inv : ConnInv past c) {h : Nat} (legal : Legal past (.poll h)) :
    (∀ verdict, (c.poll h).1 = some verdict ↔ Told (past.map Prod.fst) h verdict)
      ∧ ConnInv (past ++ [(.poll h, .polled (c.poll h).1)]) (c.poll h).2 := by
  have hmade : h < c.made := by
    rw [inv.made]
    exact legal.1
  have hpolled : ∀ answer x, Polled (past ++ [(.poll h, answer)]) x ↔ Polled past x ∨ x = h := by
    intro answer x
    rw [polled_snoc]
    exact or_congr_right ⟨fun hx => (ConnEvent.poll.inj hx).symm, fun hx => hx ▸ rfl⟩
  unfold Conn.poll
  cases hstate : (c.slots h).state with
  | some verdict =>
    -- the verdict is taken out of the slot
    obtain ⟨hv, hbooks⟩ := inv.books.take hmade hstate
    refine ⟨fun v => ⟨?_, ?_⟩, inv.slotted _ hbooks (fun x => ?_) (hpolled _)⟩
    · intro heq
      obtain rfl := Option.some.inj heq
      exact hv
    · intro hv'
      exact congrArg some (inv.books.once h _ _ hv hv')
    · rw [cameBack_snoc]
      refine or_congr_right ⟨fun hx => (ConnEvent.poll.inj hx.1).symm, ?_⟩
      rintro rfl
      exact ⟨rfl, verdict, rfl⟩
  | none =>
    -- nothing yet: the task leaves its waker
    obtain ⟨hwaits, hbooks⟩ := inv.books.sleep hmade hstate legal.2
    refine ⟨fun v => ⟨?_, ?_⟩, inv.slotted _ hbooks (fun x => ?_) (hpolled _)⟩
    · intro heq
      cases heq
    · intro hv
      exact absurd hwaits ((inv.books.settled h hmade).mp ⟨v, hv⟩)
    · rw [cameBack_snoc]
      refine or_iff_left ?_
      rintro ⟨-, v, hv⟩
      cases hv

/-- **Every event keeps the invariant.** -/
theorem act (inv : ConnInv past c) {ev : ConnEvent} (legal : Legal past ev) :
    ConnInv (past ++ [(ev, (c.act ev).1)]) (c.act ev).2 := by
  cases ev with
  | request frame post => exact inv.roundTrip frame post
  | deliver bytes => exact inv.deliver legal
  | fail reason => exact inv.fail reason
  | poll h => exact (inv.poll legal).2

end ConnInv

/-! ## Runs of a connection -/

theorem Conn.Run.inv {past : List (ConnEvent × ConnAnswer)} {c : Conn} (run : Conn.Run past c) :
    ConnInv past c := by
  refine run.invariant ConnInv ConnInv.start ?_
  intro past c ev answer c' inv legal hstep
  obtain ⟨hanswer, rfl⟩ := Prod.mk.inj (Except.ok.inj hstep)
  rw [← hanswer]
  exact inv.act legal

/-- What was told stays told, whatever happens then. -/
theorem Conn.Run.told_mono {past : List (ConnEvent × ConnAnswer)} {c : Conn}
    (run : Conn.Run past c) {before after : List (ConnEvent × ConnAnswer)}
    (hpast : past = before ++ after) {h : Nat} {verdict : Verdict}
    (htold : Told (before.map Prod.fst) h verdict) : Told (past.map Prod.fst) h verdict := by
  induction run generalizing after with
  | nil =>
    obtain ⟨rfl, rfl⟩ := List.append_eq_nil_iff.mp hpast.symm
    exact htold
  | snoc hrun hlegal hok ih =>
    rcases List.eq_nil_or_concat after with rfl | ⟨after, last, rfl⟩
    · rw [hpast, List.append_nil]
      exact htold
    · rw [List.concat_eq_append, ← List.append_assoc] at hpast
      have hinv := Conn.Run.inv hrun
      rw [List.map_append, List.map_singleton, told_snoc hinv.sound.count]
      exact Or.inl (ih (List.append_inj' hpast rfl).1)

/-- Requests and answers of a connection correlate. -/
structure Correlated (past : List (ConnEvent × ConnAnswer)) (c : Conn) : Prop where
  /-- Request number `n` comes with future `n`. -/
  futures : ∀ before frame post answer after,
    past = before ++ (.request frame post, answer) :: after →
      answer = .future (seen before).asked
  /-- **Every poll came back with what its request was told by then**, and with nothing if
  it was told nothing. -/
  polls : ∀ before h answer after, past = before ++ (.poll h, answer) :: after →
    (∀ verdict, answer = .ready verdict ↔ Told (before.map Prod.fst) h verdict)
      ∧ (answer = .pending ↔ ∀ verdict, ¬ Told (before.map Prod.fst) h verdict)
  /-- A request is told one thing, and that for good. -/
  once : ∀ h verdict verdict', Told (past.map Prod.fst) h verdict →
    Told (past.map Prod.fst) h verdict' → verdict = verdict'
  kept : ∀ before after h verdict, past = before ++ after → Told (before.map Prod.fst) h verdict →
    Told (past.map Prod.fst) h verdict
  /-- Answer `i` is the one frame `i` waits for, and no other frame has its request. -/
  positional : ∀ (i : Nat) (bytes : Bytes), (seen past).arrived[i]? = some bytes →
    ∃ h frame, (seen past).posted[i]? = some (h, frame)
      ∧ (∀ resp, decodeAs frame bytes = some resp → Told (past.map Prod.fst) h (.ok resp))
      ∧ (decodeAs frame bytes = none →
        Told (past.map Prod.fst) h (.error "wire client: malformed response frame"))
      ∧ ∀ (j : Nat) (frame' : OpFrame),
        (seen past).posted[j]? = some (h, frame') → j = i
  /-- An accepted frame without an answer waits while the connection lives: its request
  was told nothing, its slot is empty, and a task that polled it sleeps on it. -/
  waits : ∀ h, (seen past).Waits h →
    h ∈ c.waiters.map Prod.fst ∧ (∀ verdict, ¬ Told (past.map Prod.fst) h verdict)
      ∧ (c.slots h).state = none ∧ ((c.slots h).waker = true ↔ Polled past h)
  /-- What was told lies ready until it is taken, with no task left asleep on it, and a
  slot that was taken from stays empty. -/
  ready : ∀ h verdict, Told (past.map Prod.fst) h verdict →
    (¬ Taken past h → c.slots h = { state := some verdict, waker := false })
      ∧ (Taken past h → (c.slots h).state = none)
  /-- **Behind the end nobody waits**: every request was told something, an error if its
  answer did not come. -/
  behind : (seen past).ended ≠ none →
    ∀ h < (seen past).asked,
      ∃ verdict, Told (past.map Prod.fst) h verdict
        ∧ ((∃ (i : Nat) (frame : OpFrame) (bytes : Bytes), (seen past).posted[i]? = some (h, frame)
            ∧ (seen past).arrived[i]? = some bytes) ∨ ∃ reason, verdict = .error reason)
  /-- Requests behind the end are told its reason, and late answers change nothing. -/
  later : ∀ reason, (seen past).ended = some reason →
    (∀ frame post, Told (past.map Prod.fst ++ [.request frame post])
      (seen past).asked (.error reason))
    ∧ ∀ bytes, c.act (.deliver bytes) = (.done, c)

/-- **Whatever order requests, answers, failures and polls come in, they correlate.** -/
theorem client_correlates {past : List (ConnEvent × ConnAnswer)} {c : Conn}
    (run : Conn.Run past c) : Correlated past c := by
  have inv := run.inv
  refine ⟨?_, ?_, inv.books.once, ?_, ?_, ?_, ?_, ?_, ?_⟩
  · -- the futures are numbered in the order of the requests
    intro before frame post answer after hsplit
    obtain ⟨t, t', hrun, -, hok⟩ := run.split hsplit
    have hanswer := (Prod.mk.inj (Except.ok.inj hok)).1
    rw [← hanswer, ← (Conn.Run.inv hrun).made]
  · -- a poll answers what was told, and only when something was
    intro before h answer after hsplit
    obtain ⟨t, t', hrun, legal, hok⟩ := run.split hsplit
    have hanswer := (Prod.mk.inj (Except.ok.inj hok)).1
    have hpoll := ((Conn.Run.inv hrun).poll legal).1
    rw [← hanswer]
    change (∀ verdict, ConnAnswer.polled (t.poll h).1 = .ready verdict ↔ _)
      ∧ (ConnAnswer.polled (t.poll h).1 = .pending ↔ _)
    cases hcame : (t.poll h).1 with
    | some verdict =>
      rw [hcame] at hpoll
      refine ⟨fun v => ?_, fun hno => ConnAnswer.noConfusion hno, fun hno => ?_⟩
      · rw [← hpoll]
        exact ⟨fun heq => congrArg some (ConnAnswer.ready.inj heq),
          fun heq => congrArg ConnAnswer.ready (Option.some.inj heq)⟩
      · exact absurd ((hpoll verdict).mp rfl) (hno verdict)
    | none =>
      rw [hcame] at hpoll
      have hno : ∀ v, ¬ Told (before.map Prod.fst) h v := by
        intro v hv
        cases (hpoll v).mpr hv
      exact ⟨fun v => ⟨fun heq => ConnAnswer.noConfusion heq, fun hv => absurd hv (hno v)⟩,
        fun _ => hno, fun _ => rfl⟩
  · -- what was told stays told
    intro before after h verdict hsplit htold
    exact run.told_mono hsplit htold
  · -- answer `i` goes to the request of frame `i`, which no other frame has
    intro i bytes harrived
    have hlt := (List.getElem?_eq_some_iff.mp harrived).1
    obtain ⟨⟨h, frame⟩, hposted⟩ : ∃ x, (seen past).posted[i]? = some x :=
      ⟨_, List.getElem?_eq_getElem (lt_of_lt_of_le hlt inv.sound.count)⟩
    refine ⟨h, frame, hposted, fun resp hread => .answered hposted harrived hread,
      fun hread => .garbled hposted harrived hread, fun j frame' hj => ?_⟩
    have hi' : ((seen past).posted.map Prod.fst)[i]? = some h := by
      rw [List.getElem?_map, hposted]
      rfl
    have hj' : ((seen past).posted.map Prod.fst)[j]? = some h := by
      rw [List.getElem?_map, hj]
      rfl
    exact inv.sound.postedOnce.getElem_inj_iff.mp ((List.getElem?_eq_some_iff.mp hj').2.trans
      (List.getElem?_eq_some_iff.mp hi').2.symm)
  · -- who waits has an empty slot
    intro h hwaits
    have hqueued := (inv.waits_iff h).mp hwaits
    obtain ⟨hstate, hwaker⟩ := inv.books.empty h hqueued
    refine ⟨hqueued, fun v hv => ?_, hstate, hwaker⟩
    exact (inv.books.settled h (inv.books.waitingMade h hqueued)).mp ⟨v, hv⟩ hqueued
  · -- a verdict is held until it is polled
    intro h verdict htold
    exact ⟨inv.books.held h verdict htold, inv.books.gone h⟩
  · -- a connection that is over leaves nobody waiting
    intro hended h hlt
    have hidle : h ∉ c.waiters.map Prod.fst := by
      rw [inv.drained (by rw [inv.dead]; exact hended)]
      simp
    obtain ⟨verdict, htold⟩ := (inv.books.settled h (by rw [inv.made]; exact hlt)).mpr hidle
    refine ⟨verdict, htold, ?_⟩
    rcases told_iff.mp htold with ⟨i, frame, bytes, hposted, harrived, -⟩ | ⟨_, _, _, reason, -, -, rfl⟩
    · exact Or.inl ⟨i, frame, bytes, hposted, harrived⟩
    · exact Or.inr ⟨reason, rfl⟩
  · -- and takes nothing more
    intro reason hended
    refine ⟨fun frame post => .failed rfl (Or.inl ⟨hended, rfl⟩), fun bytes => ?_⟩
    have hdead : c.dead ≠ none := by
      rw [inv.dead, hended]
      exact Option.some_ne_none _
    rw [Conn.act, inv.deliver_late bytes hdead]

/-- A page and a get are asked for; the page comes, the connection ends, and the get and
a later request come back with the reason. -/
theorem client_correlates_cut :
    let page := OpFrame.one opScanStream [1] [0, 2]
    let get := OpFrame.one opGet [1] []
    ∃ c, Correlated
      [(.request page (.ok ()), .future 0), (.request get (.ok ()), .future 1), (.poll 0, .pending),
        (.deliver [0, 0, 1], .done), (.poll 0, .ready (.ok { tail := some 1 })), (.poll 1, .pending),
        (.fail "closed", .done), (.deliver [0, 0], .done), (.request get (.ok ()), .future 2),
        (.poll 1, .ready (.error "closed")), (.poll 2, .ready (.error "closed"))] c := by
  intro page get
  have hrun : (runGuarded Conn.step (fun past _ ev => Legal past ev) {}
      [.request page (.ok ()), .request get (.ok ()), .poll 0, .deliver [0, 0, 1], .poll 0, .poll 1,
        .fail "closed", .deliver [0, 0], .request get (.ok ()), .poll 1, .poll 2]).map Prod.fst
      = some _ := rfl
  obtain ⟨⟨past, c⟩, hrun, rfl⟩ := Option.map_eq_some_iff.mp hrun
  exact ⟨c, client_correlates (Trace.runGuarded hrun)⟩

end Okm.Engine
