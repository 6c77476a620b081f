import Mathlib.Logic.Function.Basic
import Okm.Wire.Response

/-!
# The client of a connection

The model of `wire_client.rs`: requests on one connection carry no id, so an answer
belongs to the oldest waiter. The state is the client's own: the queue, the reason the
connection ended, the slots.

The second half is about slots alone. `Books` says that the slots agree with a relation
`told`, who is to be told what, and it is kept when a waiter is made, when one is
resolved, and when a future is polled. What `told` is, the events of the connection
decide; that is the subject of `Traffic`.
-/

namespace Okm.Engine

open Lib Wire

/-- What a request comes back with. -/
abbrev Verdict := Except String OpResponse

/-- `Slot`: the verdict until the future takes it, and whether a task sleeps on it. -/
structure Slot where
  state : Option Verdict := none
  waker : Bool := false

/-- One connection. -/
structure Conn where
  /-- Waiters in queue order, each with the shape of the answer it waits for. -/
  waiters : List (Nat × Bool) := []
  dead : Option String := none
  slots : Nat → Slot := fun _ => {}
  /-- How many slots were made; the next one gets this handle. -/
  made : Nat := 0

/-- Whether the answer to a frame is a chunk. -/
def wantsChunk (frame : OpFrame) : Bool := frame.ops.any fun op => op.1 = opScanStream

/-- An answer in the shape that was asked for. -/
def readAnswer (chunk : Bool) (bytes : Bytes) : Verdict :=
  match if chunk then OpResponse.decodeChunk bytes else OpResponse.decode bytes with
  | some resp => .ok resp
  | none => .error "wire client: malformed response frame"

namespace Conn

/-- `Slot::resolve`: the verdict is stored and a sleeping task woken. -/
def resolve (c : Conn) (h : Nat) (verdict : Verdict) : Conn :=
  { c with slots := Function.update c.slots h { state := some verdict, waker := false } }

/-- Every waiter of a drained queue gets the same reason. -/
def failAll (c : Conn) (reason : String) : List (Nat × Bool) → Conn
  | [] => c
  | (h, _) :: rest => (c.resolve h (.error reason)).failAll reason rest

/-- `WireClient::fail`. -/
def fail (c : Conn) (reason : String) : Conn :=
  let drained := Conn.failAll { c with waiters := [] } reason c.waiters
  { drained with dead := some reason }

/-- `WireClient::deliver`: an answer nobody waits for is dropped. -/
def deliver (c : Conn) (bytes : Bytes) : Conn :=
  match c.waiters with
  | [] => c
  | (h, chunk) :: rest => Conn.resolve { c with waiters := rest } h (readAnswer chunk bytes)

/-- The slot of a new request. -/
def make (c : Conn) : Conn := { c with made := c.made + 1 }

/-- A request on a dead connection is resolved on the spot. -/
def refuse (c : Conn) (reason : String) : Conn := c.make.resolve c.made (.error reason)

/-- A post that failed takes every waiter with it, and this request. -/
def lose (c : Conn) (e : String) : Conn :=
  (Conn.failAll { c.make with dead := some e, waiters := [] } e c.waiters).resolve c.made (.error e)

/-- A post that went out: the waiter queues up behind it. -/
def enqueue (c : Conn) (frame : OpFrame) : Conn :=
  { c.make with waiters := c.waiters ++ [(c.made, wantsChunk frame)] }

/-- `WireClient::round_trip`, with what the transport says should it be asked. The new
waiter's handle is the old count. -/
def roundTrip (c : Conn) (frame : OpFrame) (post : Except String Unit) : Conn :=
  match c.dead with
  | some reason => c.refuse reason
  | none =>
    match post with
    | .error e => c.lose e
    | .ok () => c.enqueue frame

/-- `SlotFuture::poll`: the verdict if there is one, and otherwise the task sleeps. -/
def poll (c : Conn) (h : Nat) : Option Verdict × Conn :=
  match (c.slots h).state with
  | some verdict =>
    (some verdict, { c with slots := Function.update c.slots h { c.slots h with state := none } })
  | none => (none, { c with slots := Function.update c.slots h { c.slots h with waker := true } })

end Conn

/-- What can happen on a connection. -/
inductive ConnEvent where
  | request (frame : OpFrame) (post : Except String Unit)
  | deliver (bytes : Bytes)
  | fail (reason : String)
  | poll (handle : Nat)

/-- What comes back: a request its future, a poll a verdict or nothing yet. -/
inductive ConnAnswer where
  | done
  | future (handle : Nat)
  | pending
  | ready (verdict : Verdict)

/-- How a poll came back. -/
def ConnAnswer.polled : Option Verdict → ConnAnswer
  | some verdict => .ready verdict
  | none => .pending

def Conn.act (c : Conn) : ConnEvent → ConnAnswer × Conn
  | .request frame post => (.future c.made, c.roundTrip frame post)
  | .deliver bytes => (.done, c.deliver bytes)
  | .fail reason => (.done, c.fail reason)
  | .poll h => (.polled (c.poll h).1, (c.poll h).2)

/-- One event, for runs; it always happens. -/
def Conn.step (c : Conn) (ev : ConnEvent) : Except Empty (ConnAnswer × Conn) := .ok (c.act ev)

/-! ## The books of the waiters -/

/-- The slots agree with who was told what, who took it, who was asked about and who
still waits. -/
structure Books (slots : Nat → Slot) (made : Nat) (told : Nat → Verdict → Prop)
    (taken asleep waiting : Nat → Prop) : Prop where
  once : ∀ h v v', told h v → told h v' → v = v'
  toldMade : ∀ h v, told h v → h < made
  asleepMade : ∀ h, asleep h → h < made
  waitingMade : ∀ h, waiting h → h < made
  /-- Every waiter ever made is waiting or told, and never both. -/
  settled : ∀ h, h < made → ((∃ v, told h v) ↔ ¬ waiting h)
  takenTold : ∀ h, taken h → ∃ v, told h v
  /-- A verdict lies ready until the future comes back with it, and no task sleeps on
  it. -/
  held : ∀ h v, told h v → ¬ taken h → slots h = { state := some v, waker := false }
  gone : ∀ h, taken h → (slots h).state = none
  /-- Who waits has nothing, and a task that asked sleeps. -/
  empty : ∀ h, waiting h → (slots h).state = none ∧ ((slots h).waker = true ↔ asleep h)
  fresh : ∀ h, made ≤ h → slots h = {}

namespace Books

variable {slots : Nat → Slot} {made : Nat} {told : Nat → Verdict → Prop}
  {taken asleep waiting : Nat → Prop}

theorem start : Books (fun _ => {}) 0 (fun _ _ => False) (fun _ => False) (fun _ => False)
    fun _ => False where
  once := fun _ _ _ hv => hv.elim
  toldMade := fun _ _ hv => hv.elim
  asleepMade := fun _ hs => hs.elim
  waitingMade := fun _ hw => hw.elim
  settled := fun h hlt => absurd hlt (Nat.not_lt_zero h)
  takenTold := fun _ ht => ht.elim
  held := fun _ _ hv => hv.elim
  gone := fun _ ht => ht.elim
  empty := fun _ hw => hw.elim
  fresh := fun _ _ => rfl

theorem congr {told' : Nat → Verdict → Prop} {taken' asleep' waiting' : Nat → Prop}
    (b : Books slots made told taken asleep waiting) (htold : ∀ h v, told' h v ↔ told h v)
    (htaken : ∀ h, taken' h ↔ taken h) (hasleep : ∀ h, asleep' h ↔ asleep h)
    (hwaiting : ∀ h, waiting' h ↔ waiting h) : Books slots made told' taken' asleep' waiting' := by
  obtain rfl : told' = told := funext fun h => funext fun v => propext (htold h v)
  obtain rfl : taken' = taken := funext fun h => propext (htaken h)
  obtain rfl : asleep' = asleep := funext fun h => propext (hasleep h)
  obtain rfl : waiting' = waiting := funext fun h => propext (hwaiting h)
  exact b

/-- A new waiter waits. -/
theorem make (b : Books slots made told taken asleep waiting) :
    Books slots (made + 1) told taken asleep fun h => waiting h ∨ h = made where
  once := b.once
  toldMade := fun h v hv => Nat.lt_succ_of_lt (b.toldMade h v hv)
  asleepMade := fun h hs => Nat.lt_succ_of_lt (b.asleepMade h hs)
  waitingMade := by
    intro h hh
    rcases hh with hw | rfl
    · exact Nat.lt_succ_of_lt (b.waitingMade h hw)
    · exact Nat.lt_succ_self _
  settled := by
    intro h hlt
    by_cases heq : h = made
    · subst heq
      constructor
      · rintro ⟨v, hv⟩
        exact absurd (b.toldMade h v hv) (lt_irrefl h)
      · intro hnot
        exact absurd (Or.inr rfl) hnot
    · rw [b.settled h (by omega)]
      constructor
      · intro hnot hor
        rcases hor with hw | hm
        · exact hnot hw
        · exact heq hm
      · intro hnot hw
        exact hnot (Or.inl hw)
  takenTold := b.takenTold
  held := b.held
  gone := b.gone
  empty := by
    intro h hh
    rcases hh with hw | rfl
    · exact b.empty h hw
    · rw [b.fresh h (le_refl h)]
      refine ⟨rfl, fun hwaker => absurd hwaker (by simp), fun hs => ?_⟩
      exact absurd (b.asleepMade h hs) (lt_irrefl h)
  fresh := fun h hle => b.fresh h (by omega)

/-- **Resolving a waiter tells it its verdict, and nobody else anything.** -/
theorem resolve (b : Books slots made told taken asleep waiting) {h : Nat} (hw : waiting h)
    (verdict : Verdict) :
    Books (Function.update slots h { state := some verdict, waker := false }) made
      (fun x v => told x v ∨ x = h ∧ v = verdict) taken asleep fun x => waiting x ∧ x ≠ h := by
  -- who waits was told nothing, so nothing was taken either
  have huntold : ∀ v, ¬ told h v := by
    intro v hv
    exact (b.settled h (b.waitingMade h hw)).mp ⟨v, hv⟩ hw
  have huntaken : ¬ taken h := by
    intro ht
    obtain ⟨v, hv⟩ := b.takenTold h ht
    exact huntold v hv
  refine ⟨?_, ?_, b.asleepMade, ?_, ?_, ?_, ?_, ?_, ?_, ?_⟩
  · rintro x v v' (hv | ⟨rfl, rfl⟩) (hv' | ⟨hx, rfl⟩)
    · exact b.once x v v' hv hv'
    · exact absurd hv (hx ▸ huntold v)
    · exact absurd hv' (huntold v')
    · rfl
  · rintro x v (hv | ⟨rfl, -⟩)
    · exact b.toldMade x v hv
    · exact b.waitingMade x hw
  · intro x hx
    exact b.waitingMade x hx.1
  · intro x hlt
    -- settled: told, or no longer waiting
    constructor
    · rintro ⟨v, hv | ⟨rfl, -⟩⟩ ⟨hwx, hne⟩
      · exact (b.settled x hlt).mp ⟨v, hv⟩ hwx
      · exact hne rfl
    · intro hnot
      by_cases heq : x = h
      · exact ⟨verdict, Or.inr ⟨heq, rfl⟩⟩
      · obtain ⟨v, hv⟩ := (b.settled x hlt).mpr fun hwx => hnot ⟨hwx, heq⟩
        exact ⟨v, Or.inl hv⟩
  · intro x hx
    obtain ⟨v, hv⟩ := b.takenTold x hx
    exact ⟨v, Or.inl hv⟩
  · rintro x v (hv | ⟨rfl, rfl⟩) hnot
    · -- another slot, which is as it was
      have hne : x ≠ h := by
        rintro rfl
        exact huntold v hv
      rw [Function.update_of_ne hne]
      exact b.held x v hv hnot
    · rw [Function.update_self]
  · intro x hx
    have hne : x ≠ h := by
      rintro rfl
      exact huntaken hx
    rw [Function.update_of_ne hne]
    exact b.gone x hx
  · intro x hx
    rw [Function.update_of_ne hx.2]
    exact b.empty x hx.1
  · intro x hle
    have hne : x ≠ h := by
      rintro rfl
      exact absurd (b.waitingMade x hw) (by omega)
    rw [Function.update_of_ne hne]
    exact b.fresh x hle

/-- A future takes its verdict, which is the one it was told. -/
theorem take (b : Books slots made told taken asleep waiting) {h : Nat} {verdict : Verdict}
    (hmade : h < made) (hstate : (slots h).state = some verdict) :
    told h verdict ∧ Books (Function.update slots h { slots h with state := none }) made told
      (fun x => taken x ∨ x = h) (fun x => asleep x ∨ x = h) waiting := by
  -- a slot that holds something was resolved, and nobody took it
  have hnot : ¬ taken h := by
    intro ht
    rw [b.gone h ht] at hstate
    cases hstate
  have hidle : ¬ waiting h := by
    intro hw
    rw [(b.empty h hw).1] at hstate
    cases hstate
  obtain ⟨v, hv⟩ := (b.settled h hmade).mpr hidle
  have hheld := b.held h v hv hnot
  rw [hheld] at hstate
  obtain rfl : v = verdict := Option.some.inj hstate
  refine ⟨hv, b.once, b.toldMade, ?_, b.waitingMade, b.settled, ?_, ?_, ?_, ?_, ?_⟩
  · rintro x (hs | rfl)
    · exact b.asleepMade x hs
    · exact hmade
  · rintro x (ht | rfl)
    · exact b.takenTold x ht
    · exact ⟨v, hv⟩
  · intro x u hu hout
    rw [not_or] at hout
    rw [Function.update_of_ne hout.2]
    exact b.held x u hu hout.1
  · intro x hx
    by_cases heq : x = h
    · subst heq
      rw [Function.update_self]
    · rw [Function.update_of_ne heq]
      rcases hx with ht | hx
      · exact b.gone x ht
      · exact absurd hx heq
  · intro x hx
    have hne : x ≠ h := by
      rintro rfl
      exact hidle hx
    rw [Function.update_of_ne hne]
    obtain ⟨hstate, hwaker⟩ := b.empty x hx
    refine ⟨hstate, fun h' => Or.inl (hwaker.mp h'), fun h' => hwaker.mpr ?_⟩
    exact h'.resolve_right hne
  · intro x hle
    have hne : x ≠ h := by omega
    rw [Function.update_of_ne hne]
    exact b.fresh x hle

/-- A task falls asleep on a slot that holds nothing, whose waiter then waits. -/
theorem sleep (b : Books slots made told taken asleep waiting) {h : Nat} (hmade : h < made)
    (hstate : (slots h).state = none) (hnot : ¬ taken h) :
    waiting h ∧ Books (Function.update slots h { slots h with waker := true }) made told taken
      (fun x => asleep x ∨ x = h) waiting := by
  have huntold : ∀ v, ¬ told h v := by
    intro v hv
    rw [b.held h v hv hnot] at hstate
    cases hstate
  -- an untold request still waits
  have hwaits : waiting h := by
    by_contra hidle
    obtain ⟨v, hv⟩ := (b.settled h hmade).mpr hidle
    exact huntold v hv
  refine ⟨hwaits, b.once, b.toldMade, ?_, b.waitingMade, b.settled, b.takenTold, ?_, ?_, ?_, ?_⟩
  · rintro x (hs | rfl)
    · exact b.asleepMade x hs
    · exact hmade
  · intro x u hu hout
    have hne : x ≠ h := by
      rintro rfl
      exact huntold u hu
    rw [Function.update_of_ne hne]
    exact b.held x u hu hout
  · intro x hx
    have hne : x ≠ h := by
      rintro rfl
      exact hnot hx
    rw [Function.update_of_ne hne]
    exact b.gone x hx
  · intro x hx
    by_cases heq : x = h
    · subst heq
      rw [Function.update_self]
      exact ⟨hstate, fun _ => Or.inr rfl, fun _ => rfl⟩
    · rw [Function.update_of_ne heq]
      obtain ⟨hempty, hwaker⟩ := b.empty x hx
      exact ⟨hempty, fun h' => Or.inl (hwaker.mp h'), fun h' => hwaker.mpr (h'.resolve_right heq)⟩
  · intro x hle
    have hne : x ≠ h := by omega
    rw [Function.update_of_ne hne]
    exact b.fresh x hle

end Books

namespace Conn

/-- Draining the queue touches the slots only. -/
theorem failAll_eq (c : Conn) (reason : String) (ws : List (Nat × Bool)) :
    c.failAll reason ws = { c with slots := (c.failAll reason ws).slots } := by
  induction ws generalizing c with
  | nil => rfl
  | cons w ws ih =>
    obtain ⟨h, chunk⟩ := w
    rw [failAll, ih]
    rfl

/-- A drained queue is settled whole. -/
theorem books_failAll {told : Nat → Verdict → Prop} {taken asleep waiting : Nat → Prop} {c : Conn}
    (ws : List (Nat × Bool)) (reason : String) (b : Books c.slots c.made told taken asleep waiting)
    (hw : ∀ h ∈ ws.map Prod.fst, waiting h) (hnodup : (ws.map Prod.fst).Nodup) :
    Books (c.failAll reason ws).slots c.made
      (fun x v => told x v ∨ x ∈ ws.map Prod.fst ∧ v = .error reason) taken asleep
      fun x => waiting x ∧ x ∉ ws.map Prod.fst := by
  induction ws generalizing c told waiting with
  | nil =>
    refine b.congr (fun x v => ?_) (fun x => Iff.rfl) (fun x => Iff.rfl) fun x => ?_
    · simp
    · simp
  | cons w ws ih =>
    obtain ⟨h, chunk⟩ := w
    rw [List.map_cons, List.nodup_cons] at hnodup
    have hone := b.resolve (hw h (by simp)) (.error reason)
    have hrest := ih (c := c.resolve h (.error reason)) hone (fun x hx => by
      refine ⟨hw x (List.mem_cons_of_mem _ hx), ?_⟩
      rintro rfl
      exact hnodup.1 hx) hnodup.2
    refine hrest.congr (fun x v => ?_) (fun x => Iff.rfl) (fun x => Iff.rfl) fun x => ?_
    · simp only [List.map_cons, List.mem_cons]
      tauto
    · simp only [List.map_cons, List.mem_cons, not_or]
      tauto

end Conn

end Okm.Engine
