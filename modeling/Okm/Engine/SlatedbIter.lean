import Okm.Engine.Storage
import Okm.Lib.DoubleEnded

/-!
# A slatedb scan from both ends

The model of `SlatedbIter`, the iterator over the channel a scan's driver fills. The
front receives item by item; the first step back drains the channel into a buffer it
then reads from its end, and marks the iterator done.

The mark is what the front looks at, so from then on it answers nothing, whatever the
buffer still holds (`front_after_back`). `slatedb_both_ends` says for which calls the
iterator serves its items as a double-ended reader owes them: for those that step from
the front behind a step back only when every item is taken.
-/

namespace Okm.Engine

open Lib

/-- A message on the item channel: an item, the driver's fault, or the end of the range. -/
abbrev Message := Option (Except String (Bytes × Bytes))

/-- What the driver produces for one scan: rows, and at most one fault behind them. -/
structure Produced where
  rows : List (Bytes × Bytes)
  fault : Option String
  deriving DecidableEq, Repr

namespace Produced

/-- The messages of the scan. The driver closes the channel behind the end sentinel, or
behind the fault. -/
def sent (p : Produced) : List Message :=
  p.rows.map (fun kv => some (.ok kv)) ++ [p.fault.map .error]

end Produced

/-- The iterator's item: a pair, or the failure that rode the stream. -/
def slatedbItem : Except String (Bytes × Bytes) → Except Error (Bytes × Bytes) :=
  Except.mapError Error.engine

/-- The items a scan hands out. -/
def Produced.items (p : Produced) : List (Except Error (Bytes × Bytes)) :=
  p.sent.reduceOption.map slatedbItem

/-- `SlatedbIter`: the messages still in the channel, the mark the front looks at, and the
buffer of the back, next item first. -/
structure SlatedbIter where
  rx : List Message
  done : Bool
  backBuf : Option (List (Except Error (Bytes × Bytes)))

namespace SlatedbIter

/-- The iterator over a fresh stream. -/
def start (p : Produced) : SlatedbIter := ⟨p.sent, false, none⟩

/-- `next`. A channel that closes without its sentinel is a fault, said once. -/
def next (it : SlatedbIter) : Option (Except Error (Bytes × Bytes)) × SlatedbIter :=
  if it.done then (none, it)
  else
    match it.rx with
    | some (.ok kv) :: rx => (some (.ok kv), { it with rx := rx })
    | some (.error text) :: rx =>
      (some (.error (.engine text)), { it with rx := rx, done := true })
    | none :: rx => (none, { it with rx := rx, done := true })
    | [] =>
      (some (.error (.engine "slatedb driver gone mid-scan: receiving on a closed channel")),
        { it with done := true })

/-- The first step back drains the channel. -/
def fillBackBuf (it : SlatedbIter) : SlatedbIter :=
  match it.backBuf with
  | some _ => it
  | none => ⟨[], true, some (it.rx.reduceOption.map slatedbItem).reverse⟩

/-- `next_back`. -/
def nextBack (it : SlatedbIter) : Option (Except Error (Bytes × Bytes)) × SlatedbIter :=
  match it.fillBackBuf.backBuf with
  | some (item :: buf) => (some item, { it.fillBackBuf with backBuf := some buf })
  | _ => (none, it.fillBackBuf)

def call (it : SlatedbIter) : Pop → Option (Except Error (Bytes × Bytes)) × SlatedbIter
  | .front => it.next
  | .back => it.nextBack

/-- The iterator a list of calls leaves. -/
def after (it : SlatedbIter) : List Pop → SlatedbIter
  | [] => it
  | side :: calls => (it.call side).2.after calls

/-- The answers to a list of calls. -/
def answers (it : SlatedbIter) : List Pop → List (Pop × Option (Except Error (Bytes × Bytes)))
  | [] => []
  | side :: calls => (side, (it.call side).1) :: (it.call side).2.answers calls

/-! ## While no step back was made -/

end SlatedbIter

/-- A channel as a driver leaves it: rows, then the sentinel or the fault, of which the
mark says whether the front has passed it. -/
inductive Streaming : List Message → Bool → Prop
  | rows (rows : List (Bytes × Bytes)) (fault : Option String) :
    Streaming (Produced.mk rows fault).sent false
  | passed : Streaming [] true

namespace SlatedbIter

/-- **A step from the front of a stream** takes the first item left. -/
theorem next_streaming {rx : List Message} {done : Bool} (h : Streaming rx done) :
    ∃ rx' done', next ⟨rx, done, none⟩
        = ((takeEnd (rx.reduceOption.map slatedbItem) .front).1, ⟨rx', done', none⟩) ∧
      rx'.reduceOption.map slatedbItem
        = (takeEnd (rx.reduceOption.map slatedbItem) .front).2 ∧ Streaming rx' done' := by
  cases h with
  | passed => exact ⟨[], true, rfl, rfl, .passed⟩
  | rows rows fault =>
    cases rows with
    | cons kv rows => exact ⟨_, _, rfl, rfl, .rows rows fault⟩
    | nil =>
      cases fault with
      | none => exact ⟨_, _, rfl, rfl, .passed⟩
      | some text => exact ⟨_, _, rfl, rfl, .passed⟩

/-- **A step back** takes the last item left, and leaves the rest to the buffer. -/
theorem nextBack_streaming (rx : List Message) (done : Bool) :
    nextBack ⟨rx, done, none⟩
      = ((takeEnd (rx.reduceOption.map slatedbItem) .back).1,
        ⟨[], true, some (takeEnd (rx.reduceOption.map slatedbItem) .back).2.reverse⟩) := by
  rcases List.eq_nil_or_concat' (rx.reduceOption.map slatedbItem) with hnil | ⟨init, last, hlast⟩
  · simp [nextBack, fillBackBuf, takeEnd, hnil]
  · simp [nextBack, fillBackBuf, takeEnd, hlast]

/-! ## Behind a step back -/

/-- **Behind a step back the front answers nothing.** -/
theorem front_after_back (left : List (Except Error (Bytes × Bytes))) :
    next ⟨[], true, some left.reverse⟩ = (none, ⟨[], true, some left.reverse⟩) := rfl

theorem back_after_back (left : List (Except Error (Bytes × Bytes))) :
    nextBack ⟨[], true, some left.reverse⟩
      = ((takeEnd left .back).1, ⟨[], true, some (takeEnd left .back).2.reverse⟩) := by
  rcases List.eq_nil_or_concat' left with rfl | ⟨init, last, rfl⟩
  · rfl
  · simp [nextBack, fillBackBuf, takeEnd]

/-- A step back was made: the front is shut, and the back reads its buffer. -/
def Shut (it : SlatedbIter) : Prop := it.done = true ∧ it.backBuf ≠ none

theorem Shut.call {it : SlatedbIter} (h : it.Shut) (side : Pop) : (it.call side).2.Shut := by
  obtain ⟨hdone, hbuf⟩ := h
  cases side with
  | front =>
    have hnext : it.next = (none, it) := if_pos hdone
    rw [SlatedbIter.call, hnext]
    exact ⟨hdone, hbuf⟩
  | back =>
    obtain ⟨rx, done, backBuf⟩ := it
    cases backBuf with
    | none => exact absurd rfl hbuf
    | some buf => cases buf <;> exact ⟨hdone, by simp [SlatedbIter.call, nextBack, fillBackBuf]⟩

theorem Shut.after {it : SlatedbIter} (h : it.Shut) (calls : List Pop) : (it.after calls).Shut := by
  induction calls generalizing it with
  | nil => exact h
  | cons side calls ih => exact ih (h.call side)

theorem shut_nextBack {it : SlatedbIter} (h : it.backBuf = none) : it.nextBack.2.Shut := by
  unfold nextBack fillBackBuf
  rw [h]
  dsimp only
  split <;> exact ⟨rfl, by simp⟩

/-- The front never fills the buffer. -/
theorem next_backBuf (it : SlatedbIter) : it.next.2.backBuf = it.backBuf := by
  unfold next
  split
  · rfl
  · split <;> rfl

/-- **Any step back shuts the front**, however many steps follow it. -/
theorem shut_after {it : SlatedbIter} (h : it.backBuf = none) {calls : List Pop}
    (hback : .back ∈ calls) : (it.after calls).Shut := by
  induction calls generalizing it with
  | nil => cases hback
  | cons side calls ih =>
    cases side with
    | back => exact (shut_nextBack h).after calls
    | front =>
      refine ih ((next_backBuf it).trans h) ?_
      simpa using hback

theorem answers_append (it : SlatedbIter) (calls more : List Pop) :
    it.answers (calls ++ more) = it.answers calls ++ (it.after calls).answers more := by
  induction calls generalizing it with
  | nil => rfl
  | cons side calls ih => exact congrArg _ (ih _)

theorem length_answers (it : SlatedbIter) (calls : List Pop) :
    (it.answers calls).length = calls.length := by
  induction calls generalizing it with
  | nil => rfl
  | cons side calls ih => exact congrArg (· + 1) (ih _)

end SlatedbIter

/-! ## The contract -/

/-- A step from the front behind a step back finds every item taken: as many calls were
made before it as there are items. -/
def FrontBeforeBack (n : Nat) (calls : List Pop) : Prop :=
  ∀ i : Nat, calls[i]? = some .front → .back ∈ calls.take i → n ≤ i

namespace SlatedbIter

/-- With the front shut and nothing asked of it too early, the buffer is read as the
items left. -/
theorem answers_shut (left : List (Except Error (Bytes × Bytes))) (calls : List Pop)
    (h : ∀ i : Nat, calls[i]? = some .front → left.length ≤ i) :
    answers ⟨[], true, some left.reverse⟩ calls = takeEnds left calls := by
  induction calls generalizing left with
  | nil => rfl
  | cons side calls ih =>
    have hrest : ∀ i : Nat, calls[i]? = some .front → left.length ≤ i + 1 := fun i hi => h (i + 1) hi
    cases side with
    | front =>
      -- nothing is left
      have hzero : left.length ≤ 0 := h 0 rfl
      obtain rfl : left = [] := List.length_eq_zero_iff.mp (by omega)
      have hnext := front_after_back []
      rw [answers, takeEnds, call, hnext]
      exact congrArg _ (ih [] fun i _ => Nat.zero_le i)
    | back =>
      rw [answers, takeEnds, call, back_after_back left]
      refine congrArg _ (ih _ fun i hi => ?_)
      have hle := hrest i hi
      rw [takeEnd, List.length_dropLast]
      omega

/-- A stream on which no step comes too early is read as the items left. -/
theorem answers_streaming {rx : List Message} {done : Bool} (hs : Streaming rx done)
    (calls : List Pop) (h : FrontBeforeBack (rx.reduceOption.map slatedbItem).length calls) :
    answers ⟨rx, done, none⟩ calls = takeEnds (rx.reduceOption.map slatedbItem) calls := by
  induction calls generalizing rx done with
  | nil => rfl
  | cons side calls ih =>
    cases side with
    | front =>
      obtain ⟨rx', done', hnext, hleft, hs'⟩ := next_streaming hs
      rw [answers, takeEnds, call, hnext, ← hleft]
      refine congrArg _ (ih hs' fun i hi hback => ?_)
      have hle := h (i + 1) hi (by simpa using hback)
      rw [hleft, takeEnd, List.length_tail]
      omega
    | back =>
      rw [answers, takeEnds, call, nextBack_streaming]
      refine congrArg _ (answers_shut _ calls fun i hi => ?_)
      have hle := h (i + 1) hi (by simp)
      rw [takeEnd, List.length_dropLast]
      omega

end SlatedbIter

/-- **When a slatedb scan serves both ends.** For every stream and every list of calls,
the items from the front, what is left and the items from the back in reverse are the
items produced, and an end answers nothing only when all are taken, exactly when every
step from the front behind a step back finds all of them taken. -/
theorem slatedb_both_ends (p : Produced) (calls : List Pop) :
    Serves p.items ((SlatedbIter.start p).answers calls) ↔
      FrontBeforeBack p.items.length calls := by
  constructor
  · intro hserves i hi hback
    by_contra hearly
    obtain ⟨hlt, hget⟩ := List.getElem?_eq_some_iff.mp hi
    -- the front is shut by then, so the call answers nothing
    have hshut : ((SlatedbIter.start p).after (calls.take i)).Shut :=
      SlatedbIter.shut_after rfl hback
    have hcalls : calls = calls.take i ++ .front :: calls.drop (i + 1) := by
      rw [← hget, List.cons_getElem_drop_succ, List.take_append_drop]
    have hnone : (((SlatedbIter.start p).after (calls.take i)).call .front).1 = none :=
      congrArg Prod.fst (if_pos hshut.1)
    have hanswers := SlatedbIter.answers_append (SlatedbIter.start p) (calls.take i)
      (.front :: calls.drop (i + 1))
    rw [← hcalls, SlatedbIter.answers, hnone] at hanswers
    have hdry := congrArg List.length (hserves.dry _ _ _ hanswers)
    rw [List.length_append, List.length_reverse] at hdry
    have hle := length_popped_le ((SlatedbIter.start p).answers (calls.take i))
    rw [SlatedbIter.length_answers, List.length_take] at hle
    omega
  · intro h
    rw [SlatedbIter.start, SlatedbIter.answers_streaming (.rows p.rows p.fault) calls h]
    exact serves_takeEnds _ calls

/-- **A row is lost between the ends**: with two rows, one step from each end and the
front again after one from the back answers nothing while a row is left. -/
theorem slatedb_front_starves :
    ¬ Serves (Produced.mk [([1], []), ([2], [])] none).items
      ((SlatedbIter.start ⟨[([1], []), ([2], [])], none⟩).answers [.back, .front]) := by
  intro h
  have hdry := h.dry [(.back, some (.ok ([2], [])))] .front [] rfl
  cases (show [Except.ok ([1], []), Except.ok ([2], [])]
    = ([Except.ok ([2], [])] : List (Except Error (Bytes × Bytes))) from hdry)

end Okm.Engine
