import Okm.Engine.ScanBounds
import Okm.Engine.Nest

/-!
# Remote iteration against the local scan

A `RemoteScanIter` pulls pages from a host and resumes each page behind the last
key it consumed. The host moves past that key with `prefixEnd`, which is past
every key *extending* it as well, so a page boundary can swallow keys; and the
range of a hosted sender without an end bound runs on into other tenants' keys.

`pages_iff` is the whole story, one page at a time: the iterator delivers a list
exactly when every page it would request reads as the next page of that list.
-/

namespace Okm.Engine

open Lib Wire VirtualStorage

/-- The sender's own keyspace, scanned locally. -/
def localScan (pfx : Option Bytes) (store : Keyspace) (start : Bytes) (stop : Option Bytes) :
    List (Bytes × Bytes) :=
  (store.under (prefixBytes pfx)).range start stop

/-- How many hits fill a page. Without a budget a page holds the whole range, so
any number past the number of entries says the same. -/
def pageBudget (store : Keyspace) (page : UInt8) : Nat :=
  (pageWant page).getD (store.entries.length + 1)

/-- The hits of the page from `start` on; `none` when the host aborts, because
there is no start or a key is shorter than the prefix it should carry. -/
def pageAnswer (pfx : Option Bytes) (store : Keyspace) (stop : Option Bytes) (budget : Nat) :
    Option Bytes → Option (List (Bytes × Bytes))
  | none => none
  | some start =>
    let page := (store.range start (stop.map (hostedKey pfx))).take budget
    if page.all (fun e => decide ((prefixBytes pfx).length ≤ e.1.length)) then
      some (page.map (stripEntry (prefixBytes pfx)))
    else none

/-- Where page `n` of a walk over `items` starts: at `first`, then past the last
key of the page before. -/
def pageStart (pfx : Option Bytes) (budget : Nat) (first : Option Bytes)
    (items : List (Bytes × Bytes)) : Nat → Option Bytes
  | 0 => first
  | n + 1 =>
    (items[(n + 1) * budget - 1]?).bind fun item => prefixEnd (hostedKey pfx item.1)

theorem hostedKey_eq (pfx : Option Bytes) (k : Bytes) :
    hostedKey pfx k = prefixBytes pfx ++ k := by
  cases pfx <;> rfl

theorem pageBudget_pos (store : Keyspace) (page : UInt8) : 0 < pageBudget store page := by
  unfold pageBudget pageWant
  split
  · simp
  split
  · simp
  · rename_i h0
    have hne : page.toNat ≠ 0 := fun h => h0 (UInt8.toNat_inj.mp h)
    rw [Option.getD_some]
    omega

/-! ## One page of the host -/

/-- The page loop takes its budget from the front and strips every key. -/
theorem pageLoop_ok (p : Bytes) (want : Option Nat) :
    ∀ (es acc : List (Bytes × Bytes)), (∀ w ∈ want, acc.length < w) →
      pageLoop p.length want acc (es.map .ok)
        = (let page := es.take ((want.map (· - acc.length)).getD es.length)
           if page.all (fun e => decide (p.length ≤ e.1.length)) then
             .ok (acc ++ page.map (stripEntry p), none)
           else .error .slice) := by
  intro es
  induction es with
  | nil => intro acc _; simp [pageLoop]
  | cons e es ih =>
    intro acc hacc
    obtain ⟨k, v⟩ := e
    -- the first entry is always within budget, so its key is sliced
    have htake : (((k, v) :: es).take ((want.map (· - acc.length)).getD ((k, v) :: es).length))
        = (k, v) :: es.take ((want.map (· - (acc.length + 1))).getD es.length) := by
      cases want with
      | none => simp
      | some w =>
        have hw := hacc w rfl
        obtain ⟨r, hr⟩ : ∃ r, w - acc.length = r + 1 := ⟨w - acc.length - 1, by omega⟩
        have hr' : w - (acc.length + 1) = r := by omega
        simp [hr, hr']
    rw [htake]
    by_cases hk : p.length ≤ k.length
    · have hstep : pageLoop p.length want acc (((k, v) :: es).map .ok)
          = if some (acc.length + 1) = want then .ok (acc ++ [(k.drop p.length, v)], none)
            else pageLoop p.length want (acc ++ [(k.drop p.length, v)]) (es.map .ok) := by
        simp [pageLoop, sliceFrom, hk, bind, Except.bind]
      rw [hstep]
      by_cases hfull : some (acc.length + 1) = want
      · subst hfull
        simp [hk, stripEntry]
      · have hacc' : ∀ w ∈ want, (acc ++ [(k.drop p.length, v)]).length < w := by
          intro w hw
          have h := hacc w hw
          have hne : acc.length + 1 ≠ w := fun h => hfull (h ▸ hw.symm)
          simp only [List.length_append, List.length_singleton]
          omega
        have hlen : (acc ++ [(k.drop p.length, v)]).length = acc.length + 1 := by simp
        rw [if_neg hfull, ih _ hacc', hlen]
        simp only [List.all_cons, decide_eq_true hk, Bool.true_and, List.map_cons, stripEntry,
          List.append_assoc, List.singleton_append]
    · simp [pageLoop, sliceFrom, hk, bind, Except.bind]

/-- The trailer byte says whether the page is short of its budget. -/
theorem trailer_eq {store : Keyspace} {page : UInt8} {n : Nat} (hn : n ≤ store.entries.length)
    (hb : n ≤ pageBudget store page) :
    (if some n = pageWant page then tailMore else tailFinal)
      = if n < pageBudget store page then tailFinal else tailMore := by
  unfold pageBudget at hb ⊢
  cases hw : pageWant page with
  | none => rw [hw] at hb; simp [show n < store.entries.length + 1 by omega]
  | some w =>
    rw [hw, Option.getD_some] at hb
    by_cases h : n = w
    · simp [h]
    · simp [h, show n < w by omega]

/-- The page loop over a range of the store, read off `pageAnswer`. -/
theorem pageLoop_range (pfx : Option Bytes) (store : Keyspace) (start : Bytes)
    (stop : Option Bytes) (page : UInt8) :
    pageLoop (prefixBytes pfx).length (pageWant page) []
        (scanRangeIter store start (stop.map (hostedKey pfx)))
      = match pageAnswer pfx store stop (pageBudget store page) (some start) with
        | some hits => .ok (hits, none)
        | none => .error .slice := by
  have hpos := pageBudget_pos store page
  have hloop := pageLoop_ok (prefixBytes pfx) (pageWant page)
    (store.range start (stop.map (hostedKey pfx))) [] (by
      intro w hw
      rw [pageBudget, Option.mem_def.mp hw] at hpos
      exact hpos)
  have hlen : (store.range start (stop.map (hostedKey pfx))).length ≤ store.entries.length :=
    List.length_filter_le _ _
  -- an unbounded page and a budget past every entry take the same entries
  have hpage : (store.range start (stop.map (hostedKey pfx))).take
        (((pageWant page).map (· - ([] : List (Bytes × Bytes)).length)).getD
          (store.range start (stop.map (hostedKey pfx))).length)
      = (store.range start (stop.map (hostedKey pfx))).take (pageBudget store page) := by
    unfold pageBudget
    cases pageWant page with
    | none =>
      rw [Option.map_none, Option.getD_none, Option.getD_none, List.take_length,
        List.take_of_length_le (by omega)]
    | some w => simp
  rw [hpage] at hloop
  refine Eq.trans hloop ?_
  simp only [pageAnswer, List.nil_append]
  split <;> rfl

theorem pageAnswer_length {pfx : Option Bytes} {store : Keyspace} {stop : Option Bytes}
    {budget : Nat} {start : Option Bytes} {hits : List (Bytes × Bytes)}
    (h : pageAnswer pfx store stop budget start = some hits) :
    hits.length ≤ budget ∧ hits.length ≤ store.entries.length := by
  cases start with
  | none => simp [pageAnswer] at h
  | some start =>
    simp only [pageAnswer] at h
    split at h
    · obtain rfl := Option.some.inj h
      have hlen : (store.range start (stop.map (hostedKey pfx))).length ≤ store.entries.length :=
        List.length_filter_le _ _
      simp only [List.length_map, List.length_take]
      omega
    · simp at h

/-- Where a request starts: at its key, or past it. -/
def requestStart (pfx : Option Bytes) (key : Bytes) (exclusive : Bool) : Option Bytes :=
  if exclusive then prefixEnd (hostedKey pfx key) else some (hostedKey pfx key)

/-- **A page request, in terms of the page it answers.** -/
theorem streamPage_eq (pfx : Option Bytes) (store : Keyspace) (key : Bytes)
    (stop : Option Bytes) (exclusive : Bool) (page : UInt8) :
    match pageAnswer pfx store stop (pageBudget store page) (requestStart pfx key exclusive) with
    | none => ∃ p, streamPage pfx store key (stop.map (hostedKey pfx)) exclusive page = .error p
    | some hits =>
      streamPage pfx store key (stop.map (hostedKey pfx)) exclusive page
        = .ok (hits, none, if hits.length < pageBudget store page then tailFinal else tailMore) := by
  unfold streamPage requestStart
  cases hs : (if exclusive then prefixEnd (hostedKey pfx key)
      else some (hostedKey pfx key)) with
  | none => exact ⟨.expect, by simp only [hs]⟩
  | some start =>
    simp only [hs, pageLoop_range]
    cases hp : pageAnswer pfx store stop (pageBudget store page) (some start) with
    | none => exact ⟨.slice, rfl⟩
    | some hits =>
      obtain ⟨hb, hn⟩ := pageAnswer_length hp
      simp only [bind, Except.bind, trailer_eq hn hb]

/-! ## One request over the transport -/

/-- The host reads back the bounds the sender wrote. -/
theorem streamBounds_streamValue (pfx : Option Bytes) (stop : Option Bytes) (exclusive : Bool)
    (page : UInt8) :
    streamBounds pfx (streamValue stop exclusive page)
      = .ok (some (stop.map (hostedKey pfx), exclusive)) := by
  cases stop with
  | none => cases exclusive <;> rfl
  | some stop => cases exclusive <;> simp [streamValue, streamBounds, Except.map]

theorem getLast?_streamValue (stop : Option Bytes) (exclusive : Bool) (page : UInt8) :
    (streamValue stop exclusive page).getLast? = some page := by
  exact List.getLast?_concat

/-- A stream frame leaves the store alone and answers its one page. -/
theorem applyFrame_stream (pfx : Option Bytes) (store : Keyspace) (key : Bytes)
    (stop : Option Bytes) (exclusive : Bool) (page : UInt8) :
    applyFrame pfx store (OpFrame.one opScanStream key (streamValue stop exclusive page))
      = match streamPage pfx store key (stop.map (hostedKey pfx)) exclusive page with
        | .error p => (.error p, store)
        | .ok (pairs, fault, tail) =>
          (.ok (some { hits := pairs, tail := some tail, fault := fault }), store) := by
  have htags : ¬ opScanStream = opPut ∧ ¬ opScanStream = opDelete ∧ ¬ opScanStream = opGet
      ∧ ¬ opScanStream = opScan := by decide
  simp only [applyFrame, OpFrame.one, execOps, execOp, if_neg htags.1, if_neg htags.2.1,
    if_neg htags.2.2.1, if_neg htags.2.2.2, if_true, afterFlush, flushPending,
    getLast?_streamValue, streamBounds_streamValue]
  cases streamPage pfx store key (stop.map (hostedKey pfx)) exclusive page with
  | error p => rfl
  | ok answer =>
    obtain ⟨pairs, fault, tail⟩ := answer
    simp only [execFinish, VirtualStorage.commitBatch, applyOps_nil, Option.or_none]

/-- What the frame codec can carry of a scan: bounds and keys below 4 GiB. -/
structure ScanFits (store : Keyspace) (start : Bytes) (stop : Option Bytes) : Prop where
  start : start.length < 2 ^ 32
  stop : ∀ s ∈ stop, s.length + 2 < 2 ^ 32
  keys : ∀ e ∈ store.entries, e.1.length < 2 ^ 32

/-- **A page request over the wire**: the page, or the fault of an aborted host. -/
theorem roundTrip_stream (pfx : Option Bytes) (store : Keyspace) {key : Bytes}
    {stop : Option Bytes} (exclusive : Bool) (page : UInt8) (hkey : key.length < 2 ^ 32)
    (hstop : ∀ s ∈ stop, s.length + 2 < 2 ^ 32) :
    roundTrip pfx store (OpFrame.one opScanStream key (streamValue stop exclusive page))
      = match pageAnswer pfx store stop (pageBudget store page)
            (requestStart pfx key exclusive) with
        | none => (.error (.engine "nest: the host panicked while applying the frame"), store)
        | some hits =>
          (.ok { hits := hits, tail := some (if hits.length < pageBudget store page
            then tailFinal else tailMore) }, store) := by
  have hvalue : (streamValue stop exclusive page).length < 2 ^ 32 := by
    cases stop with
    | none => simp [streamValue]
    | some s =>
      have h := hstop s rfl
      simp only [streamValue, List.cons_append, List.length_cons, Option.getD_some,
        List.length_append, List.length_nil]
      omega
  have hfits : (OpFrame.one opScanStream key (streamValue stop exclusive page)).Fits :=
    { count := by simp [OpFrame.one]
      tag := by simp [OpFrame.one]
      key := by simpa [OpFrame.one] using hkey
      value := by simpa [OpFrame.one] using hvalue }
  have hpage := streamPage_eq pfx store key stop exclusive page
  rw [roundTrip, apply, OpFrame.decode_encode hfits]
  simp only [applyFrame_stream]
  cases hp : pageAnswer pfx store stop (pageBudget store page)
      (requestStart pfx key exclusive) with
  | none =>
    rw [hp] at hpage
    obtain ⟨p, hpage⟩ := hpage
    simp only [hpage]
  | some hits =>
    rw [hp] at hpage
    simp only [hpage]

/-! ## One step of the iterator -/

namespace RemoteScanIter

variable {pfx : Option Bytes} {store : Keyspace}

/-- Where the next request of the iterator starts. -/
def resumeAt (pfx : Option Bytes) (it : RemoteScanIter) : Option Bytes :=
  requestStart pfx (it.cursor.getD it.start) it.cursor.isSome

/-- The iterator after a page arrived. -/
def loaded (store : Keyspace) (it : RemoteScanIter) (hits : List (Bytes × Bytes)) :
    RemoteScanIter :=
  { it with
    start := if it.cursor.isSome then it.start else []
    cursor := none
    buf := it.buf ++ hits
    done := decide (hits.length < pageBudget store it.page) }

/-- A request can be encoded: the cursor or start bytes and the end are below 4 GiB. -/
structure Sendable (it : RemoteScanIter) : Prop where
  key : (it.cursor.getD it.start).length < 2 ^ 32
  stop : ∀ s ∈ it.stop, s.length + 2 < 2 ^ 32

theorem refill_some {it : RemoteScanIter} (hs : it.Sendable) (hd : it.done = false)
    {hits : List (Bytes × Bytes)}
    (hp : pageAnswer pfx store it.stop (pageBudget store it.page) (it.resumeAt pfx) = some hits) :
    refill pfx store it = (.ok (), it.loaded store hits, store) := by
  have hrt := roundTrip_stream pfx store it.cursor.isSome it.page hs.key hs.stop
  rw [resumeAt] at hp
  rw [hp] at hrt
  have htail : (some (if hits.length < pageBudget store it.page then tailFinal else tailMore)
      != some tailMore) = decide (hits.length < pageBudget store it.page) := by
    by_cases h : hits.length < pageBudget store it.page
    · simp only [if_pos h, decide_eq_true h]; decide
    · simp only [if_neg h, decide_eq_false h]; decide
  cases hc : it.cursor with
  | none =>
    simp only [hc, Option.isSome_none, Option.getD_none] at hrt
    simp only [refill, hd, hc, Option.isSome_none, Option.getD_none, Bool.false_eq_true, if_false,
      hrt, loaded]
    rw [htail]
  | some c =>
    simp only [hc, Option.isSome_some, Option.getD_some] at hrt
    simp only [refill, hd, hc, Option.isSome_some, Option.getD_some, Bool.false_eq_true, if_false,
      if_true, hrt, loaded]
    rw [htail]

theorem refill_none {it : RemoteScanIter} (hs : it.Sendable) (hd : it.done = false)
    (hp : pageAnswer pfx store it.stop (pageBudget store it.page) (it.resumeAt pfx) = none) :
    ∃ e it', refill pfx store it = (.error e, it', store) := by
  have hrt := roundTrip_stream pfx store it.cursor.isSome it.page hs.key hs.stop
  rw [resumeAt] at hp
  rw [hp] at hrt
  cases hc : it.cursor with
  | none =>
    simp only [hc, Option.isSome_none, Option.getD_none] at hrt
    simp only [refill, hd, hc, Option.isSome_none, Option.getD_none, Bool.false_eq_true, if_false,
      hrt]
    exact ⟨_, _, rfl⟩
  | some c =>
    simp only [hc, Option.isSome_some, Option.getD_some] at hrt
    simp only [refill, hd, hc, Option.isSome_some, Option.getD_some, Bool.false_eq_true, if_false,
      if_true, hrt]
    exact ⟨_, _, rfl⟩

/-- A refill fills the buffer or ends the walk: the loop of `next` turns once. -/
theorem refill_progress {it : RemoteScanIter} (hits : List (Bytes × Bytes)) :
    ((it.loaded store hits).buf.isEmpty && !(it.loaded store hits).done) = false := by
  have hpos := pageBudget_pos store it.page
  cases hits with
  | nil => simp [loaded, hpos]
  | cons x xs => simp [loaded]

theorem next_of_cons {it : RemoteScanIter} {x : Bytes × Bytes} {xs : List (Bytes × Bytes)}
    (hb : it.buf = x :: xs) :
    next pfx store it = (some (.ok x), { it with buf := xs, cursor := some x.1 }, store) := by
  simp [next, nextLoop, hb, consumeFront]

theorem next_of_done {it : RemoteScanIter} (hb : it.buf = []) (hd : it.done = true) :
    next pfx store it = (none, it, store) := by
  simp [next, nextLoop, hb, hd, consumeFront]

theorem next_of_refill {it : RemoteScanIter} (hs : it.Sendable) (hb : it.buf = [])
    (hd : it.done = false) {hits : List (Bytes × Bytes)}
    (hp : pageAnswer pfx store it.stop (pageBudget store it.page) (it.resumeAt pfx) = some hits) :
    next pfx store it = next pfx store (it.loaded store hits) := by
  have hprog : ((it.loaded store hits).buf.isEmpty && !(it.loaded store hits).done) = false :=
    refill_progress hits
  have hleft : (it.buf.isEmpty && !it.done) = true := by simp [hb, hd]
  simp only [next, nextLoop, hleft, if_true, refill_some hs hd hp, hprog, Bool.false_eq_true,
    if_false]

theorem next_of_abort {it : RemoteScanIter} (hs : it.Sendable) (hb : it.buf = [])
    (hd : it.done = false)
    (hp : pageAnswer pfx store it.stop (pageBudget store it.page) (it.resumeAt pfx) = none) :
    ∃ e, (next pfx store it).1 = some (.error e) := by
  obtain ⟨e, it', hr⟩ := refill_none hs hd hp
  have hleft : (it.buf.isEmpty && !it.done) = true := by simp [hb, hd]
  exact ⟨e, by simp only [next, nextLoop, hleft, if_true, hr]⟩

theorem nth_zero (it : RemoteScanIter) : nth pfx store it 0 = (next pfx store it).1 := rfl

/-- Two iterators whose next call is the same answer alike from then on. -/
theorem nth_congr {it it' : RemoteScanIter} (h : next pfx store it = next pfx store it') (n : Nat) :
    nth pfx store it n = nth pfx store it' n := by
  cases n with
  | zero => rw [nth_zero, nth_zero, h]
  | succ n => simp only [nth, h]

theorem nth_of_done {it : RemoteScanIter} (hb : it.buf = []) (hd : it.done = true) (n : Nat) :
    nth pfx store it n = none := by
  induction n with
  | zero => rw [nth_zero, next_of_done hb hd]
  | succ n ih => simpa only [nth, next_of_done hb hd] using ih

/-- The iterator once its buffer is handed out. -/
def drained (it : RemoteScanIter) : RemoteScanIter :=
  { it with buf := [], cursor := (it.buf.getLast?.map Prod.fst).or it.cursor }

/-- The buffer is handed out in order, then the walk goes on. -/
theorem nth_buf (it : RemoteScanIter) (n : Nat) :
    nth pfx store it n
      = if n < it.buf.length then (it.buf[n]?).map .ok
        else nth pfx store it.drained (n - it.buf.length) := by
  induction hb : it.buf generalizing it n with
  | nil =>
    have hself : it.drained = it := by
      obtain ⟨start, stop, page, buf, cursor, done⟩ := it
      obtain rfl : buf = [] := hb
      rfl
    simp [hself]
  | cons x xs ih =>
    have hnext : next pfx store it
        = (some (.ok x), { it with buf := xs, cursor := some x.1 }, store) := next_of_cons hb
    cases n with
    | zero => simp [nth_zero, hnext]
    | succ n =>
      have hrest : ({ it with buf := xs, cursor := some x.1 } : RemoteScanIter).drained
          = it.drained := by
        cases xs with
        | nil => simp [drained, hb]
        | cons y ys =>
          have hlast : (y :: ys).getLast? = some ((y :: ys).getLast (by simp)) :=
            List.getLast?_eq_some_getLast (by simp)
          simp [drained, hb, hlast]
      simp only [nth, hnext, ih { it with buf := xs, cursor := some x.1 } n rfl, hrest,
        List.length_cons, Nat.add_lt_add_iff_right, List.getElem?_cons_succ,
        Nat.add_sub_add_right]

end RemoteScanIter

/-! ## The walk, page by page -/

section Walk

variable (pfx : Option Bytes) (store : Keyspace) (stop : Option Bytes) (page : UInt8)

/-- Page `n` of a walk starting at `first` reads as page `n` of `items`. -/
def PageReads (first : Option Bytes) (items : List (Bytes × Bytes)) (n : Nat) : Prop :=
  let budget := pageBudget store page
  pageAnswer pfx store stop budget (pageStart pfx budget first items n)
    = some ((items.drop (n * budget)).take budget)

/-- The iterator delivers `items`, then nothing, whatever number of calls. -/
def Yields (it : RemoteScanIter) (items : List (Bytes × Bytes)) : Prop :=
  ∀ n, RemoteScanIter.nth pfx store it n = (items[n]?).map .ok

end Walk

section WalkProof

variable {pfx : Option Bytes} {store : Keyspace} {stop : Option Bytes} {page : UInt8}

/-- A page boundary: nothing buffered, more to come. -/
structure AtBoundary (stop : Option Bytes) (page : UInt8) (it : RemoteScanIter) : Prop where
  buf : it.buf = []
  done : it.done = false
  stop : it.stop = stop
  page : it.page = page
  sendable : it.Sendable

open RemoteScanIter

/-- The first page of a walk: it is the head of the list, and behind a full page
the walk yields the rest from the last key on. -/
theorem yields_iff_first {it : RemoteScanIter} (h : AtBoundary stop page it)
    (items : List (Bytes × Bytes)) :
    Yields pfx store it items ↔
      pageAnswer pfx store stop (pageBudget store page) (it.resumeAt pfx)
          = some (items.take (pageBudget store page)) ∧
        (pageBudget store page ≤ items.length →
          Yields pfx store (it.loaded store (items.take (pageBudget store page))).drained
            (items.drop (pageBudget store page))) := by
  have hstop := h.stop
  have hpage := h.page
  cases hp : pageAnswer pfx store stop (pageBudget store page) (it.resumeAt pfx) with
  | none =>
    -- the host aborts: the call answers an error, which no item is
    rw [← hstop, ← hpage] at hp
    obtain ⟨e, he⟩ := next_of_abort h.sendable h.buf h.done hp
    have hno : ¬ Yields pfx store it items := by
      intro hy
      have h0 := hy 0
      rw [nth_zero, he] at h0
      cases hi : items[0]? with
      | none => simp [hi] at h0
      | some x => simp [hi] at h0
    simp [hno]
  | some hits =>
    obtain ⟨hle, -⟩ := pageAnswer_length hp
    rw [← hstop, ← hpage] at hp
    have hnth : ∀ n, nth pfx store it n = nth pfx store (it.loaded store hits) n :=
      nth_congr (next_of_refill h.sendable h.buf h.done hp)
    have hbuf : (it.loaded store hits).buf = hits := by simp [loaded, h.buf]
    have hdone : (it.loaded store hits).done = decide (hits.length < pageBudget store page) := by
      simp [loaded, hpage]
    have hsplit : ∀ n, nth pfx store it n = if n < hits.length then (hits[n]?).map .ok
        else nth pfx store (it.loaded store hits).drained (n - hits.length) := by
      intro n
      rw [hnth, nth_buf, hbuf]
    have hend : hits.length < pageBudget store page →
        ∀ n, nth pfx store (it.loaded store hits).drained n = none := by
      intro hlt n
      exact nth_of_done rfl (by simp [drained, hdone, hlt]) n
    rw [Option.some.injEq]
    refine ⟨fun hy => ?_, fun hread n => ?_⟩
    · -- the hits are the first items
      have hhits : ∀ n, n < hits.length → hits[n]? = items[n]? := by
        intro n hn
        have hyn := hy n
        rw [hsplit, if_pos hn, List.getElem?_eq_getElem hn] at hyn
        rw [List.getElem?_eq_getElem hn]
        cases hi : items[n]? with
        | none => simp [hi] at hyn
        | some x =>
          simp only [hi, Option.map_some, Option.some.injEq, Except.ok.injEq] at hyn
          rw [hyn]
      have hrest : ∀ n, nth pfx store (it.loaded store hits).drained n
          = ((items.drop hits.length)[n]?).map .ok := by
        intro n
        have hyn := hy (n + hits.length)
        rw [hsplit, if_neg (by omega), Nat.add_sub_cancel] at hyn
        rw [hyn, List.getElem?_drop, Nat.add_comm]
      have hlen : hits.length ≤ items.length := by
        by_contra hc
        have hlast := hhits items.length (by omega)
        rw [List.getElem?_eq_none (le_refl _), List.getElem?_eq_none_iff] at hlast
        omega
      have hpre : hits = items.take hits.length := by
        apply List.ext_getElem?
        intro n
        rw [List.getElem?_take]
        split
        · rename_i hn
          exact hhits n hn
        · rename_i hn
          exact List.getElem?_eq_none (by omega)
      rcases Nat.lt_or_ge hits.length (pageBudget store page) with hshort | hfull
      · -- a short page ends the walk, so the items end with it
        have hnone := hrest 0
        rw [hend hshort] at hnone
        have hall : items.length ≤ hits.length := by
          by_contra hc
          rw [List.getElem?_drop, Nat.add_zero, List.getElem?_eq_getElem (by omega)] at hnone
          simp at hnone
        have htake : hits = items.take (pageBudget store page) := by
          rw [List.take_of_length_le (by omega)]
          rwa [List.take_of_length_le hall] at hpre
        exact ⟨htake, fun hc => by omega⟩
      · have heq : hits.length = pageBudget store page := by omega
        rw [heq] at hpre hrest
        exact ⟨hpre, fun _ => hpre ▸ hrest⟩
    · obtain ⟨hhits, hrest⟩ := hread
      have hlen : hits.length = min (pageBudget store page) items.length := by
        rw [hhits, List.length_take]
      rw [hsplit]
      by_cases hn : n < hits.length
      · rw [if_pos hn, hhits, List.getElem?_take, if_pos (by omega)]
      · rw [if_neg hn]
        rcases Nat.lt_or_ge items.length (pageBudget store page) with hshort | hfull
        · rw [hend (by omega), List.getElem?_eq_none (by omega)]
          rfl
        · have hr := hrest hfull (n - hits.length)
          rw [← hhits] at hr
          rw [hr, List.getElem?_drop]
          congr 2
          omega

theorem pageStart_succ (budget : Nat) (hb : 0 < budget) (first : Option Bytes)
    (items : List (Bytes × Bytes)) (n : Nat) :
    pageStart pfx budget first items (n + 1)
      = pageStart pfx budget (pageStart pfx budget first items 1) (items.drop budget) n := by
  cases n with
  | zero => rfl
  | succ n =>
    have hidx : budget + ((n + 1) * budget - 1) = (n + 1 + 1) * budget - 1 := by
      rw [Nat.succ_mul (n + 1), Nat.add_comm]
      have : 0 < (n + 1) * budget := Nat.mul_pos (by omega) hb
      omega
    simp only [pageStart, List.getElem?_drop, hidx]

/-- Behind a full page the iterator stands at a boundary again, ready to resume
past the last key of the page. -/
theorem boundary_step {it : RemoteScanIter} (h : AtBoundary stop page it)
    {items : List (Bytes × Bytes)} (hkeys : ∀ e ∈ items, e.1.length < 2 ^ 32)
    (hfull : pageBudget store page ≤ items.length) :
    let it' := (it.loaded store (items.take (pageBudget store page))).drained
    AtBoundary stop page it' ∧
      it'.resumeAt pfx = pageStart pfx (pageBudget store page) (it.resumeAt pfx) items 1 := by
  intro it'
  have hpos := pageBudget_pos store page
  have hlen : (items.take (pageBudget store page)).length = pageBudget store page := by
    rw [List.length_take]
    omega
  obtain ⟨last, hlast⟩ : ∃ last, items[pageBudget store page - 1]? = some last :=
    ⟨_, List.getElem?_eq_getElem (by omega)⟩
  have hcursor : it'.cursor = some last.1 := by
    have hget : (items.take (pageBudget store page)).getLast? = some last := by
      rw [List.getLast?_eq_getElem?, hlen, List.getElem?_take, if_pos (by omega), hlast]
    simp [it', drained, loaded, h.buf, hget]
  refine ⟨⟨rfl, ?_, h.stop, h.page, ?_, ?_⟩, ?_⟩
  · simp [it', drained, loaded, hlen, h.page]
  · rw [hcursor, Option.getD_some]
    exact hkeys last (List.mem_of_getElem? hlast)
  · exact h.sendable.stop
  · have hone : 1 * pageBudget store page - 1 = pageBudget store page - 1 := by omega
    simp only [resumeAt, hcursor, Option.getD_some, Option.isSome_some, requestStart, if_true,
      pageStart, Nat.zero_add, hone, hlast, Option.bind_some]

/-- **A walk delivers a list exactly when each of its pages reads as the list's
next page.** -/
theorem yields_iff_pages {it : RemoteScanIter} (h : AtBoundary stop page it)
    {items : List (Bytes × Bytes)} (hkeys : ∀ e ∈ items, e.1.length < 2 ^ 32) :
    Yields pfx store it items ↔ ∀ n, n * pageBudget store page ≤ items.length →
      PageReads pfx store stop page (it.resumeAt pfx) items n := by
  -- every full page leaves a shorter list to deliver
  induction hn : items.length using Nat.strong_induction_on generalizing it items with
  | _ len ih =>
    subst hn
    have hpos := pageBudget_pos store page
    rw [yields_iff_first h]
    have hzero : PageReads pfx store stop page (it.resumeAt pfx) items 0 ↔
        pageAnswer pfx store stop (pageBudget store page) (it.resumeAt pfx)
          = some (items.take (pageBudget store page)) := by
      simp [PageReads, pageStart]
    -- the pages behind a full first page are the pages of the rest
    have htail : ∀ n, PageReads pfx store stop page (it.resumeAt pfx) items (n + 1) ↔
        PageReads pfx store stop page
          (pageStart pfx (pageBudget store page) (it.resumeAt pfx) items 1)
          (items.drop (pageBudget store page)) n := by
      intro n
      have hmul : pageBudget store page + n * pageBudget store page
          = (n + 1) * pageBudget store page := by rw [Nat.succ_mul, Nat.add_comm]
      simp only [PageReads, pageStart_succ _ hpos _ _ n, List.drop_drop, hmul]
    have hrest : pageBudget store page ≤ items.length →
        (Yields pfx store (it.loaded store (items.take (pageBudget store page))).drained
            (items.drop (pageBudget store page)) ↔
          ∀ n, (n + 1) * pageBudget store page ≤ items.length →
            PageReads pfx store stop page (it.resumeAt pfx) items (n + 1)) := by
      intro hfull
      obtain ⟨hb, hresume⟩ := @boundary_step pfx store stop page it h items hkeys hfull
      have hdrop : (items.drop (pageBudget store page)).length
          = items.length - pageBudget store page := List.length_drop
      rw [ih _ (by omega) hb (fun e he => hkeys e (List.mem_of_mem_drop he)) rfl, hresume]
      refine forall_congr' fun n => ?_
      rw [htail n, hdrop, Nat.succ_mul]
      exact imp_congr_left (by omega)
    refine ⟨fun hy n hle => ?_, fun hp => ⟨?_, fun hfull => ?_⟩⟩
    · cases n with
      | zero => exact hzero.mpr hy.1
      | succ n =>
        have hfull : pageBudget store page ≤ items.length := by
          rw [Nat.succ_mul] at hle
          omega
        exact (hrest hfull).mp (hy.2 hfull) n hle
    · exact hzero.mp (hp 0 (by omega))
    · exact (hrest hfull).mpr (fun n hle => hp (n + 1) hle)

end WalkProof

/-! ## When the walk is the local scan -/

/-- Nothing of another tenant lies in the scanned range: the range ends inside
the prefix, or no foreign key sorts at or behind its start. A bare host has no
foreign keys. -/
def Confined (pfx : Option Bytes) (store : Keyspace) (start : Bytes) (stop : Option Bytes) :
    Prop :=
  stop.isSome ∨ ∀ e ∈ store.entries, hostedKey pfx start ≤ e.1 → prefixBytes pfx <+: e.1

/-- No page ends on a key whose `prefixEnd` is missing or past a later key. -/
def CleanBoundaries (pfx : Option Bytes) (store : Keyspace) (start : Bytes)
    (stop : Option Bytes) (page : UInt8) : Prop :=
  let items := localScan pfx store start stop
  ∀ n item, items[(n + 1) * pageBudget store page - 1]? = some item →
    ∃ past, prefixEnd (hostedKey pfx item.1) = some past ∧
      ∀ e ∈ items, item.1 < e.1 → past ≤ hostedKey pfx e.1

theorem confined_bare (store : Keyspace) (start : Bytes) (stop : Option Bytes) :
    Confined none store start stop :=
  Or.inr fun _ _ _ => List.nil_prefix

/-- In a confined range every key from the start on is the sender's. -/
theorem confined_range {pfx : Option Bytes} {store : Keyspace} {start : Bytes}
    {stop : Option Bytes} (h : Confined pfx store start stop) {lo : Bytes}
    (hlo : hostedKey pfx start ≤ lo) :
    ∀ e ∈ store.range lo (stop.map (hostedKey pfx)), prefixBytes pfx <+: e.1 := by
  intro e he
  rw [hostedKey_eq] at hlo
  rcases h with hstop | hforeign
  · obtain ⟨s, rfl⟩ := Option.isSome_iff_exists.mp hstop
    rw [Option.map_some, hostedKey_eq] at he
    exact Keyspace.range_prefix hlo e he
  · rw [SortedMap.mem_range] at he
    refine hforeign e ((store.get_eq_some_iff _ _).mp he.1) ?_
    rw [hostedKey_eq]
    exact le_trans hlo he.2.1

/-- The page of a confined range is cut from the local scan. -/
theorem confined_page {pfx : Option Bytes} {store : Keyspace} {start : Bytes}
    {stop : Option Bytes} (h : Confined pfx store start stop) {lo : Bytes}
    (hlo : hostedKey pfx start ≤ lo) (budget : Nat) :
    pageAnswer pfx store stop budget (some lo)
      = some (((localScan pfx store start stop).filter
          (fun e => decide (lo ≤ hostedKey pfx e.1))).take budget) := by
  have hpre := confined_range h hlo
  have hmap : stop.map (hostedKey pfx) = stop.map (prefixBytes pfx ++ ·) := by
    cases stop <;> simp [hostedKey_eq]
  -- the range from `lo` is the range from the start, filtered
  have hlow : store.range lo (stop.map (hostedKey pfx))
      = (store.range (prefixBytes pfx ++ start) (stop.map (prefixBytes pfx ++ ·))).filter
          (fun e => decide (lo ≤ e.1)) := by
    rw [hmap]
    unfold SortedMap.range
    rw [List.filter_filter]
    refine List.filter_congr (fun e _ => ?_)
    rw [hostedKey_eq] at hlo
    by_cases hle : lo ≤ e.1
    · simp [hle, le_trans hlo hle]
    · simp [hle]
  have hall : ((store.range lo (stop.map (hostedKey pfx))).take budget).all
      (fun e => decide ((prefixBytes pfx).length ≤ e.1.length)) = true := by
    rw [List.all_eq_true]
    intro e he
    exact decide_eq_true (hpre e (List.mem_of_mem_take he)).length_le
  have hown : ∀ e ∈ store.range (prefixBytes pfx ++ start) (stop.map (prefixBytes pfx ++ ·)),
      prefixBytes pfx <+: e.1 := by
    have := @confined_range pfx store start stop h (hostedKey pfx start) (le_refl _)
    rwa [hmap, hostedKey_eq] at this
  simp only [pageAnswer, hall, if_true, Option.some.injEq]
  rw [List.map_take, hlow, localScan, ← Keyspace.range_under hown, List.filter_map]
  congr 2
  refine List.filter_congr (fun e he => ?_)
  obtain ⟨t, ht⟩ := hown e he
  simp only [Function.comp, stripEntry, hostedKey_eq, ← ht, List.drop_left]

/-- A boundary reads on exactly when no later key lies below its `prefixEnd`. -/
theorem pageReads_succ_iff {pfx : Option Bytes} {store : Keyspace} {start : Bytes}
    {stop : Option Bytes} {page : UInt8} (h : Confined pfx store start stop) {n : Nat}
    {item : Bytes × Bytes}
    (hitem : (localScan pfx store start stop)[(n + 1) * pageBudget store page - 1]? = some item) :
    PageReads pfx store stop page (some (hostedKey pfx start)) (localScan pfx store start stop)
        (n + 1) ↔
      ∃ past, prefixEnd (hostedKey pfx item.1) = some past ∧
        ∀ e ∈ localScan pfx store start stop, item.1 < e.1 → past ≤ hostedKey pfx e.1 := by
  have hpos := pageBudget_pos store page
  have hsorted : (localScan pfx store start stop).Pairwise (fun a b => a.1 < b.1) :=
    SortedMap.range_sorted _ _ _
  have hidx : (n + 1) * pageBudget store page - 1 + 1 = (n + 1) * pageBudget store page := by
    have : 0 < (n + 1) * pageBudget store page := Nat.mul_pos (by omega) hpos
    omega
  -- what the pages read so far leave is what lies above their last key
  have hrest := SortedMap.drop_succ_eq_filter hsorted hitem
  rw [hidx] at hrest
  have hge : hostedKey pfx start ≤ hostedKey pfx item.1 := by
    have hmem := List.mem_of_getElem? hitem
    rw [localScan, SortedMap.mem_range] at hmem
    rw [hostedKey_eq, hostedKey_eq]
    exact (append_le_append_iff _ _ _).mpr hmem.2.1
  simp only [PageReads, pageStart, hitem, Option.bind_some]
  cases hend : prefixEnd (hostedKey pfx item.1) with
  | none => simp [pageAnswer]
  | some past =>
    have hpast : hostedKey pfx item.1 < past := lt_prefixEnd_self hend
    rw [confined_page h (le_trans hge (le_of_lt hpast)), Option.some.injEq]
    refine ⟨fun heq => ⟨past, rfl, fun e he hlt => ?_⟩, fun hclean => ?_⟩
    · -- the first key of the page is not below `past`, and every later key is above it
      have hmem : e ∈ (localScan pfx store start stop).drop
          ((n + 1) * pageBudget store page) := by
        rw [hrest]
        exact List.mem_filter.mpr ⟨he, by simpa using hlt⟩
      have hsort := hsorted.drop (i := (n + 1) * pageBudget store page)
      obtain ⟨budget, hbudget⟩ : ∃ b, pageBudget store page = b + 1 :=
        ⟨pageBudget store page - 1, by omega⟩
      cases htail : (localScan pfx store start stop).drop ((n + 1) * pageBudget store page) with
      | nil => simp [htail] at hmem
      | cons f fs =>
        rw [htail] at heq hmem hsort
        rw [hbudget, List.take_succ_cons] at heq
        have hf : f ∈ (localScan pfx store start stop).filter
            (fun e => decide (past ≤ hostedKey pfx e.1)) := by
          apply List.mem_of_mem_take (i := budget + 1)
          rw [heq]
          exact List.mem_cons_self
        have hpf : past ≤ hostedKey pfx f.1 := of_decide_eq_true (List.mem_filter.mp hf).2
        have hfe : f.1 ≤ e.1 := by
          rcases List.mem_cons.mp hmem with rfl | hmem
          · exact le_refl _
          · exact le_of_lt ((List.pairwise_cons.mp hsort).1 e hmem)
        rw [hostedKey_eq] at hpf ⊢
        exact le_trans hpf ((append_le_append_iff _ _ _).mpr hfe)
    · -- nothing between the last key and `past`: the two cuts agree
      obtain ⟨past', hsome, hclean⟩ := hclean
      obtain rfl := Option.some.inj hsome
      rw [hrest]
      congr 1
      refine List.filter_congr (fun e he => decide_eq_decide.mpr ⟨fun hle => ?_, hclean e he⟩)
      have hlt := lt_of_lt_of_le hpast hle
      rw [hostedKey_eq, hostedKey_eq] at hlt
      exact (append_lt_append_iff _ _ _).mp hlt

/-- The keys of the local scan are below 4 GiB when the engine's are. -/
theorem localScan_fits {pfx : Option Bytes} {store : Keyspace} {start : Bytes} {stop : Option Bytes}
    (hfits : ScanFits store start stop) :
    ∀ e ∈ localScan pfx store start stop, e.1.length < 2 ^ 32 := by
  intro e he
  rw [localScan, SortedMap.mem_range, SortedMap.get_eq_some_iff, Keyspace.mem_under] at he
  have := hfits.keys _ he.1
  simp only [List.length_append] at this
  omega

/-- The first page is the head of the local scan. -/
theorem pageReads_zero {pfx : Option Bytes} {store : Keyspace} {start : Bytes} {stop : Option Bytes}
    {page : UInt8} (hconf : Confined pfx store start stop) :
    PageReads pfx store stop page (some (hostedKey pfx start)) (localScan pfx store start stop) 0 := by
  have hself : (localScan pfx store start stop).filter
      (fun e => decide (hostedKey pfx start ≤ hostedKey pfx e.1))
      = localScan pfx store start stop := by
    refine List.filter_eq_self.mpr (fun e he => decide_eq_true ?_)
    rw [localScan, SortedMap.mem_range] at he
    rw [hostedKey_eq, hostedKey_eq]
    exact (append_le_append_iff _ _ _).mpr he.2.1
  simp only [PageReads, pageStart, confined_page hconf (le_refl _), hself, Nat.zero_mul,
    List.drop_zero]

/-- Behind clean boundaries every page reads as the next one of the local scan. -/
theorem CleanBoundaries.pageReads {pfx : Option Bytes} {store : Keyspace} {start : Bytes}
    {stop : Option Bytes} {page : UInt8} (hclean : CleanBoundaries pfx store start stop page)
    (hconf : Confined pfx store start stop) {n : Nat}
    (hle : n * pageBudget store page ≤ (localScan pfx store start stop).length) :
    PageReads pfx store stop page (some (hostedKey pfx start)) (localScan pfx store start stop) n := by
  cases n with
  | zero => exact pageReads_zero hconf
  | succ n =>
    have hpos := pageBudget_pos store page
    have : 0 < (n + 1) * pageBudget store page := Nat.mul_pos (by omega) hpos
    have hitem := List.getElem?_eq_getElem (l := localScan pfx store start stop)
      (i := (n + 1) * pageBudget store page - 1) (by omega)
    exact (pageReads_succ_iff hconf hitem).mpr (hclean n _ hitem)

/-- **Remote iteration against the local scan.** For every engine content, range,
host prefix and page size, the iterator delivers the local scan exactly when each
page it asks for reads as the next page of that scan; and where no foreign key
lies in the range, that is the case exactly when no page boundary falls on a key
whose `prefixEnd` is missing or skips a later key. -/
theorem remoteScan_exact (pfx : Option Bytes) (store : Keyspace) (start : Bytes)
    (stop : Option Bytes) (page : UInt8) (hfits : ScanFits store start stop) :
    (Yields pfx store (remoteScan start stop page) (localScan pfx store start stop) ↔
      ∀ n, n * pageBudget store page ≤ (localScan pfx store start stop).length →
        PageReads pfx store stop page (some (hostedKey pfx start))
          (localScan pfx store start stop) n) ∧
    (Confined pfx store start stop →
      (Yields pfx store (remoteScan start stop page) (localScan pfx store start stop) ↔
        CleanBoundaries pfx store start stop page)) := by
  have hb : AtBoundary stop page (remoteScan start stop page) :=
    ⟨rfl, rfl, rfl, rfl, ⟨hfits.start, hfits.stop⟩⟩
  have hpages : Yields pfx store (remoteScan start stop page) (localScan pfx store start stop) ↔
      ∀ n, n * pageBudget store page ≤ (localScan pfx store start stop).length →
        PageReads pfx store stop page (some (hostedKey pfx start))
          (localScan pfx store start stop) n := yields_iff_pages hb (localScan_fits hfits)
  refine ⟨hpages, fun hconf => hpages.trans ⟨fun hp n item hitem => ?_, fun hclean n hle => ?_⟩⟩
  · have hlt := (List.getElem?_eq_some_iff.mp hitem).1
    exact (pageReads_succ_iff hconf hitem).mp (hp (n + 1) (by omega))
  · exact hclean.pageReads hconf hle

/-- Two tenants on one engine; the first owns `[1]` and `[2]`. -/
def twoTenants : Keyspace :=
  SortedMap.ofList [([9, 1], [10]), ([9, 2], [20]), ([10, 1], [30])]

/-- A bounded scan of the first tenant, one key a page, is exact. -/
theorem remoteScan_exact_bounded :
    Yields (some [9]) twoTenants (remoteScan [] (some [5]) 1) [([1], [10]), ([2], [20])] := by
  have hscan : localScan (some [9]) twoTenants [] (some [5]) = [([1], [10]), ([2], [20])] := by
    decide
  have hfits : ScanFits twoTenants [] (some [5]) := ⟨by decide, by decide, by decide⟩
  have hexact := (remoteScan_exact (some [9]) twoTenants [] (some [5]) 1 hfits).2 (Or.inl rfl)
  rw [hscan] at hexact
  refine hexact.mpr ?_
  intro n item hitem
  rw [hscan] at hitem ⊢
  have hbudget : pageBudget twoTenants 1 = 1 := by decide
  rw [hbudget, Nat.mul_one, Nat.add_sub_cancel] at hitem
  match n, hitem with
  | 0, hitem =>
    obtain rfl := Option.some.inj hitem
    exact ⟨[9, 2], by decide, by decide⟩
  | 1, hitem =>
    obtain rfl := Option.some.inj hitem
    exact ⟨[9, 3], by decide, by decide⟩

/-- A key and a key extending it, on a bare engine. -/
def extendedKey : Keyspace := SortedMap.ofList [([1], [7]), ([1, 0], [8])]

/-- **A page boundary skips the key that extends the last key of the page.** -/
theorem remoteScan_skips_extension :
    ¬ Yields none extendedKey (remoteScan [] none 1) (localScan none extendedKey [] none) := by
  intro h
  have hlocal : (localScan none extendedKey [] none)[1]? = some ([1, 0], [8]) := by decide
  have hremote : (RemoteScanIter.nth none extendedKey (remoteScan [] none 1) 1).isNone = true := by
    decide
  rw [h 1, hlocal] at hremote
  exact absurd hremote (by decide)

end Okm.Engine
