import Okm.Lib.Trace
import Okm.Engine.RemoteScan

/-!
# Remote iteration from both ends

`next` and `next_back` of a `RemoteScanIter` share one page buffer and one cursor,
and both refill with the page behind the cursor. An item from the back of the buffer
is the last of the range only when the last page has arrived, and a cursor moved to
it makes the walk ask again for what lies behind it.

`remote_ends` is what holds when every step back finds the last page: the items from
the front, what is left, and the items from the back in reverse are the local scan
throughout. `first_back_stops_short` is a step back that does not find it.
-/

namespace Okm.Engine

open Lib Wire VirtualStorage

/-- The end an item is taken from. -/
inductive End where
  | front
  | back
  deriving DecidableEq

namespace RemoteScanIter

variable {σ : Type} [VirtualStorage σ]

/-- One call on the iterator, at either end. -/
def call (pfx : Option Bytes) (s : RemoteScanIter × σ) :
    End → Except Panic (Option ScanItem × RemoteScanIter × σ)
  | .front => .ok (next pfx s.2 s.1)
  | .back => .ok (nextBack pfx s.2 s.1)

end RemoteScanIter

/-- What a run took from one end, in the order it was taken. -/
def taken (side : End) (past : List (End × Option ScanItem)) : List (Bytes × Bytes) :=
  past.filterMap fun entry => if entry.1 = side then entry.2.bind Except.toOption else none

theorem taken_snoc (side : End) (past : List (End × Option ScanItem)) (entry : End × Option ScanItem) :
    taken side (past ++ [entry]) = taken side past
      ++ (if entry.1 = side then entry.2.bind Except.toOption else none).toList := by
  unfold taken
  rw [List.filterMap_append]
  cases h : (if entry.1 = side then entry.2.bind Except.toOption else none) with
  | none => simp [h]
  | some item => simp [h]

section

variable (pfx : Option Bytes) (start : Bytes) (stop : Option Bytes) (page : UInt8)

/-- A step back finds the last page: it is in the buffer, or it is the one the step
asks for, because what is left does not fill a page. -/
def FindsLast (past : List (End × Option ScanItem)) (s : RemoteScanIter × Keyspace) : End → Prop
  | .front => True
  | .back => s.1.done = true ∨ s.1.buf = [] ∧
      (localScan pfx s.2 start stop).length
        < (taken .front past).length + pageBudget s.2 page

/-- What a run has come to: the items of both ends and what lies between them are the
local scan, no call failed, and the next one takes what comes next. -/
def BothEnds (past : List (End × Option ScanItem)) (s : RemoteScanIter × Keyspace) : Prop :=
  (∀ entry ∈ past, ∀ e, entry.2 ≠ some (.error e)) ∧
  ∃ rest, localScan pfx s.2 start stop = taken .front past ++ rest ++ (taken .back past).reverse ∧
    (RemoteScanIter.next pfx s.2 s.1).1 = rest.head?.map .ok ∧
    (FindsLast pfx start stop page past s .back →
      (RemoteScanIter.nextBack pfx s.2 s.1).1 = rest.getLast?.map .ok) ∧
    (rest = [] ↔ (RemoteScanIter.next pfx s.2 s.1).1 = none ∧
      (RemoteScanIter.nextBack pfx s.2 s.1).1 = none)

end

/-! ## Steps back -/

namespace RemoteScanIter

variable {pfx : Option Bytes} {store : Keyspace} {it : RemoteScanIter}

theorem nextBack_of_concat {x : Bytes × Bytes} {xs : List (Bytes × Bytes)}
    (hb : it.buf = xs ++ [x]) :
    nextBack pfx store it = (some (.ok x), { it with buf := xs, cursor := some x.1 }, store) := by
  simp [nextBack, nextBackLoop, consumeBack, hb]

theorem nextBack_of_done (hb : it.buf = []) (hd : it.done = true) :
    nextBack pfx store it = (none, it, store) := by
  simp [nextBack, nextBackLoop, hb, hd, consumeBack]

theorem nextBack_of_refill (hs : it.Sendable) (hb : it.buf = []) (hd : it.done = false)
    {hits : List (Bytes × Bytes)}
    (hp : pageAnswer pfx store it.stop (pageBudget store it.page) (it.resumeAt pfx) = some hits) :
    nextBack pfx store it = nextBack pfx store (it.loaded store hits) := by
  have hprog : ((it.loaded store hits).buf.isEmpty && !(it.loaded store hits).done) = false :=
    refill_progress hits
  have hleft : (it.buf.isEmpty && !it.done) = true := by simp [hb, hd]
  simp only [nextBack, nextBackLoop, hleft, if_true, refill_some hs hd hp, hprog,
    Bool.false_eq_true, if_false]

end RemoteScanIter

/-! ## The walk between its ends -/

section

open RemoteScanIter

variable {pfx : Option Bytes} {store : Keyspace} {start : Bytes} {stop : Option Bytes}
  {page : UInt8} {it : RemoteScanIter} {fronts backs : List (Bytes × Bytes)}

/-- Where a walk stands after taking `fronts` and `backs`. While pages are to come
nothing was taken from the back, and whole pages were asked for; with the last page
there, nothing is missing between the ends. -/
structure Between (pfx : Option Bytes) (store : Keyspace) (start : Bytes) (stop : Option Bytes)
    (page : UInt8) (fronts backs : List (Bytes × Bytes)) (it : RemoteScanIter) : Prop where
  stop_eq : it.stop = stop
  page_eq : it.page = page
  walking : it.done = false → backs = [] ∧ ∃ n,
    n * pageBudget store page ≤ (localScan pfx store start stop).length ∧
    fronts ++ it.buf = (localScan pfx store start stop).take (n * pageBudget store page) ∧
    (it.buf = [] → it.Sendable ∧ it.resumeAt pfx = pageStart pfx (pageBudget store page)
      (some (hostedKey pfx start)) (localScan pfx store start stop) n)
  finished : it.done = true →
    localScan pfx store start stop = fronts ++ it.buf ++ backs.reverse

theorem between_start (hfits : ScanFits store start stop) :
    Between pfx store start stop page [] [] (remoteScan start stop page) where
  stop_eq := rfl
  page_eq := rfl
  walking := fun _ => ⟨rfl, 0, by simp, by simp [remoteScan], fun _ =>
    ⟨⟨hfits.start, hfits.stop⟩, rfl⟩⟩
  finished := by
    intro h
    cases h

/-- **The page a step asks for** is the next one of the local scan; a short one is
the last. -/
theorem Between.refill (h : Between pfx store start stop page fronts backs it)
    (hconf : Confined pfx store start stop) (hclean : CleanBoundaries pfx store start stop page)
    (hbuf : it.buf = []) (hdone : it.done = false) :
    ∃ hits, it.Sendable ∧
      pageAnswer pfx store it.stop (pageBudget store it.page) (it.resumeAt pfx) = some hits ∧
      hits = ((localScan pfx store start stop).drop fronts.length).take (pageBudget store page) ∧
      Between pfx store start stop page fronts backs (it.loaded store hits) := by
  obtain ⟨hnone, n, hle, hfronts, hat⟩ := h.walking hdone
  obtain ⟨hsend, hresume⟩ := hat hbuf
  have hreads : PageReads pfx store stop page (some (hostedKey pfx start))
      (localScan pfx store start stop) n := hclean.pageReads hconf hle
  have hlen : fronts.length = n * pageBudget store page := by
    have hlen := congrArg List.length hfronts
    rw [hbuf, List.append_nil, List.length_take] at hlen
    omega
  have hprefix : fronts = (localScan pfx store start stop).take (n * pageBudget store page) := by
    rwa [hbuf, List.append_nil] at hfronts
  have hpage : (it.loaded store (((localScan pfx store start stop).drop
      (n * pageBudget store page)).take (pageBudget store page))).buf
      = ((localScan pfx store start stop).drop (n * pageBudget store page)).take
        (pageBudget store page) := by
    simp [loaded, hbuf]
  -- what was taken and the page are the pages up to this one
  have hnext : fronts ++ ((localScan pfx store start stop).drop (n * pageBudget store page)).take
      (pageBudget store page)
      = (localScan pfx store start stop).take ((n + 1) * pageBudget store page) := by
    rw [Nat.succ_mul, List.take_add, ← hprefix]
  rw [hlen]
  refine ⟨_, hsend, ?_, rfl, h.stop_eq, h.page_eq, ?_, ?_⟩
  · rw [h.stop_eq, h.page_eq, hresume]
    exact hreads
  · intro hmore
    have hfull : pageBudget store page ≤ (((localScan pfx store start stop).drop
        (n * pageBudget store page)).take (pageBudget store page)).length := by
      rw [loaded, h.page_eq] at hmore
      exact Nat.not_lt.mp (of_decide_eq_false hmore)
    rw [List.length_take, List.length_drop] at hfull
    have hpos := pageBudget_pos store page
    refine ⟨hnone, n + 1, by rw [Nat.succ_mul]; omega, by rw [hpage, hnext], ?_⟩
    intro hempty
    rw [hpage] at hempty
    have hzero := congrArg List.length hempty
    rw [List.length_take, List.length_drop, List.length_nil] at hzero
    omega
  · intro hlast
    have hshort : (((localScan pfx store start stop).drop
        (n * pageBudget store page)).take (pageBudget store page)).length
          < pageBudget store page := by
      rw [loaded, h.page_eq] at hlast
      exact of_decide_eq_true hlast
    rw [List.length_take, List.length_drop] at hshort
    rw [hpage, hnone, List.reverse_nil, List.append_nil, hnext, List.take_of_length_le]
    rw [Nat.succ_mul]
    omega

/-- The items between the ends: those in the buffer, and the pages to come. -/
def restOf (pfx : Option Bytes) (store : Keyspace) (start : Bytes) (stop : Option Bytes)
    (fronts : List (Bytes × Bytes)) (it : RemoteScanIter) : List (Bytes × Bytes) :=
  if it.done then it.buf else (localScan pfx store start stop).drop fronts.length

theorem Between.split (h : Between pfx store start stop page fronts backs it) :
    localScan pfx store start stop
      = fronts ++ restOf pfx store start stop fronts it ++ backs.reverse := by
  cases hd : it.done with
  | true =>
    rw [restOf, if_pos hd]
    exact h.finished hd
  | false =>
    obtain ⟨rfl, n, hle, hfronts, -⟩ := h.walking hd
    have hpre : fronts <+: localScan pfx store start stop := by
      refine List.IsPrefix.trans ⟨it.buf, hfronts⟩ (List.take_prefix _ _)
    obtain ⟨tail, htail⟩ := hpre
    rw [restOf, hd, if_neg Bool.false_ne_true, ← htail, List.drop_left]
    simp

/-- With something in the buffer, it is the front of what is left. -/
theorem Between.head (h : Between pfx store start stop page fronts backs it)
    {x : Bytes × Bytes} {xs : List (Bytes × Bytes)} (hb : it.buf = x :: xs) :
    (restOf pfx store start stop fronts it).head? = some x := by
  cases hd : it.done with
  | true =>
    rw [restOf, if_pos hd, hb]
    rfl
  | false =>
    obtain ⟨-, n, -, hfronts, -⟩ := h.walking hd
    have hpre : fronts ++ it.buf <+: localScan pfx store start stop := by
      rw [hfronts]
      exact List.take_prefix _ _
    obtain ⟨tail, htail⟩ := hpre
    rw [restOf, hd, if_neg Bool.false_ne_true, ← htail, hb, List.append_assoc, List.drop_left]
    rfl

/-- **An item from the front.** -/
theorem Between.takeFront (h : Between pfx store start stop page fronts backs it)
    (hfits : ScanFits store start stop) {x : Bytes × Bytes} {xs : List (Bytes × Bytes)}
    (hb : it.buf = x :: xs) :
    Between pfx store start stop page (fronts ++ [x]) backs
      { it with buf := xs, cursor := some x.1 } where
  stop_eq := h.stop_eq
  page_eq := h.page_eq
  walking := by
    intro hd
    obtain ⟨hnone, n, hle, hfronts, -⟩ := h.walking hd
    rw [hb] at hfronts
    refine ⟨hnone, n, hle, by rw [← hfronts, List.append_assoc]; rfl, ?_⟩
    intro hxs
    obtain rfl : xs = [] := hxs
    -- the item is the last of page `n`, so the cursor is where the next one starts
    have hlen := congrArg List.length hfronts
    rw [List.length_append, List.length_singleton, List.length_take] at hlen
    obtain ⟨m, rfl⟩ : ∃ m, n = m + 1 := by
      refine ⟨n - 1, ?_⟩
      rcases Nat.eq_zero_or_pos n with rfl | hn
      · rw [Nat.zero_mul] at hlen
        omega
      · omega
    have hitem : (localScan pfx store start stop)[(m + 1) * pageBudget store page - 1]? = some x := by
      have hget := congrArg List.getLast? hfronts
      rw [List.getLast?_concat, List.getLast?_eq_getElem?, List.length_take, List.getElem?_take,
        if_pos (by omega)] at hget
      rw [hget]
      congr 1
      omega
    refine ⟨⟨?_, ?_⟩, ?_⟩
    · exact localScan_fits hfits x (List.mem_of_getElem? hitem)
    · rw [h.stop_eq]
      exact hfits.stop
    · rw [pageStart, hitem]
      rfl
  finished := by
    intro hd
    rw [h.finished hd, hb]
    simp

/-- **An item from the back**, of the last page. -/
theorem Between.takeBack (h : Between pfx store start stop page fronts backs it)
    (hd : it.done = true) {x : Bytes × Bytes} {xs : List (Bytes × Bytes)}
    (hb : it.buf = xs ++ [x]) :
    Between pfx store start stop page fronts (backs ++ [x])
      { it with buf := xs, cursor := some x.1 } where
  stop_eq := h.stop_eq
  page_eq := h.page_eq
  walking := by
    intro hd'
    rw [show it.done = false from hd'] at hd
    cases hd
  finished := by
    intro _
    rw [h.finished hd, hb]
    simp

/-- **A step from the front** takes the first item of what is left. -/
theorem Between.next (h : Between pfx store start stop page fronts backs it)
    (hfits : ScanFits store start stop) (hconf : Confined pfx store start stop)
    (hclean : CleanBoundaries pfx store start stop page) :
    ∃ it', RemoteScanIter.next pfx store it
        = ((restOf pfx store start stop fronts it).head?.map .ok, it', store) ∧
      Between pfx store start stop page
        (fronts ++ (restOf pfx store start stop fronts it).head?.toList) backs it' := by
  cases hb : it.buf with
  | cons x xs =>
    rw [h.head hb, next_of_cons hb]
    exact ⟨_, rfl, h.takeFront hfits hb⟩
  | nil =>
    cases hd : it.done with
    | true =>
      have hrest : restOf pfx store start stop fronts it = [] := by rw [restOf, if_pos hd, hb]
      rw [hrest, next_of_done hb hd]
      refine ⟨it, rfl, ?_⟩
      rwa [List.head?_nil, Option.toList_none, List.append_nil]
    | false =>
      obtain ⟨hits, hsend, hp, hhits, hloaded⟩ := h.refill hconf hclean hb hd
      have hrest : restOf pfx store start stop fronts it
          = (localScan pfx store start stop).drop fronts.length := by
        rw [restOf, hd, if_neg Bool.false_ne_true]
      have hbuf : (it.loaded store hits).buf = hits := by simp [loaded, hb]
      have hpos := pageBudget_pos store page
      rw [next_of_refill hsend hb hd hp, hrest]
      cases hh : hits with
      | nil =>
        -- an empty page: nothing is left
        have hempty : (localScan pfx store start stop).drop fronts.length = [] := by
          rw [hh] at hhits
          rcases List.take_eq_nil_iff.mp hhits.symm with hzero | hnil
          · omega
          · exact hnil
        have hdone : (it.loaded store []).done = true := by
          rw [loaded, h.page_eq]
          exact decide_eq_true hpos
        rw [hh] at hloaded hbuf
        rw [hempty, next_of_done hbuf hdone]
        refine ⟨_, rfl, ?_⟩
        rwa [List.head?_nil, Option.toList_none, List.append_nil]
      | cons x xs =>
        rw [hh] at hloaded hbuf
        have hhead : ((localScan pfx store start stop).drop fronts.length).head? = some x := by
          rw [hh] at hhits
          have hfirst := congrArg List.head? hhits
          rw [List.head?_take, if_neg (by omega)] at hfirst
          exact hfirst.symm
        rw [hhead, next_of_cons hbuf]
        exact ⟨_, rfl, hloaded.takeFront hfits hbuf⟩

/-- **A step from the back** that finds the last page takes the last item of what is
left. -/
theorem Between.nextBack (h : Between pfx store start stop page fronts backs it)
    (hconf : Confined pfx store start stop) (hclean : CleanBoundaries pfx store start stop page)
    (hfinds : it.done = true ∨ it.buf = [] ∧
      (localScan pfx store start stop).length < fronts.length + pageBudget store page) :
    ∃ it', RemoteScanIter.nextBack pfx store it
        = ((restOf pfx store start stop fronts it).getLast?.map .ok, it', store) ∧
      Between pfx store start stop page fronts
        (backs ++ (restOf pfx store start stop fronts it).getLast?.toList) it' := by
  -- with the last page there, the back of the buffer is the back of the range
  have hfinal : ∀ {it : RemoteScanIter}, Between pfx store start stop page fronts backs it →
      it.done = true → ∃ it', RemoteScanIter.nextBack pfx store it
          = (it.buf.getLast?.map .ok, it', store) ∧
        Between pfx store start stop page fronts (backs ++ it.buf.getLast?.toList) it' := by
    intro it h hd
    rcases List.eq_nil_or_concat' it.buf with hb | ⟨xs, x, hb⟩
    · rw [nextBack_of_done hb hd, hb]
      refine ⟨it, rfl, ?_⟩
      rwa [List.getLast?_nil, Option.toList_none, List.append_nil]
    · rw [nextBack_of_concat hb, hb, List.getLast?_concat]
      exact ⟨_, rfl, h.takeBack hd hb⟩
  cases hd : it.done with
  | true =>
    rw [restOf, if_pos hd]
    exact hfinal h hd
  | false =>
    rcases hfinds with hdone | ⟨hb, hshort⟩
    · rw [hd] at hdone
      cases hdone
    · obtain ⟨hits, hsend, hp, hhits, hloaded⟩ := h.refill hconf hclean hb hd
      have hbuf : (it.loaded store hits).buf = hits := by simp [loaded, hb]
      have hall : hits = (localScan pfx store start stop).drop fronts.length := by
        rw [hhits, List.take_of_length_le]
        rw [List.length_drop]
        omega
      have hdone : (it.loaded store hits).done = true := by
        rw [loaded, h.page_eq]
        refine decide_eq_true ?_
        have hpos := pageBudget_pos store page
        rw [hall, List.length_drop]
        omega
      obtain ⟨it', hnext, hbetween⟩ := hfinal hloaded hdone
      rw [nextBack_of_refill hsend hb hd hp, restOf, hd, if_neg Bool.false_ne_true, ← hall]
      rw [hbuf] at hnext hbetween
      exact ⟨it', hnext, hbetween⟩

/-! ## Runs -/

/-- What a run keeps. -/
theorem between_run (hfits : ScanFits store start stop) (hconf : Confined pfx store start stop)
    (hclean : CleanBoundaries pfx store start stop page) {past : List (End × Option ScanItem)}
    {s : RemoteScanIter × Keyspace}
    (run : Trace (RemoteScanIter.call pfx) (FindsLast pfx start stop page)
      (remoteScan start stop page, store) past s) :
    s.2 = store ∧ (∀ entry ∈ past, ∀ e, entry.2 ≠ some (.error e)) ∧
      Between pfx store start stop page (taken .front past) (taken .back past) s.1 := by
  refine run.invariant (fun past s => s.2 = store ∧ (∀ entry ∈ past, ∀ e, entry.2 ≠ some (.error e)) ∧
      Between pfx store start stop page (taken .front past) (taken .back past) s.1) ?_ ?_
  · exact ⟨rfl, by simp, between_start hfits⟩
  · rintro past ⟨it, store'⟩ side answer ⟨it', store''⟩ ⟨rfl, hclear, h⟩ hmeets hok
    -- the answer is an item or nothing, whichever end it was asked for at
    have hkeep : ∀ item : Option (Bytes × Bytes), answer = item.map .ok →
        (∀ entry ∈ past ++ [(side, answer)], ∀ e, entry.2 ≠ some (.error e)) ∧
        answer.bind Except.toOption = item := by
      rintro item rfl
      constructor
      · intro entry hentry e
        rcases List.mem_append.mp hentry with hentry | hentry
        · exact hclear entry hentry e
        · rw [List.mem_singleton.mp hentry]
          cases item <;> simp
      · cases item <;> rfl
    cases side with
    | front =>
      obtain ⟨next, hnext, hbetween⟩ := h.next hfits hconf hclean
      have hcall := Except.ok.inj hok
      rw [show RemoteScanIter.next pfx store' it = _ from hnext] at hcall
      obtain ⟨rfl, hstate⟩ := Prod.mk.inj hcall
      obtain ⟨rfl, rfl⟩ := Prod.mk.inj hstate
      obtain ⟨hclear', hitem⟩ := hkeep _ rfl
      refine ⟨rfl, hclear', ?_⟩
      rw [taken_snoc, taken_snoc, if_pos rfl, if_neg (by intro h; cases h), hitem, Option.toList_none,
        List.append_nil]
      exact hbetween
    | back =>
      obtain ⟨next, hnext, hbetween⟩ := h.nextBack hconf hclean hmeets
      have hcall := Except.ok.inj hok
      rw [show RemoteScanIter.nextBack pfx store' it = _ from hnext] at hcall
      obtain ⟨rfl, hstate⟩ := Prod.mk.inj hcall
      obtain ⟨rfl, rfl⟩ := Prod.mk.inj hstate
      obtain ⟨hclear', hitem⟩ := hkeep _ rfl
      refine ⟨rfl, hclear', ?_⟩
      rw [taken_snoc, taken_snoc, if_pos rfl, if_neg (by intro h; cases h), hitem, Option.toList_none,
        List.append_nil]
      exact hbetween

/-- **Both ends of a remote iteration.** In every run whose steps back find the last
page, on a range no other tenant lies in and whose page boundaries are clean, what was
taken from the front, what is left and what was taken from the back are the local scan;
no call failed, and the next one takes the first or the last of what is left. -/
theorem remote_ends (hfits : ScanFits store start stop) (hconf : Confined pfx store start stop)
    (hclean : CleanBoundaries pfx store start stop page) {past : List (End × Option ScanItem)}
    {s : RemoteScanIter × Keyspace}
    (run : Trace (RemoteScanIter.call pfx) (FindsLast pfx start stop page)
      (remoteScan start stop page, store) past s) :
    BothEnds pfx start stop page past s := by
  obtain ⟨rfl, hclear, h⟩ := between_run hfits hconf hclean run
  obtain ⟨it, store⟩ := s
  replace h : Between pfx store start stop page (taken .front past) (taken .back past) it := h
  obtain ⟨front, hfront, -⟩ := h.next hfits hconf hclean
  have hback := fun hfinds => h.nextBack hconf hclean hfinds
  refine ⟨hclear, _, h.split, by rw [hfront], ?_, ?_, ?_⟩
  · intro hfinds
    obtain ⟨it', hit', -⟩ := hback hfinds
    rw [hit']
  · intro hnil
    -- nothing is left, so the page to come is short
    have hfinds : it.done = true ∨ it.buf = [] ∧ (localScan pfx store start stop).length
        < (taken .front past).length + pageBudget store page := by
      cases hd : it.done with
      | true => exact Or.inl rfl
      | false =>
        refine Or.inr ?_
        obtain ⟨hnone, n, -, hfronts, -⟩ := h.walking hd
        have hall := h.split
        rw [hnil, hnone, List.reverse_nil, List.append_nil, List.append_nil] at hall
        have hpos := pageBudget_pos store page
        have hlen := congrArg List.length hfronts
        rw [hall, List.length_append, List.length_take] at hlen
        exact ⟨List.eq_nil_of_length_eq_zero (by omega), by rw [hall]; omega⟩
    obtain ⟨it', hit', -⟩ := hback hfinds
    rw [hfront, hit', hnil]
    exact ⟨rfl, rfl⟩
  · rintro ⟨hnone, -⟩
    rw [hfront] at hnone
    cases hrest : restOf pfx store start stop (taken .front past) it with
    | nil => rfl
    | cons x xs =>
      rw [hrest] at hnone
      cases hnone

end

/-- A range of one page, from both ends until they meet. -/
theorem remote_ends_meet : ∃ past s, taken .front past = [([1], [10])] ∧
    taken .back past = [([2], [20])] ∧ BothEnds (some [9]) [] (some [5]) 0 past s := by
  have hfits : ScanFits twoTenants [] (some [5]) := ⟨by decide, by decide, by decide⟩
  have hclean : CleanBoundaries (some [9]) twoTenants [] (some [5]) 0 := by
    intro n item hitem
    have hlen := (List.getElem?_eq_some_iff.mp hitem).1
    have htwo : (localScan (some [9]) twoTenants [] (some [5])).length = 2 := by decide
    have hbudget : pageBudget twoTenants 0 = 256 := by decide
    rw [htwo, hbudget] at hlen
    omega
  have hfirst : FindsLast (some [9]) [] (some [5]) 0 []
      (remoteScan [] (some [5]) 0, twoTenants) .back := Or.inr ⟨rfl, by decide⟩
  have back : Trace (RemoteScanIter.call (some [9])) (FindsLast (some [9]) [] (some [5]) 0)
      (remoteScan [] (some [5]) 0, twoTenants)
      [(.back, (RemoteScanIter.nextBack (some [9]) twoTenants (remoteScan [] (some [5]) 0)).1)]
      (RemoteScanIter.nextBack (some [9]) twoTenants (remoteScan [] (some [5]) 0)).2 :=
    Trace.nil.snoc hfirst rfl
  have run := back.snoc (show FindsLast (some [9]) [] (some [5]) 0 _ _ .front from trivial) rfl
  exact ⟨_, _, by decide, by decide, remote_ends hfits (Or.inl rfl) hclean run⟩

/-! ## A range of more than one page -/

/-- One key more than a page holds. -/
def manyKeys : Keyspace where
  entries := (List.range 257).map fun n => (beBytes 2 n, [])
  sorted := by
    rw [List.pairwise_map]
    refine List.pairwise_lt_range.imp_of_mem ?_
    intro m n _ hn hlt
    have hlast := List.mem_range.mp hn
    exact beBytes_lt (by omega) hlt

/-- A scan of everything a bare host holds. -/
theorem localScan_bare (store : Keyspace) : localScan none store [] none = store.entries := by
  have hunder : (store.under []).entries = store.entries := by
    have hall : store.entries.filter (fun e => ([] : Bytes).isPrefixOf e.1) = store.entries :=
      List.filter_eq_self.mpr fun e _ => rfl
    show (store.entries.filter _).map (stripEntry []) = _
    rw [hall]
    exact List.map_id _
  show (store.under []).entries.filter _ = _
  rw [hunder]
  refine List.filter_eq_self.mpr ?_
  intro e _
  simp [nil_le]

/-- **The first step back stops short**: it takes the last key of the first page, with
another page to come. -/
theorem first_back_stops_short :
    (RemoteScanIter.nextBack none manyKeys (remoteScan [] none 0)).1 = some (.ok ([0, 255], [])) ∧
      (localScan none manyKeys [] none).getLast? = some ([1, 0], []) := by
  have hlocal := localScan_bare manyKeys
  have hreads : PageReads none manyKeys none 0 (some (hostedKey none []))
      (localScan none manyKeys [] none) 0 := pageReads_zero (confined_bare manyKeys [] none)
  have hsend : (remoteScan [] none 0).Sendable := ⟨by decide, by simp [remoteScan]⟩
  have hbudget : pageBudget manyKeys 0 = 256 := rfl
  have hentries : manyKeys.entries
      = (List.range (256 + 1)).map fun n => ((beBytes 2 n, []) : Bytes × Bytes) := rfl
  have hfirst : (localScan none manyKeys [] none).take 256
      = ((List.range 255).map fun n => (beBytes 2 n, [])) ++ [([0, 255], [])] := by
    rw [hlocal, hentries, ← List.map_take, List.take_range, show min 256 (256 + 1) = 255 + 1 from rfl, List.range_succ,
      List.map_append]
    rfl
  have hlast : (localScan none manyKeys [] none).getLast? = some ([1, 0], []) := by
    rw [hlocal, hentries, List.range_succ, List.map_append, List.map_singleton, List.getLast?_concat]
    rfl
  have hpage : pageAnswer none manyKeys none (pageBudget manyKeys 0)
      ((remoteScan [] none 0).resumeAt none)
        = some (((List.range 255).map fun n => (beBytes 2 n, [])) ++ [([0, 255], [])]) := by
    rw [← hfirst]
    simp only [PageReads, pageStart, hbudget, Nat.zero_mul, List.drop_zero] at hreads
    exact hreads
  have hbuf : ((remoteScan [] none 0).loaded manyKeys
      (((List.range 255).map fun n => (beBytes 2 n, [])) ++ [([0, 255], [])])).buf
        = ((List.range 255).map fun n => (beBytes 2 n, [])) ++ [([0, 255], [])] := rfl
  refine ⟨?_, hlast⟩
  rw [RemoteScanIter.nextBack_of_refill hsend rfl rfl hpage, RemoteScanIter.nextBack_of_concat hbuf]

end Okm.Engine
