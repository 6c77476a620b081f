import Okm.Engine.Nest

/-!
# Every frame is answered

`ExecCore::apply` promises one answer for every frame that decodes, and `None` only
for bytes that do not. `apply_answers` says when it keeps that: when every query the
loop comes to is served (`Serves`), which leaves out stream values of no known shape,
exclusive begins without an upper bound, and answers with a key shorter than the host's
prefix. `unanswered_frame` is a frame that writes and is not answered.

What a frame does to the engine is told by `CommitsTo`: the writes it has come to,
in order, in batches the engine acknowledged. A query sees those and nothing else,
and a frame of writes alone is one batch.
-/

namespace Okm.Engine

open Lib Wire VirtualStorage

variable {σ : Type} [VirtualStorage σ] {pfx : Option Bytes}

/-! ## The writes of a frame -/

def IsWrite (op : FrameOp) : Prop := op.1 = opPut ∨ op.1 = opDelete

/-- What one op adds to the batch. -/
def writeOf (pfx : Option Bytes) : FrameOp → List (Op Bytes Bytes)
  | (tag, key, value) =>
    if tag = opPut then [(hostedKey pfx key, some value)]
    else if tag = opDelete then [(hostedKey pfx key, none)]
    else []

def writesOf (pfx : Option Bytes) (ops : List FrameOp) : List (Op Bytes Bytes) :=
  ops.flatMap (writeOf pfx)

/-- The engine took these writes, in order, in batches it acknowledged. -/
inductive CommitsTo (engine : σ) : List (Op Bytes Bytes) → σ → Prop where
  | none : CommitsTo engine [] engine
  | batch {ops : List (Op Bytes Bytes)} {e e' : σ} {batch : Batch} :
      CommitsTo engine ops e → commitBatch e batch = (.ok (), e') →
      CommitsTo engine (ops ++ batch.ops) e'

/-- The answer of a frame that only has a batch to commit. -/
def commitAnswer : Except Error Unit × σ → Except Panic (Option OpResponse) × σ
  | (.ok (), engine) => (.ok (some {}), engine)
  | (.error e, engine) => (.ok (some { fault := some (errorText e) }), engine)

/-! ## Queries the host serves -/

/-- Every key an answer has to be cut from is at least as long as the prefix. -/
def LongKeys (pfx : Option Bytes) (keys : Except Error (List Bytes)) : Prop :=
  ∀ ks, keys = .ok ks → ∀ k ∈ ks, (prefixBytes pfx).length ≤ k.length

/-- The keys a page of this budget comes to. -/
def pageKeys : Option Nat → List ScanItem → List Bytes
  | _, [] => []
  | _, .error _ :: _ => []
  | budget, .ok (k, _) :: items =>
    k :: if budget = some 1 then [] else pageKeys (budget.map (· - 1)) items

def ScanServed (pfx : Option Bytes) (engine : σ) (key : Bytes) : Bytes → Prop
  | [0x00] => LongKeys pfx (scanRange engine (hostedKey pfx key) none)
  | 0x01 :: stop => LongKeys pfx (scanRange engine (hostedKey pfx key) (some (hostedKey pfx stop)))
  | _ => True

/-- A stream value of a known shape, a begin that has an upper bound when it is
exclusive, and a page of long keys. -/
def StreamServed (pfx : Option Bytes) (engine : σ) (key value : Bytes) : Prop :=
  ∃ page stop exclusive start, value.getLast? = some page ∧
    streamBounds pfx value = .ok (some (stop, exclusive)) ∧
    (if exclusive then prefixEnd (hostedKey pfx key) else some (hostedKey pfx key)) = some start ∧
    ∀ k ∈ pageKeys (pageWant page) (scanRangeIter engine start stop),
      (prefixBytes pfx).length ≤ k.length

def QueryServed (pfx : Option Bytes) (engine : σ) : FrameOp → Prop
  | (tag, key, value) =>
    if tag = opScan then ScanServed pfx engine key value
    else if tag = opScanStream then StreamServed pfx engine key value
    else True

/-- An op the host serves as it stands: a write, a query whose flush the engine
refuses (its fault is the answer), or a query served after the flush. -/
def Serves (pfx : Option Bytes) (s : ExecState σ) (op : FrameOp) : Prop :=
  IsWrite op ∨ ∀ s', flushPending s = (none, s') → QueryServed pfx s'.engine op

/-- Every op the loop comes to is served. -/
def Served (pfx : Option Bytes) : ExecState σ → List FrameOp → Prop
  | _, [] => True
  | s, op :: ops => Serves pfx s op ∧ ∀ s', execOp pfx s op = .next s' → Served pfx s' ops

/-! ## What a frame promises -/

/-- What a query finds: an engine that took the writes before it in its frame, and
nothing pending. -/
def FindsEarlier (pfx : Option Bytes) (engine : σ) (earlier : List FrameOp) (s : ExecState σ) : Prop :=
  ∀ s', flushPending s = (none, s') →
    CommitsTo engine (writesOf pfx earlier) s'.engine ∧ s'.batch.ops = []

/-- The promise of `apply`, on one engine and one byte string. -/
structure AllOrAnswered (pfx : Option Bytes) (engine : σ) (bytes : Bytes) : Prop where
  answered : ∀ frame, OpFrame.decode bytes = some frame →
    ∃ resp, (apply pfx engine bytes).1 = .ok (some resp)
  untouched : (apply pfx engine bytes).1 = .ok none → (apply pfx engine bytes).2 = engine
  oneBatch : ∀ frame, OpFrame.decode bytes = some frame → (∀ op ∈ frame.ops, IsWrite op) →
    apply pfx engine bytes = commitAnswer (commitBatch engine ⟨writesOf pfx frame.ops⟩)
  applied : ∀ frame resp, OpFrame.decode bytes = some frame → (∀ op ∈ frame.ops, IsWrite op) →
    (apply pfx engine bytes).1 = .ok (some resp) → resp.fault = none →
    CommitsTo engine (writesOf pfx frame.ops) (apply pfx engine bytes).2
  queries : ∀ frame earlier op later s, OpFrame.decode bytes = some frame →
    frame.ops = earlier ++ op :: later → ¬ IsWrite op →
    execOps pfx { engine } earlier = .next s → FindsEarlier pfx engine earlier s

/-! ## Frames that decode -/

theorem decodeOps_tags {count : Nat} {bytes rest : Bytes} {ops : List FrameOp}
    (h : OpFrame.decodeOps count bytes = some (ops, rest)) : ∀ op ∈ ops, op.1 ≤ opScanStream := by
  induction count generalizing bytes rest ops with
  | zero =>
    obtain ⟨rfl, -⟩ := Prod.mk.inj (Option.some.inj h)
    simp
  | succ count ih =>
    obtain ⟨⟨op, next⟩, hop, h⟩ := Option.bind_eq_some_iff.mp h
    obtain ⟨⟨more, rest'⟩, hmore, h⟩ := Option.bind_eq_some_iff.mp h
    obtain ⟨rfl, -⟩ := Prod.mk.inj (Option.some.inj h)
    intro o ho
    rcases List.mem_cons.mp ho with rfl | ho
    · -- the header was read before the tag was looked at
      obtain ⟨⟨⟨tag, klen, vlen⟩, body⟩, -, hop⟩ := Option.bind_eq_some_iff.mp hop
      dsimp only at hop
      split at hop
      · cases hop
      · rename_i htag
        obtain ⟨⟨key, body'⟩, -, hop⟩ := Option.bind_eq_some_iff.mp hop
        obtain ⟨⟨value, body''⟩, -, hop⟩ := Option.bind_eq_some_iff.mp hop
        obtain ⟨rfl, -⟩ := Prod.mk.inj (Option.some.inj hop)
        exact not_lt.mp htag
    · exact ih hmore o ho

/-- A frame that decodes has no unknown tag. -/
theorem decode_tags {bytes : Bytes} {frame : OpFrame} (h : OpFrame.decode bytes = some frame) :
    ∀ op ∈ frame.ops, op.1 ≤ opScanStream := by
  obtain ⟨⟨count, body⟩, -, h⟩ := Option.bind_eq_some_iff.mp h
  obtain ⟨⟨ops, rest⟩, hops, h⟩ := Option.bind_eq_some_iff.mp h
  obtain rfl := Option.some.inj h
  exact decodeOps_tags hops

/-- The tags of such a frame. -/
theorem tag_known {tag : UInt8} (h : tag ≤ opScanStream) : tag = opPut ∨ tag = opDelete ∨
    tag = opGet ∨ tag = opScan ∨ tag = opScanStream := by
  have key : ∀ n : Fin 5, UInt8.ofNat n.val = opPut ∨ UInt8.ofNat n.val = opDelete ∨
      UInt8.ofNat n.val = opGet ∨ UInt8.ofNat n.val = opScan ∨ UInt8.ofNat n.val = opScanStream := by
    decide
  have hle := UInt8.le_iff_toNat_le.mp h
  have hlt : tag.toNat < 5 := by
    change tag.toNat ≤ 4 at hle
    omega
  have hself : UInt8.ofNat tag.toNat = tag := UInt8.ofNat_toNat
  have hkey := key ⟨tag.toNat, hlt⟩
  rwa [hself] at hkey

/-! ## Scans and pages -/

theorem stripAll_ok {plen : Nat} {ks : List Bytes} :
    (∃ out, stripAll plen ks = .ok out) ↔ ∀ k ∈ ks, plen ≤ k.length := by
  induction ks with
  | nil => simp [stripAll]
  | cons k ks ih =>
    by_cases hk : plen ≤ k.length
    · rw [stripAll, sliceFrom, if_pos hk]
      simp only [bind, Except.bind, List.forall_mem_cons, hk, true_and, ← ih]
      cases stripAll plen ks <;> simp
    · rw [stripAll, sliceFrom, if_neg hk]
      simp [bind, Except.bind, hk]

theorem scanned_ok {engine : σ} {key value : Bytes} :
    (∃ answer, scanned pfx engine key value = .ok answer) ↔ ScanServed pfx engine key value := by
  unfold scanned ScanServed
  split
  · unfold LongKeys
    cases h : scanRange engine (hostedKey pfx key) none with
    | error e => simp [h]
    | ok ks =>
      simp only [h, Except.ok.injEq, forall_eq', ← stripAll_ok]
      cases stripAll (prefixBytes pfx).length ks <;> simp [Except.map]
  · rename_i stop
    unfold LongKeys
    cases h : scanRange engine (hostedKey pfx key) (some (hostedKey pfx stop)) with
    | error e => simp [h]
    | ok ks =>
      simp only [h, Except.ok.injEq, forall_eq', ← stripAll_ok]
      cases stripAll (prefixBytes pfx).length ks <;> simp [Except.map]
  · simp

/-- The page loop answers unless a key it comes to is short. -/
theorem pageLoop_answers {plen : Nat} {want : Option Nat} {pairs : List (Bytes × Bytes)}
    {items : List ScanItem} (hroom : ∀ w ∈ want, pairs.length < w) :
    (∃ answer, pageLoop plen want pairs items = .ok answer) ↔
      ∀ k ∈ pageKeys (want.map (· - pairs.length)) items, plen ≤ k.length := by
  induction items generalizing pairs with
  | nil => simp [pageLoop, pageKeys]
  | cons item items ih =>
    cases item with
    | error e => simp [pageLoop, pageKeys]
    | ok entry =>
      obtain ⟨k, v⟩ := entry
      by_cases hk : plen ≤ k.length
      · have hlen : (pairs ++ [(k.drop plen, v)]).length = pairs.length + 1 := by simp
        -- the page is full exactly when one more was wanted
        have hfull : some (pairs.length + 1) = want ↔ want.map (· - pairs.length) = some 1 := by
          cases want with
          | none => simp
          | some w =>
            have hw := hroom w rfl
            simp only [Option.some.injEq, Option.map_some]
            omega
        rw [pageLoop, sliceFrom, if_pos hk, pageKeys]
        simp only [bind, Except.bind, hlen]
        by_cases hwant : some (pairs.length + 1) = want
        · rw [if_pos hwant, if_pos (hfull.mp hwant)]
          simp [hk]
        · have hroom' : ∀ w ∈ want, (pairs ++ [(k.drop plen, v)]).length < w := by
            intro w hw
            have hlt := hroom w hw
            have hne : pairs.length + 1 ≠ w := fun h => hwant (h ▸ hw.symm)
            rw [hlen]
            omega
          have hbudget : (want.map (· - pairs.length)).map (· - 1)
              = want.map (· - (pairs ++ [(k.drop plen, v)]).length) := by
            rw [hlen]
            cases want with
            | none => rfl
            | some w => simp [Nat.sub_sub]
          rw [if_neg hwant, if_neg fun h => hwant (hfull.mpr h), ih hroom', hbudget]
          simp [hk]
      · rw [pageLoop, sliceFrom, if_neg hk, pageKeys]
        simp [bind, Except.bind, hk]

theorem pageWant_pos {page : UInt8} : ∀ w ∈ pageWant page, 0 < w := by
  intro w hw
  unfold pageWant at hw
  split at hw
  · cases hw
  split at hw
  · obtain rfl := Option.some.inj hw
    decide
  · rename_i hzero
    obtain rfl := Option.some.inj hw
    have hne : page.toNat ≠ 0 := fun h => hzero (UInt8.toNat_inj.mp h)
    omega

theorem streamPage_answers {engine : σ} {key : Bytes} {stop : Option Bytes} {exclusive : Bool}
    {page : UInt8} :
    (∃ answer, streamPage pfx engine key stop exclusive page = .ok answer) ↔
      ∃ start, (if exclusive then prefixEnd (hostedKey pfx key) else some (hostedKey pfx key))
          = some start ∧
        ∀ k ∈ pageKeys (pageWant page) (scanRangeIter engine start stop),
          (prefixBytes pfx).length ≤ k.length := by
  have hself : (pageWant page).map (· - ([] : List (Bytes × Bytes)).length) = pageWant page := by
    cases pageWant page <;> rfl
  have hloop : ∀ start, (∃ answer, pageLoop (prefixBytes pfx).length (pageWant page) []
        (scanRangeIter engine start stop) = .ok answer) ↔
      ∀ k ∈ pageKeys (pageWant page) (scanRangeIter engine start stop),
        (prefixBytes pfx).length ≤ k.length := by
    intro start
    have h : (∃ answer, pageLoop (prefixBytes pfx).length (pageWant page) []
      (scanRangeIter engine start stop) = .ok answer) ↔ _ := pageLoop_answers pageWant_pos
    rwa [hself] at h
  unfold streamPage
  cases hs : (if exclusive then prefixEnd (hostedKey pfx key) else some (hostedKey pfx key)) with
  | none => simp [hs]
  | some start =>
    simp only [hs, Option.some.injEq, exists_eq_left', ← hloop start]
    cases pageLoop (prefixBytes pfx).length (pageWant page) [] (scanRangeIter engine start stop) with
    | error p => simp [bind, Except.bind]
    | ok answer => simp [bind, Except.bind]

/-! ## What one op does -/

theorem writeOf_query {op : FrameOp} (h : ¬ IsWrite op) : writeOf pfx op = [] := by
  obtain ⟨tag, key, value⟩ := op
  simp only [IsWrite, not_or] at h
  rw [writeOf, if_neg h.1, if_neg h.2]

/-- A write only accumulates. -/
theorem execOp_write {op : FrameOp} (h : IsWrite op) (s : ExecState σ) :
    execOp pfx s op = .next { s with batch := ⟨s.batch.ops ++ writeOf pfx op⟩ } := by
  obtain ⟨tag, key, value⟩ := op
  rcases h with htag | htag
  · obtain rfl : tag = opPut := htag
    rfl
  · obtain rfl : tag = opDelete := htag
    rfl

variable (σ pfx) in
/-- A query runs behind the flush: served, it goes on with an answer in the response;
not served, it leaves the loop without one. -/
theorem execOp_query {op : FrameOp} (hquery : ¬ IsWrite op) (htag : op.1 ≤ opScanStream) :
    ∃ query : ExecState σ → ExecStep σ, (∀ s, execOp pfx s op = afterFlush s query) ∧
      ∀ s : ExecState σ,
        QueryServed pfx s.engine op ∧ (∃ resp, query s = .next { s with resp := resp }) ∨
        ¬ QueryServed pfx s.engine op ∧
          ∃ answer, query s = .stop s.engine answer ∧ ∀ resp, answer ≠ .ok (some resp) := by
  obtain ⟨tag, key, value⟩ := op
  rcases tag_known htag with rfl | rfl | rfl | rfl | rfl
  · exact absurd (Or.inl rfl) hquery
  · exact absurd (Or.inr rfl) hquery
  · -- a get is always answered
    refine ⟨_, fun s => rfl, ?_⟩
    intro s
    refine Or.inl ⟨trivial, ?_⟩
    cases get s.engine (hostedKey pfx key) with
    | ok value => exact ⟨_, rfl⟩
    | error e => exact ⟨_, rfl⟩
  · -- a scan is answered unless it slices a key that is too short
    refine ⟨_, fun s => rfl, ?_⟩
    intro s
    have hserved : QueryServed pfx s.engine (opScan, key, value) ↔ _ := scanned_ok.symm
    cases hscan : scanned pfx s.engine key value with
    | error p =>
      refine Or.inr ⟨?_, .error p, rfl, by simp⟩
      rw [hserved, hscan]
      simp
    | ok answer =>
      refine Or.inl ⟨hserved.mpr ⟨answer, hscan⟩, ?_⟩
      cases answer with
      | ok keys => exact ⟨_, rfl⟩
      | error e => exact ⟨_, rfl⟩
  · -- a page needs its size byte, its bounds and a start that exists
    refine ⟨_, fun s => rfl, ?_⟩
    intro s
    have hserved : QueryServed pfx s.engine (opScanStream, key, value) ↔
        StreamServed pfx s.engine key value := Iff.rfl
    rw [hserved, StreamServed]
    cases hlast : value.getLast? with
    | none => exact Or.inr ⟨by simp, .ok none, rfl, by simp⟩
    | some page =>
      cases hbounds : streamBounds pfx value with
      | error p => exact Or.inr ⟨by simp, .error p, rfl, by simp⟩
      | ok bounds =>
        cases bounds with
        | none => exact Or.inr ⟨by simp, .ok none, rfl, by simp⟩
        | some bounds =>
          obtain ⟨stop, exclusive⟩ := bounds
          have hpage : (∃ answer, streamPage pfx s.engine key stop exclusive page = .ok answer) ↔ _ :=
            streamPage_answers
          cases hanswer : streamPage pfx s.engine key stop exclusive page with
          | error p =>
            refine Or.inr ⟨?_, .error p, by simp only [hanswer], by simp⟩
            -- the bounds are those read, so the page would have answered
            rintro ⟨page', stop', exclusive', start, hp, hb, hstart, hlong⟩
            obtain rfl := Option.some.inj hp
            obtain ⟨rfl, rfl⟩ := Prod.mk.inj (Option.some.inj (Except.ok.inj hb))
            obtain ⟨answer, hok⟩ := hpage.mpr ⟨start, hstart, hlong⟩
            rw [hanswer] at hok
            cases hok
          | ok answer =>
            obtain ⟨pairs, fault, tail⟩ := answer
            obtain ⟨start, hstart, hlong⟩ := hpage.mp ⟨_, hanswer⟩
            refine Or.inl ⟨⟨page, stop, exclusive, start, rfl, rfl, hstart, hlong⟩, ?_⟩
            exact ⟨_, by simp only [hanswer]; rfl⟩

/-! ## The writes so far -/

/-- Of the writes before here, some are committed and the rest is pending. -/
def Pending (pfx : Option Bytes) (engine : σ) (earlier : List FrameOp) (s : ExecState σ) : Prop :=
  ∃ landed, writesOf pfx earlier = landed ++ s.batch.ops ∧ CommitsTo engine landed s.engine

theorem Pending.flush {engine : σ} {earlier : List FrameOp} {s s' : ExecState σ}
    (h : Pending pfx engine earlier s) (hflush : flushPending s = (none, s')) :
    CommitsTo engine (writesOf pfx earlier) s'.engine ∧ s'.batch.ops = [] := by
  obtain ⟨landed, hwrites, hcommits⟩ := h
  unfold flushPending at hflush
  split at hflush
  · rename_i hempty
    obtain ⟨-, rfl⟩ := Prod.mk.inj hflush
    rw [hempty, List.append_nil] at hwrites
    rw [hwrites]
    exact ⟨hcommits, hempty⟩
  · cases hcommit : commitBatch s.engine s.batch with
    | mk verdict engine' =>
      rw [hcommit] at hflush
      cases verdict with
      | error e =>
        obtain ⟨hfault, -⟩ := Prod.mk.inj hflush
        cases hfault
      | ok _ =>
        obtain ⟨-, rfl⟩ := Prod.mk.inj hflush
        rw [hwrites]
        exact ⟨hcommits.batch hcommit, rfl⟩

theorem writesOf_snoc (earlier : List FrameOp) (op : FrameOp) :
    writesOf pfx (earlier ++ [op]) = writesOf pfx earlier ++ writeOf pfx op := by
  rw [writesOf, List.flatMap_append, List.flatMap_cons, List.flatMap_nil, List.append_nil]
  rfl

/-- **One op** keeps the writes in order. -/
theorem Pending.step {engine : σ} {earlier : List FrameOp} {s s' : ExecState σ} {op : FrameOp}
    (h : Pending pfx engine earlier s) (htag : op.1 ≤ opScanStream)
    (hok : execOp pfx s op = .next s') : Pending pfx engine (earlier ++ [op]) s' := by
  rw [Pending, writesOf_snoc]
  by_cases hwrite : IsWrite op
  · obtain ⟨landed, hwrites, hcommits⟩ := h
    rw [execOp_write hwrite] at hok
    obtain rfl := ExecStep.next.inj hok
    exact ⟨landed, by rw [hwrites, List.append_assoc], hcommits⟩
  · obtain ⟨query, hexec, hquery⟩ := execOp_query σ pfx hwrite htag
    rw [writeOf_query hwrite, List.append_nil]
    rw [hexec, afterFlush] at hok
    cases hflush : flushPending s with
    | mk fault flushed =>
      rw [hflush] at hok
      cases fault with
      | some fault => cases hok
      | none =>
        dsimp only at hok
        obtain ⟨hcommits, hempty⟩ := h.flush hflush
        rcases hquery flushed with ⟨-, resp, hnext⟩ | ⟨-, answer, hstop, -⟩
        · rw [hnext] at hok
          obtain rfl := ExecStep.next.inj hok
          exact ⟨_, by rw [hempty, List.append_nil], hcommits⟩
        · rw [hstop] at hok
          cases hok

theorem pending_ops {engine : σ} {ops earlier : List FrameOp} {s s' : ExecState σ}
    (h : Pending pfx engine earlier s) (htags : ∀ op ∈ ops, op.1 ≤ opScanStream)
    (hok : execOps pfx s ops = .next s') : Pending pfx engine (earlier ++ ops) s' := by
  induction ops generalizing earlier s with
  | nil =>
    obtain rfl := ExecStep.next.inj hok
    rwa [List.append_nil]
  | cons op ops ih =>
    rw [execOps] at hok
    cases hop : execOp pfx s op with
    | stop engine' answer =>
      rw [hop] at hok
      cases hok
    | next s₁ =>
      rw [hop] at hok
      have hstep := h.step (htags op (by simp)) hop
      have hrest := ih hstep (fun o ho => htags o (by simp [ho])) hok
      rwa [List.append_assoc] at hrest

theorem pending_start (engine : σ) : Pending pfx engine [] { engine } := ⟨[], rfl, .none⟩

/-! ## Answered frames -/

/-- A served op goes on or answers; any other leaves the loop without an answer. -/
theorem execOp_answers {op : FrameOp} (htag : op.1 ≤ opScanStream) (s : ExecState σ) :
    Serves pfx s op ∧ ((∃ s', execOp pfx s op = .next s') ∨
      ∃ engine resp, execOp pfx s op = .stop engine (.ok (some resp))) ∨
    ¬ Serves pfx s op ∧
      ∃ engine answer, execOp pfx s op = .stop engine answer ∧ ∀ resp, answer ≠ .ok (some resp) := by
  by_cases hwrite : IsWrite op
  · exact Or.inl ⟨Or.inl hwrite, Or.inl ⟨_, execOp_write hwrite s⟩⟩
  · obtain ⟨query, hexec, hquery⟩ := execOp_query σ pfx hwrite htag
    rw [Serves, hexec, afterFlush]
    cases hflush : flushPending s with
    | mk fault flushed =>
      cases fault with
      | some fault =>
        -- the fault of the flush is the answer
        refine Or.inl ⟨Or.inr ?_, Or.inr ⟨_, _, rfl⟩⟩
        intro s' hs'
        cases (Prod.mk.inj hs').1
      | none =>
        dsimp only
        rcases hquery flushed with ⟨hserved, resp, hnext⟩ | ⟨hserved, answer, hstop, hno⟩
        · refine Or.inl ⟨Or.inr ?_, Or.inl ⟨_, hnext⟩⟩
          intro s' hs'
          obtain rfl := (Prod.mk.inj hs').2
          exact hserved
        · refine Or.inr ⟨?_, _, _, hstop, hno⟩
          rintro (h | h)
          · exact hwrite h
          · exact hserved (h flushed rfl)

/-- **The loop answers** exactly when every op it comes to is served. -/
theorem execOps_answers {ops : List FrameOp} (htags : ∀ op ∈ ops, op.1 ≤ opScanStream)
    (s : ExecState σ) :
    (∃ resp, (execFinish (execOps pfx s ops)).1 = .ok (some resp)) ↔ Served pfx s ops := by
  induction ops generalizing s with
  | nil =>
    simp only [execOps, execFinish, Served, iff_true]
    cases commitBatch s.engine s.batch with
    | mk verdict engine =>
      cases verdict with
      | ok _ => exact ⟨_, rfl⟩
      | error e => exact ⟨_, rfl⟩
  | cons op ops ih =>
    have hrest := fun s => ih (fun o ho => htags o (by simp [ho])) s
    rw [Served, execOps]
    rcases execOp_answers (htags op (by simp)) s with
      ⟨hserves, ⟨s', hnext⟩ | ⟨engine, resp, hstop⟩⟩ | ⟨hserves, engine, answer, hstop, hno⟩
    · rw [hnext]
      dsimp only
      rw [hrest s']
      constructor
      · intro h
        refine ⟨hserves, ?_⟩
        intro s₁ hs₁
        obtain rfl := ExecStep.next.inj hs₁
        exact h
      · intro h
        exact h.2 s' rfl
    · rw [hstop]
      refine iff_of_true ⟨resp, rfl⟩ ⟨hserves, ?_⟩
      intro s₁ hs₁
      cases hs₁
    · rw [hstop]
      refine iff_of_false ?_ fun h => hserves h.1
      rintro ⟨resp, hresp⟩
      exact hno resp hresp

/-! ## Frames of writes -/

theorem execOps_writes {ops : List FrameOp} (hwrites : ∀ op ∈ ops, IsWrite op) (s : ExecState σ) :
    execOps pfx s ops = .next { s with batch := ⟨s.batch.ops ++ writesOf pfx ops⟩ } := by
  induction ops generalizing s with
  | nil => simp [execOps, writesOf]
  | cons op ops ih =>
    rw [execOps, execOp_write (hwrites op (by simp))]
    dsimp only
    rw [ih fun o ho => hwrites o (by simp [ho])]
    simp [writesOf]

theorem execFinish_commit (engine : σ) (ops : List (Op Bytes Bytes)) :
    execFinish (.next { engine, batch := ⟨ops⟩ }) = commitAnswer (commitBatch engine ⟨ops⟩) := by
  rw [execFinish]
  cases commitBatch engine ⟨ops⟩ with
  | mk verdict engine =>
    cases verdict with
    | ok _ => rfl
    | error e => rfl

omit [VirtualStorage σ] in
/-- An answer without a fault acknowledges the batch. -/
theorem commitAnswer_ok {committed : Except Error Unit × σ} {resp : OpResponse}
    (h : (commitAnswer committed).1 = .ok (some resp)) (hfault : resp.fault = none) :
    committed = (.ok (), (commitAnswer committed).2) := by
  obtain ⟨verdict, engine⟩ := committed
  cases verdict with
  | ok _ => rfl
  | error e =>
    obtain rfl := Option.some.inj (Except.ok.inj h)
    cases hfault

/-- **Every frame is answered, or nothing of it is applied**, on an engine and a byte
string for which every op the loop comes to is served, and on no other. -/
theorem apply_answers (pfx : Option Bytes) (engine : σ) (bytes : Bytes) :
    AllOrAnswered pfx engine bytes ↔
      ∀ frame, OpFrame.decode bytes = some frame → Served pfx { engine } frame.ops := by
  have hdecoded : ∀ frame, OpFrame.decode bytes = some frame →
      apply pfx engine bytes = execFinish (execOps pfx { engine } frame.ops) := by
    intro frame hframe
    rw [apply, hframe]
    rfl
  constructor
  · intro h frame hframe
    have hanswer := h.answered frame hframe
    rw [hdecoded frame hframe] at hanswer
    exact (execOps_answers (decode_tags hframe) _).mp hanswer
  · intro hserved
    have hanswered : ∀ frame, OpFrame.decode bytes = some frame →
        ∃ resp, (apply pfx engine bytes).1 = .ok (some resp) := by
      intro frame hframe
      rw [hdecoded frame hframe]
      exact (execOps_answers (decode_tags hframe) _).mpr (hserved frame hframe)
    -- a frame of writes is one batch and one commit
    have hone : ∀ frame, OpFrame.decode bytes = some frame → (∀ op ∈ frame.ops, IsWrite op) →
        apply pfx engine bytes = commitAnswer (commitBatch engine ⟨writesOf pfx frame.ops⟩) := by
      intro frame hframe hwrites
      rw [hdecoded frame hframe, execOps_writes hwrites]
      exact execFinish_commit engine _
    refine ⟨hanswered, ?_, hone, ?_, ?_⟩
    · intro hnone
      cases hframe : OpFrame.decode bytes with
      | none =>
        rw [apply, hframe]
      | some frame =>
        obtain ⟨resp, hresp⟩ := hanswered frame hframe
        rw [hnone] at hresp
        cases hresp
    · intro frame resp hframe hwrites hresp hfault
      rw [hone frame hframe hwrites] at hresp ⊢
      exact CommitsTo.none.batch (commitAnswer_ok hresp hfault)
    · intro frame earlier op later s hframe hsplit _ hexec s' hflush
      -- what was written before a query is flushed as it stands
      have htags : ∀ op ∈ earlier, op.1 ≤ opScanStream := by
        intro op hop
        exact decode_tags hframe op (by rw [hsplit]; exact List.mem_append_left _ hop)
      exact (pending_ops (pending_start engine) htags hexec).flush hflush

/-- A write, and a page request without its value. -/
def emptyStream : OpFrame := ⟨[(opPut, [1], [7]), (opScanStream, [], [])]⟩

/-- **A frame that is applied and not answered.** -/
theorem unanswered_frame :
    OpFrame.decode emptyStream.encode = some emptyStream ∧
      (apply none (SortedMap.empty : Keyspace) emptyStream.encode).1 = .ok none ∧
      (apply none (SortedMap.empty : Keyspace) emptyStream.encode).2.get [1] = some [7] := by
  decide +kernel

end Okm.Engine
