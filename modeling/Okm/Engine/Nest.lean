import Okm.Wire.Frame

/-!
# The nested storage and its remote sender

The model of `engine/nest.rs`. The host side executes one frame at a time on an
engine it shares with other tenants, prepending its declared prefix to every key
it is given; the sender side is an engine whose every operation is one frame.
`ExecCore.apply` is the whole execution surface; `RemoteScanIter` is the paged
stream whose cursor lives on the sender.
-/

namespace Okm.Engine

open Lib Wire VirtualStorage

variable {σ : Type} [VirtualStorage σ]

/-- The text an error shows its reader. -/
def errorText : Error → String
  | .kindMismatch field want got =>
    "from_map: field `" ++ field ++ "` declares " ++ want ++ "; the map carries " ++ got
  | .valueOutOfRange field want got =>
    "from_map: field `" ++ field ++ "` declares " ++ want ++ "; the map carries " ++ got ++
      ", which cannot be represented"
  | .vocabularyExhausted width next =>
    "vocabulary exhausted: id #" ++ toString next ++ " does not fit a " ++ toString width ++
      "-byte vocabulary (ADR-0032) — widen the field's N or model the value as a String field"
  | .vocabularyRequired name =>
    "nested object requires the vocabulary (name `" ++ name ++
      "` unresolved) — use put_frame_named"
  | .layoutMismatch stored current =>
    let stamp := match stored with
      | some v => "Some(" ++ toString v ++ ")"
      | none => "None"
    "table layout mismatch: the store is stamped " ++ stamp ++ ", this build writes " ++
      toString current ++
      " — export the store with the build that stamped it, or delete it (ADR-0042)"
  | .edgeAlreadyLive edgeId => "edge_id " ++ toString edgeId ++ " already live"
  | .edgeNotFound edgeId => "unlink: edge_id " ++ toString edgeId ++ " not found"
  | .edgeNotMember side ns graphNs =>
    side ++ " ns " ++ toString ns ++ " is not a member of graph ns " ++ toString graphNs
  | .corrupt what => what
  | .scanThroughBatch =>
    "a BatchStore refuses scans: a batch's pending ops and the store's iterator cannot be" ++
      "          merged into one ordered view. Return to the store, read what you need, then" ++
      " open the          batch"
  | .engine text => text
  | .changelog what => "changelog: " ++ what

/-! ## The receiver -/

/-- The prefix bytes of a host; a bare shard has none. -/
def prefixBytes (pfx : Option Bytes) : Bytes := pfx.getD []

/-- Sender key to physical key: plain concatenation, or the key itself. -/
def hostedKey (pfx : Option Bytes) (senderKey : Bytes) : Bytes :=
  match pfx with
  | some p => p ++ senderKey
  | none => senderKey

/-- `k[plen..]`: slicing past the end aborts. -/
def sliceFrom (plen : Nat) (k : Bytes) : Except Panic Bytes :=
  if plen ≤ k.length then .ok (k.drop plen) else .error .slice

/-- What a frame has accumulated while its ops run. -/
structure ExecState (σ : Type) where
  engine : σ
  batch : Batch := {}
  resp : OpResponse := {}

/-- How an op leaves the loop: on to the next one, or out of the function with
the engine as it then is. -/
inductive ExecStep (σ : Type) where
  | next (s : ExecState σ)
  | stop (engine : σ) (answer : Except Panic (Option OpResponse))

/-- Commit what is pending, if anything; a refusal is the fault text. -/
def flushPending (s : ExecState σ) : Option String × ExecState σ :=
  if s.batch.ops = [] then (none, s)
  else
    match commitBatch s.engine s.batch with
    | (.ok (), engine) => (none, { s with engine, batch := {} })
    | (.error e, engine) => (some (errorText e), { s with engine, batch := {} })

/-- Run a query after the flush; a refused flush answers its fault at once. -/
def afterFlush (s : ExecState σ) (query : ExecState σ → ExecStep σ) : ExecStep σ :=
  match flushPending s with
  | (none, s) => query s
  | (some fault, s) => .stop s.engine (.ok (some { s.resp with fault := some fault }))

/-- The keys of a range answer, each made prefix-relative. -/
def stripAll (plen : Nat) : List Bytes → Except Panic (List Bytes)
  | [] => .ok []
  | k :: ks => do
    let k ← sliceFrom plen k
    let ks ← stripAll plen ks
    .ok (k :: ks)

/-- The scan an `OP_SCAN` value selects. `[0x00]` alone is a range without an
end, `[0x01][end]` a bounded range, anything else a prefix scan, whose answer is
relative to the physical key already. -/
def scanned (pfx : Option Bytes) (engine : σ) (key value : Bytes) :
    Except Panic (Except Error (List Bytes)) :=
  let hk := hostedKey pfx key
  let plen := (prefixBytes pfx).length
  let strip (ks : Except Error (List Bytes)) : Except Panic (Except Error (List Bytes)) :=
    match ks with
    | .ok ks => (stripAll plen ks).map .ok
    | .error e => .ok (.error e)
  match value with
  | [0x00] => strip (scanRange engine hk none)
  | 0x01 :: stop => strip (scanRange engine hk (some (hostedKey pfx stop)))
  | _ => .ok (scanSuffix engine hk)

/-- The page loop: collect stripped pairs until the page is full, the range ends
or an item is an error. -/
def pageLoop (plen : Nat) (want : Option Nat) (pairs : List (Bytes × Bytes)) :
    List ScanItem → Except Panic (List (Bytes × Bytes) × Option String)
  | [] => .ok (pairs, none)
  | .error e :: _ => .ok (pairs, some (errorText e))
  | .ok (k, v) :: items => do
    let k ← sliceFrom plen k
    let pairs := pairs ++ [(k, v)]
    if some pairs.length = want then .ok (pairs, none) else pageLoop plen want pairs items

/-- The page budget a request byte asks for; `none` is `usize::MAX`, a length no
vector reaches. -/
def pageWant (page : UInt8) : Option Nat :=
  if page = 0xFF then none
  else if page = 0 then some 256
  else some page.toNat

/-- The end span and the inclusivity a stream value carries between its flag and
its page byte. A bounded flag without room for the span aborts in the slice, an
unknown flag is `none`. -/
def streamBounds (pfx : Option Bytes) (value : Bytes) :
    Except Panic (Option (Option Bytes × Bool)) :=
  let span : Except Panic Bytes :=
    if 2 ≤ value.length then .ok ((value.drop 1).dropLast) else .error .span
  match value.head? with
  | some 0x00 => .ok (some (none, false))
  | some 0x01 => span.map fun stop => some (some (hostedKey pfx stop), false)
  | some 0x02 => span.map fun stop => some (some (hostedKey pfx stop), true)
  | some 0x03 => .ok (some (none, true))
  | _ => .ok none

/-- One page of a stream. An exclusive begin moves past the cursor with
`prefix_end`, and a cursor of `0xFF` bytes alone has no such bound. -/
def streamPage (pfx : Option Bytes) (engine : σ) (key : Bytes) (stop : Option Bytes)
    (exclusive : Bool) (page : UInt8) :
    Except Panic (List (Bytes × Bytes) × Option String × UInt8) := do
  let hk := hostedKey pfx key
  let start := if exclusive then prefixEnd hk else some hk
  match start with
  | none => .error .expect
  | some start => do
    let want := pageWant page
    let (pairs, fault) ←
      pageLoop (prefixBytes pfx).length want [] (scanRangeIter engine start stop)
    let tail := if some pairs.length = want then tailMore else tailFinal
    .ok (pairs, fault, tail)

/-- Execute one op of a frame. -/
def execOp (pfx : Option Bytes) (s : ExecState σ) : FrameOp → ExecStep σ
  | (tag, key, value) =>
    if tag = opPut then .next { s with batch := s.batch.put (hostedKey pfx key) value }
    else if tag = opDelete then .next { s with batch := s.batch.del (hostedKey pfx key) }
    else if tag = opGet then
      afterFlush s fun s =>
        match get s.engine (hostedKey pfx key) with
        | .ok value => .next { s with resp := { s.resp with value := value } }
        | .error e => .next { s with resp := { s.resp with fault := some (errorText e) } }
    else if tag = opScan then
      afterFlush s fun s =>
        match scanned pfx s.engine key value with
        | .error p => .stop s.engine (.error p)
        | .ok (.ok keys) => .next { s with resp := { s.resp with suffixes := keys } }
        | .ok (.error e) =>
          .next { s with resp := { s.resp with suffixes := [], fault := some (errorText e) } }
    else if tag = opScanStream then
      afterFlush s fun s =>
        match value.getLast? with
        | none => .stop s.engine (.ok none)
        | some page =>
          match streamBounds pfx value with
          | .error p => .stop s.engine (.error p)
          | .ok none => .stop s.engine (.ok none)
          | .ok (some (stop, exclusive)) =>
            match streamPage pfx s.engine key stop exclusive page with
            | .error p => .stop s.engine (.error p)
            | .ok (pairs, fault, tail) =>
              .next { s with resp := { s.resp with
                hits := pairs, tail := some tail, fault := fault.or s.resp.fault } }
    else .stop s.engine (.ok none)

/-- The ops of a frame in order; the loop ends early where an op stops it. -/
def execOps (pfx : Option Bytes) (s : ExecState σ) : List FrameOp → ExecStep σ
  | [] => .next s
  | op :: ops =>
    match execOp pfx s op with
    | .next s => execOps pfx s ops
    | .stop engine answer => .stop engine answer

/-- The tail of `apply`: the mutations still pending land as one write. -/
def execFinish : ExecStep σ → Except Panic (Option OpResponse) × σ
  | .stop engine answer => (answer, engine)
  | .next s =>
    match commitBatch s.engine s.batch with
    | (.ok (), engine) => (.ok (some s.resp), engine)
    | (.error e, engine) => (.ok (some { s.resp with fault := some (errorText e) }), engine)

/-- `ExecCore::apply` on a decoded frame. -/
def applyFrame (pfx : Option Bytes) (engine : σ) (frame : OpFrame) :
    Except Panic (Option OpResponse) × σ :=
  execFinish (execOps pfx { engine } frame.ops)

/-- `ExecCore::apply`: a frame that does not decode answers nothing. -/
def apply (pfx : Option Bytes) (engine : σ) (bytes : Bytes) :
    Except Panic (Option OpResponse) × σ :=
  match OpFrame.decode bytes with
  | some frame => applyFrame pfx engine frame
  | none => (.ok none, engine)

/-! ## The sender -/

/-- `RemoteStore::round_trip` over the reference transport: the pump turns a
panic of the host into a fault, and a frame without an answer drops the reply
box. -/
def roundTrip (pfx : Option Bytes) (engine : σ) (frame : OpFrame) :
    Except Error OpResponse × σ :=
  match apply pfx engine frame.encode with
  | (.ok (some resp), engine) =>
    match resp.fault with
    | some fault => (.error (.engine fault), engine)
    | none => (.ok resp, engine)
  | (.ok none, engine) =>
    (.error (.engine "nest reply missing: receiving on a closed channel"), engine)
  | (.error _, engine) =>
    (.error (.engine "nest: the host panicked while applying the frame"), engine)

/-- The value segment of a page request: flag, end bytes, page byte. -/
def streamValue (stop : Option Bytes) (exclusive : Bool) (page : UInt8) : Bytes :=
  let flag : UInt8 := match exclusive, stop.isSome with
    | true, true => 0x02
    | true, false => 0x03
    | false, true => 0x01
    | false, false => 0x00
  flag :: stop.getD [] ++ [page]

/-- The paged stream iterator: the drained page, the last consumed key, and
whether the last chunk was final. The host it talks to is passed to each step. -/
structure RemoteScanIter where
  start : Bytes
  stop : Option Bytes
  page : UInt8
  buf : List (Bytes × Bytes) := []
  cursor : Option Bytes := none
  done : Bool := false
  deriving DecidableEq, Repr

namespace RemoteScanIter

/-- Request one page and append its hits. The cursor is taken, the start bytes
are used up by the first request. -/
def refill (pfx : Option Bytes) (engine : σ) (it : RemoteScanIter) :
    Except Error Unit × RemoteScanIter × σ :=
  if it.done then (.ok (), it, engine)
  else
    let exclusive := it.cursor.isSome
    let start := it.cursor.getD it.start
    let it := if exclusive then { it with cursor := none } else { it with start := [] }
    let frame := OpFrame.one opScanStream start (streamValue it.stop exclusive it.page)
    match roundTrip pfx engine frame with
    | (.error e, engine) => (.error e, it, engine)
    | (.ok resp, engine) =>
      (.ok (), { it with done := resp.tail != some tailMore, buf := it.buf ++ resp.hits }, engine)

/-- Hand out the front of the buffer and move the cursor to it. -/
def consumeFront (it : RemoteScanIter) : Option (Bytes × Bytes) × RemoteScanIter :=
  match it.buf with
  | [] => (none, it)
  | item :: buf => (some item, { it with buf, cursor := some item.1 })

/-- The loop of `next`: refill while the buffer is empty and the walk goes on.
A refill fills the buffer, ends the walk or fails, so the loop body runs at most
once and the fuel of `next` is enough (`refill_progress`). -/
def nextLoop (pfx : Option Bytes) (engine : σ) (it : RemoteScanIter) :
    Nat → Option ScanItem × RemoteScanIter × σ
  | 0 => (none, it, engine)
  | fuel + 1 =>
    if it.buf.isEmpty && !it.done then
      match refill pfx engine it with
      | (.error e, it, engine) => (some (.error e), { it with done := true }, engine)
      | (.ok (), it, engine) => nextLoop pfx engine it fuel
    else
      let (item, it) := it.consumeFront
      (item.map .ok, it, engine)

/-- One call of `Iterator::next`. -/
def next (pfx : Option Bytes) (engine : σ) (it : RemoteScanIter) :
    Option ScanItem × RemoteScanIter × σ :=
  nextLoop pfx engine it 2

/-- Hand out the back of the buffer and move the cursor to it. -/
def consumeBack (it : RemoteScanIter) : Option (Bytes × Bytes) × RemoteScanIter :=
  match it.buf.getLast? with
  | none => (none, it)
  | some item => (some item, { it with buf := it.buf.dropLast, cursor := some item.1 })

/-- The loop of `next_back`: the one of `next`, up to the end it takes from. -/
def nextBackLoop (pfx : Option Bytes) (engine : σ) (it : RemoteScanIter) :
    Nat → Option ScanItem × RemoteScanIter × σ
  | 0 => (none, it, engine)
  | fuel + 1 =>
    if it.buf.isEmpty && !it.done then
      match refill pfx engine it with
      | (.error e, it, engine) => (some (.error e), { it with done := true }, engine)
      | (.ok (), it, engine) => nextBackLoop pfx engine it fuel
    else
      let (item, it) := it.consumeBack
      (item.map .ok, it, engine)

/-- One call of `DoubleEndedIterator::next_back`. -/
def nextBack (pfx : Option Bytes) (engine : σ) (it : RemoteScanIter) :
    Option ScanItem × RemoteScanIter × σ :=
  nextBackLoop pfx engine it 2

/-- What call number `n` of `next` answers, counting from zero. -/
def nth (pfx : Option Bytes) (engine : σ) (it : RemoteScanIter) : Nat → Option ScanItem
  | 0 => (next pfx engine it).1
  | n + 1 =>
    let (_, it, engine) := next pfx engine it
    nth pfx engine it n

end RemoteScanIter

/-- `RemoteStore::scan_range_iter` at a chosen page size. -/
def remoteScan (start : Bytes) (stop : Option Bytes) (page : UInt8) : RemoteScanIter :=
  { start, stop, page }

end Okm.Engine
