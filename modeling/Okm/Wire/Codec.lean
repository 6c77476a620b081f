import Okm.Lib.Positions
import Okm.Wire.Grammar

/-!
# The codec as the source walks it

The encoder of `OpResponse`, and the decoders as the source writes them: a position moved
over the whole frame, with the index, the span and the sums that could abort. `follows_…`
ties each to the reader that takes its input off the front, so none aborts on any frame.

`wire_codec` gathers what the codec owes. Of that a request frame keeps all but one thing:
its decoder stops behind the last op and does not look at what follows, where both answer
decoders refuse it.
-/

namespace Okm.Wire

open Lib Model Positioned

/-! ## Answers out -/

def putBytes (b : Bytes) : Bytes := putLen b.length ++ b

/-- The value in front of either shape. -/
def putValue : Option Bytes → Bytes
  | some v => 1 :: putBytes v
  | none => [0]

namespace OpResponse

/-- `OpResponse::encode`. -/
def encode (r : OpResponse) : Bytes :=
  match r.fault with
  | some fault => faultCode :: putBytes (strBytes fault)
  | none =>
    match r.tail with
    | some tail => putValue r.value ++ putLen r.hits.length
      ++ r.hits.flatMap (fun hit => putBytes hit.1 ++ putBytes hit.2) ++ [tail]
    | none => putValue r.value ++ putLen r.suffixes.length ++ r.suffixes.flatMap putBytes

/-- A plain answer: a value and suffixes. -/
def Plain (r : OpResponse) : Prop := r.hits = [] ∧ r.tail = none ∧ r.fault = none

/-- A chunk: a value and a page of hits, with its tail byte. -/
def Chunk (r : OpResponse) : Prop :=
  r.suffixes = [] ∧ (r.tail = some tailMore ∨ r.tail = some tailFinal) ∧ r.fault = none

/-- A fault carries nothing else. -/
def Fault (r : OpResponse) : Prop := ∃ text, r = { fault := some text }

/-- What the length prefixes of an answer can express. -/
structure Fits (r : OpResponse) : Prop where
  value : ∀ v, r.value = some v → v.length < 2 ^ 32
  suffixes : r.suffixes.length < 2 ^ 32
  suffix : ∀ s ∈ r.suffixes, s.length < 2 ^ 32
  hits : r.hits.length < 2 ^ 32
  hit : ∀ h ∈ r.hits, h.1.length < 2 ^ 32 ∧ h.2.length < 2 ^ 32
  fault : ∀ text, r.fault = some text → (strBytes text).length < 2 ^ 32

end OpResponse

/-- **A length is spelled by its own bucket.** -/
theorem lenCode_putLen {n : Nat} (h : n < 2 ^ 32) : LenCode (putLen n) n := by
  have hread := getLen_putLen h []
  obtain ⟨chunk, hcode, heq⟩ := (parses_getLen _ _ _).mp hread
  rw [List.append_nil, List.append_nil] at heq
  rwa [heq]

theorem bytesCode_putBytes {b : Bytes} (h : b.length < 2 ^ 32) : BytesCode (putBytes b) b :=
  ⟨putLen b.length, lenCode_putLen h, rfl⟩

/-- A list written item by item is spelled item by item. -/
theorem spell_flatMap {α : Type} {G : Bytes → α → Prop} {put : α → Bytes} {as : List α}
    (h : ∀ a ∈ as, G (put a) a) : Spell G (as.flatMap put) as := by
  induction as with
  | nil => exact .nil
  | cons a as ih =>
    rw [List.flatMap_cons]
    exact .cons (h a List.mem_cons_self) (ih fun b hb => h b (List.mem_cons_of_mem a hb))

namespace OpResponse

theorem valueCode_putValue {value : Option Bytes} (h : ∀ v, value = some v → v.length < 2 ^ 32) :
    ValueCode (putValue value) value := by
  cases value with
  | none => exact .absent
  | some v => exact .present (bytesCode_putBytes (h v rfl))

theorem Fault.encoded {r : OpResponse} (h : r.Fault) (hfits : r.Fits) :
    ∃ text, r = { fault := some text } ∧ BytesCode (putBytes (strBytes text)) (strBytes text) ∧
      r.encode = faultCode :: putBytes (strBytes text) := by
  obtain ⟨text, rfl⟩ := h
  exact ⟨text, rfl, bytesCode_putBytes (hfits.fault text rfl), rfl⟩

/-- **A plain answer and a fault survive the codec.** -/
theorem decode_encode {r : OpResponse} (h : r.Plain ∨ r.Fault) (hfits : r.Fits) :
    decode r.encode = some r := by
  rw [decode_iff]
  rcases h with ⟨hhits, htail, hfault⟩ | h
  · obtain ⟨value, suffixes, hits, tail, fault⟩ := r
    obtain rfl : hits = [] := hhits
    obtain rfl : tail = none := htail
    obtain rfl : fault = none := hfault
    have hlist : Spell BytesCode (suffixes.flatMap putBytes) suffixes :=
      spell_flatMap fun s hs => bytesCode_putBytes (hfits.suffix s hs)
    exact .plain (valueCode_putValue hfits.value) (lenCode_putLen hfits.suffixes) hlist
  · obtain ⟨text, rfl, hbytes, hencode⟩ := h.encoded hfits
    rw [hencode]
    exact .fault hbytes

/-- **A chunk and a fault survive the chunk codec.** -/
theorem decodeChunk_encode {r : OpResponse} (h : r.Chunk ∨ r.Fault) (hfits : r.Fits) :
    decodeChunk r.encode = some r := by
  rw [decodeChunk_iff]
  rcases h with ⟨hsuffixes, htail, hfault⟩ | h
  · obtain ⟨value, suffixes, hits, tail, fault⟩ := r
    obtain rfl : suffixes = [] := hsuffixes
    obtain rfl : fault = none := hfault
    have hlist : Spell HitCode (hits.flatMap fun hit => putBytes hit.1 ++ putBytes hit.2) hits :=
      spell_flatMap fun hit hhit =>
        ⟨_, _, bytesCode_putBytes (hfits.hit hit hhit).1, bytesCode_putBytes (hfits.hit hit hhit).2,
          rfl⟩
    have hpage : ∀ t, t = tailMore ∨ t = tailFinal → tail = some t →
        ChunkCode (encode ⟨value, [], hits, tail, none⟩) ⟨value, [], hits, tail, none⟩ := by
      rintro t ht rfl
      exact .page (valueCode_putValue hfits.value) (lenCode_putLen hfits.hits) hlist ht
    rcases htail with htail | htail
    · exact hpage tailMore (Or.inl rfl) htail
    · exact hpage tailFinal (Or.inr rfl) htail
  · obtain ⟨text, rfl, hbytes, hencode⟩ := h.encoded hfits
    rw [hencode]
    exact .fault hbytes

end OpResponse

/-! ## The decoders as positions -/

/-- `get_len`. -/
def getLenAt : Positioned Panic UInt8 Nat := do
  let first ← nextByte .slice
  let selector := first >>> 6
  let high := (first &&& 0x3f).toNat
  if selector = lenInline then pure high
  else if selector = lenU8 then do
    let rest ← getByte .overflow
    pure (high * 2 ^ 8 + rest.toNat)
  else if selector = lenU16 then do
    let rest ← getFront .overflow 2
    pure (high * 2 ^ 16 + beNat rest)
  else do
    let rest ← getFront .overflow 4
    pure (beNat rest)

/-- `get_op_header`. -/
def getOpHeaderAt : Positioned Panic UInt8 (UInt8 × Nat × Nat) := do
  let byte ← nextByte .slice
  let keyLen ← getLenAt
  let valueLen ← getLenAt
  pure (byte >>> 4, keyLen, valueLen)

/-- A length and so many bytes. -/
def decodeBytesAt : Positioned Panic UInt8 Bytes := do
  let len ← getLenAt
  takeSpan .span len

/-- A whole frame from its first byte: what was read, without the position. -/
def fromStart {α : Type} (x : Positioned Panic UInt8 α) (frame : Bytes) :
    Except Panic (Option α) :=
  (x.runAt frame 0).map (Option.map Prod.fst)

namespace OpFrame

def decodeOpAt : Positioned Panic UInt8 FrameOp := do
  let (tag, klen, vlen) ← getOpHeaderAt
  if tag > opScanStream then refuse
  else do
    let key ← takeSpan .span klen
    let value ← takeSpan .span vlen
    pure (tag, key, value)

/-- `OpFrame::decode`. -/
def decodeAt : Bytes → Except Panic (Option OpFrame) := fromStart do
  let count ← getLenAt
  let ops ← decodeOpAt.rounds count
  pure ⟨ops⟩

end OpFrame

namespace OpResponse

/-- The arm of a fault frame. -/
def decodeFaultAt : Positioned Panic UInt8 OpResponse := do
  let bytes ← decodeBytesAt
  expectEnd
  match strOfBytes bytes with
  | none => refuse
  | some text => pure { fault := some text }

/-- The arms of a value. -/
def decodeValueAt (code : UInt8) : Positioned Panic UInt8 (Option Bytes) :=
  if code = 0 then pure none
  else if code = 1 then do
    let v ← decodeBytesAt
    pure (some v)
  else refuse

/-- `OpResponse::decode`. -/
def decodeAt : Bytes → Except Panic (Option OpResponse) := fromStart do
  let code ← getByte .overflow
  if code = faultCode then decodeFaultAt
  else do
    let value ← decodeValueAt code
    let count ← getLenAt
    let suffixes ← decodeBytesAt.rounds count
    expectEnd
    pure { value := value, suffixes := suffixes }

def decodeHitAt : Positioned Panic UInt8 (Bytes × Bytes) := do
  let k ← decodeBytesAt
  let v ← decodeBytesAt
  pure (k, v)

/-- `OpResponse::decode_chunk`. -/
def decodeChunkAt : Bytes → Except Panic (Option OpResponse) := fromStart do
  let code ← getByte .overflow
  if code = faultCode then decodeFaultAt
  else do
    let value ← decodeValueAt code
    let count ← getLenAt
    let hits ← decodeHitAt.rounds count
    let tail ← lastByte .overflow fun tail => tail = tailMore ∨ tail = tailFinal
    pure { value := value, hits := hits, tail := some tail }

end OpResponse

/-! ## No decoder aborts -/

theorem follows_getLenAt : Follows getLenAt getLen := by
  have hbehind : ∀ first : UInt8, Follows
      (if first >>> 6 = lenInline then (pure (first &&& 0x3f).toNat : Positioned Panic UInt8 Nat)
        else if first >>> 6 = lenU8 then do
          let rest ← getByte .overflow
          pure ((first &&& 0x3f).toNat * 2 ^ 8 + rest.toNat)
        else if first >>> 6 = lenU16 then do
          let rest ← getFront .overflow 2
          pure ((first &&& 0x3f).toNat * 2 ^ 16 + beNat rest)
        else do
          let rest ← getFront .overflow 4
          pure (beNat rest))
      fun bs => getLen (first :: bs) := by
    intro first
    unfold getLen
    dsimp only
    split
    · exact follows_pure _
    split
    · refine ((follows_getByte Panic.overflow).map fun rest => (first &&& 0x3f).toNat * 2 ^ 8
        + rest.toNat).congr rfl ?_
      intro bs
      cases bs with
      | nil => rfl
      | cons b bs => simp [take, uncons, beNat]
    split
    · exact (follows_getFront Panic.overflow 2).map fun rest => (first &&& 0x3f).toNat * 2 ^ 16 + beNat rest
    · exact (follows_getFront Panic.overflow 4).map beNat
  refine ((follows_nextByte .slice).bind hbehind).congr rfl ?_
  intro bs
  cases bs <;> rfl

theorem follows_decodeBytesAt : Follows decodeBytesAt decodeBytes :=
  follows_getLenAt.bind fun len => follows_takeSpan Panic.span len

/-- **A decoder of whole frames that follows a reader** answers what the reader does. -/
theorem fromStart_eq {α : Type} {x : Positioned Panic UInt8 α}
    {get : Bytes → Option (α × Bytes)} (h : Follows x get) {frame : Bytes}
    (hfits : frame.length < 2 ^ 63) : fromStart x frame = .ok ((get frame).map Prod.fst) := by
  have hrun := h [] frame hfits
  unfold fromStart
  cases hget : get frame with
  | none =>
    rw [hget] at hrun
    exact congrArg _ hrun
  | some p =>
    rw [hget] at hrun
    obtain ⟨chunk, -, hrun⟩ := hrun
    exact congrArg _ hrun

namespace OpFrame

theorem follows_decodeOpAt : Follows decodeOpAt decodeOp := by
  have hhead : Follows getOpHeaderAt getOpHeader := by
    refine ((follows_nextByte .slice).bind fun byte => follows_getLenAt.bind fun k =>
      follows_getLenAt.bind fun v => follows_pure (byte >>> 4, k, v)).congr rfl ?_
    intro bs
    cases bs <;> rfl
  have hbody : ∀ head : UInt8 × Nat × Nat, Follows
      (if head.1 > opScanStream then (refuse : Positioned Panic UInt8 FrameOp)
        else do
          let key ← takeSpan .span head.2.1
          let value ← takeSpan .span head.2.2
          pure (head.1, key, value))
      fun bs => if head.1 > opScanStream then none
        else (take bs head.2.1).bind fun key => (take key.2 head.2.2).bind fun value =>
          some ((head.1, key.1, value.1), value.2) := by
    intro head
    by_cases htag : head.1 > opScanStream
    · simp only [if_pos htag]
      exact follows_refuse
    · simp only [if_neg htag]
      exact (follows_takeSpan Panic.span head.2.1).bind fun key =>
        (follows_takeSpan Panic.span head.2.2).bind fun value => follows_pure (head.1, key, value)
  exact (hhead.bind hbody).congr rfl fun _ => rfl

/-- **No request frame makes its decoder abort.** -/
theorem decodeAt_eq {frame : Bytes} (hfits : frame.length < 2 ^ 63) :
    decodeAt frame = .ok (decode frame) := by
  have hloop : ∀ n, Follows (decodeOpAt.rounds n) (decodeOps n) := fun n =>
    follows_decodeOpAt.rounds (fun _ => rfl) (fun _ _ => rfl) n
  have hread : Follows (do
      let count ← getLenAt
      let ops ← decodeOpAt.rounds count
      pure (OpFrame.mk ops)) readFrame :=
    follows_getLenAt.bind fun n => (hloop n).map OpFrame.mk
  exact (fromStart_eq hread hfits).trans (congrArg _ (decode_eq frame).symm)

end OpFrame

namespace OpResponse

theorem decodeHits_succ (n : Nat) (bs : Bytes) :
    decodeHits (n + 1) bs = (decodeHit bs).bind fun p =>
      (decodeHits n p.2).bind fun q => some (p.1 :: q.1, q.2) := by
  rw [decodeHits, decodeHit]
  cases hk : decodeBytes bs with
  | none => rfl
  | some k =>
    cases hv : decodeBytes k.2 with
    | none => simp [hv]
    | some v => simp [hv]

theorem follows_decodeFaultAt :
    Follows decodeFaultAt fun bs => (decodeFault bs).map fun r => (r, []) := by
  have htext : ∀ bytes : Bytes, Follows
      (do
        expectEnd
        match strOfBytes bytes with
          | none => (refuse : Positioned Panic UInt8 OpResponse)
          | some text => pure { fault := some text })
      fun bs => if bs ≠ [] then none
        else (strOfBytes bytes).map fun text => (({ fault := some text } : OpResponse), []) := by
    intro bytes
    cases hstr : strOfBytes bytes with
    | none =>
      refine (follows_expectEnd.bind fun _ => follows_refuse).congr rfl ?_
      intro bs
      by_cases hbs : bs = [] <;> simp [hbs]
    | some text =>
      refine (follows_expectEnd.bind fun _ => follows_pure { fault := some text }).congr rfl ?_
      intro bs
      by_cases hbs : bs = [] <;> simp [hbs]
  refine (follows_decodeBytesAt.bind htext).congr rfl ?_
  intro bs
  rw [decodeFault, decodeBytes]
  cases hlen : getLen bs with
  | none => simp
  | some p =>
    cases htake : take p.2 p.1 with
    | none => simp [htake]
    | some q =>
      by_cases hq : q.2 = [] <;> simp [htake, hq, Function.comp_def]

theorem follows_decodeValueAt (code : UInt8) : Follows (decodeValueAt code) (decodeValue code) := by
  unfold decodeValueAt decodeValue
  split
  · exact follows_pure none
  split
  · exact follows_decodeBytesAt.map some
  · exact follows_refuse

/-- A decoder that reads one byte and goes on by it. -/
theorem follows_coded {α : Type} {k : UInt8 → Positioned Panic UInt8 α}
    {get : Bytes → Option (α × Bytes)} (hnil : get [] = none)
    (h : ∀ code, Follows (k code) fun bs => get (code :: bs)) :
    Follows (getByte .overflow >>= k) get := by
  refine ((follows_getByte Panic.overflow).bind h).congr rfl ?_
  intro bs
  cases bs with
  | nil => exact hnil
  | cons code bs => rfl

/-- **No answer makes its decoder abort.** -/
theorem decodeAt_eq {frame : Bytes} (hfits : frame.length < 2 ^ 63) :
    decodeAt frame = .ok (decode frame) := by
  have hbody : ∀ code : UInt8, Follows
      (if code = faultCode then decodeFaultAt
        else do
          let value ← decodeValueAt code
          let count ← getLenAt
          let suffixes ← decodeBytesAt.rounds count
          expectEnd
          pure { value := value, suffixes := suffixes })
      fun bs => (decode (code :: bs)).map fun r => (r, []) := by
    intro code
    by_cases hcode : code = faultCode
    · rw [if_pos hcode]
      refine follows_decodeFaultAt.congr rfl fun bs => ?_
      rw [decode, if_pos hcode]
    · rw [if_neg hcode]
      have hloop : ∀ n, Follows (decodeBytesAt.rounds n) (decodeSuffixes n) := fun n =>
        follows_decodeBytesAt.rounds (fun _ => rfl) (fun _ _ => rfl) n
      refine ((follows_decodeValueAt code).bind fun value => follows_getLenAt.bind fun n =>
        (hloop n).bind fun suffixes => follows_expectEnd.bind fun _ =>
          follows_pure ({ value := value, suffixes := suffixes } : OpResponse)).congr rfl fun bs => ?_
      rw [decode, if_neg hcode]
      cases hv : decodeValue code bs with
      | none => rfl
      | some v =>
        cases hc : getLen v.2 with
        | none => simp [hc]
        | some c =>
          cases hs : decodeSuffixes c.1 c.2 with
          | none => simp [hc, hs]
          | some s => by_cases hrest : s.2 = [] <;> simp [hc, hs, hrest]
  have hread := @follows_coded OpResponse _ (fun bs => (decode bs).map fun r => (r, [])) rfl hbody
  rw [decodeAt, fromStart_eq hread hfits, Option.map_map]
  exact congrArg _ Option.map_id'

/-- **No chunk makes its decoder abort.** -/
theorem decodeChunkAt_eq {frame : Bytes} (hfits : frame.length < 2 ^ 63) :
    decodeChunkAt frame = .ok (decodeChunk frame) := by
  have hhit : Follows decodeHitAt decodeHit :=
    follows_decodeBytesAt.bind fun k => follows_decodeBytesAt.map (Prod.mk k)
  have hloop : ∀ n, Follows (decodeHitAt.rounds n) (decodeHits n) := fun n =>
    hhit.rounds (fun _ => rfl) decodeHits_succ n
  -- behind the code: a fault, or a value, hits and the tail byte
  have hbody : ∀ code : UInt8, Follows
      (if code = faultCode then decodeFaultAt
        else do
          let value ← decodeValueAt code
          let count ← getLenAt
          let hits ← decodeHitAt.rounds count
          let tail ← lastByte .overflow fun tail => tail = tailMore ∨ tail = tailFinal
          pure { value := value, hits := hits, tail := some tail })
      fun bs => (decodeChunk (code :: bs)).map fun r => (r, []) := by
    intro code
    by_cases hcode : code = faultCode
    · rw [if_pos hcode]
      refine follows_decodeFaultAt.congr rfl fun bs => ?_
      rw [decodeChunk, if_pos hcode]
    · rw [if_neg hcode]
      refine ((follows_decodeValueAt code).bind fun value => follows_getLenAt.bind fun n =>
        (hloop n).bind fun hits => (follows_lastByte Panic.overflow fun tail =>
          tail = tailMore ∨ tail = tailFinal).bind fun tail =>
          follows_pure
            ({ value := value, hits := hits, tail := some tail } : OpResponse)).congr rfl fun bs => ?_
      rw [decodeChunk, if_neg hcode]
      cases hv : decodeValue code bs with
      | none => rfl
      | some v =>
        cases hc : getLen v.2 with
        | none => simp [hc]
        | some c =>
          cases hs : decodeHits c.1 c.2 with
          | none => simp [hc, hs]
          | some s =>
            obtain ⟨hits, left⟩ := s
            rcases left with _ | ⟨tail, _ | ⟨b, left⟩⟩
            · simp [hc, hs, single]
            · by_cases htail : tail = tailMore ∨ tail = tailFinal <;> simp [hc, hs, single, htail]
            · simp [hc, hs, single]
  have hread := @follows_coded OpResponse _ (fun bs => (decodeChunk bs).map fun r => (r, [])) rfl
    hbody
  rw [decodeChunkAt, fromStart_eq hread hfits, Option.map_map]
  exact congrArg _ Option.map_id'

end OpResponse

/-! ## What the codec owes -/

/-- What holds of every value that fits the length prefixes: it is read back. -/
structure RoundTrips : Prop where
  length : ∀ n < 2 ^ 32, ∀ rest, getLen (putLen n ++ rest) = some (n, rest)
  frame : ∀ frame : OpFrame, frame.Fits → OpFrame.decode frame.encode = some frame
  answer : ∀ r : OpResponse, r.Plain ∨ r.Fault → r.Fits → OpResponse.decode r.encode = some r
  chunk : ∀ r : OpResponse, r.Chunk ∨ r.Fault → r.Fits → OpResponse.decodeChunk r.encode = some r

/-- What the decoders owe a byte string: to answer it, and to accept it in full or not at
all. -/
structure DecodersMeet (bs : Bytes) : Prop where
  answers : bs.length < 2 ^ 63 → OpFrame.decodeAt bs = .ok (OpFrame.decode bs) ∧
    OpResponse.decodeAt bs = .ok (OpResponse.decode bs) ∧
    OpResponse.decodeChunkAt bs = .ok (OpResponse.decodeChunk bs)
  frame : Whole OpFrame.decode bs
  answer : Whole OpResponse.decode bs
  chunk : Whole OpResponse.decodeChunk bs

theorem roundTrips : RoundTrips where
  length := fun _ hn rest => getLen_putLen hn rest
  frame := fun _ hfits => OpFrame.decode_encode hfits
  answer := fun _ h hfits => OpResponse.decode_encode h hfits
  chunk := fun _ h hfits => OpResponse.decodeChunk_encode h hfits

theorem OpResponse.whole_decode (bs : Bytes) : Whole OpResponse.decode bs := by
  refine whole_of_refuses (fun front more r hfront hmore => ?_) bs
  rw [decode_append ((decode_iff front r).mp hfront), if_neg hmore]

theorem OpResponse.whole_decodeChunk (bs : Bytes) : Whole OpResponse.decodeChunk bs := by
  refine whole_of_refuses (fun front more r hfront hmore => ?_) bs
  rw [decodeChunk_append ((decodeChunk_iff front r).mp hfront), if_neg hmore]

/-- **The wire codec.** Lengths, frames, answers and chunks are read back, no decoder aborts,
and both answer decoders accept in full; the frame decoder does so on just the byte strings
none of whose shorter front parts is itself a frame. -/
theorem wire_codec (bs : Bytes) :
    RoundTrips ∧ DecodersMeet bs ↔
      ∀ front, front <+: bs → front ≠ bs → ∀ frame, ¬ FrameCode front frame := by
  have hframe := OpFrame.parses_readFrame.whole_front OpFrame.decode_eq bs
  constructor
  · rintro ⟨-, hmeet⟩
    exact hframe.mp hmeet.frame
  · intro h
    refine ⟨roundTrips, ?_, hframe.mpr h, OpResponse.whole_decode bs, OpResponse.whole_decodeChunk bs⟩
    intro hfits
    exact ⟨OpFrame.decodeAt_eq hfits, OpResponse.decodeAt_eq hfits, OpResponse.decodeChunkAt_eq hfits⟩

/-- **The frame decoder looks past a tail**: the empty frame, and one byte behind it. -/
theorem frame_ignores_tail : ¬ (RoundTrips ∧ DecodersMeet [0, 7]) := by
  rintro ⟨-, hmeet⟩
  have hlong : OpFrame.decode [0, 7] = some ⟨[]⟩ := by decide
  have hshort : OpFrame.decode [0] = some ⟨[]⟩ := by decide
  have hwhole := hmeet.frame ⟨[]⟩ hlong [0] ⟨[7], rfl⟩ hshort
  cases hwhole

end Okm.Wire
