import Okm.Lib.Grammar
import Okm.Wire.Response

/-!
# The layout of frames

The documented layout of lengths, request frames and answers as grammars, and the decoders
as their readers. `decode_iff` and its siblings say what each decoder accepts: an answer is
spelled by the whole byte string, a request frame by a front part of it.
-/

namespace Okm.Wire

open Lib Model

/-! ## Lengths and byte strings -/

/-- The four buckets of a length: two selector bits, then the value. -/
inductive LenCode : Bytes → Nat → Prop
  | inline {first : UInt8} : first >>> 6 = lenInline → LenCode [first] (first &&& 0x3f).toNat
  | u8 {first : UInt8} {tail : Bytes} : first >>> 6 = lenU8 → tail.length = 1 →
    LenCode (first :: tail) ((first &&& 0x3f).toNat * 2 ^ 8 + beNat tail)
  | u16 {first : UInt8} {tail : Bytes} : first >>> 6 = lenU16 → tail.length = 2 →
    LenCode (first :: tail) ((first &&& 0x3f).toNat * 2 ^ 16 + beNat tail)
  | u32 {first : UInt8} {tail : Bytes} : first >>> 6 = lenU32 → tail.length = 4 →
    LenCode (first :: tail) (beNat tail)

theorem selector_cases (first : UInt8) : first >>> 6 = lenInline ∨ first >>> 6 = lenU8 ∨
    first >>> 6 = lenU16 ∨ first >>> 6 = lenU32 := by
  have hval : (first >>> 6).toNat = first.toNat / 2 ^ 6 := by
    rw [UInt8.toNat_shiftRight, Nat.shiftRight_eq_div_pow]
    rfl
  have hlt := first.toNat_lt
  have hcases : (first >>> 6).toNat = 0 ∨ (first >>> 6).toNat = 1 ∨ (first >>> 6).toNat = 2 ∨
      (first >>> 6).toNat = 3 := by omega
  rcases hcases with h | h | h | h
  · exact Or.inl (UInt8.toNat_inj.mp h)
  · exact Or.inr (Or.inl (UInt8.toNat_inj.mp h))
  · exact Or.inr (Or.inr (Or.inl (UInt8.toNat_inj.mp h)))
  · exact Or.inr (Or.inr (Or.inr (UInt8.toNat_inj.mp h)))

theorem parses_take (n : Nat) : Parses (fun bs => take bs n) fun c as => c = as ∧ as.length = n :=
  parses_takeExact n

/-- **A length is read as its bucket spells it.** -/
theorem parses_getLen : Parses getLen LenCode := by
  have hne : lenU8 ≠ lenInline ∧ lenU16 ≠ lenInline ∧ lenU16 ≠ lenU8 ∧ lenU32 ≠ lenInline ∧
      lenU32 ≠ lenU8 ∧ lenU32 ≠ lenU16 := by decide
  obtain ⟨h10, h20, h21, h30, h31, h32⟩ := hne
  intro bs n rest
  cases bs with
  | nil =>
    constructor
    · intro h
      cases h
    · rintro ⟨chunk, hcode, hnil⟩
      obtain ⟨rfl, -⟩ := List.append_eq_nil_iff.mp hnil.symm
      cases hcode
  | cons first bs =>
    -- behind the first byte, a bucket is so many bytes
    have htail : ∀ (w : Nat) (f : Bytes → Nat),
        ((take bs w).map fun p => (f p.1, p.2)) = some (n, rest) ↔
          ∃ tail, tail.length = w ∧ f tail = n ∧ bs = tail ++ rest := by
      intro w f
      rw [(parses_take w).map f bs n rest]
      constructor
      · rintro ⟨chunk, ⟨tail, ⟨rfl, hlen⟩, hn⟩, hbs⟩
        exact ⟨chunk, hlen, hn, hbs⟩
      · rintro ⟨tail, hlen, hn, hbs⟩
        exact ⟨tail, ⟨tail, ⟨rfl, hlen⟩, hn⟩, hbs⟩
    constructor
    · intro h
      rw [getLen] at h
      dsimp only at h
      rcases selector_cases first with hs | hs | hs | hs
      · rw [if_pos hs] at h
        obtain ⟨rfl, rfl⟩ := Prod.mk.inj (Option.some.inj h)
        exact ⟨[first], .inline hs, rfl⟩
      · rw [if_neg (hs ▸ h10), if_pos hs] at h
        obtain ⟨tail, hlen, rfl, rfl⟩ :=
          (htail 1 fun t => (first &&& 0x3f).toNat * 2 ^ 8 + beNat t).mp h
        exact ⟨first :: tail, .u8 hs hlen, rfl⟩
      · rw [if_neg (hs ▸ h20), if_neg (hs ▸ h21), if_pos hs] at h
        obtain ⟨tail, hlen, rfl, rfl⟩ :=
          (htail 2 fun t => (first &&& 0x3f).toNat * 2 ^ 16 + beNat t).mp h
        exact ⟨first :: tail, .u16 hs hlen, rfl⟩
      · rw [if_neg (hs ▸ h30), if_neg (hs ▸ h31), if_neg (hs ▸ h32)] at h
        obtain ⟨tail, hlen, rfl, rfl⟩ := (htail 4 beNat).mp h
        exact ⟨first :: tail, .u32 hs hlen, rfl⟩
    · rintro ⟨chunk, hcode, hbs⟩
      rw [getLen]
      dsimp only
      cases hcode with
      | inline hs =>
        obtain ⟨rfl, rfl⟩ := List.cons.inj hbs
        rw [if_pos hs]
      | u8 hs hlen =>
        obtain ⟨rfl, rfl⟩ := List.cons.inj hbs
        rw [if_neg (hs ▸ h10), if_pos hs]
        exact (htail 1 fun t => (first &&& 0x3f).toNat * 2 ^ 8 + beNat t).mpr ⟨_, hlen, rfl, rfl⟩
      | u16 hs hlen =>
        obtain ⟨rfl, rfl⟩ := List.cons.inj hbs
        rw [if_neg (hs ▸ h20), if_neg (hs ▸ h21), if_pos hs]
        exact (htail 2 fun t => (first &&& 0x3f).toNat * 2 ^ 16 + beNat t).mpr ⟨_, hlen, rfl, rfl⟩
      | u32 hs hlen =>
        obtain ⟨rfl, rfl⟩ := List.cons.inj hbs
        rw [if_neg (hs ▸ h30), if_neg (hs ▸ h31), if_neg (hs ▸ h32)]
        exact (htail 4 beNat).mpr ⟨_, hlen, rfl, rfl⟩

/-- A byte string behind its length. -/
def BytesCode (chunk bytes : Bytes) : Prop := ∃ len, LenCode len bytes.length ∧ chunk = len ++ bytes

theorem parses_decodeBytes : Parses decodeBytes BytesCode := by
  refine (parses_getLen.bind parses_take).congr ?_ ?_
  · intro bs
    rfl
  · intro chunk bytes
    constructor
    · rintro ⟨len, hlen, rfl⟩
      exact ⟨len, bytes, bytes.length, hlen, ⟨rfl, rfl⟩, rfl⟩
    · rintro ⟨len, back, n, hlen, ⟨rfl, rfl⟩, rfl⟩
      exact ⟨len, hlen, rfl⟩

/-! ## Request frames -/

/-- `[tag][key length][value length][key][value]`; the low nibble of the tag byte says
nothing. -/
inductive OpCode : Bytes → FrameOp → Prop
  | op {byte : UInt8} {klen vlen key value : Bytes} : byte >>> 4 ≤ opScanStream →
    LenCode klen key.length → LenCode vlen value.length →
    OpCode (byte :: (klen ++ vlen ++ key ++ value)) (byte >>> 4, key, value)

/-- `[count]`, then as many ops. -/
def FrameCode (bytes : Bytes) (frame : OpFrame) : Prop :=
  ∃ count ops, LenCode count frame.ops.length ∧ Spell OpCode ops frame.ops ∧ bytes = count ++ ops

namespace OpFrame

theorem parses_decodeOp : Parses decodeOp OpCode := by
  intro bs op rest
  cases bs with
  | nil =>
    constructor
    · intro h
      cases h
    · rintro ⟨chunk, hcode, hnil⟩
      obtain ⟨rfl, -⟩ := List.append_eq_nil_iff.mp hnil.symm
      cases hcode
  | cons byte bs =>
    -- both lengths are read before the tag is checked
    have hbody : decodeOp (byte :: bs) = (getLen bs).bind fun k => (getLen k.2).bind fun v =>
        if byte >>> 4 > opScanStream then none
        else (take v.2 k.1).bind fun key => (take key.2 v.1).bind fun value =>
          some ((byte >>> 4, key.1, value.1), value.2) := by
      rw [decodeOp, getOpHeader]
      cases hk : getLen bs with
      | none => rfl
      | some k =>
        cases hv : getLen k.2 with
        | none => simp [hv]
        | some v => simp [hv]
    rw [hbody]
    constructor
    · intro h
      obtain ⟨⟨klen, bs1⟩, hk, h⟩ := Option.bind_eq_some_iff.mp h
      obtain ⟨⟨vlen, bs2⟩, hv, h⟩ := Option.bind_eq_some_iff.mp h
      split at h
      · cases h
      · rename_i htag
        obtain ⟨⟨key, bs3⟩, hkey, h⟩ := Option.bind_eq_some_iff.mp h
        obtain ⟨⟨value, bs4⟩, hvalue, h⟩ := Option.bind_eq_some_iff.mp h
        obtain ⟨rfl, rfl⟩ := Prod.mk.inj (Option.some.inj h)
        obtain ⟨kcode, hkcode, rfl⟩ := (parses_getLen _ _ _).mp hk
        obtain ⟨vcode, hvcode, rfl⟩ := (parses_getLen _ _ _).mp hv
        obtain ⟨_, ⟨rfl, rfl⟩, rfl⟩ := (parses_take _ _ _ _).mp hkey
        obtain ⟨_, ⟨rfl, rfl⟩, rfl⟩ := (parses_take _ _ _ _).mp hvalue
        exact ⟨_, .op (not_lt.mp htag) hkcode hvcode, by simp⟩
    · rintro ⟨chunk, hcode, hbs⟩
      cases hcode with
      | @op byte' kcode vcode key value htag hk hv =>
        have hbytes : bs = kcode ++ (vcode ++ (key ++ (value ++ rest))) := by
          rw [(List.cons.inj hbs).2]
          simp
        obtain rfl : byte = byte' := (List.cons.inj hbs).1
        have hklen := parses_getLen.reads hk (vcode ++ (key ++ (value ++ rest)))
        have hvlen := parses_getLen.reads hv (key ++ (value ++ rest))
        simp only [hbytes, hklen, hvlen, Option.bind_some, if_neg (not_lt.mpr htag), take_append]

theorem parses_decodeOps (n : Nat) :
    Parses (decodeOps n) fun chunk ops => Spell OpCode chunk ops ∧ ops.length = n :=
  parses_decodeOp.counted (fun _ => rfl) (fun _ _ => rfl) n

/-- The reader of a frame, with the bytes it leaves. -/
def readFrame (bs : Bytes) : Option (OpFrame × Bytes) :=
  (getLen bs).bind fun p => (decodeOps p.1 p.2).map fun q => (⟨q.1⟩, q.2)

theorem decode_eq (bs : Bytes) : decode bs = (readFrame bs).map Prod.fst := by
  rw [decode, readFrame]
  cases hlen : getLen bs with
  | none => rfl
  | some p =>
    cases hops : decodeOps p.1 p.2 with
    | none => simp [hops]
    | some q => simp [hops]

theorem parses_readFrame : Parses readFrame FrameCode := by
  refine (parses_getLen.bind fun n => (parses_decodeOps n).map OpFrame.mk).congr (fun _ => rfl) ?_
  intro chunk frame
  constructor
  · rintro ⟨count, ops, hcount, hops, rfl⟩
    exact ⟨count, ops, frame.ops.length, hcount, ⟨frame.ops, ⟨hops, rfl⟩, rfl⟩, rfl⟩
  · rintro ⟨count, ops, n, hcount, ⟨list, ⟨hops, rfl⟩, rfl⟩, rfl⟩
    exact ⟨count, ops, hcount, hops, rfl⟩

/-- **What `OpFrame::decode` accepts**: a spelled frame, and whatever follows it. -/
theorem decode_iff (bs : Bytes) (frame : OpFrame) :
    decode bs = some frame ↔ ∃ chunk rest, FrameCode chunk frame ∧ bs = chunk ++ rest := by
  rw [decode_eq, Option.map_eq_some_iff]
  constructor
  · rintro ⟨⟨frame', rest⟩, hread, rfl⟩
    obtain ⟨chunk, hcode, hbs⟩ := (parses_readFrame _ _ _).mp hread
    exact ⟨chunk, rest, hcode, hbs⟩
  · rintro ⟨chunk, rest, hcode, rfl⟩
    exact ⟨(frame, rest), parses_readFrame.reads hcode rest, rfl⟩

end OpFrame

/-! ## Answers -/

/-- The value in front of an answer. -/
inductive ValueCode : Bytes → Option Bytes → Prop
  | absent : ValueCode [0] none
  | present {chunk value : Bytes} : BytesCode chunk value → ValueCode (1 :: chunk) (some value)

/-- `[key length][key][value length][value]`. -/
def HitCode (chunk : Bytes) (hit : Bytes × Bytes) : Prop :=
  ∃ k v, BytesCode k hit.1 ∧ BytesCode v hit.2 ∧ chunk = k ++ v

/-- A plain answer, or a fault. -/
inductive AnswerCode : Bytes → OpResponse → Prop
  | fault {chunk : Bytes} {text : String} : BytesCode chunk (strBytes text) →
    AnswerCode (faultCode :: chunk) { fault := some text }
  | plain {v count ss : Bytes} {value : Option Bytes} {suffixes : List Bytes} :
    ValueCode v value → LenCode count suffixes.length → Spell BytesCode ss suffixes →
    AnswerCode (v ++ count ++ ss) { value := value, suffixes := suffixes }

/-- A page of hits and its tail byte, or a fault. -/
inductive ChunkCode : Bytes → OpResponse → Prop
  | fault {chunk : Bytes} {text : String} : BytesCode chunk (strBytes text) →
    ChunkCode (faultCode :: chunk) { fault := some text }
  | page {v count hs : Bytes} {value : Option Bytes} {hits : List (Bytes × Bytes)} {tail : UInt8} :
    ValueCode v value → LenCode count hits.length → Spell HitCode hs hits →
    tail = tailMore ∨ tail = tailFinal →
    ChunkCode (v ++ count ++ hs ++ [tail]) { value := value, hits := hits, tail := some tail }

theorem parses_decodeSuffixes (n : Nat) :
    Parses (decodeSuffixes n) fun chunk list => Spell BytesCode chunk list ∧ list.length = n :=
  parses_decodeBytes.counted (fun _ => rfl) (fun _ _ => rfl) n

/-- One hit off the front. -/
def decodeHit (frame : Bytes) : Option ((Bytes × Bytes) × Bytes) :=
  (decodeBytes frame).bind fun k => (decodeBytes k.2).map fun v => ((k.1, v.1), v.2)

theorem parses_decodeHit : Parses decodeHit HitCode := by
  refine (parses_decodeBytes.bind fun k => parses_decodeBytes.map (Prod.mk k)).congr
    (fun _ => rfl) ?_
  rintro chunk ⟨k, v⟩
  constructor
  · rintro ⟨kc, vc, hk, hv, rfl⟩
    exact ⟨kc, vc, k, hk, ⟨v, hv, rfl⟩, rfl⟩
  · rintro ⟨kc, vc, k', hk, ⟨v', hv, heq⟩, rfl⟩
    obtain ⟨rfl, rfl⟩ := Prod.mk.inj heq
    exact ⟨kc, vc, hk, hv, rfl⟩

theorem parses_decodeHits (n : Nat) :
    Parses (decodeHits n) fun chunk hits => Spell HitCode chunk hits ∧ hits.length = n := by
  refine parses_decodeHit.counted (fun _ => rfl) ?_ n
  intro n bs
  rw [decodeHits, decodeHit]
  cases hk : decodeBytes bs with
  | none => rfl
  | some k =>
    cases hv : decodeBytes k.2 with
    | none => simp [hv]
    | some v => simp [hv]

/-- The value is read behind its leading byte. -/
theorem decodeValue_iff {code : UInt8} {bs rest : Bytes} {value : Option Bytes} :
    decodeValue code bs = some (value, rest) ↔
      ∃ v, ValueCode v value ∧ code :: bs = v ++ rest := by
  unfold decodeValue
  constructor
  · intro h
    split at h
    · rename_i hcode
      obtain ⟨rfl, rfl⟩ := Prod.mk.inj (Option.some.inj h)
      exact ⟨[0], .absent, by rw [hcode]; rfl⟩
    split at h
    · rename_i hcode
      obtain ⟨⟨bytes, rest'⟩, hread, heq⟩ := Option.map_eq_some_iff.mp h
      obtain ⟨rfl, rfl⟩ := Prod.mk.inj heq
      obtain ⟨chunk, hchunk, rfl⟩ := (parses_decodeBytes _ _ _).mp hread
      exact ⟨1 :: chunk, .present hchunk, by rw [hcode]; rfl⟩
    · cases h
  · rintro ⟨v, hv, heq⟩
    cases hv with
    | absent =>
      obtain ⟨rfl, rfl⟩ := List.cons.inj heq
      rfl
    | @present chunk bytes hchunk =>
      obtain ⟨rfl, rfl⟩ := List.cons.inj heq
      rw [if_neg (by decide), if_pos rfl]
      exact Option.map_eq_some_iff.mpr ⟨_, parses_decodeBytes.reads hchunk rest, rfl⟩

theorem ValueCode.head_ne {v : Bytes} {value : Option Bytes} (h : ValueCode v value) :
    ∃ code bs, v = code :: bs ∧ code ≠ faultCode := by
  cases h with
  | absent => exact ⟨0, [], rfl, by decide⟩
  | present _ => exact ⟨1, _, rfl, by decide⟩

/-- A fault frame with something behind it is refused. -/
theorem decodeFault_append {chunk : Bytes} {text : String} (h : BytesCode chunk (strBytes text))
    (more : Bytes) :
    decodeFault (chunk ++ more) = if more = [] then some { fault := some text } else none := by
  obtain ⟨len, hlen, rfl⟩ := h
  have hread := parses_getLen.reads hlen (strBytes text ++ more)
  rw [decodeFault, List.append_assoc, hread]
  simp only [Option.bind_eq_bind, Option.bind_some, take_append]
  by_cases hmore : more = []
  · simp [hmore]
  · simp [hmore]

theorem decodeFault_iff {bs : Bytes} {r : OpResponse} (h : decodeFault bs = some r) :
    ∃ text, BytesCode bs (strBytes text) ∧ r = { fault := some text } := by
  rw [decodeFault] at h
  obtain ⟨⟨len, bs'⟩, hlen, h⟩ := Option.bind_eq_some_iff.mp h
  obtain ⟨⟨bytes, rest⟩, htake, h⟩ := Option.bind_eq_some_iff.mp h
  dsimp only at h
  split at h
  · cases h
  · rename_i hrest
    obtain ⟨text, htext, rfl⟩ := Option.map_eq_some_iff.mp h
    obtain ⟨code, hcode, rfl⟩ := (parses_getLen _ _ _).mp hlen
    obtain ⟨_, ⟨rfl, rfl⟩, rfl⟩ := (parses_take _ _ _ _).mp htake
    refine ⟨text, ⟨code, ?_, ?_⟩, rfl⟩
    · rwa [strBytes_of_strOfBytes htext]
    · rw [strBytes_of_strOfBytes htext, not_not.mp hrest, List.append_nil]

namespace OpResponse

/-- **A plain answer is read to its end**: something behind it rejects the frame. -/
theorem decode_append {chunk : Bytes} {r : OpResponse} (h : AnswerCode chunk r) (more : Bytes) :
    decode (chunk ++ more) = if more = [] then some r else none := by
  cases h with
  | fault hbytes => exact decodeFault_append hbytes more
  | @plain v count ss value suffixes hv hcount hss =>
    obtain ⟨code, bs, rfl, hcode⟩ := hv.head_ne
    have hvalue := decodeValue_iff.mpr ⟨_, hv, show code :: (bs ++ (count ++ (ss ++ more)))
      = (code :: bs) ++ (count ++ (ss ++ more)) from rfl⟩
    have hlen := parses_getLen.reads hcount (ss ++ more)
    have hlist := (parses_decodeSuffixes suffixes.length).reads ⟨hss, rfl⟩ more
    simp only [List.cons_append, List.append_assoc, decode, if_neg hcode, hvalue, hlen, hlist,
      Option.bind_eq_bind, Option.bind_some, ne_eq, ite_not]

/-- **What `OpResponse::decode` accepts**: a spelled answer and nothing else. -/
theorem decode_iff (bs : Bytes) (r : OpResponse) : decode bs = some r ↔ AnswerCode bs r := by
  constructor
  · intro h
    cases bs with
    | nil => cases h
    | cons code bs =>
      rw [decode] at h
      split at h
      · rename_i hcode
        obtain ⟨text, hbytes, rfl⟩ := decodeFault_iff h
        rw [hcode]
        exact .fault hbytes
      · obtain ⟨⟨value, bs1⟩, hvalue, h⟩ := Option.bind_eq_some_iff.mp h
        obtain ⟨⟨count, bs2⟩, hcount, h⟩ := Option.bind_eq_some_iff.mp h
        obtain ⟨⟨suffixes, bs3⟩, hlist, h⟩ := Option.bind_eq_some_iff.mp h
        dsimp only at h
        split at h
        · cases h
        · rename_i hrest
          obtain rfl := Option.some.inj h
          obtain ⟨v, hv, hbs⟩ := decodeValue_iff.mp hvalue
          obtain ⟨c, hc, rfl⟩ := (parses_getLen _ _ _).mp hcount
          obtain ⟨ss, ⟨hss, rfl⟩, rfl⟩ := (parses_decodeSuffixes _ _ _ _).mp hlist
          rw [hbs, not_not.mp hrest, List.append_nil, ← List.append_assoc]
          exact .plain hv hc hss
  · intro h
    have hread := decode_append h []
    rwa [List.append_nil, if_pos rfl] at hread

/-- **A chunk is read to its tail byte.** -/
theorem decodeChunk_append {chunk : Bytes} {r : OpResponse} (h : ChunkCode chunk r)
    (more : Bytes) : decodeChunk (chunk ++ more) = if more = [] then some r else none := by
  cases h with
  | fault hbytes => exact decodeFault_append hbytes more
  | @page v count hs value hits tail hv hcount hhs htail =>
    obtain ⟨code, bs, rfl, hcode⟩ := hv.head_ne
    have hvalue := decodeValue_iff.mpr ⟨_, hv, show code :: (bs ++ (count ++ (hs ++ (tail :: more))))
      = (code :: bs) ++ (count ++ (hs ++ (tail :: more))) from rfl⟩
    have hlen := parses_getLen.reads hcount (hs ++ (tail :: more))
    have hlist := (parses_decodeHits hits.length).reads ⟨hhs, rfl⟩ (tail :: more)
    simp only [List.cons_append, List.append_assoc, List.nil_append, decodeChunk, if_neg hcode,
      hvalue, hlen, hlist, Option.bind_eq_bind, Option.bind_some]
    cases more with
    | nil => exact if_pos htail
    | cons b more => rw [if_neg (List.cons_ne_nil b more)]

/-- **What `OpResponse::decode_chunk` accepts**: a spelled chunk and nothing else. -/
theorem decodeChunk_iff (bs : Bytes) (r : OpResponse) :
    decodeChunk bs = some r ↔ ChunkCode bs r := by
  constructor
  · intro h
    cases bs with
    | nil => cases h
    | cons code bs =>
      rw [decodeChunk] at h
      split at h
      · rename_i hcode
        obtain ⟨text, hbytes, rfl⟩ := decodeFault_iff h
        rw [hcode]
        exact .fault hbytes
      · obtain ⟨⟨value, bs1⟩, hvalue, h⟩ := Option.bind_eq_some_iff.mp h
        obtain ⟨⟨count, bs2⟩, hcount, h⟩ := Option.bind_eq_some_iff.mp h
        obtain ⟨⟨hits, bs3⟩, hlist, h⟩ := Option.bind_eq_some_iff.mp h
        dsimp only at h
        split at h
        · split at h
          · rename_i htail
            obtain rfl := Option.some.inj h
            obtain ⟨v, hv, hbs⟩ := decodeValue_iff.mp hvalue
            obtain ⟨c, hc, rfl⟩ := (parses_getLen _ _ _).mp hcount
            obtain ⟨hs, ⟨hhs, rfl⟩, rfl⟩ := (parses_decodeHits _ _ _ _).mp hlist
            rw [hbs, ← List.append_assoc, ← List.append_assoc]
            exact .page hv hc hhs htail
          · cases h
        · cases h
  · intro h
    have hread := decodeChunk_append h []
    rwa [List.append_nil, if_pos rfl] at hread

end OpResponse

end Okm.Wire
