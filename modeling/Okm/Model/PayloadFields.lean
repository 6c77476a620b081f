import Okm.Model.BridgeSound
import Okm.Model.PayloadCodec

/-!
# What a payload field keeps

Every fixed-width field is read back whatever it holds. A variable-width one is read back
when its frame announces as many bytes as it has, its count fits four bytes and no length in
it is of width eight (`PayloadValue.kept_of_regular`). Where one of the three fails, either
the frame is wrong or something else comes back (`PayloadValue.regular_of_read`).

A list of texts is the kind where the two expressions of the arm disagree: each text is
counted with four bytes for its length and written with as many as `put_len` takes.
-/

namespace Okm.Model

open Lib

variable {checked : Bool}

/-! ## Slices -/

theorem sliceOff_append {n : Nat} {raw : Bytes} (h : raw.length = n) (rest : Bytes) :
    sliceOff n (raw ++ rest) = .ok (raw, rest) := by
  have hle : n ≤ (raw ++ rest).length := by
    rw [List.length_append]
    omega
  rw [sliceOff, if_pos hle, List.take_left' h, List.drop_left' h]

theorem sliceOff_le {n : Nat} {b raw rest : Bytes} (h : sliceOff n b = .ok (raw, rest)) :
    n ≤ b.length := by
  unfold sliceOff at h
  split at h
  · assumption
  · cases h

/-- A byte string of a fixed length comes off the front. -/
theorem fixedBytes_append {n : Nat} (b : FixedBytes n) (rest : Bytes) :
    ∃ h : n ≤ (b.val ++ rest).length,
      (⟨(b.val ++ rest).take n, List.length_take_of_le h⟩ : FixedBytes n) = b
        ∧ (b.val ++ rest).drop n = rest := by
  have hle : n ≤ (b.val ++ rest).length := by
    rw [List.length_append, b.property]
    omega
  exact ⟨hle, Subtype.ext (List.take_left' b.property), List.drop_left' b.property⟩

theorem textOf_strBytes (s : String) : textOf (strBytes s) = .ok s := by
  rw [textOf, strOfBytes_strBytes]

/-! ## Words -/

theorem ofBe_toBe {n : Nat} (v : Word n) : ofBe n (toBe v) = v := by
  apply BitVec.eq_of_toNat_eq
  rw [ofBe, toBe, beNat_beBytes (word_toNat_lt v), toNat_ofNat_word (word_toNat_lt v)]

theorem ofLe_toLe {n : Nat} (v : Word n) : BitVec.ofNat (8 * n) (leNat (leBytes n v.toNat)) = v := by
  apply BitVec.eq_of_toNat_eq
  rw [leNat_leBytes (word_toNat_lt v), toNat_ofNat_word (word_toNat_lt v)]

/-- **A reversed integer comes back.** -/
theorem revDecode_revEncode {n : Nat} (signed : Bool) (v : Word n) :
    revDecode signed (revEncode signed v) = v := by
  unfold revDecode revEncode
  cases signed with
  | false =>
    simp only [Bool.false_eq_true, if_false]
    rw [ofBe_toBe, BitVec.not_not]
  | true =>
    simp only [if_true]
    rw [ofBe_toBe, BitVec.not_not, BitVec.xor_assoc, BitVec.xor_self, BitVec.xor_zero]

/-- **An interned label comes back as its id.** -/
theorem Vocab.fromId_of_wire {w : VocabId} {v : Vocab w} {b : Bytes} (h : v.wire = .ok b) :
    Vocab.fromId (ofBe w.width b) = v.stored := by
  unfold Vocab.wire at h
  unfold Vocab.stored
  cases hid : v.id with
  | none =>
    rw [hid] at h
    cases h
  | some id =>
    rw [hid] at h
    obtain rfl := Except.ok.inj h
    rw [ofBe_toBe]

/-- The eight bytes of an integer spell it. -/
theorem int64OfBytes_beBytes (q : Int) :
    Dynamic.int64OfBytes (beBytes 8 (q % 2 ^ 64).toNat) = Int64.ofInt q := by
  have hlt : (q % 2 ^ 64).toNat < 256 ^ 8 := by omega
  have hback : (UInt64.ofNat (q % 2 ^ 64).toNat).toNat = (q % 2 ^ 64).toNat :=
    UInt64.toNat_ofNat_of_lt' (by rw [UInt64.size]; omega)
  rw [Dynamic.int64OfBytes, beNat_beBytes hlt]
  apply Int64.toBitVec_inj.mp
  apply BitVec.eq_of_toNat_eq
  rw [Int64.toBitVec_ofInt, BitVec.toNat_ofInt]
  exact hback

/-- **An offset comes back**: its sum is the value it was taken from. -/
theorem offsetDecode_offsetEncode {value base : Int64} {raw : Bytes}
    (h : offsetEncode value base = .ok raw) : offsetDecode checked raw base = .ok value := by
  have hvalue := value.toInt_lt
  unfold offsetEncode at h
  dsimp only at h
  split at h
  · rename_i hrange
    obtain rfl := Except.ok.inj h
    have hlt : (value.toInt - base.toInt).toNat < 256 ^ 4 := by omega
    have hsum : base.toInt + ((value.toInt - base.toInt).toNat : Int) = value.toInt := by omega
    have hback : base + Int64.ofInt (value.toInt - base.toInt).toNat = value := by
      calc base + Int64.ofInt (value.toInt - base.toInt).toNat
          = Int64.ofInt (base.toInt + ((value.toInt - base.toInt).toNat : Int)) := by
            rw [Int64.ofInt_add, Int64.ofInt_toInt]
        _ = Int64.ofInt value.toInt := congrArg Int64.ofInt hsum
        _ = value := Int64.ofInt_toInt value
    unfold offsetDecode
    rw [beNat_beBytes hlt, if_neg (by omega), ← Int64.ofInt_eq_ofNat, hback]
  · cases h

/-! ## Keys -/

theorem KeyPart.read_of_encode {f : KeyField} {v : KeyPart f} {b : Bytes} (h : v.encode = .ok b)
    (hlen : b.length = f.width) : KeyPart.read f b hlen = v.stored := by
  cases v with
  | uint v =>
    obtain rfl := Except.ok.inj h
    exact congrArg KeyPart.uint (ofBe_toBe v)
  | fixedBytes v =>
    obtain rfl := Except.ok.inj h
    rfl
  | uuid v =>
    obtain rfl := Except.ok.inj h
    rfl
  | vocab v => exact congrArg KeyPart.vocab (Vocab.fromId_of_wire h)

/-- **A key comes back**, whatever follows it. -/
theorem KeyValue.decode_of_encode {shape : KeyShape} {k : KeyValue shape} {b : Bytes}
    (h : k.encode = .ok b) (rest : Bytes) : KeyValue.decode shape (b ++ rest) = .ok k.stored := by
  induction k generalizing b with
  | nil => rfl
  | @cons f shape v k ih =>
    obtain ⟨front, hfront, h⟩ := bind_eq_ok.mp h
    obtain ⟨back, hback, h⟩ := bind_eq_ok.mp h
    obtain rfl := Except.ok.inj h
    have hwidth := KeyPart.length_encode hfront
    have hle : f.width ≤ (front ++ back ++ rest).length := by
      rw [List.length_append, List.length_append]
      omega
    have htake : (front ++ back ++ rest).take f.width = front := by
      rw [List.append_assoc, List.take_left' hwidth]
    have hdrop : (front ++ back ++ rest).drop f.width = back ++ rest := by
      rw [List.append_assoc, List.drop_left' hwidth]
    rw [decode, dif_pos hle, hdrop, ih hback]
    change Except.ok (KeyValue.cons (KeyPart.read f (List.take f.width _) _) k.stored) = _
    congr 2
    simp only [htake]
    exact KeyPart.read_of_encode hfront hwidth

/-- A key of the length of its type is read as what it was. -/
theorem KeyValue.decode_exact {shape : KeyShape} {k : KeyValue shape} {b : Bytes}
    (h : k.encode = .ok b) : KeyValue.decode shape b = .ok k.stored := by
  have hread := decode_of_encode h []
  rwa [List.append_nil] at hread

/-! ## Fixed-width fields -/

/-- Written, and read back by a reader that is told `len`, which takes what was written and
nothing behind it. -/
structure FieldValue.Kept (checked : Bool) (len : Nat) {kind : FieldKind} (v : FieldValue kind)
    (b : Bytes) : Prop where
  written : v.encode checked = .ok b
  taken : b.length = len
  read : ∀ rest, kind.decode checked len (b ++ rest) = .ok (v.stored, rest)

/-- **A fixed-width field comes back.** -/
theorem kept_of_hot {kind : FieldKind} (hhot : kind.hot = true) {v : FieldValue kind}
    (hfits : v.Fits) : ∃ b, v.Kept checked kind.width b := by
  cases v with
  | @uint w v =>
    refine ⟨toBe v, rfl, length_toBe v, fun rest => ?_⟩
    rw [FieldKind.decode, sliceOff_append (length_toBe v)]
    exact congrArg (fun back => Except.ok (FieldValue.uint back, rest)) (ofBe_toBe v)
  | @sint w v =>
    refine ⟨toBe v, rfl, length_toBe v, fun rest => ?_⟩
    rw [FieldKind.decode, sliceOff_append (length_toBe v)]
    exact congrArg (fun back => Except.ok (FieldValue.sint back, rest)) (ofBe_toBe v)
  | str s => cases hhot
  | bytes b => cases hhot
  | @fixedBytes n b =>
    refine ⟨b.val, rfl, b.property, fun rest => ?_⟩
    obtain ⟨hle, hback, hrest⟩ := fixedBytes_append b rest
    rw [FieldKind.decode, dif_pos hle, hback, hrest]
    rfl
  | @uuid name b =>
    refine ⟨b.val, rfl, b.property, fun rest => ?_⟩
    obtain ⟨hle, hback, hrest⟩ := fixedBytes_append b rest
    rw [FieldKind.decode, dif_pos hle, hback, hrest]
    rfl
  | varInt v => cases hhot
  | @vocab w v =>
    -- interned before it is written, so there is an id
    obtain ⟨b, hb⟩ := Vocab.wire_eq_ok.mpr hfits
    have hlen := Vocab.length_wire hb
    refine ⟨b, hb, hlen, fun rest => ?_⟩
    rw [FieldKind.decode, sliceOff_append hlen]
    exact congrArg (fun back => Except.ok (FieldValue.vocab back, rest)) (Vocab.fromId_of_wire hb)
  | vector elems => cases hhot
  | @offset base v =>
    obtain ⟨b, hb⟩ := offsetEncode_eq_ok.mpr hfits
    -- an offset in range takes four bytes
    have hlen : b.length = 4 := by
      unfold offsetEncode at hb
      dsimp only at hb
      split at hb
      · rw [← Except.ok.inj hb, length_beBytes]
      · cases hb
    refine ⟨b, hb, hlen, fun rest => ?_⟩
    rw [FieldKind.decode, sliceOff_append hlen]
    change (offsetDecode checked b base >>= _) = _
    rw [offsetDecode_offsetEncode hb]
    rfl
  | @quant p bits =>
    obtain ⟨q, hq⟩ := Option.isSome_iff_exists.mp hfits
    -- a number that quantizes has a scale
    obtain ⟨c, hc⟩ : ∃ c, pow10 p = some c := by
      unfold quantize at hq
      obtain ⟨c, hc, -⟩ := Option.bind_eq_some_iff.mp hq
      exact ⟨c, hc⟩
    refine ⟨beBytes 8 (q % 2 ^ 64).toNat, ?_, length_beBytes _ _, fun rest => ?_⟩
    · rw [FieldValue.encode, hq]
    · rw [FieldKind.decode, sliceOff_append (length_beBytes _ _)]
      change (dequantize (Dynamic.int64OfBytes _) p >>= _) = _
      rw [int64OfBytes_beBytes, dequantize, FieldValue.stored, hq, hc]
      rfl
  | @reverse signed w v =>
    have hlen : (revEncode signed v).length = w.bytes := length_toBe _
    refine ⟨revEncode signed v, rfl, hlen, fun rest => ?_⟩
    rw [FieldKind.decode, sliceOff_append hlen]
    exact congrArg (fun back => Except.ok (FieldValue.reverse back, rest))
      (revDecode_revEncode signed v)
  | @ref key k =>
    obtain ⟨b, hb⟩ := KeyValue.encode_eq_ok.mpr hfits
    have hlen := KeyValue.length_encode hb
    refine ⟨b, hb, hlen, fun rest => ?_⟩
    rw [FieldKind.decode, sliceOff_append hlen]
    change (KeyValue.decode key b >>= _) = _
    rw [KeyValue.decode_exact hb]
    rfl
  | refs ks => cases hhot

/-! ## Variable-width fields -/

/-- A frame that announces what it has announces a length that can be read. -/
theorem width_of_announced {n : Nat} {b : Bytes} (hn : n < 2 ^ 64) (hb : b.length < 2 ^ 63)
    (h : takeLen (putLen n ++ b) = some (b.length, (putLen n).length)) :
    widthOf n ≠ 8 ∧ b.length = n := by
  obtain ⟨h8, heq, -⟩ := width_of_takeLen hn h (by omega)
  exact ⟨h8, heq⟩

theorem width_of_lt {n : Nat} (h : n < 2 ^ 49) : widthOf n ≠ 8 := by
  intro h8
  have hlo := (widthOf_eq_eight.mp h8).1
  omega

theorem varintEncodeIn_ok {n : Nat} {b : Bytes} (hn : n < 2 ^ 64)
    (h : varintEncodeIn checked n = .ok b) : b = putLen n := by
  unfold varintEncodeIn at h
  split at h
  · cases h
  · rw [← Except.ok.inj h, varintEncode_eq hn]

/-- With the marker of width eight in it, a number is not what it was in any `VarInt`. -/
theorem cut_ne {w : VarIntWidth} {n : Nat} (hlt : n < 256 ^ w.bytes) (hlo : 2 ^ 49 ≤ n) :
    (254 * 2 ^ 56 + n) % 256 ^ w.bytes ≠ n := by
  cases w with
  | u16 | u32 | u64 =>
    simp only [VarIntWidth.bytes] at hlt ⊢
    omega

theorem takeCounted_append {n : Nat} {body : Bytes} (rest : Bytes) :
    takeCounted (4 + body.length) (beBytes 4 n ++ body ++ rest)
      = .ok ((n % 2 ^ 32, body), rest) := by
  have hshort : ¬ 4 + body.length < 4 := by omega
  have hbody : 4 + body.length - 4 = body.length := by omega
  rw [takeCounted, List.append_assoc, sliceOff_append (length_beBytes 4 n)]
  change (if 4 + body.length < 4 then _ else _) = _
  rw [if_neg hshort, hbody, sliceOff_append rfl]
  exact congrArg (fun count => Except.ok ((count, body), rest)) (beNat_beBytes_mod 4 n)

theorem count_of_takeCounted {len n count : Nat} {front body tail : Bytes}
    (h : takeCounted len (beBytes 4 n ++ front) = .ok ((count, body), tail)) :
    count = n % 2 ^ 32 := by
  rw [takeCounted, sliceOff_append (length_beBytes 4 n)] at h
  change (if len < 4 then _ else _) = _ at h
  split at h
  · cases h
  · obtain ⟨⟨body', tail'⟩, -, h⟩ := bind_eq_ok.mp h
    obtain ⟨hpair, -⟩ := Prod.mk.inj (Except.ok.inj h)
    exact (Prod.mk.inj hpair).1.symm.trans (beNat_beBytes_mod 4 n)

theorem readElems_wire {elem : VectorElem} (elems : List (Word elem.width)) (rest : Bytes) :
    readElems elem elems.length ((elems.flatMap fun e => leBytes elem.width e.toNat) ++ rest)
      = .ok elems := by
  induction elems with
  | nil => rfl
  | cons e elems ih =>
    have hlen := length_leBytes elem.width e.toNat
    rw [List.length_cons, List.flatMap_cons, List.append_assoc, readElems,
      if_neg (by rw [List.length_append]; omega), List.take_left' hlen, List.drop_left' hlen, ih,
      ofLe_toLe]
    rfl

theorem length_readElems {elem : VectorElem} {n : Nat} {b : Bytes} {elems : List (Word elem.width)}
    (h : readElems elem n b = .ok elems) : elems.length = n := by
  induction n generalizing b elems with
  | zero =>
    obtain rfl := Except.ok.inj h
    rfl
  | succ n ih =>
    rw [readElems] at h
    split at h
    · cases h
    · obtain ⟨back, hback, h⟩ := bind_eq_ok.mp h
      obtain rfl := Except.ok.inj h
      rw [List.length_cons, ih hback]

theorem takeKeys_encodeKeys {key : KeyShape} {ks : List (KeyValue key)} {b : Bytes}
    (h : encodeKeys ks = .ok b) (rest : Bytes) :
    takeKeys key ks.length (b ++ rest) = .ok (ks.map KeyValue.stored, rest) := by
  induction ks generalizing b with
  | nil =>
    obtain rfl := Except.ok.inj h
    rfl
  | cons k ks ih =>
    obtain ⟨front, hfront, h⟩ := bind_eq_ok.mp h
    obtain ⟨back, hback, h⟩ := bind_eq_ok.mp h
    obtain rfl := Except.ok.inj h
    rw [List.length_cons, takeKeys, List.append_assoc,
      sliceOff_append (KeyValue.length_encode hfront)]
    change (KeyValue.decode key front >>= _) = _
    rw [KeyValue.decode_exact hfront]
    change (takeKeys key ks.length (back ++ rest) >>= _) = _
    rw [ih hback]
    rfl

theorem length_takeKeys {key : KeyShape} {n : Nat} {b rest : Bytes} {ks : List (KeyValue key)}
    (h : takeKeys key n b = .ok (ks, rest)) : ks.length = n := by
  induction n generalizing b ks rest with
  | zero =>
    obtain ⟨rfl, -⟩ := Prod.mk.inj (Except.ok.inj h)
    rfl
  | succ n ih =>
    obtain ⟨⟨raw, tail⟩, -, h⟩ := bind_eq_ok.mp h
    obtain ⟨k, -, h⟩ := bind_eq_ok.mp h
    obtain ⟨⟨back, tail'⟩, hback, h⟩ := bind_eq_ok.mp h
    obtain ⟨rfl, -⟩ := Prod.mk.inj (Except.ok.inj h)
    rw [List.length_cons, ih hback]

/-- **Outside lists of texts the two expressions of an arm agree.** -/
theorem lenExpr_of_encode {kind : FieldKind} (hcold : kind.hot = false) {v : FieldValue kind}
    {b : Bytes} (h : v.encode checked = .ok b) : v.lenExpr checked = .ok b.length := by
  cases v with
  | str s =>
    obtain rfl := Except.ok.inj h
    rfl
  | bytes b =>
    obtain rfl := Except.ok.inj h
    rfl
  | fixedBytes b =>
    obtain rfl := Except.ok.inj h
    exact congrArg Except.ok b.property.symm
  | varInt v =>
    rw [FieldValue.encode] at h
    rw [FieldValue.lenExpr, h]
    rfl
  | @vector elem okLen elems =>
    rw [FieldValue.encode] at h
    split at h
    · obtain rfl := Except.ok.inj h
      exact congrArg Except.ok (length_vectorWire elem elems).symm
    · cases h
  | @refs key ks =>
    obtain ⟨keys, hkeys, h⟩ := bind_eq_ok.mp h
    obtain rfl := Except.ok.inj h
    rw [List.length_append, length_beBytes, length_encodeKeys hkeys]
    rfl
  | _ => cases hcold

/-- A frame counts what it holds, and the length can be read. -/
structure Announced (counted : Except Panic Nat) (b : Bytes) : Prop where
  counted : counted = .ok b.length
  short : b.length < 2 ^ 63
  width : widthOf b.length ≠ 8

/-- **A regular variable-width field comes back.** -/
theorem kept_of_regular {kind : FieldKind} (hcold : kind.hot = false) {v : FieldValue kind}
    (hfits : v.Fits) (hregular : v.Regular) :
    ∃ b, v.Kept checked b.length b ∧ b.length < 2 ^ 63 ∧ widthOf b.length ≠ 8 := by
  cases v with
  | uint v => cases hcold
  | sint v => cases hcold
  | str s =>
    refine ⟨strBytes s, ⟨rfl, rfl, fun rest => ?_⟩, hfits, hregular⟩
    rw [FieldKind.decode, sliceOff_append rfl]
    change (textOf (strBytes s) >>= _) = _
    rw [textOf_strBytes]
    rfl
  | bytes b =>
    refine ⟨b, ⟨rfl, rfl, fun rest => ?_⟩, hfits, hregular⟩
    rw [FieldKind.decode, sliceOff_append rfl]
    rfl
  | @fixedBytes n b =>
    -- only the empty array is cold
    have hzero : n = 0 := by simpa [FieldKind.hot] using hcold
    have hlen : b.val.length = 0 := b.property.trans hzero
    refine ⟨b.val, ⟨rfl, rfl, fun rest => ?_⟩, by omega, width_of_lt (by omega)⟩
    obtain ⟨hle, hback, hrest⟩ := fixedBytes_append b rest
    rw [FieldKind.decode, dif_pos hle, hback, hrest]
    rfl
  | uuid b => cases hcold
  | @varInt w v =>
    have hlt := varInt_lt v
    obtain ⟨b, hb⟩ := (@varintEncodeIn_eq_ok checked _ hlt).mpr fun _ => hregular
    have hlen := length_varintEncodeIn hlt hb
    -- the body is a length of its own: width eight would not come back
    have hwire := varintEncodeIn_ok hlt hb
    refine ⟨b, ⟨hb, rfl, fun rest => ?_⟩, by omega, width_of_lt hlen⟩
    rw [FieldKind.decode, hwire, takeLenIn_putLen hlt hregular]
    change Except.ok (FieldValue.varInt (BitVec.ofNat _ v.toNat), (putLen v.toNat ++ rest).drop _) = _
    rw [BitVec.ofNat_toNat, BitVec.setWidth_eq, List.drop_left]
    rfl
  | vocab v => cases hcold
  | @vector elem okLen elems =>
    have hlen := length_vectorWire elem elems
    obtain ⟨hok, hshort⟩ := hfits
    obtain ⟨hcount, hwidth⟩ := hregular
    -- a counted body: the count, then elements of one width
    rw [← hlen] at hshort hwidth
    refine ⟨vectorWire elem elems, ⟨if_pos hok, rfl, fun rest => ?_⟩, hshort, hwidth⟩
    rw [FieldKind.decode, vectorWire, List.length_append, length_beBytes, takeCounted_append,
      Nat.mod_eq_of_lt hcount]
    have hread := readElems_wire elems []
    rw [List.append_nil] at hread
    change (readElems elem elems.length _ >>= _) = _
    rw [hread]
    rfl
  | offset v => cases hcold
  | quant bits => cases hcold
  | reverse v => cases hcold
  | ref k => cases hcold
  | @refs key ks =>
    obtain ⟨hinterned, hshort⟩ := hfits
    obtain ⟨hcount, hwidth⟩ := hregular
    obtain ⟨keys, hkeys⟩ := encodeKeys_eq_ok.mpr hinterned
    have hlen : (beBytes 4 ks.length ++ keys).length = 4 + ks.length * key.keyLen := by
      rw [List.length_append, length_beBytes, length_encodeKeys hkeys]
    rw [← hlen] at hshort hwidth
    refine ⟨beBytes 4 ks.length ++ keys, ⟨?_, rfl, fun rest => ?_⟩, hshort, hwidth⟩
    · rw [FieldValue.encode, hkeys]
      rfl
    · rw [FieldKind.decode, List.append_assoc, sliceOff_append (length_beBytes 4 ks.length)]
      change (takeKeys key (beNat (beBytes 4 ks.length)) (keys ++ rest) >>= _) = _
      rw [beNat_beBytes hcount, takeKeys_encodeKeys hkeys]
      rfl

/-- **What comes back is regular.** -/
theorem regular_of_read {kind : FieldKind} {v : FieldValue kind} (hfits : v.Fits) {b : Bytes}
    (hwritten : v.encode checked = .ok b)
    (hannounced : takeLen (putLen b.length ++ b) = some (b.length, (putLen b.length).length))
    {rest tail : Bytes} (hread : kind.decode checked b.length (b ++ rest) = .ok (v.stored, tail)) :
    v.Regular := by
  cases v with
  | str s =>
    obtain rfl := Except.ok.inj hwritten
    have hshort : (strBytes s).length < 2 ^ 63 := hfits
    exact (width_of_announced (by omega) hshort hannounced).1
  | bytes b =>
    obtain rfl := Except.ok.inj hwritten
    have hshort : b.length < 2 ^ 63 := hfits
    exact (width_of_announced (by omega) hshort hannounced).1
  | @varInt w v =>
    have hlt := varInt_lt v
    intro h8
    -- width eight reads the marker into the value, and no word survives the cut
    obtain ⟨hlo, hhi⟩ := widthOf_eq_eight.mp h8
    have hwire := varintEncodeIn_ok hlt hwritten
    obtain ⟨⟨m, took⟩, htake, hread⟩ := bind_eq_ok.mp hread
    obtain ⟨hback, -⟩ := Prod.mk.inj (Except.ok.inj hread)
    have htake := takeLen_of_in htake
    rw [hwire, takeLen_putLen_overflow hlo hhi] at htake
    obtain ⟨rfl, -⟩ := Prod.mk.inj (Option.some.inj htake)
    have hvalue : (BitVec.ofNat (8 * w.bytes) (254 * 2 ^ 56 + v.toNat)).toNat = v.toNat := by
      rw [FieldValue.varInt.inj hback]
    rw [BitVec.toNat_ofNat, two_pow_eight_mul] at hvalue
    exact cut_ne (word_toNat_lt v) hlo hvalue
  | @vector elem okLen elems =>
    obtain ⟨hok, hshort⟩ := hfits
    obtain rfl : vectorWire elem elems = b := by
      rw [FieldValue.encode, if_pos hok] at hwritten
      exact Except.ok.inj hwritten
    have hlen := length_vectorWire elem elems
    obtain ⟨h8, -⟩ := width_of_announced (by omega) (by omega) hannounced
    rw [hlen] at h8
    rw [FieldKind.decode, vectorWire, List.append_assoc] at hread
    obtain ⟨⟨⟨count, body⟩, back⟩, hcount, hread⟩ := bind_eq_ok.mp hread
    obtain ⟨elems', helems, hread⟩ := bind_eq_ok.mp hread
    obtain ⟨hback, -⟩ := Prod.mk.inj (Except.ok.inj hread)
    obtain rfl := FieldValue.vector.inj hback
    -- as many elements came back as were counted, so the count was not cut
    have hlength := length_readElems helems
    rw [count_of_takeCounted hcount] at hlength
    exact ⟨by omega, h8⟩
  | @refs key ks =>
    obtain ⟨hinterned, hshort⟩ := hfits
    obtain ⟨keys, hkeys, hwritten⟩ := bind_eq_ok.mp hwritten
    obtain rfl := Except.ok.inj hwritten
    have hlen : (beBytes 4 ks.length ++ keys).length = 4 + ks.length * key.keyLen := by
      rw [List.length_append, length_beBytes, length_encodeKeys hkeys]
    obtain ⟨h8, -⟩ := width_of_announced (by omega) (by omega) hannounced
    rw [hlen] at h8
    rw [FieldKind.decode, List.append_assoc, sliceOff_append (length_beBytes 4 ks.length)] at hread
    obtain ⟨⟨count, tail'⟩, hcount, hread⟩ := bind_eq_ok.mp hread
    obtain ⟨rfl, rfl⟩ := Prod.mk.inj (Except.ok.inj hcount)
    obtain ⟨⟨ks', back⟩, hkeys', hread⟩ := bind_eq_ok.mp hread
    obtain ⟨hback, -⟩ := Prod.mk.inj (Except.ok.inj hread)
    obtain rfl := FieldValue.refs.inj hback
    have hlength := length_takeKeys hkeys'
    rw [List.length_map, beNat_beBytes_mod] at hlength
    exact ⟨by omega, h8⟩
  | _ => trivial

/-! ## Lists of texts -/

/-- A list of texts on the wire: each behind its length. -/
def textsWire (elems : List String) : Bytes :=
  elems.flatMap fun s => putLen (strBytes s).length ++ strBytes s

@[simp] theorem textBytes_cons (s : String) (elems : List String) :
    textBytes (s :: elems) = 4 + (strBytes s).length + textBytes elems := by
  rw [textBytes, List.map_cons, List.sum_cons, textBytes]

@[simp] theorem lengthBytes_cons (s : String) (elems : List String) :
    lengthBytes (s :: elems) = widthOf (strBytes s).length + lengthBytes elems := by
  rw [lengthBytes, List.map_cons, List.sum_cons, lengthBytes]

theorem textsWire_cons (s : String) (elems : List String) (rest : Bytes) :
    textsWire (s :: elems) ++ rest
      = putLen (strBytes s).length ++ (strBytes s ++ (textsWire elems ++ rest)) := by
  rw [textsWire, List.flatMap_cons, List.append_assoc, List.append_assoc, textsWire]

/-- The count of the arm and what is written differ by the lengths. -/
theorem length_textsWire {elems : List String} (h : textBytes elems < 2 ^ 64) :
    (textsWire elems).length + 4 * elems.length = lengthBytes elems + textBytes elems := by
  induction elems with
  | nil => rfl
  | cons s elems ih =>
    rw [textBytes_cons] at h
    have hput := length_putLen_width (v := (strBytes s).length) (by omega)
    have hcons := congrArg List.length (textsWire_cons s elems [])
    rw [List.append_nil, List.append_nil, List.length_append, List.length_append, hput] at hcons
    have hrest := ih (by omega)
    rw [hcons, List.length_cons, textBytes_cons, lengthBytes_cons]
    omega

theorem lengthBytes_le {elems : List String} (h : textBytes elems < 2 ^ 64) :
    lengthBytes elems ≤ 9 * elems.length := by
  induction elems with
  | nil => exact le_refl 0
  | cons s elems ih =>
    rw [textBytes_cons] at h
    obtain ⟨-, hnine, -⟩ := widthOf_bounds (v := (strBytes s).length) (by omega)
    have hrest := ih (by omega)
    rw [lengthBytes_cons, List.length_cons]
    omega

theorem putTexts_ok {elems : List String} {b : Bytes} (h : putTexts checked elems = .ok b) :
    b = textsWire elems := by
  induction elems generalizing b with
  | nil => exact (Except.ok.inj h).symm
  | cons s elems ih =>
    obtain ⟨len, hlen, h⟩ := bind_eq_ok.mp h
    obtain ⟨back, hback, h⟩ := bind_eq_ok.mp h
    rw [← Except.ok.inj h, putLenIn_ok hlen, ih hback, textsWire, textsWire, List.flatMap_cons]

theorem putTexts_eq {elems : List String} (h : ∀ s ∈ elems, widthOf (strBytes s).length ≠ 8) :
    putTexts checked elems = .ok (textsWire elems) := by
  induction elems with
  | nil => rfl
  | cons s elems ih =>
    obtain ⟨hs, helems⟩ := List.forall_mem_cons.mp h
    rw [putTexts, putLenIn_eq hs, ih helems, textsWire, textsWire, List.flatMap_cons]
    rfl

/-- One text of a list, behind a length that can be read. -/
theorem takeTexts_cons {n : Nat} {s : String} (hlt : (strBytes s).length < 2 ^ 64)
    (h8 : widthOf (strBytes s).length ≠ 8) (rest : Bytes) :
    takeTexts checked (n + 1) (putLen (strBytes s).length ++ (strBytes s ++ rest)) = (do
      let elems ← takeTexts checked n rest
      .ok (s :: elems)) := by
  rw [takeTexts, takeLenIn_putLen hlt h8]
  change (sliceOff _ (List.drop (putLen _).length _) >>= _) = _
  rw [List.drop_left, sliceOff_append rfl]
  change (textOf (strBytes s) >>= _) = _
  rw [textOf_strBytes]
  rfl

theorem takeTexts_wire {elems : List String} (hlt : textBytes elems < 2 ^ 64)
    (h : ∀ s ∈ elems, widthOf (strBytes s).length ≠ 8) (rest : Bytes) :
    takeTexts checked elems.length (textsWire elems ++ rest) = .ok elems := by
  induction elems with
  | nil => rfl
  | cons s elems ih =>
    obtain ⟨hs, helems⟩ := List.forall_mem_cons.mp h
    rw [textBytes_cons] at hlt
    rw [List.length_cons, textsWire_cons, takeTexts_cons (by omega) hs, ih (by omega) helems]
    rfl

theorem length_takeTexts {n : Nat} {b : Bytes} {elems : List String}
    (h : takeTexts checked n b = .ok elems) : elems.length = n := by
  induction n generalizing b elems with
  | zero =>
    obtain rfl := Except.ok.inj h
    rfl
  | succ n ih =>
    obtain ⟨⟨len, took⟩, -, h⟩ := bind_eq_ok.mp h
    obtain ⟨⟨raw, rest⟩, -, h⟩ := bind_eq_ok.mp h
    obtain ⟨s, -, h⟩ := bind_eq_ok.mp h
    obtain ⟨back, hback, h⟩ := bind_eq_ok.mp h
    obtain rfl := Except.ok.inj h
    rw [List.length_cons, ih hback]

/-- A text behind a length of width eight is not read: the length leads out of any buffer. -/
theorem width_of_takeTexts {elems back : List String} (hlt : textBytes elems < 2 ^ 63)
    {rest : Bytes} (hshort : (textsWire elems ++ rest).length < 2 ^ 63)
    (h : takeTexts checked elems.length (textsWire elems ++ rest) = .ok back) :
    ∀ s ∈ elems, widthOf (strBytes s).length ≠ 8 := by
  induction elems generalizing back with
  | nil => simp
  | cons s elems ih =>
    rw [textBytes_cons] at hlt
    rw [textsWire_cons] at hshort h
    have hread := h
    obtain ⟨⟨len, took⟩, htake, h⟩ := bind_eq_ok.mp h
    obtain ⟨⟨raw, tail⟩, hslice, h⟩ := bind_eq_ok.mp h
    have hlen := sliceOff_le hslice
    rw [List.length_drop] at hlen
    obtain ⟨h8, -, -⟩ := width_of_takeLen (by omega) (takeLen_of_in htake) (by omega)
    rw [List.length_cons, takeTexts_cons (by omega) h8] at hread
    obtain ⟨back', hback, -⟩ := bind_eq_ok.mp hread
    rw [List.length_append, List.length_append] at hshort
    exact List.forall_mem_cons.mpr ⟨h8, ih (by omega) (by omega) hback⟩

/-! ## Payload fields -/

namespace PayloadValue

/-- Written, and read back by a reader that is told `len`. -/
structure Kept (checked : Bool) (len : Nat) {kind : PayloadKind} (v : PayloadValue kind)
    (b : Bytes) : Prop where
  written : v.encode checked = .ok b
  taken : b.length = len
  read : ∀ rest, kind.decode checked len (b ++ rest) = .ok (v.stored, rest)

theorem kept_plain {kind : FieldKind} {v : FieldValue kind} {len : Nat} {b : Bytes}
    (h : v.Kept checked len b) : (plain v).Kept checked len b := by
  refine ⟨h.written, h.taken, fun rest => ?_⟩
  rw [PayloadKind.decode, h.read rest]
  rfl

variable {kind : PayloadKind} {v : PayloadValue kind}

theorem kept_of_hot (hhot : kind.hot = true) (hfits : v.Fits) :
    ∃ b, v.Kept checked kind.width b := by
  cases v with
  | plain v =>
    obtain ⟨b, hb⟩ := Model.kept_of_hot hhot hfits
    exact ⟨b, kept_plain hb⟩
  | texts elems => cases hhot

theorem regular_of_hot (hhot : kind.hot = true) : v.Regular := by
  cases v with
  | plain v =>
    cases v with
    | str | bytes | varInt | vector | refs => cases hhot
    | _ => trivial
  | texts elems => cases hhot

/-- What is written of a list of texts. -/
theorem texts_wire {okLen : Option Nat} {elems : List String} {b : Bytes}
    (h : (@texts okLen elems).encode checked = .ok b) :
    b = beBytes 4 elems.length ++ textsWire elems := by
  rw [encode] at h
  split at h
  · obtain ⟨body, hbody, h⟩ := bind_eq_ok.mp h
    rw [← Except.ok.inj h, putTexts_ok hbody]
  · cases h

theorem kept_of_regular (hcold : kind.hot = false) (hfits : v.Fits) (hregular : v.Regular) :
    ∃ b, v.Kept checked b.length b ∧ Announced (v.lenExpr checked) b := by
  cases v with
  | plain v =>
    obtain ⟨b, hb, hshort, h8⟩ := Model.kept_of_regular hcold hfits hregular
    exact ⟨b, kept_plain hb, lenExpr_of_encode hcold hb.written, hshort, h8⟩
  | @texts okLen elems =>
    obtain ⟨hok, hshort⟩ := hfits
    obtain ⟨hcount, hlengths, hwidths, h8⟩ := hregular
    have hwire := @length_textsWire elems (by omega)
    have hlen : (beBytes 4 elems.length ++ textsWire elems).length = 4 + textBytes elems := by
      rw [List.length_append, length_beBytes]
      omega
    have hread := @takeTexts_wire checked elems (by omega) hwidths []
    rw [List.append_nil] at hread
    refine ⟨beBytes 4 elems.length ++ textsWire elems, ⟨?_, rfl, fun rest => ?_⟩,
      congrArg Except.ok hlen.symm, by omega, hlen ▸ h8⟩
    · rw [encode, if_pos hok, putTexts_eq hwidths]
      rfl
    · rw [PayloadKind.decode, List.length_append, length_beBytes, takeCounted_append,
        Nat.mod_eq_of_lt hcount]
      change (takeTexts checked elems.length (textsWire elems) >>= _) = _
      rw [hread]
      rfl

theorem regular_of_read (hcold : kind.hot = false) (hfits : v.Fits) {b : Bytes} {n : Nat}
    (hwritten : v.encode checked = .ok b) (hcounted : v.lenExpr checked = .ok n)
    (hannounced : takeLen (putLen n ++ b) = some (b.length, (putLen n).length)) {rest tail : Bytes}
    (hread : kind.decode checked b.length (b ++ rest) = .ok (v.stored, tail)) : v.Regular := by
  cases v with
  | plain v =>
    obtain ⟨⟨back, tail'⟩, hread, h⟩ := bind_eq_ok.mp hread
    obtain ⟨hback, rfl⟩ := Prod.mk.inj (Except.ok.inj h)
    obtain rfl := PayloadValue.plain.inj hback
    obtain rfl := Except.ok.inj ((lenExpr_of_encode hcold hwritten).symm.trans hcounted)
    exact Model.regular_of_read hfits hwritten hannounced hread
  | @texts okLen elems =>
    obtain ⟨hok, hshort⟩ := hfits
    obtain rfl := texts_wire hwritten
    obtain rfl := Except.ok.inj hcounted
    have hwire := @length_textsWire elems (by omega)
    have hnine := @lengthBytes_le elems (by omega)
    have hlen : (beBytes 4 elems.length ++ textsWire elems).length
        = 4 + (textsWire elems).length := by
      rw [List.length_append, length_beBytes]
    obtain ⟨h8, heq⟩ := width_of_announced (by omega) (by omega) hannounced
    rw [hlen, PayloadKind.decode, takeCounted_append] at hread
    obtain ⟨⟨⟨count, body⟩, back⟩, hcount, hread⟩ := bind_eq_ok.mp hread
    obtain ⟨hpair, -⟩ := Prod.mk.inj (Except.ok.inj hcount)
    obtain ⟨rfl, rfl⟩ := Prod.mk.inj hpair
    obtain ⟨elems', helems, hread⟩ := bind_eq_ok.mp hread
    obtain ⟨hback, -⟩ := Prod.mk.inj (Except.ok.inj hread)
    obtain rfl := PayloadValue.texts.inj hback
    -- the count was not cut
    have hfits4 : elems'.length < 2 ^ 32 := by
      have hlength := length_takeTexts helems
      omega
    rw [Nat.mod_eq_of_lt hfits4, ← List.append_nil (textsWire elems')] at helems
    have hwidths := width_of_takeTexts (by omega) (by rw [List.append_nil]; omega) helems
    exact ⟨hfits4, by omega, hwidths, h8⟩

end PayloadValue

end Okm.Model
