import Okm.Lib.Run
import Okm.Model.DynamicInt

/-!
# Frames read back

What the decoder makes of an encoding, for every value: the value itself with its
stripped integers reread (`decodeNamed_putFramesNamed`). The induction is on the
value; an array threads it through its elements and an object through its fields,
whose names come back in order because the map lists them in order. So a list of
named values round-trips exactly when every signed integer in it keeps its sign
(`frames_round_trip`).
-/

namespace Okm.Model

open Lib

/-- A vocabulary seen as an assignment: each side inverse to the other. -/
structure NameIds where
  idOf : String → Option UInt16
  nameOf : UInt16 → Option String
  inverse : ∀ name id, idOf name = some id ↔ nameOf id = some name

/-- The resolver that answers from the assignment. -/
def NameIds.resolve (ids : NameIds) (name : String) : Except Error UInt16 :=
  match ids.idOf name with
  | some id => .ok id
  | none => .error (.vocabularyRequired name)

mutual

/-- What comes back for a value. -/
def reread : DynamicValue → DynamicValue
  | .int v => .int (rereadInt v)
  | .array items => .array (rereadItems items)
  | .obj fields => .obj (rereadFields fields)
  | .uint v => .uint v
  | .f64 bits => .f64 bits
  | .str s => .str s
  | .bytes b => .bytes b
  | .bool b => .bool b
  | .null => .null

def rereadItems : List DynamicValue → List DynamicValue
  | [] => []
  | v :: rest => reread v :: rereadItems rest

def rereadFields : List (String × DynamicValue) → List (String × DynamicValue)
  | [] => []
  | (name, v) :: rest => (name, reread v) :: rereadFields rest

end

mutual

/-- Every signed integer in the value keeps its sign. -/
def SignsKept : DynamicValue → Prop
  | .int v => SignKept v
  | .array items => SignsKeptItems items
  | .obj fields => SignsKeptFields fields
  | _ => True

def SignsKeptItems : List DynamicValue → Prop
  | [] => True
  | v :: rest => SignsKept v ∧ SignsKeptItems rest

def SignsKeptFields : List (String × DynamicValue) → Prop
  | [] => True
  | (_, v) :: rest => SignsKept v ∧ SignsKeptFields rest

end

mutual

theorem reread_eq_iff : ∀ v : DynamicValue, reread v = v ↔ SignsKept v
  | .int v => by simp only [reread, SignsKept, DynamicValue.int.injEq, rereadInt_eq_iff]
  | .array items => by
    simp only [reread, SignsKept, DynamicValue.array.injEq, rereadItems_eq_iff items]
  | .obj fields => by
    simp only [reread, SignsKept, DynamicValue.obj.injEq, rereadFields_eq_iff fields]
  | .uint _ | .f64 _ | .str _ | .bytes _ | .bool _ | .null => by simp only [reread, SignsKept]

theorem rereadItems_eq_iff : ∀ items : List DynamicValue,
    rereadItems items = items ↔ SignsKeptItems items
  | [] => by simp only [rereadItems, SignsKeptItems]
  | v :: rest => by
    simp only [rereadItems, SignsKeptItems, List.cons.injEq, reread_eq_iff v,
      rereadItems_eq_iff rest]

theorem rereadFields_eq_iff : ∀ fields : List (String × DynamicValue),
    rereadFields fields = fields ↔ SignsKeptFields fields
  | [] => by simp only [rereadFields, SignsKeptFields]
  | (name, v) :: rest => by
    simp only [rereadFields, SignsKeptFields, List.cons.injEq, Prod.mk.injEq, true_and,
      reread_eq_iff v, rereadFields_eq_iff rest]

end

/-! ## Headers -/

theorem takeBytes_append (s rest : Bytes) : takeBytes s.length (s ++ rest) = some (s, rest) := by
  rw [takeBytes, if_pos (by simp), List.take_left, List.drop_left]

/-- A type, a length and a body are read back with what follows them. -/
theorem decodeTyped_typedBytes {ty : ObjValueType} {body : Bytes} (h : body.length < 2 ^ 49)
    (rest : Bytes) :
    decodeTyped (typedBytes ty body ++ rest) = some (ty.toByte, body, rest) := by
  have happ : typedBytes ty body ++ rest
      = ty.toByte :: (putLen body.length ++ (body ++ rest)) := by
    simp [typedBytes]
  rw [happ, decodeTyped, takeLen_putLen h]
  dsimp only
  rw [List.drop_left, takeBytes_append]
  rfl

theorem decodeId_idBytes (id : UInt16) (rest : Bytes) :
    decodeId (idBytes id ++ rest) = some (id, rest) := by
  unfold idBytes
  by_cases h : id < 0xFF
  · have hlt : id.toNat < 255 := UInt16.lt_iff_toNat_lt.mp h
    have hne : id.toUInt8 ≠ 0xFF := by
      intro heq
      have hnat := congrArg UInt8.toNat heq
      rw [UInt16.toNat_toUInt8] at hnat
      have : (0xFF : UInt8).toNat = 255 := rfl
      omega
    have hback : id.toUInt8.toUInt16 = id := by
      apply UInt16.toNat_inj.mp
      rw [UInt8.toNat_toUInt16, UInt16.toNat_toUInt8]
      omega
    rw [if_pos h, List.singleton_append, decodeId, if_neg hne, hback]
  · have hlt : id.toNat < 256 ^ 2 := id.toNat_lt
    have htake := takeBytes_append (beBytes 2 id.toNat) rest
    rw [length_beBytes] at htake
    rw [if_neg h, List.cons_append, decodeId, if_pos rfl, htake, Option.map_some]
    dsimp only
    rw [beNat_beBytes hlt, UInt16.ofNat_toNat]

/-- **The header of a frame is read back.** -/
theorem frameHead_append {id : UInt16} {ty : ObjValueType} {body : Bytes}
    (h : body.length < 2 ^ 49) (rest : Bytes) :
    frameHead (idBytes id ++ typedBytes ty body ++ rest) = some (id, ty.toByte, body, rest) := by
  rw [List.append_assoc, frameHead, decodeId_idBytes]
  dsimp only
  rw [decodeTyped_typedBytes h]
  rfl

theorem length_typedBytes_pos (ty : ObjValueType) (body : Bytes) :
    body.length < (typedBytes ty body).length := by
  simp only [typedBytes, List.length_append, List.length_cons]
  omega

/-! ## What an encoding consists of -/

section

variable {ids : NameIds}

theorem resolve_eq_ok {name : String} {id : UInt16} :
    ids.resolve name = .ok id ↔ ids.idOf name = some id := by
  unfold NameIds.resolve
  cases ids.idOf name with
  | none => simp
  | some id' => simp

theorem encodeItems_cons {v : DynamicValue} {rest : List DynamicValue} {b : Bytes}
    (h : encodeItems ids.resolve (v :: rest) = .ok b) :
    ∃ ty body frames, encodeValue ids.resolve v = .ok (ty, body) ∧
      encodeItems ids.resolve rest = .ok frames ∧ b = typedBytes ty body ++ frames := by
  rw [encodeItems] at h
  obtain ⟨⟨ty, body⟩, hv, h⟩ := bind_eq_ok.mp h
  obtain ⟨frames, hrest, h⟩ := bind_eq_ok.mp h
  exact ⟨ty, body, frames, hv, hrest, (Except.ok.inj h).symm⟩

theorem putFields_cons {name : String} {v : DynamicValue}
    {rest : List (String × DynamicValue)} {b : Bytes}
    (h : putFields ids.resolve ((name, v) :: rest) = .ok b) :
    ∃ id ty body frames, ids.idOf name = some id ∧
      encodeValue ids.resolve v = .ok (ty, body) ∧
      putFields ids.resolve rest = .ok frames ∧
      b = idBytes id ++ typedBytes ty body ++ frames := by
  rw [putFields] at h
  obtain ⟨id, hid, h⟩ := bind_eq_ok.mp h
  obtain ⟨⟨ty, body⟩, hv, h⟩ := bind_eq_ok.mp h
  obtain ⟨frames, hrest, h⟩ := bind_eq_ok.mp h
  exact ⟨id, ty, body, frames, resolve_eq_ok.mp hid, hv, hrest, (Except.ok.inj h).symm⟩

/-- Each element spends at least one byte. -/
theorem length_le_encodeItems : ∀ {items : List DynamicValue} {b : Bytes},
    encodeItems ids.resolve items = .ok b → items.length ≤ b.length
  | [], _, _ => Nat.zero_le _
  | v :: rest, b, h => by
    obtain ⟨ty, body, frames, -, hrest, rfl⟩ := encodeItems_cons h
    have hle := length_le_encodeItems hrest
    have hpos := length_typedBytes_pos ty body
    rw [List.length_cons, List.length_append]
    omega

/-- A field named behind all others is inserted at the end. -/
theorem insertEntry_last {name : String} {v : DynamicValue}
    {acc : List (String × DynamicValue)} (h : ∀ a ∈ acc, a.1 < name) :
    SortedMap.insertEntry name v acc = acc ++ [(name, v)] := by
  induction acc with
  | nil => rfl
  | cons a acc ih =>
    have ha : a.1 < name := h a (by simp)
    rw [SortedMap.insertEntry, if_neg (not_lt_of_gt ha), if_neg (ne_of_lt ha),
      ih (fun a' ha' => h a' (by simp [ha'])), List.cons_append]

/-! ## The round trip -/

theorem readInt_intBody (v : Int64) : readInt (intBody v) = some (rereadInt v) := by
  have hlen : (intBody v).length ≤ 8 := by
    unfold intBody
    simp only [List.length_drop, length_beBytes]
    omega
  have hne : intBody v ≠ [] := intBody_ne_nil v
  unfold rereadInt
  cases hbody : intBody v with
  | nil => exact absurd hbody hne
  | cons first rest =>
    rw [hbody, List.length_cons] at hlen
    rw [readInt, if_neg (by omega)]

section

variable {nameOf : UInt16 → Option String} {b body rest : Bytes} {tyByte : UInt8}
  {ty : ObjValueType} {v : DynamicValue}

/-- One element read, the others left to read. -/
theorem decodeItems_step {count : Nat} (h : decodeTyped b = some (tyByte, body, rest))
    (hty : ObjValueType.fromByte tyByte = some ty) (hv : decodeValueNamed nameOf ty body = some v) :
    decodeItems nameOf (count + 1) b = (decodeItems nameOf count rest).map (v :: ·) := by
  rw [decodeItems]
  split
  · rename_i hnone
    rw [h] at hnone
    simp at hnone
  · rename_i hsome
    rw [h, Option.some.injEq, Prod.mk.injEq, Prod.mk.injEq] at hsome
    obtain ⟨rfl, rfl, rfl⟩ := hsome
    rw [hty]
    dsimp only
    rw [hv]

/-- One field read and inserted, the others left to read. -/
theorem decodeFields_step {acc : List (String × DynamicValue)} {id : UInt16}
    (h : frameHead b = some (id, tyByte, body, rest))
    (hty : ObjValueType.fromByte tyByte = some ty) (hv : decodeValueNamed nameOf ty body = some v) :
    decodeFields nameOf b acc = decodeFields nameOf rest
      (SortedMap.insertEntry ((nameOf id).getD (toString id.toNat)) v acc) := by
  have hne : b ≠ [] := by
    intro hb
    rw [hb] at h
    simp [frameHead, decodeId] at h
  rw [decodeFields, if_neg hne]
  split
  · rename_i hnone
    rw [h] at hnone
    simp at hnone
  · rename_i hsome
    rw [h, Option.some.injEq, Prod.mk.injEq, Prod.mk.injEq, Prod.mk.injEq] at hsome
    obtain ⟨rfl, rfl, rfl, rfl⟩ := hsome
    rw [hty]
    dsimp only
    rw [hv]

/-- A frame that reads is a field, whichever arm decodes it. -/
theorem decodeNamed_step {id : UInt16} (h : frameHead b = some (id, tyByte, body, rest))
    (hty : ObjValueType.fromByte tyByte = some ty) (hv : decodeValueNamed nameOf ty body = some v) :
    decodeNamed nameOf b = ⟨id, v⟩ :: decodeNamed nameOf rest := by
  have hne : b ≠ [] := by
    intro hb
    rw [hb] at h
    simp [frameHead, decodeId] at h
  have hframe : decodeFrameNamed nameOf b = (.ok ⟨id, v⟩, rest) := by
    rw [decodeFrameNamed, h]
    dsimp only
    rw [hty]
    cases ty with
    | obj =>
      rw [decodeValueNamed] at hv
      obtain ⟨fields, hfields, rfl⟩ := Option.map_eq_some_iff.mp hv
      simp only [hfields]
    | _ => simp only [hv]
  rw [decodeNamed, dif_neg hne]
  split
  · rename_i hok
    rw [hframe, Prod.mk.injEq, Except.ok.injEq] at hok
    obtain ⟨rfl, rfl⟩ := hok
    rfl
  · rename_i herr
    rw [hframe] at herr
    simp at herr
  · rename_i herr
    rw [hframe] at herr
    simp at herr

end

mutual

/-- **A value comes back reread.** -/
theorem decodeValue_encodeValue : ∀ {v : DynamicValue} {ty : ObjValueType} {body : Bytes},
    v.Wf → encodeValue ids.resolve v = .ok (ty, body) → body.length < 2 ^ 49 →
      decodeValueNamed ids.nameOf ty body = some (reread v)
  | .uint v, ty, body, _, h, _ => by
    obtain ⟨rfl, rfl⟩ := Prod.mk.inj (Except.ok.inj h)
    rw [decodeValueNamed, readUInt_uintBody, reread, Option.map_some]
  | .int v, ty, body, _, h, _ => by
    obtain ⟨rfl, rfl⟩ := Prod.mk.inj (Except.ok.inj h)
    rw [decodeValueNamed, readInt_intBody, reread, Option.map_some]
  | .f64 bits, ty, body, _, h, _ => by
    obtain ⟨rfl, rfl⟩ := Prod.mk.inj (Except.ok.inj h)
    have hlt : bits.toNat < 256 ^ 8 := bits.toNat_lt
    rw [decodeValueNamed, if_neg (by simp), beNat_beBytes hlt, UInt64.ofNat_toNat, reread]
  | .str s, ty, body, _, h, _ => by
    obtain ⟨rfl, rfl⟩ := Prod.mk.inj (Except.ok.inj h)
    rw [decodeValueNamed, strOfBytes_strBytes, reread, Option.map_some]
  | .bytes b, ty, body, _, h, _ => by
    obtain ⟨rfl, rfl⟩ := Prod.mk.inj (Except.ok.inj h)
    rw [decodeValueNamed, reread]
  | .bool b, ty, body, _, h, _ => by
    obtain ⟨rfl, rfl⟩ := Prod.mk.inj (Except.ok.inj h)
    rw [decodeValueNamed, reread]
    cases b <;> rfl
  | .null, ty, body, _, h, _ => by
    obtain ⟨rfl, rfl⟩ := Prod.mk.inj (Except.ok.inj h)
    rw [decodeValueNamed, if_pos rfl, reread]
  | .array items, ty, body, hwf, h, hlen => by
    rw [encodeValue] at h
    obtain ⟨frames, hitems, h⟩ := bind_eq_ok.mp h
    obtain ⟨rfl, rfl⟩ := Prod.mk.inj (Except.ok.inj h)
    rw [List.length_append] at hlen
    have hcount := length_le_encodeItems hitems
    rw [decodeValueNamed, takeLen_putLen (by omega)]
    dsimp only
    rw [List.drop_left, decodeItems_encodeItems hwf hitems (by omega), Option.map_some, reread]
  | .obj fields, ty, body, hwf, h, hlen => by
    rw [encodeValue] at h
    obtain ⟨b, hfields, h⟩ := bind_eq_ok.mp h
    obtain ⟨rfl, rfl⟩ := Prod.mk.inj (Except.ok.inj h)
    rw [decodeValueNamed, decodeFields_putFields hwf.2 hwf.1 (by simp) hfields hlen,
      Option.map_some, reread, List.nil_append]

theorem decodeItems_encodeItems : ∀ {items : List DynamicValue} {b : Bytes},
    WfItems items → encodeItems ids.resolve items = .ok b → b.length < 2 ^ 49 →
      decodeItems ids.nameOf items.length b = some (rereadItems items)
  | [], b, _, _, _ => by
    rw [List.length_nil, decodeItems, rereadItems]
  | v :: rest, b, hwf, h, hlen => by
    obtain ⟨ty, body, frames, hv, hrest, rfl⟩ := encodeItems_cons h
    have hpos := length_typedBytes_pos ty body
    rw [List.length_append] at hlen
    have hread := decodeValue_encodeValue hwf.1 hv (by omega)
    rw [List.length_cons, decodeItems_step (decodeTyped_typedBytes (by omega) frames)
      (ObjValueType.fromByte_toByte ty) hread,
      decodeItems_encodeItems hwf.2 hrest (by omega), Option.map_some, rereadItems]

theorem decodeFields_putFields : ∀ {fields : List (String × DynamicValue)}
    {acc : List (String × DynamicValue)} {b : Bytes},
    WfFields fields → fields.Pairwise (fun a b => a.1 < b.1) →
      (∀ a ∈ acc, ∀ f ∈ fields, a.1 < f.1) → putFields ids.resolve fields = .ok b →
      b.length < 2 ^ 49 →
      decodeFields ids.nameOf b acc = some (acc ++ rereadFields fields)
  | [], acc, b, _, _, _, h, _ => by
    obtain rfl := Except.ok.inj h
    rw [decodeFields, if_pos rfl, rereadFields, List.append_nil]
  | (name, v) :: rest, acc, b, hwf, hs, hacc, h, hlen => by
    obtain ⟨id, ty, body, frames, hid, hv, hrest, rfl⟩ := putFields_cons h
    obtain ⟨hlt, hs⟩ := List.pairwise_cons.mp hs
    have hpos := length_typedBytes_pos ty body
    rw [List.length_append, List.length_append] at hlen
    have hread := decodeValue_encodeValue hwf.1 hv (by omega)
    have hname : (ids.nameOf id).getD (toString id.toNat) = name := by
      rw [(ids.inverse name id).mp hid, Option.getD_some]
    have hacc' : ∀ a ∈ acc ++ [(name, reread v)], ∀ f ∈ rest, a.1 < f.1 := by
      intro a ha f hf
      rcases List.mem_append.mp ha with ha | ha
      · exact hacc a ha f (by simp [hf])
      · rw [List.mem_singleton.mp ha]
        exact hlt f hf
    rw [decodeFields_step (frameHead_append (by omega) frames) (ObjValueType.fromByte_toByte ty)
      hread, hname, insertEntry_last fun a ha => hacc a ha (name, v) (by simp),
      decodeFields_putFields hwf.2 hs hacc' hrest (by omega), rereadFields, List.append_assoc,
      List.singleton_append]

end

/-- A named frame is the id and the value behind its type and length. -/
theorem putFrameNamed_eq_ok {name : String} {v : DynamicValue} {frame : Bytes}
    (h : putFrameNamed ids.resolve name v = .ok frame) :
    ∃ id ty body, ids.idOf name = some id ∧ encodeValue ids.resolve v = .ok (ty, body) ∧
      frame = idBytes id ++ typedBytes ty body := by
  rw [putFrameNamed] at h
  obtain ⟨id, hid, h⟩ := bind_eq_ok.mp h
  cases v with
  | obj fields =>
    obtain ⟨body, hbody, h⟩ := bind_eq_ok.mp h
    refine ⟨id, .obj, body, resolve_eq_ok.mp hid, ?_, (Except.ok.inj h).symm⟩
    rw [encodeValue, hbody]
    rfl
  | _ =>
    obtain ⟨⟨ty, body⟩, hbody, h⟩ := bind_eq_ok.mp h
    exact ⟨id, ty, body, resolve_eq_ok.mp hid, hbody, (Except.ok.inj h).symm⟩

/-- The frames the reader should answer for a list of named values. -/
def NameIds.fields (ids : NameIds) (values : List (String × DynamicValue)) : List DynamicField :=
  values.filterMap fun nv => (ids.idOf nv.1).map fun id => ⟨id, nv.2⟩

/-- **Every encoding is read back reread**, frame by frame. -/
theorem decodeNamed_putFramesNamed {values : List (String × DynamicValue)} {b : Bytes}
    (hwf : ∀ nv ∈ values, nv.2.Wf) (h : putFramesNamed ids.resolve values = .ok b)
    (hlen : b.length < 2 ^ 49) :
    decodeNamed ids.nameOf b = ids.fields (values.map fun nv => (nv.1, reread nv.2)) := by
  induction values generalizing b with
  | nil =>
    obtain rfl := Except.ok.inj h
    rw [decodeNamed, dif_pos rfl]
    rfl
  | cons nv values ih =>
    obtain ⟨name, v⟩ := nv
    rw [putFramesNamed] at h
    obtain ⟨frame, hframe, h⟩ := bind_eq_ok.mp h
    obtain ⟨frames, hframes, h⟩ := bind_eq_ok.mp h
    obtain rfl := Except.ok.inj h
    obtain ⟨id, ty, body, hid, hv, rfl⟩ := putFrameNamed_eq_ok hframe
    have hpos := length_typedBytes_pos ty body
    rw [List.length_append, List.length_append] at hlen
    have hread := decodeValue_encodeValue (hwf (name, v) (by simp)) hv (by omega)
    rw [decodeNamed_step (frameHead_append (by omega) frames) (ObjValueType.fromByte_toByte ty)
      hread, ih (fun nv' hnv => hwf nv' (by simp [hnv])) hframes (by omega)]
    simp [NameIds.fields, hid]

/-- Names that all have ids lose nothing: the fields tell the values. -/
theorem fields_injective {values : List (String × DynamicValue)} {b : Bytes}
    (h : putFramesNamed ids.resolve values = .ok b) (f : DynamicValue → DynamicValue) :
    ids.fields (values.map fun nv => (nv.1, f nv.2)) = ids.fields values ↔
      ∀ nv ∈ values, f nv.2 = nv.2 := by
  induction values generalizing b with
  | nil => simp [NameIds.fields]
  | cons nv values ih =>
    obtain ⟨name, v⟩ := nv
    rw [putFramesNamed] at h
    obtain ⟨frame, hframe, h⟩ := bind_eq_ok.mp h
    obtain ⟨frames, hframes, h⟩ := bind_eq_ok.mp h
    obtain ⟨id, ty, body, hid, -, -⟩ := putFrameNamed_eq_ok hframe
    have ih' := ih hframes
    simp only [NameIds.fields, List.map_cons, List.filterMap_cons, hid, Option.map_some,
      List.cons.injEq, DynamicField.mk.injEq, true_and, List.mem_cons, forall_eq_or_imp] at ih' ⊢
    rw [ih']

/-- **A list of named values round-trips exactly when every signed integer in it
keeps its sign**: no nonnegative one has, at one to seven bytes, its top bit set. -/
theorem frames_round_trip {values : List (String × DynamicValue)} {b : Bytes}
    (hwf : ∀ nv ∈ values, nv.2.Wf) (h : putFramesNamed ids.resolve values = .ok b)
    (hlen : b.length < 2 ^ 49) :
    decodeNamed ids.nameOf b = ids.fields values ↔ ∀ nv ∈ values, SignsKept nv.2 := by
  rw [decodeNamed_putFramesNamed hwf h hlen, fields_injective h reread]
  simp only [reread_eq_iff]

end

/-! ## One vocabulary, two values -/

/-- Two names, one of them with an id that needs the escape. -/
def twoNames : NameIds where
  idOf name := if name = "a" then some 1 else if name = "b" then some 0x1FF else none
  nameOf id := if id = 1 then some "a" else if id = 0x1FF then some "b" else none
  inverse name id := by
    by_cases ha : name = "a"
    · subst ha
      by_cases h1 : id = 1
      · simp [h1]
      · have : (1 : UInt16) ≠ id := Ne.symm h1
        simp [h1, this]
    · by_cases hb : name = "b"
      · subst hb
        by_cases h1 : id = 1
        · subst h1
          decide
        · simp [h1, eq_comm]
      · have ha' : "a" ≠ name := Ne.symm ha
        have hb' : "b" ≠ name := Ne.symm hb
        simp only [ha, hb, if_false, reduceCtorEq, false_iff]
        split
        · simpa using ha'
        · split
          · simpa using hb'
          · simp

theorem frames_round_trip_nested :
    decodeNamed twoNames.nameOf
      [0xFF, 0x01, 0xFF, 6, 11, 2, 8, 2, 0xFF, 0xFB, 7, 4, 1, 2, 1, 0x78]
      = twoNames.fields [("b", .array [.int (-5), .obj [("a", .str "x")]])] :=
  (@frames_round_trip twoNames [("b", .array [.int (-5), .obj [("a", .str "x")]])] _
    (by simp [DynamicValue.Wf, WfItems, WfFields]) (by decide) (by decide)).mpr (by
      simp [SignsKept, SignsKeptItems, SignsKeptFields, ← rereadInt_eq_iff]
      decide)

/-- One byte `0x80` is written for 128 and read back as -128. -/
theorem int128_changes_sign :
    putFramesNamed twoNames.resolve [("a", .int 128)] = .ok [1, 8, 1, 0x80] ∧
    decodeNamed twoNames.nameOf [1, 8, 1, 0x80] = twoNames.fields [("a", .int (-128))] ∧
    twoNames.fields [("a", .int (-128))] ≠ twoNames.fields [("a", .int 128)] := by
  have henc : putFramesNamed twoNames.resolve [("a", .int 128)] = .ok [1, 8, 1, 0x80] := by rfl
  refine ⟨henc, ?_, ?_⟩
  · have hread := decodeNamed_putFramesNamed (by simp [DynamicValue.Wf]) henc (by decide)
    have hneg : rereadInt 128 = -128 := by decide
    simpa [reread, hneg] using hread
  · simp [NameIds.fields, twoNames]

end Okm.Model
