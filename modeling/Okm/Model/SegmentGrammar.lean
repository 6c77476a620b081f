import Okm.Model.Dynamic

/-!
# What a dynamic segment says

The grammar of the frames, apart from the decoder that reads them. A frame is an id, a type
byte, a length and a body of that length; the body of an array is a count and its elements,
the body of an object is frames again. A frame whose type byte is none of the known types
still has its length, so it can be passed over: it stands in the grammar as `unknown`.

`segment` is the frames before the first malformed one. A tree carries ids only. What a
reader makes of it is `named`: the resolver may keep a state of its own, and it is asked for
the name of a nested field once that field's value is read.
-/

namespace Okm.Model.Segment

open Lib

mutual

/-- A value as its bytes spell it. -/
inductive ValueTree where
  | leaf (v : DynamicValue)
  | array (items : ItemTrees)
  | obj (frames : FrameTrees)

/-- The elements of an array. -/
inductive ItemTrees where
  | nil
  | cons (item : ValueTree) (rest : ItemTrees)

/-- The frames of an object or of a segment. -/
inductive FrameTrees where
  | nil
  | unknown (id : UInt16) (rest : FrameTrees)
  | known (id : UInt16) (value : ValueTree) (rest : FrameTrees)

end

/-! ## Parsing -/

/-- A body that nests nothing. -/
def decodeLeaf (ty : ObjValueType) (body : Bytes) : Option DynamicValue :=
  match ty with
  | .uint => (readUInt body).map .uint
  | .int => (readInt body).map .int
  | .f64 => if body.length ≠ 8 then none else some (.f64 (UInt64.ofNat (beNat body)))
  | .str => (strOfBytes body).map .str
  | .bytes => some (.bytes body)
  | .bool =>
    match body with
    | [b] => some (.bool (b ≠ 0))
    | _ => none
  | .null => if body = [] then some .null else none
  | .array => none
  | .obj => none

mutual

/-- A body of a known type. -/
def parseValue (ty : ObjValueType) (body : Bytes) : Option ValueTree :=
  match ty with
  | .array =>
    match takeLen body with
    | none => none
    | some (count, n) => (parseItems count (body.drop n)).map .array
  | .obj => (parseFrames body).map .obj
  | other => (decodeLeaf other body).map .leaf
termination_by 2 * body.length + 1
decreasing_by
  · rw [List.length_drop]
    omega
  · omega

/-- `count` elements. An element has no id to be passed over by, so its type is to be known. -/
def parseItems (count : Nat) (b : Bytes) : Option ItemTrees :=
  match count with
  | 0 => some .nil
  | count + 1 =>
    match _h : decodeTyped b with
    | none => none
    | some (tyByte, body, rest) =>
      match ObjValueType.fromByte tyByte with
      | none => none
      | some ty =>
        match parseValue ty body with
        | none => none
        | some item => (parseItems count rest).map (.cons item)
termination_by 2 * b.length
decreasing_by
  · have := length_decodeTyped _h
    omega
  · have := length_decodeTyped _h
    omega

/-- Frames until the bytes run out, all of them whole. -/
def parseFrames (b : Bytes) : Option FrameTrees :=
  if b = [] then some .nil
  else
    match _h : frameHead b with
    | none => none
    | some (id, tyByte, body, rest) =>
      match ObjValueType.fromByte tyByte with
      | none => (parseFrames rest).map (.unknown id)
      | some ty =>
        match parseValue ty body with
        | none => none
        | some value => (parseFrames rest).map (.known id value)
termination_by 2 * b.length
decreasing_by
  · have := length_frameHead _h
    omega
  · have := length_frameHead _h
    omega
  · have := length_frameHead _h
    omega

end

/-- **The good front of a segment**: its frames up to the first malformed one. -/
def segment (b : Bytes) : FrameTrees :=
  match _h : frameHead b with
  | none => .nil
  | some (id, tyByte, body, rest) =>
    match ObjValueType.fromByte tyByte with
    | none => .unknown id (segment rest)
    | some ty =>
      match parseValue ty body with
      | none => .nil
      | some value => .known id value (segment rest)
termination_by b.length
decreasing_by
  · have := length_frameHead _h
    omega
  · have := length_frameHead _h
    omega

theorem parseItems_succ (count : Nat) (b : Bytes) :
    parseItems (count + 1) b = (decodeTyped b).bind fun head =>
      (ObjValueType.fromByte head.1).bind fun ty => (parseValue ty head.2.1).bind fun item =>
        (parseItems count head.2.2).map (.cons item) := by
  rw [parseItems]
  split
  · rename_i h
    rw [h]
    rfl
  · rename_i tyByte body rest h
    rw [h, Option.bind_some]
    cases ObjValueType.fromByte tyByte with
    | none => rfl
    | some ty =>
      dsimp only [Option.bind_some]
      cases parseValue ty body with
      | none => rfl
      | some item => rfl

/-- Every element takes a byte. -/
theorem parseItems_le {count : Nat} {b : Bytes} {items : ItemTrees}
    (h : parseItems count b = some items) : count ≤ b.length := by
  induction count generalizing b items with
  | zero => exact Nat.zero_le _
  | succ count ih =>
    rw [parseItems_succ] at h
    obtain ⟨⟨tyByte, body, rest⟩, htyped, h⟩ := Option.bind_eq_some_iff.mp h
    obtain ⟨ty, -, h⟩ := Option.bind_eq_some_iff.mp h
    obtain ⟨item, -, h⟩ := Option.bind_eq_some_iff.mp h
    obtain ⟨items', hrest, -⟩ := Option.map_eq_some_iff.mp h
    have hlt := length_decodeTyped htyped
    have hle := ih hrest
    dsimp only at hle
    omega

theorem parseFrames_step {b : Bytes} (hb : b ≠ []) :
    parseFrames b = (frameHead b).bind fun head =>
      (ObjValueType.fromByte head.2.1).elim ((parseFrames head.2.2.2).map (.unknown head.1))
        fun ty => (parseValue ty head.2.2.1).bind fun value =>
          (parseFrames head.2.2.2).map (.known head.1 value) := by
  rw [parseFrames, if_neg hb]
  split
  · rename_i h
    rw [h]
    rfl
  · rename_i id tyByte body rest h
    rw [h, Option.bind_some]
    cases ObjValueType.fromByte tyByte with
    | none => rfl
    | some ty =>
      dsimp only [Option.elim_some]
      cases parseValue ty body with
      | none => rfl
      | some value => rfl

theorem segment_step (b : Bytes) :
    segment b = (frameHead b).elim .nil fun head =>
      (ObjValueType.fromByte head.2.1).elim (.unknown head.1 (segment head.2.2.2)) fun ty =>
        (parseValue ty head.2.2.1).elim .nil fun value =>
          .known head.1 value (segment head.2.2.2) := by
  rw [segment]
  split
  · rename_i h
    rw [h]
    rfl
  · rename_i id tyByte body rest h
    rw [h, Option.elim_some]
    cases ObjValueType.fromByte tyByte with
    | none => rfl
    | some ty =>
      dsimp only [Option.elim_some]
      cases parseValue ty body with
      | none => rfl
      | some value => rfl

/-! ## Trees with nothing unknown inside -/

mutual

/-- No frame inside is of an unknown type. -/
def ValueTree.typed : ValueTree → Bool
  | .leaf _ => true
  | .array items => items.typed
  | .obj frames => frames.typed

def ItemTrees.typed : ItemTrees → Bool
  | .nil => true
  | .cons item rest => item.typed && rest.typed

def FrameTrees.typed : FrameTrees → Bool
  | .nil => true
  | .unknown _ _ => false
  | .known _ value rest => value.typed && rest.typed

end

/-- Frames of unknown type stand between the others, never inside one. -/
def FrameTrees.valuesTyped : FrameTrees → Bool
  | .nil => true
  | .unknown _ rest => rest.valuesTyped
  | .known _ value rest => value.typed && rest.valuesTyped

/-! ## What a reader makes of a tree -/

section

variable {σ : Type} (nameOf : UInt16 → σ → Option String × σ)

/-- The key of a nested field: its name, or its number when the vocabulary has none. -/
def keyOf (id : UInt16) (s : σ) : String × σ :=
  ((nameOf id s).1.getD (toString id.toNat), (nameOf id s).2)

mutual

def ValueTree.named : ValueTree → σ → DynamicValue × σ
  | .leaf v, s => (v, s)
  | .array items, s => (.array (items.named s).1, (items.named s).2)
  | .obj frames, s => (.obj (frames.named [] s).1, (frames.named [] s).2)

def ItemTrees.named : ItemTrees → σ → List DynamicValue × σ
  | .nil, s => ([], s)
  | .cons item rest, s =>
    let v := item.named s
    (v.1 :: (rest.named v.2).1, (rest.named v.2).2)

/-- The fields of an object, put into the map as they come. -/
def FrameTrees.named :
    FrameTrees → List (String × DynamicValue) → σ → List (String × DynamicValue) × σ
  | .nil, acc, s => (acc, s)
  | .unknown _ rest, acc, s => rest.named acc s
  | .known id value rest, acc, s =>
    let v := value.named s
    let key := keyOf nameOf id v.2
    rest.named (SortedMap.insertEntry key.1 v.1 acc) key.2

end

/-- **The fields of a segment**: one for each frame of known type, in order, under its id. -/
def FrameTrees.fields : FrameTrees → σ → List DynamicField
  | .nil, _ => []
  | .unknown _ rest, s => rest.fields s
  | .known id value rest, s =>
    let v := value.named nameOf s
    ⟨id, v.1⟩ :: rest.fields v.2

end

end Okm.Model.Segment
