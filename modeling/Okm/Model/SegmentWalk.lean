import Okm.Model.SegmentGrammar
import Okm.Model.VarInt

/-!
# Decoding a segment in machine integers

The decoders of `obj_dynamic.rs` over a slice: an offset moves through it, lengths are
64-bit, and the elements of an array get their room before the first of them is read. So an
announced length can carry the offset past the machine's range, one of width eight shifts a
mask by all its bits (`takeLenChecked`), and an announced count can ask for more room than
the bytes behind it justify. All of these are faults.

The decoder keeps the good front of the segment just when it comes to no fault and no frame
of unknown type stands inside a value (`segment_decoded_iff`): a nested frame's unknown type
is passed up as a malformed frame, and the frame around it and all after it are lost.
-/

namespace Okm.Model.Segment

open Lib

/-- What a decoder must not come to. -/
inductive WalkFault where
  /-- an offset past the range of `usize`, or a byte shifted by its size -/
  | overflow
  /-- room for more elements than there are bytes -/
  | allocation
  deriving DecidableEq, Repr

/-- Bytes in memory: fewer than `isize::MAX`. -/
structure Slice where
  bytes : Bytes
  fits : bytes.length < 2 ^ 63

/-! ## The decoders -/

/-- A type byte, a length and its body, `size` bytes in all before and after the offset.
`off + len` is taken before it is held against the slice. -/
def decodeTypedIn (size : Nat) : Bytes → Except WalkFault (Option (UInt8 × Bytes × Bytes))
  | [] => .ok none
  | ty :: rest =>
    match takeLenChecked rest with
    | none => .error .overflow
    | some none => .ok none
    | some (some (len, n)) =>
      if 2 ^ 64 ≤ (size - (rest.drop n).length) + len then .error .overflow
      else .ok ((takeBytes len (rest.drop n)).map fun (body, rest) => (ty, body, rest))

theorem length_decodeId {b rest : Bytes} {id : UInt16} (h : decodeId b = some (id, rest)) :
    rest.length ≤ b.length := by
  cases b with
  | nil => cases h
  | cons first b =>
    rw [decodeId] at h
    split at h
    · obtain ⟨⟨raw, r⟩, htake, heq⟩ := Option.map_eq_some_iff.mp h
      obtain ⟨-, rfl⟩ := Prod.mk.inj heq
      have hsplit := length_takeBytes htake
      rw [List.length_cons]
      omega
    · obtain ⟨-, rfl⟩ := Prod.mk.inj (Option.some.inj h)
      exact Nat.le_succ _

/-- The header of a frame. -/
def frameHeadIn (size : Nat) (b : Bytes) :
    Except WalkFault (Option (UInt16 × UInt8 × Bytes × Bytes)) :=
  match decodeId b with
  | none => .ok none
  | some (id, rest) =>
    (decodeTypedIn size rest).map
      (Option.map fun (ty, body, rest) => (id, ty, body, rest))

/-- The overflow in reading the next length or in going as far as it says. -/
def typedLie (size : Nat) : Bytes → Option WalkFault
  | [] => none
  | _ :: rest =>
    match takeLenChecked rest with
    | none => some .overflow
    | some none => none
    | some (some (len, n)) =>
      if 2 ^ 64 ≤ (size - (rest.drop n).length) + len then some .overflow else none

def headLie (size : Nat) (b : Bytes) : Option WalkFault :=
  match decodeId b with
  | none => none
  | some (_, rest) => typedLie size rest

/-- A fault, or else the answer. -/
def faulted {α : Type} (lie : Option WalkFault) (answer : α) : Except WalkFault α :=
  match lie with
  | some fault => .error fault
  | none => .ok answer

theorem decodeTypedIn_eq (size : Nat) (b : Bytes) :
    decodeTypedIn size b = faulted (typedLie size b) (decodeTyped b) := by
  cases b with
  | nil => rfl
  | cons ty rest =>
    rw [decodeTypedIn, typedLie, decodeTyped]
    rcases takeLenChecked_cases rest with hread | ⟨habort, -⟩
    · rw [hread]
      cases takeLen rest with
      | none => rfl
      | some head =>
        obtain ⟨len, n⟩ := head
        dsimp only
        split
        · rfl
        · rfl
    · rw [habort]
      rfl

theorem frameHeadIn_eq (size : Nat) (b : Bytes) :
    frameHeadIn size b = faulted (headLie size b) (frameHead b) := by
  unfold frameHeadIn headLie frameHead
  cases decodeId b with
  | none => rfl
  | some head =>
    dsimp only
    rw [decodeTypedIn_eq]
    cases typedLie size head.2 with
    | none => rfl
    | some fault => rfl

theorem faulted_eq_ok {α : Type} {lie : Option WalkFault} {answer r : α}
    (h : faulted lie answer = .ok r) : answer = r := by
  cases lie with
  | none => exact Except.ok.inj h
  | some fault => cases h

theorem decodeTyped_of_in {size : Nat} {b : Bytes} {r : Option (UInt8 × Bytes × Bytes)}
    (h : decodeTypedIn size b = .ok r) : decodeTyped b = r :=
  faulted_eq_ok ((decodeTypedIn_eq size b).symm.trans h)

theorem frameHead_of_in {size : Nat} {b : Bytes} {r : Option (UInt16 × UInt8 × Bytes × Bytes)}
    (h : frameHeadIn size b = .ok r) : frameHead b = r :=
  faulted_eq_ok ((frameHeadIn_eq size b).symm.trans h)

theorem length_decodeTypedIn {size : Nat} {b body rest : Bytes} {ty : UInt8}
    (h : decodeTypedIn size b = .ok (some (ty, body, rest))) :
    body.length + rest.length < b.length :=
  length_decodeTyped (decodeTyped_of_in h)

theorem length_frameHeadIn {size : Nat} {b body rest : Bytes} {id : UInt16} {ty : UInt8}
    (h : frameHeadIn size b = .ok (some (id, ty, body, rest))) :
    body.length + rest.length < b.length :=
  length_frameHead (frameHead_of_in h)

/-- `?`: what comes next is read only behind an answer. -/
def andThen {α β : Type} (x : Except WalkFault (Option α))
    (next : α → Except WalkFault (Option β)) : Except WalkFault (Option β) :=
  match x with
  | .error fault => .error fault
  | .ok none => .ok none
  | .ok (some a) => next a

section

variable {σ : Type} (nameOf : UInt16 → σ → Option String × σ)

mutual

/-- `decode_value_named`, the resolver's state passed along. -/
def decodeValueNamed (ty : ObjValueType) (body : Bytes) (s : σ) :
    Except WalkFault (Option (DynamicValue × σ)) :=
  match ty with
  | .array =>
    match takeLenChecked body with
    | none => .error .overflow
    | some none => .ok none
    | some (some (count, n)) =>
      -- `Vec::with_capacity(count)`
      if (body.drop n).length < count then .error .allocation
      else andThen (decodeItems body.length count (body.drop n) s) fun read =>
        .ok (some (.array read.1, read.2))
  | .obj =>
    andThen (decodeFields body.length body [] s) fun read => .ok (some (.obj read.1, read.2))
  | other => .ok ((decodeLeaf other body).map fun v => (v, s))
termination_by 2 * body.length + 1
decreasing_by
  · rw [List.length_drop]
    omega
  · omega

/-- `count` array elements. -/
def decodeItems (size count : Nat) (b : Bytes) (s : σ) :
    Except WalkFault (Option (List DynamicValue × σ)) :=
  match count with
  | 0 => .ok (some ([], s))
  | count + 1 =>
    match _h : decodeTypedIn size b with
    | .error fault => .error fault
    | .ok none => .ok none
    | .ok (some (tyByte, body, rest)) =>
      match ObjValueType.fromByte tyByte with
      | none => .ok none
      | some ty =>
        andThen (decodeValueNamed ty body s) fun value =>
          andThen (decodeItems size count rest value.2) fun items =>
            .ok (some (value.1 :: items.1, items.2))
termination_by 2 * b.length
decreasing_by
  · have := length_decodeTypedIn _h
    omega
  · have := length_decodeTypedIn _h
    omega

/-- The fields of a nested object. Either error of a nested frame refuses the object. -/
def decodeFields (size : Nat) (b : Bytes) (acc : List (String × DynamicValue)) (s : σ) :
    Except WalkFault (Option (List (String × DynamicValue) × σ)) :=
  if b = [] then .ok (some (acc, s))
  else
    match _h : frameHeadIn size b with
    | .error fault => .error fault
    | .ok none => .ok none
    | .ok (some (id, tyByte, body, rest)) =>
      match ObjValueType.fromByte tyByte with
      | none => .ok none
      | some ty =>
        andThen (decodeValueNamed ty body s) fun value =>
          let key := keyOf nameOf id value.2
          decodeFields size rest (SortedMap.insertEntry key.1 value.1 acc) key.2
termination_by 2 * b.length
decreasing_by
  · have := length_frameHeadIn _h
    omega
  · have := length_frameHeadIn _h
    omega

end

/-- The frame made of what its body reads as; behind a malformed one nothing is read. -/
def frameOf (id : UInt16) (rest : Bytes) (value : Except WalkFault (Option (DynamicValue × σ))) :
    Except WalkFault (Except FrameErr (DynamicField × σ) × Bytes) :=
  match value with
  | .error fault => .error fault
  | .ok none => .ok (.error .malformed, [])
  | .ok (some (v, s)) => .ok (.ok (⟨id, v⟩, s), rest)

/-- `decode_frame_named`: the field and the resolver's state, and what follows. -/
def decodeFrameNamed (size : Nat) (b : Bytes) (s : σ) :
    Except WalkFault (Except FrameErr (DynamicField × σ) × Bytes) :=
  match frameHeadIn size b with
  | .error fault => .error fault
  | .ok none => .ok (.error .malformed, [])
  | .ok (some (id, tyByte, body, rest)) =>
    match ObjValueType.fromByte tyByte with
    | none => .ok (.error .unknownType, rest)
    | some .obj =>
      frameOf id rest (andThen (decodeFields nameOf body.length body [] s) fun read =>
        .ok (some (.obj read.1, read.2)))
    | some other => frameOf id rest (decodeValueNamed nameOf other body s)

/-- Both decoders read an object alike. -/
theorem decodeFrameNamed_known {size : Nat} {b body rest : Bytes} {id : UInt16} {tyByte : UInt8}
    {ty : ObjValueType} (h : frameHeadIn size b = .ok (some (id, tyByte, body, rest)))
    (hty : ObjValueType.fromByte tyByte = some ty) (s : σ) :
    decodeFrameNamed nameOf size b s = frameOf id rest (decodeValueNamed nameOf ty body s) := by
  unfold decodeFrameNamed
  rw [h]
  dsimp only
  rw [hty]
  cases ty with
  | obj => rw [decodeValueNamed]
  | _ => rfl

theorem length_decodeFrameNamed {size : Nat} {b rest : Bytes} {s : σ}
    {answer : Except FrameErr (DynamicField × σ)} (hb : b ≠ [])
    (h : decodeFrameNamed nameOf size b s = .ok (answer, rest)) : rest.length < b.length := by
  have hpos := List.length_pos_iff.mpr hb
  cases hhead : frameHeadIn size b with
  | error fault =>
    unfold decodeFrameNamed at h
    rw [hhead] at h
    cases h
  | ok head =>
    cases head with
    | none =>
      unfold decodeFrameNamed at h
      rw [hhead] at h
      obtain ⟨-, rfl⟩ := Prod.mk.inj (Except.ok.inj h)
      exact hpos
    | some head =>
      obtain ⟨id, tyByte, body, rest'⟩ := head
      have hlt := length_frameHeadIn hhead
      cases hty : ObjValueType.fromByte tyByte with
      | none =>
        unfold decodeFrameNamed at h
        rw [hhead] at h
        dsimp only at h
        rw [hty] at h
        obtain ⟨-, rfl⟩ := Prod.mk.inj (Except.ok.inj h)
        omega
      | some ty =>
        rw [decodeFrameNamed_known nameOf hhead hty] at h
        unfold frameOf at h
        split at h
        · cases h
        · obtain ⟨-, rfl⟩ := Prod.mk.inj (Except.ok.inj h)
          exact hpos
        · obtain ⟨-, rfl⟩ := Prod.mk.inj (Except.ok.inj h)
          omega

/-- The loop of both list decoders: frames until the bytes run out. -/
def decodeFrames (size : Nat) (b : Bytes) (s : σ) : Except WalkFault (List DynamicField) :=
  if _hb : b = [] then .ok []
  else
    match _h : decodeFrameNamed nameOf size b s with
    | .error fault => .error fault
    | .ok (.ok (field, s), rest) => (decodeFrames size rest s).map (field :: ·)
    | .ok (.error .unknownType, rest) => decodeFrames size rest s
    | .ok (.error .malformed, _) => .ok []
termination_by b.length
decreasing_by
  · exact length_decodeFrameNamed nameOf _hb _h
  · exact length_decodeFrameNamed nameOf _hb _h

/-- `decode_named`. -/
def decodeNamed (bytes : Slice) (s : σ) : Except WalkFault (List DynamicField) :=
  decodeFrames nameOf bytes.bytes.length bytes.bytes s

end

/-- The resolver of `decode_frame`: no field has a name. -/
def noNames (_ : UInt16) (s : Unit) : Option String × Unit := (none, s)

/-- `decode_variants`. -/
def decodeVariants (bytes : Slice) : Except WalkFault (List DynamicField) :=
  decodeNamed noNames bytes ()

/-! ## Where the walk comes to a fault -/

/-- The fault inside a value that is not read to its end, or behind one the walk gets past. -/
def lieBehind (parsed : Option ValueTree) (inside behind : Option WalkFault) :
    Option WalkFault :=
  match parsed with
  | none => inside
  | some value => if value.typed then behind else none

mutual

/-- The fault in a body of a known type, if there is one. -/
def valueLie (ty : ObjValueType) (body : Bytes) : Option WalkFault :=
  match ty with
  | .array =>
    match takeLenChecked body with
    | none => some .overflow
    | some none => none
    | some (some (count, n)) =>
      if (body.drop n).length < count then some .allocation
      else itemsLie body.length count (body.drop n)
  | .obj => framesLie body.length body
  | _ => none
termination_by 2 * body.length + 1
decreasing_by
  · rw [List.length_drop]
    omega
  · omega

/-- The fault among elements. -/
def itemsLie (size count : Nat) (b : Bytes) : Option WalkFault :=
  match count with
  | 0 => none
  | count + 1 =>
    (typedLie size b).or <|
      match _h : decodeTyped b with
      | none => none
      | some (tyByte, body, rest) =>
        match ObjValueType.fromByte tyByte with
        | none => none
        | some ty => lieBehind (parseValue ty body) (valueLie ty body) (itemsLie size count rest)
termination_by 2 * b.length
decreasing_by
  · have := length_decodeTyped _h
    omega
  · have := length_decodeTyped _h
    omega

/-- The fault among the frames of an object. -/
def framesLie (size : Nat) (b : Bytes) : Option WalkFault :=
  if b = [] then none
  else
    (headLie size b).or <|
      match _h : frameHead b with
      | none => none
      | some (_, tyByte, body, rest) =>
        match ObjValueType.fromByte tyByte with
        | none => none
        | some ty => lieBehind (parseValue ty body) (valueLie ty body) (framesLie size rest)
termination_by 2 * b.length
decreasing_by
  · have := length_frameHead _h
    omega
  · have := length_frameHead _h
    omega

end

/-- The fault in a segment; a frame of unknown type is got past here. -/
def segmentLie (size : Nat) (b : Bytes) : Option WalkFault :=
  (headLie size b).or <|
    match _h : frameHead b with
    | none => none
    | some (_, tyByte, body, rest) =>
      match ObjValueType.fromByte tyByte with
      | none => segmentLie size rest
      | some ty => lieBehind (parseValue ty body) (valueLie ty body) (segmentLie size rest)
termination_by b.length
decreasing_by
  · have := length_frameHead _h
    omega
  · have := length_frameHead _h
    omega

/-- No length and no count lies where the walk comes by. -/
def Slice.honest (bytes : Slice) : Bool := (segmentLie bytes.bytes.length bytes.bytes).isNone

/-! ## The walk reads what the grammar says -/

/-- A length whose body stands in the slice carries the offset to its end at most. -/
theorem typedLie_of_decodeTyped {size : Nat} {b : Bytes} {typed : UInt8 × Bytes × Bytes}
    (hb : b.length ≤ size) (hsize : size < 2 ^ 63) (h : decodeTyped b = some typed) :
    typedLie size b = none := by
  cases b with
  | nil => rfl
  | cons ty rest =>
    rw [decodeTyped] at h
    rw [typedLie]
    cases hlen : takeLen rest with
    | none =>
      rcases takeLenChecked_cases rest with hread | ⟨-, len, hwide, -⟩
      · rw [hread, hlen]
      · rw [hlen] at hwide
        cases hwide
    | some head =>
      obtain ⟨len, n⟩ := head
      rw [hlen] at h
      obtain ⟨p, htake, -⟩ := Option.map_eq_some_iff.mp h
      have hfits : len ≤ (rest.drop n).length := by
        by_contra hlong
        rw [takeBytes, if_neg hlong] at htake
        cases htake
      have hdrop : (rest.drop n).length ≤ size := by
        rw [List.length_drop]
        rw [List.length_cons] at hb
        omega
      rcases takeLenChecked_cases rest with hread | ⟨-, len', hwide, hlong⟩
      · rw [hread, hlen]
        exact if_neg (by omega)
      · -- no slice holds a body of such a length
        rw [hlen] at hwide
        obtain ⟨rfl, -⟩ := Prod.mk.inj (Option.some.inj hwide)
        omega

theorem headLie_of_frameHead {size : Nat} {b : Bytes} {head : UInt16 × UInt8 × Bytes × Bytes}
    (hb : b.length ≤ size) (hsize : size < 2 ^ 63) (h : frameHead b = some head) :
    headLie size b = none := by
  unfold frameHead at h
  unfold headLie
  cases hid : decodeId b with
  | none => rfl
  | some p =>
    obtain ⟨id, rest⟩ := p
    rw [hid] at h
    obtain ⟨typed, htyped, -⟩ := Option.map_eq_some_iff.mp h
    exact typedLie_of_decodeTyped (le_trans (length_decodeId hid) hb) hsize htyped

/-- What a walk answers: what the grammar reads, unless a frame of unknown type stands inside;
where the grammar reads nothing, the fault the walk comes to or a refusal. -/
def answers {τ α : Type} (parsed : Option τ) (typed : τ → Bool) (lie : Option WalkFault)
    (read : τ → α) : Except WalkFault (Option α) :=
  match parsed with
  | some tree => .ok (if typed tree then some (read tree) else none)
  | none => faulted lie none

section

variable {α β τ : Type} {lie inside behind : Option WalkFault} {typed : τ → Bool}

/-- An answer put into a larger one. -/
theorem andThen_answers {parsed : Option τ} {υ : Type} {wrap : τ → υ} {typedIn : υ → Bool}
    (hwrap : ∀ tree, typedIn (wrap tree) = typed tree) {read : τ → α} {readIn : υ → β}
    {into : α → β} (hread : ∀ tree, readIn (wrap tree) = into (read tree)) :
    (andThen (answers parsed typed lie read) fun a => .ok (some (into a))) =
      answers (parsed.map wrap) typedIn lie readIn := by
  cases parsed with
  | none =>
    cases lie with
    | none => rfl
    | some fault => rfl
  | some tree =>
    simp only [answers, Option.map_some, hwrap, hread]
    cases typed tree with
    | false => rfl
    | true => rfl

/-- **Behind a value the rest is read**, unless a frame of unknown type stands inside it. -/
theorem andThen_behind {parsed : Option ValueTree} {readValue : ValueTree → α}
    {next : α → Except WalkFault (Option β)} {tail : Option τ} {readTail : α → τ → β}
    (hnext : ∀ a, next a = answers tail typed behind (readTail a))
    {join : ValueTree → τ → τ} {read : τ → β}
    (hjoin : ∀ value tree, typed (join value tree) = (value.typed && typed tree))
    (hread : ∀ value tree, read (join value tree) = readTail (readValue value) tree) :
    andThen (answers parsed ValueTree.typed inside readValue) next =
      answers (parsed.bind fun value => tail.map (join value)) typed
        (lieBehind parsed inside behind) read := by
  cases parsed with
  | none =>
    cases inside with
    | none => rfl
    | some fault => rfl
  | some value =>
    cases hvalue : value.typed with
    | false =>
      -- the walk ends here, whatever the rest would be
      cases tail with
      | none => simp [andThen, answers, lieBehind, hvalue, faulted]
      | some tree => simp [andThen, answers, hvalue, hjoin]
    | true =>
      cases tail with
      | none => simp [andThen, answers, lieBehind, hvalue, hnext]
      | some tree => simp [andThen, answers, hvalue, hnext, hjoin, hread]

end

section

variable {σ : Type} (nameOf : UInt16 → σ → Option String × σ) {size count : Nat}
  {b body rest : Bytes} {id : UInt16} {tyByte : UInt8} {ty : ObjValueType} {s : σ}

theorem answers_leaf (leaf : Option DynamicValue) (s : σ) :
    Except.ok (leaf.map fun v => (v, s)) =
      answers (leaf.map ValueTree.leaf) ValueTree.typed none
        fun tree => tree.named nameOf s := by
  cases leaf with
  | none => rfl
  | some v => rfl

theorem itemsLie_succ : itemsLie size (count + 1) b = (typedLie size b).or
    ((decodeTyped b).bind fun head => (ObjValueType.fromByte head.1).bind fun ty =>
      lieBehind (parseValue ty head.2.1) (valueLie ty head.2.1)
        (itemsLie size count head.2.2)) := by
  rw [itemsLie]
  congr 1
  split
  · rename_i h
    rw [h]
    rfl
  · rename_i tyByte body rest h
    rw [h, Option.bind_some]
    cases ObjValueType.fromByte tyByte with
    | none => rfl
    | some ty => rfl

theorem decodeItems_succ : decodeItems nameOf size (count + 1) b s =
    andThen (decodeTypedIn size b) fun head =>
      (ObjValueType.fromByte head.1).elim (.ok none) fun ty =>
        andThen (decodeValueNamed nameOf ty head.2.1 s) fun value =>
          andThen (decodeItems nameOf size count head.2.2 value.2) fun items =>
            .ok (some (value.1 :: items.1, items.2)) := by
  rw [decodeItems]
  split
  · rename_i h
    rw [h]
    rfl
  · rename_i h
    rw [h]
    rfl
  · rename_i tyByte body rest h
    rw [h]
    cases hty : ObjValueType.fromByte tyByte with
    | none => simp only [andThen, hty, Option.elim_none]
    | some ty => simp only [andThen, hty, Option.elim_some]

theorem framesLie_step (hb : b ≠ []) : framesLie size b = (headLie size b).or
    ((frameHead b).bind fun head => (ObjValueType.fromByte head.2.1).bind fun ty =>
      lieBehind (parseValue ty head.2.2.1) (valueLie ty head.2.2.1)
        (framesLie size head.2.2.2)) := by
  rw [framesLie, if_neg hb]
  congr 1
  split
  · rename_i h
    rw [h]
    rfl
  · rename_i id tyByte body rest h
    rw [h, Option.bind_some]
    cases ObjValueType.fromByte tyByte with
    | none => rfl
    | some ty => rfl

theorem decodeFields_step (hb : b ≠ []) {acc : List (String × DynamicValue)} :
    decodeFields nameOf size b acc s = andThen (frameHeadIn size b) fun head =>
      (ObjValueType.fromByte head.2.1).elim (.ok none) fun ty =>
        andThen (decodeValueNamed nameOf ty head.2.2.1 s) fun value =>
          decodeFields nameOf size head.2.2.2
            (SortedMap.insertEntry (keyOf nameOf head.1 value.2).1 value.1 acc)
            (keyOf nameOf head.1 value.2).2 := by
  rw [decodeFields, if_neg hb]
  split
  · rename_i h
    rw [h]
    rfl
  · rename_i h
    rw [h]
    rfl
  · rename_i id tyByte body rest h
    rw [h]
    cases hty : ObjValueType.fromByte tyByte with
    | none => simp only [andThen, hty, Option.elim_none]
    | some ty => simp only [andThen, hty, Option.elim_some]

theorem segmentLie_step : segmentLie size b = (headLie size b).or
    ((frameHead b).bind fun head =>
      (ObjValueType.fromByte head.2.1).elim (segmentLie size head.2.2.2) fun ty =>
        lieBehind (parseValue ty head.2.2.1) (valueLie ty head.2.2.1)
          (segmentLie size head.2.2.2)) := by
  rw [segmentLie]
  congr 1
  split
  · rename_i h
    rw [h]
    rfl
  · rename_i id tyByte body rest h
    rw [h, Option.bind_some]
    cases ObjValueType.fromByte tyByte with
    | none => rfl
    | some ty => rfl

end

section

variable {σ : Type} (nameOf : UInt16 → σ → Option String × σ)

mutual

/-- **A value is read as the grammar has it**, or refused, or the walk comes to its fault. -/
theorem decodeValueNamed_eq (ty : ObjValueType) (body : Bytes) (hbody : body.length < 2 ^ 63)
    (s : σ) : decodeValueNamed nameOf ty body s =
      answers (parseValue ty body) ValueTree.typed (valueLie ty body)
        fun tree => tree.named nameOf s := by
  cases ty with
  | array =>
    rw [decodeValueNamed, parseValue, valueLie]
    rcases (takeLenChecked_cases body).symm with ⟨habort, count, hwide, hmany⟩ | hread
    · -- no slice holds so many elements
      rw [habort, hwide]
      dsimp only
      cases hitems : parseItems count (body.drop 8) with
      | none => rfl
      | some items =>
        have hle := parseItems_le hitems
        rw [List.length_drop] at hle
        omega
    rw [hread]
    cases takeLen body with
    | none => rfl
    | some head =>
      obtain ⟨count, n⟩ := head
      dsimp only
      have hdrop : (body.drop n).length ≤ body.length := by
        rw [List.length_drop]
        omega
      split
      · rename_i hmany
        -- more elements than bytes are never read
        cases hitems : parseItems count (body.drop n) with
        | none => rfl
        | some items =>
          have := parseItems_le hitems
          omega
      · rw [decodeItems_eq body.length count (body.drop n) hdrop hbody s]
        refine andThen_answers ?_ ?_
        · intro items
          rw [ValueTree.typed]
        · intro items
          rw [ValueTree.named]
  | obj =>
    rw [decodeValueNamed, parseValue, valueLie, decodeFields_eq body.length body le_rfl hbody]
    refine andThen_answers ?_ ?_
    · intro frames
      rw [ValueTree.typed]
    · intro frames
      rw [ValueTree.named]
  | _ =>
    simp only [decodeValueNamed, parseValue, valueLie]
    exact answers_leaf nameOf _ s
termination_by 2 * body.length + 1

theorem decodeItems_eq (size count : Nat) (b : Bytes) (hb : b.length ≤ size)
    (hsize : size < 2 ^ 63) (s : σ) : decodeItems nameOf size count b s =
      answers (parseItems count b) ItemTrees.typed (itemsLie size count b)
        fun items => items.named nameOf s := by
  cases count with
  | zero =>
    rw [decodeItems, parseItems]
    rfl
  | succ count =>
    rw [decodeItems_succ, parseItems_succ, itemsLie_succ, decodeTypedIn_eq]
    cases hhead : decodeTyped b with
    | none => cases typedLie size b <;> rfl
    | some head =>
      obtain ⟨tyByte, body, rest⟩ := head
      have hlt := length_decodeTyped hhead
      rw [typedLie_of_decodeTyped hb hsize hhead]
      dsimp only [faulted, andThen, Option.none_or, Option.bind_some]
      cases ObjValueType.fromByte tyByte with
      | none => rfl
      | some ty =>
        dsimp only [Option.elim_some, Option.bind_some]
        rw [decodeValueNamed_eq ty body (by omega) s]
        have hnext : ∀ value : DynamicValue × σ,
            (andThen (decodeItems nameOf size count rest value.2) fun items =>
              .ok (some (value.1 :: items.1, items.2))) =
            answers (parseItems count rest) ItemTrees.typed (itemsLie size count rest) fun items =>
              (value.1 :: (items.named nameOf value.2).1, (items.named nameOf value.2).2) := by
          intro value
          rw [decodeItems_eq size count rest (by omega) hsize value.2]
          cases parseItems count rest with
          | none => cases itemsLie size count rest <;> rfl
          | some items => cases htyped : items.typed <;> simp [andThen, answers, htyped]
        refine andThen_behind hnext ?_ ?_
        · intro item items
          rw [ItemTrees.typed]
        · intro item items
          rw [ItemTrees.named]
termination_by 2 * b.length

theorem decodeFields_eq (size : Nat) (b : Bytes) (hb : b.length ≤ size)
    (hsize : size < 2 ^ 63) (acc : List (String × DynamicValue)) (s : σ) :
    decodeFields nameOf size b acc s =
      answers (parseFrames b) FrameTrees.typed (framesLie size b)
        fun frames => frames.named nameOf acc s := by
  by_cases hnil : b = []
  · rw [decodeFields, if_pos hnil, parseFrames, if_pos hnil]
    rfl
  · rw [decodeFields_step nameOf hnil, parseFrames_step hnil, framesLie_step hnil, frameHeadIn_eq]
    cases hhead : frameHead b with
    | none => cases headLie size b <;> rfl
    | some head =>
      obtain ⟨id, tyByte, body, rest⟩ := head
      have hlt := length_frameHead hhead
      rw [headLie_of_frameHead hb hsize hhead]
      dsimp only [faulted, andThen, Option.none_or, Option.bind_some]
      cases ObjValueType.fromByte tyByte with
      | none =>
        -- a frame of unknown type inside: refused, whatever stands behind it
        dsimp only [Option.elim_none, Option.bind_none]
        cases parseFrames rest with
        | none => rfl
        | some frames => rfl
      | some ty =>
        dsimp only [Option.elim_some, Option.bind_some]
        rw [decodeValueNamed_eq ty body (by omega) s]
        have hnext := fun value : DynamicValue × σ =>
          decodeFields_eq size rest (by omega) hsize
            (SortedMap.insertEntry (keyOf nameOf id value.2).1 value.1 acc)
            (keyOf nameOf id value.2).2
        refine andThen_behind hnext ?_ ?_
        · intro value frames
          rw [FrameTrees.typed]
        · intro value frames
          rw [FrameTrees.named]
termination_by 2 * b.length

end

variable {size : Nat} {b rest : Bytes} {s s' : σ}

/-- One turn of the loop, by what the frame came to. -/
def turn (frame : Except WalkFault (Except FrameErr (DynamicField × σ) × Bytes))
    (next : Bytes → σ → Except WalkFault (List DynamicField)) (s : σ) :
    Except WalkFault (List DynamicField) :=
  match frame with
  | .error fault => .error fault
  | .ok (.ok (field, s), rest) => (next rest s).map (field :: ·)
  | .ok (.error .unknownType, rest) => next rest s
  | .ok (.error .malformed, _) => .ok []

theorem decodeFrames_step (hb : b ≠ []) : decodeFrames nameOf size b s =
    turn (decodeFrameNamed nameOf size b s) (decodeFrames nameOf size) s := by
  rw [decodeFrames, dif_neg hb]
  split
  all_goals
    rename_i h
    rw [h]
    rfl

/-- **A segment is read as the grammar has it** just when the walk comes to no fault and no
frame of unknown type stands inside a value. -/
theorem decodeFrames_iff (hb : b.length ≤ size) (hsize : size < 2 ^ 63) (s : σ) :
    decodeFrames nameOf size b s = .ok ((segment b).fields nameOf s) ↔
      segmentLie size b = none ∧ (segment b).valuesTyped = true := by
  induction hn : b.length using Nat.strong_induction_on generalizing b s with
  | _ n ih =>
    by_cases hnil : b = []
    · subst hnil
      have hlie : segmentLie size [] = none := by
        rw [segmentLie_step]
        rfl
      have hsegment : segment [] = .nil := by
        rw [segment_step]
        rfl
      rw [decodeFrames, dif_pos rfl, hlie, hsegment]
      exact ⟨fun _ => ⟨rfl, rfl⟩, fun _ => rfl⟩
    · rw [decodeFrames_step nameOf hnil, segmentLie_step, segment_step]
      have hcode := frameHeadIn_eq size b
      cases hhead : frameHead b with
      | none =>
        rw [hhead] at hcode
        unfold decodeFrameNamed
        rw [hcode]
        cases headLie size b with
        | none => exact ⟨fun _ => ⟨rfl, rfl⟩, fun _ => rfl⟩
        | some fault =>
          refine ⟨fun h => ?_, fun h => ?_⟩
          · cases h
          · cases h.1
      | some head =>
        obtain ⟨id, tyByte, body, rest⟩ := head
        have hlt := length_frameHead hhead
        rw [hhead, headLie_of_frameHead hb hsize hhead] at hcode
        rw [headLie_of_frameHead hb hsize hhead]
        have hrest : ∀ s, decodeFrames nameOf size rest s = .ok ((segment rest).fields nameOf s) ↔
            segmentLie size rest = none ∧ (segment rest).valuesTyped = true := fun s =>
          ih rest.length (by omega) (by omega) s rfl
        dsimp only [Option.none_or, Option.bind_some, Option.elim_some]
        cases hty : ObjValueType.fromByte tyByte with
        | none =>
          -- passed over by its length
          have hframe : decodeFrameNamed nameOf size b s = .ok (.error .unknownType, rest) := by
            unfold decodeFrameNamed
            rw [hcode]
            dsimp only [faulted]
            rw [hty]
          rw [hframe]
          exact hrest s
        | some ty =>
          rw [decodeFrameNamed_known nameOf hcode hty, decodeValueNamed_eq nameOf ty body (by omega)]
          dsimp only [Option.elim_some]
          cases parseValue ty body with
          | none =>
            dsimp only [answers, lieBehind, Option.elim_none]
            cases valueLie ty body with
            | none => exact ⟨fun _ => ⟨rfl, rfl⟩, fun _ => rfl⟩
            | some fault =>
              refine ⟨fun h => ?_, fun h => ?_⟩
              · cases h
              · cases h.1
          | some value =>
            dsimp only [answers, lieBehind, Option.elim_some]
            rw [FrameTrees.valuesTyped, FrameTrees.fields]
            cases value.typed with
            | false =>
              -- the frame is taken for a malformed one and its field is missing
              refine ⟨fun h => ?_, fun h => ?_⟩
              · cases h
              · cases h.2
            | true =>
              refine Iff.trans ?_ (hrest (value.named nameOf s).2)
              simp only [if_true, frameOf, turn]
              cases decodeFrames nameOf size rest (value.named nameOf s).2 with
              | error fault =>
                refine ⟨fun h => ?_, fun h => ?_⟩
                · cases h
                · cases h
              | ok fields =>
                refine ⟨fun h => ?_, fun h => ?_⟩
                · exact congrArg Except.ok (List.cons.inj (Except.ok.inj h)).2
                · rw [Except.ok.inj h]
                  rfl

end

/-- **Decoding keeps the good front of a segment** just when nothing announced lies where the
walk comes by and frames of unknown type stand between the fields, none of them inside a
value: then both decoders answer with the fields of the known frames before the first
malformed one. -/
theorem segment_decoded_iff (bytes : Slice) :
    (∀ {σ : Type} (nameOf : UInt16 → σ → Option String × σ) (s : σ),
      decodeNamed nameOf bytes s = .ok ((segment bytes.bytes).fields nameOf s) ↔
        bytes.honest = true ∧ (segment bytes.bytes).valuesTyped = true) ∧
    (decodeVariants bytes = .ok ((segment bytes.bytes).fields noNames ()) ↔
      bytes.honest = true ∧ (segment bytes.bytes).valuesTyped = true) := by
  have hiff : ∀ {σ : Type} (nameOf : UInt16 → σ → Option String × σ) (s : σ),
      decodeNamed nameOf bytes s = .ok ((segment bytes.bytes).fields nameOf s) ↔
        bytes.honest = true ∧ (segment bytes.bytes).valuesTyped = true := by
    intro σ nameOf s
    rw [Slice.honest, Option.isNone_iff_eq_none]
    exact decodeFrames_iff nameOf le_rfl bytes.fits s
  exact ⟨hiff, hiff noNames ()⟩

/-- An object with a frame of type 99 inside it, and a frame behind it. -/
def mixed : Slice := ⟨[1, 7, 4, 2, 99, 1, 0, 3, 0, 1, 5], by decide⟩

/-- A frame that announces 2⁶⁴ − 1 bytes. -/
def boundless : Slice := ⟨[1, 2, 0xFF, 0xFF, 0xFF, 0xFF, 0xFF, 0xFF, 0xFF, 0xFF, 0xFF], by decide⟩

/-- A frame with its length written in width eight. -/
def wideLength : Slice := ⟨[1, 2, 0xFE, 0, 0, 0, 0, 0, 0, 1, 65], by decide⟩

/-- An array that announces 2⁶³ − 1 elements in eight bytes. -/
def crowded : Slice := ⟨[1, 6, 9, 0xFF, 0x7F, 0xFF, 0xFF, 0xFF, 0xFF, 0xFF, 0xFF, 0xFF], by decide⟩

/-- The object with a frame of unknown type inside it is lost, and so is the frame behind it;
the other three announce what the decoder does not survive. -/
theorem unknown_inside_loses :
    (decodeVariants mixed = .ok [] ∧
      ((segment mixed.bytes).fields noNames ()).map DynamicField.id = [1, 3]) ∧
    decodeVariants boundless = .error .overflow ∧ decodeVariants wideLength = .error .overflow ∧
    decodeVariants crowded = .error .allocation := by
  have hmixed : frameHead mixed.bytes = some (1, 7, [2, 99, 1, 0], [3, 0, 1, 5]) := by decide
  have hinner : frameHead [2, 99, 1, 0] = some (2, 99, [0], []) := by decide
  have hlast : frameHead [3, 0, 1, 5] = some (3, 0, [5], []) := by decide
  refine ⟨⟨?_, ?_⟩, ?_, ?_, ?_⟩
  · -- the object around the unknown frame is lost, and the rest of the segment with it
    have hread : decodeFields noNames 4 [2, 99, 1, 0] [] () = .ok none := by
      rw [decodeFields_step noNames (List.cons_ne_nil _ _)]
      rfl
    have hframe : decodeFrameNamed noNames 11 mixed.bytes () = .ok (.error .malformed, []) := by
      rw [decodeFrameNamed_known noNames rfl rfl, decodeValueNamed]
      exact congrArg (fun read => frameOf 1 [3, 0, 1, 5] (andThen read _)) hread
    have hbytes : mixed.bytes ≠ [] := List.cons_ne_nil _ _
    show decodeFrames noNames 11 mixed.bytes () = _
    rw [decodeFrames_step noNames hbytes, hframe]
    rfl
  · -- the grammar reads the same bytes and keeps both fields
    have hnone : parseFrames [] = some .nil := by
      rw [parseFrames, if_pos rfl]
    have hobj : parseValue .obj [2, 99, 1, 0] = some (.obj (.unknown 2 .nil)) := by
      rw [parseValue, parseFrames_step (List.cons_ne_nil _ _), hinner]
      dsimp only [Option.bind_some]
      rw [hnone]
      rfl
    have huint : parseValue .uint [5] = some (.leaf (.uint 5)) := by
      unfold parseValue
      rfl
    have hend : segment [] = .nil := by
      rw [segment_step]
      rfl
    have htail : segment [3, 0, 1, 5] = .known 3 (.leaf (.uint 5)) .nil := by
      rw [segment_step, hlast]
      dsimp only [Option.elim_some]
      rw [hend]
      show (parseValue .uint [5]).elim _ _ = _
      rw [huint]
      rfl
    rw [segment_step, hmixed]
    dsimp only [Option.elim_some]
    rw [htail]
    show (FrameTrees.fields _ ((parseValue .obj [2, 99, 1, 0]).elim _ _) ()).map _ = _
    rw [hobj]
    rfl
  · -- lengths no checked build adds up
    have hbytes : boundless.bytes ≠ [] := List.cons_ne_nil _ _
    show decodeFrames noNames 11 boundless.bytes () = _
    rw [decodeFrames_step noNames hbytes]
    rfl
  · have hbytes : wideLength.bytes ≠ [] := List.cons_ne_nil _ _
    show decodeFrames noNames 11 wideLength.bytes () = _
    rw [decodeFrames_step noNames hbytes]
    rfl
  · -- more items announced than can be allocated
    have hbytes : crowded.bytes ≠ [] := List.cons_ne_nil _ _
    have hframe : decodeFrameNamed noNames 12 crowded.bytes () = .error .allocation := by
      rw [decodeFrameNamed_known noNames rfl rfl, decodeValueNamed]
      rfl
    show decodeFrames noNames 12 crowded.bytes () = _
    rw [decodeFrames_step noNames hbytes, hframe]
    rfl

/-! ## The walk and the decoder without machine integers -/

section

variable (nameOf : UInt16 → Option String)

/-- A resolver that keeps no state. -/
def stateless (id : UInt16) (s : Unit) : Option String × Unit := (nameOf id, s)

theorem andThen_eq_ok {α β : Type} {x : Except WalkFault (Option α)}
    {next : α → Except WalkFault (Option β)} {r : Option β} :
    andThen x next = .ok r ↔ (x = .ok none ∧ r = none) ∨ ∃ a, x = .ok (some a) ∧ next a = .ok r := by
  cases x with
  | error fault => simp [andThen]
  | ok read =>
    cases read with
    | none => simp [andThen, eq_comm]
    | some a => simp [andThen]

theorem decodeItems_pure (count : Nat) (b : Bytes) :
    Model.decodeItems nameOf (count + 1) b = (decodeTyped b).bind fun head =>
      (ObjValueType.fromByte head.1).bind fun ty =>
        (Model.decodeValueNamed nameOf ty head.2.1).bind fun v =>
          (Model.decodeItems nameOf count head.2.2).map (v :: ·) := by
  rw [Model.decodeItems]
  split
  · rename_i h
    rw [h]
    rfl
  · rename_i tyByte body rest h
    rw [h, Option.bind_some]
    cases ObjValueType.fromByte tyByte with
    | none => rfl
    | some ty =>
      dsimp only [Option.bind_some]
      cases Model.decodeValueNamed nameOf ty body with
      | none => rfl
      | some v => rfl

theorem decodeFields_pure {b : Bytes} (hb : b ≠ []) (acc : List (String × DynamicValue)) :
    Model.decodeFields nameOf b acc = (frameHead b).bind fun head =>
      (ObjValueType.fromByte head.2.1).bind fun ty =>
        (Model.decodeValueNamed nameOf ty head.2.2.1).bind fun v =>
          Model.decodeFields nameOf head.2.2.2
            (SortedMap.insertEntry ((nameOf head.1).getD (toString head.1.toNat)) v acc) := by
  rw [Model.decodeFields, if_neg hb]
  split
  · rename_i h
    rw [h]
    rfl
  · rename_i id tyByte body rest h
    rw [h, Option.bind_some]
    cases ObjValueType.fromByte tyByte with
    | none => rfl
    | some ty =>
      dsimp only [Option.bind_some]
      cases Model.decodeValueNamed nameOf ty body with
      | none => rfl
      | some v => rfl

mutual

theorem value_refines (ty : ObjValueType) (body : Bytes) {r : Option (DynamicValue × Unit)}
    (h : decodeValueNamed (stateless nameOf) ty body () = .ok r) :
    Model.decodeValueNamed nameOf ty body = r.map Prod.fst := by
  cases ty with
  | array =>
    rw [decodeValueNamed] at h
    rw [Model.decodeValueNamed]
    -- a count that is read is the one the plain walk reads
    rcases (takeLenChecked_cases body).symm with ⟨habort, -⟩ | hread
    · rw [habort] at h
      cases h
    rw [hread] at h
    cases hlen : takeLen body with
    | none =>
      rw [hlen] at h
      obtain rfl := Except.ok.inj h
      rfl
    | some head =>
      obtain ⟨count, n⟩ := head
      rw [hlen] at h
      dsimp only at h ⊢
      split at h
      · cases h
      · rcases andThen_eq_ok.mp h with ⟨hitems, rfl⟩ | ⟨items, hitems, hr⟩
        · rw [items_refines body.length count (body.drop n) hitems]
          rfl
        · obtain rfl := Except.ok.inj hr
          rw [items_refines body.length count (body.drop n) hitems]
          rfl
  | obj =>
    rw [decodeValueNamed] at h
    rw [Model.decodeValueNamed]
    rcases andThen_eq_ok.mp h with ⟨hfields, rfl⟩ | ⟨fields, hfields, hr⟩
    · rw [fields_refines body.length body [] hfields]
      rfl
    · obtain rfl := Except.ok.inj hr
      rw [fields_refines body.length body [] hfields]
      rfl
  | _ =>
    simp only [decodeValueNamed] at h
    obtain rfl := Except.ok.inj h
    rw [Option.map_map]
    unfold Model.decodeValueNamed
    exact Option.map_id'.symm
termination_by 2 * body.length + 1

theorem items_refines (size count : Nat) (b : Bytes) {r : Option (List DynamicValue × Unit)}
    (h : decodeItems (stateless nameOf) size count b () = .ok r) :
    Model.decodeItems nameOf count b = r.map Prod.fst := by
  cases count with
  | zero =>
    rw [decodeItems] at h
    obtain rfl := Except.ok.inj h
    rw [Model.decodeItems]
    rfl
  | succ count =>
    rw [decodeItems_succ] at h
    rw [decodeItems_pure]
    rcases andThen_eq_ok.mp h with ⟨hhead, rfl⟩ | ⟨⟨tyByte, body, rest⟩, hhead, h⟩
    · rw [decodeTyped_of_in hhead]
      rfl
    · have hlt := length_decodeTypedIn hhead
      rw [decodeTyped_of_in hhead, Option.bind_some]
      cases hty : ObjValueType.fromByte tyByte with
      | none =>
        rw [hty] at h
        obtain rfl := Except.ok.inj h
        rfl
      | some ty =>
        rw [hty, Option.elim_some] at h
        rw [Option.bind_some]
        rcases andThen_eq_ok.mp h with ⟨hvalue, rfl⟩ | ⟨value, hvalue, h⟩
        · rw [value_refines ty body hvalue]
          rfl
        · rw [value_refines ty body hvalue]
          rcases andThen_eq_ok.mp h with ⟨hitems, rfl⟩ | ⟨items, hitems, hr⟩
          · exact congrArg (Option.map _) (items_refines size count rest hitems)
          · obtain rfl := Except.ok.inj hr
            exact congrArg (Option.map _) (items_refines size count rest hitems)
termination_by 2 * b.length

theorem fields_refines (size : Nat) (b : Bytes) (acc : List (String × DynamicValue))
    {r : Option (List (String × DynamicValue) × Unit)}
    (h : decodeFields (stateless nameOf) size b acc () = .ok r) :
    Model.decodeFields nameOf b acc = r.map Prod.fst := by
  by_cases hnil : b = []
  · rw [decodeFields, if_pos hnil] at h
    obtain rfl := Except.ok.inj h
    rw [Model.decodeFields, if_pos hnil]
    rfl
  · rw [decodeFields_step (stateless nameOf) hnil] at h
    rw [decodeFields_pure nameOf hnil]
    rcases andThen_eq_ok.mp h with ⟨hhead, rfl⟩ | ⟨⟨id, tyByte, body, rest⟩, hhead, h⟩
    · rw [frameHead_of_in hhead]
      rfl
    · have hlt := length_frameHeadIn hhead
      rw [frameHead_of_in hhead, Option.bind_some]
      cases hty : ObjValueType.fromByte tyByte with
      | none =>
        rw [hty] at h
        obtain rfl := Except.ok.inj h
        rfl
      | some ty =>
        rw [hty, Option.elim_some] at h
        rw [Option.bind_some]
        rcases andThen_eq_ok.mp h with ⟨hvalue, rfl⟩ | ⟨value, hvalue, h⟩
        · rw [value_refines ty body hvalue]
          rfl
        · rw [value_refines ty body hvalue]
          exact fields_refines size rest _ h
termination_by 2 * b.length

end

theorem frame_pure {b body rest : Bytes} {id : UInt16} {tyByte : UInt8} {ty : ObjValueType}
    (h : frameHead b = some (id, tyByte, body, rest))
    (hty : ObjValueType.fromByte tyByte = some ty) :
    Model.decodeFrameNamed nameOf b = (Model.decodeValueNamed nameOf ty body).elim
      (.error .malformed, []) fun v => (.ok ⟨id, v⟩, rest) := by
  unfold Model.decodeFrameNamed
  rw [h]
  dsimp only
  rw [hty]
  cases ty with
  | obj =>
    rw [Model.decodeValueNamed]
    dsimp only
    cases Model.decodeFields nameOf body [] <;> rfl
  | _ =>
    dsimp only
    generalize Model.decodeValueNamed nameOf _ body = value
    cases value <;> rfl

theorem frame_refines {size : Nat} {b rest : Bytes}
    {answer : Except FrameErr (DynamicField × Unit)}
    (h : decodeFrameNamed (stateless nameOf) size b () = .ok (answer, rest)) :
    Model.decodeFrameNamed nameOf b = (answer.map Prod.fst, rest) := by
  cases hhead : frameHeadIn size b with
  | error fault =>
    unfold decodeFrameNamed at h
    rw [hhead] at h
    cases h
  | ok head =>
    cases head with
    | none =>
      unfold decodeFrameNamed at h
      rw [hhead] at h
      obtain ⟨rfl, rfl⟩ := Prod.mk.inj (Except.ok.inj h)
      unfold Model.decodeFrameNamed
      rw [frameHead_of_in hhead]
      rfl
    | some head =>
      obtain ⟨id, tyByte, body, rest'⟩ := head
      -- an unknown type is passed over by both
      cases hty : ObjValueType.fromByte tyByte with
      | none =>
        unfold decodeFrameNamed at h
        rw [hhead] at h
        dsimp only at h
        rw [hty] at h
        obtain ⟨rfl, rfl⟩ := Prod.mk.inj (Except.ok.inj h)
        unfold Model.decodeFrameNamed
        rw [frameHead_of_in hhead]
        dsimp only
        rw [hty]
        rfl
      | some ty =>
        rw [decodeFrameNamed_known _ hhead hty] at h
        rw [frame_pure nameOf (frameHead_of_in hhead) hty]
        -- the value of a known type, which the checked walk reads the same
        cases hvalue : decodeValueNamed (stateless nameOf) ty body () with
        | error fault =>
          rw [hvalue] at h
          cases h
        | ok value =>
          rw [hvalue] at h
          rw [value_refines nameOf ty body hvalue]
          cases value with
          | none =>
            obtain ⟨rfl, rfl⟩ := Prod.mk.inj (Except.ok.inj h)
            rfl
          | some value =>
            obtain ⟨rfl, rfl⟩ := Prod.mk.inj (Except.ok.inj h)
            rfl

/-- **What the walk answers, the decoder without machine integers answers.** -/
theorem frames_refine {size : Nat} {b : Bytes} {fields : List DynamicField}
    (h : decodeFrames (stateless nameOf) size b () = .ok fields) :
    Model.decodeNamed nameOf b = fields := by
  induction hn : b.length using Nat.strong_induction_on generalizing b fields with
  | _ n ih =>
    by_cases hnil : b = []
    · rw [decodeFrames, dif_pos hnil] at h
      rw [Model.decodeNamed, dif_pos hnil]
      exact Except.ok.inj h
    · rw [decodeFrames_step _ hnil] at h
      cases hframe : decodeFrameNamed (stateless nameOf) size b () with
      | error fault =>
        rw [hframe] at h
        cases h
      | ok frame =>
        obtain ⟨answer, rest⟩ := frame
        have hmodel := frame_refines nameOf hframe
        have hlt := length_decodeFrameNamed _ hnil hframe
        rw [hframe] at h
        rw [Model.decodeNamed, dif_neg hnil]
        -- the other arms of the loop are not the frame's
        split
        · rename_i field rest' hok
          obtain ⟨hanswer, rfl⟩ := Prod.mk.inj (hmodel.symm.trans hok)
          cases answer with
          | error why => cases hanswer
          | ok read =>
            obtain rfl := Except.ok.inj hanswer
            cases hrest : decodeFrames (stateless nameOf) size rest read.2 with
            | error fault =>
              simp only [turn, hrest] at h
              cases h
            | ok others =>
              simp only [turn, hrest] at h
              obtain rfl := Except.ok.inj h
              rw [ih rest.length (by omega) hrest rfl]
        · rename_i rest' hok
          obtain ⟨hanswer, rfl⟩ := Prod.mk.inj (hmodel.symm.trans hok)
          cases answer with
          | ok read => cases hanswer
          | error why =>
            obtain rfl := Except.error.inj hanswer
            exact ih rest.length (by omega) h rfl
        · rename_i rest' hok
          obtain ⟨hanswer, rfl⟩ := Prod.mk.inj (hmodel.symm.trans hok)
          cases answer with
          | ok read => cases hanswer
          | error why =>
            obtain rfl := Except.error.inj hanswer
            exact Except.ok.inj h

end

end Okm.Model.Segment
