import Okm.Model.Slot

/-!
# Name vocabularies

The model of `obj_vocab.rs`: a label and its number, kept as two point-lookup
faces of a table plus the allocation cursor, which is the id face's bare prefix.

The cache remembers what it resolved and the next id it knows about. It reads
the label face of the store on every call, but it does not read the cursor again
once it knows a next id.
-/

namespace Okm.Model

open Lib VirtualStorage

/-- The id widths a vocabulary may have. -/
inductive VocabId where
  | u8
  | u16
  | u32
  | u64
  | u128
  deriving DecidableEq, Repr

namespace VocabId

/-- Bytes on the wire. -/
def width : VocabId → Nat
  | u8 => 1
  | u16 => 2
  | u32 => 4
  | u64 => 8
  | u128 => 16

/-- `checked_add(1)`. -/
def succ (w : VocabId) (id : Nat) : Option Nat :=
  if id + 1 < 256 ^ w.width then some (id + 1) else none

def toBe (w : VocabId) (id : Nat) : Bytes := beBytes w.width id

/-- Inverse of `toBe`; `none` on another length. -/
def fromBe (w : VocabId) (b : Bytes) : Option Nat :=
  if b.length = w.width then some (beNat b) else none

end VocabId

/-- The two faces of a vocabulary. -/
structure VocabFaces where
  idSlot : Slot
  nameSlot : Slot
  distinct : idSlot ≠ nameSlot

/-- The vocabulary of the declared `Vocab` field number `fieldIndex`. -/
def dataVocab (fieldIndex : Nat) (h : fieldIndex < 0xFFF) : VocabFaces where
  idSlot := slot Segment.vocabId (1 + fieldIndex) (by unfold Segment.vocabId; omega)
  nameSlot := slot Segment.vocabLabel (1 + fieldIndex) (by unfold Segment.vocabLabel; omega)
  distinct := by
    simp only [slot, Segment.vocabId, Segment.vocabLabel, ne_eq, Slot.mk.injEq]
    omega

theorem firstVocab_lt : 0 < 0xFFF := by decide

def fieldVocab : VocabFaces := ⟨fieldVocabIdSlot, fieldVocabNameSlot, by decide⟩
def predicateVocab : VocabFaces := ⟨predicateVocabIdSlot, predicateVocabNameSlot, by decide⟩

/-- One vocabulary cache: its faces, its memo, the next id it knows about. -/
structure VocabCache where
  faces : VocabFaces
  byId : List (Nat × String) := []
  byName : List (String × Nat) := []
  nextId : Option Nat := none

namespace VocabCache

def nameKey (faces : VocabFaces) (header : Bytes) (label : String) : Bytes :=
  faceKey header faces.nameSlot (strBytes label)

def idKey (faces : VocabFaces) (w : VocabId) (header : Bytes) (id : Nat) : Bytes :=
  faceKey header faces.idSlot (w.toBe id)

/-- The face-level singleton: the id face's prefix with no id behind it. -/
def cursorKey (faces : VocabFaces) (header : Bytes) : Bytes := faceKey header faces.idSlot []

def remember (cache : VocabCache) (id : Nat) (label : String) : VocabCache :=
  { cache with byId := (id, label) :: cache.byId, byName := (label, id) :: cache.byName }

section

variable {σ : Type} [VirtualStorage σ]

/-- `scan_suffix_kv`: one pass over the prefix's range, the prefix cut off. -/
def scanSuffixKv (store : σ) (pfx : Bytes) : Except Error (List (Bytes × Bytes)) :=
  (scanRangeIter store pfx (prefixEnd pfx)).mapM fun item =>
    item.map fun (full, v) => (full.drop (min pfx.length full.length), v)

/-- The one-time answer for a vocabulary older than its cursor. -/
def scanMaxPlusOne (w : VocabId) (faces : VocabFaces) (store : σ) (header : Bytes) :
    Except Error Nat :=
  (scanSuffixKv store (cursorKey faces header)).map fun pairs =>
    pairs.foldl (fun next pair =>
      match (w.fromBe pair.1).bind w.succ with
      | some after => max next after
      | none => next) 0

/-- The next id to hand out: the one this cache knows, else the cursor, else
zero while id zero is unbound, else one past the largest id found. -/
def takeNext (w : VocabId) (cache : VocabCache) (store : σ) (header : Bytes) :
    Except Error (Nat × VocabCache) :=
  match cache.nextId with
  | some next => .ok (next, cache)
  | none => do
    let raw ← get store (cursorKey cache.faces header)
    let next ← match raw.bind w.fromBe with
      | some cursor => .ok cursor
      | none => do
        let zero ← get store (idKey cache.faces w header 0)
        if zero.isNone then .ok 0 else scanMaxPlusOne w cache.faces store header
    .ok (next, { cache with nextId := some next })

/-- The three writes of an allocation: label to id, id to label, the cursor. -/
def allocation (w : VocabId) (faces : VocabFaces) (header : Bytes) (label : String)
    (id next : Nat) : Batch :=
  ((({} : Batch).put (nameKey faces header label) (w.toBe id)).put
    (idKey faces w header id) (strBytes label)).put (cursorKey faces header) (w.toBe next)

/-- `VocabCache::id_for`: look the label up, or allocate the next id for it. -/
def idFor (w : VocabId) (cache : VocabCache) (store : σ) (header : Bytes) (label : String) :
    Except Error Nat × VocabCache × σ :=
  match get store (nameKey cache.faces header label) with
  | .error e => (.error e, cache, store)
  | .ok raw =>
    match raw.bind w.fromBe with
    | some id => (.ok id, cache.remember id label, store)
    | none =>
      match takeNext w cache store header with
      | .error e => (.error e, cache, store)
      | .ok (id, cache) =>
        match w.succ id with
        -- the message adds one in `u128`, which wraps in a release build
        | none => (.error (.vocabularyExhausted w.width ((id + 1) % 2 ^ 128)), cache, store)
        | some next =>
          match commitBatch store (allocation w cache.faces header label id next) with
          | (.error e, store) => (.error e, cache, store)
          | (.ok (), store) =>
            (.ok id, ({ cache with nextId := some next }).remember id label, store)

/-- `VocabCache::name_for`: an id's label, from the memo or by one probe. -/
def nameFor (w : VocabId) (cache : VocabCache) (store : σ) (header : Bytes) (id : Nat) :
    Except Error (Option String) × VocabCache :=
  match cache.byId.lookup id with
  | some name => (.ok (some name), cache)
  | none =>
    match get store (idKey cache.faces w header id) with
    | .error e => (.error e, cache)
    | .ok raw =>
      match raw.bind strOfBytes with
      | none => (.ok none, cache)
      | some name => (.ok (some name), cache.remember id name)

/-- `VocabCache::id_get`: a label's id, from the memo or by one probe; nothing is
allocated. -/
def idGet (w : VocabId) (cache : VocabCache) (store : σ) (header : Bytes) (label : String) :
    Except Error (Option Nat) × VocabCache :=
  match cache.byName.lookup label with
  | some id => (.ok (some id), cache)
  | none =>
    match get store (nameKey cache.faces header label) with
    | .error e => (.error e, cache)
    | .ok raw =>
      match raw.bind w.fromBe with
      | none => (.ok none, cache)
      | some id => (.ok (some id), cache.remember id label)

end

end VocabCache

end Okm.Model
