import Okm.Engine.Lawful
import Okm.Model.Dynamic
import Okm.Model.Vocab

/-!
# Documents and their faces

The model of `model/index.rs` and of what the derive writes for a document type:
the key encoding, the access methods with their entries, the reduces, and the
hooks a collection calls. A row lives at `[header][0x00][key]`; an access method
keeps one entry per field segment at `[header][slot][segment][key tail]`, so an
entry names its row in its last bytes.

A declaration is data here, and the laws the derive guarantees for every
declaration are fields of the structures that carry it.
-/

namespace Okm.Model

open Lib VirtualStorage

/-- How a verb ends when it does not answer. -/
inductive Failure where
  | refused (e : Error)
  | panic (p : Panic)
  deriving DecidableEq

/-- A fixed-width key encoding. -/
class KeyEncode (K : Type) where
  keyLen : Nat
  encode : K → Bytes
  decode : Bytes → K
  length_encode : ∀ k, (encode k).length = keyLen
  decode_encode : ∀ k, decode (encode k) = k

open KeyEncode

theorem encode_injective {K : Type} [KeyEncode K] {a b : K} (h : encode a = encode b) :
    a = b := by
  rw [← decode_encode a, ← decode_encode b, h]

theorem length_oneByte (k : UInt8) : [k].length = 1 := rfl

/-- One-byte keys. -/
instance byteKey : KeyEncode UInt8 where
  keyLen := 1
  encode k := [k]
  decode b := b.headD 0
  length_encode := length_oneByte
  decode_encode _ := rfl

theorem oneByte_le : 1 ≤ keyLen UInt8 := Nat.le_refl 1

/-- A key recovered from an entry; only its first `taken` bytes are trustworthy. -/
structure PrefixKey (K : Type) where
  decoded : K
  taken : Nat
  deriving DecidableEq

section

variable (K R : Type) [KeyEncode K]

/-- One access method: which rows it admits, the field segments it keeps for a
row, the covered fields, and the key tail behind each segment. -/
structure KvIndex where
  slot : Slot
  keyPrefixWidth : Nat
  keyPrefixBytes : K → Bytes
  keyPrefix_le : keyPrefixWidth ≤ keyLen K
  length_keyPrefix : ∀ k, (keyPrefixBytes k).length = keyPrefixWidth
  admits : R → Bool
  segments : K → R → List Bytes
  entryValue : K → R → Bytes

/-- A lead face: its segment comes from the key alone. -/
structure LeadFace where
  slot : Slot
  keyPrefixWidth : Nat
  keyPrefixBytes : K → Bytes
  keyPrefix_le : keyPrefixWidth ≤ keyLen K
  length_keyPrefix : ∀ k, (keyPrefixBytes k).length = keyPrefixWidth
  segment : K → Bytes

/-- What a reduce accumulates: the two exact presets, or another logic by what it
makes of the stored accumulator. -/
inductive ReduceLogic where
  | count
  | sum (field : K → R → UInt64)
  | other (next : Option Bytes → K → R → Bool → Bytes)

/-- A declared reduce: its slot, its group segment, its logic. -/
structure Reduce where
  slot : Slot
  groupBytes : K → R → Bytes
  logic : ReduceLogic K R

/-- A `Vocab<N>` field: a label, the id it was given, or both. -/
structure VocabField where
  width : VocabId
  faces : VocabFaces
  label : R → Option String
  id : R → Option Nat
  setId : R → Nat → R
  setName : R → String → R

end

variable {K R : Type} [KeyEncode K]

theorem noLeads : ∀ l ∈ ([] : List (LeadFace K)), l.slot.val / 0x1000 = Segment.lead := by simp

/-- What a hook may read of the store. -/
abbrev ReadFn := Bytes → Except Error (Option Bytes)

/-- A document type as the derive describes it. The last fields are what the
declaration rules guarantee: slots of one family each, every one used once, and a
dereference that fails only where a read does. -/
structure Document (K R : Type) [KeyEncode K] where
  partitionPrefix : Bytes
  nsPrefix : Bytes
  leads : List (LeadFace K)
  indexes : List (KvIndex K R)
  reduces : List (Reduce K R)
  vocabFields : List (VocabField R)
  encodePayload : R → Bytes
  decodePayload : Bytes → R
  embedDeref : ReadFn → R → Except Error R
  embedEntries : R → List (Bytes × Bytes)
  embedKeys : R → List Bytes
  fields : List String
  toMap : R → SortedMap String DynamicValue
  tryFromMap : SortedMap String DynamicValue → Except Error R
  leadSlots : ∀ l ∈ leads, l.slot.val / 0x1000 = Segment.lead
  indexSlots : ∀ i ∈ indexes, i.slot.val / 0x1000 = Segment.index
  reduceSlots : ∀ r ∈ reduces, r.slot.val / 0x1000 = Segment.reduce
  leadsNodup : (leads.map LeadFace.slot).Nodup
  indexesNodup : (indexes.map KvIndex.slot).Nodup
  reducesNodup : (reduces.map Reduce.slot).Nodup
  vocabFaces : ∀ i f, vocabFields[i]? = some f → ∃ h, f.faces = dataVocab i h
  embedDeref_ok : ∀ {read : ReadFn}, (∀ k, ∃ v, read k = .ok v) →
    ∀ r, ∃ r', embedDeref read r = .ok r'

namespace KvIndex

variable (index : KvIndex K R)

/-- `entry_key_with`: header, slot, segment, key tail. -/
def entryKeyWith (header : Bytes) (key : K) (segment : Bytes) : Bytes :=
  faceKey header index.slot (segment ++ index.keyPrefixBytes key)

/-- `entry_pairs`: the entries of one row, none for a row not admitted. -/
def entryPairs (header : Bytes) (key : K) (document : R) : List (Bytes × Bytes) :=
  if index.admits document then
    (index.segments key document).map fun segment =>
      (index.entryKeyWith header key segment, index.entryValue key document)
  else []

/-- `entry_prefix`. -/
def entryPrefix (header encoded : Bytes) : Bytes := faceKey header index.slot encoded

end KvIndex

/-- The one entry of a lead face; it covers nothing. -/
def LeadFace.entryPair (lead : LeadFace K) (header : Bytes) (key : K) : Bytes × Bytes :=
  (faceKey header lead.slot (lead.segment key ++ lead.keyPrefixBytes key), [])

/-! ## Accumulators -/

namespace Reduce

variable (reduce : Reduce K R)

/-- The key of a row's group. -/
def entryKey (header : Bytes) (key : K) (document : R) : Bytes :=
  faceKey header reduce.slot (reduce.groupBytes key document)

/-- `decode_acc` of the stored bytes, the default when there are none. -/
def decodeAcc : Option Bytes → UInt64
  | some b => UInt64.ofNat (beNat b)
  | none => 0

def encodeAcc (acc : UInt64) : Bytes := beBytes 8 acc.toNat

/-- What a row adds to its group; a release build wraps at the width. -/
def amount (key : K) (document : R) : ReduceLogic K R → UInt64
  | .count => 1
  | .sum field => field key document
  | .other _ => 0

/-- The accumulator after folding (`add`) or unfolding a row. -/
def next (acc : Option Bytes) (key : K) (document : R) (add : Bool) : Bytes :=
  match reduce.logic with
  | .other logic => logic acc key document add
  | preset =>
    let delta := amount key document preset
    encodeAcc (if add then decodeAcc acc + delta else decodeAcc acc - delta)

end Reduce

/-! ## The hooks over a store -/

namespace Document

variable (doc : Document K R)

/-- The key header of the table. -/
def header : Bytes := doc.partitionPrefix ++ doc.nsPrefix

def primaryKey (key : K) : Bytes := faceKey doc.header primarySlot (encode key)

def fieldsKey (key : K) : Bytes := faceKey doc.header dynamicSlot (encode key)

/-- `key_entries`: the faces that follow from the key alone. -/
def keyEntries (key : K) : List (Bytes × Bytes) :=
  doc.leads.map fun lead => lead.entryPair doc.header key

/-- `index_entries`: every entry of one row. -/
def indexEntries (key : K) (document : R) : List (Bytes × Bytes) :=
  doc.keyEntries key ++ doc.indexes.flatMap fun index => index.entryPairs doc.header key document

section

variable {σ : Type} [VirtualStorage σ]

/-- `__okm_intern`: each labelled field takes its label's id. -/
def internFields (header : Bytes) : List (VocabField R) → R → σ → Except Error R × σ
  | [], document, store => (.ok document, store)
  | f :: fs, document, store =>
    match f.label document with
    | none => internFields header fs document store
    | some label =>
      match VocabCache.idFor f.width { faces := f.faces } store header label with
      | (.error e, _, store) => (.error e, store)
      | (.ok id, _, store) => internFields header fs (f.setId document id) store

def intern (document : R) (store : σ) : Except Error R × σ :=
  internFields doc.header doc.vocabFields document store

/-- `__okm_deref_vocab`: each field with an id and no label takes its label. -/
def derefVocabFields (header : Bytes) (store : σ) : List (VocabField R) → R → Except Error R
  | [], document => .ok document
  | f :: fs, document =>
    match f.label document, f.id document with
    | none, some id =>
      match VocabCache.nameFor f.width { faces := f.faces } store header id with
      | (.error e, _) => .error e
      | (.ok (some name), _) => derefVocabFields header store fs (f.setName document name)
      | (.ok none, _) => derefVocabFields header store fs document
    | _, _ => derefVocabFields header store fs document

def derefVocab (store : σ) (document : R) : Except Error R :=
  derefVocabFields doc.header store doc.vocabFields document

/-- `Collection::get`. -/
def get (store : σ) (key : K) : Except Error (Option R) := do
  match ← VirtualStorage.get store (doc.primaryKey key) with
  | none => .ok none
  | some raw =>
    let document ← doc.embedDeref (VirtualStorage.get store) (doc.decodePayload raw)
    let document ← doc.derefVocab store document
    .ok (some document)

/-- `__okm_apply_reduces`: read, fold or unfold, write, reduce by reduce. -/
def applyReduces (header : Bytes) (key : K) (document : R) (add : Bool) :
    List (Reduce K R) → σ → Except Error Unit × σ
  | [], store => (.ok (), store)
  | reduce :: rest, store =>
    let entryKey := reduce.entryKey header key document
    match VirtualStorage.get store entryKey with
    | .error e => (.error e, store)
    | .ok acc =>
      match VirtualStorage.put store entryKey (reduce.next acc key document add) with
      | (.error e, store) => (.error e, store)
      | (.ok (), store) => applyReduces header key document add rest store

end

end Document

/-! ## Reads on an engine that answers -/

section

variable {σ : Type} [LawfulStorage σ]

theorem derefVocabFields_ok (header : Bytes) (store : σ) :
    ∀ (fs : List (VocabField R)) (document : R),
      ∃ document', Document.derefVocabFields header store fs document = .ok document'
  | [], document => ⟨document, rfl⟩
  | f :: fs, document => by
    rw [Document.derefVocabFields]
    cases f.label document with
    | some label => exact derefVocabFields_ok header store fs document
    | none =>
      cases f.id document with
      | none => exact derefVocabFields_ok header store fs document
      | some id =>
        dsimp only
        unfold VocabCache.nameFor
        rw [List.lookup_nil]
        dsimp only
        rw [LawfulStorage.get_eq]
        dsimp only
        cases (LawfulStorage.read store (VocabCache.idKey f.faces f.width header id)).bind
            strOfBytes with
        | none => exact derefVocabFields_ok header store fs document
        | some name => exact derefVocabFields_ok header store fs (f.setName document name)

/-- A read of a stored row answers. -/
theorem Document.get_ok (doc : Document K R) (store : σ) (key : K) :
    ∃ answer, doc.get store key = .ok answer := by
  unfold Document.get
  rw [LawfulStorage.get_eq]
  cases LawfulStorage.read store (doc.primaryKey key) with
  | none => exact ⟨none, rfl⟩
  | some raw =>
    have hread : ∀ k, ∃ v, VirtualStorage.get store k = .ok v :=
      fun k => ⟨_, LawfulStorage.get_eq store k⟩
    obtain ⟨r, hr⟩ := doc.embedDeref_ok hread (doc.decodePayload raw)
    obtain ⟨r', hr'⟩ := derefVocabFields_ok doc.header store doc.vocabFields r
    refine ⟨some r', ?_⟩
    simp only [bind, Except.bind, hr, Document.derefVocab, hr']

end

/-- A `u8` field taken from a document map. -/
def byteField (map : SortedMap String DynamicValue) (name : String) : Except Error UInt8 :=
  match map.get name with
  | some (.uint v) =>
    if v < 256 then .ok v.toUInt8 else .error (.valueOutOfRange name "u8" (toString v))
  | some _ => .error (.kindMismatch name "UInt" "")
  | none => .ok 0

end Okm.Model
