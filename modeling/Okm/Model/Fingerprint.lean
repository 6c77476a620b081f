import Okm.Lib.Delimited
import Okm.Model.Slot

/-!
# The fingerprint of a declaration's faces

The model of `model/faces.rs`. A store is stamped with a number over the faces its table
declares; a table that declares others answers `Stale`. Two lanes mix one byte sequence,
so what two declarations can be told by is that sequence (`fed`, `fingerprintSpecs_fed`):
a seed, a count, and each face with its strings behind their lengths.
-/

namespace Okm.Model

open Lib

/-! ## Mixing -/

def laneA : UInt64 := 0xcbf29ce484222325
def laneB : UInt64 := 0x9e3779b97f4a7c15
def prime : UInt64 := 0x100000001b3

def mix (h : UInt64) (byte : UInt8) : UInt64 := (h ^^^ byte.toUInt64) * prime

/-- Length-prefixed, with the low 32 bits of the length. -/
def mixStr (h : UInt64) (s : String) : UInt64 :=
  let b := strBytes s
  let h := mix h (UInt8.ofNat (b.length / 2 ^ 24))
  let h := mix h (UInt8.ofNat (b.length / 2 ^ 16))
  let h := mix h (UInt8.ofNat (b.length / 2 ^ 8))
  b.foldl mix (mix h (UInt8.ofNat b.length))

/-- Counted, with the low 16 bits of the count. -/
def mixNames (h : UInt64) (names : List String) : UInt64 :=
  names.foldl mixStr (mix (mix h (UInt8.ofNat (names.length / 2 ^ 8))) (UInt8.ofNat names.length))

/-- The six facts of a face. -/
structure FaceSpec where
  name : String
  slot : UInt16
  fields : List String
  includes : List String
  func : String
  deprecated : Bool
  deriving DecidableEq

/-- What `#[ok_index]` emits: the same six facts, in a constant. -/
abbrev IndexDecl := FaceSpec

/-- What the schema export carries: the same six facts, owned. -/
abbrev IndexSchema := FaceSpec

def flag (b : Bool) : UInt8 := if b then 1 else 0

/-- One lane of `mix_decl`. -/
def mixDecl (h : UInt64) (d : FaceSpec) : UInt64 :=
  let h := mix h (UInt8.ofNat (d.slot.toNat / 2 ^ 8))
  let h := mix h (UInt8.ofNat d.slot.toNat)
  let h := mix h (flag d.deprecated)
  let h := mixStr h d.name
  let h := mixNames h d.fields
  let h := mixNames h d.includes
  mixStr h d.func

def seed (lane : UInt64) : UInt64 := mixStr lane "okm.faces.v1"

def count (h : UInt64) (n : Nat) : UInt64 :=
  mix (mix h (UInt8.ofNat (n / 2 ^ 8))) (UInt8.ofNat n)

def finish (a b : UInt64) : Bytes := beBytes 8 a.toNat ++ beBytes 8 b.toNat

/-- `fingerprint_specs`. -/
def fingerprintSpecs (specs : List FaceSpec) : Bytes :=
  finish (specs.foldl mixDecl (count (seed laneA) specs.length))
    (specs.foldl mixDecl (count (seed laneB) specs.length))

/-- `fingerprint`, of the declarations the derive emitted. -/
def fingerprint (decls : List IndexDecl) : Bytes := fingerprintSpecs decls

/-! ## What the lanes are fed -/

def strFed (s : String) : Bytes := beBytes 4 (strBytes s).length ++ strBytes s

def namesFed (names : List String) : Bytes := beBytes 2 names.length ++ names.flatMap strFed

def declFed (d : FaceSpec) : Bytes :=
  beBytes 2 d.slot.toNat ++ (flag d.deprecated :: (strFed d.name ++ (namesFed d.fields
    ++ (namesFed d.includes ++ strFed d.func))))

/-- The byte sequence either lane mixes. -/
def fed (specs : List FaceSpec) : Bytes :=
  strFed "okm.faces.v1" ++ (beBytes 2 specs.length ++ specs.flatMap declFed)

theorem mixStr_fed (h : UInt64) (s : String) : mixStr h s = (strFed s).foldl mix h := by
  have h16 : (strBytes s).length / 2 ^ 16 = (strBytes s).length / 256 / 256 := by omega
  have h24 : (strBytes s).length / 2 ^ 24 = (strBytes s).length / 256 / 256 / 256 := by omega
  rw [strFed, List.foldl_append, mixStr, h16, h24]
  rfl

theorem mixNames_fed (h : UInt64) (names : List String) :
    mixNames h names = (namesFed names).foldl mix h := by
  have hstr : mixStr = fun h s => (strFed s).foldl mix h := by
    funext h s
    exact mixStr_fed h s
  rw [namesFed, List.foldl_append, List.foldl_flatMap, ← hstr]
  rfl

theorem mixDecl_fed (h : UInt64) (d : FaceSpec) : mixDecl h d = (declFed d).foldl mix h := by
  rw [declFed, List.foldl_append, List.foldl_cons, List.foldl_append, List.foldl_append,
    List.foldl_append, ← mixStr_fed, ← mixNames_fed, ← mixNames_fed, ← mixStr_fed]
  rfl

/-- **The fingerprint is a function of one byte sequence**, mixed by two lanes. -/
theorem fingerprintSpecs_fed (specs : List FaceSpec) :
    fingerprintSpecs specs = finish ((fed specs).foldl mix laneA) ((fed specs).foldl mix laneB) := by
  have hdecl : mixDecl = fun h d => (declFed d).foldl mix h := by
    funext h d
    exact mixDecl_fed h d
  have hlane : ∀ lane, (fed specs).foldl mix lane
      = specs.foldl mixDecl (count (seed lane) specs.length) := by
    intro lane
    rw [fed, List.foldl_append, List.foldl_append, List.foldl_flatMap, ← hdecl, ← mixStr_fed]
    rfl
  rw [hlane, hlane, fingerprintSpecs]

end Okm.Model
