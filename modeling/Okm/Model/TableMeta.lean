import Mathlib.Data.String.Basic
import Okm.Model.Slot
import Okm.Model.VarLen

/-!
# The meta row

The model of `TableMeta` in `model/meta.rs`: one entry per table that describes the store,
a map from names to bytes. It is written as a count and, in name order, each name and value
behind their lengths. Decoding aborts on bytes no encoder wrote.

Here are the functions as a build without overflow checks runs them. Which maps come back, and
which bytes are their own encoding, in either build, is the subject of `Okm.Model.MetaCodec`.
-/

namespace Okm.Model

open Lib

/-- A name to value map in name order. -/
structure TableMeta where
  entries : SortedMap String Bytes

namespace TableMeta

/-- The name of the shape stamp. -/
def versionName : String := "version"

/-- The name of the face stamp. -/
def facesName : String := "faces"

def set (row : TableMeta) (name : String) (value : Bytes) : TableMeta :=
  ⟨row.entries.insert name value⟩

/-- A fresh stamp. -/
def stamped (version : UInt8) : TableMeta := set ⟨SortedMap.empty⟩ versionName [version]

/-- One entry on the wire. -/
def frame (e : String × Bytes) : Bytes :=
  putLen (strBytes e.1).length ++ (strBytes e.1 ++ (putLen e.2.length ++ e.2))

def encode (row : TableMeta) : Bytes :=
  beBytes 2 row.entries.entries.length ++ row.entries.entries.flatMap frame

/-- A length and that many bytes behind it, and what is left. -/
def takeFramed (bytes : Bytes) : Except Panic (Bytes × Bytes) :=
  match takeLen bytes with
  | none => .error .expect
  | some (len, n) =>
    let rest := bytes.drop n
    if rest.length < len then .error .expect else .ok (rest.take len, rest.drop len)

/-- The loop of `decode`: so many entries, each name once, and nothing behind them. -/
def decodeEntries : Nat → Bytes → SortedMap String Bytes → Except Panic TableMeta
  | 0, rest, entries => if rest = [] then .ok ⟨entries⟩ else .error .expect
  | n + 1, rest, entries => do
    let (name, rest) ← takeFramed rest
    match strOfBytes name with
    | none => .error .expect
    | some name =>
      let (value, rest) ← takeFramed rest
      if (entries.get name).isSome then .error .expect
      else decodeEntries n rest (entries.insert name value)

def decode (bytes : Bytes) : Except Panic TableMeta :=
  if bytes.length < 2 then .error .expect
  else decodeEntries (beNat (bytes.take 2)) (bytes.drop 2) SortedMap.empty

end TableMeta

end Okm.Model
