import Okm.Model.Slot
import Okm.Wire.Frame

/-!
# Reading an answer

The two decoders of `OpResponse`. A plain answer lists key suffixes, a chunk lists
hits and ends in a tail byte; a fault frame carries its text and nothing else. Which
of the two a frame is cannot be told from its bytes, so the one who asked says.
-/

namespace Okm.Wire

open Lib Model

/-- The leading byte of a receiver-reported failure. -/
def faultCode : UInt8 := 2

/-- The rest of a fault frame. -/
def decodeFault (frame : Bytes) : Option OpResponse := do
  let (len, frame) ← getLen frame
  let (bytes, frame) ← take frame len
  if frame ≠ [] then none
  else (strOfBytes bytes).map fun fault => { fault := some fault }

/-- One length-prefixed byte string. -/
def decodeBytes (frame : Bytes) : Option (Bytes × Bytes) := do
  let (len, frame) ← getLen frame
  take frame len

/-- The value in front of either shape; `some none` is an absent one. -/
def decodeValue (code : UInt8) (frame : Bytes) : Option (Option Bytes × Bytes) :=
  if code = 0 then some (none, frame)
  else if code = 1 then (decodeBytes frame).map fun (v, frame) => (some v, frame)
  else none

def decodeSuffixes : Nat → Bytes → Option (List Bytes × Bytes)
  | 0, frame => some ([], frame)
  | count + 1, frame => do
    let (suffix, frame) ← decodeBytes frame
    let (suffixes, frame) ← decodeSuffixes count frame
    some (suffix :: suffixes, frame)

def decodeHits : Nat → Bytes → Option (List (Bytes × Bytes) × Bytes)
  | 0, frame => some ([], frame)
  | count + 1, frame => do
    let (k, frame) ← decodeBytes frame
    let (v, frame) ← decodeBytes frame
    let (hits, frame) ← decodeHits count frame
    some ((k, v) :: hits, frame)

namespace OpResponse

/-- `OpResponse::decode`: trailing bytes reject the frame. -/
def decode : Bytes → Option OpResponse
  | [] => none
  | code :: frame =>
    if code = faultCode then decodeFault frame
    else do
      let (value, frame) ← decodeValue code frame
      let (count, frame) ← getLen frame
      let (suffixes, frame) ← decodeSuffixes count frame
      if frame ≠ [] then none else some { value := value, suffixes := suffixes }

/-- `OpResponse::decode_chunk`: the tail byte is the last one. -/
def decodeChunk : Bytes → Option OpResponse
  | [] => none
  | code :: frame =>
    if code = faultCode then decodeFault frame
    else do
      let (value, frame) ← decodeValue code frame
      let (count, frame) ← getLen frame
      let (hits, frame) ← decodeHits count frame
      match frame with
      | [tail] =>
        if tail = tailMore ∨ tail = tailFinal then
          some { value := value, hits := hits, tail := some tail }
        else none
      | _ => none

end OpResponse

end Okm.Wire
