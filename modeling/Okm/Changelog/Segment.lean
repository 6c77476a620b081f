import Mathlib.Data.Nat.Log
import Okm.Lib.Decimal
import Okm.Lib.Frames
import Okm.Model.Slot
import Okm.Wire.Frame

/-!
# Segments of the change log

The model of the file side of `changelog.rs`: which keys of a batch a table's log
carries, the record one commit makes of them, the names of the segment files, and the
reader that takes a segment apart again.

A record is an op frame behind a 4-byte length. A reader that finds whole records and
nothing else answers their frames (`readSealed_records`); that every frame a commit
stages is one it can read back is `stage_whole`.
-/

namespace Okm.Changelog

open Lib Model Wire

/-! ## What a log carries -/

/-- The fixed faces a log carries. -/
def truthFaces : List Slot :=
  [primarySlot, dynamicSlot, fieldVocabIdSlot, fieldVocabNameSlot, predicateVocabIdSlot,
    predicateVocabNameSlot]

/-- `carried` behind the header: a truth face with something behind its slot. -/
def carriedFace : Bytes → Bool
  | [] => false
  | first :: rest =>
    if first ≤ 0x0F then
      !rest.isEmpty && truthFaces.any fun face => face.val == first.toNat
    else
      match rest with
      | [] => false
      | second :: suffix =>
        -- the family is the high nibble of the two-byte slot
        let family := (first.toNat * 256 + second.toNat) / 0x1000
        !suffix.isEmpty && (family == Segment.vocabLabel || family == Segment.vocabId)

/-- `carried`: the truth half of a batch, under this log's header. -/
def carried (header key : Bytes) : Bool :=
  header.isPrefixOf key && carriedFace (key.drop header.length)

/-- The carried writes of a batch, in its order. -/
def share (header : Bytes) (ops : List (Op Bytes Bytes)) : List (Op Bytes Bytes) :=
  ops.filter fun op => carried header op.1

/-! ## Records -/

/-- A frame behind its length. -/
def record (frame : OpFrame) : Bytes := beBytes 4 frame.encode.length ++ frame.encode

/-- `Changelog::stage`: the number of carried writes, and the bytes staged for them. A
record whose length does not fit its prefix is dropped. -/
def stage (header : Bytes) (ops : List (Op Bytes Bytes)) : Nat × Bytes :=
  let kept := share header ops
  if kept.length = 0 then (0, [])
  else if (OpFrame.writeBatch kept).encode.length < 2 ^ 32 then
    (kept.length, record (OpFrame.writeBatch kept))
  else (0, [])

/-- `first_record_end`: where the first record ends, if it is complete. -/
def firstRecordEnd (bytes : Bytes) : Option Nat :=
  if 4 ≤ bytes.length then
    let stop := 4 + beNat (bytes.take 4)
    if stop ≤ bytes.length then some stop else none
  else none

/-! ## Reading a segment -/

def corrupt (path what : String) : Error := .changelog (path ++ ": " ++ what)

/-- The loop of `frames_of`, for at most `rounds` records. -/
def framesLoop (path : String) (strict : Bool) : Nat → Bytes → Except Error (List OpFrame)
  | 0, _ => .ok []
  | rounds + 1, bytes =>
    if bytes.length < 4 then
      if bytes ≠ [] ∧ strict then
        .error (corrupt path "trailing bytes without a length prefix")
      else .ok []
    else
      match firstRecordEnd bytes with
      | none =>
        if strict then .error (corrupt path "record length runs past the end of the file")
        else .ok []
      | some stop =>
        match OpFrame.decode ((bytes.take stop).drop 4) with
        | none => .error (corrupt path "record body is not a valid op frame")
        | some frame => (framesLoop path strict rounds (bytes.drop stop)).map (frame :: ·)

/-- `frames_of`; every record takes bytes, so the rounds do not run out. -/
def framesOf (path : String) (strict : Bool) (bytes : Bytes) : Except Error (List OpFrame) :=
  framesLoop path strict (bytes.length + 1) bytes

/-- `read_sealed`: an incomplete record is corruption. -/
def readSealed (path : String) (bytes : Bytes) : Except Error (List OpFrame) :=
  framesOf path true bytes

/-- `read_open_tail`: an incomplete record is the end. -/
def readOpenTail (path : String) (bytes : Bytes) : Except Error (List OpFrame) :=
  framesOf path false bytes

/-! ## Names -/

/-- The digits of a number, at least eight. -/
def stemWidth (segment : Nat) : Nat :=
  if segment < 10 ^ 8 then 8 else Nat.log 10 segment + 1

/-- `{:08}`. -/
def stem (segment : Nat) : Bytes := decDigits (stemWidth segment) segment

theorem lt_stemWidth (segment : Nat) : segment < 10 ^ stemWidth segment := by
  unfold stemWidth
  split
  · assumption
  · exact Nat.lt_pow_succ_log_self (by omega) segment

/-- No two segments share a name. -/
theorem stem_injective {m n : Nat} (h : stem m = stem n) : m = n := by
  have hwidth : stemWidth m = stemWidth n := by
    have hlen := congrArg List.length h
    rwa [stem, stem, length_decDigits, length_decDigits] at hlen
  have hn := lt_stemWidth n
  rw [stem, stem, hwidth] at h
  exact decDigits_injective (hwidth ▸ lt_stemWidth m) hn h

/-- Names of eight digits sort as numbers. -/
theorem stem_lt {m n : Nat} (hn : n < 10 ^ 8) (h : m < n) : stem m < stem n := by
  rw [stem, stem, stemWidth, stemWidth, if_pos hn, if_pos (h.trans hn)]
  exact decDigits_lt hn h

/-! ## A record reads back -/

/-- A frame its record can be read back from. -/
structure Whole (frame : OpFrame) : Prop where
  short : frame.encode.length < 2 ^ 32
  fits : frame.Fits

theorem length_record (frame : OpFrame) : (record frame).length = 4 + frame.encode.length := by
  rw [record, List.length_append, length_beBytes]

/-- A record says where it ends. -/
theorem firstRecordEnd_record {frame : OpFrame} (h : frame.encode.length < 2 ^ 32)
    (rest : Bytes) : firstRecordEnd (record frame ++ rest) = some (record frame).length := by
  have hlen : (record frame ++ rest).length = 4 + frame.encode.length + rest.length := by
    rw [List.length_append, length_record]
  have htake : (record frame ++ rest).take 4 = beBytes 4 frame.encode.length := by
    rw [record, List.append_assoc]
    exact List.take_left' (length_beBytes 4 _)
  unfold firstRecordEnd
  dsimp only
  rw [htake, beNat_beBytes h, hlen, length_record, if_pos (by omega), if_pos (by omega)]

theorem framesLoop_record {frame : OpFrame} (h : Whole frame) (path : String) (strict : Bool)
    (rounds : Nat) (rest : Bytes) :
    framesLoop path strict (rounds + 1) (record frame ++ rest)
      = (framesLoop path strict rounds rest).map (frame :: ·) := by
  have hlen : ¬ (record frame ++ rest).length < 4 := by
    rw [List.length_append, length_record]
    omega
  have hbody : (record frame).drop 4 = frame.encode := List.drop_left' (length_beBytes 4 _)
  have hdecode := OpFrame.decode_encode h.fits
  rw [framesLoop, if_neg hlen, firstRecordEnd_record h.short]
  dsimp only
  rw [List.take_left, List.drop_left, hbody, hdecode]

/-- The bytes of a list of records. -/
def records (frames : List OpFrame) : Bytes := frames.flatMap record

theorem records_append (fs gs : List OpFrame) : records (fs ++ gs) = records fs ++ records gs :=
  List.flatMap_append

theorem record_ne_nil (frame : OpFrame) : record frame ≠ [] := by
  intro hnil
  have hlen := length_record frame
  rw [hnil, List.length_nil] at hlen
  omega

/-- **Whole records read back**, whether the segment is sealed or open. -/
theorem framesOf_records {frames : List OpFrame} (h : ∀ f ∈ frames, Whole f) (path : String)
    (strict : Bool) : framesOf path strict (records frames) = .ok frames := by
  have hloop : ∀ rounds, frames.length < rounds →
      framesLoop path strict rounds (records frames) = .ok frames := by
    induction frames with
    | nil =>
      intro rounds hrounds
      obtain ⟨rounds, rfl⟩ : ∃ r, rounds = r + 1 := ⟨rounds - 1, by simp at hrounds; omega⟩
      rfl
    | cons frame frames ih =>
      intro rounds hrounds
      rw [List.length_cons] at hrounds
      obtain ⟨rounds, rfl⟩ : ∃ r, rounds = r + 1 := ⟨rounds - 1, by omega⟩
      have hrest := ih (fun f hf => h f (List.mem_cons_of_mem _ hf)) rounds (by omega)
      rw [records, List.flatMap_cons, framesLoop_record (h frame List.mem_cons_self)]
      unfold records at hrest
      rw [hrest]
      rfl
  have hle : frames.length ≤ (records frames).length :=
    length_le_flatMap fun f _ => record_ne_nil f
  exact hloop _ (by omega)

/-! ## What a commit stages -/

theorem length_encodeOp (op : FrameOp) :
    op.2.1.length + op.2.2.length < (OpFrame.encodeOp op).length := by
  obtain ⟨tag, key, value⟩ := op
  simp only [OpFrame.encodeOp, putOpHeader, List.length_append, List.length_cons]
  omega

/-- A batch whose encoding is short has short keys and values. -/
theorem fits_of_length {ops : List (Op Bytes Bytes)}
    (h : (OpFrame.writeBatch ops).encode.length < 2 ^ 32) : (OpFrame.writeBatch ops).Fits := by
  have hbody : (((OpFrame.writeBatch ops).ops.map OpFrame.encodeOp).flatten).length < 2 ^ 32 := by
    unfold OpFrame.encode at h
    rw [List.length_append] at h
    omega
  have hop : ∀ op ∈ (OpFrame.writeBatch ops).ops, (OpFrame.encodeOp op).length < 2 ^ 32 := by
    intro op hmem
    have hsub := List.sublist_flatten_of_mem (List.mem_map_of_mem (f := OpFrame.encodeOp) hmem)
    have hle := hsub.length_le
    omega
  have hcount : (OpFrame.writeBatch ops).ops.length
      ≤ (((OpFrame.writeBatch ops).ops.map OpFrame.encodeOp).flatten).length := by
    rw [← List.flatMap_def]
    refine length_le_flatMap fun op hmem hnil => ?_
    have hlen := length_encodeOp op
    rw [hnil] at hlen
    exact absurd hlen (Nat.not_lt_zero _)
  refine ⟨by omega, ?_, ?_, ?_⟩
  · intro op hmem
    obtain ⟨write, -, rfl⟩ := List.mem_map.mp hmem
    obtain ⟨key, value⟩ := write
    cases value with
    | some value => exact (by decide : opPut ≤ opScanStream)
    | none => exact (by decide : opDelete ≤ opScanStream)
  · intro op hmem
    have hlen := length_encodeOp op
    have hlt := hop op hmem
    omega
  · intro op hmem
    have hlen := length_encodeOp op
    have hlt := hop op hmem
    omega

/-- The frame a commit stages, if it stages one. -/
def staged (header : Bytes) (ops : List (Op Bytes Bytes)) : Option OpFrame :=
  if share header ops = [] then none
  else if (OpFrame.writeBatch (share header ops)).encode.length < 2 ^ 32 then
    some (OpFrame.writeBatch (share header ops))
  else none

/-- **What a commit stages is one record that reads back**, or nothing. -/
theorem stage_whole (header : Bytes) (ops : List (Op Bytes Bytes)) :
    (stage header ops).2 = records (staged header ops).toList ∧
    ∀ frame ∈ staged header ops, Whole frame := by
  unfold stage staged
  dsimp only
  by_cases hnil : share header ops = []
  · rw [if_pos hnil, hnil]
    exact ⟨rfl, by simp⟩
  · have hlen : ¬ (share header ops).length = 0 := fun h => hnil (List.length_eq_zero_iff.mp h)
    rw [if_neg hnil, if_neg hlen]
    by_cases hshort : (OpFrame.writeBatch (share header ops)).encode.length < 2 ^ 32
    · rw [if_pos hshort, if_pos hshort]
      refine ⟨?_, fun frame hframe => ?_⟩
      · rw [Option.toList_some, records, List.flatMap_singleton]
      · obtain rfl := Option.some.inj hframe
        exact ⟨hshort, fits_of_length hshort⟩
    · rw [if_neg hshort, if_neg hshort]
      exact ⟨rfl, by simp⟩

end Okm.Changelog
