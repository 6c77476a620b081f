import Mathlib.Data.List.Sort
import Okm.Model.Document

/-!
# Range scans over an access method

The model of `Collection::scan_range` and `scan_range_iter`. The bounds are
spliced behind the entry header and the engine scans whole entry keys, so the
identity tail takes part in the comparison at both ends; a key is then cut at the
length of the begin bound, and one left with less than a tail is passed over as a
false hit.

`wanted` is what a range over the segments means. The two agree exactly under
`RangeFits`: no entry in the range has a segment shorter than the begin bound or
reaches the end bound with its tail, and an unbounded scan finds nothing behind
the face.
-/

namespace Okm.Model

open Lib VirtualStorage KeyEncode

variable {K R : Type} [KeyEncode K]

/-- The bytes all entries of an access method start with. -/
def KvIndex.face (index : KvIndex K R) (header : Bytes) : Bytes := index.entryPrefix header []

/-- What the loop makes of one scanned key: cut the bound off, pass over a
remainder shorter than the tail, decode the last `taken` bytes. -/
def entryHit (index : KvIndex K R) (boundLen : Nat) (full : Bytes) :
    Except Panic (Option (PrefixKey K)) :=
  if full.length < boundLen then .error .slice
  else
    let suffix := full.drop boundLen
    let taken := index.keyPrefixWidth
    if suffix.length < taken then .ok none
    else
      let tail := suffix.drop (suffix.length - taken)
      let decoded := if taken = keyLen K then decode tail
        else decode (tail ++ List.replicate (keyLen K - taken) 0x00)
      .ok (some ⟨decoded, taken⟩)

section

variable {σ : Type} [VirtualStorage σ]

/-- The row of a hit, when the entry names its key in full. -/
def fetchBack (doc : Document K R) (index : KvIndex K R) (store : σ) (key : PrefixKey K) :
    Except Error (Option R) :=
  if index.keyPrefixWidth = keyLen K then doc.get store key.decoded else .ok none

/-- The loop of `scan_range` over the keys the engine answered. -/
def collectEntries (doc : Document K R) (index : KvIndex K R) (store : σ) (boundLen : Nat) :
    List Bytes → Except Panic (Except Error (List (PrefixKey K × Option R)))
  | [] => .ok (.ok [])
  | full :: rest =>
    match entryHit index boundLen full with
    | .error p => .error p
    | .ok none => collectEntries doc index store boundLen rest
    | .ok (some key) =>
      match fetchBack doc index store key with
      | .error e => .ok (.error e)
      | .ok document =>
        (collectEntries doc index store boundLen rest).map fun answer =>
          answer.map ((key, document) :: ·)

/-- `scan_range`. -/
def scanRangeEntries (doc : Document K R) (index : KvIndex K R) (store : σ) (begin : Bytes)
    (stop : Option Bytes) : Except Panic (Except Error (List (PrefixKey K × Option R))) :=
  let b := index.entryPrefix doc.header [] ++ begin
  let e := stop.map fun stop => index.entryPrefix doc.header [] ++ stop
  match VirtualStorage.scanRange store b e with
  | .error err => .ok (.error err)
  | .ok keys => collectEntries doc index store b.length keys

/-- The items `entry_iter` yields, pulled from the front; a panic ends them. -/
def entryIter (doc : Document K R) (index : KvIndex K R) (store : σ) (boundLen : Nat) :
    List ScanItem → List (Except Panic (Except Error (PrefixKey K × Option R)))
  | [] => []
  | .error e :: rest => .ok (.error e) :: entryIter doc index store boundLen rest
  | .ok (full, _) :: rest =>
    match entryHit index boundLen full with
    | .error p => [.error p]
    | .ok none => entryIter doc index store boundLen rest
    | .ok (some key) =>
      match fetchBack doc index store key with
      | .error e => .ok (.error e) :: entryIter doc index store boundLen rest
      | .ok document => .ok (.ok (key, document)) :: entryIter doc index store boundLen rest

/-- `scan_range_iter`. -/
def scanRangeIterEntries (doc : Document K R) (index : KvIndex K R) (store : σ)
    (begin : Bytes) (stop : Option Bytes) :
    List (Except Panic (Except Error (PrefixKey K × Option R))) :=
  let b := index.entryPrefix doc.header [] ++ begin
  let e := stop.map fun stop => index.entryPrefix doc.header [] ++ stop
  entryIter doc index store b.length (VirtualStorage.scanRangeIter store b e)

end

/-! ## What a range over the segments means -/

/-- The access method's entries are those of the stored rows. -/
def FaceConsistent (doc : Document K R) (index : KvIndex K R) (store : Keyspace) : Prop :=
  ∀ k v, index.face doc.header <+: k → (store.get k = some v ↔
    ∃ key raw, store.get (doc.primaryKey key) = some raw ∧
      (k, v) ∈ index.entryPairs doc.header key (doc.decodePayload raw))

/-- The field segment of an entry key: what stands between face and tail. -/
def segmentOf (index : KvIndex K R) (header k : Bytes) : Bytes :=
  let body := k.drop (index.face header).length
  body.take (body.length - index.keyPrefixWidth)

/-- A segment in the half-open range. -/
def InRange (begin : Bytes) (stop : Option Bytes) (s : Bytes) : Prop :=
  begin ≤ s ∧ ∀ e ∈ stop, s < e

instance inRangeDecidable (begin : Bytes) (stop : Option Bytes) (s : Bytes) :
    Decidable (InRange begin stop s) := by
  unfold InRange
  cases stop with
  | none => exact decidable_of_iff (begin ≤ s) (by simp)
  | some e => exact decidable_of_iff (begin ≤ s ∧ s < e) (by simp)

/-- **What the scan should find**: the face's entries whose segment is in the
range, in key order. -/
def wanted (doc : Document K R) (index : KvIndex K R) (store : Keyspace) (begin : Bytes)
    (stop : Option Bytes) : List Bytes :=
  (store.entries.filter fun e => (index.face doc.header).isPrefixOf e.1
    && InRange begin stop (segmentOf index doc.header e.1)).map Prod.fst

/-- The key an entry names in its last bytes. -/
def tailKey (index : KvIndex K R) (k : Bytes) : PrefixKey K :=
  let tail := k.drop (k.length - index.keyPrefixWidth)
  { decoded := if index.keyPrefixWidth = keyLen K then decode tail
      else decode (tail ++ List.replicate (keyLen K - index.keyPrefixWidth) 0x00)
    taken := index.keyPrefixWidth }

/-- The item an entry stands for: its key, and the row behind it. -/
def hitOf (doc : Document K R) (index : KvIndex K R) (store : Keyspace) (k : Bytes) :
    PrefixKey K × Option R :=
  (tailKey index k, if index.keyPrefixWidth = keyLen K
    then ((doc.get store (tailKey index k).decoded).toOption).join else none)

/-- The entry keys the loop turns into items, in their order. -/
def yielded (index : KvIndex K R) (boundLen : Nat) : List Bytes → Except Panic (List Bytes)
  | [] => .ok []
  | full :: rest =>
    match entryHit index boundLen full with
    | .error p => .error p
    | .ok none => yielded index boundLen rest
    | .ok (some _) => (yielded index boundLen rest).map (full :: ·)

/-- The keys the engine answers for the spliced bounds. -/
def scannedKeys (doc : Document K R) (index : KvIndex K R) (store : Keyspace) (begin : Bytes)
    (stop : Option Bytes) : List Bytes :=
  (store.range (index.face doc.header ++ begin)
    (stop.map (index.face doc.header ++ ·))).map Prod.fst

/-- **An exact range scan**: entry by entry it answers what is wanted, in a list
and as an iterator. -/
structure ScanExact (doc : Document K R) (index : KvIndex K R) (store : Keyspace)
    (begin : Bytes) (stop : Option Bytes) : Prop where
  entries : yielded index ((index.face doc.header).length + begin.length)
    (scannedKeys doc index store begin stop) = .ok (wanted doc index store begin stop)
  list : scanRangeEntries doc index store begin stop
    = .ok (.ok ((wanted doc index store begin stop).map (hitOf doc index store)))
  iter : scanRangeIterEntries doc index store begin stop
    = (wanted doc index store begin stop).map fun k => .ok (.ok (hitOf doc index store k))

/-- **The condition for it.** Every entry in the segment range is long enough for
the cut and stays below the end bound with its tail; a shorter entry of the face
lies outside the scanned keys; behind an open end nothing of another face is long
enough to be taken for an entry. -/
structure RangeFits (doc : Document K R) (index : KvIndex K R) (store : Keyspace)
    (begin : Bytes) (stop : Option Bytes) : Prop where
  wanted : ∀ body v, store.get (index.face doc.header ++ body) = some v →
    InRange begin stop (segmentOf index doc.header (index.face doc.header ++ body)) →
    begin.length + index.keyPrefixWidth ≤ body.length ∧ ∀ e ∈ stop, body < e
  shorter : ∀ body v, store.get (index.face doc.header ++ body) = some v →
    InRange begin stop body → begin.length ≤ body.length
  foreign : stop = none → ∀ k v, store.get k = some v → ¬ index.face doc.header <+: k →
    index.face doc.header ++ begin ≤ k →
    (index.face doc.header).length + begin.length ≤ k.length ∧
      k.length < (index.face doc.header).length + begin.length + index.keyPrefixWidth

/-! ## What the loop keeps -/

section

variable {doc : Document K R} {index : KvIndex K R} {store : Keyspace}

/-- A key long enough for the cut and the tail is decoded from its last bytes. -/
theorem entryHit_of_le {n : Nat} {full : Bytes} (h : n + index.keyPrefixWidth ≤ full.length) :
    entryHit index n full = .ok (some (tailKey index full)) := by
  have hlen : (full.drop n).length = full.length - n := List.length_drop
  have htail : (full.drop n).drop ((full.drop n).length - index.keyPrefixWidth)
      = full.drop (full.length - index.keyPrefixWidth) := by
    rw [List.drop_drop, hlen]
    congr 1
    omega
  unfold entryHit
  rw [if_neg (by omega)]
  dsimp only
  rw [if_neg (by omega), htail]
  rfl

theorem entryHit_of_lt {n : Nat} {full : Bytes} (hn : n ≤ full.length)
    (h : full.length < n + index.keyPrefixWidth) : entryHit index n full = .ok none := by
  have hlen : (full.drop n).length = full.length - n := List.length_drop
  unfold entryHit
  rw [if_neg (by omega)]
  dsimp only
  rw [if_pos (by omega)]

theorem entryHit_slice {n : Nat} {full : Bytes} (h : full.length < n) :
    entryHit index n full = .error .slice := by
  rw [entryHit, if_pos h]

/-- **What the loop keeps**: with every key long enough for the cut, the keys long
enough for a tail behind it. -/
theorem yielded_eq_ok_iff {n : Nat} {keys kept : List Bytes} :
    yielded index n keys = .ok kept ↔ (∀ k ∈ keys, n ≤ k.length) ∧
      kept = keys.filter fun k => n + index.keyPrefixWidth ≤ k.length := by
  induction keys generalizing kept with
  | nil => simp [yielded, eq_comm]
  | cons full rest ih =>
    rw [yielded]
    by_cases hslice : full.length < n
    · -- shorter than the cut: the scan panics
      rw [entryHit_slice hslice]
      refine iff_of_false (by simp) fun hall => ?_
      have := hall.1 full (by simp)
      omega
    · by_cases hshort : full.length < n + index.keyPrefixWidth
      · -- too short for an entry: passed over
        have hkeep : ¬ n + index.keyPrefixWidth ≤ full.length := by omega
        rw [entryHit_of_lt (by omega) hshort]
        simp only [ih, List.mem_cons, forall_eq_or_imp, List.filter_cons, hkeep, decide_false,
          Bool.false_eq_true, if_false]
        refine and_congr_left fun _ => ?_
        constructor
        · intro hall
          exact ⟨by omega, hall⟩
        · intro hall
          exact hall.2
      · -- an entry is kept, if the rest answers
        have hkeep : n + index.keyPrefixWidth ≤ full.length := by omega
        rw [entryHit_of_le hkeep]
        simp only [List.mem_cons, forall_eq_or_imp, List.filter_cons, hkeep, decide_true, if_true]
        cases hrest : yielded index n rest with
        | error p =>
          refine iff_of_false (by simp [Except.map]) fun hall => ?_
          have hok := (@ih (rest.filter fun k => n + index.keyPrefixWidth ≤ k.length)).mpr
            ⟨hall.1.2, rfl⟩
          rw [hrest] at hok
          simp at hok
        | ok kept' =>
          have hkept := ih.mp hrest
          simp only [Except.map, Except.ok.injEq]
          rw [← hkept.2]
          constructor
          · intro heq
            exact ⟨⟨by omega, hkept.1⟩, heq.symm⟩
          · intro heq
            exact heq.2.symm

/-- The row behind a hit is read without a failure. -/
theorem fetchBack_tailKey (k : Bytes) :
    fetchBack doc index store (tailKey index k) = .ok (hitOf doc index store k).2 := by
  unfold fetchBack hitOf
  dsimp only
  by_cases hfull : index.keyPrefixWidth = keyLen K
  · rw [if_pos hfull, if_pos hfull]
    obtain ⟨answer, hanswer⟩ := doc.get_ok store (tailKey index k).decoded
    rw [hanswer]
    rfl
  · rw [if_neg hfull, if_neg hfull]

/-- The list answer follows from what the loop keeps. -/
theorem collectEntries_eq {n : Nat} {keys kept : List Bytes}
    (h : yielded index n keys = .ok kept) :
    collectEntries doc index store n keys = .ok (.ok (kept.map (hitOf doc index store))) := by
  obtain ⟨hlen, rfl⟩ := yielded_eq_ok_iff.mp h
  clear h
  induction keys with
  | nil => rfl
  | cons full rest ih =>
    have hfull := hlen full (by simp)
    have ih := ih fun k hk => hlen k (by simp [hk])
    rw [collectEntries]
    by_cases hkeep : n + index.keyPrefixWidth ≤ full.length
    · rw [entryHit_of_le hkeep]
      dsimp only
      rw [fetchBack_tailKey, ih, List.filter_cons_of_pos (by simpa using hkeep)]
      rfl
    · rw [entryHit_of_lt hfull (by omega), List.filter_cons_of_neg (by simpa using hkeep)]
      exact ih

/-- So does the iterator's. -/
theorem entryIter_eq {n : Nat} {entries : List (Bytes × Bytes)} {kept : List Bytes}
    (h : yielded index n (entries.map Prod.fst) = .ok kept) :
    entryIter doc index store n (entries.map .ok)
      = kept.map fun k => .ok (.ok (hitOf doc index store k)) := by
  obtain ⟨hlen, rfl⟩ := yielded_eq_ok_iff.mp h
  clear h
  induction entries with
  | nil => rfl
  | cons e rest ih =>
    obtain ⟨full, v⟩ := e
    have hfull := hlen full (by simp)
    have ih := ih fun k hk => hlen k (by simp only [List.map_cons, List.mem_cons, hk, or_true])
    rw [List.map_cons, List.map_cons, entryIter]
    by_cases hkeep : n + index.keyPrefixWidth ≤ full.length
    · rw [entryHit_of_le hkeep]
      dsimp only
      rw [fetchBack_tailKey, ih, List.filter_cons_of_pos (by simpa using hkeep)]
      rfl
    · rw [entryHit_of_lt hfull (by omega), List.filter_cons_of_neg (by simpa using hkeep)]
      exact ih

/-! ## Scanned and wanted -/

theorem mem_scannedKeys {begin : Bytes} {stop : Option Bytes} {k : Bytes} :
    k ∈ scannedKeys doc index store begin stop ↔ (∃ v, store.get k = some v) ∧
      index.face doc.header ++ begin ≤ k ∧ ∀ e ∈ stop, k < index.face doc.header ++ e := by
  unfold scannedKeys
  rw [List.mem_map]
  refine ⟨fun hk => ?_, fun hk => ?_⟩
  · obtain ⟨⟨k', v⟩, hmem, rfl⟩ := hk
    obtain ⟨hget, hlo, hhi⟩ := (SortedMap.mem_range _ _ _ _).mp hmem
    exact ⟨⟨v, hget⟩, hlo, fun e he => hhi _ (Option.mem_map_of_mem _ he)⟩
  · obtain ⟨⟨v, hget⟩, hlo, hhi⟩ := hk
    refine ⟨(k, v), (SortedMap.mem_range _ _ _ _).mpr ⟨hget, hlo, fun u hu => ?_⟩, rfl⟩
    obtain ⟨e, he, rfl⟩ := Option.mem_map.mp hu
    exact hhi e he

theorem mem_wanted {begin : Bytes} {stop : Option Bytes} {k : Bytes} :
    k ∈ wanted doc index store begin stop ↔ (∃ v, store.get k = some v) ∧
      index.face doc.header <+: k ∧ InRange begin stop (segmentOf index doc.header k) := by
  unfold wanted
  simp only [List.mem_map, List.mem_filter, Bool.and_eq_true, List.isPrefixOf_iff_prefix,
    decide_eq_true_eq]
  refine ⟨fun hk => ?_, fun hk => ?_⟩
  · obtain ⟨⟨k', v⟩, ⟨hmem, hface, hin⟩, rfl⟩ := hk
    exact ⟨⟨v, (SortedMap.get_eq_some_iff _ _ _).mpr hmem⟩, hface, hin⟩
  · obtain ⟨⟨v, hget⟩, hface, hin⟩ := hk
    exact ⟨(k, v), ⟨(SortedMap.get_eq_some_iff _ _ _).mp hget, hface, hin⟩, rfl⟩

theorem scannedKeys_sorted (begin : Bytes) (stop : Option Bytes) :
    (scannedKeys doc index store begin stop).Pairwise (· < ·) := by
  unfold scannedKeys
  rw [List.pairwise_map]
  exact store.range_sorted _ _

theorem wanted_sorted (begin : Bytes) (stop : Option Bytes) :
    (wanted doc index store begin stop).Pairwise (· < ·) := by
  unfold wanted
  rw [List.pairwise_map]
  exact store.sorted.filter _

/-- Both lists ascend, so they are one list as soon as their members agree. -/
theorem kept_eq_wanted_iff {begin : Bytes} {stop : Option Bytes} {n : Nat} :
    wanted doc index store begin stop
        = (scannedKeys doc index store begin stop).filter (fun k => n ≤ k.length) ↔
      ∀ k, k ∈ wanted doc index store begin stop ↔
        (k ∈ scannedKeys doc index store begin stop ∧ n ≤ k.length) := by
  have hmem : ∀ k, k ∈ (scannedKeys doc index store begin stop).filter (fun k => n ≤ k.length) ↔
      (k ∈ scannedKeys doc index store begin stop ∧ n ≤ k.length) := by
    intro k
    simp only [List.mem_filter, decide_eq_true_eq]
  refine ⟨fun h k => by rw [h, hmem], fun h => ?_⟩
  refine (wanted_sorted begin stop).eq_of_mem_iff ((scannedKeys_sorted begin stop).filter _) ?_
  exact fun k => (h k).trans (hmem k).symm

theorem segmentOf_face (header body : Bytes) :
    segmentOf index header (index.face header ++ body)
      = body.take (body.length - index.keyPrefixWidth) := by
  unfold segmentOf
  rw [List.drop_left]

/-- A segment is what its entry's body starts with. -/
theorem segmentOf_le (header body : Bytes) :
    segmentOf index header (index.face header ++ body) ≤ body := by
  rw [segmentOf_face]
  exact prefix_le (List.take_prefix _ _)

/-- A body long enough for the cut is past the begin bound with its segment. -/
theorem begin_le_segmentOf {header begin body : Bytes}
    (hlen : begin.length + index.keyPrefixWidth ≤ body.length) (hle : begin ≤ body) :
    begin ≤ segmentOf index header (index.face header ++ body) := by
  rw [segmentOf_face]
  have hsplit := List.take_append_drop (body.length - index.keyPrefixWidth) body
  rw [← hsplit] at hle
  refine (le_append_iff_of_length_le ?_ _).mp hle
  rw [List.length_take]
  omega

/-- Both scans answer exactly what is wanted if and only if the condition holds. -/
theorem scanExact_iff (begin : Bytes) (stop : Option Bytes) :
    ScanExact doc index store begin stop ↔ RangeFits doc index store begin stop := by
  have hlen : ∀ body : Bytes, (index.face doc.header ++ body).length
      = (index.face doc.header).length + body.length := fun body => List.length_append
  refine ⟨fun hexact => ?_, fun fits => ?_⟩
  · -- an exact scan cuts every key it meets and keeps only those of the face
    obtain ⟨hcut, hkept⟩ := yielded_eq_ok_iff.mp hexact.entries
    have hiff := kept_eq_wanted_iff.mp hkept
    refine ⟨fun body v hget hin => ?_, fun body v hget hin => ?_, fun hopen k v hget hface hle => ?_⟩
    · have hmem := (hiff (index.face doc.header ++ body)).mp
        (mem_wanted.mpr ⟨⟨v, hget⟩, List.prefix_append _ _, hin⟩)
      obtain ⟨hscanned, hlong⟩ := hmem
      rw [hlen] at hlong
      refine ⟨by omega, fun e he => ?_⟩
      exact (append_lt_append_iff _ _ _).mp ((mem_scannedKeys.mp hscanned).2.2 e he)
    · have hscanned : index.face doc.header ++ body ∈ scannedKeys doc index store begin stop :=
        mem_scannedKeys.mpr ⟨⟨v, hget⟩, (append_le_append_iff _ _ _).mpr hin.1,
          fun e he => (append_lt_append_iff _ _ _).mpr (hin.2 e he)⟩
      have := hcut _ hscanned
      rw [hlen] at this
      omega
    · have hscanned : k ∈ scannedKeys doc index store begin stop :=
        mem_scannedKeys.mpr ⟨⟨v, hget⟩, hle, by simp [hopen]⟩
      refine ⟨hcut k hscanned, ?_⟩
      by_contra hlong
      have hwanted := (hiff k).mpr ⟨hscanned, by omega⟩
      exact hface (mem_wanted.mp hwanted).2.1
  · -- the keys scanned are the face's own, or too short to be taken for an entry
    have hscanned : ∀ k ∈ scannedKeys doc index store begin stop,
        (index.face doc.header).length + begin.length ≤ k.length ∧
        ((index.face doc.header).length + begin.length + index.keyPrefixWidth ≤ k.length →
          index.face doc.header <+: k) := by
      intro k hk
      obtain ⟨⟨v, hget⟩, hlo, hhi⟩ := mem_scannedKeys.mp hk
      by_cases hface : index.face doc.header <+: k
      · obtain ⟨body, rfl⟩ := hface
        have hin : InRange begin stop body := ⟨(append_le_append_iff _ _ _).mp hlo,
          fun e he => (append_lt_append_iff _ _ _).mp (hhi e he)⟩
        have := fits.shorter body v hget hin
        exact ⟨by rw [hlen]; omega, fun _ => List.prefix_append _ _⟩
      · have hopen : stop = none := by
          cases stop with
          | none => rfl
          | some e => exact absurd (prefix_of_between hlo (hhi e rfl)) hface
        -- only an open scan runs past the face
        obtain ⟨hcut, hshort⟩ := fits.foreign hopen k v hget hface hlo
        exact ⟨hcut, fun hlong => absurd hlong (by omega)⟩
    have hentries : yielded index ((index.face doc.header).length + begin.length)
        (scannedKeys doc index store begin stop) = .ok (wanted doc index store begin stop) := by
      refine yielded_eq_ok_iff.mpr ⟨fun k hk => (hscanned k hk).1, ?_⟩
      rw [kept_eq_wanted_iff]
      -- a wanted key is scanned, and a scanned one that is long enough is wanted
      refine fun k => ⟨fun hk => ?_, fun hk => ?_⟩
      · obtain ⟨⟨v, hget⟩, ⟨body, rfl⟩, hin⟩ := mem_wanted.mp hk
        obtain ⟨hlong, hbelow⟩ := fits.wanted body v hget hin
        refine ⟨mem_scannedKeys.mpr ⟨⟨v, hget⟩, ?_, fun e he => ?_⟩, by rw [hlen]; omega⟩
        · exact (append_le_append_iff _ _ _).mpr (le_trans hin.1 (segmentOf_le _ _))
        · exact (append_lt_append_iff _ _ _).mpr (hbelow e he)
      · obtain ⟨hk, hlong⟩ := hk
        obtain ⟨body, rfl⟩ := (hscanned k hk).2 hlong
        obtain ⟨hget, hlo, hhi⟩ := mem_scannedKeys.mp hk
        rw [hlen] at hlong
        have hle := (append_le_append_iff _ _ _).mp hlo
        refine mem_wanted.mpr ⟨hget, List.prefix_append _ _, begin_le_segmentOf (by omega) hle,
          fun e he => ?_⟩
        exact lt_of_le_of_lt (segmentOf_le _ _) ((append_lt_append_iff _ _ _).mp (hhi e he))
    refine ⟨hentries, ?_, ?_⟩
    · have hcollect := @collectEntries_eq _ _ _ doc index store _ _ _ hentries
      rw [← List.length_append] at hcollect
      exact hcollect
    · have hiter := @entryIter_eq _ _ _ doc index store _ _ _ hentries
      rw [← List.length_append] at hiter
      exact hiter

/-- An entry key is the face, the segment, and the key tail. -/
theorem entryKeyWith_eq (header : Bytes) (key : K) (segment : Bytes) :
    index.entryKeyWith header key segment
      = index.face header ++ (segment ++ index.keyPrefixBytes key) := by
  simp [KvIndex.entryKeyWith, KvIndex.face, KvIndex.entryPrefix, faceKey]

/-- The entries of a row, one for each segment it has. -/
theorem mem_entryPairs_iff {header : Bytes} {key : K} {document : R} {e : Bytes × Bytes} :
    e ∈ index.entryPairs header key document ↔ index.admits document = true ∧
      ∃ segment ∈ index.segments key document,
        e = (index.entryKeyWith header key segment, index.entryValue key document) := by
  unfold KvIndex.entryPairs
  by_cases hadmits : index.admits document = true
  · rw [if_pos hadmits, List.mem_map]
    refine ⟨fun h => ?_, fun h => ?_⟩
    · obtain ⟨segment, hmem, rfl⟩ := h
      exact ⟨hadmits, segment, hmem, rfl⟩
    · obtain ⟨-, segment, hmem, rfl⟩ := h
      exact ⟨segment, hmem, rfl⟩
  · rw [if_neg hadmits]
    refine iff_of_false (by simp) ?_
    intro h
    exact hadmits h.1

/-- The segment of an entry is the one it was built from. -/
theorem segmentOf_entryKeyWith (header : Bytes) (key : K) (segment : Bytes) :
    segmentOf index header (index.entryKeyWith header key segment) = segment := by
  rw [entryKeyWith_eq, segmentOf_face, List.length_append, index.length_keyPrefix,
    Nat.add_sub_cancel, List.take_left]

/-- What is wanted of a consistent face: the entries of the stored rows whose
segment is in the range. -/
theorem mem_wanted_iff (h : FaceConsistent doc index store) {begin : Bytes}
    {stop : Option Bytes} {k : Bytes} :
    k ∈ wanted doc index store begin stop ↔ ∃ key raw segment,
      store.get (doc.primaryKey key) = some raw ∧
      index.admits (doc.decodePayload raw) = true ∧
      segment ∈ index.segments key (doc.decodePayload raw) ∧ InRange begin stop segment ∧
      k = index.entryKeyWith doc.header key segment := by
  rw [mem_wanted]
  refine ⟨fun hk => ?_, fun hk => ?_⟩
  · obtain ⟨⟨v, hget⟩, hface, hin⟩ := hk
    obtain ⟨key, raw, hrow, hpair⟩ := (h k v hface).mp hget
    obtain ⟨hadmits, segment, hmem, heq⟩ := mem_entryPairs_iff.mp hpair
    obtain ⟨rfl, -⟩ := Prod.mk.inj heq
    rw [segmentOf_entryKeyWith] at hin
    exact ⟨key, raw, segment, hrow, hadmits, hmem, hin, rfl⟩
  · obtain ⟨key, raw, segment, hrow, hadmits, hmem, hin, rfl⟩ := hk
    have hface : index.face doc.header <+: index.entryKeyWith doc.header key segment :=
      ⟨_, (entryKeyWith_eq doc.header key segment).symm⟩
    have hpair : (index.entryKeyWith doc.header key segment,
        index.entryValue key (doc.decodePayload raw))
          ∈ index.entryPairs doc.header key (doc.decodePayload raw) :=
      mem_entryPairs_iff.mpr ⟨hadmits, segment, hmem, rfl⟩
    refine ⟨⟨_, (h _ _ hface).mpr ⟨key, raw, hrow, hpair⟩⟩, hface, ?_⟩
    rwa [segmentOf_entryKeyWith]

/-- Bounds no longer than any segment of the face are always met. -/
theorem rangeFits_of_length {begin e : Bytes}
    (hlen : ∀ body v, store.get (index.face doc.header ++ body) = some v →
      begin.length + index.keyPrefixWidth ≤ body.length ∧
      e.length + index.keyPrefixWidth ≤ body.length) :
    RangeFits doc index store begin (some e) where
  wanted body v hget hin := by
    obtain ⟨hbegin, he⟩ := hlen body v hget
    refine ⟨hbegin, fun u hu => ?_⟩
    obtain rfl := Option.some.inj hu
    by_contra hnot
    have hle := @begin_le_segmentOf _ _ _ index doc.header e body he (not_lt.mp hnot)
    exact absurd (lt_of_lt_of_le (hin.2 e rfl) hle) (lt_irrefl _)
  shorter body v hget _ := by
    have := (hlen body v hget).1
    omega
  foreign hopen := by simp at hopen

/-- **When a range scan is exact.** Over a consistent face both scans answer, for
all bounds and segments, exactly the entries of stored rows whose segment is in
the range, if and only if the condition holds. -/
theorem scanRange_exact (h : FaceConsistent doc index store) (begin : Bytes)
    (stop : Option Bytes) :
    (ScanExact doc index store begin stop ↔ RangeFits doc index store begin stop) ∧
    ∀ k, k ∈ wanted doc index store begin stop ↔ ∃ key raw segment,
      store.get (doc.primaryKey key) = some raw ∧
      index.admits (doc.decodePayload raw) = true ∧
      segment ∈ index.segments key (doc.decodePayload raw) ∧ InRange begin stop segment ∧
      k = index.entryKeyWith doc.header key segment :=
  ⟨scanExact_iff begin stop, fun _ => mem_wanted_iff h⟩

end

/-! ## Rows under a text index -/

/-- An index on the whole payload, the key in full behind it. -/
def textIndex : KvIndex UInt8 Bytes where
  slot := slot Segment.index 1 firstIndex_bounds
  keyPrefixWidth := 1
  keyPrefixBytes k := [k]
  keyPrefix_le := oneByte_le
  length_keyPrefix := length_oneByte
  admits _ := true
  segments _ text := [text]
  entryValue _ _ := []

/-- Rows of one variable-width text field. -/
def textDoc : Document UInt8 Bytes where
  partitionPrefix := []
  nsPrefix := [0, 7]
  leads := []
  indexes := [textIndex]
  reduces := []
  vocabFields := []
  encodePayload text := text
  decodePayload raw := raw
  embedDeref _ text := .ok text
  embedEntries _ := []
  embedKeys _ := []
  fields := ["text"]
  toMap text := SortedMap.empty.insert "text" (.bytes text)
  tryFromMap map := match map.get "text" with
    | some (.bytes text) => .ok text
    | some _ => .error (.kindMismatch "text" "Bytes" "")
    | none => .ok []
  leadSlots := noLeads
  indexSlots := by
    intro i hi
    obtain rfl := List.mem_singleton.mp hi
    rfl
  reduceSlots := by simp
  leadsNodup := List.nodup_nil
  indexesNodup := List.nodup_singleton _
  reducesNodup := List.nodup_nil
  vocabFaces := by simp
  embedDeref_ok _ text := ⟨text, rfl⟩

/-- The row "a" under key 1, with its entry. -/
def oneRow : Keyspace :=
  SortedMap.ofList [([0, 7, 0, 1], [97]), ([0, 7, 0x30, 0x01, 97, 1], [])]

theorem oneRow_get {k v : Bytes} (h : oneRow.get k = some v) :
    (k = [0, 7, 0, 1] ∧ v = [97]) ∨ (k = [0, 7, 0x30, 0x01, 97, 1] ∧ v = []) := by
  have hentries : oneRow.entries = [([0, 7, 0, 1], [97]), ([0, 7, 0x30, 0x01, 97, 1], [])] := by
    decide
  rw [SortedMap.get_eq_some_iff, hentries] at h
  simpa using h

theorem oneRow_consistent : FaceConsistent textDoc textIndex oneRow := by
  intro k v hface
  refine ⟨fun hk => ?_, fun hk => ?_⟩
  · rcases oneRow_get hk with ⟨rfl, rfl⟩ | ⟨rfl, rfl⟩
    · exact absurd hface (by decide)
    · exact ⟨1, [97], by decide, by decide⟩
  · obtain ⟨key, raw, hrow, hpair⟩ := hk
    have hkey : key = 1 ∧ raw = [97] := by
      rcases oneRow_get hrow with ⟨heq, hraw⟩ | ⟨heq, -⟩
      · exact ⟨by simpa [Document.primaryKey, faceKey, encode] using congrArg List.getLast? heq, hraw⟩
      · exact absurd (congrArg List.length heq) (by
          simp [Document.primaryKey, faceKey, encode, Document.header, textDoc, primarySlot,
            Slot.bytes])
    obtain ⟨rfl, rfl⟩ := hkey
    have hone : textIndex.entryPairs textDoc.header 1 (textDoc.decodePayload [97])
        = [([0, 7, 0x30, 0x01, 97, 1], [])] := by decide
    rw [hone] at hpair
    obtain ⟨rfl, rfl⟩ := Prod.mk.inj (List.mem_singleton.mp hpair)
    decide

/-- The rows "a", "ab" and "b" under keys 1, 2 and 3, with their entries, and a key of another
face. -/
def threeRows : Keyspace :=
  SortedMap.ofList [([0, 7, 0, 1], [97]), ([0, 7, 0, 2], [97, 98]), ([0, 7, 0, 3], [98]),
    ([0, 7, 0x30, 0x01, 97, 1], []), ([0, 7, 0x30, 0x01, 97, 98, 2], []),
    ([0, 7, 0x30, 0x01, 98, 3], []), ([0, 7, 0x30, 0x02, 97], [])]

theorem threeRows_get {k v : Bytes} (h : threeRows.get k = some v) :
    ((k, v) = ([0, 7, 0, 1], [97]) ∨ (k, v) = ([0, 7, 0, 2], [97, 98]) ∨
      (k, v) = ([0, 7, 0, 3], [98])) ∨
    ((k, v) = ([0, 7, 0x30, 0x01, 97, 1], []) ∨ (k, v) = ([0, 7, 0x30, 0x01, 97, 98, 2], []) ∨
      (k, v) = ([0, 7, 0x30, 0x01, 98, 3], [])) ∨ (k, v) = ([0, 7, 0x30, 0x02, 97], []) := by
  have hentries : threeRows.entries = [([0, 7, 0, 1], [97]), ([0, 7, 0, 2], [97, 98]),
      ([0, 7, 0, 3], [98]), ([0, 7, 0x30, 0x01, 97, 1], []),
      ([0, 7, 0x30, 0x01, 97, 98, 2], []), ([0, 7, 0x30, 0x01, 98, 3], []),
      ([0, 7, 0x30, 0x02, 97], [])] := by
    decide
  rw [SortedMap.get_eq_some_iff, hentries] at h
  simpa only [List.mem_cons, List.not_mem_nil, or_false, or_assoc] using h

/-- The rows are under three keys. -/
theorem threeRows_row {key : UInt8} {raw : Bytes}
    (h : threeRows.get (textDoc.primaryKey key) = some raw) :
    (key, raw) = (1, [97]) ∨ (key, raw) = (2, [97, 98]) ∨ (key, raw) = (3, [98]) := by
  have hkey : textDoc.primaryKey key = [0, 7, 0, key] := rfl
  rw [hkey] at h
  have hlong : ∀ {tail w : Bytes}, ([0, 7, 0, key], raw) ≠ (0 :: 7 :: 0x30 :: tail, w) := by
    intro tail w heq
    cases (List.cons.inj (List.cons.inj (List.cons.inj (Prod.mk.inj heq).1).2).2).1
  rcases threeRows_get h with (heq | heq | heq) | (heq | heq | heq) | heq
  · exact Or.inl (by simpa using heq)
  · exact Or.inr (Or.inl (by simpa using heq))
  · exact Or.inr (Or.inr (by simpa using heq))
  all_goals exact absurd heq hlong

theorem threeRows_consistent : FaceConsistent textDoc textIndex threeRows := by
  intro k v hface
  constructor
  · intro hk
    rcases threeRows_get hk with (heq | heq | heq) | (heq | heq | heq) | heq
    all_goals obtain ⟨rfl, rfl⟩ := Prod.mk.inj heq
    -- a row, and a key of another face, are not under this face
    · exact absurd hface (by decide)
    · exact absurd hface (by decide)
    · exact absurd hface (by decide)
    · exact ⟨1, [97], by decide, by decide⟩
    · exact ⟨2, [97, 98], by decide, by decide⟩
    · exact ⟨3, [98], by decide, by decide⟩
    · exact absurd hface (by decide)
  · rintro ⟨key, raw, hrow, hpair⟩
    have hone : ∀ key raw, textIndex.entryPairs textDoc.header key (textDoc.decodePayload raw)
        = [([0, 7, 0x30, 0x01] ++ raw ++ [key], [])] := fun _ _ => rfl
    rw [hone] at hpair
    obtain ⟨rfl, rfl⟩ := Prod.mk.inj (List.mem_singleton.mp hpair)
    rcases threeRows_row hrow with heq | heq | heq
    all_goals
      obtain ⟨rfl, rfl⟩ := Prod.mk.inj heq
      decide

/-- Bounds as wide as the shortest segment find the two rows between them, and not the third. -/
theorem scanRange_exact_threeRows :
    ScanExact textDoc textIndex threeRows [97] (some [98]) ∧
    wanted textDoc textIndex threeRows [97] (some [98])
      = [[0, 7, 0x30, 0x01, 97, 1], [0, 7, 0x30, 0x01, 97, 98, 2]] := by
  refine ⟨(scanRange_exact threeRows_consistent [97] (some [98])).1.mpr
    (rangeFits_of_length fun body v hget => ?_), by decide⟩
  have hface : textIndex.face textDoc.header = [0, 7, 0x30, 0x01] := by decide
  rw [hface] at hget
  rcases threeRows_get hget with (heq | heq | heq) | (heq | heq | heq) | heq
  all_goals have hkey := (Prod.mk.inj heq).1
  · simp at hkey
  · simp at hkey
  · simp at hkey
  · obtain rfl : body = [97, 1] := by simpa using hkey
    decide
  · obtain rfl : body = [97, 98, 2] := by simpa using hkey
    decide
  · obtain rfl : body = [98, 3] := by simpa using hkey
    decide
  · simp at hkey

/-- Bounds wider than the segment "a". Below a wide begin bound the row in range
is dropped; where it shares the first byte the scan aborts; a wide end bound cuts
the row off by its tail. -/
theorem scanRange_wide_bounds :
    FaceConsistent textDoc textIndex oneRow ∧
    wanted textDoc textIndex oneRow [96, 0] (some [98]) = [[0, 7, 0x30, 0x01, 97, 1]] ∧
    scanRangeEntries textDoc textIndex oneRow [96, 0] (some [98]) = .ok (.ok []) ∧
    scanRangeEntries textDoc textIndex oneRow [97, 0, 0] (some [98]) = .error .slice ∧
    wanted textDoc textIndex oneRow [97] (some [97, 1]) = [[0, 7, 0x30, 0x01, 97, 1]] ∧
    scanRangeEntries textDoc textIndex oneRow [97] (some [97, 1]) = .ok (.ok []) :=
  ⟨oneRow_consistent, by decide, by rfl, by rfl, by decide, by rfl⟩

end Okm.Model
