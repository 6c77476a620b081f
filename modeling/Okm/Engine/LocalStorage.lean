import Mathlib.Data.List.Sort
import Mathlib.Data.String.Basic
import Okm.Model.Slot

/-!
# The browser's string storage as an engine

The model of `engine/localstorage_backend.rs`. The browser keeps strings under strings,
so keys and values cross as base64: a point read encodes its key, a scan decodes every
key it finds. The storage is shared with other code of the origin, which may have put
any strings there, and its enumeration order is unspecified: a scan is given the rows
in some order.

Several texts decode to one key: bits behind the last byte and padding inside the text
are not looked at. `local_scans` says that scans and point reads agree exactly when no
such text is in the storage (`CanonicalKeys`), which no operation of the engine changes.
-/

namespace Okm.Engine

open Lib Model

/-! ## Base64 -/

def b64Alphabet : List Char :=
  "ABCDEFGHIJKLMNOPQRSTUVWXYZabcdefghijklmnopqrstuvwxyz0123456789+/".toList

def b64Char (index : Nat) : Char := b64Alphabet.getD index 'A'

/-- The four characters of one chunk; a missing byte counts as zero, and its character
is padding. -/
def encodeChunk (a : UInt8) (b c : Option UInt8) : List Char :=
  let n := a.toNat * 2 ^ 16 + (b.getD 0).toNat * 2 ^ 8 + (c.getD 0).toNat
  [b64Char (n / 2 ^ 18 % 64), b64Char (n / 2 ^ 12 % 64),
    if b.isSome then b64Char (n / 2 ^ 6 % 64) else '=',
    if c.isSome then b64Char (n % 64) else '=']

def encodeChunks : Bytes → List Char
  | [] => []
  | [a] => encodeChunk a none none
  | [a, b] => encodeChunk a (some b) none
  | a :: b :: c :: rest => encodeChunk a (some b) (some c) ++ encodeChunks rest

/-- `b64_encode`. -/
def b64Encode (bytes : Bytes) : String := String.ofList (encodeChunks bytes)

/-- The value of a character. -/
def b64Val (c : UInt8) : Option Nat :=
  if 65 ≤ c ∧ c ≤ 90 then some (c.toNat - 65)
  else if 97 ≤ c ∧ c ≤ 122 then some (c.toNat - 97 + 26)
  else if 48 ≤ c ∧ c ≤ 57 then some (c.toNat - 48 + 52)
  else if c = 43 then some 62
  else if c = 47 then some 63
  else none

/-- The padding byte. -/
def b64Pad : UInt8 := 61

/-- One group of four: the padding must be trailing in the group, the other characters
carry six bits each. -/
def decodeGroup (g₀ g₁ g₂ g₃ : UInt8) : Option Bytes :=
  let pad := (if g₃ = b64Pad then 1 else 0) + (if g₂ = b64Pad then 1 else 0)
  let expect := if g₂ = b64Pad ∧ g₃ = b64Pad then 2 else 1
  if 0 < pad ∧ (g₃ ≠ b64Pad ∨ pad ≠ expect) then none
  else do
    let n ← ([g₀, g₁, g₂, g₃].take (4 - pad)).foldlM
      (fun n c => (b64Val c).map fun d => n * 64 + d) 0
    let n := n * 2 ^ (6 * pad)
    some ((List.range (3 - pad)).map fun i => UInt8.ofNat (n / 2 ^ (16 - 8 * i)))

def decodeGroups : Bytes → Option Bytes
  | g₀ :: g₁ :: g₂ :: g₃ :: rest => do
    let bytes ← decodeGroup g₀ g₁ g₂ g₃
    let more ← decodeGroups rest
    some (bytes ++ more)
  | _ => some []

/-- `b64_decode`. -/
def b64Decode (text : String) : Option Bytes :=
  if (strBytes text).length % 4 ≠ 0 then none else decodeGroups (strBytes text)

/-! ## The engine -/

/-- `web_sys::Storage`: strings under strings. -/
abbrev Storage := SortedMap String String

namespace LocalStorage

/-- One enumerated row; a text that does not decode is skipped. -/
def row (entry : String × String) : Option (Bytes × Bytes) := do
  let key ← b64Decode entry.1
  let value ← b64Decode entry.2
  some (key, value)

/-- `rows_sorted`, of the storage in the order it is enumerated in. -/
def rowsSorted (items : List (String × String)) : List Bytes :=
  ((items.filterMap row).map Prod.fst).insertionSort (· ≤ ·)

def get (storage : Storage) (key : Bytes) : Option Bytes :=
  (storage.get (b64Encode key)).bind b64Decode

/-- `put`; the browser may refuse for its quota. -/
def put (accepts : Storage → String → String → Bool) (storage : Storage) (key value : Bytes) :
    Except Error Unit × Storage :=
  if accepts storage (b64Encode key) (b64Encode value) then
    (.ok (), storage.insert (b64Encode key) (b64Encode value))
  else (.error (.engine "localStorage set_item"), storage)

def del (storage : Storage) (key : Bytes) : Except Error Unit × Storage :=
  (.ok (), storage.erase (b64Encode key))

/-- The trait's default replay. -/
def commitBatch (accepts : Storage → String → String → Bool) (storage : Storage) (batch : Batch) :
    Except Error Unit × Storage :=
  replayOps (put accepts) del storage batch.ops

/-- `k.strip_prefix(prefix)`. -/
def stripPrefix (pfx key : Bytes) : Option Bytes :=
  if pfx.isPrefixOf key then some (key.drop pfx.length) else none

def scanSuffix (items : List (String × String)) (pfx : Bytes) : List Bytes :=
  (rowsSorted items).filterMap (stripPrefix pfx)

/-- The keys a range admits. -/
def inRange (start : Bytes) (stop : Option Bytes) (key : Bytes) : Bool :=
  decide (start ≤ key) && stop.all fun stop => decide (key < stop)

/-- `scan_range`: nothing when the end is not behind the start. -/
def scanRange (items : List (String × String)) (start : Bytes) (stop : Option Bytes) : List Bytes :=
  if stop.any fun stop => decide (stop ≤ start) then []
  else (rowsSorted items).filter (inRange start stop)

/-- `scan_range_iter`: the pairs of one enumeration, sorted by key. -/
def scanRangeIter (items : List (String × String)) (start : Bytes) (stop : Option Bytes) :
    List (Bytes × Bytes) :=
  if stop.any fun stop => decide (stop ≤ start) then []
  else ((items.filterMap row).filter fun pair => inRange start stop pair.1).insertionSort
    fun a b => a.1 ≤ b.1

/-- The operations of a run; reads leave the storage alone. -/
inductive LocalOp where
  | put (key value : Bytes)
  | get (key : Bytes)
  | del (key : Bytes)
  | commitBatch (batch : Batch)
  | scan (start : Bytes) (stop : Option Bytes)

def step (accepts : Storage → String → String → Bool) (storage : Storage) : LocalOp → Storage
  | .put key value => (put accepts storage key value).2
  | .get _ => storage
  | .del key => (del storage key).2
  | .commitBatch batch => (commitBatch accepts storage batch).2
  | .scan _ _ => storage

def run (accepts : Storage → String → String → Bool) (storage : Storage) (ops : List LocalOp) :
    Storage :=
  ops.foldl (step accepts) storage

/-- Delete every one of some keys. -/
def delAll (storage : Storage) (keys : List Bytes) : Storage :=
  keys.foldl (fun storage key => (del storage key).2) storage

/-! ## What a scan promises -/

/-- Scans answer the keys that point reads find, in order, each once, whatever order the
browser enumerates in; and deleting what a scan answers empties the range. -/
structure RefinesMap (storage : Storage) : Prop where
  range : ∀ items, items.Perm storage.entries → ∀ start stop,
    (scanRange items start stop).Pairwise (· < ·) ∧
    ∀ k, k ∈ scanRange items start stop ↔ (∃ v, get storage k = some v) ∧ inRange start stop k
  iter : ∀ items, items.Perm storage.entries → ∀ start stop,
    (scanRangeIter items start stop).Pairwise (fun a b => a.1 < b.1) ∧
    ∀ k v, (k, v) ∈ scanRangeIter items start stop ↔ get storage k = some v ∧ inRange start stop k
  suffix : ∀ items, items.Perm storage.entries → ∀ pfx,
    (scanSuffix items pfx).Pairwise (· < ·) ∧
    ∀ s, s ∈ scanSuffix items pfx ↔ ∃ v, get storage (pfx ++ s) = some v
  emptied : ∀ items, items.Perm storage.entries → ∀ start stop left,
    left.Perm (delAll storage (scanRange items start stop)).entries → scanRange left start stop = []

/-- Every row a scan would show stands under the text its key encodes to. -/
def CanonicalKeys (storage : Storage) : Prop :=
  ∀ entry ∈ storage.entries, ∀ key value, row entry = some (key, value) → entry.1 = b64Encode key

end LocalStorage

/-! ## The codec reads back what it wrote -/

theorem strBytes_ofList (cs : List Char) :
    strBytes (String.ofList cs) = cs.flatMap String.utf8EncodeChar := by
  unfold strBytes
  rw [String.toUTF8_eq_toByteArray, String.toByteArray_ofList, List.utf8Encode,
    List.data_toByteArray]

/-- The byte of each character of the alphabet has its index as value, and is no
padding. -/
theorem b64Char_val {i : Nat} (h : i < 64) : ∃ c, String.utf8EncodeChar (b64Char i) = [c] ∧
    b64Val c = some i ∧ c ≠ b64Pad := by
  have hall : ∀ i : Fin 64,
      String.utf8EncodeChar (b64Char i.val) = [UInt8.ofNat (b64Char i.val).toNat] ∧
      b64Val (UInt8.ofNat (b64Char i.val).toNat) = some i.val ∧
      UInt8.ofNat (b64Char i.val).toNat ≠ b64Pad := by decide +kernel
  exact ⟨_, hall ⟨i, h⟩⟩

theorem pad_bytes : String.utf8EncodeChar '=' = [b64Pad] := by decide +kernel

theorem ofNat_of_toNat {n : Nat} {b : UInt8} (h : n % 256 = b.toNat) : UInt8.ofNat n = b := by
  refine UInt8.toNat_inj.mp ?_
  rw [UInt8.toNat_ofNat']
  exact h

/-- **One chunk** survives the codec, whatever of it is padding. -/
theorem decodeGroup_chunk (a : UInt8) (b c : Option UInt8) (hc : c.isSome → b.isSome) :
    ∃ g₀ g₁ g₂ g₃, (encodeChunk a b c).flatMap String.utf8EncodeChar = [g₀, g₁, g₂, g₃] ∧
      decodeGroup g₀ g₁ g₂ g₃ = some (a :: b.toList ++ c.toList) := by
  have ha := a.toNat_lt
  have hb := (b.getD 0).toNat_lt
  have hcl := (c.getD 0).toNat_lt
  -- the number of the chunk, and its four digits
  obtain ⟨n, hn⟩ : ∃ n, n = a.toNat * 2 ^ 16 + (b.getD 0).toNat * 2 ^ 8 + (c.getD 0).toNat := ⟨_, rfl⟩
  obtain ⟨v₀, hd₀⟩ : ∃ v, v = n / 2 ^ 18 % 64 := ⟨_, rfl⟩
  obtain ⟨v₁, hd₁⟩ : ∃ v, v = n / 2 ^ 12 % 64 := ⟨_, rfl⟩
  obtain ⟨v₂, hd₂⟩ : ∃ v, v = n / 2 ^ 6 % 64 := ⟨_, rfl⟩
  obtain ⟨v₃, hd₃⟩ : ∃ v, v = n % 64 := ⟨_, rfl⟩
  obtain ⟨g₀, hg₀, hv₀, -⟩ := b64Char_val (show v₀ < 64 by omega)
  obtain ⟨g₁, hg₁, hv₁, -⟩ := b64Char_val (show v₁ < 64 by omega)
  obtain ⟨g₂, hg₂, hv₂, hp₂⟩ := b64Char_val (show v₂ < 64 by omega)
  obtain ⟨g₃, hg₃, hv₃, hp₃⟩ := b64Char_val (show v₃ < 64 by omega)
  unfold encodeChunk
  dsimp only
  rw [← hn, ← hd₀, ← hd₁, ← hd₂, ← hd₃]
  cases b with
  | none =>
    obtain rfl : c = none := by
      cases c with
      | none => rfl
      | some c => cases hc rfl
    refine ⟨g₀, g₁, b64Pad, b64Pad, by simp [hg₀, hg₁, pad_bytes], ?_⟩
    have hsum : n = a.toNat * 65536 := by simpa using hn
    have hbyte : UInt8.ofNat ((v₀ * 64 + v₁) * 4096 / 65536) = a := ofNat_of_toNat (by omega)
    simp [decodeGroup, hv₀, hv₁, List.range_succ, hbyte]
  | some b =>
    have hb : b.toNat < 2 ^ 8 := hb
    cases c with
    | none =>
      refine ⟨g₀, g₁, g₂, b64Pad, by simp [hg₀, hg₁, hg₂, pad_bytes], ?_⟩
      have hsum : n = a.toNat * 65536 + b.toNat * 256 := by simpa using hn
      have hbyte₀ : UInt8.ofNat (((v₀ * 64 + v₁) * 64 + v₂) * 64 / 65536) = a :=
        ofNat_of_toNat (by omega)
      have hbyte₁ : UInt8.ofNat (((v₀ * 64 + v₁) * 64 + v₂) * 64 / 256) = b :=
        ofNat_of_toNat (by omega)
      simp [decodeGroup, hv₀, hv₁, hv₂, hp₂, List.range_succ, hbyte₀, hbyte₁]
    | some c =>
      have hcl : c.toNat < 2 ^ 8 := hcl
      refine ⟨g₀, g₁, g₂, g₃, by simp [hg₀, hg₁, hg₂, hg₃], ?_⟩
      have hsum : n = a.toNat * 65536 + b.toNat * 256 + c.toNat := hn
      have hbyte₀ : UInt8.ofNat ((((v₀ * 64 + v₁) * 64 + v₂) * 64 + v₃) / 65536) = a :=
        ofNat_of_toNat (by omega)
      have hbyte₁ : UInt8.ofNat ((((v₀ * 64 + v₁) * 64 + v₂) * 64 + v₃) / 256) = b :=
        ofNat_of_toNat (by omega)
      have hbyte₂ : UInt8.ofNat (((v₀ * 64 + v₁) * 64 + v₂) * 64 + v₃) = c :=
        ofNat_of_toNat (by omega)
      simp only [decodeGroup, if_neg hp₂, if_neg hp₃]
      simp [hv₀, hv₁, hv₂, hv₃, List.range_succ, hbyte₀, hbyte₁, hbyte₂]

theorem decodeGroups_chunk {a : UInt8} {b c : Option UInt8} (hc : c.isSome → b.isSome)
    {rest : List Char} {bytes : Bytes}
    (hrest : decodeGroups (rest.flatMap String.utf8EncodeChar) = some bytes) :
    decodeGroups ((encodeChunk a b c ++ rest).flatMap String.utf8EncodeChar)
      = some (a :: b.toList ++ c.toList ++ bytes) := by
  obtain ⟨g₀, g₁, g₂, g₃, hbytes, hgroup⟩ := decodeGroup_chunk a b c hc
  rw [List.flatMap_append, hbytes, List.cons_append, List.cons_append, List.cons_append,
    List.cons_append, List.nil_append, decodeGroups, hgroup, hrest]
  rfl

theorem encodeChunks_groups (bytes : Bytes) :
    decodeGroups ((encodeChunks bytes).flatMap String.utf8EncodeChar) = some bytes ∧
      ((encodeChunks bytes).flatMap String.utf8EncodeChar).length % 4 = 0 := by
  have hlen : ∀ a b c, (c.isSome → b.isSome) →
      ((encodeChunk a b c).flatMap String.utf8EncodeChar).length = 4 := by
    intro a b c hc
    obtain ⟨g₀, g₁, g₂, g₃, hbytes, -⟩ := decodeGroup_chunk a b c hc
    rw [hbytes]
    rfl
  fun_induction encodeChunks bytes with
  | case1 => exact ⟨rfl, rfl⟩
  | case2 a =>
    have h : decodeGroups ((encodeChunk a none none ++ []).flatMap String.utf8EncodeChar)
        = some (a :: [] ++ [] ++ []) := decodeGroups_chunk (by simp) rfl
    rw [List.append_nil] at h
    exact ⟨h, by rw [hlen _ _ _ (by simp)]⟩
  | case3 a b =>
    have h : decodeGroups ((encodeChunk a (some b) none ++ []).flatMap String.utf8EncodeChar)
        = some (a :: [b] ++ [] ++ []) := decodeGroups_chunk (by simp) rfl
    rw [List.append_nil] at h
    exact ⟨h, by rw [hlen _ _ _ (by simp)]⟩
  | case4 a b c rest ih =>
    refine ⟨decodeGroups_chunk (by simp) ih.1, ?_⟩
    rw [List.flatMap_append, List.length_append, hlen _ _ _ (by simp), Nat.add_mod, ih.2]

/-- **A key survives its text.** -/
@[simp] theorem b64Decode_b64Encode (bytes : Bytes) : b64Decode (b64Encode bytes) = some bytes := by
  obtain ⟨hgroups, hlen⟩ := encodeChunks_groups bytes
  rw [b64Decode, b64Encode, strBytes_ofList, hlen]
  exact hgroups

theorem b64Encode_inj {a b : Bytes} (h : b64Encode a = b64Encode b) : a = b := by
  have hdecode := congrArg b64Decode h
  rw [b64Decode_b64Encode, b64Decode_b64Encode] at hdecode
  exact Option.some.inj hdecode

namespace LocalStorage

variable {storage : Storage} {items : List (String × String)} {key value : Bytes}

/-! ## Rows and point reads -/

theorem row_eq_some {entry : String × String} : row entry = some (key, value) ↔
    b64Decode entry.1 = some key ∧ b64Decode entry.2 = some value := by
  unfold row
  cases b64Decode entry.1 with
  | none => simp
  | some k =>
    cases b64Decode entry.2 with
    | none => simp
    | some v => simp

theorem get_eq_some : get storage key = some value ↔
    ∃ text, (b64Encode key, text) ∈ storage.entries ∧ b64Decode text = some value := by
  unfold get
  rw [Option.bind_eq_some_iff]
  refine exists_congr fun text => ?_
  rw [SortedMap.get_eq_some_iff]

/-- Only rows of other code stand under texts their key does not encode to. -/
theorem canonical_get : CanonicalKeys storage ↔ ∀ text stored key value,
    storage.get text = some stored → row (text, stored) = some (key, value) →
      text = b64Encode key := by
  constructor
  · intro h text stored key value hget hrow
    exact h (text, stored) ((storage.get_eq_some_iff _ _).mp hget) key value hrow
  · intro h entry hentry key value hrow
    exact h entry.1 entry.2 key value ((storage.get_eq_some_iff _ _).mpr hentry) hrow

/-- **A scan shows what point reads find**, when every text is canonical. -/
theorem CanonicalKeys.mem_rows (h : CanonicalKeys storage) (hitems : items.Perm storage.entries) :
    (key, value) ∈ items.filterMap row ↔ get storage key = some value := by
  rw [List.mem_filterMap, get_eq_some]
  constructor
  · rintro ⟨entry, hentry, hrow⟩
    have hmem := hitems.mem_iff.mp hentry
    have htext := h entry hmem key value hrow
    exact ⟨entry.2, by rw [← htext]; exact hmem, (row_eq_some.mp hrow).2⟩
  · rintro ⟨text, hmem, htext⟩
    exact ⟨_, hitems.mem_iff.mpr hmem, row_eq_some.mpr ⟨b64Decode_b64Encode key, htext⟩⟩

/-- Enumerated texts are distinct. -/
theorem distinct_texts (hitems : items.Perm storage.entries) :
    items.Pairwise fun a b => a.1 ≠ b.1 := by
  have hsorted : storage.entries.Pairwise fun a b => a.1 ≠ b.1 :=
    storage.sorted.imp fun hlt => ne_of_lt hlt
  exact hitems.symm.pairwise hsorted fun hne => Ne.symm hne

/-- No key is shown twice, when every text is canonical. -/
theorem CanonicalKeys.distinct (h : CanonicalKeys storage) (hitems : items.Perm storage.entries) :
    (items.filterMap row).Pairwise fun a b => a.1 ≠ b.1 := by
  rw [List.pairwise_filterMap]
  refine (distinct_texts hitems).imp_of_mem ?_
  intro e f he hf hne a ha b hb hsame
  have htext := h e (hitems.mem_iff.mp he) a.1 a.2 ha
  rw [hsame, ← h f (hitems.mem_iff.mp hf) b.1 b.2 hb] at htext
  exact hne htext

/-! ## Scans -/

theorem inRange_eq_true {start : Bytes} {stop : Option Bytes} :
    inRange start stop key = true ↔ start ≤ key ∧ ∀ s ∈ stop, key < s := by
  cases stop <;> simp [inRange]

/-- A range whose end is not behind its start admits no key. -/
theorem inRange_empty {start : Bytes} {stop : Option Bytes}
    (h : (stop.any fun stop => decide (stop ≤ start)) = true) : inRange start stop key = false := by
  cases stop with
  | none => cases h
  | some stop =>
    have hle : stop ≤ start := by simpa using h
    rw [Bool.eq_false_iff]
    intro hin
    obtain ⟨hlow, hhigh⟩ := inRange_eq_true.mp hin
    exact absurd (lt_of_lt_of_le (hhigh stop rfl) hle) (not_lt.mpr hlow)

theorem mem_rowsSorted : key ∈ rowsSorted items ↔ ∃ value, (key, value) ∈ items.filterMap row := by
  rw [rowsSorted, List.mem_insertionSort, List.mem_map]
  constructor
  · rintro ⟨⟨k, v⟩, hmem, rfl⟩
    exact ⟨v, hmem⟩
  · rintro ⟨value, hmem⟩
    exact ⟨_, hmem, rfl⟩

theorem mem_scanRange {start : Bytes} {stop : Option Bytes} : key ∈ scanRange items start stop ↔
    (∃ value, (key, value) ∈ items.filterMap row) ∧ inRange start stop key = true := by
  unfold scanRange
  split
  · rename_i hempty
    rw [inRange_empty hempty]
    simp
  · rw [List.mem_filter, mem_rowsSorted]

theorem mem_scanRangeIter {start : Bytes} {stop : Option Bytes} :
    (key, value) ∈ scanRangeIter items start stop ↔
      (key, value) ∈ items.filterMap row ∧ inRange start stop key = true := by
  unfold scanRangeIter
  split
  · rename_i hempty
    rw [inRange_empty hempty]
    simp
  · rw [List.mem_insertionSort, List.mem_filter]

/-- Distinct keys, sorted, increase. -/
theorem CanonicalKeys.rowsSorted_lt (h : CanonicalKeys storage)
    (hitems : items.Perm storage.entries) : (rowsSorted items).Pairwise (· < ·) := by
  have hle : (rowsSorted items).Pairwise (· ≤ ·) := List.pairwise_insertionSort _ _
  have hne : (rowsSorted items).Pairwise (· ≠ ·) := by
    have hkeys : ((items.filterMap row).map Prod.fst).Pairwise (· ≠ ·) :=
      List.pairwise_map.mpr (h.distinct hitems)
    exact (List.perm_insertionSort (· ≤ ·) _).symm.pairwise hkeys fun hne => Ne.symm hne
  exact (hle.and hne).imp fun hboth => lt_of_le_of_ne hboth.1 hboth.2

theorem CanonicalKeys.iter_lt (h : CanonicalKeys storage) (hitems : items.Perm storage.entries)
    (start : Bytes) (stop : Option Bytes) :
    (scanRangeIter items start stop).Pairwise fun a b => a.1 < b.1 := by
  unfold scanRangeIter
  split
  · exact List.Pairwise.nil
  · have hle : (((items.filterMap row).filter fun pair => inRange start stop pair.1).insertionSort
        fun a b => a.1 ≤ b.1).Pairwise fun a b => a.1 ≤ b.1 := List.pairwise_insertionSort _ _
    have hne := (List.perm_insertionSort (fun a b : Bytes × Bytes => a.1 ≤ b.1)
      ((items.filterMap row).filter fun pair => inRange start stop pair.1)).symm.pairwise
        ((h.distinct hitems).filter _) fun hne => Ne.symm hne
    exact (hle.and hne).imp fun hboth => lt_of_le_of_ne hboth.1 hboth.2

theorem stripPrefix_eq_some {pfx s : Bytes} : stripPrefix pfx key = some s ↔ key = pfx ++ s := by
  unfold stripPrefix
  split
  · rename_i hpre
    obtain ⟨t, rfl⟩ := List.isPrefixOf_iff_prefix.mp hpre
    rw [List.drop_left, Option.some.injEq, List.append_cancel_left_eq]
  · rename_i hpre
    simp only [reduceCtorEq, false_iff]
    rintro rfl
    exact hpre (List.isPrefixOf_iff_prefix.mpr (List.prefix_append _ _))

/-! ## Deletions -/

theorem get_del (storage : Storage) (key k : Bytes) :
    get (del storage key).2 k = if k = key then none else get storage k := by
  unfold get del
  rw [SortedMap.get_erase]
  by_cases h : k = key
  · rw [if_pos (congrArg b64Encode h), if_pos h]
    rfl
  · rw [if_neg fun htext => h (b64Encode_inj htext), if_neg h]

theorem get_delAll (storage : Storage) (keys : List Bytes) (k : Bytes) :
    get (delAll storage keys) k = if k ∈ keys then none else get storage k := by
  induction keys generalizing storage with
  | nil => rfl
  | cons key keys ih =>
    rw [show delAll storage (key :: keys) = delAll (del storage key).2 keys from rfl, ih, get_del]
    by_cases hk : k = key
    · simp [hk]
    · simp [hk]

/-! ## Canonical texts over a run -/

theorem canonical_insert (storage : Storage) (key : Bytes) (text : String) :
    CanonicalKeys (storage.insert (b64Encode key) text) ↔ CanonicalKeys storage := by
  rw [canonical_get, canonical_get]
  constructor
  · intro h t stored k v hget hrow
    by_cases ht : t = b64Encode key
    · -- the text is the key's own, so the key is the one it decodes to
      have hdecode := (row_eq_some.mp hrow).1
      rw [ht, b64Decode_b64Encode] at hdecode
      rw [ht, Option.some.inj hdecode]
    · exact h t stored k v (by rw [SortedMap.get_insert, if_neg ht]; exact hget) hrow
  · intro h t stored k v hget hrow
    rw [SortedMap.get_insert] at hget
    split at hget
    · rename_i ht
      have hdecode := (row_eq_some.mp hrow).1
      rw [ht, b64Decode_b64Encode] at hdecode
      rw [ht, Option.some.inj hdecode]
    · exact h t stored k v hget hrow

theorem canonical_erase (storage : Storage) (key : Bytes) :
    CanonicalKeys (storage.erase (b64Encode key)) ↔ CanonicalKeys storage := by
  rw [canonical_get, canonical_get]
  constructor
  · intro h t stored k v hget hrow
    by_cases ht : t = b64Encode key
    · have hdecode := (row_eq_some.mp hrow).1
      rw [ht, b64Decode_b64Encode] at hdecode
      rw [ht, Option.some.inj hdecode]
    · exact h t stored k v (by rw [SortedMap.get_erase, if_neg ht]; exact hget) hrow
  · intro h t stored k v hget hrow
    rw [SortedMap.get_erase] at hget
    split at hget
    · cases hget
    · exact h t stored k v hget hrow

theorem canonical_put (accepts : Storage → String → String → Bool) (storage : Storage)
    (key value : Bytes) : CanonicalKeys (put accepts storage key value).2 ↔ CanonicalKeys storage := by
  unfold put
  split
  · exact canonical_insert storage key _
  · exact Iff.rfl

theorem canonical_del (storage : Storage) (key : Bytes) :
    CanonicalKeys (del storage key).2 ↔ CanonicalKeys storage := canonical_erase storage key

theorem canonical_commit (accepts : Storage → String → String → Bool) (storage : Storage)
    (ops : List (Op Bytes Bytes)) :
    CanonicalKeys (replayOps (put accepts) del storage ops).2 ↔ CanonicalKeys storage := by
  induction ops generalizing storage with
  | nil => exact Iff.rfl
  | cons op ops ih =>
    obtain ⟨key, value⟩ := op
    cases value with
    | none =>
      show CanonicalKeys (replayOps (put accepts) del (del storage key).2 ops).2 ↔ _
      rw [ih, canonical_del]
    | some value =>
      have hput := canonical_put accepts storage key value
      rw [replayOps]
      cases h : put accepts storage key value with
      | mk verdict next =>
        rw [h] at hput
        cases verdict with
        | ok _ => rw [ih, hput]
        | error e => exact hput

theorem canonical_run (accepts : Storage → String → String → Bool) (storage : Storage)
    (ops : List LocalOp) : CanonicalKeys (run accepts storage ops) ↔ CanonicalKeys storage := by
  induction ops generalizing storage with
  | nil => exact Iff.rfl
  | cons op ops ih =>
    rw [show run accepts storage (op :: ops) = run accepts (step accepts storage op) ops from rfl, ih]
    cases op with
    | put key value => exact canonical_put accepts storage key value
    | get key => exact Iff.rfl
    | del key => exact canonical_del storage key
    | commitBatch batch => exact canonical_commit accepts storage batch.ops
    | scan start stop => exact Iff.rfl

/-! ## Scans against point reads -/

theorem canonical_delAll (storage : Storage) (keys : List Bytes) :
    CanonicalKeys (delAll storage keys) ↔ CanonicalKeys storage := by
  induction keys generalizing storage with
  | nil => exact Iff.rfl
  | cons key keys ih =>
    rw [show delAll storage (key :: keys) = delAll (del storage key).2 keys from rfl, ih,
      canonical_del]

theorem CanonicalKeys.refines (h : CanonicalKeys storage) : RefinesMap storage where
  range items hitems start stop := by
    constructor
    · unfold scanRange
      split
      · exact List.Pairwise.nil
      · exact (h.rowsSorted_lt hitems).filter _
    · intro k
      rw [mem_scanRange]
      simp only [h.mem_rows hitems]
  iter items hitems start stop := by
    refine ⟨h.iter_lt hitems start stop, ?_⟩
    intro k v
    rw [mem_scanRangeIter, h.mem_rows hitems]
  suffix items hitems pfx := by
    constructor
    · rw [scanSuffix, List.pairwise_filterMap]
      refine (h.rowsSorted_lt hitems).imp ?_
      intro a b hlt s hs t ht
      rw [stripPrefix_eq_some.mp hs, stripPrefix_eq_some.mp ht] at hlt
      exact (append_lt_append_iff _ _ _).mp hlt
    · intro s
      rw [scanSuffix, List.mem_filterMap]
      simp only [stripPrefix_eq_some, mem_rowsSorted, h.mem_rows hitems]
      constructor
      · rintro ⟨k, hk, rfl⟩
        exact hk
      · intro hs
        exact ⟨_, hs, rfl⟩
  emptied items hitems start stop left hleft := by
    have hcanonical := (canonical_delAll storage (scanRange items start stop)).mpr h
    refine List.eq_nil_iff_forall_not_mem.mpr ?_
    intro k hk
    obtain ⟨⟨v, hv⟩, hin⟩ := mem_scanRange.mp hk
    rw [hcanonical.mem_rows hleft, get_delAll] at hv
    split at hv
    · cases hv
    · rename_i hkept
      exact hkept (mem_scanRange.mpr ⟨⟨v, (h.mem_rows hitems).mpr hv⟩, hin⟩)

/-- A row under a foreign text is shown beside the one under the key's own. -/
theorem RefinesMap.canonical (h : RefinesMap storage) : CanonicalKeys storage := by
  intro entry hentry key value hrow
  have hperm : storage.entries.Perm storage.entries := List.Perm.refl _
  have hall : ∀ k, inRange [] none k = true := fun k => by simp [inRange, nil_le]
  -- the scan shows the row, so a point read finds the key under its own text
  have hread : get storage key = some value :=
    (((h.iter _ hperm [] none).2 key value).mp (mem_scanRangeIter.mpr
      ⟨List.mem_filterMap.mpr ⟨entry, hentry, hrow⟩, hall key⟩)).1
  obtain ⟨text, htext, hvalue⟩ := get_eq_some.mp hread
  by_contra hne
  have hsorted : (rowsSorted storage.entries).Pairwise (· < ·) := by
    have hrange := (h.range _ hperm [] none).1
    rwa [scanRange, show ((none : Option Bytes).any fun stop => decide (stop ≤ [])) = false from rfl,
      if_neg Bool.false_ne_true, List.filter_eq_self.mpr fun k _ => hall k] at hrange
  have hkeys : (storage.entries.filterMap row).Pairwise fun a b => a.1 ≠ b.1 := by
    have hdistinct : (rowsSorted storage.entries).Pairwise (· ≠ ·) := hsorted.imp ne_of_lt
    exact List.pairwise_map.mp ((List.perm_insertionSort (· ≤ ·) _).pairwise hdistinct
      fun hne => Ne.symm hne)
  rw [List.pairwise_filterMap] at hkeys
  have hsymm : Std.Symm fun a b : String × String =>
      ∀ x, row a = some x → ∀ y, row b = some y → x.1 ≠ y.1 :=
    ⟨fun a b hab x hx y hy => Ne.symm (hab y hy x hx)⟩
  have hdiffer : entry ≠ (b64Encode key, text) := fun heq => hne (by rw [heq])
  have hpair := hkeys.forall hentry htext hdiffer
  exact hpair _ hrow _ (row_eq_some.mpr ⟨b64Decode_b64Encode key, hvalue⟩) rfl

/-- **Local storage refines the ordered byte map**, after any operations on any content,
exactly when the content it started from keeps every row it shows under the text its
key encodes to. -/
theorem local_scans (accepts : Storage → String → String → Bool) (storage : Storage)
    (ops : List LocalOp) : RefinesMap (run accepts storage ops) ↔ CanonicalKeys storage := by
  rw [← canonical_run accepts storage ops]
  exact ⟨RefinesMap.canonical, CanonicalKeys.refines⟩

/-- A text with bits behind its one byte, as other code may have left it. -/
def foreignText : Storage := SortedMap.ofList [("AB==", "")]

/-- **A scan shows a key that no point read finds.** -/
theorem foreign_text_shown : scanRange foreignText.entries [] none = [[0]] ∧
    get foreignText [0] = none := by decide +kernel

end LocalStorage

end Okm.Engine
