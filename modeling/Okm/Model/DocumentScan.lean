import Okm.Lib.Union
import Okm.Model.PrefixScan
import Okm.Model.RowWrites

/-!
# Enumerating the documents of a table

The model of `scan_documents_raw`, `scan_keys` and `scan_document_keys` of
`model/document.rs`, and of the dynamic collection's `scan_document_keys`. A document is
a pair of slots: its row, its dynamic segment, or both. The row scan and the segment scan
are two prefix scans, and their union is a two-pointer merge.

The scans find what the two slots hold whatever wrote it. That what they find is keys of
the declaration takes a table whose slots hold nothing else (`KeysEncoded`); the typed
scans report anything else instead of decoding it.
-/

namespace Okm.Model

open Lib VirtualStorage KeyEncode

/-- `PrefixProbe`: leading bytes of a key, never more than a key has. -/
structure PrefixProbe (K : Type) [KeyEncode K] where
  bytes : Bytes
  fits : bytes.length ≤ keyLen K

namespace PrefixProbe

variable {K : Type} [KeyEncode K]

def taken (probe : PrefixProbe K) : Nat := probe.bytes.length

end PrefixProbe

/-- A key suffix and its row; a document that is a segment only has none. -/
abbrev RawDocument := Bytes × Option Bytes

variable {K R : Type} [KeyEncode K]

/-- The key of a primary entry, which must complete the declared key exactly. -/
def keyOfRow (probe : PrefixProbe K) (headLen : Nat) (full : Bytes) : Except Error K :=
  if full.length ≠ headLen + (keyLen K - probe.taken) then
    let taken := probe.taken
    let found := full.length
    let declared := headLen + (keyLen K - probe.taken)
    .error (.corrupt s!"a primary entry under a {taken}-byte key prefix is {found} byte(s) long, but the declaration makes it {declared}")
  else .ok (decode (full.drop (full.length - keyLen K)))

/-- The key a probe and the suffix behind it make. -/
def keyOfSuffix (probe : PrefixProbe K) (suffix : Bytes) : Except Error K :=
  if probe.taken + suffix.length ≠ keyLen K then
    let taken := probe.taken
    let found := probe.taken + suffix.length
    let declared := keyLen K
    .error (.corrupt s!"a document entry under a {taken}-byte key prefix is {found} byte(s) long, but the declaration makes it {declared}")
  else .ok (decode (probe.bytes ++ suffix))

/-- Two suffix scans and their merge: the suffixes of the rows and of the segments. -/
def scanPair {σ : Type} [VirtualStorage σ] (store : σ) (rows segs : Bytes) :
    Except Error (List Bytes) := do
  let rows ← VirtualStorage.scanSuffix store rows
  let segs ← VirtualStorage.scanSuffix store segs
  .ok ((unionKeys (rows.map fun suffix => (suffix, ())) segs).map Prod.fst)

namespace Document

variable (doc : Document K R)

section

variable {σ : Type} [VirtualStorage σ]

/-- `scan_documents_raw`. -/
def scanDocumentsRaw (store : σ) : Except Error (List RawDocument) := do
  let rows ← VocabCache.scanSuffixKv store (faceKey doc.header primarySlot [])
  let segs ← VirtualStorage.scanSuffix store (faceKey doc.header dynamicSlot [])
  .ok (unionKeys rows segs)

/-- One item of `scan_keys`: an engine failure rides it. -/
def rowItem (probe : PrefixProbe K) (item : ScanItem) : Except Error K :=
  item.bind fun entry => keyOfRow probe (faceKey doc.header primarySlot probe.bytes).length entry.1

/-- `scan_keys`, collected from the front. -/
def scanKeys (store : σ) (probe : PrefixProbe K) : List (Except Error K) :=
  let begin := faceKey doc.header primarySlot probe.bytes
  (scanRangeIter store begin (prefixEnd begin)).map (doc.rowItem probe)

/-- `scan_keys`, collected from the back. -/
def scanKeysRev (store : σ) (probe : PrefixProbe K) : List (Except Error K) :=
  let begin := faceKey doc.header primarySlot probe.bytes
  (scanRangeIter store begin (prefixEnd begin)).reverse.map (doc.rowItem probe)

/-- `scan_document_keys`. -/
def scanDocumentKeys (store : σ) (probe : PrefixProbe K) : Except Error (List K) := do
  let suffixes ← scanPair store (faceKey doc.header primarySlot probe.bytes)
    (faceKey doc.header dynamicSlot probe.bytes)
  suffixes.mapM (keyOfSuffix probe)

end

/-! ## What an enumeration answers -/

/-- The keys are those under the probe that are `present`, each once, ascending as encoded. -/
structure Enumerates (probe : PrefixProbe K) (present : K → Prop) (keys : List K) : Prop where
  ascending : (keys.map encode).Pairwise (· < ·)
  mem : ∀ key, key ∈ keys ↔ probe.bytes <+: encode key ∧ present key

/-- The key has a row. -/
def HasRow (m : Keyspace) (key : K) : Prop := m.get (doc.primaryKey key) ≠ none

/-- The key has a row or a segment. -/
def HasDocument (m : Keyspace) (key : K) : Prop :=
  doc.HasRow m key ∨ m.get (doc.fieldsKey key) ≠ none

/-- The raw documents are those of the keys present, each once, ascending, with its row. -/
structure EnumeratesRaw (m : Keyspace) (documents : List RawDocument) : Prop where
  ascending : (documents.map Prod.fst).Pairwise (· < ·)
  keys : ∀ suffix ∈ documents.map Prod.fst, ∃ key : K, suffix = encode key
  mem : ∀ (key : K) (row : Option Bytes), (encode key, row) ∈ documents ↔
    doc.HasDocument m key ∧ row = m.get (doc.primaryKey key)

/-- The two slots hold entries of keys only. -/
def KeysEncoded (f : Reads) : Prop :=
  ∀ s, s = primarySlot ∨ s = dynamicSlot → ∀ suffix,
    f (faceKey doc.header s suffix) ≠ none → ∃ key : K, suffix = encode key

end Document

/-! ## The scans of a keyspace -/

theorem suffixes_eq_under (store : Keyspace) (pfx : Bytes) :
    store.suffixes pfx = (store.under pfx).entries.map Prod.fst := by
  rw [Keyspace.under, List.map_map]
  rfl

theorem pairwise_suffixes (store : Keyspace) (pfx : Bytes) :
    (store.suffixes pfx).Pairwise (· < ·) := by
  rw [suffixes_eq_under, List.pairwise_map]
  exact (store.under pfx).sorted

/-- A pair scan answers the suffixes under either prefix. -/
theorem scanPair_keyspace (store : Keyspace) (rows segs : Bytes) :
    ∃ suffixes, scanPair store rows segs = .ok suffixes ∧ suffixes.Pairwise (· < ·) ∧
      ∀ suffix, suffix ∈ suffixes ↔
        store.get (rows ++ suffix) ≠ none ∨ store.get (segs ++ suffix) ≠ none := by
  have hfst : ((store.suffixes rows).map fun suffix => (suffix, ())).map Prod.fst
      = store.suffixes rows := by
    rw [List.map_map]
    exact List.map_id _
  refine ⟨_, rfl, pairwise_unionKeys ?_ (pairwise_suffixes store segs), fun suffix => ?_⟩
  · rw [hfst]
    exact pairwise_suffixes store rows
  · have hrows : suffix ∈ store.suffixes rows ↔ store.get (rows ++ suffix) ≠ none := by
      rw [Keyspace.mem_suffixes, Option.ne_none_iff_exists']
    have hsegs : suffix ∈ store.suffixes segs ↔ store.get (segs ++ suffix) ≠ none := by
      rw [Keyspace.mem_suffixes, Option.ne_none_iff_exists']
    rw [fst_mem_unionKeys, hfst, hrows, hsegs]

/-- A prefix whose last byte takes the increment is scanned up to its own keys. -/
theorem range_eq_under {p : Bytes} {c : UInt8} (hc : c ≠ 0xFF) (store : Keyspace) :
    (store.range (p ++ [c]) (prefixEnd (p ++ [c]))).map (stripEntry (p ++ [c]))
      = (store.under (p ++ [c])).entries := by
  refine congrArg (List.map _) (List.filter_congr fun e he => ?_)
  rw [Bool.eq_iff_iff, List.isPrefixOf_iff_prefix]
  have hrange : (e ∈ store.range (p ++ [c]) (prefixEnd (p ++ [c])) ↔ _) := List.mem_filter
  constructor
  · intro h
    have hin := hrange.mpr ⟨he, h⟩
    obtain ⟨-, hlo, hhi⟩ := (store.mem_range _ _ _).mp hin
    exact (mem_range_prefixEnd_iff.mp ⟨hin, length_le_of_lt_concat hc hlo hhi⟩).2
  · intro h
    exact (hrange.mp (mem_range_prefixEnd_iff.mpr ⟨he, h⟩).1).2

theorem scanSuffixKv_under {p : Bytes} {c : UInt8} (hc : c ≠ 0xFF) (store : Keyspace) :
    VocabCache.scanSuffixKv store (p ++ [c]) = .ok (store.under (p ++ [c])).entries := by
  rw [scanSuffixKv_keyspace, ← range_eq_under hc]
  refine congrArg Except.ok (List.map_congr_left fun e he => ?_)
  obtain ⟨-, hlo, hhi⟩ := (store.mem_range _ _ _).mp he
  rw [Nat.min_eq_left (length_le_of_lt_concat hc hlo hhi)]
  rfl

/-- The dynamic collection's `scan_document_keys`: the key bytes as they are stored. -/
def dynamicDocumentKeys {σ : Type} [VirtualStorage σ] (store : σ) (ns : Bytes) :
    Except Error (List Bytes) :=
  scanPair store (faceKey ns primarySlot []) (faceKey ns dynamicSlot [])

/-! ## The typed scans -/

namespace Document

variable {doc : Document K R} {probe : PrefixProbe K} {m : Keyspace}

/-- Under a probe there is one enumeration. -/
theorem Enumerates.unique {present present' : K → Prop} {keys keys' : List K}
    (h : Enumerates probe present keys) (h' : Enumerates probe present' keys')
    (hsame : ∀ key, present key ↔ present' key) : keys = keys' := by
  have hmap : keys.map encode = keys'.map encode := by
    refine List.Pairwise.eq_of_mem_iff h.ascending h'.ascending fun bytes => ?_
    have hmem : ∀ key, key ∈ keys ↔ key ∈ keys' := fun key => by rw [h.mem, h'.mem, hsame]
    simp only [List.mem_map, hmem]
  exact List.map_injective_iff.mpr (fun _ _ => encode_injective) hmap

/-- The sub-list of the keys that pass enumerates those. -/
theorem Enumerates.filter {present : K → Prop} {keys : List K} (h : Enumerates probe present keys)
    (keep : K → Bool) :
    Enumerates probe (fun key => present key ∧ keep key = true) (keys.filter keep) where
  ascending := h.ascending.sublist (List.filter_sublist.map encode)
  mem key := by rw [List.mem_filter, h.mem, and_assoc]

theorem keyOfSuffix_of_encode {suffix : Bytes} {key : K} (h : probe.bytes ++ suffix = encode key) :
    keyOfSuffix probe suffix = .ok key := by
  have hlen : probe.taken + suffix.length = keyLen K := by
    rw [PrefixProbe.taken, ← List.length_append, h, length_encode]
  rw [keyOfSuffix, if_neg (not_not.mpr hlen), h, decode_encode]

/-- Suffixes that complete keys are decoded to an enumeration. -/
theorem mapM_keyOfSuffix {suffixes : List Bytes} (hasc : suffixes.Pairwise (· < ·))
    (hkeys : ∀ suffix ∈ suffixes, ∃ key : K, probe.bytes ++ suffix = encode key)
    {present : K → Prop}
    (hmem : ∀ (key : K) suffix, probe.bytes ++ suffix = encode key →
      (suffix ∈ suffixes ↔ present key)) :
    ∃ keys, suffixes.mapM (keyOfSuffix probe) = .ok keys ∧ Enumerates probe present keys := by
  have hdecoded : ∀ {l : List Bytes}, (∀ suffix ∈ l, suffix ∈ suffixes) →
      ∃ keys : List K, l.mapM (keyOfSuffix probe) = .ok keys ∧
        keys.map encode = l.map (probe.bytes ++ ·) := by
    intro l hl
    induction l with
    | nil => exact ⟨[], rfl, rfl⟩
    | cons suffix rest ih =>
      obtain ⟨key, hkey⟩ := hkeys suffix (hl suffix List.mem_cons_self)
      obtain ⟨keys, hok, hbytes⟩ := ih fun s hs => hl s (List.mem_cons_of_mem _ hs)
      refine ⟨key :: keys, ?_, by rw [List.map_cons, List.map_cons, hkey, hbytes]⟩
      rw [List.mapM_cons, keyOfSuffix_of_encode hkey]
      exact bind_eq_ok.mpr ⟨_, rfl, bind_eq_ok.mpr ⟨_, hok, rfl⟩⟩
  obtain ⟨keys, hok, hbytes⟩ := hdecoded fun _ hs => hs
  refine ⟨keys, hok, ?_, fun key => ?_⟩
  · rw [hbytes, List.pairwise_map]
    exact hasc.imp fun h => (append_lt_append_iff _ _ _).mpr h
  · have hin : key ∈ keys ↔ encode key ∈ suffixes.map (probe.bytes ++ ·) := by
      rw [← hbytes]
      exact (List.mem_map_of_injective fun _ _ => encode_injective).symm
    rw [hin, List.mem_map]
    constructor
    · rintro ⟨suffix, hsuffix, heq⟩
      exact ⟨⟨suffix, heq⟩, (hmem key suffix heq).mp hsuffix⟩
    · rintro ⟨⟨suffix, heq⟩, hpresent⟩
      exact ⟨suffix, (hmem key suffix heq).mpr hpresent, heq⟩

theorem faceKey_append (header : Bytes) (s : Slot) (a b : Bytes) :
    faceKey header s a ++ b = faceKey header s (a ++ b) := by
  simp [faceKey]

/-- **The document keys under a probe.** -/
theorem scanDocumentKeys_exact (hkeys : doc.KeysEncoded m.get) (probe : PrefixProbe K) :
    ∃ keys, doc.scanDocumentKeys m probe = .ok keys ∧
      Enumerates probe (doc.HasDocument m) keys := by
  obtain ⟨suffixes, hscan, hasc, hmem⟩ := scanPair_keyspace m
    (faceKey doc.header primarySlot probe.bytes) (faceKey doc.header dynamicSlot probe.bytes)
  simp only [faceKey_append] at hmem
  have hcomplete : ∀ suffix ∈ suffixes, ∃ key : K, probe.bytes ++ suffix = encode key := by
    intro suffix hsuffix
    rcases (hmem suffix).mp hsuffix with h | h
    · exact hkeys primarySlot (Or.inl rfl) _ h
    · exact hkeys dynamicSlot (Or.inr rfl) _ h
  have hpresent : ∀ (key : K) suffix, probe.bytes ++ suffix = encode key →
      (suffix ∈ suffixes ↔ doc.HasDocument m key) := by
    intro key suffix heq
    rw [hmem, heq]
    rfl
  obtain ⟨keys, hok, henum⟩ := mapM_keyOfSuffix hasc hcomplete hpresent
  exact ⟨keys, bind_eq_ok.mpr ⟨_, hscan, hok⟩, henum⟩

/-- Between one probe of the rows and of the segments lie keys of these two slots. -/
theorem slot_of_between {header bytes k : Bytes} (hlo : faceKey header primarySlot bytes ≤ k)
    (hhi : k < faceKey header dynamicSlot bytes) :
    ∃ s suffix, (s = primarySlot ∨ s = dynamicSlot) ∧ k = faceKey header s suffix := by
  unfold faceKey at hlo hhi
  rw [List.append_assoc] at hlo hhi
  obtain ⟨t, rfl⟩ := prefix_of_between hlo hhi
  have hlo : 0x00 :: bytes ≤ t := (append_le_append_iff _ _ _).mp hlo
  have hhi : t < 0x01 :: bytes := (append_lt_append_iff _ _ _).mp hhi
  cases t with
  | nil => exact absurd hlo (not_le.mpr List.Lex.nil)
  | cons c t =>
    have hc : c < 0x01 ∨ c = 0x01 := by
      rcases (cons_lt_cons_iff _ _ _ _).mp hhi with h | ⟨h, -⟩
      · exact Or.inl h
      · exact Or.inr h
    rcases hc with hc | rfl
    · have hzero : c = 0x00 := by
        rw [UInt8.lt_iff_toNat_lt] at hc
        exact UInt8.toNat_inj.mp (Nat.lt_one_iff.mp hc)
      exact ⟨primarySlot, t, Or.inl rfl, by rw [hzero, faceKey, List.append_assoc]; rfl⟩
    · exact ⟨dynamicSlot, t, Or.inr rfl, by rw [faceKey, List.append_assoc]; rfl⟩

/-- Between a probe of the rows and its bound lie the rows under the probe. The bound may
carry into the segments, but no segment is short enough to lie below it. -/
theorem row_of_mem_range (hkeys : doc.KeysEncoded m.get) {e : Bytes × Bytes}
    (he : e ∈ m.range (faceKey doc.header primarySlot probe.bytes)
      (prefixEnd (faceKey doc.header primarySlot probe.bytes))) :
    ∃ key : K, e.1 = doc.primaryKey key ∧ probe.bytes <+: encode key := by
  obtain ⟨hget, hlo, hhi⟩ := (m.mem_range _ _ _).mp he
  have hsome : m.get e.1 ≠ none := by
    rw [hget]
    exact Option.some_ne_none _
  -- the bound is at most the same probe of the segments
  have hnext : e.1 < faceKey doc.header dynamicSlot probe.bytes := by
    obtain ⟨bound, hbound, hle⟩ := prefixEnd_le
      (p := faceKey doc.header primarySlot probe.bytes)
      (q := faceKey doc.header dynamicSlot probe.bytes) (by simp [faceKey]; rfl) (by
        unfold faceKey
        rw [List.append_assoc, List.append_assoc, append_lt_append_iff]
        exact (cons_lt_cons_iff _ _ _ _).mpr (Or.inl (by decide)))
    exact lt_of_lt_of_le (hhi bound hbound) hle
  have hlong : (faceKey doc.header primarySlot probe.bytes).length ≤ e.1.length := by
    obtain ⟨s, suffix, hs, hk⟩ := slot_of_between hlo hnext
    rw [hk] at hsome
    obtain ⟨key, rfl⟩ := hkeys s hs suffix hsome
    have hwidth := probe.fits
    have hbytes : s.bytes.length = primarySlot.bytes.length := by
      rcases hs with rfl | rfl <;> rfl
    rw [hk, faceKey, faceKey, List.length_append, List.length_append, List.length_append,
      List.length_append, length_encode, hbytes]
    omega
  obtain ⟨hmem, suffix, hsuffix⟩ := mem_range_prefixEnd_iff.mp ⟨he, hlong⟩
  rw [faceKey_append] at hsuffix
  rw [← hsuffix] at hsome
  obtain ⟨key, hkey⟩ := hkeys primarySlot (Or.inl rfl) _ hsome
  exact ⟨key, by rw [← hsuffix, hkey]; rfl, ⟨suffix, hkey⟩⟩

theorem primaryKey_injective {key key' : K} (h : doc.primaryKey key = doc.primaryKey key') :
    key = key' := encode_injective ((faceKey_inj _ _ _ _ _).mp h).2

theorem rowItem_primaryKey (key : K) (v : Bytes) :
    doc.rowItem probe (.ok (doc.primaryKey key, v)) = .ok key := by
  have hlen : (doc.primaryKey key).length = (faceKey doc.header primarySlot []).length + keyLen K := by
    rw [primaryKey, faceKey, faceKey, List.append_nil, List.length_append, length_encode]
  have hhead : (faceKey doc.header primarySlot probe.bytes).length
      = (faceKey doc.header primarySlot []).length + probe.taken := by
    rw [faceKey, faceKey, List.append_nil, List.length_append, PrefixProbe.taken]
  have hwidth : probe.taken ≤ keyLen K := probe.fits
  have hdrop : (doc.primaryKey key).drop (faceKey doc.header primarySlot []).length = encode key := by
    have happ : doc.primaryKey key = faceKey doc.header primarySlot [] ++ encode key :=
      (faceKey_append _ _ [] _).symm
    rw [happ, List.drop_left]
  change keyOfRow probe _ (doc.primaryKey key) = .ok key
  rw [keyOfRow, if_neg (by omega), show (doc.primaryKey key).length - keyLen K
    = (faceKey doc.header primarySlot []).length by omega, hdrop, decode_encode]

/-- The items of row entries are their keys. -/
theorem rowItems_eq {entries : List (Bytes × Bytes)}
    (h : ∀ e ∈ entries, ∃ key : K, e.1 = doc.primaryKey key) :
    ∃ keys : List K, (entries.map Except.ok).map (doc.rowItem probe) = keys.map .ok ∧
      keys.map doc.primaryKey = entries.map Prod.fst := by
  induction entries with
  | nil => exact ⟨[], rfl, rfl⟩
  | cons e rest ih =>
    obtain ⟨key, hkey⟩ := h e List.mem_cons_self
    obtain ⟨keys, hitems, hprimary⟩ := ih fun e' he' => h e' (List.mem_cons_of_mem _ he')
    have hitem : doc.rowItem probe (.ok e) = .ok key := by
      have hentry : e = (doc.primaryKey key, e.2) := by rw [← hkey]
      rw [hentry]
      exact rowItem_primaryKey key e.2
    exact ⟨key :: keys, by rw [List.map_cons, List.map_cons, hitem, hitems, List.map_cons],
      by rw [List.map_cons, List.map_cons, hkey, hprimary]⟩

/-- **The row keys under a probe**, from the front and from the back. -/
theorem scanKeys_exact (hkeys : doc.KeysEncoded m.get) (probe : PrefixProbe K) :
    ∃ keys, doc.scanKeys m probe = keys.map .ok ∧ doc.scanKeysRev m probe = keys.reverse.map .ok ∧
      Enumerates probe (doc.HasRow m) keys := by
  obtain ⟨keys, hitems, hprimary⟩ := rowItems_eq fun e he => by
    obtain ⟨key, hkey, -⟩ := row_of_mem_range hkeys he
    exact ⟨key, hkey⟩
  refine ⟨keys, hitems, ?_, ?_, fun key => ?_⟩
  · change (List.map Except.ok _).reverse.map (doc.rowItem probe) = _
    rw [List.map_reverse, hitems, List.map_reverse]
  · have hasc := m.range_sorted (faceKey doc.header primarySlot probe.bytes)
      (prefixEnd (faceKey doc.header primarySlot probe.bytes))
    rw [← List.pairwise_map (f := Prod.fst), ← hprimary, List.pairwise_map] at hasc
    rw [List.pairwise_map]
    exact hasc.imp fun h => (append_lt_append_iff _ _ _).mp h
  · have hin : key ∈ keys ↔ doc.primaryKey key ∈ keys.map doc.primaryKey :=
      (List.mem_map_of_injective fun a b hab => primaryKey_injective hab).symm
    rw [hin, hprimary, HasRow, Option.ne_none_iff_exists', List.mem_map]
    constructor
    · rintro ⟨e, he, hkey⟩
      obtain ⟨key', hkey', hprobe⟩ := row_of_mem_range hkeys he
      obtain rfl := primaryKey_injective (hkey.symm.trans hkey')
      exact ⟨hprobe, e.2, hkey ▸ ((m.mem_range _ _ _).mp he).1⟩
    · rintro ⟨hprobe, v, hv⟩
      have hcarries : faceKey doc.header primarySlot probe.bytes <+: doc.primaryKey key := by
        obtain ⟨t, ht⟩ := hprobe
        exact ⟨t, by rw [faceKey_append, ht, primaryKey]⟩
      exact ⟨(doc.primaryKey key, v), (mem_range_prefixEnd_iff.mpr
        ⟨(m.get_eq_some_iff _ _).mp hv, hcarries⟩).1, rfl⟩

/-- **The raw documents.** -/
theorem scanDocumentsRaw_exact (hkeys : doc.KeysEncoded m.get) :
    ∃ documents, doc.scanDocumentsRaw m = .ok documents ∧ doc.EnumeratesRaw m documents := by
  have hhead : ∀ s : Slot, faceKey doc.header s [] = doc.header ++ s.bytes := fun s => by
    rw [faceKey, List.append_nil]
  have hrows : VocabCache.scanSuffixKv m (faceKey doc.header primarySlot [])
      = .ok (m.under (faceKey doc.header primarySlot [])).entries := by
    rw [hhead]
    exact scanSuffixKv_under (by decide) m
  have hasc : ((m.under (faceKey doc.header primarySlot [])).entries.map Prod.fst).Pairwise
      (· < ·) := List.pairwise_map.mpr (m.under _).sorted
  have hsegs := pairwise_suffixes m (faceKey doc.header dynamicSlot [])
  -- the rows by their keys, the segments by theirs
  have hrow : ∀ suffix v, (suffix, v) ∈ (m.under (faceKey doc.header primarySlot [])).entries ↔
      m.get (faceKey doc.header primarySlot suffix) = some v := by
    intro suffix v
    rw [← (m.under _).get_eq_some_iff, Keyspace.get_under, faceKey_append, List.nil_append]
  have hseg : ∀ suffix, suffix ∈ m.suffixes (faceKey doc.header dynamicSlot []) ↔
      m.get (faceKey doc.header dynamicSlot suffix) ≠ none := by
    intro suffix
    rw [Keyspace.mem_suffixes, faceKey_append, List.nil_append, Option.ne_none_iff_exists']
  have hfst : ∀ suffix, suffix ∈ (m.under (faceKey doc.header primarySlot [])).entries.map Prod.fst ↔
      m.get (faceKey doc.header primarySlot suffix) ≠ none := by
    intro suffix
    rw [List.mem_map, Option.ne_none_iff_exists']
    constructor
    · rintro ⟨e, he, rfl⟩
      exact ⟨e.2, (hrow e.1 e.2).mp he⟩
    · rintro ⟨v, hv⟩
      exact ⟨(suffix, v), (hrow suffix v).mpr hv, rfl⟩
  refine ⟨_, bind_eq_ok.mpr ⟨_, hrows, rfl⟩, pairwise_unionKeys hasc hsegs, fun suffix h => ?_,
    fun key row => ?_⟩
  · rcases fst_mem_unionKeys.mp h with h | h
    · exact hkeys primarySlot (Or.inl rfl) suffix ((hfst suffix).mp h)
    · exact hkeys dynamicSlot (Or.inr rfl) suffix ((hseg suffix).mp h)
  · -- a key is listed once, with its row or without one
    have hpresent : encode key ∈ (unionKeys (m.under (faceKey doc.header primarySlot [])).entries
        (m.suffixes (faceKey doc.header dynamicSlot []))).map Prod.fst ↔ doc.HasDocument m key := by
      rw [fst_mem_unionKeys, hfst, hseg]
      rfl
    constructor
    · intro h
      refine ⟨hpresent.mp (List.mem_map_of_mem h), ?_⟩
      cases row with
      | some v => exact ((hrow _ v).mp (some_mem_unionKeys.mp h)).symm
      | none =>
        have hno := none_mem_unionKeys hasc hsegs h
        rw [hfst] at hno
        exact (not_not.mp hno).symm
    · rintro ⟨hdoc, rfl⟩
      cases hget : m.get (doc.primaryKey key) with
      | some v => exact some_mem_unionKeys.mpr ((hrow _ v).mpr hget)
      | none =>
        obtain ⟨⟨suffix, carried⟩, hmem, hsuffix⟩ := List.mem_map.mp (hpresent.mpr hdoc)
        obtain rfl : suffix = encode key := hsuffix
        cases carried with
        | none => exact hmem
        | some v =>
          have hv := (hrow _ v).mp (some_mem_unionKeys.mp hmem)
          rw [primaryKey, hv] at hget
          cases hget

end Document

end Okm.Model
