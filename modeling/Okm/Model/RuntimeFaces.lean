import Mathlib.Data.List.Sort
import Okm.Model.Fingerprint

/-!
# The faces of a runtime table

The model of `DynamicCollection::computed_faces` and `AccessMethod::face_spec`. A runtime
table hashes its access methods in slot order. A method has no name of its own: at a slot
the exported schema names it borrows name, function and deprecation from there, elsewhere
its kind is its name and its path and version are a text.

The borrowing lets a typed and a runtime table agree, and it hides what the method itself
says at that slot. `faces_told` has the exact extent of both: two tables are told apart by
slots, fields and includes, and by kind, path and version where the export is silent; a
mirror of the live faces agrees with the compiled number when no face is deprecated.
-/

namespace Okm.Model

open Lib

/-! ## Access methods -/

/-- One path component. -/
inductive Component where
  | field (name : String)
  | index (i : UInt32)
  | key (bytes : Bytes)
  deriving DecidableEq

/-- The value types `AccessMethod::path` accepts. -/
inductive PathType where
  | u8 | u16 | u32 | u64 | fixedBytes | str
  deriving DecidableEq

def PathType.debug : PathType → List Char
  | .u8 => "U8".toList
  | .u16 => "U16".toList
  | .u32 => "U32".toList
  | .u64 => "U64".toList
  | .fixedBytes => "FixedBytes".toList
  | .str => "Str".toList

/-- What an access method produces; the two callables are opaque to the fingerprint. -/
inductive AccessMethodKind (Doc : Type) where
  | plain
  | partialIf (admits : Doc → Except String Bool)
  | func (derive : Doc → Except String (List Bytes))
  | path (path : List Component) (valueTy : PathType)

structure AccessMethod (Doc : Type) where
  slot : UInt16
  fields : List String
  includes : List String
  kind : AccessMethodKind Doc
  version : UInt32

/-- `{byte:02x}`. -/
def hex (byte : UInt8) : List Char :=
  [Nat.digitChar (byte.toNat / 16), Nat.digitChar (byte.toNat % 16)]

def Component.text : Component → List Char
  | .field name => "f:".toList ++ name.toList
  | .index i => "i:".toList ++ Nat.toDigits 10 i.toNat
  | .key bytes => "k:".toList ++ bytes.flatMap hex

def pathText (path : List Component) : List Char := path.flatMap fun c => '/' :: c.text

def versionText (version : UInt32) : List Char :=
  if version ≠ 0 then " |v".toList ++ Nat.toDigits 10 version.toNat else []

namespace AccessMethod

variable {Doc : Type}

/-- The kind half of the face's text. -/
def faceSpecKind : AccessMethodKind Doc → String × List Char
  | .plain => ("plain", [])
  | .partialIf _ => ("partial", [])
  | .func _ => ("func", [])
  | .path path valueTy => ("path", pathText path ++ " -> ".toList ++ valueTy.debug)

/-- The face's canonical text. -/
def faceSpec (m : AccessMethod Doc) : String × String :=
  ((faceSpecKind m.kind).1, String.ofList ((faceSpecKind m.kind).2 ++ versionText m.version))

/-- The first export of a method's slot. -/
def exportOf (exported : List IndexSchema) (m : AccessMethod Doc) : Option IndexSchema :=
  exported.find? fun e => e.slot = m.slot

/-- The six facts of a method: the export's where it names the slot, its own otherwise. -/
def spec (exported : List IndexSchema) (m : AccessMethod Doc) : FaceSpec :=
  match exportOf exported m with
  | some e => ⟨e.name, m.slot, m.fields, m.includes, e.func, e.deprecated⟩
  | none => ⟨m.faceSpec.1, m.slot, m.fields, m.includes, m.faceSpec.2, false⟩

/-- `methods.sort_by_key(|m| m.slot)`. -/
def bySlot (methods : List (AccessMethod Doc)) : List (AccessMethod Doc) :=
  methods.insertionSort fun m n => m.slot ≤ n.slot

end AccessMethod

/-- A runtime table: the faces its schema exports and the methods it declares, whose slots
are unique and not zero. -/
structure DynamicTable (Doc : Type) where
  exported : List IndexSchema
  indexes : List (AccessMethod Doc)
  slotsNodup : (indexes.map AccessMethod.slot).Nodup
  slotsPos : ∀ m ∈ indexes, m.slot ≠ 0

namespace DynamicTable

variable {Doc : Type}

/-- The specs `computed_faces` hands over. -/
def specs (t : DynamicTable Doc) : List FaceSpec :=
  (AccessMethod.bySlot t.indexes).map (AccessMethod.spec t.exported)

def computedFaces (t : DynamicTable Doc) : Bytes := fingerprintSpecs t.specs

end DynamicTable

/-! ## What the text of a face tells -/

/-- The components of a path, each cut at the slashes in its text: only a field name can
hold one. -/
def cuts (path : List Component) : List (List Char) := path.flatMap fun c => c.text.splitOn '/'

theorem splitOn_pathText (path : List Component) :
    (pathText path).splitOn '/' = [] :: cuts path := by
  induction path with
  | nil => rfl
  | cons c path ih =>
    have hbody : ∀ (text : List Char), (text ++ pathText path).splitOn '/'
        = text.splitOn '/' ++ cuts path := by
      intro text
      cases path with
      | nil => simp [pathText, cuts]
      | cons d path =>
        have hrest : (text ++ pathText (d :: path)).splitOn '/'
            = text.splitOn '/' ++ (d.text ++ pathText path).splitOn '/' :=
          List.splitOn_append_cons_self text (d.text ++ pathText path)
        have htail : (pathText (d :: path)).splitOn '/'
            = [[]] ++ (d.text ++ pathText path).splitOn '/' :=
          List.splitOn_append_cons_self [] (d.text ++ pathText path)
        rw [ih] at htail
        have hcuts : cuts (d :: path) = (d.text ++ pathText path).splitOn '/' :=
          (List.cons.inj htail).2
        rw [hrest, hcuts]
    have hfirst : (pathText (c :: path)).splitOn '/' = [[]] ++ (c.text ++ pathText path).splitOn '/' :=
      List.splitOn_append_cons_self [] (c.text ++ pathText path)
    rw [hfirst, hbody]
    rfl

/-- **A path's text tells its components up to slashes in their names.** -/
theorem pathText_eq_iff {p q : List Component} : pathText p = pathText q ↔ cuts p = cuts q := by
  constructor
  · intro h
    have hsplit := splitOn_pathText p
    rw [h, splitOn_pathText q] at hsplit
    exact (List.cons.inj hsplit).2.symm
  · intro h
    have hsplit : (pathText p).splitOn '/' = (pathText q).splitOn '/' := by
      rw [splitOn_pathText, splitOn_pathText, h]
    have hjoin := congrArg (List.intercalate ['/']) hsplit
    rwa [List.intercalate_splitOn, List.intercalate_splitOn] at hjoin

/-- A word behind the last separator is told by the text. -/
theorem cut_last {α : Type} {c : α} {a b x y : List α} (hx : c ∉ x) (hy : c ∉ y)
    (h : a ++ c :: x = b ++ c :: y) : a = b ∧ x = y := by
  rcases List.append_eq_append_iff.mp h with ⟨l, rfl, hl⟩ | ⟨l, rfl, hl⟩
  · cases l with
    | nil =>
      rw [List.append_nil]
      exact ⟨rfl, (List.cons.inj hl).2⟩
    | cons d l =>
      rw [(List.cons.inj hl).2] at hx
      exact absurd (List.mem_append_right l List.mem_cons_self) hx
  · cases l with
    | nil =>
      rw [List.append_nil]
      exact ⟨rfl, (List.cons.inj hl).2.symm⟩
    | cons d l =>
      rw [(List.cons.inj hl).2] at hy
      exact absurd (List.mem_append_right l List.mem_cons_self) hy

theorem toDigits_injective {m n : Nat} (h : Nat.toDigits 10 m = Nat.toDigits 10 n) : m = n := by
  have hread : ∀ k, Nat.ofDigitChars 10 (Nat.toDigits 10 k) 0 = k := by
    intro k
    exact Nat.ofDigitChars_toDigits (by omega) (by omega)
  rw [← hread m, h, hread]

theorem space_notMem_version (n : Nat) : ' ' ∉ '|' :: 'v' :: Nat.toDigits 10 n := by
  have hdigits : ' ' ∉ Nat.toDigits 10 n := by
    intro h
    have hdigit := Nat.isDigit_of_mem_toDigits (by decide) (by decide) h
    exact absurd hdigit (by decide)
  simp [hdigits]

theorem debug_spec (ty : PathType) : ' ' ∉ ty.debug ∧ ty.debug.head? ≠ some '|' := by
  cases ty <;> decide

theorem debug_injective {t u : PathType} (h : t.debug = u.debug) : t = u := by
  cases t <;> cases u <;> first | rfl | exact absurd h (by decide)

/-- A text ends with a word without spaces, or with that word and a version. -/
theorem versionText_eq {a b x y : List Char} {v w : UInt32} (hx : ' ' ∉ x ∧ x.head? ≠ some '|')
    (hy : ' ' ∉ y ∧ y.head? ≠ some '|')
    (h : a ++ ' ' :: x ++ versionText v = b ++ ' ' :: y ++ versionText w) :
    a = b ∧ x = y ∧ v = w := by
  have hlast : ∀ (v : UInt32), v ≠ 0 →
      versionText v = ' ' :: '|' :: 'v' :: Nat.toDigits 10 v.toNat := by
    intro v hv
    rw [versionText, if_pos hv]
    rfl
  have hnone : versionText 0 = [] := rfl
  by_cases hv : v = 0 <;> by_cases hw : w = 0
  · subst hv hw
    rw [hnone, List.append_nil, List.append_nil] at h
    obtain ⟨hab, hxy⟩ := cut_last hx.1 hy.1 h
    exact ⟨hab, hxy, rfl⟩
  · subst hv
    rw [hnone, List.append_nil, hlast w hw] at h
    have hword := (cut_last hx.1 (space_notMem_version _) h).2
    exact absurd (by rw [hword]; rfl) hx.2
  · subst hw
    rw [hnone, List.append_nil, hlast v hv] at h
    have hword := (cut_last (space_notMem_version _) hy.1 h).2
    exact absurd (by rw [← hword]; rfl) hy.2
  · rw [hlast v hv, hlast w hw] at h
    obtain ⟨hfront, hversion⟩ :=
      cut_last (space_notMem_version _) (space_notMem_version _) h
    obtain ⟨hab, hxy⟩ := cut_last hx.1 hy.1 hfront
    have hdigits := (List.cons.inj (List.cons.inj hversion).2).2
    exact ⟨hab, hxy, UInt32.toNat_inj.mp (toDigits_injective hdigits)⟩

namespace AccessMethodKind

variable {Doc : Type}

/-- The same kind, and the same path and type for a path. A callable has no identity. -/
def Same : AccessMethodKind Doc → AccessMethodKind Doc → Prop
  | .plain, .plain => True
  | .partialIf _, .partialIf _ => True
  | .func _, .func _ => True
  | .path p t, .path q u => p = q ∧ t = u
  | _, _ => False

/-- The same kind, and for a path the same type and the same components up to slashes in
their names. -/
def Alike : AccessMethodKind Doc → AccessMethodKind Doc → Prop
  | .plain, .plain => True
  | .partialIf _, .partialIf _ => True
  | .func _, .func _ => True
  | .path p t, .path q u => cuts p = cuts q ∧ t = u
  | _, _ => False

end AccessMethodKind

namespace AccessMethod

variable {Doc : Type} {exported : List IndexSchema} {m n : AccessMethod Doc}

theorem versionText_injective {v w : UInt32} (h : versionText v = versionText w) : v = w := by
  have hword : ' ' ∉ ['f'] ∧ ['f'].head? ≠ some '|' := by decide
  have hpad : ([] : List Char) ++ ' ' :: ['f'] ++ versionText v
      = [] ++ ' ' :: ['f'] ++ versionText w := by rw [h]
  exact (versionText_eq hword hword hpad).2.2

theorem arrow_text (path : List Component) (ty : PathType) (v : UInt32) :
    pathText path ++ " -> ".toList ++ ty.debug ++ versionText v
      = (pathText path ++ " ->".toList) ++ ' ' :: ty.debug ++ versionText v := by
  have harrow : " -> ".toList = " ->".toList ++ [' '] := by decide
  rw [harrow]
  simp

theorem faceSpecKind_alike {kind kind' : AccessMethodKind Doc} (h : kind.Alike kind') :
    faceSpecKind kind = faceSpecKind kind' := by
  cases kind <;> cases kind' <;> simp only [AccessMethodKind.Alike] at h
  case path.path p t q u =>
    obtain ⟨hcuts, rfl⟩ := h
    rw [faceSpecKind, faceSpecKind, pathText_eq_iff.mpr hcuts]
  all_goals rfl

theorem alike_of_faceSpec {kind kind' : AccessMethodKind Doc} {v w : UInt32}
    (hname : (faceSpecKind kind).1 = (faceSpecKind kind').1)
    (htext : (faceSpecKind kind).2 ++ versionText v = (faceSpecKind kind').2 ++ versionText w) :
    kind.Alike kind' ∧ v = w := by
  cases kind <;> cases kind'
  case path.path p t q u =>
    rw [faceSpecKind, faceSpecKind, arrow_text, arrow_text] at htext
    obtain ⟨hpath, hty, hversion⟩ := versionText_eq (debug_spec t) (debug_spec u) htext
    exact ⟨⟨pathText_eq_iff.mp (List.append_cancel_right hpath), debug_injective hty⟩, hversion⟩
  case plain.plain => exact ⟨trivial, versionText_injective htext⟩
  case partialIf.partialIf => exact ⟨trivial, versionText_injective htext⟩
  case func.func => exact ⟨trivial, versionText_injective htext⟩
  all_goals exact absurd hname (by simp [faceSpecKind])

/-- **The text of a face tells its kind and version**, and a path up to slashes. -/
theorem faceSpec_eq_iff : m.faceSpec = n.faceSpec ↔ m.kind.Alike n.kind ∧ m.version = n.version := by
  constructor
  · intro h
    exact alike_of_faceSpec (Prod.mk.inj h).1 (String.ofList_injective (Prod.mk.inj h).2)
  · rintro ⟨hkind, hversion⟩
    rw [faceSpec, faceSpec, faceSpecKind_alike hkind, hversion]

/-- What a table declares with a method, callables aside. -/
def Same (m n : AccessMethod Doc) : Prop :=
  m.slot = n.slot ∧ m.fields = n.fields ∧ m.includes = n.includes ∧ m.kind.Same n.kind ∧
    m.version = n.version

/-- What of it the fingerprint sees: kind and version only where the export does not name
the slot. -/
def Seen (exported : List IndexSchema) (m n : AccessMethod Doc) : Prop :=
  m.slot = n.slot ∧ m.fields = n.fields ∧ m.includes = n.includes ∧
    (exportOf exported m = none → m.kind.Alike n.kind ∧ m.version = n.version)

theorem exportOf_congr (h : m.slot = n.slot) : exportOf exported m = exportOf exported n := by
  unfold exportOf
  rw [h]

theorem Seen.spec_eq (h : Seen exported m n) : spec exported m = spec exported n := by
  obtain ⟨hslot, hfields, hincludes, hface⟩ := h
  have hexport : exportOf exported m = exportOf exported n := exportOf_congr hslot
  unfold spec
  rw [← hexport, hslot, hfields, hincludes]
  cases hcase : exportOf exported m with
  | some e => rfl
  | none => rw [faceSpec_eq_iff.mpr (hface hcase)]

/-! ## What the bytes tell -/

/-- A list of names within the range of its count and lengths. -/
def NamesFit (names : List String) : Prop :=
  names.length < 256 ^ 2 ∧ ∀ s ∈ names, (strBytes s).length < 256 ^ 4

/-- A method whose counts and lengths are not truncated. -/
def Fits (exported : List IndexSchema) (m : AccessMethod Doc) : Prop :=
  NamesFit m.fields ∧ NamesFit m.includes ∧
    (exportOf exported m = none → (strBytes m.faceSpec.2).length < 256 ^ 4)

theorem delimits_strFed : Delimits strFed (fun s => (strBytes s).length < 256 ^ 4) (· = ·) := by
  have h := delimits_sized (P := fun _ => True) (R := (· = ·)) 4
    (fun (a b : String) _ _ heq => strBytes_injective heq)
  exact h.mono fun s hs => ⟨trivial, hs⟩

theorem delimits_namesFed : Delimits namesFed NamesFit (· = ·) := by
  intro a b s t ha hb heq
  have h := (delimits_strFed.counted 2) ha hb heq
  rwa [List.forall₂_eq_eq_eq] at h

theorem slot_lt (slot : UInt16) : slot.toNat < 256 ^ 2 := slot.toNat_lt

theorem length_kind_name (m : AccessMethod Doc) : (strBytes m.faceSpec.1).length < 256 ^ 4 := by
  have hnames : ∀ s ∈ ["plain", "partial", "func", "path"], (strBytes s).length < 256 ^ 4 := by
    decide +kernel
  refine hnames _ ?_
  unfold faceSpec faceSpecKind
  cases m.kind <;> simp

/-- **The bytes of a method tell all that is seen of it**, and where they end. -/
theorem delimits_declFed :
    Delimits (fun m : AccessMethod Doc => declFed (spec exported m)) (Fits exported)
      (Seen exported) := by
  intro m n s t hm hn h
  simp only [declFed, List.append_assoc, List.cons_append] at h
  have hslots : ∀ k : AccessMethod Doc, (spec exported k).slot = k.slot := by
    intro k
    unfold spec
    split <;> rfl
  obtain ⟨hslot, h⟩ := delimits_beBytes 2 (slot_lt _) (slot_lt _) h
  rw [hslots, hslots] at hslot
  have hslot := UInt16.toNat_inj.mp hslot
  have h := (List.cons.inj h).2
  have hexport : exportOf exported m = exportOf exported n := exportOf_congr hslot
  unfold spec at h
  rw [← hexport] at h
  cases hcase : exportOf exported m with
  | some e =>
    -- the borrowed strings are the same on both sides, whatever their length
    rw [hcase] at h
    obtain ⟨hfields, h⟩ := delimits_namesFed hm.1 hn.1 (List.append_cancel_left h)
    obtain ⟨hincludes, h⟩ := delimits_namesFed hm.2.1 hn.2.1 h
    refine ⟨⟨hslot, hfields, hincludes, ?_⟩, List.append_cancel_left h⟩
    intro hnone
    rw [hcase] at hnone
    cases hnone
  | none =>
    rw [hcase] at h
    have htext : (strBytes n.faceSpec.2).length < 256 ^ 4 := hn.2.2 (by rw [← hexport, hcase])
    obtain ⟨hname, h⟩ := delimits_strFed (length_kind_name m) (length_kind_name n) h
    obtain ⟨hfields, h⟩ := delimits_namesFed hm.1 hn.1 h
    obtain ⟨hincludes, h⟩ := delimits_namesFed hm.2.1 hn.2.1 h
    obtain ⟨hfunc, h⟩ := delimits_strFed (hm.2.2 hcase) htext h
    refine ⟨⟨hslot, hfields, hincludes, ?_⟩, h⟩
    intro _
    exact faceSpec_eq_iff.mp (Prod.ext hname hfunc)

theorem map_spec {ms ns : List (AccessMethod Doc)} (h : List.Forall₂ (Seen exported) ms ns) :
    ms.map (spec exported) = ns.map (spec exported) := by
  induction h with
  | nil => rfl
  | cons hmn _ ih => rw [List.map_cons, List.map_cons, hmn.spec_eq, ih]

theorem slots_sorted {methods : List (AccessMethod Doc)}
    (h : (methods.map AccessMethod.slot).Nodup) :
    (bySlot methods).Pairwise fun m n => m.slot < n.slot := by
  have htotal : Std.Total fun m n : AccessMethod Doc => m.slot ≤ n.slot :=
    ⟨fun m n => UInt16.le_total m.slot n.slot⟩
  have htrans : IsTrans (AccessMethod Doc) fun m n => m.slot ≤ n.slot :=
    ⟨fun _ _ _ => UInt16.le_trans⟩
  have hle : (bySlot methods).Pairwise fun m n => m.slot ≤ n.slot :=
    List.pairwise_insertionSort _ methods
  have hne : ((bySlot methods).map AccessMethod.slot).Nodup :=
    ((List.perm_insertionSort _ methods).map AccessMethod.slot).nodup_iff.mpr h
  refine hle.imp₂ ?_ (List.pairwise_map.mp hne)
  intro m n hmn hslot
  exact UInt16.lt_of_le_of_ne hmn hslot

end AccessMethod

namespace DynamicTable

variable {Doc : Type} {t u : DynamicTable Doc}

/-- The tables' methods differ in a slot, field, include, kind, path, type or version. -/
def Differ (t u : DynamicTable Doc) : Prop :=
  ¬ List.Forall₂ AccessMethod.Same (AccessMethod.bySlot t.indexes) (AccessMethod.bySlot u.indexes)

/-- They differ in something the fingerprint sees. -/
def ToldApart (t u : DynamicTable Doc) : Prop :=
  ¬ List.Forall₂ (AccessMethod.Seen t.exported) (AccessMethod.bySlot t.indexes)
    (AccessMethod.bySlot u.indexes)

/-- No count and no length of the table is truncated. -/
def Fits (t : DynamicTable Doc) : Prop := ∀ m ∈ t.indexes, AccessMethod.Fits t.exported m

theorem mem_bySlot {methods : List (AccessMethod Doc)} {m : AccessMethod Doc}
    (h : m ∈ AccessMethod.bySlot methods) : m ∈ methods := (List.mem_insertionSort _).mp h

/-- Slots are unique, not zero and 16 bits wide: the count is not truncated. -/
theorem length_lt (t : DynamicTable Doc) : t.specs.length < 256 ^ 2 := by
  have hlen : t.specs.length = (t.indexes.map fun m => m.slot.toNat - 1).length := by
    unfold specs AccessMethod.bySlot
    rw [List.length_map, List.length_insertionSort, List.length_map]
  have hpos : ∀ m ∈ t.indexes, 1 ≤ m.slot.toNat := by
    intro m hm
    have hne := t.slotsPos m hm
    rw [ne_eq, ← UInt16.toNat_inj] at hne
    exact Nat.one_le_iff_ne_zero.mpr hne
  have hnodup : (t.indexes.map fun m => m.slot.toNat - 1).Nodup := by
    refine List.Nodup.map_on ?_ (List.Nodup.of_map _ t.slotsNodup)
    intro m hm n hn heq
    have hm1 := hpos m hm
    have hn1 := hpos n hn
    have hslot : m.slot = n.slot := UInt16.toNat_inj.mp (by omega)
    exact List.inj_on_of_nodup_map t.slotsNodup hm hn hslot
  have hbelow : ∀ k ∈ t.indexes.map fun m => m.slot.toNat - 1, k < 256 ^ 2 - 1 := by
    intro k hk
    obtain ⟨m, hm, rfl⟩ := List.mem_map.mp hk
    have hlt := AccessMethod.slot_lt m.slot
    have hone := hpos m hm
    omega
  have hsub : (t.indexes.map fun m => m.slot.toNat - 1) ⊆ List.range (256 ^ 2 - 1) :=
    fun k hk => List.mem_range.mpr (hbelow k hk)
  have hcard := (List.subperm_of_subset hnodup hsub).length_le
  rw [List.length_range] at hcard
  omega

theorem fed_eq (h : List.Forall₂ (AccessMethod.Seen t.exported) (AccessMethod.bySlot t.indexes)
    (AccessMethod.bySlot u.indexes)) (hexport : t.exported = u.exported) :
    fed t.specs = fed u.specs := by
  rw [specs, specs, ← hexport, AccessMethod.map_spec h]

theorem seen_of_fed (hexport : t.exported = u.exported) (ht : t.Fits) (hu : u.Fits)
    (h : fed t.specs = fed u.specs) :
    List.Forall₂ (AccessMethod.Seen t.exported) (AccessMethod.bySlot t.indexes)
      (AccessMethod.bySlot u.indexes) := by
  have hcounts := List.append_cancel_left h
  have hlen := (delimits_beBytes 2 t.length_lt u.length_lt hcounts).1
  have hflat := (delimits_beBytes 2 t.length_lt u.length_lt hcounts).2
  unfold specs at hlen hflat
  rw [List.length_map, List.length_map] at hlen
  rw [List.flatMap_map, List.flatMap_map, ← hexport] at hflat
  have hflat := congrArg (fun bytes => bytes ++ ([] : Bytes)) hflat
  refine (AccessMethod.delimits_declFed.flatMap hlen ?_ ?_ hflat).1
  · intro m hm
    exact ht m (mem_bySlot hm)
  · intro m hm
    rw [hexport]
    exact hu m (mem_bySlot hm)

end DynamicTable

/-! ## The compiled declaration -/

/-- One parsed `#[ok_index]` or `#[ok_lead]` entry. -/
structure IdxDecl where
  name : String
  fields : List String
  includes : List String
  func : String
  deprecated : Bool

/-- What the derive parsed; each slot counter has 12 bits (`declared_slot`). -/
structure DocumentSchema where
  indexes : List IdxDecl
  leads : List IdxDecl
  fewIndexes : indexes.length ≤ 0x0FFF
  fewLeads : leads.length ≤ 0x0FFF

namespace DocumentSchema

def declaredSlotBase : Nat := 0x3001
def leadSlotBase : Nat := 0x5001

/-- The declaration of an index; a lead face covers and computes nothing. -/
def indexDecl (n : Nat) (d : IdxDecl) : IndexDecl :=
  ⟨d.name, UInt16.ofNat (declaredSlotBase + n), d.fields, d.includes, d.func, d.deprecated⟩

def leadDecl (n : Nat) (d : IdxDecl) : IndexDecl :=
  ⟨d.name, UInt16.ofNat (leadSlotBase + n), d.fields, [], "", d.deprecated⟩

/-- `INDEX_DECLS`, which is also what the schema export carries. -/
def indexDecls (schema : DocumentSchema) : List IndexDecl :=
  schema.indexes.mapIdx indexDecl ++ schema.leads.mapIdx leadDecl

/-- The faces that are maintained. -/
def live (schema : DocumentSchema) : List IndexDecl :=
  schema.indexDecls.filter fun d => !d.deprecated

theorem length_indexDecls (schema : DocumentSchema) : schema.indexDecls.length < 256 ^ 2 := by
  have h1 := schema.fewIndexes
  have h2 := schema.fewLeads
  rw [indexDecls, List.length_append, List.length_mapIdx, List.length_mapIdx]
  omega

/-- Slots are numbered in declaration order, leads above indexes. -/
theorem indexDecls_sorted (schema : DocumentSchema) :
    schema.indexDecls.Pairwise fun d e => d.slot < e.slot := by
  have h1 := schema.fewIndexes
  have h2 := schema.fewLeads
  have hnat : ∀ k, k < 65536 → (UInt16.ofNat k).toNat = k := by
    intro k hk
    rw [UInt16.toNat_ofNat', Nat.mod_eq_of_lt hk]
  refine List.pairwise_append.mpr ⟨?_, ?_, ?_⟩
  · rw [List.pairwise_iff_getElem]
    intro i j hi hj hij
    rw [List.length_mapIdx] at hi hj
    rw [List.getElem_mapIdx, List.getElem_mapIdx, UInt16.lt_iff_toNat_lt]
    simp only [indexDecl, declaredSlotBase]
    rw [hnat _ (by omega), hnat _ (by omega)]
    omega
  · rw [List.pairwise_iff_getElem]
    intro i j hi hj hij
    rw [List.length_mapIdx] at hi hj
    rw [List.getElem_mapIdx, List.getElem_mapIdx, UInt16.lt_iff_toNat_lt]
    simp only [leadDecl, leadSlotBase]
    rw [hnat _ (by omega), hnat _ (by omega)]
    omega
  · intro d hd e he
    obtain ⟨i, hi, rfl⟩ := List.mem_mapIdx.mp hd
    obtain ⟨j, hj, rfl⟩ := List.mem_mapIdx.mp he
    rw [UInt16.lt_iff_toNat_lt]
    simp only [indexDecl, leadDecl, declaredSlotBase, leadSlotBase]
    rw [hnat _ (by omega), hnat _ (by omega)]
    omega

end DocumentSchema

namespace DynamicTable

variable {Doc : Type} {t : DynamicTable Doc} {schema : DocumentSchema}

/-- The table is built from the export, one method for every live face, in any order. -/
structure Mirrors (t : DynamicTable Doc) (schema : DocumentSchema) : Prop where
  exported_eq : t.exported = schema.indexDecls
  methods : (t.indexes.map fun m => (m.slot, m.fields, m.includes)).Perm
    (schema.live.map fun d => (d.slot, d.fields, d.includes))

theorem length_specs (h : t.Mirrors schema) : t.specs.length = schema.live.length := by
  have hlen := h.methods.length_eq
  rw [List.length_map, List.length_map] at hlen
  rw [specs, AccessMethod.bySlot, List.length_map, List.length_insertionSort, hlen]

/-- In slot order the mirror lists the live faces in declaration order. -/
theorem mirror_order (h : t.Mirrors schema) :
    (AccessMethod.bySlot t.indexes).map (fun m => (m.slot, m.fields, m.includes))
      = schema.live.map fun d => (d.slot, d.fields, d.includes) := by
  have hperm := ((List.perm_insertionSort (fun m n : AccessMethod Doc => m.slot ≤ n.slot)
    t.indexes).map fun m => (m.slot, m.fields, m.includes)).trans h.methods
  have hlive : schema.live.Pairwise fun d e => d.slot < e.slot := schema.indexDecls_sorted.filter _
  have hmethods : ((AccessMethod.bySlot t.indexes).map fun m => (m.slot, m.fields, m.includes)).Pairwise
      fun a b => a.1 < b.1 := List.pairwise_map.mpr (AccessMethod.slots_sorted t.slotsNodup)
  have hfaces : (schema.live.map fun d => (d.slot, d.fields, d.includes)).Pairwise
      fun a b => a.1 < b.1 := List.pairwise_map.mpr hlive
  refine hperm.eq_of_pairwise ?_ hmethods hfaces
  intro a b _ _ hab hba
  exact absurd (UInt16.lt_trans hab hba) (UInt16.lt_irrefl _)

/-- A method over a live face has that face's six facts. -/
theorem spec_mirror {m : AccessMethod Doc} {d : IndexDecl} (hd : d ∈ schema.indexDecls)
    (heq : (m.slot, m.fields, m.includes) = (d.slot, d.fields, d.includes)) :
    AccessMethod.spec schema.indexDecls m = d := by
  obtain ⟨hslot, hrest⟩ := Prod.mk.inj heq
  obtain ⟨hfields, hincludes⟩ := Prod.mk.inj hrest
  have hnodup : (schema.indexDecls.map FaceSpec.slot).Nodup :=
    List.pairwise_map.mpr (schema.indexDecls_sorted.imp fun hlt heq => by
      rw [heq] at hlt
      exact UInt16.lt_irrefl _ hlt)
  have hfound : AccessMethod.exportOf schema.indexDecls m = some d := by
    unfold AccessMethod.exportOf
    cases hfind : schema.indexDecls.find? fun e => e.slot = m.slot with
    | none =>
      have hno := List.find?_eq_none.mp hfind d hd
      simp [hslot] at hno
    | some e =>
      have hslots : e.slot = m.slot := by simpa using List.find?_some hfind
      have heq := List.inj_on_of_nodup_map hnodup (List.mem_of_find?_eq_some hfind) hd
        (hslots.trans hslot)
      rw [heq]
  rw [AccessMethod.spec, hfound, hslot, hfields, hincludes]

theorem specs_mirror (h : t.Mirrors schema) : t.specs = schema.live := by
  have horder := mirror_order h
  have hlen := length_specs h
  refine List.ext_getElem hlen ?_
  intro i hi hi'
  have hget : i < (AccessMethod.bySlot t.indexes).length := by
    rw [specs, List.length_map] at hi
    exact hi
  have hmem : schema.live[i] ∈ schema.indexDecls :=
    (List.mem_filter.mp (List.getElem_mem hi')).1
  have heq : ((AccessMethod.bySlot t.indexes)[i].slot, (AccessMethod.bySlot t.indexes)[i].fields,
      (AccessMethod.bySlot t.indexes)[i].includes)
      = (schema.live[i].slot, schema.live[i].fields, schema.live[i].includes) := by
    have hat := List.getElem_of_eq horder (i := i) (by rw [List.length_map]; exact hget)
    rwa [List.getElem_map, List.getElem_map] at hat
  have hspec : t.specs[i] = AccessMethod.spec t.exported (AccessMethod.bySlot t.indexes)[i] :=
    List.getElem_map _
  rw [hspec, h.exported_eq, spec_mirror hmem heq]

theorem mirror_fed (h : t.Mirrors schema) :
    fed t.specs = fed schema.indexDecls ↔ ∀ d ∈ schema.indexDecls, d.deprecated = false := by
  have hspecs := specs_mirror h
  constructor
  · intro heq
    have hcounts := List.append_cancel_left heq
    have hlen := (delimits_beBytes 2 t.length_lt schema.length_indexDecls hcounts).1
    rw [hspecs, DocumentSchema.live, List.length_filter_eq_length_iff] at hlen
    intro d hd
    simpa using hlen d hd
  · intro hnone
    have hall : schema.live = schema.indexDecls :=
      List.filter_eq_self.mpr fun d hd => by rw [hnone d hd]; rfl
    rw [hspecs, hall]

end DynamicTable

/-! ## The two halves -/

/-- **What the runtime fingerprint tells apart, and when it agrees with the compiled one.**
Over one export, two tables that differ feed different bytes exactly when they differ in
something seen; a mirror of the live faces feeds the compiled bytes exactly when no face is
deprecated. -/
theorem faces_told {Doc : Type} :
    (∀ t u : DynamicTable Doc, t.exported = u.exported → t.Fits → u.Fits →
      ((t.Differ u → fed t.specs ≠ fed u.specs) ↔ (t.Differ u → t.ToldApart u))) ∧
    (∀ t u : DynamicTable Doc, t.exported = u.exported → ¬ t.ToldApart u →
      fed t.specs = fed u.specs) ∧
    (∀ (schema : DocumentSchema) (t : DynamicTable Doc), t.Mirrors schema →
      (fed t.specs = fed schema.indexDecls ↔ ∀ d ∈ schema.indexDecls, d.deprecated = false)) := by
  refine ⟨?_, ?_, fun schema t h => DynamicTable.mirror_fed h⟩
  · intro t u hexport ht hu
    have htold : t.ToldApart u ↔ fed t.specs ≠ fed u.specs := by
      constructor
      · intro htold heq
        exact htold (DynamicTable.seen_of_fed hexport ht hu heq)
      · intro hne hseen
        exact hne (DynamicTable.fed_eq hseen hexport)
    rw [htold]
  · intro t u hexport hsame
    exact DynamicTable.fed_eq (not_not.mp hsame) hexport

/-- One exported index over a name. -/
def nameSchema (deprecated : Bool) : DocumentSchema :=
  ⟨[⟨"by_name", ["name"], [], "", deprecated⟩], [], by simp, by simp⟩

/-- A table over the export, with one method at a slot of the caller's. -/
def nameTable (slot : UInt16) (h : slot ≠ 0) (field : String) (kind : AccessMethodKind Unit)
    (version : UInt32) : DynamicTable Unit :=
  ⟨(nameSchema false).indexDecls, [⟨slot, [field], [], kind, version⟩],
    by simp, by simpa using h⟩

/-- At a slot the export names a new predicate under a bumped version is not seen; and a
mirror leaves out the deprecated face the compiled number counts. -/
theorem bump_unseen :
    (∃ t u : DynamicTable Unit, t.exported = u.exported ∧ t.Differ u ∧ fed t.specs = fed u.specs) ∧
    ∃ (schema : DocumentSchema) (t : DynamicTable Unit), t.Mirrors schema ∧
      fed t.specs ≠ fed schema.indexDecls := by
  constructor
  · refine ⟨nameTable 0x3001 (by decide) "name" .plain 0,
      nameTable 0x3001 (by decide) "name" (.partialIf fun _ => .ok true) 1, rfl, ?_, rfl⟩
    intro hsame
    obtain ⟨-, -, -, hkind, -⟩ := (List.forall₂_cons.mp hsame).1
    exact hkind
  · refine ⟨nameSchema true, ⟨(nameSchema true).indexDecls, [], by simp, by simp⟩, ⟨rfl, ?_⟩, ?_⟩
    · exact List.Perm.refl _
    · intro heq
      have hlen := congrArg List.length heq
      revert hlen
      decide +kernel

/-- The halves at tables that differ in a field, and at a mirror. -/
theorem faces_told_here :
    fed (nameTable 0x3001 (by decide) "name" .plain 0).specs
      ≠ fed (nameTable 0x3001 (by decide) "email" .plain 0).specs ∧
    fed (nameTable 0x3001 (by decide) "name" .plain 0).specs
      = fed (nameSchema false).indexDecls := by
  have hfits : ∀ field, (strBytes field).length < 256 ^ 4 →
      (nameTable 0x3001 (by decide) field .plain 0).Fits := by
    intro field hfield m hm
    obtain rfl := List.mem_singleton.mp hm
    refine ⟨⟨by simp, by simpa using hfield⟩, ⟨by simp, by simp⟩, ?_⟩
    intro hnone
    cases hnone
  have hdiffer : ¬ List.Forall₂ AccessMethod.Same
      (AccessMethod.bySlot (nameTable 0x3001 (by decide) "name" .plain 0).indexes)
      (AccessMethod.bySlot (nameTable 0x3001 (by decide) "email" .plain 0).indexes) := by
    intro hsame
    have hfields := (List.forall₂_cons.mp hsame).1.2.1
    exact absurd hfields (by decide)
  have htold : (nameTable 0x3001 (by decide) "name" .plain 0).ToldApart
      (nameTable 0x3001 (by decide) "email" .plain 0) := by
    intro hseen
    have hfields := (List.forall₂_cons.mp hseen).1.2.1
    exact absurd hfields (by decide)
  have hmirror : (nameTable 0x3001 (by decide) "name" .plain 0).Mirrors (nameSchema false) :=
    ⟨rfl, List.Perm.refl _⟩
  have hhalf := faces_told.1 (nameTable 0x3001 (by decide) "name" .plain 0)
    (nameTable 0x3001 (by decide) "email" .plain 0) rfl (hfits "name" (by decide +kernel))
    (hfits "email" (by decide +kernel))
  exact ⟨hhalf.mpr (fun _ => htold) hdiffer, (faces_told.2.2 _ _ hmirror).mpr (by decide +kernel)⟩

end Okm.Model
