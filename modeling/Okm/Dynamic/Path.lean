import Okm.Engine.Storage
import Okm.Lib.Delimited
import Okm.Lib.Run

/-!
# Canonical path bytes

The model of `path.rs`: a path over the schema-free zone as a list of components, and its
canonical byte form, one tag byte per component and no count in front. A field is written
by its handle, which the vocabulary assigns; an index at four bytes; a literal key behind
its length.

The length of a key rides the compact lane, which ends at `u16::MAX`, and the encoder cuts
a longer key there. `path_bytes` says what the form promises, and that it keeps the promise
for exactly the paths without such a key.
-/

namespace Okm.Dynamic

open Lib

/-- One path component. -/
inductive Component where
  | field (name : String)
  | index (i : UInt32)
  | key (bytes : Bytes)
  deriving DecidableEq, Repr

def tagField : UInt8 := 0x01
def tagIndex : UInt8 := 0x02
def tagKey : UInt8 := 0x03

/-- A path from its components. -/
abbrev Path := List Component

def truncated : String := "path encoding truncated"

/-- The compact lane: one byte below `0xFF`, else an escape and two. -/
def putCompact (v : UInt16) : Bytes :=
  if v < 0xFF then [v.toUInt8] else 0xFF :: beBytes 2 v.toNat

/-- Consume a compact-lane value. -/
def takeCompact : Bytes → Except String (UInt16 × Bytes)
  | [] => .error truncated
  | first :: rest =>
    if first < 0xFF then .ok (first.toUInt16, rest)
    else if rest.length < 2 then .error truncated
    else .ok (UInt16.ofNat (beNat (rest.take 2)), rest.drop 2)

/-- The length a key is written with: its own, or the largest the lane holds. -/
def keyLen (k : Bytes) : UInt16 := if k.length < 2 ^ 16 then UInt16.ofNat k.length else 0xFFFF

section

variable (resolveName : String → UInt16) (nameOf : UInt16 → Option String)

def encodeComponent : Component → Bytes
  | .field name => tagField :: putCompact (resolveName name)
  | .index i => tagIndex :: beBytes 4 i.toNat
  | .key k => tagKey :: putCompact (keyLen k) ++ k.take (min k.length 0xFFFF)

/-- `Path::encode`. -/
def Path.encode (p : Path) : Bytes := p.flatMap (encodeComponent resolveName)

/-- One round of `Path::decode`: the component at the front, and what follows it. -/
def takeComponent : Bytes → Except String (Component × Bytes)
  | [] => .error truncated
  | tag :: rest =>
    if tag = tagField then do
      let (id, rest) ← takeCompact rest
      match nameOf id with
      | none => .error s!"unknown field handle {id}"
      | some name => .ok (.field name, rest)
    else if tag = tagIndex then
      if rest.length < 4 then .error truncated
      else .ok (.index (UInt32.ofNat (beNat (rest.take 4))), rest.drop 4)
    else if tag = tagKey then do
      let (len, rest) ← takeCompact rest
      if rest.length < len.toNat then .error truncated
      else .ok (.key (rest.take len.toNat), rest.drop len.toNat)
    else .error s!"unknown path component tag {tag}"

theorem length_takeCompact {bytes rest : Bytes} {v : UInt16}
    (h : takeCompact bytes = .ok (v, rest)) : rest.length < bytes.length := by
  cases bytes with
  | nil => cases h
  | cons first tail =>
    rw [takeCompact] at h
    split at h
    · obtain ⟨-, rfl⟩ := Prod.mk.inj (Except.ok.inj h)
      simp
    · split at h
      · cases h
      · obtain ⟨-, rfl⟩ := Prod.mk.inj (Except.ok.inj h)
        simp only [List.length_drop, List.length_cons]
        omega

/-- A component takes its tag at least. -/
theorem length_takeComponent {bytes rest : Bytes} {c : Component}
    (h : takeComponent nameOf bytes = .ok (c, rest)) : rest.length < bytes.length := by
  cases bytes with
  | nil => cases h
  | cons tag tail =>
    rw [takeComponent] at h
    rw [List.length_cons]
    split at h
    · obtain ⟨⟨id, tail'⟩, htake, h⟩ := bind_eq_ok.mp h
      have hlt := length_takeCompact htake
      dsimp only at h
      split at h
      · cases h
      · obtain ⟨-, rfl⟩ := Prod.mk.inj (Except.ok.inj h)
        omega
    split at h
    · split at h
      · cases h
      · obtain ⟨-, rfl⟩ := Prod.mk.inj (Except.ok.inj h)
        rw [List.length_drop]
        omega
    split at h
    · obtain ⟨⟨len, tail'⟩, htake, h⟩ := bind_eq_ok.mp h
      have hlt := length_takeCompact htake
      dsimp only at h
      split at h
      · cases h
      · obtain ⟨-, rfl⟩ := Prod.mk.inj (Except.ok.inj h)
        rw [List.length_drop]
        omega
    · cases h

/-- `Path::decode`: components until the bytes run out. -/
def Path.decode (bytes : Bytes) : Except String Path :=
  if bytes = [] then .ok []
  else
    match _h : takeComponent nameOf bytes with
    | .error e => .error e
    | .ok (c, rest) => (Path.decode rest).map (c :: ·)
termination_by bytes.length
decreasing_by exact length_takeComponent nameOf _h

end

/-! ## One component -/

/-- **The compact lane is read back**, whatever follows it. -/
theorem takeCompact_putCompact (v : UInt16) (rest : Bytes) :
    takeCompact (putCompact v ++ rest) = .ok (v, rest) := by
  have hv : v.toNat < 256 ^ 2 := v.toNat_lt
  unfold putCompact
  by_cases h : v < 0xFF
  · have hlt : v.toNat < 255 := UInt16.lt_iff_toNat_lt.mp h
    have hfirst : v.toUInt8 < 0xFF := by
      rw [UInt8.lt_iff_toNat_lt, UInt16.toNat_toUInt8]
      exact lt_of_le_of_lt (Nat.mod_le _ _) hlt
    have hback : v.toUInt8.toUInt16 = v := by
      apply UInt16.toNat_inj.mp
      rw [UInt8.toNat_toUInt16, UInt16.toNat_toUInt8]
      omega
    rw [if_pos h, List.singleton_append, takeCompact, if_pos hfirst, hback]
  · have hroom : ¬ (beBytes 2 v.toNat ++ rest).length < 2 := by
      rw [List.length_append, length_beBytes]
      omega
    rw [if_neg h, List.cons_append, takeCompact, if_neg (lt_irrefl _), if_neg hroom,
      List.take_left' (length_beBytes 2 _), List.drop_left' (length_beBytes 2 _),
      beNat_beBytes hv, UInt16.ofNat_toNat]

/-- A key the lane can hold the length of. -/
def Component.Short : Component → Prop
  | .key k => k.length < 2 ^ 16
  | _ => True

/-- The component as it comes back: a key is cut where the lane ends. -/
def Component.cut : Component → Component
  | .key k => .key (k.take 0xFFFF)
  | c => c

theorem Component.cut_of_short {c : Component} (h : c.Short) : c.cut = c := by
  cases c with
  | field name => rfl
  | index i => rfl
  | key k =>
    have hk : k.length < 2 ^ 16 := h
    rw [cut, List.take_of_length_le (by omega)]

theorem Component.short_cut (c : Component) : c.cut.Short := by
  cases c with
  | field name => trivial
  | index i => trivial
  | key k =>
    have hle : (k.take 0xFFFF).length ≤ 0xFFFF := List.length_take_le _ _
    exact lt_of_le_of_lt hle (by omega)

/-- The name of a field is one the assignment knows, and gives back. -/
def Component.Named (resolveName : String → UInt16) (nameOf : UInt16 → Option String) :
    Component → Prop
  | .field name => nameOf (resolveName name) = some name
  | _ => True

section

variable {resolveName : String → UInt16} {nameOf : UInt16 → Option String}

theorem keyLen_toNat (k : Bytes) : (keyLen k).toNat = (k.take 0xFFFF).length := by
  unfold keyLen
  rw [List.length_take]
  split
  · rename_i h
    rw [UInt16.toNat_ofNat_of_lt' h]
    omega
  · rename_i h
    change 0xFFFF = _
    omega

/-- **A component is read back**, a long key cut, whatever follows it. -/
theorem takeComponent_encode {c : Component} (h : c.Named resolveName nameOf) (rest : Bytes) :
    takeComponent nameOf (encodeComponent resolveName c ++ rest) = .ok (c.cut, rest) := by
  cases c with
  | field name =>
    have hname : nameOf (resolveName name) = some name := h
    rw [encodeComponent, List.cons_append, takeComponent, if_pos rfl]
    refine bind_eq_ok.mpr ⟨_, takeCompact_putCompact _ rest, ?_⟩
    dsimp only
    rw [hname]
    rfl
  | index i =>
    have hroom : ¬ (beBytes 4 i.toNat ++ rest).length < 4 := by simp
    have hi : i.toNat < 256 ^ 4 := i.toNat_lt
    rw [encodeComponent, List.cons_append, takeComponent, if_neg (by decide), if_pos rfl,
      if_neg hroom, List.take_left' (length_beBytes 4 _), List.drop_left' (length_beBytes 4 _),
      beNat_beBytes hi, UInt32.ofNat_toNat]
    rfl
  | key k =>
    have hcut : k.take (min k.length 0xFFFF) = k.take 0xFFFF := by
      rw [Nat.min_comm, ← List.take_eq_take_min]
    have hroom : ¬ (k.take 0xFFFF ++ rest).length < (keyLen k).toNat := by
      rw [keyLen_toNat, List.length_append]
      omega
    rw [encodeComponent, hcut, List.cons_append, List.cons_append, takeComponent,
      if_neg (by decide), if_neg (by decide), if_pos rfl, List.append_assoc]
    refine bind_eq_ok.mpr ⟨_, takeCompact_putCompact _ _, ?_⟩
    dsimp only
    rw [if_neg hroom, List.take_left' (keyLen_toNat k).symm, List.drop_left' (keyLen_toNat k).symm]
    rfl

theorem encodeComponent_ne_nil (c : Component) : encodeComponent resolveName c ≠ [] := by
  cases c <;> simp [encodeComponent]

/-! ## Paths -/

/-- **A path is read back**, its long keys cut. -/
theorem decode_encode {p : Path} (h : ∀ c ∈ p, c.Named resolveName nameOf) :
    Path.decode nameOf (p.encode resolveName) = .ok (p.map Component.cut) := by
  induction p with
  | nil => rw [Path.decode, if_pos (show Path.encode resolveName [] = [] from rfl)]; rfl
  | cons c p ih =>
    have hhead := takeComponent_encode (h c List.mem_cons_self) (Path.encode resolveName p)
    have hne : encodeComponent resolveName c ++ Path.encode resolveName p ≠ [] := by
      simp [encodeComponent_ne_nil]
    have htail := ih fun c' hc' => h c' (List.mem_cons_of_mem c hc')
    have hencode : Path.encode resolveName (c :: p)
        = encodeComponent resolveName c ++ Path.encode resolveName p := List.flatMap_cons
    rw [hencode, Path.decode, if_neg hne]
    split
    · rename_i herr
      rw [hhead] at herr
      cases herr
    · rename_i hok
      rw [hhead] at hok
      obtain ⟨rfl, rfl⟩ := Prod.mk.inj (Except.ok.inj hok)
      rw [htail]
      rfl

/-- Between short components of known names, the bytes tell the component and where it
ends. -/
theorem delimits_component : Delimits (encodeComponent resolveName)
    (fun c => c.Short ∧ c.Named resolveName nameOf) (· = ·) := by
  intro a b s t ha hb heq
  have hread := takeComponent_encode ha.2 s
  rw [heq, takeComponent_encode hb.2 t] at hread
  obtain ⟨hcut, hrest⟩ := Prod.mk.inj (Except.ok.inj hread)
  rw [Component.cut_of_short ha.1, Component.cut_of_short hb.1] at hcut
  exact ⟨hcut.symm, hrest.symm⟩

end

/-- What the canonical form promises of two paths: each is read back, and one is a byte
prefix of the other exactly where its components are a prefix of the other's. -/
structure Canonical (resolveName : String → UInt16) (nameOf : UInt16 → Option String)
    (p q : Path) : Prop where
  left : Path.decode nameOf (p.encode resolveName) = .ok p
  right : Path.decode nameOf (q.encode resolveName) = .ok q
  under : p.encode resolveName <+: q.encode resolveName ↔ p <+: q

/-- **Canonical path bytes.** Under an assignment of handles to the names of two paths and
its inverse, the form keeps its promise exactly when no literal key of them is longer than
the compact lane can say. -/
theorem path_bytes (resolveName : String → UInt16) (nameOf : UInt16 → Option String) (p q : Path)
    (hnames : ∀ c ∈ p ++ q, c.Named resolveName nameOf) :
    Canonical resolveName nameOf p q ↔ ∀ c ∈ p ++ q, c.Short := by
  have hp : ∀ c ∈ p, c.Named resolveName nameOf := fun c hc =>
    hnames c (List.mem_append_left q hc)
  have hq : ∀ c ∈ q, c.Named resolveName nameOf := fun c hc =>
    hnames c (List.mem_append_right p hc)
  -- a path that is its own cut has no long key
  have hshort : ∀ {r : Path}, r.map Component.cut = r → ∀ c ∈ r, c.Short := by
    intro r hr c hc
    rw [← hr] at hc
    obtain ⟨c', -, rfl⟩ := List.mem_map.mp hc
    exact c'.short_cut
  constructor
  · rintro ⟨hleft, hright, -⟩ c hc
    rw [decode_encode hp] at hleft
    rw [decode_encode hq] at hright
    rcases List.mem_append.mp hc with hc | hc
    · exact hshort (Except.ok.inj hleft) c hc
    · exact hshort (Except.ok.inj hright) c hc
  · intro h
    have hsp : ∀ c ∈ p, c.Short := fun c hc => h c (List.mem_append_left q hc)
    have hsq : ∀ c ∈ q, c.Short := fun c hc => h c (List.mem_append_right p hc)
    have hcut : ∀ {r : Path}, (∀ c ∈ r, c.Short) → r.map Component.cut = r := by
      intro r hr
      have hid : r.map Component.cut = r.map id :=
        List.map_congr_left fun c hc => Component.cut_of_short (hr c hc)
      rw [hid, List.map_id]
    refine ⟨by rw [decode_encode hp, hcut hsp], by rw [decode_encode hq, hcut hsq], ?_⟩
    have hdelimits := @delimits_component resolveName nameOf
    exact hdelimits.prefix_iff (fun c _ => encodeComponent_ne_nil c)
      (fun c hc => ⟨hsp c hc, hp c hc⟩) (fun c hc => ⟨hsq c hc, hq c hc⟩)

/-- A path and one below it. -/
theorem path_bytes_author : Canonical (fun _ => 300) (fun id => if id = 300 then some "author" else none)
    [.field "author"] [.field "author", .index 1, .key [104, 105]] := by
  refine (path_bytes _ _ _ _ ?_).mpr ?_
  · simp [Component.Named]
  · simp [Component.Short]

/-- **A long key is cut**: it does not come back. -/
theorem long_key_cut :
    ¬ Canonical (fun _ => 0) (fun _ => none) [.key (List.replicate (2 ^ 16) 0)] [] := by
  intro h
  have hnamed : ∀ c ∈ [Component.key (List.replicate (2 ^ 16) 0)],
      c.Named (fun _ => 0) (fun _ => none) := by
    intro c hc
    rw [List.mem_singleton.mp hc]
    trivial
  have hleft := h.left
  rw [decode_encode hnamed] at hleft
  have hkey := Component.key.inj (List.cons.inj (Except.ok.inj hleft)).1
  have hlen := congrArg List.length hkey
  rw [List.length_take, List.length_replicate] at hlen
  omega

end Okm.Dynamic
