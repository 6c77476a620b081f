import Okm.Series.DictInv

/-!
# Record bodies

The model of `okm-series/src/body.rs`: a body is a list of tagged values, each
written as its tag, a kind byte and a payload. A string the dictionary has settled
is written as its code. Floats are kept as their bits.

Encoding threads the dictionary through the items. What it wrote is read back under
every dictionary that knows the codes the writer's knew (`encodeWith_decodes`).
-/

namespace Okm.Series

open Lib Model

def kindBytes : UInt8 := 0
def kindStr : UInt8 := 1
def kindU64 : UInt8 := 2
def kindI64 : UInt8 := 3
def kindF64 : UInt8 := 4

inductive Value where
  | bytes (bytes : Bytes)
  | str (text : String)
  | u64 (value : UInt64)
  | i64 (value : Int64)
  | f64 (bits : UInt64)
  deriving DecidableEq

/-- A record body: tagged values in the order they were pushed. -/
structure Body where
  items : List (UInt16 × Value)
  deriving DecidableEq

namespace Body

def get (body : Body) (tag : UInt16) : Option Value :=
  (body.items.find? fun item => item.1 = tag).map Prod.snd

end Body

/-- What `settle` answers when there is a dictionary to ask. -/
def settleIn (v : Vendor) (dict : Option Dict) (text : String) :
    Except Error (Option (UInt8 × Nat) × Option Dict) :=
  match dict with
  | none => .ok (none, none)
  | some d => (d.settle v text).map fun (settled, d) => (settled, some d)

/-- A string once it is settled: its code, or its bytes. The slice of the id panics when
the block is wider than an id. -/
def writeSettled (dict : Option Dict) (tag : UInt16) (text : String) :
    Option (UInt8 × Nat) → Except Error Bytes
  | some (code, id) =>
    let width := (dict.bind fun d => d.width code).getD 4
    if 8 < width then .error .panic
    else .ok (putVarint tag.toNat ++ code :: (beBytes 8 id).drop (8 - width))
  | none => .ok (putVarint tag.toNat ++
      kindStr :: (putVarint (strBytes text).length ++ strBytes text))

/-- One item of `encode_with`. -/
def encodeItem (v : Vendor) (dict : Option Dict) (item : UInt16 × Value) :
    Except Error (Bytes × Option Dict) :=
  let tag := putVarint item.1.toNat
  match item.2 with
  | .bytes bytes => .ok (tag ++ kindBytes :: (putVarint bytes.length ++ bytes), dict)
  | .str text => do
    let (settled, dict) ← settleIn v dict text
    let chunk ← writeSettled dict item.1 text settled
    .ok (chunk, dict)
  | .u64 value => .ok (tag ++ kindU64 :: putVarint value.toNat, dict)
  | .i64 value => .ok (tag ++ kindI64 :: putSvarint value, dict)
  | .f64 bits => .ok (tag ++ kindF64 :: beBytes 8 bits.toNat, dict)

def encodeItems (v : Vendor) : Option Dict → List (UInt16 × Value) → Except Error (Bytes × Option Dict)
  | dict, [] => .ok ([], dict)
  | dict, item :: items => do
    let (chunk, dict) ← encodeItem v dict item
    let (rest, dict) ← encodeItems v dict items
    .ok (chunk ++ rest, dict)

/-- `encode_with`. -/
def Body.encodeWith (v : Vendor) (body : Body) (dict : Option Dict) :
    Except Error (Bytes × Option Dict) := encodeItems v dict body.items

/-- The value behind a kind byte. -/
def getValue (dict : Option Dict) (kind : UInt8) (bytes : Bytes) : Option (Value × Bytes) :=
  if kind = kindBytes then do
    let (len, rest) ← getVarint bytes
    let (bytes, rest) ← takeExact len rest
    some (.bytes bytes, rest)
  else if kind = kindStr then do
    let (text, rest) ← getText bytes
    some (.str text, rest)
  else if kind = kindU64 then do
    let (value, rest) ← getVarint bytes
    some (.u64 (UInt64.ofNat value), rest)
  else if kind = kindI64 then do
    let (value, rest) ← getSvarint bytes
    some (.i64 value, rest)
  else if dictBase ≤ kind then do
    let dict ← dict
    let width ← dict.width kind
    let (raw, rest) ← takeExact width bytes
    let text ← dict.lookup kind (beNat raw)
    some (.str text, rest)
  else if kind = kindF64 then do
    let (raw, rest) ← takeExact 8 bytes
    some (.f64 (UInt64.ofNat (beNat raw)), rest)
  else none

/-- One item of `decode_with`. -/
def getItem (dict : Option Dict) (bytes : Bytes) : Option ((UInt16 × Value) × Bytes) := do
  let (tag, rest) ← getVarint bytes
  if 2 ^ 16 ≤ tag then none
  else match rest with
    | [] => none
    | kind :: rest => do
      let (value, rest) ← getValue dict kind rest
      some ((UInt16.ofNat tag, value), rest)

/-- `decode_with`. -/
def Body.decodeWith (bytes : Bytes) (dict : Option Dict) : Option Body :=
  let (items, tail) := frames (getItem dict) bytes.length bytes
  if tail = [] then some ⟨items⟩ else none

/-! ## Dictionaries a reader may hold -/

def resolveIn (dict : Option Dict) (code : UInt8) (id : Nat) : Option (Nat × String) :=
  dict.bind fun d => d.resolve code id

/-- Every code of `dict` means the same in `dict'`. -/
def Knows (dict dict' : Option Dict) : Prop :=
  ∀ code id r, resolveIn dict code id = some r → resolveIn dict' code id = some r

theorem Knows.trans {a b c : Option Dict} (hab : Knows a b) (hbc : Knows b c) : Knows a c :=
  fun code id r h => hbc code id r (hab code id r h)

theorem knows_none (dict : Option Dict) : Knows none dict := fun _ _ _ h => by cases h

theorem knows_some {d d' : Dict} (h : d.Extends d') : Knows (some d) (some d') :=
  fun code id r hr => h code id r hr

theorem getValue_mono {dict dict' : Option Dict} (h : Knows dict dict') {kind : UInt8}
    {bytes : Bytes} {r : Value × Bytes} (hr : getValue dict kind bytes = some r) :
    getValue dict' kind bytes = some r := by
  unfold getValue at hr ⊢
  by_cases h0 : kind = kindBytes
  · rwa [if_pos h0] at hr ⊢
  by_cases h1 : kind = kindStr
  · rwa [if_neg h0, if_pos h1] at hr ⊢
  by_cases h2 : kind = kindU64
  · rwa [if_neg h0, if_neg h1, if_pos h2] at hr ⊢
  by_cases h3 : kind = kindI64
  · rwa [if_neg h0, if_neg h1, if_neg h2, if_pos h3] at hr ⊢
  rw [if_neg h0, if_neg h1, if_neg h2, if_neg h3] at hr ⊢
  by_cases hcode : dictBase ≤ kind
  · -- the one kind that looks at the dictionary
    rw [if_pos hcode] at hr ⊢
    simp only [Option.bind_eq_bind, Option.bind_eq_some_iff] at hr ⊢
    obtain ⟨d, rfl, w, hw, ⟨raw, rest⟩, htake, text, htext, heq⟩ := hr
    have hresolve := h kind (beNat raw) (w, text) (Dict.resolve_eq_some.mpr ⟨hw, htext⟩)
    obtain ⟨d', hd', hresolve⟩ := Option.bind_eq_some_iff.mp hresolve
    obtain ⟨hw', htext'⟩ := Dict.resolve_eq_some.mp hresolve
    exact ⟨d', hd', w, hw', (raw, rest), htake, text, htext', heq⟩
  · rwa [if_neg hcode] at hr ⊢

theorem getItem_mono {dict dict' : Option Dict} (h : Knows dict dict') (bytes : Bytes)
    (r : (UInt16 × Value) × Bytes) (hr : getItem dict bytes = some r) :
    getItem dict' bytes = some r := by
  unfold getItem at hr ⊢
  simp only [Option.bind_eq_bind, Option.bind_eq_some_iff] at hr ⊢
  obtain ⟨⟨tag, rest⟩, htag, hr⟩ := hr
  refine ⟨(tag, rest), htag, ?_⟩
  dsimp only at hr ⊢
  split at hr
  · cases hr
  · rename_i hsmall
    rw [if_neg hsmall]
    cases rest with
    | nil => cases hr
    | cons kind rest =>
      dsimp only at hr ⊢
      obtain ⟨⟨value, rest'⟩, hvalue, heq⟩ := Option.bind_eq_some_iff.mp hr
      exact Option.bind_eq_some_iff.mpr ⟨(value, rest'), getValue_mono h hvalue, heq⟩

/-- **What one dictionary decodes, every dictionary that knows its codes does.** -/
theorem decodeWith_mono {dict dict' : Option Dict} (h : Knows dict dict') {bytes : Bytes}
    {body : Body} (hbody : Body.decodeWith bytes dict = some body) :
    Body.decodeWith bytes dict' = some body := by
  unfold Body.decodeWith at hbody ⊢
  dsimp only at hbody ⊢
  split at hbody
  · rename_i htail
    obtain rfl := Option.some.inj hbody
    rw [frames_mono (getItem_mono h) rfl (Prod.ext rfl htail)]
    rfl
  · cases hbody

/-! ## What encoding keeps -/

def InvIn (v : Vendor) (dict : Option Dict) : Prop := ∀ d, dict = some d → d.Inv v

/-- What a step leaves of the dictionary a writer may have. -/
def GrowsIn (v : Vendor) : Option Dict → Option Dict → Prop
  | none, none => True
  | some d, some d' => d.Grows v d'
  | _, _ => False

theorem GrowsIn.refl (v : Vendor) (dict : Option Dict) : GrowsIn v dict dict := by
  cases dict with
  | none => trivial
  | some d => exact Dict.Grows.refl d

theorem GrowsIn.trans {v : Vendor} {a b c : Option Dict} (hab : GrowsIn v a b)
    (hbc : GrowsIn v b c) : GrowsIn v a c := by
  cases a with
  | none =>
    cases b with
    | none => exact hbc
    | some b => exact absurd hab id
  | some a =>
    cases b with
    | none => exact absurd hab id
    | some b =>
      cases c with
      | none => exact absurd hbc id
      | some c => exact Dict.Grows.trans hab hbc

theorem GrowsIn.knows {v : Vendor} {a b : Option Dict} (h : GrowsIn v a b) : Knows a b := by
  cases a with
  | none => exact knows_none b
  | some d =>
    cases b with
    | none => exact absurd h id
    | some d' => exact knows_some h.1

/-- The string of an item has room in the dictionary it is settled in. -/
def FitsItem (v : Vendor) (dict : Option Dict) (item : UInt16 × Value) : Prop :=
  ∀ text d, item.2 = .str text → dict = some d → d.Fits v text

/-- Every string of the items has room when its turn comes. -/
def FitsItems (v : Vendor) : Option Dict → List (UInt16 × Value) → Prop
  | _, [] => True
  | dict, item :: items =>
    FitsItem v dict item ∧
      ∀ chunk dict', encodeItem v dict item = .ok (chunk, dict') → FitsItems v dict' items

instance FitsItem.decidable (v : Vendor) (dict : Option Dict) (item : UInt16 × Value) :
    Decidable (FitsItem v dict item) :=
  match item, dict with
  | (_, .str text), some d =>
    decidable_of_iff (d.Fits v text)
      ⟨fun h _ _ htext hdict => Value.str.inj htext ▸ Option.some.inj hdict ▸ h,
        fun h => h text d rfl rfl⟩
  | (_, .str _), none => .isTrue (fun _ _ _ hdict => by cases hdict)
  | (_, .u64 _), _ => .isTrue (fun _ _ htext => by cases htext)
  | (_, .i64 _), _ => .isTrue (fun _ _ htext => by cases htext)
  | (_, .f64 _), _ => .isTrue (fun _ _ htext => by cases htext)
  | (_, .bytes _), _ => .isTrue (fun _ _ htext => by cases htext)

instance FitsItems.decidable (v : Vendor) :
    (dict : Option Dict) → (items : List (UInt16 × Value)) → Decidable (FitsItems v dict items)
  | _, [] => .isTrue trivial
  | dict, item :: items =>
    haveI := FitsItems.decidable v
    decidable_of_iff (FitsItem v dict item ∧ ∀ settled : Bytes × Option Dict,
        encodeItem v dict item = .ok settled → FitsItems v settled.2 items)
      ⟨fun h => ⟨h.1, fun chunk dict' hitem => h.2 (chunk, dict') hitem⟩,
        fun h => ⟨h.1, fun settled hitem => h.2 settled.1 settled.2 hitem⟩⟩

/-- Every occurrence can be counted. -/
def CountsItems (v : Vendor) : Option Dict → List (UInt16 × Value) → Prop
  | _, [] => True
  | dict, item :: items =>
    (∀ text d, item.2 = .str text → dict = some d → d.Countable v text) ∧
      ∀ chunk dict', encodeItem v dict item = .ok (chunk, dict') → CountsItems v dict' items

/-- A tag and a kind byte in front of a value. -/
theorem getItem_reads {dict : Option Dict} {tag : UInt16} {kind : UInt8} {payload : Bytes}
    {value : Value} (h : Reads (getValue dict kind) payload value) :
    Reads (getItem dict) (putVarint tag.toNat ++ kind :: payload) (tag, value) := by
  intro rest
  have htag : tag.toNat < 2 ^ 16 := tag.toNat_lt
  have hread := getVarint_putVarint (Nat.lt_trans htag (by omega)) (kind :: payload ++ rest)
  rw [getItem, List.append_assoc, hread]
  simp only [Option.bind_eq_bind, Option.bind_some, if_neg (Nat.not_le.mpr htag), List.cons_append,
    h rest, UInt16.ofNat_toNat]

theorem getValue_code {d : Dict} {code : UInt8} {id w : Nat} {text : String}
    (hresolve : d.resolve code id = some (w, text)) (hid : id < 256 ^ w) :
    Reads (getValue (some d) code) (beBytes w id) (.str text) := by
  intro rest
  obtain ⟨hw, htext⟩ := Dict.resolve_eq_some.mp hresolve
  have hcode : dictBase ≤ code := by
    by_contra hlt
    rw [Dict.width, Dict.blockOf, if_pos (UInt8.not_le.mp hlt)] at hw
    cases hw
  have hne : ∀ kind : UInt8, kind < dictBase → code ≠ kind := by
    rintro kind hkind rfl
    exact absurd hcode (UInt8.not_le.mpr hkind)
  rw [getValue, if_neg (hne kindBytes (by decide)), if_neg (hne kindStr (by decide)),
    if_neg (hne kindU64 (by decide)), if_neg (hne kindI64 (by decide)), if_pos hcode]
  simp only [Option.bind_eq_bind, Option.bind_some, hw, takeExact_append (length_beBytes w id),
    beNat_beBytes hid, htext]

/-- What a code says of a string in a writer's dictionary: it means the string, at a width
that can be written, and its id fits there. -/
def Codes (dict : Option Dict) (text : String) (settled : Option (UInt8 × Nat)) : Prop :=
  ∀ code id, settled = some (code, id) →
    ∃ d w, dict = some d ∧ d.resolve code id = some (w, text) ∧ Written w ∧ id < 256 ^ w

/-- The dictionary after settling a string, and what a code it answered means there. -/
theorem settleIn_codes {v : Vendor} (lawful : v.Lawful) {dict dict' : Option Dict} {text : String}
    {settled : Option (UInt8 × Nat)} (hinv : InvIn v dict)
    (fits : ∀ d, dict = some d → d.Fits v text) (hok : settleIn v dict text = .ok (settled, dict')) :
    InvIn v dict' ∧ GrowsIn v dict dict' ∧ Codes dict' text settled := by
  cases dict with
  | none =>
    obtain ⟨rfl, rfl⟩ := Prod.mk.inj (Except.ok.inj hok)
    exact ⟨hinv, GrowsIn.refl v none, fun _ _ h => by cases h⟩
  | some d =>
    cases hd : d.settle v text with
    | error e =>
      rw [settleIn, hd] at hok
      cases hok
    | ok answer =>
      obtain ⟨coded, d'⟩ := answer
      rw [settleIn, hd] at hok
      obtain ⟨rfl, rfl⟩ := Prod.mk.inj (Except.ok.inj hok)
      obtain ⟨hd', hgrows, hmeans⟩ := (hinv d rfl).settle lawful (fits d rfl) hd
      refine ⟨fun e he => by rw [← Option.some.inj he]; exact hd', hgrows, ?_⟩
      intro code id heq
      obtain ⟨w, hresolve, hw, hid⟩ := hmeans code id heq
      exact ⟨d', w, rfl, hresolve, hw, hid⟩

/-- A code is written at the width of its block, and an id fits there. -/
theorem codeWidth {d : Dict} {code : UInt8} {id w : Nat} {text : String}
    (hresolve : d.resolve code id = some (w, text)) (hw : Written w) :
    (((some d).bind fun d => d.width code).getD 4 = w) ∧ w ≤ 8 := by
  refine ⟨?_, ?_⟩
  · rw [Option.bind_some, (Dict.resolve_eq_some.mp hresolve).1]
    rfl
  · rcases hw with rfl | rfl | rfl <;> omega

/-- **A settled string is read back**, as a code or as itself. -/
theorem writeSettled_reads {dict : Option Dict} {tag : UInt16} {text : String}
    {settled : Option (UInt8 × Nat)} {chunk : Bytes} (codes : Codes dict text settled)
    (hok : writeSettled dict tag text settled = .ok chunk) (hlen : chunk.length < 2 ^ 64)
    {reader : Option Dict} (hreader : Knows dict reader) :
    Reads (getItem reader) chunk (tag, .str text) := by
  cases settled with
  | none =>
    obtain rfl := Except.ok.inj hok
    refine getItem_reads ?_
    intro rest
    have htext : (strBytes text).length < 2 ^ 64 := by
      simp only [List.length_append, List.length_cons] at hlen
      omega
    have hread := getText_putText htext rest
    rw [putText] at hread
    rw [getValue, if_neg (by decide), if_pos rfl, hread]
    rfl
  | some coded =>
    obtain ⟨code, id⟩ := coded
    obtain ⟨d, w, rfl, hresolve, hw, hid⟩ := codes code id rfl
    obtain ⟨hwidth, hle⟩ := codeWidth hresolve hw
    have hdrop : (beBytes 8 id).drop (8 - w) = beBytes w id := by
      have hadd := beBytes_add (8 - w) w id
      rw [Nat.sub_add_cancel hle] at hadd
      rw [hadd]
      exact List.drop_left' (length_beBytes _ _)
    simp only [writeSettled, hwidth, if_neg (Nat.not_lt.mpr hle), hdrop] at hok
    obtain rfl := Except.ok.inj hok
    -- the reader's own dictionary resolves the code as the writer's did
    have hsome := hreader code id (w, text) hresolve
    obtain ⟨r, rfl, hr⟩ := Option.bind_eq_some_iff.mp hsome
    exact getItem_reads (getValue_code hr hid)

/-- Writing a settled string answers. -/
theorem writeSettled_ok {dict : Option Dict} {tag : UInt16} {text : String}
    {settled : Option (UInt8 × Nat)} (codes : Codes dict text settled) :
    ∃ chunk, writeSettled dict tag text settled = .ok chunk := by
  cases settled with
  | none => exact ⟨_, rfl⟩
  | some coded =>
    obtain ⟨code, id⟩ := coded
    obtain ⟨d, w, rfl, hresolve, hw, -⟩ := codes code id rfl
    obtain ⟨hwidth, hle⟩ := codeWidth hresolve hw
    have hnarrow : ¬ 8 < ((some d).bind fun d => d.width code).getD 4 := by
      rw [hwidth]
      exact Nat.not_lt.mpr hle
    exact ⟨_, if_neg hnarrow⟩

/-- **One item**: what is written is read back under every dictionary that knows the
codes known by then. -/
theorem encodeItem_reads {v : Vendor} (lawful : v.Lawful) {dict dict' : Option Dict}
    {item : UInt16 × Value} {chunk : Bytes} (hinv : InvIn v dict) (fits : FitsItem v dict item)
    (hok : encodeItem v dict item = .ok (chunk, dict')) (hlen : chunk.length < 2 ^ 64) :
    InvIn v dict' ∧ GrowsIn v dict dict' ∧
      ∀ reader, Knows dict' reader → Reads (getItem reader) chunk item := by
  obtain ⟨tag, value⟩ := item
  cases value with
  | bytes bytes =>
    obtain ⟨rfl, rfl⟩ := Prod.mk.inj (Except.ok.inj hok)
    refine ⟨hinv, GrowsIn.refl v dict, fun reader _ => getItem_reads ?_⟩
    intro rest
    have hbytes : bytes.length < 2 ^ 64 := by
      simp only [List.length_append, List.length_cons] at hlen
      omega
    rw [getValue, if_pos rfl, List.append_assoc]
    simp only [getVarint_putVarint hbytes _, Option.bind_eq_bind, Option.bind_some,
      takeExact_append rfl]
  | str text =>
    -- a string goes through the dictionary, which may take it in
    obtain ⟨⟨settled, d₁⟩, hsettle, hok⟩ := bind_eq_ok.mp hok
    obtain ⟨written, hwritten, hok⟩ := bind_eq_ok.mp hok
    obtain ⟨rfl, rfl⟩ := Prod.mk.inj (Except.ok.inj hok)
    obtain ⟨hinv', hgrows, codes⟩ := settleIn_codes lawful hinv (fits text · rfl) hsettle
    exact ⟨hinv', hgrows, fun reader hreader => writeSettled_reads codes hwritten hlen hreader⟩
  | u64 value =>
    obtain ⟨rfl, rfl⟩ := Prod.mk.inj (Except.ok.inj hok)
    refine ⟨hinv, GrowsIn.refl v dict, fun reader _ => getItem_reads ?_⟩
    intro rest
    rw [getValue, if_neg (by decide), if_neg (by decide), if_pos rfl,
      getVarint_putVarint value.toNat_lt rest]
    simp
  | i64 value =>
    obtain ⟨rfl, rfl⟩ := Prod.mk.inj (Except.ok.inj hok)
    refine ⟨hinv, GrowsIn.refl v dict, fun reader _ => getItem_reads ?_⟩
    intro rest
    rw [getValue, if_neg (by decide), if_neg (by decide), if_neg (by decide), if_pos rfl,
      getSvarint_putSvarint value rest]
    rfl
  | f64 bits =>
    obtain ⟨rfl, rfl⟩ := Prod.mk.inj (Except.ok.inj hok)
    refine ⟨hinv, GrowsIn.refl v dict, fun reader _ => getItem_reads ?_⟩
    intro rest
    have hbits : bits.toNat < 256 ^ 8 := bits.toNat_lt
    rw [getValue, if_neg (by decide), if_neg (by decide), if_neg (by decide), if_neg (by decide),
      if_neg (by decide), if_pos rfl, takeExact_append (length_beBytes 8 _)]
    simp [beNat_beBytes hbits]

theorem encodeItems_reads {v : Vendor} (lawful : v.Lawful) {dict dict' : Option Dict}
    {items : List (UInt16 × Value)} {bytes : Bytes} (hinv : InvIn v dict)
    (fits : FitsItems v dict items) (hok : encodeItems v dict items = .ok (bytes, dict'))
    (hlen : bytes.length < 2 ^ 64) :
    InvIn v dict' ∧ GrowsIn v dict dict' ∧ ∃ chunks : List (Bytes × (UInt16 × Value)),
      bytes = chunks.flatMap Prod.fst ∧ items = chunks.map Prod.snd ∧
        ∀ reader, Knows dict' reader → ∀ c ∈ chunks, Reads (getItem reader) c.1 c.2 := by
  induction items generalizing dict bytes with
  | nil =>
    obtain ⟨rfl, rfl⟩ := Prod.mk.inj (Except.ok.inj hok)
    exact ⟨hinv, GrowsIn.refl v dict, [], rfl, rfl, by simp⟩
  | cons item items ih =>
    obtain ⟨⟨chunk, d₁⟩, hitem, hok⟩ := bind_eq_ok.mp hok
    obtain ⟨⟨rest, d₂⟩, hrest, hok⟩ := bind_eq_ok.mp hok
    obtain ⟨rfl, rfl⟩ := Prod.mk.inj (Except.ok.inj hok)
    rw [List.length_append] at hlen
    obtain ⟨hinv₁, hgrows₁, hread⟩ := encodeItem_reads lawful hinv fits.1 hitem (by omega)
    obtain ⟨hinv₂, hgrows₂, chunks, rfl, rfl, hchunks⟩ :=
      ih hinv₁ (fits.2 chunk d₁ hitem) hrest (by omega)
    refine ⟨hinv₂, hgrows₁.trans hgrows₂, (chunk, item) :: chunks, rfl, rfl, ?_⟩
    intro reader hreader c hc
    rcases List.mem_cons.mp hc with rfl | hc
    · exact hread reader (hgrows₂.knows.trans hreader)
    · exact hchunks reader hreader c hc

/-- Items one after another are a body. -/
theorem decodeWith_chunks {reader : Option Dict} {chunks : List (Bytes × (UInt16 × Value))}
    (h : ∀ c ∈ chunks, Reads (getItem reader) c.1 c.2) :
    Body.decodeWith (chunks.flatMap Prod.fst) reader = some ⟨chunks.map Prod.snd⟩ := by
  have hmany : chunks.length ≤ (chunks.flatMap Prod.fst).length :=
    length_le_flatMap fun c hc => (h c hc).ne_nil rfl
  have hframes := frames_flatMap_of_none h (show getItem reader [] = none from rfl) hmany
  rw [List.append_nil] at hframes
  rw [Body.decodeWith, hframes]
  rfl

/-- **An encoded body is decoded** under every dictionary that knows the codes the
writer knew once it was encoded. -/
theorem encodeWith_decodes {v : Vendor} (lawful : v.Lawful) {dict dict' : Option Dict} {body : Body}
    {bytes : Bytes} (hinv : InvIn v dict) (fits : FitsItems v dict body.items)
    (hok : body.encodeWith v dict = .ok (bytes, dict')) (hlen : bytes.length < 2 ^ 64) :
    InvIn v dict' ∧ GrowsIn v dict dict' ∧
      ∀ reader, Knows dict' reader → Body.decodeWith bytes reader = some body := by
  obtain ⟨hinv', hgrows, chunks, hbytes, hitems, hchunks⟩ :=
    encodeItems_reads lawful hinv fits hok hlen
  refine ⟨hinv', hgrows, ?_⟩
  intro reader hreader
  rw [hbytes, decodeWith_chunks (hchunks reader hreader), ← hitems]

/-! ## Encoding answers -/

theorem encodeItem_ok {v : Vendor} (lawful : v.Lawful) {dict : Option Dict} {item : UInt16 × Value}
    (hinv : InvIn v dict) (fits : FitsItem v dict item)
    (counts : ∀ text d, item.2 = .str text → dict = some d → d.Countable v text) :
    ∃ chunk dict', encodeItem v dict item = .ok (chunk, dict') ∧ InvIn v dict' := by
  obtain ⟨tag, value⟩ := item
  cases value with
  | str text =>
    obtain ⟨⟨settled, dict'⟩, hsettle⟩ : ∃ answer, settleIn v dict text = .ok answer := by
      cases dict with
      | none => exact ⟨_, rfl⟩
      | some d =>
        obtain ⟨answer, hd⟩ := Dict.settle_ok (counts text d rfl rfl)
        rw [settleIn, hd]
        exact ⟨_, rfl⟩
    obtain ⟨hinv', -, codes⟩ := settleIn_codes lawful hinv (fits text · rfl) hsettle
    obtain ⟨chunk, hwritten⟩ : ∃ chunk, writeSettled dict' tag text settled = .ok chunk :=
      writeSettled_ok codes
    refine ⟨chunk, dict', bind_eq_ok.mpr ⟨_, hsettle, ?_⟩, hinv'⟩
    exact bind_eq_ok.mpr ⟨_, hwritten, rfl⟩
  | bytes bytes => exact ⟨_, _, rfl, hinv⟩
  | u64 value => exact ⟨_, _, rfl, hinv⟩
  | i64 value => exact ⟨_, _, rfl, hinv⟩
  | f64 bits => exact ⟨_, _, rfl, hinv⟩

/-- **Encoding never panics** when every string has room and can be counted. -/
theorem encodeItems_ok {v : Vendor} (lawful : v.Lawful) {dict : Option Dict}
    {items : List (UInt16 × Value)} (hinv : InvIn v dict) (fits : FitsItems v dict items)
    (counts : CountsItems v dict items) : ∃ answer, encodeItems v dict items = .ok answer := by
  induction items generalizing dict with
  | nil => exact ⟨_, rfl⟩
  | cons item items ih =>
    obtain ⟨chunk, dict', hitem, hinv'⟩ := encodeItem_ok lawful hinv fits.1 counts.1
    obtain ⟨answer, hrest⟩ := ih hinv' (fits.2 chunk dict' hitem) (counts.2 chunk dict' hitem)
    unfold encodeItems
    rw [hitem]
    refine ⟨(chunk ++ answer.1, answer.2), ?_⟩
    show (encodeItems v dict' items >>= _) = _
    rw [hrest]
    rfl

end Okm.Series
