import Okm.Lib.Run
import Okm.Series.Dict

/-!
# What a dictionary keeps

A written block is read back as it was (`packBlock_reads`), so a file holding
blocks one after another loads as those blocks (`readBlocks_file`). `Dict.Inv`
ties a writer's dictionary to its file: the closed blocks are the file's, every
promoted string stands where its code says, and the codes are told apart. The
steps that could break it are the ones that put a string into a block no kind byte
is left for, at a width nothing can write, at an id wider than the block, past the
size a header can name, or with no place in the file; `Dict.Room` is what such a
step needs.
-/

namespace Okm.Series

open Lib Model

variable {v : Vendor}

/-! ## A block in the file -/

theorem getText_putText {text : String} (h : (strBytes text).length < 2 ^ 64) :
    Reads getText (putText text) text := by
  intro rest
  simp only [getText, putText, List.append_assoc, getVarint_putVarint h _, Option.bind_eq_bind,
    Option.bind_some, takeExact_append rfl, strOfBytes_strBytes]

theorem length_putText_le {text : String} {entries : List String} (h : text ∈ entries) :
    (strBytes text).length ≤ (blockPayload entries).length := by
  have hsub : (putText text).length ≤ (blockPayload entries).length := by
    obtain ⟨before, after, rfl⟩ := List.append_of_mem h
    simp [blockPayload]
    omega
  have htext : (strBytes text).length ≤ (putText text).length := by simp [putText]
  omega

/-- The widths a block can be written at. -/
def Written (width : Nat) : Prop := width = 2 ∨ width = 4 ∨ width = 8

theorem widthOf_widthCode {width : Nat} (h : Written width) : widthOf (widthCode width) = some width := by
  rcases h with rfl | rfl | rfl <;> rfl

@[simp] theorem length_dictBlockHeader (codec : Codec) (width count prev lenC lenU : Nat) :
    (dictBlockHeader codec width count prev lenC lenU).length = dictBlockHeaderLen := by
  simp [dictBlockHeader, dictBlockMagic, dictBlockHeaderLen]

/-- What a block needs to be readable once written. -/
structure Block.Sound (b : Block) : Prop where
  width : Written b.width
  count : b.entries.length < 2 ^ 32
  payload : (blockPayload b.entries).length < 2 ^ 32

theorem frames_blockPayload {entries : List String}
    (h : (blockPayload entries).length < 2 ^ 32) :
    frames getText entries.length (blockPayload entries) = (entries, []) := by
  have hread : ∀ text ∈ entries, Reads getText (putText text) (id text) := fun text hmem =>
    getText_putText (Nat.lt_of_le_of_lt (length_putText_le hmem) (Nat.lt_trans h (by omega)))
  have hframes := frames_flatMap hread 0 []
  simpa [blockPayload, frames] using hframes

/-- What a header says of its block. -/
theorem dictBlockHeader_fields (codec : Codec) (width prev : Nat) {count lenC lenU : Nat}
    (hcount : count < 2 ^ 32) (hlenC : lenC < 2 ^ 32) (hlenU : lenU < 2 ^ 32) :
    let header := dictBlockHeader codec width count prev lenC lenU
    header.take 4 = dictBlockMagic ∧ header.getD 5 0 = codec.code ∧
      header.getD 6 0 = widthCode width ∧ field header 8 4 = count ∧ field header 24 4 = lenC ∧
      field header 28 4 = lenU := by
  have hc := field_beBytes (w := 4) hcount
  have hlc := field_beBytes (w := 4) hlenC
  have hlu := field_beBytes (w := 4) hlenU []
  rw [List.append_nil] at hlu
  refine ⟨rfl, rfl, rfl, ?_, ?_, ?_⟩ <;>
    simp [dictBlockHeader, dictBlockMagic, field_skip, field_cons, hc, hlc, hlu]

/-- **A packed block is read back**, wherever it stands. -/
theorem packBlock_reads (lawful : v.Lawful) {level : Int} {prev : Nat} {b : Block} {chunk : Bytes}
    (sound : b.Sound) (h : Dict.packBlock v level prev b = .ok chunk) :
    Reads (readBlock v) chunk ⟨b.width, b.entries, chunk.length⟩ := by
  intro rest
  unfold Dict.packBlock at h
  dsimp only at h
  cases hc : v.compress level (blockPayload b.entries) with
  | none =>
    rw [hc] at h
    cases h
  | some compressed =>
    rw [hc] at h
    dsimp only at h
    -- what is stored, and that it opens to the payload either way
    obtain ⟨codec, bytes, hcodec, hopen, hlen⟩ : ∃ codec bytes,
        (if compressed.length < (blockPayload b.entries).length then (Codec.zstd, compressed)
          else (Codec.raw, blockPayload b.entries)) = (codec, bytes) ∧
        (codec = .zstd ∧
            v.decompress bytes (blockPayload b.entries).length = some (blockPayload b.entries) ∨
          codec = .raw ∧ bytes = blockPayload b.entries) ∧
        bytes.length < 2 ^ 32 := by
      have hpayload := sound.payload
      split
      · exact ⟨_, _, rfl, .inl ⟨rfl, (lawful _ _ _ hc).1⟩, by omega⟩
      · exact ⟨_, _, rfl, .inr ⟨rfl, rfl⟩, hpayload⟩
    rw [hcodec] at h
    obtain rfl := Except.ok.inj h
    obtain ⟨hmagic, hcode, hwidth, hcount, hlenC, hlenU⟩ :=
      dictBlockHeader_fields codec b.width prev sound.count hlen sound.payload
    rw [readBlock, List.append_assoc, takeExact_append (length_dictBlockHeader _ _ _ _ _ _)]
    simp only [Option.bind_eq_bind, Option.bind_some, hmagic, hcode, hwidth, hcount, hlenC, hlenU,
      ne_eq, not_true_eq_false, if_false, widthOf_widthCode sound.width, takeExact_append rfl,
      Codec.fromCode_code, Option.getD_some]
    have hpayload := frames_blockPayload sound.payload
    rcases hopen with ⟨rfl, hopen⟩ | ⟨rfl, rfl⟩
    · dsimp only
      rw [hopen]
      simp [hpayload]
    · simp [hpayload]

theorem packBlock_ne_nil {level : Int} {prev : Nat} {b : Block} {chunk : Bytes}
    (h : Dict.packBlock v level prev b = .ok chunk) : chunk ≠ [] := by
  unfold Dict.packBlock at h
  dsimp only at h
  split at h
  · cases h
  · obtain rfl := Except.ok.inj h
    simp [dictBlockHeader, dictBlockMagic]

theorem readBlock_nil : readBlock v [] = none := rfl

/-! ## The blocks of a file -/

/-- The file is a header and then these blocks. -/
def FileHolds (v : Vendor) (file : Bytes) (found : List DecodedBlock) : Prop :=
  ∃ chunks : List (Bytes × DecodedBlock),
    file = Dict.fileHeader ++ chunks.flatMap Prod.fst ∧ found = chunks.map Prod.snd ∧
      ∀ c ∈ chunks, Reads (readBlock v) c.1 c.2 ∧ c.1.length = c.2.size ∧ c.1 ≠ []

theorem fileHolds_header : FileHolds v Dict.fileHeader [] := ⟨[], by simp, rfl, by simp⟩

theorem FileHolds.snoc {file : Bytes} {found : List DecodedBlock} (h : FileHolds v file found)
    {chunk : Bytes} {b : DecodedBlock} (hreads : Reads (readBlock v) chunk b)
    (hsize : chunk.length = b.size) (hne : chunk ≠ []) :
    FileHolds v (file ++ chunk) (found ++ [b]) := by
  obtain ⟨chunks, rfl, rfl, hall⟩ := h
  refine ⟨chunks ++ [(chunk, b)], by simp, by simp, ?_⟩
  intro c hc
  rcases List.mem_append.mp hc with hc | hc
  · exact hall c hc
  · obtain rfl := List.mem_singleton.mp hc
    exact ⟨hreads, hsize, hne⟩

theorem FileHolds.length {file : Bytes} {found : List DecodedBlock} (h : FileHolds v file found) :
    file.length = dictFileHeaderLen + (found.map DecodedBlock.size).sum := by
  obtain ⟨chunks, rfl, rfl, hall⟩ := h
  have hsum : (chunks.flatMap Prod.fst).length
      = ((chunks.map Prod.snd).map DecodedBlock.size).sum := by
    rw [List.length_flatMap, List.map_map]
    exact congrArg List.sum (List.map_congr_left fun c hc => (hall c hc).2.1)
  rw [List.length_append, hsum]
  rfl

/-- **The read loop finds the blocks of the file** first, whatever stands behind them. -/
theorem readBlocks_prefix {file : Bytes} {found : List DecodedBlock} (h : FileHolds v file found)
    (tail : Bytes) : ∃ rounds, Dict.readBlocks v (some (file ++ tail))
      = found ++ (frames (readBlock v) rounds tail).1 := by
  obtain ⟨chunks, rfl, rfl, hall⟩ := h
  have hlen : ¬ (Dict.fileHeader ++ chunks.flatMap Prod.fst ++ tail).length < dictFileHeaderLen := by
    rw [List.append_assoc, List.length_append]
    exact Nat.not_lt.mpr (Nat.le_add_right _ _)
  have hmagic : (Dict.fileHeader ++ chunks.flatMap Prod.fst ++ tail).take 4 = dictFileMagic := rfl
  have hdrop : (Dict.fileHeader ++ chunks.flatMap Prod.fst ++ tail).drop dictFileHeaderLen
      = chunks.flatMap Prod.fst ++ tail := rfl
  have hmany : chunks.length ≤ (chunks.flatMap Prod.fst).length :=
    length_le_flatMap fun c hc => (hall c hc).2.2
  obtain ⟨rounds, hrounds⟩ := Nat.exists_eq_add_of_le (show chunks.length
      ≤ (Dict.fileHeader ++ chunks.flatMap Prod.fst ++ tail).length by
    simp only [List.length_append]
    omega)
  refine ⟨rounds, ?_⟩
  rw [Dict.readBlocks, if_neg (by rw [hmagic]; simpa using hlen), hdrop, hrounds,
    frames_flatMap (fun c hc => (hall c hc).1)]

/-- The loop stops where a torn block begins. -/
theorem readBlocks_append {file tail : Bytes} {found : List DecodedBlock}
    (h : FileHolds v file found) (htail : readBlock v tail = none) :
    Dict.readBlocks v (some (file ++ tail)) = found := by
  obtain ⟨rounds, hread⟩ := readBlocks_prefix h tail
  rw [hread, frames_none htail, List.append_nil]

theorem readBlocks_file {file : Bytes} {found : List DecodedBlock} (h : FileHolds v file found) :
    Dict.readBlocks v (some file) = found := by
  have hread := readBlocks_append h readBlock_nil
  rwa [List.append_nil] at hread

/-! ## What codes mean -/

namespace Dict

/-- What a code stands for, with the width its id is written at. -/
def resolve (d : Dict) (code : UInt8) (id : Nat) : Option (Nat × String) := do
  let b ← d.blockOf code
  let text ← b.entries[id]?
  some (b.width, text)

/-- Every code of `d` means the same in `d'`. -/
def Extends (d d' : Dict) : Prop :=
  ∀ code id r, d.resolve code id = some r → d'.resolve code id = some r

theorem Extends.refl (d : Dict) : d.Extends d := fun _ _ _ h => h

theorem Extends.trans {a b c : Dict} (hab : a.Extends b) (hbc : b.Extends c) : a.Extends c :=
  fun code id r h => hbc code id r (hab code id r h)

theorem resolve_eq_some {d : Dict} {code : UInt8} {id w : Nat} {text : String} :
    d.resolve code id = some (w, text) ↔ d.width code = some w ∧ d.lookup code id = some text := by
  unfold resolve width lookup
  cases d.blockOf code with
  | none => simp
  | some b =>
    cases h : b.entries[id]? with
    | none => simp [h]
    | some t => simp [h]

theorem blockOf_codeOf {d : Dict} {i : Nat} (h : i < 240) : d.blockOf (codeOf i) = d.blocks[i]? := by
  have hcode : codeOf i = UInt8.ofNat (16 + i) := by
    rw [codeOf, if_pos (by omega)]
    show UInt8.ofNat (min 255 (16 + i)) = _
    rw [Nat.min_eq_right (by omega)]
  have hnat : (UInt8.ofNat (16 + i)).toNat = 16 + i := by
    rw [UInt8.toNat_ofNat']
    omega
  have hge : ¬ codeOf i < dictBase := by
    rw [hcode, UInt8.lt_iff_toNat_lt, hnat]
    exact Nat.not_lt.mpr (Nat.le_add_right 16 i)
  have hsub : (codeOf i - dictBase).toNat = i := by
    rw [UInt8.toNat_sub_of_le _ _ (UInt8.not_lt.mp hge), hcode, hnat]
    show 16 + i - 16 = i
    omega
  rw [blockOf, if_neg hge, hsub]

/-- Blocks that only gain entries at their ends keep the meaning of every code. -/
theorem extends_of_blocks {d d' : Dict}
    (h : ∀ (i : Nat) (b : Block), d.blocks[i]? = some b → b.entries ≠ [] →
      ∃ b' : Block, d'.blocks[i]? = some b' ∧ b'.width = b.width ∧ b.entries <+: b'.entries) :
    d.Extends d' := by
  intro code id r hr
  obtain ⟨w, text⟩ := r
  unfold resolve blockOf at hr ⊢
  by_cases hcode : code < dictBase
  · rw [if_pos hcode] at hr
    cases hr
  · rw [if_neg hcode] at hr ⊢
    cases hb : d.blocks[(code - dictBase).toNat]? with
    | none =>
      rw [hb] at hr
      cases hr
    | some b =>
      rw [hb] at hr
      cases ht : b.entries[id]? with
      | none => simp [ht] at hr
      | some t =>
        have hne : b.entries ≠ [] := by
          intro hnil
          simp [hnil] at ht
        obtain ⟨b', hb', hwidth, hprefix⟩ := h _ b hb hne
        have ht' : b'.entries[id]? = some t := by
          obtain ⟨more, hmore⟩ := hprefix
          obtain ⟨hlt, -⟩ := List.getElem?_eq_some_iff.mp ht
          rw [← hmore, List.getElem?_append_left hlt, ht]
        simp only [ht, Option.bind_eq_bind, Option.bind_some] at hr
        simp only [hb', Option.bind_eq_bind, Option.bind_some, ht', hwidth, hr]

/-! ## The invariant of a writer's dictionary -/

/-- What is told of a block wherever it is kept. -/
def shape (b : Block) : Nat × List String := (b.width, b.entries)

def decodedShape (b : DecodedBlock) : Nat × List String := (b.width, b.entries)

/-- A writer's dictionary beside its file: closed blocks, then the open one. A
dictionary with no place in the file (`fileOffset` zero, as an adoption without a
block leaves it) holds no string. -/
structure Holds (v : Vendor) (d : Dict) (file : Bytes) (closed : List Block) (last : Block) :
    Prop where
  contents : d.file = some file
  split : d.blocks = closed ++ [last]
  openBlock : d.openBlock = closed.length
  onFile : ∃ found, FileHolds v file found ∧ found.map decodedShape = closed.map shape
  offset : d.fileOffset = file.length ∨ d.fileOffset = 0 ∧ closed = [] ∧ last.entries = []
  closedSound : ∀ b ∈ closed, b.Sound
  lastWidth : Written last.width ∨ last.width = 16 ∧ last.entries = []
  lastSound : last.entries ≠ [] → last.Sound
  codes : ∀ i b, d.blocks[i]? = some b → b.entries ≠ [] →
    i < 240 ∧ b.entries.length ≤ 256 ^ b.width
  promoted : ∀ text code id, d.promoted.get text = some (code, id) →
    ∃ i b, d.blocks[i]? = some b ∧ code = codeOf i ∧ b.entries[id]? = some text
  blockEntries : 1 ≤ d.blockEntries

/-- The invariant. -/
def Inv (v : Vendor) (d : Dict) : Prop := ∃ file closed last, d.Holds v file closed last

section

variable {d d' : Dict} {file : Bytes} {closed : List Block} {last : Block}

theorem Holds.open_eq (h : d.Holds v file closed last) : d.blocks[d.openBlock]? = some last := by
  rw [h.split, h.openBlock]
  simp

theorem Holds.openEntries_eq (h : d.Holds v file closed last) : d.openEntries = last.entries := by
  rw [openEntries, h.open_eq]
  rfl

theorem Holds.openWidth_eq (h : d.Holds v file closed last) : d.openWidth = last.width := by
  rw [openWidth, h.open_eq]
  rfl

/-- A block with strings in it will go to the end of the file. -/
theorem Holds.fileOffset_eq (h : d.Holds v file closed last) (hne : last.entries ≠ []) :
    d.fileOffset = file.length := by
  rcases h.offset with hoffset | ⟨-, -, hnil⟩
  · exact hoffset
  · exact absurd hnil hne

/-- A promoted string stands where its code says. -/
theorem Holds.resolve_promoted (h : d.Holds v file closed last) {text : String} {code : UInt8}
    {id : Nat} (hget : d.promoted.get text = some (code, id)) :
    ∃ w, d.resolve code id = some (w, text) ∧ Written w ∧ id < 256 ^ w := by
  obtain ⟨i, b, hb, rfl, ht⟩ := h.promoted text code id hget
  obtain ⟨hlt, -⟩ := List.getElem?_eq_some_iff.mp ht
  have hne : b.entries ≠ [] := by
    intro hnil
    simp [hnil] at ht
  obtain ⟨hi, hids⟩ := h.codes i b hb hne
  have hsound : b.Sound := by
    rw [h.split] at hb
    rcases List.mem_append.mp (List.mem_of_getElem? hb) with hmem | hmem
    · exact h.closedSound b hmem
    · obtain rfl := List.mem_singleton.mp hmem
      exact h.lastSound hne
  refine ⟨b.width, ?_, hsound.width, Nat.lt_of_lt_of_le hlt hids⟩
  simp [resolve, blockOf_codeOf hi, hb, ht]

/-! ### The file -/

theorem placeBlocks_shape (cursor : Nat) (found : List DecodedBlock) :
    (placeBlocks cursor found).map shape = found.map decodedShape := by
  induction found generalizing cursor with
  | nil => rfl
  | cons b found ih =>
    rw [placeBlocks, List.map_cons, List.map_cons, ih]
    rfl

/-- The blocks a file loads as. -/
theorem load_blocks {found : List DecodedBlock} (h : FileHolds v file found) (config : DictConfig)
    (level : Int) : (load v (some file) config level).blocks = placeBlocks dictFileHeaderLen found := by
  rw [load, readBlocks_file h]

theorem extends_of_shapes {d d' : Dict} (extra : List (Nat × List String))
    (hextra : ∀ s ∈ extra, s.2 = [])
    (h : d.blocks.map shape = d'.blocks.map shape ++ extra) : d.Extends d' := by
  refine extends_of_blocks ?_
  intro i b hb hne
  have hget : (d'.blocks.map shape ++ extra)[i]? = some (shape b) := by
    rw [← h, List.getElem?_map, hb]
    rfl
  rcases Nat.lt_or_ge i (d'.blocks.map shape).length with hlt | hge
  · rw [List.getElem?_append_left hlt, List.getElem?_map] at hget
    obtain ⟨b', hb', hshape⟩ := Option.map_eq_some_iff.mp hget
    obtain ⟨hwidth, hentries⟩ := Prod.mk.inj hshape
    exact ⟨b', hb', hwidth, by rw [hentries]⟩
  · rw [List.getElem?_append_right hge] at hget
    exact absurd (hextra _ (List.mem_of_getElem? hget)) hne

/-- What a step leaves: every code means the same, to the writer and to whoever loads
the file. -/
def Grows (v : Vendor) (d d' : Dict) : Prop :=
  d.Extends d' ∧ ∀ config level config' level',
    (load v d.file config level).Extends (load v d'.file config' level')

/-- A step that leaves the file alone. -/
theorem grows_of_file (hextends : d.Extends d') (hfile : d'.file = d.file) : d.Grows v d' := by
  refine ⟨hextends, ?_⟩
  intro config level config' level'
  rw [hfile]
  exact extends_of_blocks fun i b hb _ => ⟨b, hb, rfl, List.prefix_rfl⟩

theorem Grows.refl (d : Dict) : d.Grows v d := grows_of_file (Extends.refl d) rfl

theorem Grows.trans {a b c : Dict} (hab : a.Grows v b) (hbc : b.Grows v c) : a.Grows v c :=
  ⟨hab.1.trans hbc.1, fun config level config' level' =>
    (hab.2 config level config level).trans (hbc.2 config level config' level')⟩

/-- A file with more blocks behind. -/
theorem load_extends {file' : Bytes} {found more : List DecodedBlock}
    (hfile : readBlocks v (some file) = found) (hmore : readBlocks v (some file') = found ++ more)
    (config : DictConfig) (level : Int) (config' : DictConfig) (level' : Int) :
    (load v (some file) config level).Extends (load v (some file') config' level') := by
  refine extends_of_blocks ?_
  intro i old hold _
  rw [load, hfile] at hold
  have hget : ((placeBlocks dictFileHeaderLen (found ++ more)).map shape)[i]? = some (shape old) := by
    have hfound : (found.map decodedShape)[i]? = some (shape old) := by
      rw [← placeBlocks_shape dictFileHeaderLen, List.getElem?_map, hold]
      rfl
    obtain ⟨hlt, -⟩ := List.getElem?_eq_some_iff.mp hfound
    rw [placeBlocks_shape, List.map_append, List.getElem?_append_left hlt, hfound]
  rw [List.getElem?_map] at hget
  obtain ⟨new, hnew, hshape⟩ := Option.map_eq_some_iff.mp hget
  obtain ⟨hwidth, hentries⟩ := Prod.mk.inj hshape
  exact ⟨new, by rw [load, hmore]; exact hnew, hwidth, by rw [hentries]⟩

/-! ### Steps -/

/-- A block that was there is still there when an empty one is put behind. -/
theorem shape_of_push_left {old new : List Block} {w i : Nat} {b : Block}
    (h : new.map shape = old.map shape ++ [(w, [])]) (hb : old[i]? = some b) :
    ∃ b', new[i]? = some b' ∧ shape b' = shape b := by
  obtain ⟨hlt, -⟩ := List.getElem?_eq_some_iff.mp hb
  have hget : (new.map shape)[i]? = some (shape b) := by
    rw [h, List.getElem?_append_left (by simpa using hlt), List.getElem?_map, hb]
    rfl
  rw [List.getElem?_map] at hget
  exact Option.map_eq_some_iff.mp hget

/-- A block that holds strings was there before an empty one was put behind. -/
theorem shape_of_push (old : List Block) {new : List Block} {w i : Nat} {b : Block}
    (h : new.map shape = old.map shape ++ [(w, [])]) (hb : new[i]? = some b)
    (hne : b.entries ≠ []) : ∃ b', old[i]? = some b' ∧ shape b' = shape b := by
  have hget : (old.map shape ++ [(w, [])])[i]? = some (shape b) := by
    rw [← h, List.getElem?_map, hb]
    rfl
  rcases Nat.lt_or_ge i (old.map shape).length with hlt | hge
  · rw [List.getElem?_append_left hlt, List.getElem?_map] at hget
    exact Option.map_eq_some_iff.mp hget
  · -- only the empty block stands there
    rw [List.getElem?_append_right hge] at hget
    have hmem := List.mem_singleton.mp (List.mem_of_getElem? hget)
    exact absurd (congrArg Prod.snd hmem) hne

theorem holds_create (config : DictConfig) (level : Int) :
    (create config level).Holds v fileHeader [] ⟨2, [], 0⟩ where
  contents := rfl
  split := rfl
  openBlock := rfl
  onFile := ⟨[], fileHolds_header, rfl⟩
  offset := Or.inl rfl
  closedSound := by simp
  lastWidth := Or.inl (Or.inl rfl)
  lastSound := fun h => absurd rfl h
  codes := by
    intro i b hb hne
    have hb' : b = ⟨2, [], 0⟩ := by
      rcases List.getElem?_eq_some_iff.mp hb with ⟨hlt, rfl⟩
      exact List.mem_singleton.mp (List.getElem_mem hlt)
    exact absurd (by rw [hb']) hne
  promoted := by
    intro text code id h
    cases h
  blockEntries := Nat.le_max_right _ _

/-- What writing the open block leaves. -/
theorem Holds.flushOpenBlock (h : d.Holds v file closed last) (hne : last.entries ≠ [])
    (hok : d.flushOpenBlock v = .ok d') :
    ∃ chunk prev, packBlock v d.level prev last = .ok chunk ∧
      d' = { d with
        file := some (file ++ chunk)
        fileOffset := file.length + chunk.length
        blocks := closed ++ [{ last with fileOffset := file.length }] } := by
  have hoffset := h.fileOffset_eq hne
  have hset : d.blocks.set d.openBlock { last with fileOffset := d.fileOffset }
      = closed ++ [{ last with fileOffset := file.length }] := by
    rw [h.split, h.openBlock, hoffset, List.set_append_right _ _ (Nat.le_refl _), Nat.sub_self]
    rfl
  unfold Dict.flushOpenBlock at hok
  rw [h.open_eq] at hok
  dsimp only at hok
  rw [if_neg hne] at hok
  obtain ⟨chunk, hchunk, hok⟩ := bind_eq_ok.mp hok
  rw [h.contents] at hok
  obtain rfl := Except.ok.inj hok
  refine ⟨chunk, _, hchunk, ?_⟩
  rw [hset, hoffset, writeAt_end]

/-- The file after the open block was written to it. -/
theorem Holds.onFile_snoc (lawful : v.Lawful) (h : d.Holds v file closed last)
    (hne : last.entries ≠ []) {chunk : Bytes} {prev : Nat} (at_ : Nat)
    (hchunk : packBlock v d.level prev last = .ok chunk) :
    (∃ found, FileHolds v (file ++ chunk) found ∧
      found.map decodedShape = (closed ++ [{ last with fileOffset := at_ }]).map shape) ∧
    ∀ config level config' level', (load v d.file config level).Extends
      (load v (some (file ++ chunk)) config' level') := by
  obtain ⟨found, hfile, hshape⟩ := h.onFile
  have hnew := hfile.snoc (packBlock_reads lawful (h.lastSound hne) hchunk) rfl
    (packBlock_ne_nil hchunk)
  refine ⟨⟨_, hnew, ?_⟩, ?_⟩
  · rw [List.map_append, List.map_append, hshape]
    rfl
  · rw [h.contents]
    exact load_extends (readBlocks_file hfile) (readBlocks_file hnew)

/-- **Writing the open block and starting another** keeps the invariant and the
meaning of every code. -/
theorem Holds.push (lawful : v.Lawful) (h : d.Holds v file closed last)
    (hne : last.entries ≠ []) {w : Nat} (hw : Written w ∨ w = 16)
    (hok : d.flushOpenBlock v = .ok d') :
    (d'.pushBlock w).Inv v ∧ d.Grows v (d'.pushBlock w) ∧
      (d'.pushBlock w).openEntries = [] ∧ (d'.pushBlock w).openWidth = w := by
  obtain ⟨chunk, prev, hchunk, rfl⟩ := h.flushOpenBlock hne hok
  have hsound : Block.Sound { last with fileOffset := file.length } :=
    ⟨(h.lastSound hne).width, (h.lastSound hne).count, (h.lastSound hne).payload⟩
  -- the flushed block is closed where it was, and an empty one opens
  have hshapes : (closed ++ [{ last with fileOffset := file.length }] ++ [Block.mk w [] 0]).map shape
      = d.blocks.map shape ++ [(w, [])] := by
    rw [h.split]
    simp [shape]
  have hkeep := fun i b => shape_of_push_left hshapes (i := i) (b := b)
  have hback := fun i b => shape_of_push d.blocks hshapes (i := i) (b := b)
  have hinv : Holds v (Dict.pushBlock { d with
      file := some (file ++ chunk)
      fileOffset := file.length + chunk.length
      blocks := closed ++ [{ last with fileOffset := file.length }] } w)
      (file ++ chunk) (closed ++ [{ last with fileOffset := file.length }]) ⟨w, [], 0⟩ := by
    refine ⟨rfl, rfl, rfl, (h.onFile_snoc lawful hne _ hchunk).1, ?_, ?_, ?_, ?_, ?_, ?_,
      h.blockEntries⟩
    · exact Or.inl (List.length_append).symm
    · intro b hb
      rcases List.mem_append.mp hb with hb | hb
      · exact h.closedSound b hb
      · obtain rfl := List.mem_singleton.mp hb
        exact hsound
    · rcases hw with hw | hw
      · exact Or.inl hw
      · exact Or.inr ⟨hw, rfl⟩
    · intro hnil
      exact absurd rfl hnil
    · intro i b hb hnonempty
      obtain ⟨b', hb', hshape⟩ := hback i b hb hnonempty
      obtain ⟨hwidth, hentries⟩ := Prod.mk.inj hshape
      have hcodes := h.codes i b' hb' (by rwa [hentries])
      rwa [hwidth, hentries] at hcodes
    · -- codes name blocks by their place, which a push does not move
      intro text code id hget
      obtain ⟨i, b, hb, hcode, ht⟩ := h.promoted text code id hget
      obtain ⟨b', hb', hshape⟩ := hkeep i b hb
      obtain ⟨-, hentries⟩ := Prod.mk.inj hshape
      exact ⟨i, b', hb', hcode, by rw [hentries, ht]⟩
  refine ⟨⟨_, _, _, hinv⟩, ⟨extends_of_blocks ?_, (h.onFile_snoc lawful hne 0 hchunk).2⟩,
    hinv.openEntries_eq, hinv.openWidth_eq⟩
  intro i b hb _
  obtain ⟨b', hb', hshape⟩ := hkeep i b hb
  obtain ⟨hwidth, hentries⟩ := Prod.mk.inj hshape
  exact ⟨b', hb', hwidth, by rw [hentries]⟩

/-- The invariant does not look at the counts. -/
theorem Holds.setCounts (h : d.Holds v file closed last) (counts : SortedMap Nat Nat) :
    Holds v { d with counts := counts } file closed last :=
  ⟨h.contents, h.split, h.openBlock, h.onFile, h.offset, h.closedSound, h.lastWidth, h.lastSound,
    h.codes, h.promoted, h.blockEntries⟩

/-- A full block is closed and the next one is wider. -/
theorem Inv.ready (lawful : v.Lawful) (h : d.Inv v) : (d.ready v).Inv v ∧ d.Grows v (d.ready v) := by
  obtain ⟨file, closed, last, h⟩ := h
  unfold Dict.ready
  split
  · rename_i hfull
    have hne : last.entries ≠ [] := by
      intro hnil
      rw [h.openEntries_eq, hnil] at hfull
      exact absurd h.blockEntries (by simpa using hfull)
    unfold closeBlock
    cases hok : d.flushOpenBlock v with
    | error e => exact ⟨⟨file, closed, last, h⟩, Grows.refl d⟩
    | ok d' =>
      have hwidth : d'.openWidth = last.width := by
        obtain ⟨chunk, prev, -, rfl⟩ := h.flushOpenBlock hne hok
        simp [openWidth, h.openBlock]
      have hdouble : Written (last.width * 2) ∨ last.width * 2 = 16 := by
        rcases (h.lastSound hne).width with hw | hw | hw
        · exact Or.inl (Or.inr (Or.inl (by omega)))
        · exact Or.inl (Or.inr (Or.inr (by omega)))
        · exact Or.inr (by omega)
      obtain ⟨hinv, hgrows, -, -⟩ := h.push lawful hne hdouble hok
      dsimp only
      rw [hwidth]
      exact ⟨hinv, hgrows⟩
  · exact ⟨⟨file, closed, last, h⟩, Grows.refl d⟩

/-- Room for one more string in the block it is entered into: a kind byte of its own,
a width that can be written, an id that fits it, a payload a header can name, and a
place in the file. -/
structure Room (v : Vendor) (d : Dict) (text : String) : Prop where
  index : (d.ready v).openBlock < 240
  width : (d.ready v).openWidth ≤ 8
  id : (d.ready v).openEntries.length < 256 ^ (d.ready v).openWidth
  payload : (blockPayload ((d.ready v).openEntries ++ [text])).length < 2 ^ 32
  placed : dictFileHeaderLen ≤ (d.ready v).fileOffset

theorem modify_concat {α : Type} (as : List α) (b : α) (f : α → α) :
    (as ++ [b]).modify as.length f = as ++ [f b] := by
  induction as with
  | nil => rfl
  | cons a as ih => simpa using ih

/-- **Entering a string** where there is room keeps the invariant and every code, and
the new code means the string. -/
theorem Holds.enter (h : d.Holds v file closed last) {text : String}
    (hindex : d.openBlock < 240) (hwidth : d.openWidth ≤ 8)
    (hid : d.openEntries.length < 256 ^ d.openWidth)
    (hpayload : (blockPayload (d.openEntries ++ [text])).length < 2 ^ 32)
    (hplaced : dictFileHeaderLen ≤ d.fileOffset) :
    (d.enter text).1.Inv v ∧ d.Grows v (d.enter text).1 ∧
      (d.enter text).1.promoted.get text = some (d.enter text).2 := by
  rw [h.openWidth_eq] at hwidth hid
  rw [h.openEntries_eq] at hid hpayload
  -- the block has a width of the format, and the file ends where it says
  have hwritten : Written last.width := by
    rcases h.lastWidth with hw | ⟨hw, -⟩
    · exact hw
    · omega
  have hplace : d.fileOffset = file.length := by
    rcases h.offset with hoffset | ⟨hzero, -, -⟩
    · exact hoffset
    · rw [hzero] at hplaced
      exact absurd hplaced (by decide)
  have hblocks : (d.enter text).1.blocks
      = closed ++ [{ last with entries := last.entries ++ [text] }] := by
    rw [Dict.enter, h.split, h.openBlock, modify_concat]
  have hcoded : (d.enter text).2 = (codeOf closed.length, last.entries.length) := by
    rw [Dict.enter, h.openEntries_eq, h.openBlock]
  -- the open block takes one more entry, the others stay
  have hgrow : ∀ (i : Nat) (b : Block), d.blocks[i]? = some b → ∃ b' : Block,
      (d.enter text).1.blocks[i]? = some b' ∧ b'.width = b.width ∧ b.entries <+: b'.entries := by
    intro i b hb
    simp only [Dict.enter, List.getElem?_modify, hb, Option.map_eq_map, Option.map_some]
    split
    · exact ⟨_, rfl, rfl, List.prefix_append _ _⟩
    · exact ⟨b, rfl, rfl, List.prefix_rfl⟩
  have hnew : (d.enter text).1.blocks[closed.length]?
      = some { last with entries := last.entries ++ [text] } := by
    rw [hblocks]
    simp
  have hcount : (last.entries ++ [text]).length ≤ (blockPayload (last.entries ++ [text])).length :=
    length_le_flatMap fun t _ => by simp [putText, putVarint_ne_nil]
  have hinv : Holds v (d.enter text).1 file closed
      { last with entries := last.entries ++ [text] } := by
    refine ⟨h.contents, hblocks, h.openBlock, h.onFile, Or.inl hplace, h.closedSound,
      Or.inl hwritten, ?_, ?_, ?_, h.blockEntries⟩
    · intro _
      exact ⟨hwritten, Nat.lt_of_le_of_lt hcount hpayload, hpayload⟩
    · intro i b hb hne
      rw [hblocks] at hb
      rcases Nat.lt_trichotomy i closed.length with hi | rfl | hi
      · rw [List.getElem?_append_left hi] at hb
        exact h.codes i b (by rw [h.split, List.getElem?_append_left hi, hb]) hne
      · rw [List.getElem?_append_right (Nat.le_refl _), Nat.sub_self] at hb
        obtain rfl := Option.some.inj hb
        rw [h.openBlock] at hindex
        refine ⟨hindex, ?_⟩
        rw [List.length_append, List.length_singleton]
        exact hid
      · rw [List.getElem?_eq_none (by simp; omega)] at hb
        cases hb
    · -- a string promoted before keeps its code, and the new one is the last entry
      intro t code id hget
      have hcode : (d.enter text).1.promoted = d.promoted.insert text (d.enter text).2 := rfl
      rw [hcode, SortedMap.get_insert, hcoded] at hget
      split at hget
      · rename_i heq
        obtain ⟨rfl, rfl⟩ := Prod.mk.inj (Option.some.inj hget)
        exact ⟨closed.length, _, hnew, rfl, by simp [heq]⟩
      · obtain ⟨i, b, hb, hcode, ht⟩ := h.promoted t code id hget
        obtain ⟨b', hb', -, more, hmore⟩ := hgrow i b hb
        obtain ⟨hlt, -⟩ := List.getElem?_eq_some_iff.mp ht
        exact ⟨i, b', hb', hcode, by rw [← hmore, List.getElem?_append_left hlt, ht]⟩
  refine ⟨⟨_, _, _, hinv⟩, grows_of_file (extends_of_blocks fun i b hb _ => hgrow i b hb) rfl, ?_⟩
  exact SortedMap.get_insert_self _ _ _

/-- **Promotion** where there is room. -/
theorem Inv.promote (lawful : v.Lawful) (h : d.Inv v) {text : String} (room : d.Room v text) :
    (d.promote v text).1.Inv v ∧ d.Grows v (d.promote v text).1 ∧
      (d.promote v text).1.promoted.get text = some (d.promote v text).2 := by
  obtain ⟨⟨file, closed, last, hready⟩, hgrows⟩ := h.ready lawful
  obtain ⟨hinv, hmore, hget⟩ := hready.enter room.index room.width room.id room.payload room.placed
  exact ⟨hinv, hgrows.trans hmore, hget⟩

/-- Room for a string that earns a code now. -/
def Fits (v : Vendor) (d : Dict) (text : String) : Prop :=
  d.promoted.get text = none → ∀ count d', d.count (hashOf v text) = .ok (count, d') →
    d'.earns count text = true →
    Room v { d' with counts := d'.counts.erase (hashOf v text) } text

instance Room.decidable : Decidable (d.Room v text) :=
  decidable_of_iff ((d.ready v).openBlock < 240 ∧ (d.ready v).openWidth ≤ 8 ∧
      (d.ready v).openEntries.length < 256 ^ (d.ready v).openWidth ∧
      (blockPayload ((d.ready v).openEntries ++ [text])).length < 2 ^ 32 ∧
      dictFileHeaderLen ≤ (d.ready v).fileOffset)
    ⟨fun h => ⟨h.1, h.2.1, h.2.2.1, h.2.2.2.1, h.2.2.2.2⟩,
      fun h => ⟨h.index, h.width, h.id, h.payload, h.placed⟩⟩

instance Fits.decidable : Decidable (d.Fits v text) :=
  decidable_of_iff (d.promoted.get text = none → ∀ counted : Nat × Dict,
      d.count (hashOf v text) = .ok counted → counted.2.earns counted.1 text = true →
      Room v { counted.2 with counts := counted.2.counts.erase (hashOf v text) } text)
    ⟨fun h hnew count d' hcount => h hnew (count, d') hcount,
      fun h hnew counted hcount => h hnew counted.1 counted.2 hcount⟩

/-- The occurrences of the string can be counted. -/
def Countable (v : Vendor) (d : Dict) (text : String) : Prop :=
  ∀ seen, d.counts.get (hashOf v text) = some seen → seen + 1 < 2 ^ 32

theorem count_eq {key n : Nat} (h : d.count key = .ok (n, d')) :
    ∃ counts, d' = { d with counts := counts } := by
  unfold count at h
  split at h
  · split at h
    · exact ⟨_, (congrArg Prod.snd (Except.ok.inj h)).symm⟩
    · cases h
  · split at h
    · exact ⟨_, (congrArg Prod.snd (Except.ok.inj h)).symm⟩
    · exact ⟨d.counts, (congrArg Prod.snd (Except.ok.inj h)).symm⟩

/-- **Settling a string** keeps the invariant and the meaning of every code; a code
it answers means the string and fits its width. -/
theorem Inv.settle (lawful : v.Lawful) (h : d.Inv v) {text : String} (fits : d.Fits v text)
    {coded : Option (UInt8 × Nat)} (hok : d.settle v text = .ok (coded, d')) :
    d'.Inv v ∧ d.Grows v d' ∧
      ∀ code id, coded = some (code, id) →
        ∃ w, d'.resolve code id = some (w, text) ∧ Written w ∧ id < 256 ^ w := by
  unfold Dict.settle at hok
  cases hget : d.promoted.get text with
  | some found =>
    rw [hget] at hok
    obtain ⟨rfl, rfl⟩ := Prod.mk.inj (Except.ok.inj hok)
    refine ⟨h, Grows.refl d, ?_⟩
    intro code id heq
    obtain ⟨file, closed, last, h⟩ := h
    obtain rfl := Option.some.inj heq
    exact h.resolve_promoted hget
  | none =>
    rw [hget] at hok
    obtain ⟨⟨n, d₁⟩, hcount, hok⟩ := bind_eq_ok.mp hok
    obtain ⟨counts, rfl⟩ := count_eq hcount
    dsimp only at hok
    obtain ⟨file, closed, last, h⟩ := h
    split at hok
    · rename_i hearns
      obtain ⟨rfl, rfl⟩ := Prod.mk.inj (Except.ok.inj hok)
      have hinv : Inv v { d with counts := counts.erase (hashOf v text) } :=
        ⟨file, closed, last, h.setCounts _⟩
      obtain ⟨⟨file', closed', last', hinv'⟩, hgrows, hpromoted⟩ :=
        hinv.promote lawful (fits hget n _ hcount hearns)
      refine ⟨⟨file', closed', last', hinv'⟩, hgrows, ?_⟩
      intro code id heq
      rw [Option.some.inj heq] at hpromoted
      exact hinv'.resolve_promoted hpromoted
    · obtain ⟨rfl, rfl⟩ := Prod.mk.inj (Except.ok.inj hok)
      refine ⟨⟨file, closed, last, h.setCounts counts⟩, grows_of_file (Extends.refl d) rfl, ?_⟩
      intro code id heq
      cases heq

/-- Settling answers when occurrences can be counted. -/
theorem settle_ok {text : String} (h : d.Countable v text) : ∃ r, d.settle v text = .ok r := by
  unfold Dict.settle
  cases d.promoted.get text with
  | some coded => exact ⟨_, rfl⟩
  | none =>
    have hcount : ∃ n d', d.count (hashOf v text) = .ok (n, d') := by
      unfold count
      cases hseen : d.counts.get (hashOf v text) with
      | some seen => exact ⟨_, _, if_pos (h seen hseen)⟩
      | none =>
        dsimp only
        split
        · exact ⟨_, _, rfl⟩
        · exact ⟨_, _, rfl⟩
    obtain ⟨n, d', hcount⟩ := hcount
    rw [hcount]
    by_cases hearns : d'.earns n text
    · exact ⟨_, if_pos hearns⟩
    · exact ⟨_, if_neg hearns⟩

/-- The file beside the dictionary says the same. -/
def Filed (v : Vendor) (d : Dict) : Prop :=
  ∀ config level, d.Extends (load v d.file config level)

/-- With nothing in the open block, the file says everything. -/
theorem Holds.filed (h : d.Holds v file closed last) (hnil : last.entries = []) : d.Filed v := by
  intro config level
  obtain ⟨found, hfile, hshape⟩ := h.onFile
  refine extends_of_shapes [shape last] ?_ ?_
  · intro s hs
    rw [List.mem_singleton.mp hs]
    exact hnil
  · rw [h.contents, load_blocks hfile, placeBlocks_shape, hshape, h.split, List.map_append]
    rfl

/-- **Before a block of records goes out**, the strings it may refer to are in the
file. -/
theorem Inv.flushIfDirty (lawful : v.Lawful) (h : d.Inv v) (hok : d.flushIfDirty v = .ok d') :
    d'.Inv v ∧ d.Grows v d' ∧ d'.Filed v := by
  obtain ⟨file, closed, last, h⟩ := h
  unfold Dict.flushIfDirty at hok
  split at hok
  · rename_i hnil
    obtain rfl := Except.ok.inj hok
    rw [h.openEntries_eq] at hnil
    exact ⟨⟨file, closed, last, h⟩, Grows.refl d, h.filed hnil⟩
  · rename_i hne
    rw [h.openEntries_eq] at hne
    obtain ⟨d₁, hflush, hok⟩ := bind_eq_ok.mp hok
    obtain rfl := Except.ok.inj hok
    have hwidth : d₁.openWidth = last.width := by
      obtain ⟨chunk, prev, -, rfl⟩ := h.flushOpenBlock hne hflush
      simp [openWidth, h.openBlock]
    have hwritten : Written d₁.openWidth := by
      rw [hwidth]
      exact (h.lastSound hne).width
    obtain ⟨⟨file', closed', last', hinv⟩, hgrows, hentries, -⟩ :=
      h.push lawful hne (Or.inl hwritten) hflush
    rw [hinv.openEntries_eq] at hentries
    exact ⟨⟨file', closed', last', hinv⟩, hgrows, hinv.filed hentries⟩

/-- The last write of a dictionary leaves everything in the file. -/
theorem Inv.finish (lawful : v.Lawful) (h : d.Inv v) (hok : d.finish v = .ok d') :
    d.Grows v d' ∧ d'.Filed v := by
  obtain ⟨file, closed, last, h⟩ := h
  by_cases hne : last.entries = []
  · have heq : d' = d := by
      rw [Dict.finish, Dict.flushOpenBlock, h.open_eq] at hok
      dsimp only at hok
      rw [if_pos hne] at hok
      exact (Except.ok.inj hok).symm
    rw [heq]
    exact ⟨Grows.refl d, h.filed hne⟩
  · obtain ⟨chunk, prev, hchunk, rfl⟩ := h.flushOpenBlock hne hok
    obtain ⟨⟨found, hfile, hshape⟩, hload⟩ := h.onFile_snoc lawful hne file.length hchunk
    constructor
    · refine ⟨extends_of_shapes [] (by simp) ?_, hload⟩
      rw [h.split]
      simp [shape]
    · intro config level
      refine extends_of_shapes [] (by simp) ?_
      rw [load_blocks hfile, placeBlocks_shape, hshape, List.append_nil]

/-- The file it leaves is blocks to the end. -/
theorem Inv.finish_file (lawful : v.Lawful) (h : d.Inv v) (hok : d.finish v = .ok d') :
    ∃ file found, d'.file = some file ∧ FileHolds v file found := by
  obtain ⟨file, closed, last, h⟩ := h
  by_cases hne : last.entries = []
  · rw [Dict.finish, Dict.flushOpenBlock, h.open_eq] at hok
    dsimp only at hok
    rw [if_pos hne] at hok
    obtain ⟨found, hfile, -⟩ := h.onFile
    exact ⟨file, found, by rw [← Except.ok.inj hok, h.contents], hfile⟩
  · obtain ⟨chunk, prev, hchunk, rfl⟩ := h.flushOpenBlock hne hok
    obtain ⟨⟨found, hfile, -⟩, -⟩ := h.onFile_snoc lawful hne file.length hchunk
    exact ⟨_, found, rfl, hfile⟩

/-! ### Adoption -/

/-- Where the strings of one block stand. -/
theorem get_foldl_entries {entries : List (String × Nat)} {codes : SortedMap String (UInt8 × Nat)}
    {index : Nat} {text : String} {coded : UInt8 × Nat}
    (h : (entries.foldl (fun codes (text, id) => codes.insert text (codeOf index, id)) codes).get text
      = some coded) :
    codes.get text = some coded ∨ coded.1 = codeOf index ∧ (text, coded.2) ∈ entries := by
  induction entries generalizing codes with
  | nil => exact Or.inl h
  | cons e entries ih =>
    rw [List.foldl_cons] at h
    rcases ih h with hget | ⟨hcode, hmem⟩
    · rw [SortedMap.get_insert] at hget
      split at hget
      · rename_i heq
        obtain rfl := Option.some.inj hget
        exact Or.inr ⟨rfl, by rw [heq]; simp⟩
      · exact Or.inl hget
    · exact Or.inr ⟨hcode, List.mem_cons_of_mem _ hmem⟩

/-- Where the strings of a file's blocks stand. -/
theorem get_promotedFrom {blocks : List Block} {index : Nat}
    {codes : SortedMap String (UInt8 × Nat)} {text : String} {code : UInt8} {id : Nat}
    (h : (promotedFrom index blocks codes).get text = some (code, id)) :
    codes.get text = some (code, id) ∨
      ∃ i b, blocks[i]? = some b ∧ code = codeOf (index + i) ∧ b.entries[id]? = some text := by
  induction blocks generalizing index codes with
  | nil => exact Or.inl h
  | cons b blocks ih =>
    rw [promotedFrom] at h
    rcases ih h with hget | ⟨i, b', hb', hcode, ht⟩
    · rcases get_foldl_entries hget with hget | ⟨hcode, hmem⟩
      · exact Or.inl hget
      · refine Or.inr ⟨0, b, rfl, hcode, ?_⟩
        have hz := List.mem_zipIdx_iff_getElem?.mp hmem
        exact hz
    · exact Or.inr ⟨i + 1, b', hb', by rw [hcode, Nat.add_right_comm, Nat.add_assoc], ht⟩

/-- What an adoption starts from. -/
theorem adopt_fields {found : List DecodedBlock} (hfile : FileHolds v file found)
    (config : DictConfig) (level : Int) :
    ∃ d' w, Dict.adopt v (some file) config level = .ok d' ∧ d'.file = some file ∧
      d'.blocks = placeBlocks dictFileHeaderLen found ++ [⟨w, [], 0⟩] ∧
      w = (((placeBlocks dictFileHeaderLen found).getLast?).map Block.width).getD 2 ∧
      d'.openBlock = (placeBlocks dictFileHeaderLen found).length ∧
      d'.fileOffset = (if found.isEmpty then 0 else file.length) ∧
      d'.promoted = promotedFrom 0 (placeBlocks dictFileHeaderLen found) SortedMap.empty ∧
      1 ≤ d'.blockEntries := by
  have hblocks := load_blocks hfile config level
  refine ⟨_, _, rfl, rfl, by rw [hblocks], rfl, by rw [hblocks], ?_, ?_, Nat.le_max_right _ _⟩
  · rw [hfile.length]
    simp only [load, readBlocks_file hfile]
  · simp only [load, readBlocks_file hfile]

/-- **Adoption of a file a writer left** keeps the invariant, and every code the file
knows means the same. -/
theorem Holds.adopt (h : d.Holds v file closed last) (config : DictConfig) (level : Int) :
    ∃ d', Dict.adopt v (some file) config level = .ok d' ∧ d'.Inv v ∧
      (load v (some file) config level).Extends d' := by
  obtain ⟨found, hfile, hshape⟩ := h.onFile
  obtain ⟨d', w, hok, hcontents, hblocks, hw, hopen, hoffset, hpromoted, hentries⟩ :=
    adopt_fields hfile config level
  have hshapes : (placeBlocks dictFileHeaderLen found).map shape = closed.map shape := by
    rw [placeBlocks_shape, hshape]
  -- the blocks found in the file are the closed ones, at their own places
  have hclosed : ∀ (i : Nat) (b : Block), (placeBlocks dictFileHeaderLen found)[i]? = some b →
      ∃ b', closed[i]? = some b' ∧ shape b' = shape b := by
    intro i b hb
    have hget : (closed.map shape)[i]? = some (shape b) := by
      rw [← hshapes, List.getElem?_map, hb]
      rfl
    rw [List.getElem?_map] at hget
    exact Option.map_eq_some_iff.mp hget
  have hsound : ∀ b ∈ placeBlocks dictFileHeaderLen found, b.Sound := by
    intro b hb
    obtain ⟨i, hi⟩ := List.mem_iff_getElem?.mp hb
    obtain ⟨b', hb', hsame⟩ := hclosed i b hi
    obtain ⟨hwidth, hentries⟩ := Prod.mk.inj hsame
    have hs := h.closedSound b' (List.mem_of_getElem? hb')
    exact ⟨by rw [← hwidth]; exact hs.width, by rw [← hentries]; exact hs.count,
      by rw [← hentries]; exact hs.payload⟩
  -- the adopted dictionary starts a block of its own behind them
  have hinv : d'.Holds v file (placeBlocks dictFileHeaderLen found) ⟨w, [], 0⟩ := by
    refine ⟨hcontents, hblocks, hopen, ⟨found, hfile, by rw [placeBlocks_shape]⟩, ?_, hsound, ?_,
      fun hne => absurd rfl hne, ?_, ?_, hentries⟩
    · rw [hoffset]
      cases found with
      | nil => exact Or.inr ⟨rfl, rfl, rfl⟩
      | cons b found => exact Or.inl rfl
    · -- the width of the last block, or the first width there is
      left
      rw [hw]
      cases hlast : (placeBlocks dictFileHeaderLen found).getLast? with
      | none => exact Or.inl rfl
      | some b => exact (hsound b (List.mem_of_getLast? hlast)).width
    · intro i b hb hne
      rw [hblocks] at hb
      obtain ⟨b₁, hb₁, hsame₁⟩ :=
        shape_of_push (placeBlocks dictFileHeaderLen found) (w := w)
          (by rw [List.map_append]; rfl) hb hne
      obtain ⟨b₂, hb₂, hsame₂⟩ := hclosed i b₁ hb₁
      obtain ⟨hwidth, hentries⟩ := Prod.mk.inj (hsame₂.trans hsame₁)
      have hold : d.blocks[i]? = some b₂ := by
        obtain ⟨hlt, -⟩ := List.getElem?_eq_some_iff.mp hb₂
        rw [h.split, List.getElem?_append_left hlt, hb₂]
      have hcodes := h.codes i b₂ hold (by rwa [hentries])
      rwa [hwidth, hentries] at hcodes
    · -- the promoted strings are those of the blocks found
      intro text code id hget
      rw [hpromoted] at hget
      rcases get_promotedFrom hget with hget | ⟨i, b, hb, hcode, ht⟩
      · cases hget
      · obtain ⟨hlt, -⟩ := List.getElem?_eq_some_iff.mp hb
        rw [Nat.zero_add] at hcode
        exact ⟨i, b, by rw [hblocks, List.getElem?_append_left hlt, hb], hcode, ht⟩
  refine ⟨d', hok, ⟨_, _, _, hinv⟩, extends_of_blocks ?_⟩
  intro i b hb _
  rw [load_blocks hfile] at hb
  obtain ⟨hlt, -⟩ := List.getElem?_eq_some_iff.mp hb
  exact ⟨b, by rw [hblocks, List.getElem?_append_left hlt, hb], rfl, List.prefix_rfl⟩

end

end Dict

end Okm.Series
