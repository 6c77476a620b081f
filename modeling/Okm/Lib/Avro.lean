import Okm.Lib.ZigZag

/-!
# Reading Avro

A reader for Avro data, driven by the schema it was written with: zig-zag numbers,
length-prefixed strings and byte strings, unions with `null`, records as their fields one
after another, arrays and maps in counted blocks, and the object container file around them.

The rules below say for each type which bytes a value is read from, so that a writer that
never heard of schemas is checked against one by composing them. A number is read only where
its type can hold it: an `int` has 32 bits, and one that has more is refused.
-/

namespace Okm.Lib.Avro

mutual

/-- A type of data. -/
inductive Schema where
  | int
  | long
  | bool
  | str
  | bytes
  /-- A union of `null` and a type. -/
  | opt (inner : Schema)
  | record (fields : Fields)
  | array (items : Schema)

/-- The fields of a record, in order. -/
inductive Fields where
  | nil
  | cons (name : String) (type : Schema) (rest : Fields)

end

/-- Data. The present branch of a union is the value itself. -/
inductive Value where
  | null
  | int (n : Int)
  | long (n : Int)
  | bool (b : Bool)
  | str (s : String)
  | bytes (b : List UInt8)
  | record (fields : List (String × Value))
  | array (items : List Value)

/-! ## The parts of values -/

/-- A number of at most 64 bits. -/
def readLong (bs : List UInt8) : Option (Int × List UInt8) :=
  match getGroups bs with
  | none => none
  | some (n, rest) => if n < 2 ^ 64 then some (zag n, rest) else none

/-- A number of at most 32 bits. -/
def readInt (bs : List UInt8) : Option (Int × List UInt8) :=
  match readLong bs with
  | none => none
  | some (n, rest) => if -2 ^ 31 ≤ n ∧ n < 2 ^ 31 then some (n, rest) else none

/-- A length and that many bytes. -/
def readBytes (bs : List UInt8) : Option (List UInt8 × List UInt8) :=
  match readLong bs with
  | none => none
  | some (n, rest) => if 0 ≤ n then takeExact n.toNat rest else none

/-- A byte string that is UTF-8. -/
def readStr (bs : List UInt8) : Option (String × List UInt8) :=
  match readBytes bs with
  | none => none
  | some (raw, rest) => (String.fromUTF8? ⟨raw.toArray⟩).map fun s => (s, rest)

def readBool : List UInt8 → Option (Bool × List UInt8)
  | [] => none
  | b :: rest => if b = 0 then some (false, rest) else if b = 1 then some (true, rest) else none

/-- So many items. -/
def readMany {α : Type} (get : List UInt8 → Option (α × List UInt8)) :
    Nat → List UInt8 → Option (List α × List UInt8)
  | 0, bs => some ([], bs)
  | n + 1, bs =>
    match get bs with
    | none => none
    | some (a, rest) => (readMany get n rest).map fun (as, rest) => (a :: as, rest)

/-- Blocks of items up to an empty one: a count, and a negative count with the block's size
behind it. Each block takes at least one byte. -/
def readBlocks {α : Type} (get : List UInt8 → Option (α × List UInt8)) :
    Nat → List UInt8 → Option (List α × List UInt8)
  | 0, _ => none
  | rounds + 1, bs =>
    match readLong bs with
    | none => none
    | some (count, rest) =>
      if count = 0 then some ([], rest)
      else
        let sized := if count < 0 then (readLong rest).map Prod.snd else some rest
        match sized with
        | none => none
        | some rest =>
          match readMany get count.natAbs rest with
          | none => none
          | some (as, rest) =>
            (readBlocks get rounds rest).map fun (more, rest) => (as ++ more, rest)

/-! ## Values -/

mutual

/-- A value of the type off the front. -/
def decode : Schema → List UInt8 → Option (Value × List UInt8)
  | .int, bs => (readInt bs).map fun p => (.int p.1, p.2)
  | .long, bs => (readLong bs).map fun p => (.long p.1, p.2)
  | .bool, bs => (readBool bs).map fun p => (.bool p.1, p.2)
  | .str, bs => (readStr bs).map fun p => (.str p.1, p.2)
  | .bytes, bs => (readBytes bs).map fun p => (.bytes p.1, p.2)
  | .opt inner, bs => (readLong bs).bind fun branch =>
    if branch.1 = 0 then some (.null, branch.2)
    else if branch.1 = 1 then decode inner branch.2 else none
  | .record fields, bs => (decodeFields fields bs).map fun p => (.record p.1, p.2)
  | .array items, bs =>
    (readBlocks (fun bs => decode items bs) bs.length bs).map fun p => (.array p.1, p.2)

/-- The fields of a record, one after another. -/
def decodeFields : Fields → List UInt8 → Option (List (String × Value) × List UInt8)
  | .nil, bs => some ([], bs)
  | .cons name type fields, bs => (decode type bs).bind fun v =>
    (decodeFields fields v.2).map fun fs => ((name, v.1) :: fs.1, fs.2)

end

theorem decode_int_eq (bs : List UInt8) :
    decode .int bs = (readInt bs).map fun p => (.int p.1, p.2) := rfl

theorem decode_long_eq (bs : List UInt8) :
    decode .long bs = (readLong bs).map fun p => (.long p.1, p.2) := rfl

theorem decode_str_eq (bs : List UInt8) :
    decode .str bs = (readStr bs).map fun p => (.str p.1, p.2) := rfl

theorem decode_opt_eq (inner : Schema) (bs : List UInt8) :
    decode (.opt inner) bs = (readLong bs).bind fun branch =>
      if branch.1 = 0 then some (.null, branch.2)
      else if branch.1 = 1 then decode inner branch.2 else none := rfl

theorem decode_record_eq (fields : Fields) (bs : List UInt8) :
    decode (.record fields) bs = (decodeFields fields bs).map fun p => (.record p.1, p.2) := rfl

theorem decodeFields_nil_eq (bs : List UInt8) : decodeFields .nil bs = some ([], bs) := rfl

theorem decodeFields_cons_eq (name : String) (type : Schema) (fields : Fields) (bs : List UInt8) :
    decodeFields (.cons name type fields) bs = (decode type bs).bind fun v =>
      (decodeFields fields v.2).map fun fs => ((name, v.1) :: fs.1, fs.2) := rfl

/-! ## Object container files -/

/-- What a file holds: its metadata and its rows. -/
structure File where
  metadata : List (String × List UInt8)
  rows : List Value

def magic : List UInt8 := [0x4F, 0x62, 0x6A, 0x01]

def readPair (bs : List UInt8) : Option ((String × List UInt8) × List UInt8) :=
  match readStr bs with
  | none => none
  | some (key, rest) => (readBytes rest).map fun (value, rest) => ((key, value), rest)

/-- Not compressed: what is not said to be stored otherwise is stored as it is. -/
def stored (metadata : List (String × List UInt8)) : Bool :=
  metadata.all fun p => p.1 ≠ "avro.codec" ∨ p.2 = [0x6E, 0x75, 0x6C, 0x6C]

/-- The rows of a block, which they fill. -/
def readBlock (schema : Schema) (count : Nat) (block : List UInt8) : Option (List Value) :=
  match readMany (decode schema) count block with
  | some (rows, []) => some rows
  | _ => none

/-- The blocks of a file up to its end: a count of rows, their size, the rows and the marker. -/
def readRows (schema : Schema) (sync : List UInt8) : Nat → List UInt8 → Option (List Value)
  | 0, bs => if bs = [] then some [] else none
  | rounds + 1, bs =>
    if bs = [] then some []
    else
      match readLong bs with
      | none => none
      | some (count, rest) =>
        match readBytes rest with
        | none => none
        | some (block, rest) =>
          match takeExact 16 rest with
          | none => none
          | some (marker, rest) =>
            if marker = sync ∧ 0 ≤ count then
              match readBlock schema count.toNat block with
              | none => none
              | some rows => (readRows schema sync rounds rest).map (rows ++ ·)
            else none

/-- A file of rows of one type. -/
def readFile (schema : Schema) (bs : List UInt8) : Option File :=
  match takeExact 4 bs with
  | none => none
  | some (front, rest) =>
    if front = magic then
      match readBlocks readPair rest.length rest with
      | none => none
      | some (metadata, rest) =>
        match takeExact 16 rest with
        | none => none
        | some (sync, rest) =>
          if stored metadata then
            (readRows schema sync rest.length rest).map fun rows => ⟨metadata, rows⟩
          else none
    else none

/-! ## What numbers and strings are read from -/

/-- A number in zig-zag groups. -/
def putLong (n : Int) : List UInt8 := putGroups (zig n)

/-- A length and the bytes. -/
def putBytes (raw : List UInt8) : List UInt8 := putLong raw.length ++ raw

theorem putLong_ne_nil (n : Int) : putLong n ≠ [] := putGroups_ne_nil _

theorem reads_long {n : Int} (hle : -2 ^ 63 ≤ n) (hlt : n < 2 ^ 63) :
    Reads readLong (putLong n) n := by
  intro rest
  have hzig : zig n < 2 ^ 64 := by
    unfold zig
    split <;> omega
  rw [readLong, putLong, reads_putGroups (zig n) rest]
  dsimp only
  rw [if_pos hzig, zag_zig]

theorem reads_length {n : Nat} (h : n < 2 ^ 63) : Reads readLong (putLong n) n :=
  reads_long (by omega) (by omega)

/-- An `int` is read exactly when it has 32 bits. -/
theorem readInt_putLong {n : Int} (hle : -2 ^ 63 ≤ n) (hlt : n < 2 ^ 63) (rest : List UInt8) :
    readInt (putLong n ++ rest) = if -2 ^ 31 ≤ n ∧ n < 2 ^ 31 then some (n, rest) else none := by
  rw [readInt, reads_long hle hlt rest]

theorem reads_int {n : Int} (hle : -2 ^ 31 ≤ n) (hlt : n < 2 ^ 31) : Reads readInt (putLong n) n := by
  intro rest
  rw [readInt_putLong (by omega) (by omega), if_pos ⟨hle, hlt⟩]

theorem reads_bytes {raw : List UInt8} (h : raw.length < 2 ^ 63) :
    Reads readBytes (putBytes raw) raw := by
  intro rest
  rw [readBytes, putBytes, List.append_assoc, reads_length h (raw ++ rest)]
  dsimp only
  rw [if_pos (Int.natCast_nonneg _), Int.toNat_natCast, takeExact_append rfl]

theorem reads_str {raw : List UInt8} {s : String} (h : raw.length < 2 ^ 63)
    (hutf8 : String.fromUTF8? ⟨raw.toArray⟩ = some s) : Reads readStr (putBytes raw) s := by
  intro rest
  rw [readStr, reads_bytes h rest]
  dsimp only
  rw [hutf8]
  rfl

/-! ## What values are read from -/

section Rules

variable {type : Schema} {fields : Fields} {name : String} {chunk more : List UInt8} {v : Value}
  {vs : List (String × Value)}

theorem decode_int {n : Int} (h : Reads readInt chunk n) : Reads (decode .int) chunk (.int n) := by
  intro rest
  rw [decode_int_eq, h rest]
  rfl

theorem decode_long {n : Int} (h : Reads readLong chunk n) :
    Reads (decode .long) chunk (.long n) := by
  intro rest
  rw [decode_long_eq, h rest]
  rfl

theorem decode_str {s : String} (h : Reads readStr chunk s) : Reads (decode .str) chunk (.str s) := by
  intro rest
  rw [decode_str_eq, h rest]
  rfl

/-- The first branch of a union: nothing. -/
theorem decode_absent : Reads (decode (.opt type)) (putLong 0) .null := by
  intro rest
  have hbranch : Reads readLong (putLong 0) 0 := reads_long (by omega) (by omega)
  rw [decode_opt_eq, hbranch rest]
  rfl

/-- The second: a value of the type. -/
theorem decode_present (h : Reads (decode type) chunk v) :
    Reads (decode (.opt type)) (putLong 1 ++ chunk) v := by
  intro rest
  have hbranch : Reads readLong (putLong 1) 1 := reads_long (by omega) (by omega)
  rw [decode_opt_eq, List.append_assoc, hbranch (chunk ++ rest)]
  exact h rest

theorem decode_record (h : Reads (decodeFields fields) chunk vs) :
    Reads (decode (.record fields)) chunk (.record vs) := by
  intro rest
  rw [decode_record_eq, h rest]
  rfl

/-- An empty record takes no bytes. -/
theorem decode_empty : Reads (decode (.record .nil)) [] (.record []) := by
  intro rest
  rw [decode_record_eq, decodeFields_nil_eq]
  rfl

/-- A field that is read leaves the rest to the fields behind it. -/
theorem decodeFields_append (h : Reads (decode type) chunk v) (bs : List UInt8) :
    decodeFields (.cons name type fields) (chunk ++ bs)
      = (decodeFields fields bs).map fun fs => ((name, v) :: fs.1, fs.2) := by
  rw [decodeFields_cons_eq, h bs]
  rfl

theorem decodeFields_cons (h : Reads (decode type) chunk v) (hmore : Reads (decodeFields fields) more vs) :
    Reads (decodeFields (.cons name type fields)) (chunk ++ more) ((name, v) :: vs) := by
  intro rest
  rw [List.append_assoc, decodeFields_append h, hmore rest]
  rfl

/-- A field without bytes. -/
theorem decodeFields_skip (h : Reads (decode type) [] v) (hmore : Reads (decodeFields fields) more vs) :
    Reads (decodeFields (.cons name type fields)) more ((name, v) :: vs) := by
  have hcons : Reads (decodeFields (.cons name type fields)) ([] ++ more) _ :=
    decodeFields_cons h hmore
  rwa [List.nil_append] at hcons

/-- The last field. -/
theorem decodeFields_last (h : Reads (decode type) chunk v) :
    Reads (decodeFields (.cons name type .nil)) chunk [(name, v)] := by
  intro rest
  rw [decodeFields_append h, decodeFields_nil_eq]
  rfl

/-- A field that is refused, -/
theorem decodeFields_refused {bs : List UInt8} (h : decode type bs = none) :
    decodeFields (.cons name type fields) bs = none := by
  rw [decodeFields_cons_eq, h]
  rfl

/-- and the fields before it. -/
theorem decodeFields_refused_later {bs : List UInt8} (h : Reads (decode type) chunk v)
    (hmore : decodeFields fields bs = none) :
    decodeFields (.cons name type fields) (chunk ++ bs) = none := by
  rw [decodeFields_append h, hmore]
  rfl

theorem decode_record_refused {bs : List UInt8} (h : decodeFields fields bs = none) :
    decode (.record fields) bs = none := by
  rw [decode_record_eq, h]
  rfl

end Rules

/-! ## What files are read from -/

section Files

variable {ι α : Type} {get : List UInt8 → Option (α × List UInt8)} {put : ι → List UInt8}
  {val : ι → α} {xs : List ι}

theorem reads_many (h : ∀ x ∈ xs, Reads get (put x) (val x)) :
    Reads (readMany get xs.length) (xs.flatMap put) (xs.map val) := by
  intro rest
  induction xs with
  | nil => rfl
  | cons x xs ih =>
    rw [List.flatMap_cons, List.append_assoc, List.length_cons, readMany,
      h x List.mem_cons_self (xs.flatMap put ++ rest)]
    dsimp only
    rw [ih fun y hy => h y (List.mem_cons_of_mem _ hy)]
    rfl

/-- One block of items and the empty one behind it. -/
theorem reads_blocks (h : ∀ x ∈ xs, Reads get (put x) (val x)) (hne : xs ≠ [])
    (hlen : xs.length < 2 ^ 63) {rounds : Nat} (hrounds : 2 ≤ rounds) :
    Reads (readBlocks get rounds) (putLong xs.length ++ (xs.flatMap put ++ putLong 0))
      (xs.map val) := by
  intro rest
  obtain ⟨rounds, rfl⟩ := Nat.exists_eq_add_of_le' hrounds
  have hpos := List.length_pos_iff.mpr hne
  have hend : Reads readLong (putLong 0) 0 := reads_long (by omega) (by omega)
  have hlast : readBlocks get (rounds + 1) (putLong 0 ++ rest) = some ([], rest) := by
    rw [readBlocks, hend rest]
    rfl
  rw [List.append_assoc, List.append_assoc, readBlocks,
    reads_length hlen (xs.flatMap put ++ (putLong 0 ++ rest))]
  dsimp only
  rw [if_neg (by omega), if_neg (by omega)]
  dsimp only
  rw [Int.natAbs_natCast, reads_many h (putLong 0 ++ rest)]
  dsimp only
  rw [hlast, Option.map_some, List.append_nil]

/-- The metadata of a file: its pairs in one block. -/
def putPairs (spell : String → List UInt8) (pairs : List (String × List UInt8)) : List UInt8 :=
  putLong pairs.length ++ (pairs.flatMap (fun p => putBytes (spell p.1) ++ putBytes p.2) ++ putLong 0)

/-- A file with one block of rows. -/
def putFile (spell : String → List UInt8) (metadata : List (String × List UInt8))
    (sync body : List UInt8) (count : Nat) : List UInt8 :=
  magic ++ (putPairs spell metadata ++ (sync ++ (putLong count ++ (putBytes body ++ sync))))

variable {spell : String → List UInt8} {metadata : List (String × List UInt8)}
  {sync body : List UInt8} {count rounds : Nat} {schema : Schema}

theorem reads_pairs (hspell : ∀ s, String.fromUTF8? ⟨(spell s).toArray⟩ = some s)
    (hlen : ∀ p ∈ metadata, (spell p.1).length < 2 ^ 63 ∧ p.2.length < 2 ^ 63)
    (hne : metadata ≠ []) (hcount : metadata.length < 2 ^ 63) (hrounds : 2 ≤ rounds) :
    Reads (readBlocks readPair rounds) (putPairs spell metadata) metadata := by
  have hpair : ∀ p ∈ metadata, Reads readPair (putBytes (spell p.1) ++ putBytes p.2) (id p) := by
    intro p hp rest
    have hkey := reads_str (hlen p hp).1 (hspell p.1)
    rw [List.append_assoc, readPair, hkey (putBytes p.2 ++ rest)]
    dsimp only
    rw [reads_bytes (hlen p hp).2 rest]
    rfl
  have hblocks := reads_blocks hpair hne hcount hrounds
  rwa [List.map_id] at hblocks

/-- One block and the end of the file. -/
theorem readRows_one (hsync : sync.length = 16) (hbody : body.length < 2 ^ 63)
    (hcount : count < 2 ^ 63) (hrounds : 1 ≤ rounds) :
    readRows schema sync rounds (putLong count ++ (putBytes body ++ sync))
      = readBlock schema count body := by
  obtain ⟨rounds, rfl⟩ := Nat.exists_eq_add_of_le' hrounds
  have hmore : putLong count ++ (putBytes body ++ sync) ≠ [] :=
    fun h => putLong_ne_nil _ (List.append_eq_nil_iff.mp h).1
  have hmarker := takeExact_append hsync []
  have hend : ∀ rounds, readRows schema sync rounds [] = some [] := by
    intro rounds
    cases rounds with
    | zero => rfl
    | succ rounds => rfl
  rw [List.append_nil] at hmarker
  rw [readRows, if_neg hmore, reads_length hcount (putBytes body ++ sync)]
  dsimp only
  rw [reads_bytes hbody sync]
  dsimp only
  rw [hmarker]
  dsimp only
  rw [if_pos ⟨rfl, Int.natCast_nonneg count⟩, Int.toNat_natCast]
  cases readBlock schema count body with
  | none => rfl
  | some rows =>
    dsimp only
    rw [hend, Option.map_some, List.append_nil]

/-- **A file with one block is read as that block's rows.** -/
theorem readFile_putFile (hspell : ∀ s, String.fromUTF8? ⟨(spell s).toArray⟩ = some s)
    (hlen : ∀ p ∈ metadata, (spell p.1).length < 2 ^ 63 ∧ p.2.length < 2 ^ 63)
    (hne : metadata ≠ []) (hpairs : metadata.length < 2 ^ 63) (hstored : stored metadata = true)
    (hsync : sync.length = 16) (hbody : body.length < 2 ^ 63) (hcount : count < 2 ^ 63) :
    readFile schema (putFile spell metadata sync body count)
      = (readBlock schema count body).map fun rows => ⟨metadata, rows⟩ := by
  have hlong : ∀ n, 1 ≤ (putLong n).length := fun n => List.length_pos_iff.mpr (putLong_ne_nil n)
  have hhead : 2 ≤ (putPairs spell metadata).length := by
    have hfirst := hlong metadata.length
    have hlast := hlong 0
    simp only [putPairs, List.length_append]
    omega
  have hrows : 1 ≤ (putLong count ++ (putBytes body ++ sync)).length := by
    have hfirst := hlong count
    rw [List.length_append]
    omega
  have hmagic : magic.length = 4 := rfl
  rw [readFile, putFile, takeExact_append hmagic]
  dsimp only
  rw [if_pos rfl, reads_pairs hspell hlen hne hpairs (by rw [List.length_append]; omega)]
  dsimp only
  rw [takeExact_append hsync]
  dsimp only
  rw [if_pos hstored, readRows_one hsync hbody hcount hrows]

/-- Rows one after another fill their block. -/
theorem readBlock_flatMap {put : ι → List UInt8} {val : ι → Value} {xs : List ι}
    (h : ∀ x ∈ xs, Reads (decode schema) (put x) (val x)) :
    readBlock schema xs.length (xs.flatMap put) = some (xs.map val) := by
  have hread := reads_many h []
  rw [List.append_nil] at hread
  rw [readBlock, hread]

theorem readBlock_refused {block : List UInt8} (h : decode schema block = none) (n : Nat) :
    readBlock schema (n + 1) block = none := by
  rw [readBlock, readMany, h]

end Files

end Okm.Lib.Avro
