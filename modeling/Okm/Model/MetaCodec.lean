import Okm.Model.Lengths
import Okm.Model.TableMeta

/-!
# The bytes of the meta row

`TableMeta::encode` and `decode` in either build, against each other. A row is written as a
count and its entries, and comes back as long as the count fits its two bytes and no name and
no value has a length of width eight: those are the rows that round-trip, and no others
(`returns_iff`).

The other way round a reader takes any spelling of a length. `take_len` reads a small number
from more bytes than `put_len` gives it, so bytes no writer wrote are taken for a row; which
ones do come back is a matter of their lengths alone (`faithful_iff`).
-/

namespace Okm.Model.TableMeta

open Lib

/-! ## Either build -/

/-- The loop of `encode`. -/
def framesIn (checked : Bool) : List (String × Bytes) → Except Panic Bytes
  | [] => .ok []
  | e :: es => do
    let nameLen ← putLenIn checked (strBytes e.1).length
    let valueLen ← putLenIn checked e.2.length
    let rest ← framesIn checked es
    .ok (nameLen ++ (strBytes e.1 ++ (valueLen ++ e.2)) ++ rest)

/-- `encode`. -/
def encodeIn (checked : Bool) (row : TableMeta) : Except Panic Bytes := do
  let body ← framesIn checked row.entries.entries
  .ok (beBytes 2 row.entries.entries.length ++ body)

/-- A length and that many bytes behind it, and what is left. -/
def takeFramedIn (checked : Bool) (bytes : Bytes) : Except Panic (Bytes × Bytes) := do
  let (len, n) ← takeLenIn checked bytes
  if (bytes.drop n).length < len then .error .expect
  else .ok ((bytes.drop n).take len, (bytes.drop n).drop len)

/-- The loop of `decode`. -/
def decodeEntriesIn (checked : Bool) :
    Nat → Bytes → SortedMap String Bytes → Except Panic TableMeta
  | 0, rest, entries => if rest = [] then .ok ⟨entries⟩ else .error .expect
  | n + 1, rest, entries => do
    let (raw, rest) ← takeFramedIn checked rest
    match strOfBytes raw with
    | none => .error .expect
    | some name =>
      let (value, rest) ← takeFramedIn checked rest
      if (entries.get name).isSome then .error .expect
      else decodeEntriesIn checked n rest (entries.insert name value)

/-- `decode`. -/
def decodeIn (checked : Bool) (bytes : Bytes) : Except Panic TableMeta :=
  if bytes.length < 2 then .error .expect
  else decodeEntriesIn checked (beNat (bytes.take 2)) (bytes.drop 2) SortedMap.empty

/-- A row whose bytes a buffer can hold. -/
structure Held extends TableMeta where
  held : toTableMeta.encode.length < 2 ^ 63

/-- The row comes back. -/
def Returns (checked : Bool) (row : TableMeta) : Prop :=
  ∃ bytes, row.encodeIn checked = .ok bytes ∧ decodeIn checked bytes = .ok row

/-- The count fits its bytes, and no length is of width eight. -/
structure Countable (row : TableMeta) : Prop where
  count : row.entries.entries.length < 2 ^ 16
  widths : ∀ e ∈ row.entries.entries, widthOf (strBytes e.1).length ≠ 8 ∧ widthOf e.2.length ≠ 8

/-! ## Entries as bytes spell them -/

/-- An entry with the bytes its lengths are spelled in. -/
structure Entry where
  nameLen : Bytes
  name : String
  valueLen : Bytes
  value : Bytes

namespace Entry

def bytes (e : Entry) : Bytes := e.nameLen ++ (strBytes e.name ++ (e.valueLen ++ e.value))

/-- `take_len` reads both lengths as what they are. -/
structure Read (checked : Bool) (e : Entry) : Prop where
  name : takeLenIn checked e.nameLen = .ok ((strBytes e.name).length, e.nameLen.length)
  value : takeLenIn checked e.valueLen = .ok (e.value.length, e.valueLen.length)

/-- Both lengths are spelled as `put_len` spells them. -/
structure Shortest (e : Entry) : Prop where
  name : e.nameLen = putLen (strBytes e.name).length
  value : e.valueLen = putLen e.value.length

def pair (e : Entry) : String × Bytes := (e.name, e.value)

end Entry

/-- The bytes are these entries behind their count, with the names in increasing order. -/
structure InOrder (checked : Bool) (bytes : Bytes) (es : List Entry) : Prop where
  count : es.length < 2 ^ 16
  read : ∀ e ∈ es, e.Read checked
  ordered : es.Pairwise fun e f => e.name < f.name
  spelled : bytes = beBytes 2 es.length ++ es.flatMap Entry.bytes

/-- **What `decode` promises for a byte string**: it aborts, or it answers a row whose bytes
these are, if their names are in order. -/
def Faithful (checked : Bool) (bytes : Bytes) : Prop :=
  ∀ row es, decodeIn checked bytes = .ok row → InOrder checked bytes es →
    row.encodeIn checked = .ok bytes

/-! ## The two builds and the one -/

variable {checked : Bool}

theorem frame_ne_nil (e : String × Bytes) : frame e ≠ [] := by
  intro h
  have hput : putLen (strBytes e.1).length = [] := (List.append_eq_nil_iff.mp h).1
  unfold putLen at hput
  dsimp only at hput
  split at hput
  · cases hput
  · cases hput

/-- What is written is written the same in both builds. -/
theorem framesIn_ok {es : List (String × Bytes)} {bytes : Bytes}
    (h : framesIn checked es = .ok bytes) : bytes = es.flatMap frame := by
  induction es generalizing bytes with
  | nil => exact (Except.ok.inj h).symm
  | cons e es ih =>
    obtain ⟨nameLen, hname, h⟩ := bind_eq_ok.mp h
    obtain ⟨valueLen, hvalue, h⟩ := bind_eq_ok.mp h
    obtain ⟨rest, hrest, h⟩ := bind_eq_ok.mp h
    rw [← Except.ok.inj h, putLenIn_ok hname, putLenIn_ok hvalue, ih hrest]
    rfl

theorem framesIn_eq {es : List (String × Bytes)}
    (h : ∀ e ∈ es, widthOf (strBytes e.1).length ≠ 8 ∧ widthOf e.2.length ≠ 8) :
    framesIn checked es = .ok (es.flatMap frame) := by
  induction es with
  | nil => rfl
  | cons e es ih =>
    obtain ⟨hname, hvalue⟩ := h e List.mem_cons_self
    refine bind_eq_ok.mpr ⟨_, putLenIn_eq hname, ?_⟩
    refine bind_eq_ok.mpr ⟨_, putLenIn_eq hvalue, ?_⟩
    exact bind_eq_ok.mpr ⟨_, ih fun f hf => h f (List.mem_cons_of_mem _ hf), rfl⟩

theorem encodeIn_ok {row : TableMeta} {bytes : Bytes} (h : row.encodeIn checked = .ok bytes) :
    bytes = row.encode := by
  obtain ⟨body, hbody, h⟩ := bind_eq_ok.mp h
  rw [← Except.ok.inj h, framesIn_ok hbody]
  rfl

/-- In a build without the checks these are the codec's own functions. -/
theorem takeFramedIn_false (bytes : Bytes) : takeFramedIn false bytes = takeFramed bytes := by
  unfold takeFramedIn takeFramed takeLenIn
  rw [if_neg (by decide)]
  cases takeLen bytes with
  | none => rfl
  | some answer => rfl

theorem decodeEntriesIn_false (n : Nat) (rest : Bytes) (entries : SortedMap String Bytes) :
    decodeEntriesIn false n rest entries = decodeEntries n rest entries := by
  induction n generalizing rest entries with
  | zero => rfl
  | succ n ih =>
    unfold decodeEntriesIn decodeEntries
    rw [takeFramedIn_false]
    refine bind_congr fun framed => ?_
    obtain ⟨raw, rest⟩ := framed
    cases hname : strOfBytes raw with
    | none => simp only [hname]
    | some name =>
      simp only [hname, takeFramedIn_false, ih]

theorem decodeIn_false (bytes : Bytes) : decodeIn false bytes = decode bytes := by
  unfold decodeIn decode
  rw [decodeEntriesIn_false]

/-! ## One length and its bytes -/

theorem takeFramedIn_eq_ok {bytes raw rest : Bytes} :
    takeFramedIn checked bytes = .ok (raw, rest) ↔
      ∃ len, takeLenIn checked len = .ok (raw.length, len.length) ∧ bytes = len ++ (raw ++ rest) := by
  constructor
  · intro h
    obtain ⟨⟨n, took⟩, htake, h⟩ := bind_eq_ok.mp h
    obtain ⟨⟨-, hle, -⟩, -⟩ := takeLen_front (takeLen_of_in htake)
    have hfront := takeLenIn_front htake []
    dsimp only at h
    split at h
    · cases h
    · rename_i hlong
      obtain ⟨rfl, rfl⟩ := Prod.mk.inj (Except.ok.inj h)
      refine ⟨bytes.take took, ?_, ?_⟩
      · rw [List.append_nil] at hfront
        rw [hfront, List.length_take_of_le hle, List.length_take_of_le (by omega)]
      · rw [List.take_append_drop, List.take_append_drop]
  · intro h
    obtain ⟨len, htake, rfl⟩ := h
    have hread := takeLenIn_front htake (raw ++ rest)
    rw [List.take_length] at hread
    have hlong : ¬ (raw ++ rest).length < raw.length := by
      rw [List.length_append]
      omega
    refine bind_eq_ok.mpr ⟨_, hread, ?_⟩
    dsimp only
    rw [List.drop_left, if_neg hlong, List.take_left, List.drop_left]

/-- A length as `put_len` spells it, where no more is left than a buffer holds. -/
theorem takeFramedIn_putLen {n : Nat} {more raw rest : Bytes} (hn : n < 2 ^ 64)
    (hmore : (putLen n ++ more).length < 2 ^ 63)
    (h : takeFramedIn checked (putLen n ++ more) = .ok (raw, rest)) :
    widthOf n ≠ 8 ∧ raw = more.take n ∧ rest = more.drop n := by
  obtain ⟨⟨m, took⟩, htake, h⟩ := bind_eq_ok.mp h
  dsimp only at h
  split at h
  · cases h
  · rename_i hlong
    rw [List.length_drop] at hlong
    obtain ⟨h8, rfl, rfl⟩ := width_of_takeLen hn (takeLen_of_in htake) (by omega)
    rw [List.drop_left] at h
    obtain ⟨rfl, rfl⟩ := Prod.mk.inj (Except.ok.inj h)
    exact ⟨h8, rfl, rfl⟩

/-! ## Rows that come back -/

/-- **The loop reads as many entries as were written**, or not to its end. -/
theorem countable_of_decode {es : List (String × Bytes)} {n : Nat}
    {entries : SortedMap String Bytes} {row : TableMeta}
    (hheld : (es.flatMap frame).length < 2 ^ 63)
    (h : decodeEntriesIn checked n (es.flatMap frame) entries = .ok row) :
    n = es.length ∧ ∀ e ∈ es, widthOf (strBytes e.1).length ≠ 8 ∧ widthOf e.2.length ≠ 8 := by
  induction es generalizing n entries with
  | nil =>
    cases n with
    | zero => exact ⟨rfl, fun e he => nomatch he⟩
    | succ n =>
      obtain ⟨⟨raw, rest⟩, hname, -⟩ := bind_eq_ok.mp h
      -- no bytes left, but an entry announced
      obtain ⟨len, htake, hnil⟩ := takeFramedIn_eq_ok.mp hname
      obtain ⟨⟨hone, hle, -⟩, -⟩ := takeLen_front (takeLen_of_in htake)
      rw [(List.append_eq_nil_iff.mp hnil.symm).1, List.length_nil] at hle hone
      omega
  | cons e es ih =>
    obtain ⟨name, value⟩ := e
    have hframes : ((name, value) :: es).flatMap frame = putLen (strBytes name).length
        ++ (strBytes name ++ (putLen value.length ++ (value ++ es.flatMap frame))) := by
      simp [frame]
    rw [hframes] at h hheld
    have hlengths := hheld
    simp only [List.length_append] at hlengths
    cases n with
    | zero =>
      rw [decodeEntriesIn, if_neg] at h
      · cases h
      · -- an entry left, but none announced
        intro hnil
        have hframe : frame (name, value) = [] := by
          rw [← hframes, List.flatMap_cons] at hnil
          exact (List.append_eq_nil_iff.mp hnil).1
        exact frame_ne_nil _ hframe
    | succ n =>
      obtain ⟨⟨raw, rest⟩, hname, h⟩ := bind_eq_ok.mp h
      -- name and value, each read back from its own length
      obtain ⟨hname8, rfl, rfl⟩ := takeFramedIn_putLen (by omega) hheld hname
      dsimp only at h
      rw [List.take_left, List.drop_left, strOfBytes_strBytes] at h
      dsimp only at h
      obtain ⟨⟨raw, rest⟩, hvalue, h⟩ := bind_eq_ok.mp h
      obtain ⟨hvalue8, rfl, rfl⟩ := takeFramedIn_putLen (by omega)
        (by simp only [List.length_append]; omega) hvalue
      dsimp only at h
      rw [List.drop_left] at h
      split at h
      · cases h
      · obtain ⟨hn, hrest⟩ := ih (by omega) h
        refine ⟨by rw [hn, List.length_cons], ?_⟩
        intro f hf
        rcases List.mem_cons.mp hf with rfl | hf
        · exact ⟨hname8, hvalue8⟩
        · exact hrest f hf

/-! ## Bytes that are taken for a row -/

/-- The entries of a map, entered one by one. -/
def collect (es : List Entry) (entries : SortedMap String Bytes) : SortedMap String Bytes :=
  es.foldl (fun m e => m.insert e.name e.value) entries

/-- A name above all that is there goes to the end, and what is above it is above that too. -/
theorem insert_above {e : Entry} {es : List Entry} {entries : SortedMap String Bytes}
    (habove : ∀ f ∈ e :: es, ∀ p ∈ entries.entries, p.1 < f.name)
    (hfirst : ∀ f ∈ es, e.name < f.name) :
    (entries.insert e.name e.value).entries = entries.entries ++ [e.pair] ∧
    ∀ f ∈ es, ∀ p ∈ (entries.insert e.name e.value).entries, p.1 < f.name := by
  have hgrown : (entries.insert e.name e.value).entries = entries.entries ++ [e.pair] :=
    SortedMap.entries_insert_last (habove e List.mem_cons_self) e.value
  refine ⟨hgrown, ?_⟩
  intro f hf p hp
  rw [hgrown] at hp
  rcases List.mem_append.mp hp with hp | hp
  · exact habove f (List.mem_cons_of_mem _ hf) p hp
  · rw [List.mem_singleton.mp hp]
    exact hfirst f hf

/-- Names in order above all that is there go to the end, one after another. -/
theorem entries_collect {es : List Entry} {entries : SortedMap String Bytes}
    (habove : ∀ e ∈ es, ∀ p ∈ entries.entries, p.1 < e.name)
    (hordered : es.Pairwise fun e f => e.name < f.name) :
    (collect es entries).entries = entries.entries ++ es.map Entry.pair := by
  induction es generalizing entries with
  | nil => exact (List.append_nil _).symm
  | cons e es ih =>
    obtain ⟨hfirst, hrest⟩ := List.pairwise_cons.mp hordered
    obtain ⟨hgrown, habove'⟩ := insert_above habove hfirst
    change (collect es (entries.insert e.name e.value)).entries = _
    rw [ih habove' hrest, hgrown, List.append_assoc]
    rfl

/-- **Entries in order are taken**, however their lengths are spelled. -/
theorem decodeEntriesIn_spelled {es : List Entry} {entries : SortedMap String Bytes}
    (hread : ∀ e ∈ es, e.Read checked) (habove : ∀ e ∈ es, ∀ p ∈ entries.entries, p.1 < e.name)
    (hordered : es.Pairwise fun e f => e.name < f.name) :
    decodeEntriesIn checked es.length (es.flatMap Entry.bytes) entries
      = .ok ⟨collect es entries⟩ := by
  induction es generalizing entries with
  | nil => rfl
  | cons e es ih =>
    obtain ⟨hfirst, hrest⟩ := List.pairwise_cons.mp hordered
    have hbytes : (e :: es).flatMap Entry.bytes
        = e.nameLen ++ (strBytes e.name ++ (e.valueLen ++ (e.value ++ es.flatMap Entry.bytes))) := by
      simp [Entry.bytes]
    have hfresh : entries.get e.name = none := by
      rw [SortedMap.get_eq_none_iff]
      intro v hmem
      exact absurd (habove e List.mem_cons_self _ hmem) (lt_irrefl _)
    obtain ⟨-, habove'⟩ := insert_above habove hfirst
    obtain ⟨hname, hvalue⟩ := hread e List.mem_cons_self
    have hloop := ih (fun f hf => hread f (List.mem_cons_of_mem _ hf)) habove' hrest
    rw [List.length_cons, hbytes]
    refine bind_eq_ok.mpr ⟨_, takeFramedIn_eq_ok.mpr ⟨e.nameLen, hname, rfl⟩, ?_⟩
    dsimp only
    rw [strOfBytes_strBytes]
    refine bind_eq_ok.mpr ⟨_, takeFramedIn_eq_ok.mpr ⟨e.valueLen, hvalue, rfl⟩, ?_⟩
    dsimp only
    rw [hfresh, if_neg (by decide), hloop]
    rfl

theorem InOrder.decodeIn {bytes : Bytes} {es : List Entry} (h : InOrder checked bytes es) :
    decodeIn checked bytes = .ok ⟨collect es SortedMap.empty⟩ := by
  have hlen : ¬ bytes.length < 2 := by
    rw [h.spelled, List.length_append, length_beBytes]
    omega
  have htake : bytes.take 2 = beBytes 2 es.length := by
    rw [h.spelled, List.take_left' (length_beBytes 2 _)]
  have hdrop : bytes.drop 2 = es.flatMap Entry.bytes := by
    rw [h.spelled, List.drop_left' (length_beBytes 2 _)]
  rw [TableMeta.decodeIn, if_neg hlen, htake, hdrop, beNat_beBytes h.count]
  exact decodeEntriesIn_spelled h.read (fun _ _ _ hp => nomatch hp) h.ordered

theorem InOrder.entries {bytes : Bytes} {es : List Entry} (h : InOrder checked bytes es) :
    (collect es SortedMap.empty).entries = es.map Entry.pair :=
  entries_collect (fun _ _ _ hp => nomatch hp) h.ordered

/-! ## The two directions -/

/-- An entry as it is written. -/
def entryOf (e : String × Bytes) : Entry :=
  ⟨putLen (strBytes e.1).length, e.1, putLen e.2.length, e.2⟩

theorem read_entryOf {e : String × Bytes}
    (hname : (strBytes e.1).length < 2 ^ 64 ∧ widthOf (strBytes e.1).length ≠ 8)
    (hvalue : e.2.length < 2 ^ 64 ∧ widthOf e.2.length ≠ 8) : (entryOf e).Read checked := by
  have hread : takeLenIn checked _ = _ := takeLenIn_putLen hname.1 hname.2 []
  have hread' : takeLenIn checked _ = _ := takeLenIn_putLen hvalue.1 hvalue.2 []
  rw [List.append_nil] at hread hread'
  exact ⟨hread, hread'⟩

/-- A name and a value are no longer than the bytes they are in. -/
theorem frame_bounds {es : List (String × Bytes)} {e : String × Bytes} (he : e ∈ es) :
    (strBytes e.1).length + e.2.length ≤ (es.flatMap frame).length := by
  obtain ⟨front, back, rfl⟩ := List.append_of_mem he
  simp only [List.flatMap_append, List.flatMap_cons, List.length_append, frame]
  omega

/-- The entries of a row, as they are written, are its entries in order. -/
theorem inOrder_encode {row : TableMeta} (hheld : row.encode.length < 2 ^ 63)
    (h : row.Countable) : InOrder checked row.encode (row.entries.entries.map entryOf) where
  count := by rw [List.length_map]; exact h.count
  read := by
    intro e he
    obtain ⟨p, hp, rfl⟩ := List.mem_map.mp he
    have hbounds := frame_bounds hp
    rw [encode, List.length_append] at hheld
    obtain ⟨hname, hvalue⟩ := h.widths p hp
    exact read_entryOf ⟨by omega, hname⟩ ⟨by omega, hvalue⟩
  ordered := List.pairwise_map.mpr row.entries.sorted
  spelled := by
    rw [List.length_map, List.flatMap_map]
    rfl

/-- **A row comes back exactly when it is countable.** -/
theorem returns_iff (row : Held) : Returns checked row.toTableMeta ↔ row.toTableMeta.Countable := by
  have hheld := row.held
  constructor
  · intro h
    obtain ⟨bytes, hencode, hdecode⟩ := h
    obtain rfl := encodeIn_ok hencode
    have hlen : ¬ row.encode.length < 2 := by
      rw [encode, List.length_append, length_beBytes]
      omega
    have htake : row.encode.take 2 = beBytes 2 row.entries.entries.length :=
      List.take_left' (length_beBytes 2 _)
    have hdrop : row.encode.drop 2 = row.entries.entries.flatMap frame :=
      List.drop_left' (length_beBytes 2 _)
    rw [decodeIn, if_neg hlen, htake, hdrop, beNat_beBytes_mod] at hdecode
    rw [encode, List.length_append] at hheld
    obtain ⟨hcount, hwidths⟩ := countable_of_decode (by omega) hdecode
    exact ⟨by omega, hwidths⟩
  · intro h
    have hin : InOrder checked row.encode _ := inOrder_encode hheld h
    refine ⟨row.encode, bind_eq_ok.mpr ⟨_, framesIn_eq h.widths, rfl⟩, ?_⟩
    have hpairs : (row.entries.entries.map entryOf).map Entry.pair = row.entries.entries := by
      rw [List.map_map]
      exact List.map_id _
    have hentries := hin.entries
    rw [hpairs] at hentries
    have hmap : collect (row.entries.entries.map entryOf) SortedMap.empty = row.entries :=
      SortedMap.ext_get fun k => congrArg (SortedMap.lookup k) hentries
    rw [hin.decodeIn, hmap]

/-- **Where the same bytes are spelled by entries and written for them, every length is the
shortest.** The reader takes both off the same front, so they end at the same place. -/
theorem shortest_of_frames {es : List Entry} (hread : ∀ e ∈ es, e.Read checked)
    (h : es.flatMap Entry.bytes = (es.map Entry.pair).flatMap frame) : ∀ e ∈ es, e.Shortest := by
  have hlength : ∀ {len raw more more' : Bytes},
      takeLenIn checked len = .ok (raw.length, len.length) →
      len ++ (raw ++ more) = putLen raw.length ++ (raw ++ more') →
      len = putLen raw.length ∧ more = more' := by
    intro len raw more more' htake heq
    obtain ⟨⟨-, -, hlt⟩, hfront⟩ := takeLen_front (takeLen_of_in htake)
    have hread := hfront (raw ++ more)
    rw [List.take_length, heq] at hread
    obtain ⟨-, -, hsame⟩ := width_of_takeLen hlt hread (by omega)
    obtain ⟨hlen, hmore⟩ := List.append_inj heq hsame
    exact ⟨hlen, List.append_cancel_left hmore⟩
  induction es with
  | nil => exact fun e he => nomatch he
  | cons e es ih =>
    obtain ⟨hname, hvalue⟩ := hread e List.mem_cons_self
    have heq : e.nameLen ++ (strBytes e.name ++ (e.valueLen ++ (e.value ++ es.flatMap Entry.bytes)))
        = putLen (strBytes e.name).length ++ (strBytes e.name ++ (putLen e.value.length
          ++ (e.value ++ (es.map Entry.pair).flatMap frame))) := by
      simpa [Entry.bytes, Entry.pair, frame] using h
    obtain ⟨hnameLen, heq⟩ := hlength hname heq
    obtain ⟨hvalueLen, heq⟩ := hlength hvalue heq
    intro f hf
    rcases List.mem_cons.mp hf with rfl | hf
    · exact ⟨hnameLen, hvalueLen⟩
    · exact ih (fun g hg => hread g (List.mem_cons_of_mem _ hg)) heq f hf

/-- **Bytes are those of the row they are taken for exactly when their lengths are the
shortest.** -/
theorem InOrder.encodeIn_iff {bytes : Bytes} {es : List Entry} (h : InOrder checked bytes es) :
    encodeIn checked ⟨collect es SortedMap.empty⟩ = .ok bytes ↔ ∀ e ∈ es, e.Shortest := by
  have hencode : encode ⟨collect es SortedMap.empty⟩
      = beBytes 2 es.length ++ (es.map Entry.pair).flatMap frame := by
    rw [encode, h.entries, List.length_map]
  constructor
  · intro hok
    have hsame := encodeIn_ok hok
    rw [hencode, h.spelled] at hsame
    exact shortest_of_frames h.read (List.append_cancel_left hsame)
  · intro hshort
    have hwidth : ∀ {len raw : Bytes}, takeLenIn checked len = .ok (raw.length, len.length) →
        len = putLen raw.length → widthOf raw.length ≠ 8 := by
      intro len raw htake heq
      obtain ⟨⟨-, -, hlt⟩, hfront⟩ := takeLen_front (takeLen_of_in htake)
      have hread := hfront []
      rw [List.take_length, heq] at hread
      exact (width_of_takeLen hlt hread (by omega)).1
    have hwidths : ∀ p ∈ es.map Entry.pair,
        widthOf (strBytes p.1).length ≠ 8 ∧ widthOf p.2.length ≠ 8 := by
      intro p hp
      obtain ⟨e, he, rfl⟩ := List.mem_map.mp hp
      exact ⟨hwidth (h.read e he).name (hshort e he).name,
        hwidth (h.read e he).value (hshort e he).value⟩
    have hbytes : (es.map Entry.pair).flatMap frame = es.flatMap Entry.bytes := by
      rw [List.flatMap_map]
      refine List.flatMap_congr fun e he => ?_
      rw [Entry.bytes, (hshort e he).name, (hshort e he).value]
      rfl
    refine bind_eq_ok.mpr ⟨(es.map Entry.pair).flatMap frame, ?_, ?_⟩
    · rw [h.entries]
      exact framesIn_eq hwidths
    · rw [h.entries, List.length_map, hbytes, ← h.spelled]

/-- **A byte string is faithful exactly when no length in it is longer than it need be.** -/
theorem faithful_iff (bytes : Bytes) :
    Faithful checked bytes ↔ ∀ es, InOrder checked bytes es → ∀ e ∈ es, e.Shortest := by
  constructor
  · intro h es hin
    exact hin.encodeIn_iff.mp (h _ es hin.decodeIn hin)
  · intro h row es hdecode hin
    rw [hin.decodeIn] at hdecode
    obtain rfl := Except.ok.inj hdecode
    exact hin.encodeIn_iff.mpr (h es hin)

/-- **The meta codec in either build**: which rows come back, and which bytes do. -/
theorem meta_codec (checked : Bool) :
    (∀ row : Held, Returns checked row.toTableMeta ↔ row.toTableMeta.Countable) ∧
    ∀ bytes, Faithful checked bytes ↔ ∀ es, InOrder checked bytes es → ∀ e ∈ es, e.Shortest :=
  ⟨returns_iff, faithful_iff⟩

/-- A row with both stamps. -/
def stampedRow : Held where
  toTableMeta := (stamped 3).set facesName [7, 0, 0, 9]
  held := by decide +kernel

/-- It comes back, in either build. -/
theorem meta_codec_stampedRow :
    Returns true stampedRow.toTableMeta ∧ Returns false stampedRow.toTableMeta :=
  have hfits : stampedRow.toTableMeta.Countable := ⟨by decide +kernel, by decide +kernel⟩
  ⟨((meta_codec true).1 stampedRow).mpr hfits, ((meta_codec false).1 stampedRow).mpr hfits⟩

/-- One name with its length in two bytes: it is taken for a row whose bytes are fewer. -/
def overlong : Entry := ⟨[0x80, 0x01], "a", [0x00], []⟩

theorem overlong_unfaithful (checked : Bool) :
    ¬ Faithful checked [0x00, 0x01, 0x80, 0x01, 0x61, 0x00] := by
  have hin : InOrder checked [0x00, 0x01, 0x80, 0x01, 0x61, 0x00] [overlong] := {
    count := by decide
    read := by
      intro e he
      obtain rfl := List.mem_singleton.mp he
      cases checked with
      | false => exact ⟨by decide +kernel, by decide +kernel⟩
      | true => exact ⟨by decide +kernel, by decide +kernel⟩
    ordered := List.pairwise_singleton _ _
    spelled := by decide +kernel }
  intro h
  have hshort := hin.encodeIn_iff.mp (h _ _ hin.decodeIn hin) overlong List.mem_cons_self
  exact absurd hshort.name (by decide +kernel)

theorem overlong_taken :
    ¬ Faithful true [0x00, 0x01, 0x80, 0x01, 0x61, 0x00] ∧
    ¬ Faithful false [0x00, 0x01, 0x80, 0x01, 0x61, 0x00] :=
  ⟨overlong_unfaithful true, overlong_unfaithful false⟩

end Okm.Model.TableMeta
