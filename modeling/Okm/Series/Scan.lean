import Okm.Series.Part

/-!
# What the bytes of a part hold

The records of a part, as they were written: a block walks out as its records
(`Deltas`), the blocks stand one after another behind the header, and the index
rows say where. Over that, what a scan answers: of the rows it passes, the ones it
wants, up to its limit (`fill`), whatever number of blocks they are spread over.
-/

namespace Okm.Series

open Lib Model

variable {v : Vendor}

/-! ## Answers up to a limit -/

/-- An answer with room for `limit` rows takes more of them. -/
def fill {α : Type} (limit : Nat) (out more : List α) : List α :=
  out ++ more.take (limit - out.length)

section

variable {α : Type} {limit : Nat} {out : List α}

@[simp] theorem fill_nil (limit : Nat) (out : List α) : fill limit out [] = out := by simp [fill]

theorem fill_full (h : limit ≤ out.length) (more : List α) : fill limit out more = out := by
  rw [fill, Nat.sub_eq_zero_of_le h, List.take_zero, List.append_nil]

theorem fill_cons (h : out.length < limit) (a : α) (more : List α) :
    fill limit out (a :: more) = fill limit (out ++ [a]) more := by
  obtain ⟨n, hn⟩ : ∃ n, limit - out.length = n + 1 := ⟨limit - out.length - 1, by omega⟩
  have hlen : limit - (out ++ [a]).length = n := by
    rw [List.length_append, List.length_singleton]
    omega
  rw [fill, fill, hn, hlen, List.take_succ_cons, List.append_assoc]
  rfl

theorem fill_append (out as bs : List α) :
    fill limit (fill limit out as) bs = fill limit out (as ++ bs) := by
  induction as generalizing out with
  | nil => simp
  | cons a as ih =>
    rcases Nat.lt_or_ge out.length limit with hlt | hge
    · rw [fill_cons hlt, List.cons_append, fill_cons hlt, ih]
    · rw [fill_full hge, fill_full hge, fill_full hge]

end

/-! ## Records -/

/-- A record as it was written. -/
structure Rec where
  ts : Nat
  enc : Bytes
  body : Body

/-- The rows of records from an offset on. -/
def rowsOf : Nat → List Rec → List Row
  | _, [] => []
  | offset, r :: recs => (r.ts, offset, r.body) :: rowsOf (offset + 1) recs

theorem rowsOf_append (offset : Nat) (as bs : List Rec) :
    rowsOf offset (as ++ bs) = rowsOf offset as ++ rowsOf (offset + as.length) bs := by
  induction as generalizing offset with
  | nil => rfl
  | cons a as ih =>
    rw [List.cons_append, rowsOf, rowsOf, ih, List.length_cons, List.cons_append,
      Nat.add_assoc, Nat.add_comm 1]

theorem mem_rowsOf {offset : Nat} {recs : List Rec} {row : Row} (h : row ∈ rowsOf offset recs) :
    ∃ r ∈ recs, row.1 = r.ts ∧ row.2.2 = r.body ∧ offset ≤ row.2.1 ∧
      row.2.1 < offset + recs.length := by
  induction recs generalizing offset with
  | nil => cases h
  | cons r recs ih =>
    rw [List.length_cons]
    rcases List.mem_cons.mp h with rfl | h
    · exact ⟨r, by simp, rfl, rfl, Nat.le_refl _, Nat.lt_add_of_pos_right (Nat.succ_pos _)⟩
    · obtain ⟨r', hr', hts, hbody, hle, hlt⟩ := ih h
      exact ⟨r', by simp [hr'], hts, hbody, by omega, by omega⟩

theorem length_rowsOf (offset : Nat) (recs : List Rec) : (rowsOf offset recs).length = recs.length := by
  induction recs generalizing offset with
  | nil => rfl
  | cons r recs ih => rw [rowsOf, List.length_cons, List.length_cons, ih]

theorem map_body_rowsOf (offset : Nat) (recs : List Rec) :
    (rowsOf offset recs).map (fun row => row.2.2) = recs.map Rec.body := by
  induction recs generalizing offset with
  | nil => rfl
  | cons r recs ih => rw [rowsOf, List.map_cons, List.map_cons, ih]

/-- The rows a selection wants. -/
def Select.want (select : Select) (rows : List Row) : List Row :=
  rows.filter fun row => select.wants row.1 row.2.1

theorem Select.want_append (select : Select) (as bs : List Row) :
    select.want (as ++ bs) = select.want as ++ select.want bs := List.filter_append ..

/-- From the first offset on, every row is wanted. -/
theorem Select.want_all (offset : Nat) (recs : List Rec) :
    (Select.offset offset).want (rowsOf offset recs) = rowsOf offset recs := by
  refine List.filter_eq_self.mpr ?_
  intro row hrow
  obtain ⟨_, _, _, _, hle, _⟩ := mem_rowsOf hrow
  exact decide_eq_true hle

/-- From a row's own offset on, it is the first that is wanted. -/
theorem Select.want_head {offset : Nat} {recs : List Rec} {row : Row}
    (h : row ∈ rowsOf offset recs) :
    ∃ more, (Select.offset row.2.1).want (rowsOf offset recs) = row :: more := by
  induction recs generalizing offset with
  | nil => cases h
  | cons r recs ih =>
    rw [rowsOf, Select.want]
    rcases List.mem_cons.mp h with rfl | h
    · exact ⟨_, List.filter_cons_of_pos (decide_eq_true (Nat.le_refl _))⟩
    · obtain ⟨_, _, _, _, hle, _⟩ := mem_rowsOf h
      have hbefore : ¬ row.2.1 ≤ offset := by omega
      obtain ⟨more, hmore⟩ := ih h
      exact ⟨more, (List.filter_cons_of_neg (by simpa [Select.wants] using hbefore)).trans hmore⟩

/-- Nothing past a time range is wanted. -/
theorem Select.want_time_nil {start stop offset : Nat} {recs : List Rec}
    (h : ∀ r ∈ recs, stop < r.ts) : (Select.time start stop).want (rowsOf offset recs) = [] := by
  refine List.filter_eq_nil_iff.mpr ?_
  intro row hrow hwant
  obtain ⟨r, hr, hts, -, -, -⟩ := mem_rowsOf hrow
  have hlt := h r hr
  have hle : start ≤ row.1 ∧ row.1 ≤ stop := by simpa [Select.wants] using hwant
  omega

/-- What the records of a block are written as, from the timestamp before them on. -/
def deltasFrom : Nat → List Rec → List (Nat × Bytes)
  | _, [] => []
  | ts, r :: recs => (r.ts - ts, r.enc) :: deltasFrom r.ts recs

/-- The written records of a block: whatever delta the first one has. -/
def Deltas (records : List (Nat × Bytes)) : List Rec → Prop
  | [] => records = []
  | r :: recs => ∃ delta, records = (delta, r.enc) :: deltasFrom r.ts recs

/-- The timestamp a list of records ends at. -/
def endTs (ts : Nat) (recs : List Rec) : Nat := (recs.getLast?.map Rec.ts).getD ts

theorem endTs_cons (ts : Nat) (r : Rec) (recs : List Rec) : endTs ts (r :: recs) = endTs r.ts recs := by
  cases recs with
  | nil => rfl
  | cons s recs => simp [endTs, List.getLast?_cons]

theorem deltasFrom_concat (ts : Nat) (recs : List Rec) (r : Rec) :
    deltasFrom ts (recs ++ [r]) = deltasFrom ts recs ++ [(r.ts - endTs ts recs, r.enc)] := by
  induction recs generalizing ts with
  | nil => rfl
  | cons s recs ih =>
    rw [List.cons_append, deltasFrom, ih, deltasFrom, endTs_cons]
    rfl

/-- One more record in the buffer. -/
theorem Deltas.concat {records : List (Nat × Bytes)} {recs : List Rec} (h : Deltas records recs)
    {delta : Nat} {r : Rec} (hdelta : ∀ last ∈ recs.getLast?, delta = r.ts - last.ts) :
    Deltas (records ++ [(delta, r.enc)]) (recs ++ [r]) := by
  cases recs with
  | nil =>
    obtain rfl := (h : records = [])
    exact ⟨delta, rfl⟩
  | cons s recs =>
    obtain ⟨first, rfl⟩ := h
    refine ⟨first, ?_⟩
    have hlast : delta = r.ts - endTs s.ts recs := by
      rw [← endTs_cons s.ts s recs, endTs]
      cases hl : (s :: recs).getLast? with
      | none => simp at hl
      | some last => exact hdelta last hl
    show (first, s.enc) :: deltasFrom s.ts recs ++ [(delta, r.enc)]
      = (first, s.enc) :: deltasFrom s.ts (recs ++ [r])
    rw [deltasFrom_concat, hlast]
    rfl

theorem length_deltasFrom (ts : Nat) (recs : List Rec) : (deltasFrom ts recs).length = recs.length := by
  induction recs generalizing ts with
  | nil => rfl
  | cons r recs ih => rw [deltasFrom, List.length_cons, List.length_cons, ih]

theorem Deltas.length {records : List (Nat × Bytes)} {recs : List Rec} (h : Deltas records recs) :
    records.length = recs.length := by
  cases recs with
  | nil => rw [show records = [] from h]; rfl
  | cons r recs =>
    obtain ⟨delta, rfl⟩ := h
    rw [List.length_cons, List.length_cons, length_deltasFrom]

/-- Times that never step back and fit a `u64`. -/
def Timed (recs : List Rec) : Prop :=
  recs.Pairwise (fun a b => a.ts ≤ b.ts) ∧ ∀ r ∈ recs, r.ts < 2 ^ 64

theorem Timed.append {as bs : List Rec} (h : Timed (as ++ bs)) : Timed as ∧ Timed bs := by
  obtain ⟨hpair, hlt⟩ := h
  obtain ⟨has, hbs, -⟩ := List.pairwise_append.mp hpair
  exact ⟨⟨has, fun r hr => hlt r (List.mem_append_left bs hr)⟩,
    ⟨hbs, fun r hr => hlt r (List.mem_append_right as hr)⟩⟩

/-! ## Scanning a block -/

/-- The dictionary of a reader decodes the records. -/
def Decodes (dict : Option Dict) (recs : List Rec) : Prop :=
  ∀ r ∈ recs, Body.decodeWith r.enc dict = some r.body

theorem lastTsFrom_deltasFrom {ts : Nat} {recs : List Rec} (hts : ∀ r ∈ recs, ts ≤ r.ts)
    (timed : Timed recs) : lastTsFrom ts (deltasFrom ts recs) = endTs ts recs := by
  induction recs generalizing ts with
  | nil => rfl
  | cons r recs ih =>
    obtain ⟨hfirst, hpair⟩ := List.pairwise_cons.mp timed.1
    have hle := hts r (by simp)
    have hrest := ih hfirst ⟨hpair, fun s hs => timed.2 s (by simp [hs])⟩
    rw [deltasFrom, lastTsFrom, endTs_cons, Nat.add_sub_cancel' hle, hrest]

theorem scanRecords_deltasFrom {dict : Option Dict} {recs : List Rec} (select : Select)
    (limit : Nat) {ts : Nat} (offset : Nat) (out : List Row) (hts : ∀ r ∈ recs, ts ≤ r.ts) (timed : Timed recs)
    (decodes : Decodes dict recs) :
    scanRecords select limit dict false ts offset (deltasFrom ts recs) out
      = .ok (endTs ts recs, fill limit out (select.want (rowsOf offset recs))) := by
  induction recs generalizing ts offset out with
  | nil => simp [deltasFrom, scanRecords, rowsOf, Select.want, endTs]
  | cons r recs ih =>
    obtain ⟨hfirst, hpair⟩ := List.pairwise_cons.mp timed.1
    have hle := hts r (by simp)
    have hlt := timed.2 r (by simp)
    have hstep : satAdd ts (r.ts - ts) = r.ts := by
      rw [satAdd, Nat.add_sub_cancel' hle]
      omega
    have hrest := fun out => ih (offset + 1) out hfirst
      ⟨hpair, fun s hs => timed.2 s (by simp [hs])⟩ fun s hs => decodes s (by simp [hs])
    rw [deltasFrom, scanRecords, endTs_cons]
    simp only [Bool.false_eq_true, if_false, hstep, decodes r (by simp), hrest, rowsOf, Select.want,
      List.filter_cons]
    -- wanted and room for it, wanted and no room, not wanted
    by_cases hwant : select.wants r.ts offset = true
    · rcases Nat.lt_or_ge out.length limit with hroom | hfull
      · rw [if_pos ⟨hwant, hroom⟩, if_pos hwant, fill_cons hroom]
      · rw [if_neg fun h => absurd h.2 (Nat.not_lt.mpr hfull), if_pos hwant, fill_full hfull,
          fill_full hfull]
    · rw [if_neg fun h => hwant h.1, if_neg hwant]

/-- The payload of a block walks out as its records. -/
def Walks (raw : Bytes) (recs : List Rec) : Prop :=
  ∃ records, frames getRecord raw.length raw = (records, []) ∧ Deltas records recs

/-- **Scanning a block** answers the wanted rows up to the limit, and the timestamp
of its last record. -/
theorem scanBlock_walks {dict : Option Dict} {recs : List Rec} (select : Select) (limit : Nat)
    (out : List Row) {block : BlockHeader} {raw : Bytes} (walks : Walks raw recs) (hne : recs ≠ [])
    (hts : ∀ r ∈ recs.head?, block.firstTs = r.ts) (timed : Timed recs)
    (decodes : Decodes dict recs) :
    scanBlock block raw select limit dict out
      = .ok (endTs block.firstTs recs,
          fill limit out (select.want (rowsOf block.firstOffset recs))) := by
  obtain ⟨records, hframes, hdeltas⟩ := walks
  cases recs with
  | nil => exact absurd rfl hne
  | cons r recs =>
    obtain ⟨delta, rfl⟩ := hdeltas
    obtain ⟨hfirst, hpair⟩ := List.pairwise_cons.mp timed.1
    have hstart : block.firstTs = r.ts := hts r rfl
    have hrest := fun out => scanRecords_deltasFrom select limit (block.firstOffset + 1) out hfirst
      ⟨hpair, fun s hs => timed.2 s (by simp [hs])⟩ fun s hs => decodes s (by simp [hs])
    rw [scanBlock, hframes, scanRecords, endTs_cons, hstart]
    simp only [if_true, decodes r (by simp), hrest, rowsOf, Select.want, List.filter_cons]
    by_cases hwant : select.wants r.ts block.firstOffset = true
    · rcases Nat.lt_or_ge out.length limit with hroom | hfull
      · rw [if_pos ⟨hwant, hroom⟩, if_pos hwant, fill_cons hroom]
      · rw [if_neg fun h => absurd h.2 (Nat.not_lt.mpr hfull), if_pos hwant, fill_full hfull,
          fill_full hfull]
    · rw [if_neg fun h => hwant h.1, if_neg hwant]

theorem lastTsOf_walks {recs : List Rec} {raw : Bytes} {firstTs : Nat} (walks : Walks raw recs)
    (hne : recs ≠ []) (hts : ∀ r ∈ recs.head?, firstTs = r.ts) (timed : Timed recs) :
    lastTsOf raw firstTs = .ok (some (endTs firstTs recs)) := by
  obtain ⟨records, hframes, hdeltas⟩ := walks
  cases recs with
  | nil => exact absurd rfl hne
  | cons r recs =>
    obtain ⟨delta, rfl⟩ := hdeltas
    obtain ⟨hfirst, hpair⟩ := List.pairwise_cons.mp timed.1
    have hrest := lastTsFrom_deltasFrom hfirst ⟨hpair, fun s hs => timed.2 s (by simp [hs])⟩
    rw [lastTsOf, hframes, hts r rfl, endTs_cons, ← hrest]
    rfl

end Okm.Series
