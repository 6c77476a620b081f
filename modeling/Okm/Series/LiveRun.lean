import Okm.Series.Fidelity
import Okm.Series.LiveInv

/-!
# Runs of a live reader

What each operation does to `LiveInv`, and from it what every run of harmless operations
keeps: a read answers, it answers a prefix of what was appended, and nothing of a flush that
was complete when it began is missing (`live_reads`).

Of the harmful operations two need no rare string. A reader built between a block and its row
is held for the length of the file with the block, and the row does not change that length;
a dictionary loaded before a flush does not know the codes of the row it is followed by.
-/

namespace Okm.Series

open Lib Model

variable {v : Vendor} {config : Option DictConfig}

/-! ## Views that follow each other -/

theorem View.length_eq (p : View) :
    p.length = partHeaderLen + (bytesOf p.blocks).length + p.after.length := by
  rw [View.length, dataOf, List.length_append, List.length_append, PartHeader.length_encode]

theorem Stored.bytes_ne_nil (s : Stored) : s.bytes ≠ [] := by
  intro hnil
  have hlen := congrArg List.length hnil
  rw [Stored.bytes, List.length_append, BlockHeader.length_encode] at hlen
  exact absurd hlen (by simp [blockHeaderLen])

/-- The block is written: the file is longer. -/
theorem View.grows_block (header : PartHeader) (blocks : List Stored) (s : Stored) :
    View.Grows ⟨header, blocks, []⟩ ⟨header, blocks, s.bytes⟩ := by
  have hpos := List.length_pos_iff.mpr s.bytes_ne_nil
  have hold := View.length_eq ⟨header, blocks, []⟩
  have hnew := View.length_eq ⟨header, blocks, s.bytes⟩
  dsimp only at hold hnew
  rw [List.length_nil] at hold
  exact ⟨rfl, List.prefix_refl _, by omega, fun hsame => by omega⟩

/-- Its row is written: the file is as long as before, and was not settled. -/
theorem View.grows_row (header : PartHeader) (blocks : List Stored) (s : Stored) :
    View.Grows ⟨header, blocks, s.bytes⟩ ⟨header, blocks ++ [s], []⟩ := by
  have hsame : View.length ⟨header, blocks ++ [s], []⟩ = View.length ⟨header, blocks, s.bytes⟩ :=
    congrArg List.length (dataOf_snoc header blocks s)
  exact ⟨rfl, List.prefix_append _ _, le_of_eq hsame.symm,
    fun _ hafter => absurd hafter s.bytes_ne_nil⟩

/-! ## Dictionaries that agree on a buffer -/

theorem mem_deltasFrom (ts : Nat) {recs : List Rec} {r : Rec} (h : r ∈ recs) :
    ∃ delta, (delta, r.enc) ∈ deltasFrom ts recs := by
  induction recs generalizing ts with
  | nil => cases h
  | cons first recs ih =>
    rcases List.mem_cons.mp h with rfl | h
    · exact ⟨_, List.mem_cons_self⟩
    · obtain ⟨delta, hmem⟩ := ih first.ts h
      exact ⟨delta, List.mem_cons_of_mem _ hmem⟩

theorem Deltas.mem {records : List (Nat × Bytes)} {recs : List Rec} (h : Deltas records recs)
    {r : Rec} (hr : r ∈ recs) : ∃ delta, (delta, r.enc) ∈ records := by
  cases recs with
  | nil => cases hr
  | cons first recs =>
    obtain ⟨delta, rfl⟩ := h
    rcases List.mem_cons.mp hr with rfl | hr
    · exact ⟨delta, List.mem_cons_self⟩
    · obtain ⟨delta', hmem⟩ := mem_deltasFrom first.ts hr
      exact ⟨delta', List.mem_cons_of_mem _ hmem⟩

/-- A dictionary that decodes the records of a buffer as another one does. -/
theorem Decodes.agree {dict dict' : Option Dict} {raw : Bytes} {recs : List Rec}
    (h : Decodes dict recs) (walks : Walks raw recs)
    (hagree : ∀ record ∈ (frames getRecord raw.length raw).1,
      Body.decodeWith record.2 dict' = Body.decodeWith record.2 dict) : Decodes dict' recs := by
  obtain ⟨records, hframes, hdeltas⟩ := walks
  intro r hr
  obtain ⟨delta, hmem⟩ := hdeltas.mem hr
  have hsame := hagree (delta, r.enc) (by rwa [hframes])
  exact hsame.trans (h r hr)

/-! ## What one operation keeps -/

theorem rowsWritten_append (past more : List (LiveOp × Option Nat)) :
    rowsWritten (past ++ more) = rowsWritten past ++ rowsWritten more := List.filterMap_append

section

variable {past : List (LiveOp × Option Nat)} {s : Live} {pending pending' : List Rec}
  {p p' : View}

/-- The writer goes on and the view grows: the cache and the reads stay good. -/
theorem LiveInv.advance (h : LiveInv v past s pending p) {writer : PartWriter}
    {flushing : Flushing} {more : List (LiveOp × Option Nat)}
    (writing : Writing v pending' writer flushing p') (grows : p.Grows p')
    (hrows : rowsWritten (past ++ more)
      = rowsOf p'.header.firstOffset (recsOf p'.blocks ++ pending'))
    (hdict : ∀ read ∈ s.reads, ∀ bytes dict, read.at_ = .loaded bytes dict →
      Decodes dict (recsOf p.blocks) → Decodes dict (recsOf p'.blocks)) :
    LiveInv v (past ++ more) { s with writer := writer, flushing := flushing } pending' p' where
  writing := writing
  rows := hrows
  cache := fun held hheld => (h.cache held hheld).grow grows
  reads := fun read hread => by
    rw [rowsWritten_append]
    exact (h.reads read hread).grow grows (hdict read hread) _

/-- Nothing was appended and nothing changed. -/
theorem LiveInv.idle (h : LiveInv v past s pending p) {more : List (LiveOp × Option Nat)}
    (hmore : rowsWritten more = []) : LiveInv v (past ++ more) s pending p := by
  refine h.advance h.writing (View.Grows.refl p) ?_ fun _ _ _ _ _ hdecodes => hdecodes
  rw [rowsWritten_append, hmore, List.append_nil]
  exact h.rows

/-- **`append`** -/
theorem LiveInv.append (lawful : v.Lawful) (h : LiveInv v past s pending p) {ts : UInt64}
    {body : Body} (hidle : s.flushing = .idle) (fits : FitsItems v s.writer.dict body.items)
    {writer : PartWriter} (hok : s.writer.buffer v ts.toNat body = .ok writer) :
    ∃ pending', LiveInv v (past ++ [(.append ts body, some s.writer.nextOffset)])
      { s with writer := writer, flushing := .idle } pending' p := by
  obtain ⟨w, flushing, cache, reads⟩ := s
  obtain rfl : flushing = .idle := hidle
  have hwriting := h.writing
  dsimp only at hwriting
  cases hwriting with
  | @idle w header blocks holds =>
    obtain ⟨⟨enc, hwrites⟩, -⟩ := holds.buffer lawful ts.toNat_lt fits hok
    refine ⟨pending ++ [⟨ts.toNat, enc, body⟩], ?_⟩
    refine h.advance (.idle hwrites) (View.Grows.refl _) ?_ fun _ _ _ _ _ hdecodes => hdecodes
    have hlast := rowsOf_append header.firstOffset (recsOf blocks ++ pending) [⟨ts.toNat, enc, body⟩]
    rw [← holds.nextOffset] at hlast
    rw [rowsWritten_append, h.rows, ← List.append_assoc]
    exact hlast.symm

/-- **The dictionary is written.** -/
theorem LiveInv.writeDict (lawful : v.Lawful) (h : LiveInv v past s pending p)
    (hidle : s.flushing = .idle) (hsome : s.writer.blockRecords ≠ 0) {writer : PartWriter}
    (hok : s.writer.flushDict v = .ok writer) :
    LiveInv v (past ++ [(.writeDict, none)]) { s with writer := writer, flushing := .filed }
      pending p := by
  obtain ⟨w, flushing, cache, reads⟩ := s
  obtain rfl : flushing = .idle := hidle
  have hwriting := h.writing
  dsimp only at hwriting
  cases hwriting with
  | @idle w header blocks holds =>
    obtain ⟨dict, rfl, hinv, hgrows, hfiled⟩ := holds.flushDict lawful hok
    have hne : pending ≠ [] := by
      rintro rfl
      exact hsome holds.blockRecords
    refine h.advance (.filed (holds.withDict hinv hgrows) hne hfiled) (View.Grows.refl _) ?_
      fun _ _ _ _ _ hdecodes => hdecodes
    rw [rowsWritten_append]
    exact (List.append_nil _).trans h.rows

/-- **The block is written.** -/
theorem LiveInv.writeData (lawful : v.Lawful) (h : LiveInv v past s pending p)
    (hfiled : s.flushing = .filed) {block : BlockHeader} {payload : Bytes}
    (hok : s.writer.packBlock v = .ok (block, payload)) :
    ∃ p', LiveInv v (past ++ [(.writeData, none)])
      { s with writer := s.writer.writeData block payload, flushing := .written block }
      pending p' := by
  obtain ⟨w, flushing, cache, reads⟩ := s
  obtain rfl : flushing = .filed := hfiled
  have hwriting := h.writing
  dsimp only at hwriting
  cases hwriting with
  | @filed w header blocks holds nonempty known =>
    obtain ⟨hsound, hopens⟩ := holds.tallies.packBlock lawful nonempty hok
    have hwalks : Walks w.block pending := by
      obtain ⟨raw, hraw, -, walks⟩ := hsound.raw
      rw [hopens] at hraw
      rwa [Option.some.inj hraw]
    refine ⟨_, h.advance (.written holds known hsound hwalks) (View.grows_block header blocks _) ?_
      fun _ _ _ _ _ hdecodes => hdecodes⟩
    rw [rowsWritten_append]
    exact (List.append_nil _).trans h.rows

/-- **The row is written**, when the reads that have loaded a dictionary decode the new block
with it. -/
theorem LiveInv.writeRow (h : LiveInv v past s pending p) {block : BlockHeader}
    (hwritten : s.flushing = .written block) {writer : PartWriter}
    (hok : s.writer.writeIndex block = .ok writer)
    (harmless : LiveOp.writeRow.Harmless v config s) :
    ∃ p', LiveInv v (past ++ [(.writeRow, none)])
      { s with writer := writer, flushing := .idle } [] p' := by
  obtain ⟨w, flushing, cache, reads⟩ := s
  obtain rfl : flushing = .written block := hwritten
  have hwriting := h.writing
  dsimp only at hwriting
  cases hwriting with
  | @written w header blocks block payload holds known sound walks =>
    obtain ⟨hwrites, -, -, -⟩ := holds.land known sound hok
    refine ⟨_, h.advance (.idle hwrites) (View.grows_row header blocks _) ?_ ?_⟩
    · rw [rowsWritten_append, recsOf_append, List.append_nil]
      refine (List.append_nil _).trans (h.rows.trans ?_)
      simp [recsOf]
    · intro read hread bytes dict hat hdecodes
      -- a dictionary in hand is older than the block: it has to decode the buffer
      rw [recsOf_append]
      have hpending : Decodes dict pending :=
        (holds.decodesPending _ (known config)).agree walks (harmless read hread bytes dict hat)
      intro r hr
      rcases List.mem_append.mp hr with hr | hr
      · exact hdecodes r hr
      · exact hpending r (by simpa [recsOf] using hr)

/-- **A read begins.** -/
theorem LiveInv.begin (h : LiveInv v past s pending p) (start limit : Nat) :
    LiveInv v (past ++ [(.begin start limit, none)])
      { s with reads := s.reads ++
          [⟨start, limit, s.flushed, Reading.first s.writer.files s.cache limit⟩] } pending p := by
  have hidle : LiveInv v (past ++ [(.begin start limit, none)]) s pending p := h.idle rfl
  refine { hidle with reads := ?_ }
  intro read hread
  rcases List.mem_append.mp hread with hread | hread
  · exact hidle.reads read hread
  · rw [List.mem_singleton.mp hread, h.writing.flushed]
    exact first_good h.writing.view h.cache hidle.rows start limit

/-- A block that has no row is what the length covers beyond the rows. -/
theorem Writing.settled {w : PartWriter} {flushing : Flushing} (h : Writing v pending w flushing p)
    (hlength : ∀ block, flushing = .written block → w.file.length ≠ p.length) : p.after = [] := by
  cases h with
  | idle holds => rfl
  | filed holds nonempty known => rfl
  | @written w header blocks block payload holds known sound walks =>
    -- the one place where bytes stand behind the rows
    refine absurd ?_ (hlength block rfl)
    exact congrArg List.length (Writing.written holds known sound walks).view.data

/-- **A read takes its next step.** -/
theorem LiveInv.next (h : LiveInv v past s pending p) {i : Nat} {read : LiveRead}
    (hread : s.reads[i]? = some read) (harmless : (LiveOp.next i).Harmless v config s) :
    LiveInv v (past ++ [(.next i, none)])
      { s with
        cache := (read.next v config s.writer.files s.cache).2
        reads := s.reads.set i
          { read with at_ := (read.next v config s.writer.files s.cache).1 } } pending p := by
  have hidle : LiveInv v (past ++ [(.next i, none)]) s pending p := h.idle rfl
  obtain ⟨hgood, hcache⟩ := next_good config h.writing.view h.cache hidle.rows
    (hidle.reads read (List.mem_of_getElem? hread)) (by
      intro bytes dict hat hbytes
      refine h.writing.settled fun block hblock hlength => ?_
      exact harmless read hread bytes dict block hat hblock (hbytes.trans hlength.symm))
  refine { hidle with cache := hcache, reads := ?_ }
  intro other hother
  rcases List.mem_or_eq_of_mem_set hother with hother | rfl
  · exact hidle.reads other hother
  · exact hgood

end

/-! ## Runs -/

/-- **One harmless operation keeps the invariant.** -/
theorem live_step (lawful : v.Lawful) {past : List (LiveOp × Option Nat)} {s s' : Live}
    {pending : List Rec} {p : View} (h : LiveInv v past s pending p) {op : LiveOp}
    {answer : Option Nat} (harmless : op.Harmless v config s)
    (hok : s.step v config op = .ok (answer, s')) :
    ∃ pending' p', LiveInv v (past ++ [(op, answer)]) s' pending' p' := by
  unfold Live.step at hok
  cases op with
  | append ts body =>
    cases hflushing : s.flushing with
    | idle =>
      rw [hflushing] at hok
      obtain ⟨writer, hbuffer, hok⟩ := bind_eq_ok.mp hok
      obtain ⟨rfl, rfl⟩ := Prod.mk.inj (Except.ok.inj hok)
      obtain ⟨pending', hinv⟩ := h.append lawful hflushing (harmless hflushing) hbuffer
      exact ⟨pending', p, hinv⟩
    | filed | written block =>
      -- an append between the writes of a flush is not answered, and moves nothing
      rw [hflushing] at hok
      obtain ⟨rfl, rfl⟩ := Prod.mk.inj (Except.ok.inj hok)
      exact ⟨pending, p, h.idle rfl⟩
  | writeDict =>
    cases hflushing : s.flushing with
    | idle =>
      rw [hflushing] at hok
      dsimp only at hok
      -- an empty block has nothing to flush
      by_cases hzero : s.writer.blockRecords = 0
      · rw [if_pos hzero] at hok
        obtain ⟨rfl, rfl⟩ := Prod.mk.inj (Except.ok.inj hok)
        exact ⟨pending, p, h.idle rfl⟩
      · rw [if_neg hzero] at hok
        obtain ⟨writer, hdict, hok⟩ := bind_eq_ok.mp hok
        obtain ⟨rfl, rfl⟩ := Prod.mk.inj (Except.ok.inj hok)
        exact ⟨pending, p, h.writeDict lawful hflushing hzero hdict⟩
    | filed | written block =>
      rw [hflushing] at hok
      obtain ⟨rfl, rfl⟩ := Prod.mk.inj (Except.ok.inj hok)
      exact ⟨pending, p, h.idle rfl⟩
  | writeData =>
    cases hflushing : s.flushing with
    | filed =>
      rw [hflushing] at hok
      obtain ⟨⟨block, payload⟩, hpack, hok⟩ := bind_eq_ok.mp hok
      obtain ⟨rfl, rfl⟩ := Prod.mk.inj (Except.ok.inj hok)
      obtain ⟨p', hinv⟩ := h.writeData lawful hflushing hpack
      exact ⟨pending, p', hinv⟩
    | idle | written block =>
      rw [hflushing] at hok
      obtain ⟨rfl, rfl⟩ := Prod.mk.inj (Except.ok.inj hok)
      exact ⟨pending, p, h.idle rfl⟩
  | writeRow =>
    cases hflushing : s.flushing with
    | written block =>
      rw [hflushing] at hok
      obtain ⟨writer, hindex, hok⟩ := bind_eq_ok.mp hok
      obtain ⟨rfl, rfl⟩ := Prod.mk.inj (Except.ok.inj hok)
      obtain ⟨p', hinv⟩ := h.writeRow hflushing hindex harmless
      -- the directory row lands: the block is no longer pending
      exact ⟨[], p', hinv⟩
    | idle | filed =>
      rw [hflushing] at hok
      obtain ⟨rfl, rfl⟩ := Prod.mk.inj (Except.ok.inj hok)
      exact ⟨pending, p, h.idle rfl⟩
  | begin start limit =>
    obtain ⟨rfl, rfl⟩ := Prod.mk.inj (Except.ok.inj hok)
    exact ⟨pending, p, h.begin start limit⟩
  | next i =>
    dsimp only at hok
    -- one step of a read that may have begun long before
    cases hread : s.reads[i]? with
    | none =>
      rw [hread] at hok
      obtain ⟨rfl, rfl⟩ := Prod.mk.inj (Except.ok.inj hok)
      exact ⟨pending, p, h.idle rfl⟩
    | some read =>
      rw [hread] at hok
      obtain ⟨rfl, rfl⟩ := Prod.mk.inj (Except.ok.inj hok)
      exact ⟨pending, p, h.next hread harmless⟩

/-- How many steps a read has left. -/
def Reading.left : Reading → Nat
  | .measured _ => 5
  | .loaded _ _ => 4
  | .indexed _ _ _ _ => 3
  | .built _ => 2
  | .ready _ => 1
  | .answered _ => 0

theorem Reading.left_le (at_ : Reading) : at_.left ≤ 5 := by
  cases at_ <;> simp [Reading.left]

theorem Reading.answered_of_left {at_ : Reading} (h : at_.left = 0) :
    ∃ answer, at_ = .answered answer := by
  cases at_ with
  | answered answer => exact ⟨answer, rfl⟩
  | measured bytes | loaded bytes dict | indexed bytes dict header rows | built held
  | ready reader => cases h

/-- A step of a read leaves fewer. -/
theorem left_next (v : Vendor) (config : Option DictConfig) (read : LiveRead) (files : PartFiles)
    (cache : Option CachedReader) :
    (read.next v config files cache).1.left ≤ read.at_.left - 1 := by
  unfold LiveRead.next
  cases read.at_ with
  | measured bytes | built held | ready reader | answered answer => simp [Reading.left]
  | loaded bytes dict =>
    dsimp only
    cases PartWriter.readHeader files.data <;> simp [Reading.left]
  | indexed bytes dict header rows =>
    dsimp only
    cases PartReader.spanOf v files.data rows none <;> simp [Reading.left]

/-- **Every read is answered.** -/
theorem LiveRead.ends (read : LiveRead) : read.Ends v config := by
  intro found hfound
  have hleft : ∀ (found : List (PartFiles × Option CachedReader)) (read : LiveRead),
      (found.foldl (fun read e => { read with at_ := (read.next v config e.1 e.2).1 }) read).at_.left
        ≤ read.at_.left - found.length := by
    intro found
    induction found with
    | nil => exact fun read => Nat.le_refl _
    | cons e found ih =>
      intro read
      rw [List.foldl_cons, List.length_cons]
      have hrest := ih { read with at_ := (read.next v config e.1 e.2).1 }
      have hone := left_next v config read e.1 e.2
      dsimp only at hrest
      omega
  have hspent := hleft found read
  have hall := read.at_.left_le
  exact Reading.answered_of_left (by omega)

/-- **A live reader is never stuck behind the writer** in a run of harmless operations: every
read ends, and every answer is right. -/
theorem live_reads (lawful : v.Lawful) {header : PartHeader} (fits : header.Fits)
    {blockBytes : Nat} {level : Int} {codec : Codec} {dict : Option DictConfig}
    {past : List (LiveOp × Option Nat)} {s : Live}
    (run : Trace (Live.step v config) (fun _ s op => op.Harmless v config s)
      (Live.fresh (PartWriter.create header blockBytes level codec dict)) past s) :
    s.Answers past ∧ ∀ read ∈ s.reads, read.Ends v config := by
  refine ⟨?_, fun read _ => read.ends⟩
  have hinv : ∃ pending p, LiveInv v past s pending p := by
    refine run.invariant (fun past s => ∃ pending p, LiveInv v past s pending p) ?_ ?_
    · have hwrites := writes_create (v := v) fits blockBytes level codec dict
      exact ⟨[], _, .idle hwrites, rfl, fun held hheld => (by cases hheld),
        fun read hread => (by cases hread)⟩
    · intro past s op answer s' hinv hharmless hok
      obtain ⟨pending, p, hinv⟩ := hinv
      exact live_step lawful hinv hharmless hok
  obtain ⟨pending, p, hinv⟩ := hinv
  intro read hread answer hat
  have hgood := hinv.reads read hread
  unfold LiveRead.Good at hgood
  rw [hat] at hgood
  exact hgood

/-! ## Runs on fixed inputs -/

/-- An open part with nothing in it. -/
def emptyLive (dict : Option DictConfig) : Live :=
  .fresh (PartWriter.create ⟨.ns, 0, 0, 0, 0⟩ 65536 1 .raw dict)

/-- What `Harmless` asks, for records that hold one number. -/
def LiveOp.calm (s : Live) : LiveOp → Bool
  | .append _ body => body = ⟨[(1, .u64 7)]⟩
  | .writeRow => s.reads.all fun read => match read.at_ with
    | .loaded _ _ => false
    | _ => true
  | .next i => match s.flushing, s.reads[i]?.map LiveRead.at_ with
    | .written _, some (.loaded bytes _) => bytes ≠ s.writer.file.length
    | _, _ => true
  | _ => true

theorem LiveOp.calm_harmless {s : Live} {op : LiveOp} (h : op.calm s = true) :
    op.Harmless v config s := by
  unfold LiveOp.calm at h
  cases op with
  | append ts body =>
    obtain rfl := of_decide_eq_true h
    exact fun _ => by simp [FitsItems, FitsItem]
  | writeRow =>
    intro read hread bytes dict hat
    have hcalm := List.all_eq_true.mp h read hread
    rw [hat] at hcalm
    cases hcalm
  | next i =>
    intro read hread bytes dict block hat hwritten
    dsimp only at h
    rw [hread, hwritten, Option.map_some, hat] at h
    exact of_decide_eq_true h
  | writeDict | writeData | begin start limit => trivial

/-- One read lies across a flush, and one follows it. -/
def calmOps : List LiveOp :=
  [.append 5 ⟨[(1, .u64 7)]⟩, .begin 0 10, .writeDict, .next 0, .writeData, .next 0, .writeRow,
    .next 0, .next 0, .next 0, .begin 0 10, .next 1, .next 1, .next 1, .next 1, .next 1]

theorem live_reads_calm : ∃ past s,
    runChecked (Live.step plainVendor none) (fun _ => LiveOp.calm) [] (emptyLive none) calmOps
        = some (past, s) ∧
      s.Answers past ∧ ∀ read ∈ s.reads, read.Ends plainVendor none := by
  obtain ⟨⟨past, s⟩, hrun⟩ := Option.isSome_iff_exists.mp
    (show (runChecked (Live.step plainVendor none) (fun _ => LiveOp.calm) [] (emptyLive none)
      calmOps).isSome = true by decide +kernel)
  refine ⟨past, s, hrun, ?_⟩
  have fits : PartHeader.Fits ⟨.ns, 0, 0, 0, 0⟩ := ⟨by decide, by decide, by decide, by decide⟩
  have run : Trace (Live.step plainVendor none) (fun _ s op => op.Harmless plainVendor none s)
      (emptyLive none) past s := by
    refine Trace.nil.runChecked (fun past s op hcalm => ?_) hrun
    exact LiveOp.calm_harmless hcalm
  exact live_reads plainVendor_lawful fits run

/-- Some read was answered, and not with the rows of a prefix that is long enough. -/
def Live.misses (past : List (LiveOp × Option Nat)) (s : Live) : Bool :=
  s.reads.any fun read => match read.at_ with
    | .answered answer => (List.range ((rowsWritten past).length + 1)).all fun n =>
        n < read.since ∨ answer.toOption
          ≠ some (((Select.offset read.start).want ((rowsWritten past).take n)).take read.limit)
    | _ => false

theorem Live.misses_not_answers {past : List (LiveOp × Option Nat)} {s : Live}
    (h : s.misses past = true) : ¬ s.Answers past := by
  intro hanswers
  obtain ⟨read, hread, hmiss⟩ := List.any_eq_true.mp h
  cases hat : read.at_ with
  | answered answer =>
    rw [hat] at hmiss
    obtain ⟨n, hsince, hn, hanswer⟩ := hanswers read hread answer hat
    have hfails := List.all_eq_true.mp hmiss n (List.mem_range.mpr (by omega))
    rcases of_decide_eq_true hfails with hlt | hne
    · omega
    · exact hne (by rw [hanswer]; rfl)
  | measured bytes | loaded bytes dict | indexed bytes dict header rows | built held
  | ready reader =>
    rw [hat] at hmiss
    cases hmiss

/-- A read lies between a block and its row; the read after the flush uses its reader. -/
def staleOps : List LiveOp :=
  [.append 5 ⟨[(1, .u64 7)]⟩, .writeDict, .writeData, .begin 0 10, .next 0, .next 0, .next 0,
    .next 0, .next 0, .writeRow, .begin 0 10, .next 1]

/-- A read has its dictionary, and takes the index after the flush. -/
def lateOps : List LiveOp :=
  [.append 0 ⟨[(1, .str "aaaaaaaaa")]⟩, .begin 0 10, .next 0, .writeDict, .writeData, .writeRow,
    .next 0, .next 0, .next 0, .next 0]

/-- **A live reader can miss a flush, and fail on one**: the first run answers no record
after the flush of one, the second fails to decode. -/
theorem stale_and_late :
    (∃ past s, Trace (Live.step plainVendor none) (fun _ _ _ => True) (emptyLive none) past s ∧
      ¬ s.Answers past) ∧
    ∃ past s, Trace (Live.step plainVendor none) (fun _ _ _ => True)
      (emptyLive (some ⟨[(0, 1)], 1⟩)) past s ∧ ¬ s.Answers past := by
  have hmisses : ∀ dict ops,
      ((runChecked (Live.step plainVendor none) (fun _ _ _ => true) [] (emptyLive dict) ops).map
        fun run => run.2.misses run.1) = some true →
      ∃ past s, Trace (Live.step plainVendor none) (fun _ _ _ => True) (emptyLive dict) past s ∧
        ¬ s.Answers past := by
    intro dict ops h
    obtain ⟨⟨past, s⟩, hrun, hmiss⟩ := Option.map_eq_some_iff.mp h
    exact ⟨past, s, Trace.nil.runChecked (fun _ _ _ _ => trivial) hrun,
      Live.misses_not_answers hmiss⟩
  exact ⟨hmisses none staleOps (by decide +kernel),
    hmisses (some ⟨[(0, 1)], 1⟩) lateOps (by decide +kernel)⟩

end Okm.Series
