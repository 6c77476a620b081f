import Okm.Lib.Trace
import Okm.Series.PartRun

/-!
# The dictionary over a part's life

A part is appended to, flushed, stopped and adopted again any number of times, and
sealed at the end. `part_faithful` is what its readers and its dictionary keep
through all of that, as long as every promoted string found room in the block it
was entered in (`Dict.Room`): every flushed record reads back as the body that was
appended, encoding answers, and a code means the same string for good.

Without room that fails: `fourth_width_panics` is a part whose fourth promoted
string lands in a block wider than an id.
-/

namespace Okm.Series

open Lib Model

variable {v : Vendor}

/-- A part: held by a writer, or sealed. -/
inductive Life where
  | writing (w : PartWriter)
  | done (files : PartFiles)

inductive PartOp where
  | append (ts : UInt64) (body : Body)
  | flush
  /-- A clean stop, and the part adopted again. -/
  | readopt (config : Option DictConfig)
  | finish

namespace Life

def step (v : Vendor) : Life → PartOp → Except Error (Option Nat × Life)
  | .writing w, .append ts body => do
    let (offset, w) ← w.append v ts.toNat body
    .ok (some offset, .writing w)
  | .writing w, .flush => do
    let w ← w.flushBlock v
    .ok (none, .writing w)
  | .writing w, .readopt config => do
    let stopped ← w.flushBlock v
    let w ← PartWriter.adopt v stopped.files stopped.blockBytes stopped.level stopped.codec config
    .ok (none, .writing w)
  | .writing w, .finish => do
    let (_, files) ← w.sealPart v
    .ok (none, .done files)
  | .done _, _ => .error .badPath

def files : Life → PartFiles
  | .writing w => w.files
  | .done files => files

def isSealed : Life → Bool
  | .writing _ => false
  | .done _ => true

/-- The records in no block yet. -/
def pendingRecords : Life → Nat
  | .writing w => w.blockRecords
  | .done _ => 0

/-- Every code in the dictionary file means the same in the file of a later state. -/
def KnownIn (v : Vendor) (s s' : Life) : Prop :=
  ∀ config config', Knows (PartReader.loadDict v s.files.dict config)
    (PartReader.loadDict v s'.files.dict config')

/-- Every string an append promotes finds room. -/
def Roomy (v : Vendor) : Life → PartOp → Prop
  | .writing w, .append _ body => FitsItems v w.dict body.items
  | _, _ => True

instance Roomy.decidable (v : Vendor) : (s : Life) → (op : PartOp) → Decidable (s.Roomy v op)
  | .writing w, .append _ body => inferInstanceAs (Decidable (FitsItems v w.dict body.items))
  | .writing _, .flush | .writing _, .readopt _ | .writing _, .finish | .done _, _ => .isTrue trivial

end Life

/-- The bodies a run appended. -/
def appended (past : List (PartOp × Option Nat)) : List Body :=
  past.filterMap fun entry => match entry.1 with
    | .append _ body => some body
    | _ => none

/-- What a run keeps: the blocks in the files and the buffer hold, in order, what
was appended. -/
def Holds (v : Vendor) (header : PartHeader) (past : List (PartOp × Option Nat)) : Life → Prop
  | .writing w => ∃ blocks pending, Writes v w header blocks pending ∧
      (recsOf blocks ++ pending).map Rec.body = appended past
  | .done files => ∃ blocks, Sealed v files header blocks ∧
      (recsOf blocks).map Rec.body = appended past

theorem appended_snoc (past : List (PartOp × Option Nat)) (op : PartOp) (answer : Option Nat) :
    appended (past ++ [(op, answer)]) = appended past ++ match op with
      | .append _ body => [body]
      | _ => [] := by
  unfold appended
  rw [List.filterMap_append]
  cases op <;> rfl

section

variable {w : PartWriter} {header : PartHeader} {blocks : List Stored} {pending : List Rec}

/-- **One answered operation** keeps what a run keeps. -/
theorem holds_step (lawful : v.Lawful) {past : List (PartOp × Option Nat)} {s s' : Life}
    {op : PartOp} {answer : Option Nat} (h : Holds v header past s) (room : s.Roomy v op)
    (hok : s.step v op = .ok (answer, s')) :
    Holds v header (past ++ [(op, answer)]) s' ∧ s.KnownIn v s' := by
  cases s with
  | done files => cases hok
  | writing w =>
    obtain ⟨blocks, pending, hw, hbodies⟩ := h
    cases op with
    | append ts body =>
      obtain ⟨⟨offset, w'⟩, happend, hok⟩ := bind_eq_ok.mp hok
      obtain ⟨rfl, rfl⟩ := Prod.mk.inj (Except.ok.inj hok)
      obtain ⟨-, ⟨enc, more, pending', hw', hrecs⟩, hdict⟩ :=
        hw.append lawful ts.toNat_lt room happend
      refine ⟨⟨blocks ++ more, pending', hw', ?_⟩, hdict.knows⟩
      rw [appended_snoc, recsOf_append, List.append_assoc, hrecs, ← List.append_assoc,
        List.map_append, hbodies]
      rfl
    | flush =>
      obtain ⟨w', hflush, hok⟩ := bind_eq_ok.mp hok
      obtain ⟨rfl, rfl⟩ := Prod.mk.inj (Except.ok.inj hok)
      obtain ⟨⟨more, hmore, hw'⟩, hdict⟩ := hw.flush lawful hflush
      refine ⟨⟨blocks ++ more, [], hw', ?_⟩, hdict.knows⟩
      rw [appended_snoc, List.append_nil, List.append_nil, recsOf_append, hmore, hbodies]
    | readopt config =>
      -- the part is flushed and adopted from its own files
      obtain ⟨stopped, hflush, hok⟩ := bind_eq_ok.mp hok
      obtain ⟨w', hadopt, hok⟩ := bind_eq_ok.mp hok
      obtain ⟨rfl, rfl⟩ := Prod.mk.inj (Except.ok.inj hok)
      obtain ⟨⟨more, hmore, hstopped⟩, hdict⟩ := hw.flush lawful hflush
      obtain ⟨hw', hsame⟩ := hstopped.readopt hadopt
      refine ⟨⟨blocks ++ more, [], hw', ?_⟩, ?_⟩
      rotate_left
      · intro config config'
        show Knows _ (PartReader.loadDict v w'.files.dict config')
        rw [hsame]
        exact hdict.knows config config'
      rw [appended_snoc, List.append_nil, List.append_nil, recsOf_append, hmore, hbodies]
    | finish =>
      obtain ⟨⟨footer, files⟩, hseal, hok⟩ := bind_eq_ok.mp hok
      obtain ⟨rfl, rfl⟩ := Prod.mk.inj (Except.ok.inj hok)
      obtain ⟨⟨more, hmore, hfiles⟩, hdict⟩ := hw.sealPart lawful hseal
      refine ⟨⟨blocks ++ more, hfiles, ?_⟩, hdict⟩
      rw [appended_snoc, List.append_nil, recsOf_append, hmore, hbodies]

end

/-! ## What a run promises -/

/-- The bodies in the files: those appended, without the ones still in the buffer. -/
def flushedBodies (past : List (PartOp × Option Nat)) (s : Life) : List Body :=
  (appended past).take ((appended past).length - s.pendingRecords)

/-- Every flushed body is read back, in order, under the dictionary of the files. -/
def ReadsBack (v : Vendor) (past : List (PartOp × Option Nat)) (s : Life) : Prop :=
  ∀ config, ∃ r, PartReader.openPart v s.files s.isSealed config = .ok r ∧
    ∀ limit, ∃ rows, r.readFrom v s.files.data r.header.firstOffset limit [] = .ok rows ∧
      rows.map (fun row => row.2.2) = (flushedBodies past s).take limit

theorem holds_opens {header : PartHeader} {past : List (PartOp × Option Nat)} {s : Life}
    (h : Holds v header past s) (config : Option DictConfig) :
    ∃ r blocks after, PartReader.openPart v s.files s.isSealed config = .ok r ∧
      Opened r header blocks ∧ BlocksAt v partHeaderLen header.firstOffset blocks ∧
      Timed (recsOf blocks) ∧ Decodes r.dict (recsOf blocks) ∧
      s.files.data = dataOf header blocks after ∧
      (recsOf blocks).map Rec.body = flushedBodies past s := by
  cases s with
  | writing w =>
    obtain ⟨blocks, pending, hw, hbodies⟩ := h
    have htimed := (Timed.append hw.timed).1
    obtain ⟨r, hopen, opened, hdict⟩ :=
      openPart_whole hw.fits hw.sound htimed w.files.dict config
    refine ⟨r, blocks, [], ?_, opened, hw.sound, htimed, ?_, hw.data, ?_⟩
    · rw [← hw.data, ← hw.index] at hopen
      exact hopen
    · rw [hdict]
      exact hw.decodes config
    · -- what is pending is the end of what was appended
      show _ = (appended past).take ((appended past).length - w.blockRecords)
      rw [← hbodies, hw.blockRecords, List.map_append, List.length_append, List.length_map,
        List.length_map, Nat.add_sub_cancel, List.take_left' (by simp)]
  | done files =>
    obtain ⟨blocks, hs, hbodies⟩ := h
    obtain ⟨footer, ffits, hrecords, hlast, hdata⟩ := hs.footer
    obtain ⟨r, hopen, opened, hdict⟩ :=
      openPart_sealed hs.fits hs.sound ffits hrecords hlast files.dict config
    refine ⟨r, blocks, footer.encode, ?_, opened, hs.sound, hs.timed, ?_, hdata, ?_⟩
    · rw [← hdata, ← hs.index] at hopen
      exact hopen
    · rw [hdict]
      exact hs.decodes config
    · show _ = (appended past).take ((appended past).length - 0)
      rw [Nat.sub_zero, List.take_length, hbodies]

theorem holds_readsBack {header : PartHeader} {past : List (PartOp × Option Nat)} {s : Life}
    (h : Holds v header past s) : ReadsBack v past s := by
  intro config
  obtain ⟨r, blocks, after, hopen, opened, sound, timed, decodes, hdata, hbodies⟩ :=
    holds_opens h config
  refine ⟨r, hopen, ?_⟩
  intro limit
  have hread : r.readFrom v (dataOf header blocks after) header.firstOffset limit [] = _ :=
    opened.readFrom sound timed decodes header.firstOffset
  rw [Select.want_all] at hread
  refine ⟨_, by rw [hdata, opened.head]; exact hread, ?_⟩
  rw [fill, List.nil_append, List.length_nil, Nat.sub_zero, List.map_take, map_body_rowsOf, hbodies]

/-- A run under the guard keeps `Holds`, and the codes in the files of its start are
known in those of its end. -/
theorem holds_run (lawful : v.Lawful) {header : PartHeader} {past more : List (PartOp × Option Nat)}
    {s s' : Life} (h : Holds v header past s)
    (run : Trace (Life.step v) (fun _ => Life.Roomy v) s more s') :
    Holds v header (past ++ more) s' ∧ s.KnownIn v s' := by
  refine run.invariant (fun more s' => Holds v header (past ++ more) s' ∧ s.KnownIn v s') ?_ ?_
  · rw [List.append_nil]
    exact ⟨h, fun config config' => knows_loadDict _ config config'⟩
  · intro more s₁ op answer s₂ hinv room hok
    obtain ⟨hholds, hknown⟩ := hinv
    obtain ⟨hnext, hstep⟩ := holds_step lawful hholds room hok
    refine ⟨by rwa [← List.append_assoc], ?_⟩
    intro config config'
    exact (hknown config config).trans (hstep config config')

/-- No two strings have one code. -/
theorem Dict.Inv.promoted_inj {d : Dict} (h : d.Inv v) {text text' : String} {coded : UInt8 × Nat}
    (htext : d.promoted.get text = some coded) (htext' : d.promoted.get text' = some coded) :
    text = text' := by
  obtain ⟨code, id⟩ := coded
  obtain ⟨file, closed, last, holds⟩ := h
  obtain ⟨w, hresolve, -⟩ := holds.resolve_promoted htext
  obtain ⟨w', hresolve', -⟩ := holds.resolve_promoted htext'
  rw [hresolve] at hresolve'
  exact (Prod.mk.inj (Option.some.inj hresolve')).2

/-- **Dictionary fidelity** of every run in which promoted strings found room: flushed
bodies read back, encoding answers, no two strings share a code, and a code in the
files means the same from then on. -/
theorem part_faithful (lawful : v.Lawful) {header : PartHeader} (fits : header.Fits)
    {blockBytes : Nat} {level : Int} {codec : Codec} {config : DictConfig}
    {past : List (PartOp × Option Nat)} {s : Life}
    (run : Trace (Life.step v) (fun _ => Life.Roomy v)
      (.writing (PartWriter.create header blockBytes level codec (some config))) past s) :
    ReadsBack v past s ∧
    (∀ (w : PartWriter) (body : Body), s = .writing w → FitsItems v w.dict body.items → CountsItems v w.dict body.items →
      ∃ answer, body.encodeWith v w.dict = .ok answer) ∧
    (∀ w d text text' coded, s = .writing w → w.dict = some d →
      d.promoted.get text = some coded → d.promoted.get text' = some coded → text = text') ∧
    ∀ more s', Trace (Life.step v) (fun _ => Life.Roomy v) s more s' → s.KnownIn v s' := by
  have hstart : Holds v header []
      (.writing (PartWriter.create header blockBytes level codec (some config))) :=
    ⟨[], [], writes_create fits blockBytes level codec (some config), rfl⟩
  obtain ⟨holds, -⟩ := holds_run lawful hstart run
  rw [List.nil_append] at holds
  refine ⟨holds_readsBack holds, ?_, ?_, fun more s' next => (holds_run lawful holds next).2⟩
  · rintro w body rfl hfits hcounts
    obtain ⟨blocks, pending, hw, -⟩ := holds
    exact encodeItems_ok lawful hw.dict hfits hcounts
  · rintro w d text text' coded rfl hd htext htext'
    obtain ⟨blocks, pending, hw, -⟩ := holds
    exact (hw.dict d hd).promoted_inj htext htext'

/-! ## Runs on fixed inputs -/

/-- A vendor for fixed inputs: frames longer than what is in them, as zstd's are for
a few bytes. -/
def plainVendor : Vendor where
  compress _ raw := some ([0x28, 0xB5, 0x2F, 0xFD] ++ raw)
  decompress packed _ := some (packed.drop 4)
  xxh64 bytes := UInt64.ofNat (beNat bytes)
  showF64 bits := toString bits

theorem plainVendor_lawful : plainVendor.Lawful := by
  intro level raw packed h
  obtain rfl := Option.some.inj h
  exact ⟨rfl, List.cons_ne_nil _ _⟩

def wordOp (text : String) : PartOp := .append 0 ⟨[(1, .str text)]⟩

/-- A part whose every long string earns a code at once, so many to a block. -/
def wordPart (blockEntries : Nat) : Life :=
  .writing (PartWriter.create ⟨.ns, 0, 0, 0, 0⟩ 65536 1 .raw (some ⟨[(0, 1)], blockEntries⟩))

/-- Three blocks of words: the first is closed full, the second by a flush, the third
follows an adoption. Words of all of them come again. -/
def wordOps : List PartOp :=
  [wordOp "granite", wordOp "marble", wordOp "basalt", .flush, wordOp "granite",
    .readopt (some ⟨[(0, 1)], 2⟩), wordOp "obsidian", wordOp "basalt", wordOp "granite", .flush,
    wordOp "obsidian", .finish]

/-- What was appended is read back, coded words and all. -/
theorem part_faithful_words : ∃ past s,
    runGuarded (Life.step plainVendor) (fun _ s op => s.Roomy plainVendor op) (wordPart 2) wordOps
        = some (past, s) ∧
      flushedBodies past s
        = ["granite", "marble", "basalt", "granite", "obsidian", "basalt", "granite",
          "obsidian"].map (fun text => ⟨[(1, .str text)]⟩) ∧
      ReadsBack plainVendor past s := by
  have hbodies : (runGuarded (Life.step plainVendor) (fun _ s op => s.Roomy plainVendor op)
      (wordPart 2) wordOps).map (fun run => flushedBodies run.1 run.2)
      = some (["granite", "marble", "basalt", "granite", "obsidian", "basalt", "granite",
        "obsidian"].map fun text => ⟨[(1, .str text)]⟩) := by decide +kernel
  obtain ⟨⟨past, s⟩, hrun, hflushed⟩ := Option.map_eq_some_iff.mp hbodies
  refine ⟨past, s, hrun, hflushed, ?_⟩
  exact (part_faithful plainVendor_lawful ⟨by decide, by decide, by decide, by decide⟩
    (Trace.runGuarded hrun)).1

/-- What encoding one more string answers, after long strings were appended. -/
def encodeAfter (texts : List String) (text : String) : Except Error Unit := do
  let (_, s) ← runAll (Life.step plainVendor) (wordPart 1) (texts.map wordOp)
  match s with
  | .writing w => (Body.encodeWith plainVendor ⟨[(1, .str text)]⟩ w.dict).map fun _ => ()
  | .done _ => .ok ()

/-- **Without room encoding panics**: the block of the fourth string is sixteen bytes
wide. -/
theorem fourth_width_panics : ∃ past w,
    Trace (Life.step plainVendor) (fun _ _ _ => True) (wordPart 1) past (.writing w) ∧
      (Body.mk [(1, .str "ddddddddd")]).encodeWith plainVendor w.dict = .error .panic := by
  have hpanic : encodeAfter ["aaaaaaaaa", "bbbbbbbbb", "ccccccccc"] "ddddddddd" = .error .panic := by
    decide +kernel
  obtain ⟨⟨past, s⟩, hrun⟩ := exists_of_isOk (show (runAll (Life.step plainVendor) (wordPart 1)
    (["aaaaaaaaa", "bbbbbbbbb", "ccccccccc"].map wordOp)).isOk = true by decide +kernel)
  unfold encodeAfter at hpanic
  rw [hrun] at hpanic
  have htrace : Trace (Life.step plainVendor) (fun _ _ _ => True) (wordPart 1) past s :=
    trace_runAll (fun _ _ _ _ => trivial) hrun
  cases s with
  | done files => cases hpanic
  | writing w =>
    refine ⟨past, w, htrace, ?_⟩
    cases hencode : Body.encodeWith plainVendor ⟨[(1, .str "ddddddddd")]⟩ w.dict with
    | ok answer =>
      simp only [bind, Except.bind, hencode, Except.map] at hpanic
      cases hpanic
    | error e =>
      simp only [bind, Except.bind, hencode, Except.map] at hpanic
      rw [Except.error.inj hpanic]

end Okm.Series
