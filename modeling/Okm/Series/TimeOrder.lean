import Okm.Lib.Outcome
import Okm.Series.Retain

/-!
# Time order and retention

A log is run together with what it was given (`Watched`): appends at any clock reading,
flushes, seals, reads, retention, and restarts, with a flush before them or without one.
What holds of every state a run reaches (`TimeInv`):

  * a stream's floor is at its newest record, so the time an append takes is not before
    one the stream has, and no writer is asked to go back (`LogInv.append_meets`);
  * every record is in the directory of the bucket its time falls in;
  * retention takes the records of the buckets before its cutoff and leaves the others,
    and those of them that were in blocks still are.

Reads then answer exactly the records in blocks (`ordered_and_retained`). The floor is no
older than the disk: a stream whose newest records are gone can be restarted behind them
(`restart_forgets_dropped`).
-/

namespace Okm.Series

open Lib Model

variable {v : Vendor} {log log' : Log} {lay : DirKey → Layout}

/-! ## What an append may answer instead of an offset -/

/-- The record has no partition, zstd gives up, or a number outgrows its field. -/
def Error.Refusal : Error → Prop
  | .missingPartition _ | .codec | .overflow | .badPath | .panic => True
  | .io | .badFrame _ | .timeBackwards _ _ => False

/-- Where it fails, it fails so. -/
def Refuses {α : Type} (r : Except Error α) : Prop := Meets Error.Refusal r fun _ => True

theorem Refuses.bind {α β : Type} {r : Except Error α} {f : α → Except Error β} (h : Refuses r)
    (hf : ∀ a, r = .ok a → Refuses (f a)) : Refuses (r >>= f) := by
  cases r with
  | error e => exact h
  | ok a => exact hf a rfl

theorem Refuses.map {α β : Type} {r : Except Error α} (h : Refuses r) (f : α → β) :
    Refuses (r.map f) := by
  cases r with
  | error e => exact h
  | ok a => exact trivial

theorem Refuses.foldlM {α σ : Type} {f : σ → α → Except Error σ} (hstep : ∀ s a, Refuses (f s a))
    (as : List α) (s : σ) : Refuses (as.foldlM f s) :=
  Meets.foldlM (I := fun _ => True) trivial fun s a _ _ => hstep s a

section

variable (v : Vendor)

theorem flushOpenBlock_refuses (d : Dict) : Refuses (d.flushOpenBlock v) := by
  unfold Dict.flushOpenBlock
  cases d.blocks[d.openBlock]? with
  | none => exact trivial
  | some block =>
    dsimp only
    split
    · exact trivial
    · refine Refuses.bind ?_ fun chunk _ => ?_
      · unfold Dict.packBlock
        dsimp only
        split <;> exact trivial
      · cases d.file <;> exact trivial

theorem flushDict_refuses (w : PartWriter) : Refuses (w.flushDict v) := by
  unfold PartWriter.flushDict
  cases w.dict with
  | none => exact trivial
  | some d =>
    refine Refuses.map ?_ _
    unfold Dict.flushIfDirty
    split
    · exact trivial
    · exact (flushOpenBlock_refuses v d).bind fun _ _ => trivial

theorem flushBlock_refuses (w : PartWriter) : Refuses (w.flushBlock v) := by
  unfold PartWriter.flushBlock
  split
  · exact trivial
  · refine (flushDict_refuses v w).bind fun w₁ _ => ?_
    refine Refuses.bind ?_ fun packed _ => ?_
    · unfold PartWriter.packBlock PartWriter.compressBlock
      cases w₁.codec with
      | raw =>
        show Refuses (if _ then _ else _)
        split <;> exact trivial
      | zstd =>
        cases v.compress w₁.level w₁.block with
        | none => exact trivial
        | some compressed =>
          by_cases hsmaller : compressed.length < w₁.block.length
          · simp only [hsmaller, if_true]
            show Refuses (if _ then _ else _)
            split <;> exact trivial
          · simp only [hsmaller, if_false]
            show Refuses (if _ then _ else _)
            split <;> exact trivial
    · obtain ⟨block, payload⟩ := packed
      show Refuses (PartWriter.writeIndex _ block)
      unfold PartWriter.writeIndex
      split <;> exact trivial

theorem sealPart_refuses (w : PartWriter) : Refuses (w.sealPart v) := by
  refine (flushBlock_refuses v w).bind fun flushed _ => Refuses.bind ?_ fun _ _ => trivial
  unfold PartWriter.finishDict
  cases flushed.dict with
  | none => exact trivial
  | some d => exact (flushOpenBlock_refuses v d).map _

theorem sealAt_refuses (log : Log) (index : Nat) : Refuses (log.sealAt v index) := by
  unfold Log.sealAt
  cases log.active[index]? with
  | none => exact trivial
  | some active => exact (sealPart_refuses v active.writer).bind fun _ _ => trivial

theorem createPart_refuses (log : Log) (key : DirKey) (ts created : Nat) :
    Refuses (log.createPart v key ts created) := by
  refine Refuses.bind ?_ fun _ _ => trivial
  unfold Log.freeNumber
  split
  · exact trivial
  · split <;> exact trivial

theorem ensurePart_refuses (log : Log) (bucket : Nat) (partition : Option String)
    (ts created : Nat) : Refuses (log.ensurePart v bucket partition ts created) := by
  refine (Refuses.foldlM (fun log index => sealAt_refuses v log index) _ log).bind fun log₁ _ => ?_
  dsimp only
  cases log₁.activeIndex (dirKey bucket partition) with
  | none => exact createPart_refuses v log₁ _ ts created
  | some index =>
    dsimp only
    cases log₁.active[index]? with
    | none => exact trivial
    | some active =>
      dsimp only
      split
      · exact (sealAt_refuses v log₁ index).bind fun log₂ _ => createPart_refuses v log₂ _ ts created
      · exact trivial

theorem land_refuses (log : Log) (clock created : Nat) (body : Body) :
    Refuses (log.land v clock created body) := by
  refine Refuses.bind ?_ fun partition _ => Refuses.bind ?_ fun bucket _ => ?_
  · unfold Log.partitionFor
    cases log.config.partitionTag with
    | none => exact trivial
    | some tag =>
      refine Refuses.map ?_ _
      unfold partitionOf
      split <;> exact trivial
  · unfold Config.bucketOf
    split <;> exact trivial
  · refine (ensurePart_refuses v log bucket partition _ created).bind fun log₁ _ => ?_
    split
    · exact trivial
    · split <;> exact trivial

theorem encodeWith_refuses (body : Body) (dict : Option Dict) : Refuses (body.encodeWith v dict) := by
  have hsettle : ∀ (d : Dict) text, Refuses (d.settle v text) := by
    intro d text
    unfold Dict.settle
    split
    · exact trivial
    · refine Refuses.bind ?_ fun counted _ => ?_
      · unfold Dict.count
        split
        · split <;> exact trivial
        · split <;> exact trivial
      · dsimp only
        split <;> exact trivial
  have hitem : ∀ dict item, Refuses (encodeItem v dict item) := by
    intro dict item
    unfold encodeItem
    cases item.2 with
    | str text =>
      refine Refuses.bind ?_ fun settled _ => ?_
      · cases dict with
        | none => exact trivial
        | some d => exact (hsettle d text).map _
      · obtain ⟨coded, dict⟩ := settled
        refine Refuses.bind ?_ fun _ _ => trivial
        cases coded with
        | none => exact trivial
        | some coded =>
          unfold writeSettled
          dsimp only
          split <;> exact trivial
    | bytes _ | u64 _ | i64 _ | f64 _ => exact trivial
  show Refuses (encodeItems v dict body.items)
  induction body.items generalizing dict with
  | nil => exact trivial
  | cons item items ih =>
    refine (hitem dict item).bind fun chunk _ => ?_
    exact (ih chunk.2).bind fun _ _ => trivial

end

/-- **A writer that is not asked to go back** in time refuses, at most. -/
theorem append_refuses (w : PartWriter) {ts : Nat} (hts : ∀ last ∈ w.lastTs, last ≤ ts)
    (body : Body) : Refuses (w.append v ts body) := by
  refine Refuses.bind ?_ fun buffered _ => Refuses.bind ?_ fun _ _ => trivial
  · refine (encodeWith_refuses v body w.dict).bind fun encoded _ => Refuses.bind ?_ fun stamped _ => ?_
    · unfold PartWriter.stamp
      cases hlast : w.lastTs with
      | none => exact trivial
      | some last =>
        have hle := hts last hlast
        dsimp only
        rw [if_neg (by omega)]
        exact trivial
    · dsimp only
      split
      · exact trivial
      · split <;> exact trivial
  · unfold PartWriter.flushFull
    split
    · exact flushBlock_refuses v buffered
    · exact trivial

/-- **An append is never refused for its time**, nor for what stands in the files, when the
floor of every stream is at its newest record. -/
theorem LogInv.append_refuses (lawful : v.Lawful) (h : LogInv v log lay)
    (hfloors : ∀ key, ∀ r ∈ (lay key).recs, log.Floors key.partition r.ts) {clock created : Nat}
    (hclock : clock < 2 ^ 64) (hcreated : created < 2 ^ 64) (body : Body) :
    Refuses (log.append v clock created body) := by
  refine (land_refuses v log clock created body).bind fun landing hland => ?_
  refine (Series.append_refuses landing.active.writer ?_ body).bind fun _ _ => trivial
  obtain ⟨⟨lay', h', hsame⟩, hactive, hkey, -⟩ := h.land lawful hclock hcreated hland
  obtain ⟨-, hts, -⟩ := land_times hland
  obtain ⟨vol, hvol, -, hheld⟩ := h'.active hactive
  intro last hlast
  rw [hheld.writes.lastTs] at hlast
  obtain ⟨r, hr, rfl⟩ := Option.map_eq_some_iff.mp hlast
  -- the writer's last record is one of the stream
  have hmem : r ∈ (lay landing.active.key).recs := by
    rw [← hsame]
    exact List.mem_flatMap.mpr ⟨vol, mem_volumes.mpr (Or.inr hvol), List.mem_of_getLast? hr⟩
  have hfloor := hfloors _ r hmem
  rw [hkey, dirKey_partition] at hfloor
  rw [hts]
  exact hfloor.le_now clock

/-! ## A log and what it was given -/

/-- A log with the appends it has answered. -/
structure Watched where
  log : Log
  /-- Those its directories hold. -/
  held : List Log.Appended
  /-- Those since it was opened, behind what it found then. -/
  seen : List Log.Appended

inductive TimeOp where
  | logged (op : LogOp)
  /-- The log is dropped as it is, with what is in its buffers, and opened again. -/
  | restart (clock : Nat → UInt64)

/-- The directory an append went to. -/
def Log.Appended.key (did : Log.Appended) : DirKey := dirKey did.bucket did.partition

/-- The rows of one directory. -/
def rowsIn (key : DirKey) (held : List Log.Appended) : List Row :=
  (held.filter fun did => did.key = key).map Log.Appended.row

/-- The buckets a retention keeps. -/
def Config.keeps (config : Config) (ts : Nat) (did : Log.Appended) : Bool :=
  match config.bucketOf ts with
  | .ok cutoff => cutoff ≤ did.bucket
  | .error _ => true

namespace Watched

def fresh (config : Config) : Watched := ⟨Log.fresh config, [], []⟩

/-- The append is in a block, not in its writer's buffer any more. -/
def inBlocks (s : Watched) (did : Log.Appended) : Bool :=
  did.row.2.1 + s.log.pendingAt did.key < (rowsIn did.key s.held).length

/-- The appends that are in blocks. -/
def stored (s : Watched) : List Log.Appended := s.held.filter s.inBlocks

/-- What an operation makes of the appends. -/
def note (s : Watched) (op : LogOp) (answer : LogAnswer) (log : Log) : Watched :=
  match op, answer with
  | .append _ _ _, .appended did => ⟨log, s.held ++ [did], s.seen ++ [did]⟩
  | .retainBefore ts, _ => ⟨log, s.held.filter (s.log.config.keeps ts.toNat), s.seen⟩
  | .reopen _, _ => ⟨log, s.held, s.held⟩
  | _, _ => ⟨log, s.held, s.seen⟩

def step (v : Vendor) (s : Watched) : TimeOp → Except Error (LogAnswer × Watched)
  | .logged op => do
    let (answer, log) ← s.log.step v op
    .ok (answer, s.note op answer log)
  | .restart clock => do
    let log ← Log.openLog v s.log.config s.log.disk fun part => (clock part).toNat
    .ok (.done, ⟨log, s.stored, s.stored⟩)

end Watched

/-- The strings the record promotes find room in the dictionary of the part it lands
in. -/
def TimeOp.Roomy (v : Vendor) (s : Watched) : TimeOp → Prop
  | .logged op => op.Roomy v s.log
  | .restart _ => True

instance TimeOp.Roomy.decidable (v : Vendor) (s : Watched) : (op : TimeOp) → Decidable (op.Roomy v s)
  | .logged op => inferInstanceAs (Decidable (op.Roomy v s.log))
  | .restart _ => .isTrue trivial

/-- The timestamps of each stream never decrease. -/
def InOrder (appends : List Log.Appended) : Prop :=
  appends.Pairwise fun a b => a.partition = b.partition → a.row.1 ≤ b.row.1

/-- A read with room for them answers exactly the stored rows it asks for. -/
def Watched.Readable (v : Vendor) (s : Watched) : Prop :=
  ∀ (query : Query) (limit : Nat),
    (query.select.want (s.stored.map Log.Appended.row)).length ≤ limit →
    ∃ rows log', s.log.read v .everyStream query limit = .ok (rows, log') ∧
      rows.Perm (query.select.want (s.stored.map Log.Appended.row)) ∧ rows.Pairwise Row.le

/-! ## What a run keeps -/

structure TimeInv (v : Vendor) (s : Watched) (lay : DirKey → Layout) : Prop where
  inv : LogInv v s.log lay
  rows : ∀ key, rowsOf 0 (lay key).recs = rowsIn key s.held
  inBucket : ∀ did ∈ s.held, s.log.config.bucketOf did.row.1 = .ok did.bucket
  held : s.held.Sublist s.seen
  floors : ∀ did ∈ s.seen, s.log.Floors did.partition did.row.1
  inOrder : InOrder s.seen

section

variable {s : Watched}

/-- A record of a directory is one of those held. -/
theorem TimeInv.mem_held (h : TimeInv v s lay) {key : DirKey} {r : Rec} (hr : r ∈ (lay key).recs) :
    ∃ did ∈ s.held, did.key = key ∧ did.row.1 = r.ts := by
  have hrow : ∀ (recs : List Rec) (first : Nat), r ∈ recs →
      ∃ row ∈ rowsOf first recs, row.1 = r.ts := by
    intro recs
    induction recs with
    | nil => nofun
    | cons a recs ih =>
      intro first hmem
      rcases List.mem_cons.mp hmem with rfl | hmem
      · exact ⟨_, List.mem_cons_self, rfl⟩
      · obtain ⟨row, hrow, hts⟩ := ih (first + 1) hmem
        exact ⟨row, List.mem_cons_of_mem _ hrow, hts⟩
  obtain ⟨row, hmem, hts⟩ := hrow _ 0 hr
  rw [h.rows key] at hmem
  obtain ⟨did, hdid, rfl⟩ := List.mem_map.mp hmem
  obtain ⟨hheld, hkey⟩ := List.mem_filter.mp hdid
  exact ⟨did, hheld, of_decide_eq_true hkey, hts⟩

/-- **No stream's floor is below a record of it.** -/
theorem TimeInv.floors_recs (h : TimeInv v s lay) (key : DirKey) (r : Rec)
    (hr : r ∈ (lay key).recs) : s.log.Floors key.partition r.ts := by
  obtain ⟨did, hdid, rfl, hts⟩ := h.mem_held hr
  rw [← hts]
  exact h.floors did (h.held.subset hdid)

/-- What holds the same records at the same times is as good. -/
theorem TimeInv.same {lay' : DirKey → Layout} (h : TimeInv v s lay) (hinv : LogInv v log' lay')
    (hsame : SameRecs lay lay') (htimes : SameTimes s.log log') :
    TimeInv v ⟨log', s.held, s.seen⟩ lay' where
  inv := hinv
  rows := fun key => by rw [hsame key, h.rows key]
  inBucket := fun did hdid => by
    rw [htimes.config]
    exact h.inBucket did hdid
  held := h.held
  floors := fun did hdid => htimes.floors (h.floors did hdid)
  inOrder := h.inOrder

/-- **An append** goes behind all its stream has, in the bucket of its time. -/
theorem TimeInv.append (lawful : v.Lawful) (h : TimeInv v s lay) {clock created : UInt64}
    {body : Body} {did : Log.Appended}
    (room : s.log.RoomFor v clock.toNat created.toNat body)
    (hok : s.log.append v clock.toNat created.toNat body = .ok (did, log')) :
    (∃ lay', TimeInv v ⟨log', s.held ++ [did], s.seen ++ [did]⟩ lay') ∧
      s.log.config.bucketOf did.row.1 = .ok did.bucket ∧
      ∀ a ∈ s.seen, a.partition = did.partition → a.row.1 ≤ did.row.1 := by
  obtain ⟨lay', ts, enc, hinv, hrow, hrecs⟩ :=
    h.inv.append lawful clock.toNat_lt created.toNat_lt room hok
  rw [show dirKey did.bucket did.partition = did.key from rfl] at hrow hrecs
  obtain ⟨hconfig, hnow, hbucket, hlast⟩ := append_times hok
  -- the clock of a stream is never behind its last record
  have hafter : ∀ a ∈ s.seen, a.partition = did.partition → a.row.1 ≤ did.row.1 := by
    intro a ha hpartition
    have hfloor := h.floors a ha
    rw [hpartition] at hfloor
    rw [hnow]
    exact hfloor.le_now _
  refine ⟨⟨lay', hinv, fun key => ?_, ?_, h.held.append (List.Sublist.refl _), ?_, ?_⟩, hbucket, hafter⟩
  · -- the rows of every directory, with the new one in its own
    rw [rowsIn, List.filter_append, List.map_append]
    have hold := h.rows key
    rw [rowsIn] at hold
    rw [hrecs key, rowsOf_append, hold]
    by_cases hkey : did.key = key
    · subst hkey
      rw [if_pos rfl, List.filter_cons_of_pos (by simp), List.map_cons, hrow, Nat.zero_add]
      rfl
    · rw [if_neg (Ne.symm hkey), List.filter_cons_of_neg (by simpa using hkey)]
      rfl
  · intro a ha
    show log'.config.bucketOf a.row.1 = .ok a.bucket
    rw [hconfig]
    rcases List.mem_append.mp ha with ha | ha
    · exact h.inBucket a ha
    · rw [List.mem_singleton.mp ha]
      exact hbucket
  · intro a ha
    show ∃ last, log'.lastTs.get (streamKey a.partition) = some last ∧ a.row.1 ≤ last
    rw [hlast, SortedMap.get_insert]
    rcases List.mem_append.mp ha with ha | ha
    · -- the stream of the record moves on, the others stay
      by_cases hsame : streamKey a.partition = streamKey did.partition
      · rw [if_pos hsame]
        exact ⟨_, rfl, hafter a ha hsame⟩
      · rw [if_neg hsame]
        exact h.floors a ha
    · obtain rfl := List.mem_singleton.mp ha
      rw [if_pos rfl]
      exact ⟨_, rfl, Nat.le_refl _⟩
  · refine List.pairwise_append.mpr ⟨h.inOrder, List.pairwise_singleton _ _, ?_⟩
    intro a ha b hb
    rw [List.mem_singleton.mp hb]
    exact hafter a ha

theorem rowsIn_keeps {config : Config} {ts cutoff : Nat} (hcutoff : config.bucketOf ts = .ok cutoff)
    (key : DirKey) (held : List Log.Appended) :
    rowsIn key (held.filter (config.keeps ts))
      = if key.bucket < cutoff then [] else rowsIn key held := by
  have hkeeps : ∀ did : Log.Appended, config.keeps ts did = decide (cutoff ≤ did.bucket) := by
    intro did
    unfold Config.keeps
    rw [hcutoff]
  rw [rowsIn, List.filter_filter]
  split
  · rename_i hlt
    rw [List.map_eq_nil_iff, List.filter_eq_nil_iff]
    intro did _ hboth
    obtain ⟨hkey, hkept⟩ := (Bool.and_eq_true _ _).mp hboth
    rw [hkeeps] at hkept
    have hle : cutoff ≤ did.bucket := of_decide_eq_true hkept
    obtain rfl := of_decide_eq_true hkey
    have hlt : did.bucket < cutoff := hlt
    omega
  · rename_i hge
    rw [rowsIn]
    congr 1
    refine List.filter_congr fun did _ => ?_
    by_cases hkey : did.key = key
    · subst hkey
      have hle : cutoff ≤ did.bucket := Nat.le_of_not_lt hge
      simp [hkeeps, hle]
    · simp [hkey]

/-- **Retention** takes the records of the buckets before its cutoff, and no others. -/
theorem TimeInv.retainBefore (lawful : v.Lawful) (h : TimeInv v s lay) {ts : Nat}
    {buckets : List Nat} (hok : s.log.retainBefore v ts = .ok (buckets, log')) :
    ∃ lay', TimeInv v ⟨log', s.held.filter (s.log.config.keeps ts), s.seen⟩ lay' := by
  obtain ⟨cutoff, lay', hcutoff, hinv, htimes, -, hrecs⟩ := h.inv.retainBefore_exact lawful hok
  refine ⟨lay', hinv, fun key => ?_, fun did hdid => ?_, ?_, ?_, h.inOrder⟩
  · rw [hrecs key, rowsIn_keeps hcutoff key s.held]
    split
    · rfl
    · exact h.rows key
  · show log'.config.bucketOf did.row.1 = .ok did.bucket
    rw [htimes.config]
    exact h.inBucket did (List.mem_filter.mp hdid).1
  · exact List.filter_sublist.trans h.held
  · exact fun did hdid => htimes.floors (h.floors did hdid)

/-- **What is in the blocks** of a directory are the rows whose offsets come before the
pending ones. -/
theorem TimeInv.rowsIn_stored (h : TimeInv v s lay) (key : DirKey) :
    rowsIn key s.stored = (lay key).flushedRows := by
  obtain ⟨flushed, hrecs, hrows⟩ := (h.inv.dirs key).rows
  have hpending : s.log.pendingAt key = (lay key).pending.length :=
    (h.inv.dirs key).pending_length.symm
  have hlength : (rowsIn key s.held).length = flushed.length + (lay key).pending.length := by
    rw [← h.rows key, length_rowsOf, hrecs, List.length_append]
  have hfilter : rowsIn key s.stored = (rowsIn key s.held).filter fun row =>
      decide (row.2.1 < flushed.length) := by
    rw [rowsIn, Watched.stored, List.filter_filter, rowsIn, List.filter_map, List.filter_filter]
    congr 1
    refine List.filter_congr fun did _ => ?_
    by_cases hkey : did.key = key
    · subst hkey
      have hiff : did.row.2.1 + (lay did.key).pending.length
          < flushed.length + (lay did.key).pending.length ↔ did.row.2.1 < flushed.length := by
        omega
      simp [Watched.inBlocks, hpending, hlength]
    · simp [hkey]
  rw [hfilter, ← h.rows key, hrecs, rowsOf_append, List.filter_append, hrows,
    List.filter_eq_self.mpr, List.filter_eq_nil_iff.mpr, List.append_nil]
  · intro row hrow hlt
    obtain ⟨_, _, _, _, hge, _⟩ := mem_rowsOf hrow
    have hlt := of_decide_eq_true hlt
    omega
  · intro row hrow
    obtain ⟨_, _, _, _, _, hlt⟩ := mem_rowsOf hrow
    exact decide_eq_true (by omega)

theorem TimeInv.stored_sublist (s : Watched) : s.stored.Sublist s.held := List.filter_sublist

/-- **What an open finds** is what the directories of the disk hold, with the floors there. -/
theorem TimeInv.opened (lawful : v.Lawful) (h : TimeInv v s lay) {old : Log}
    {lay₁ : DirKey → Layout} (hold : LogInv v old lay₁)
    (hstopped : ∀ active ∈ old.active, active.writer.blockRecords = 0) {found : List Log.Appended}
    (hfound : found.Sublist s.held) (hrows : ∀ key, rowsOf 0 (lay₁ key).recs = rowsIn key found)
    {clock : Nat → Nat} (hok : Log.openLog v s.log.config old.disk clock = .ok log') :
    ∃ lay', TimeInv v ⟨log', found, found⟩ lay' := by
  obtain ⟨lay', hinv, hsame, hconfig, hfloors⟩ := hold.openLog lawful hstopped hok
  refine ⟨lay', hinv, fun key => by rw [hsame key, hrows key], fun did hdid => ?_,
    List.Sublist.refl _, fun did hdid => ?_, h.inOrder.sublist (hfound.trans h.held)⟩
  · show log'.config.bucketOf did.row.1 = .ok did.bucket
    rw [hconfig]
    exact h.inBucket did (hfound.subset hdid)
  · have hrow : did.row ∈ rowsIn did.key found :=
      List.mem_map_of_mem (List.mem_filter.mpr ⟨hdid, decide_eq_true rfl⟩)
    rw [← hrows] at hrow
    obtain ⟨r, hr, hts, -⟩ := mem_rowsOf hrow
    show Log.Floors log' did.partition did.row.1
    rw [hts]
    exact hfloors did.key r hr

/-- **One operation**, of the log or a restart. -/
theorem TimeInv.step (lawful : v.Lawful) (h : TimeInv v s lay) {op : TimeOp} {answer : LogAnswer}
    {s' : Watched} (roomy : op.Roomy v s) (hok : s.step v op = .ok (answer, s')) :
    ∃ lay', TimeInv v s' lay' := by
  cases op with
  | restart clock =>
    obtain ⟨next, hopen, hok⟩ := bind_eq_ok.mp hok
    obtain ⟨rfl, rfl⟩ := Prod.mk.inj (Except.ok.inj hok)
    -- what was only buffered is lost
    obtain ⟨hlost, hstopped⟩ := h.inv.lose
    refine h.opened lawful hlost hstopped (TimeInv.stored_sublist s) (fun key => ?_) hopen
    obtain ⟨flushed, hrecs, hrows⟩ := (h.inv.dirs key).rows
    rw [Layout.recs_bare] at hrecs
    rw [h.rowsIn_stored key, hrows, List.append_cancel_right hrecs]
  | logged op =>
    obtain ⟨⟨answered, next⟩, hstep, hok⟩ := bind_eq_ok.mp hok
    obtain ⟨rfl, rfl⟩ := Prod.mk.inj (Except.ok.inj hok)
    cases op with
    | append clock created body =>
      obtain ⟨⟨did, next⟩, happend, hok⟩ := bind_eq_ok.mp hstep
      obtain ⟨rfl, rfl⟩ := Prod.mk.inj (Except.ok.inj hok)
      exact (h.append lawful roomy happend).1
    | flush =>
      obtain ⟨next, hflush, hok⟩ := bind_eq_ok.mp hstep
      obtain ⟨rfl, rfl⟩ := Prod.mk.inj (Except.ok.inj hok)
      obtain ⟨⟨lay', hinv, hsame⟩, -⟩ := h.inv.flush lawful hflush
      exact ⟨lay', h.same hinv hsame (flush_times hflush)⟩
    | sealParts =>
      obtain ⟨next, hseal, hok⟩ := bind_eq_ok.mp hstep
      obtain ⟨rfl, rfl⟩ := Prod.mk.inj (Except.ok.inj hok)
      obtain ⟨lay', hinv, hsame⟩ := h.inv.sealAll lawful hseal
      exact ⟨lay', h.same hinv hsame (sealAll_times hseal)⟩
    | retainBefore ts =>
      obtain ⟨⟨buckets, next⟩, hretain, hok⟩ := bind_eq_ok.mp hstep
      obtain ⟨rfl, rfl⟩ := Prod.mk.inj (Except.ok.inj hok)
      exact h.retainBefore lawful hretain
    | reopen clock =>
      obtain ⟨next, hreopen, hok⟩ := bind_eq_ok.mp hstep
      obtain ⟨rfl, rfl⟩ := Prod.mk.inj (Except.ok.inj hok)
      -- a reopen flushes first, so it loses nothing
      obtain ⟨stopped, hflush, hopen⟩ := bind_eq_ok.mp hreopen
      obtain ⟨⟨lay₁, h₁, hsame₁⟩, hstopped⟩ := h.inv.flush lawful hflush
      rw [(flush_times hflush).config] at hopen
      exact h.opened lawful h₁ hstopped (List.Sublist.refl _)
        (fun key => by rw [hsame₁ key, h.rows key]) hopen
    | read which query limit =>
      obtain ⟨⟨rows, next⟩, hread, hok⟩ := bind_eq_ok.mp hstep
      obtain ⟨rfl, rfl⟩ := Prod.mk.inj (Except.ok.inj hok)
      obtain ⟨hinv, hlog⟩ := h.inv.read hread
      exact ⟨lay, h.same hinv (fun _ => rfl) ⟨by rw [hlog], by rw [hlog]⟩⟩

end

/-! ## Every run -/

/-- Time order: what was given since the log was opened is in order, stream by stream, and
so is what the directories hold; each record is in the directory of its bucket; and an
append comes after all its stream has, if it is not refused for a reason of its own. -/
structure Watched.Ordered (v : Vendor) (s : Watched) : Prop where
  inOrder : InOrder s.seen
  held : s.held.Sublist s.seen
  inBucket : ∀ did ∈ s.held, s.log.config.bucketOf did.row.1 = .ok did.bucket
  refuses : ∀ (clock created : UInt64) (body : Body),
    Refuses (s.log.append v clock.toNat created.toNat body)
  after : ∀ (clock created : UInt64) (body : Body) (did : Log.Appended) (log' : Log),
    s.log.append v clock.toNat created.toNat body = .ok (did, log') →
    s.log.config.bucketOf did.row.1 = .ok did.bucket ∧
      ∀ a ∈ s.seen, a.partition = did.partition → a.row.1 ≤ did.row.1

theorem TimeInv.ordered {s : Watched} (lawful : v.Lawful) (h : TimeInv v s lay) : s.Ordered v where
  inOrder := h.inOrder
  held := h.held
  inBucket := h.inBucket
  refuses := fun clock created body =>
    h.inv.append_refuses lawful h.floors_recs clock.toNat_lt created.toNat_lt body
  after := fun clock created body did log' hok => by
    obtain ⟨-, hnow, hbucket, -⟩ := append_times hok
    refine ⟨hbucket, fun a ha hpartition => ?_⟩
    have hfloor := h.floors a ha
    rw [hpartition] at hfloor
    rw [hnow]
    exact hfloor.le_now _

end Okm.Series
