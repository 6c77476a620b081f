import Okm.Model.Labels

/-!
# A batch against step by step

A batch view stands for the store its commit will leave. For point calls that is the
whole story: each read answers what the store would answer had the earlier writes been
applied to it (`call_refines`), so a list of calls and its commit end where the direct
execution ends.

`save_with_prev_into` is written over that view, except in one place: the old row is read
through the batch and its labels are looked up in the store below. A label the same batch
has given out is not there yet, so the old row comes back unnamed, and whatever is derived
from its label is derived anew. `NamedAlike` is the condition under which that does not
show; `simulates_save` is the step, and the run follows by induction.
-/

namespace Okm.Model

open Lib VirtualStorage

/-! ## Point calls -/

/-- A call on a store that names its keys. -/
inductive PointCall where
  | get (key : Bytes)
  | put (key value : Bytes)
  | del (key : Bytes)
  | commit (batch : Batch)

section

variable {σ : Type} [VirtualStorage σ]

/-- What a call answers, and the store it leaves. -/
def pointCall (store : σ) : PointCall → Except Error (Option Bytes) × σ
  | .get key => (VirtualStorage.get store key, store)
  | .put key value =>
    let (answer, store) := VirtualStorage.put store key value
    (answer.map fun _ => none, store)
  | .del key =>
    let (answer, store) := VirtualStorage.del store key
    (answer.map fun _ => none, store)
  | .commit batch =>
    let (answer, store) := commitBatch store batch
    (answer.map fun _ => none, store)

/-- The answers of a list of calls, and the store they leave. -/
def pointCalls (store : σ) : List PointCall → List (Except Error (Option Bytes)) × σ
  | [] => ([], store)
  | call :: calls =>
    let rest := pointCalls (pointCall store call).2 calls
    ((pointCall store call).1 :: rest.1, rest.2)

end

/-- **One call through a batch** answers what the store the view stands for answers, and
leaves a view of the store that one leaves. -/
theorem call_refines (s : BatchStore Keyspace) (call : PointCall) :
    (pointCall s call).1 = (pointCall (viewMap s) call).1 ∧
    viewMap (pointCall s call).2 = (pointCall (viewMap s) call).2 ∧
    (pointCall s call).2.store = s.store := by
  cases call with
  | get key =>
    refine ⟨?_, rfl, rfl⟩
    change VirtualStorage.get s key = .ok ((viewMap s).get key)
    rw [get_viewMap]
    exact lawfulBatchStore.get_eq s key
  | put key value => exact ⟨rfl, applyOps_append s.store s.batch.ops [(key, some value)], rfl⟩
  | del key => exact ⟨rfl, applyOps_append s.store s.batch.ops [(key, none)], rfl⟩
  | commit batch =>
    have hcall : pointCall s (.commit batch)
        = (.ok none, { s with batch := ⟨s.batch.ops ++ batch.ops⟩ }) :=
      congrArg (fun answered : Except Error Unit × BatchStore Keyspace =>
        (answered.1.map fun _ => none, answered.2)) (commitBatch_batchStore s batch)
    rw [hcall]
    exact ⟨rfl, applyOps_append s.store s.batch.ops batch.ops, rfl⟩

/-- A list of calls through a batch, against the same calls on the store itself. -/
theorem calls_refine (s : BatchStore Keyspace) (calls : List PointCall) :
    (pointCalls s calls).1 = (pointCalls (viewMap s) calls).1 ∧
    viewMap (pointCalls s calls).2 = (pointCalls (viewMap s) calls).2 ∧
    (pointCalls s calls).2.store = s.store := by
  induction calls generalizing s with
  | nil => exact ⟨rfl, rfl, rfl⟩
  | cons call calls ih =>
    obtain ⟨hanswer, hview, hstore⟩ := call_refines s call
    obtain ⟨hanswers, hviews, hstores⟩ := ih (pointCall s call).2
    rw [hview] at hanswers hviews
    refine ⟨?_, hviews, hstores.trans hstore⟩
    unfold pointCalls
    dsimp only
    rw [hanswer, hanswers]

/-! ## Views that read alike -/

/-- Two views through which every key reads the same. -/
def ReadAlike (s t : BatchStore Keyspace) : Prop := viewGet s = viewGet t

theorem viewMap_eq {s t : BatchStore Keyspace} (h : ReadAlike s t) : viewMap s = viewMap t := by
  refine SortedMap.ext_get fun k => ?_
  rw [get_viewMap, get_viewMap, h]

theorem readAlike_freshView (s : BatchStore Keyspace) : ReadAlike s (freshView (viewMap s)) := by
  funext k
  exact viewGet_eq s k

namespace VocabCache

/-- A scan through a batch is refused, whatever it reads. -/
theorem scanMaxPlusOne_batch (w : VocabId) (faces : VocabFaces) (s : BatchStore Keyspace)
    (header : Bytes) : scanMaxPlusOne w faces s header = .error .scanThroughBatch := rfl

theorem get_alike {s t : BatchStore Keyspace} (h : ReadAlike s t) (k : Bytes) :
    VirtualStorage.get s k = VirtualStorage.get t k := by
  rw [lawfulBatchStore.get_eq s k, lawfulBatchStore.get_eq t k]
  exact congrArg Except.ok (congrFun h k)

theorem takeNext_alike (w : VocabId) (cache : VocabCache) {s t : BatchStore Keyspace}
    (h : ReadAlike s t) (header : Bytes) :
    takeNext w cache s header = takeNext w cache t header := by
  unfold takeNext
  simp only [get_alike h, scanMaxPlusOne_batch]

/-- One label interned through views that read alike: the same id, the same memo, and
views that still read alike. -/
theorem idFor_alike (w : VocabId) (cache : VocabCache) {s t : BatchStore Keyspace}
    (h : ReadAlike s t) (header : Bytes) (label : String) :
    ∃ answer cache' s' t', idFor w cache s header label = (answer, cache', s') ∧
      idFor w cache t header label = (answer, cache', t') ∧ ReadAlike s' t' := by
  unfold idFor
  rw [get_alike h]
  cases VirtualStorage.get t (nameKey cache.faces header label) with
  | error e => exact ⟨_, _, s, t, rfl, rfl, h⟩
  | ok raw =>
    dsimp only
    cases raw.bind w.fromBe with
    | some id => exact ⟨_, _, s, t, rfl, rfl, h⟩
    | none =>
      dsimp only
      rw [takeNext_alike w cache h]
      cases takeNext w cache t header with
      | error e => exact ⟨_, _, s, t, rfl, rfl, h⟩
      | ok found =>
        obtain ⟨id, cache'⟩ := found
        dsimp only
        cases w.succ id with
        | none => exact ⟨_, _, s, t, rfl, rfl, h⟩
        | some next =>
          dsimp only
          rw [commitBatch_batchStore, commitBatch_batchStore]
          refine ⟨_, _, _, _, rfl, rfl, ?_⟩
          -- both views take the same three writes
          have hs := lawfulBatchStore.read_commit s (allocation w cache'.faces header label id next)
          have ht := lawfulBatchStore.read_commit t (allocation w cache'.faces header label id next)
          rw [commitBatch_batchStore] at hs ht
          funext k
          have hk : viewGet s k = viewGet t k := congrFun h k
          refine (hs k).trans (Eq.trans ?_ (ht k).symm)
          change Option.getD _ (viewGet s k) = Option.getD _ (viewGet t k)
          rw [hk]

end VocabCache

namespace Document

variable {K R : Type} [KeyEncode K] (doc : Document K R)

theorem intern_alike {s t : BatchStore Keyspace} (h : ReadAlike s t) (document : R) :
    ∃ answer s' t', doc.intern document s = (answer, s') ∧ doc.intern document t = (answer, t') ∧
      ReadAlike s' t' := by
  unfold Document.intern
  generalize doc.vocabFields = fs
  induction fs generalizing document s t with
  | nil => exact ⟨_, s, t, rfl, rfl, h⟩
  | cons f fs ih =>
    unfold internFields
    cases f.label document with
    | none => exact ih h document
    | some label =>
      obtain ⟨answer, cache', s', t', hs, ht, hrel⟩ :=
        VocabCache.idFor_alike f.width { faces := f.faces } h doc.header label
      dsimp only
      rw [hs, ht]
      cases answer with
      | error e => exact ⟨_, s', t', rfl, rfl, hrel⟩
      | ok id => exact ih hrel _

/-! ## The old row -/

/-- Two readings of the old row that leave the table the same way: the same faces, the
same children, the same share of every group. -/
structure LeavesAlike (key : K) (old old' : R) : Prop where
  faces : (doc.indexEntries key old).map Prod.fst = (doc.indexEntries key old').map Prod.fst
  children : doc.embedKeys old = doc.embedKeys old'
  groups : ∀ reduce ∈ doc.reduces, reduce.groupBytes key old = reduce.groupBytes key old' ∧
    ∀ acc, reduce.next acc key old false = reduce.next acc key old' false

/-- The row a save of `key` would replace leaves the table alike whether its labels are
looked up in the store below the batch or through the batch. -/
def NamedAlike (s : BatchStore Keyspace) (key : K) : Prop :=
  ∀ raw old old', viewGet s (doc.primaryKey key) = some raw →
    doc.derefVocab s.store (doc.decodePayload raw) = .ok old →
    doc.derefVocab (viewMap s) (doc.decodePayload raw) = .ok old' → doc.LeavesAlike key old old'

/-- Two old rows, both missing or leaving alike. -/
def PrevAlike (key : K) : Option R → Option R → Prop
  | none, none => True
  | some old, some old' => doc.LeavesAlike key old old'
  | _, _ => False

variable {doc}

/-- The old row a save reads for itself: the view's row, named by the store below. -/
theorem prevRow_read (doc : Document K R) (s : BatchStore Keyspace) (key : K) :
    ∃ prev, doc.prevRow key none s = (.ok prev, s) ∧
      (viewGet s (doc.primaryKey key) = none ∧ prev = none ∨
        ∃ raw old, viewGet s (doc.primaryKey key) = some raw ∧ prev = some old ∧
          doc.derefVocab s.store (doc.decodePayload raw) = .ok old) := by
  have hget : peek (fun view => VirtualStorage.get view (doc.primaryKey key)) s
      = (.ok (viewGet s (doc.primaryKey key)), s) :=
    congrArg (·, s) (lawfulBatchStore.get_eq s (doc.primaryKey key))
  unfold Document.prevRow
  dsimp only
  rw [run_bind_of_ok hget]
  cases hraw : viewGet s (doc.primaryKey key) with
  | none => exact ⟨none, rfl, .inl ⟨rfl, rfl⟩⟩
  | some raw =>
    obtain ⟨old, hold⟩ := derefVocabFields_ok doc.header s.store doc.vocabFields
      (doc.decodePayload raw)
    have hpeek : peekStore (fun store => doc.derefVocab store (doc.decodePayload raw)) s
        = (.ok old, s) := congrArg (·, s) hold
    refine ⟨some old, ?_, .inr ⟨raw, old, rfl, rfl, hold⟩⟩
    dsimp only
    rw [run_bind_of_ok hpeek]
    rfl

/-- The old rows found through a batch and after its commit. -/
theorem prevRow_alike {s : BatchStore Keyspace} {key : K} (named : doc.NamedAlike s key) :
    ∃ prev prev', doc.prevRow key none s = (.ok prev, s) ∧
      doc.prevRow key none (freshView (viewMap s)) = (.ok prev', freshView (viewMap s)) ∧
      doc.PrevAlike key prev prev' := by
  have hview : viewGet (freshView (viewMap s)) = viewGet s := (readAlike_freshView s).symm
  obtain ⟨prev, hprev, hs⟩ := prevRow_read doc s key
  obtain ⟨prev', hprev', ht⟩ := prevRow_read doc (freshView (viewMap s)) key
  refine ⟨prev, prev', hprev, hprev', ?_⟩
  rw [hview] at ht
  rcases hs with ⟨hnone, rfl⟩ | ⟨raw, old, hraw, rfl, hold⟩
  · rcases ht with ⟨-, rfl⟩ | ⟨raw, old', hraw, -, -⟩
    · trivial
    · rw [hnone] at hraw
      cases hraw
  · rcases ht with ⟨hnone, -⟩ | ⟨raw', old', hraw', rfl, hold'⟩
    · rw [hraw] at hnone
      cases hnone
    · obtain rfl := Option.some.inj (hraw.symm.trans hraw')
      exact named raw old old' hraw hold hold'

/-! ## What a write does with it -/

omit [KeyEncode K] in
theorem regroup_alike {key : K} {old old' : R} {reduces : List (Reduce K R)}
    (h : ∀ reduce ∈ reduces, reduce.groupBytes key old = reduce.groupBytes key old' ∧
      ∀ acc, reduce.next acc key old false = reduce.next acc key old' false) (header : Bytes)
    (f : Reads) : regroup header key old false reduces f = regroup header key old' false reduces f := by
  induction reduces generalizing f with
  | nil => rfl
  | cons reduce rest ih =>
    obtain ⟨hgroup, hnext⟩ := h reduce List.mem_cons_self
    have hentry : reduce.entryKey header key old = reduce.entryKey header key old' := by
      rw [Reduce.entryKey, Reduce.entryKey, hgroup]
    rw [regroup, regroup, hentry, hnext]
    exact ih (fun r hr => h r (List.mem_cons_of_mem _ hr)) _

theorem rowImage_alike {key : K} {prev prev' : Option R} (h : doc.PrevAlike key prev prev')
    (document : R) (f : Reads) :
    doc.rowImage key document prev (doc.staleFaces key document prev) f
      = doc.rowImage key document prev' (doc.staleFaces key document prev') f := by
  cases prev with
  | none =>
    cases prev' with
    | none => rfl
    | some old' => exact h.elim
  | some old =>
    cases prev' with
    | none => exact h.elim
    | some old' =>
      obtain ⟨hfaces, hchildren, hgroups⟩ := h
      have hops : doc.rowOps key document (some old) (doc.staleFaces key document (some old))
          = doc.rowOps key document (some old') (doc.staleFaces key document (some old')) := by
        simp only [rowOps, staleFaces, releasedKeys, hfaces, hchildren]
      have hunfold : doc.unfolded key (some old) f = doc.unfolded key (some old') f :=
        regroup_alike hgroups doc.header f
      rw [rowImage, rowImage, hops, hunfold]

/-! ## One save -/

/-- **A save into a batch simulates a save after its commit**: the same verdict, and views
that still read alike. -/
theorem simulates_save {s : BatchStore Keyspace} {key : K} (named : doc.NamedAlike s key)
    (document : R) :
    ∃ answer s' t', doc.saveWithPrevInto key document none s = (answer, s') ∧
      doc.saveWithPrevInto key document none (freshView (viewMap s)) = (answer, t') ∧
      ReadAlike s' t' := by
  obtain ⟨prev, prev', hprev, hprev', halike⟩ := prevRow_alike named
  obtain ⟨answer, s₁, t₁, hs, ht, hrel⟩ := doc.intern_alike (readAlike_freshView s) document
  unfold Document.saveWithPrevInto
  rw [run_bind_of_ok hprev, run_bind_of_ok hprev', run_bind, run_bind, hs, ht]
  cases answer with
  | error e => exact ⟨.error e, s₁, t₁, rfl, rfl, hrel⟩
  | ok row =>
    obtain ⟨s₂, hwrite, hview⟩ := doc.writes_writeRow (σ := BatchStore Keyspace) key row prev
      (doc.staleFaces key row prev) s₁
    obtain ⟨t₂, hwrite', hview'⟩ := doc.writes_writeRow (σ := BatchStore Keyspace) key row prev'
      (doc.staleFaces key row prev') t₁
    refine ⟨.ok (), s₂, t₂, hwrite, hwrite', hview.trans (Eq.trans ?_ hview'.symm)⟩
    -- the views before the write read alike, and so do the two images of the write
    have hread : LawfulStorage.read s₁ = LawfulStorage.read t₁ := hrel
    rw [hread]
    exact rowImage_alike halike row _

/-! ## Many saves -/

variable (doc)

/-- The saves of one batch; a refused one ends the list. -/
def saveBatch : List (K × R) → Verb (BatchStore Keyspace) Unit
  | [] => pure ()
  | (key, document) :: saves => do
    doc.saveWithPrevInto key document none
    saveBatch saves

/-- The same saves, each committed before the next. -/
def saveEach : List (K × R) → Verb Keyspace Unit
  | [] => pure ()
  | (key, document) :: saves => do
    fun store => commitWrites store (doc.saveWithPrevInto key document none)
    saveEach saves

/-- Every save of the batch finds an old row that leaves alike. -/
def NamedAlong (s : BatchStore Keyspace) : List (K × R) → Prop
  | [] => True
  | (key, document) :: saves =>
    doc.NamedAlike s key ∧ NamedAlong (doc.saveWithPrevInto key document none s).2 saves

variable {doc}

/-- One save committed alone, when the batch takes it. -/
theorem commitWrites_save {s : BatchStore Keyspace} {key : K} (named : doc.NamedAlike s key)
    (document : R) :
    ∃ answer s', doc.saveWithPrevInto key document none s = (answer, s') ∧
      (commitWrites (viewMap s) (doc.saveWithPrevInto key document none)).1 = answer ∧
      (answer = .ok () →
        (commitWrites (viewMap s) (doc.saveWithPrevInto key document none)).2 = viewMap s') := by
  obtain ⟨answer, s', t', hs, ht, hrel⟩ := simulates_save named document
  refine ⟨answer, s', hs, ?_⟩
  rcases commitWrites_cases (viewMap s) (doc.saveWithPrevInto key document none) with
    ⟨e, t, hbody, hcommit⟩ | ⟨a, t, hbody, hcommit⟩
  · obtain ⟨rfl, rfl⟩ := Prod.mk.inj (ht.symm.trans hbody)
    rw [hcommit]
    exact ⟨rfl, fun h => by cases h⟩
  · obtain ⟨rfl, rfl⟩ := Prod.mk.inj (ht.symm.trans hbody)
    rw [hcommit]
    exact ⟨rfl, fun _ => (viewMap_eq hrel).symm⟩

/-- The saves of a batch, against the same saves from the store its view stands for. -/
theorem simulates_saves {s : BatchStore Keyspace} {saves : List (K × R)}
    (named : doc.NamedAlong s saves) :
    (doc.saveBatch saves s).1 = (doc.saveEach saves (viewMap s)).1 ∧
    ((doc.saveBatch saves s).1 = .ok () →
      viewMap (doc.saveBatch saves s).2 = (doc.saveEach saves (viewMap s)).2) := by
  induction saves generalizing s with
  | nil => exact ⟨rfl, fun _ => rfl⟩
  | cons save saves ih =>
    obtain ⟨key, document⟩ := save
    obtain ⟨hnow, hlater⟩ := named
    obtain ⟨answer, s', hs, hverdict, hstore⟩ := commitWrites_save hnow document
    rw [hs] at hlater
    unfold saveBatch saveEach
    rw [run_bind, run_bind, hs]
    generalize commitWrites (viewMap s) (doc.saveWithPrevInto key document none) = committed
      at hverdict hstore ⊢
    obtain ⟨answer', store⟩ := committed
    dsimp only at hverdict hstore
    subst hverdict
    cases answer' with
    | error e => exact ⟨rfl, fun h => by cases h⟩
    | ok _ =>
      obtain rfl := hstore rfl
      exact ih hlater

/-! ## When an old row leaves alike -/

theorem LeavesAlike.refl (key : K) (old : R) : doc.LeavesAlike key old old :=
  ⟨rfl, rfl, fun _ _ => ⟨rfl, fun _ => rfl⟩⟩

/-- A row named the same below the batch and through it. -/
theorem namedAlike_of_same {s : BatchStore Keyspace} {key : K}
    (h : ∀ raw ∈ viewGet s (doc.primaryKey key),
      doc.derefVocab s.store (doc.decodePayload raw)
        = doc.derefVocab (viewMap s) (doc.decodePayload raw)) : doc.NamedAlike s key := by
  intro raw old old' hraw hold hold'
  obtain rfl := Except.ok.inj (hold.symm.trans ((h raw hraw).trans hold'))
  exact .refl key old

/-! ## The two halves -/

/-- **A batch is its calls step by step.** Point calls through a batch answer what the
store would after the earlier writes, leave it alone, and commit to where it would be;
and a batch of saves commits to where the saves lead one by one, as long as every old row
leaves alike. -/
theorem batch_refines_steps (doc : Document K R) (store : Keyspace) :
    (∀ (batch : Batch) (calls : List PointCall),
      (pointCalls (⟨store, batch⟩ : BatchStore Keyspace) calls).1
        = (pointCalls (applyOps store batch.ops) calls).1 ∧
      (pointCalls (⟨store, batch⟩ : BatchStore Keyspace) calls).2.store = store ∧
      commitView (pointCalls (⟨store, batch⟩ : BatchStore Keyspace) calls).2
        = (.ok (), (pointCalls (applyOps store batch.ops) calls).2)) ∧
    (∀ saves : List (K × R), doc.NamedAlong (freshView store) saves →
      (commitWrites store (doc.saveBatch saves)).1 = (doc.saveEach saves store).1 ∧
      ((commitWrites store (doc.saveBatch saves)).1 = .ok () →
        (commitWrites store (doc.saveBatch saves)).2 = (doc.saveEach saves store).2)) := by
  refine ⟨fun batch calls => ?_, fun saves named => ?_⟩
  · obtain ⟨hanswers, hview, hstore⟩ := calls_refine ⟨store, batch⟩ calls
    exact ⟨hanswers, hstore, congrArg (Except.ok (), ·) hview⟩
  · obtain ⟨hanswer, hview⟩ := simulates_saves named
    change (doc.saveBatch saves (freshView store)).1 = (doc.saveEach saves store).1 at hanswer
    rcases commitWrites_cases store (doc.saveBatch saves) with
      ⟨e, s', hbody, hcommit⟩ | ⟨a, s', hbody, hcommit⟩
    · rw [hbody] at hanswer
      rw [hcommit]
      exact ⟨hanswer, fun h => by cases h⟩
    · rw [hbody] at hanswer hview
      rw [hcommit]
      exact ⟨hanswer, fun _ => hview rfl⟩

end Document

/-! ## Tags by their label -/

/-- A tag as the code holds it: the label, the id it was given, or both. -/
structure Tag where
  name : Option String
  id : Option Nat
  deriving DecidableEq, Repr

def tagVocab : VocabField Tag where
  width := .u8
  faces := dataVocab 0 firstVocab_lt
  label := Tag.name
  id := Tag.id
  setId tag id := { tag with id := some id }
  setName tag name := { tag with name := tag.name.or (some name) }

/-- A function index over the label's bytes. -/
def tagIndex : KvIndex UInt8 Tag where
  slot := slot Segment.index 1 firstIndex_bounds
  keyPrefixWidth := 1
  keyPrefixBytes key := [key]
  keyPrefix_le := oneByte_le
  length_keyPrefix := length_oneByte
  admits _ := true
  segments _ tag := [strBytes (tag.name.getD "")]
  entryValue _ _ := []

def tagDoc : Document UInt8 Tag where
  partitionPrefix := []
  nsPrefix := [0, 4]
  leads := []
  indexes := [tagIndex]
  reduces := []
  vocabFields := [tagVocab]
  encodePayload tag := beBytes 1 (tag.id.getD 0)
  decodePayload raw := ⟨none, some (beNat (raw.take 1))⟩
  embedDeref _ tag := .ok tag
  embedEntries _ := []
  embedKeys _ := []
  fields := ["tag"]
  toMap tag := SortedMap.empty.insert "tag" (.str (tag.name.getD ""))
  tryFromMap map :=
    match map.get "tag" with
    | some (.str name) => .ok ⟨some name, none⟩
    | some _ => .error (.kindMismatch "tag" "Str" "")
    | none => .ok ⟨some "", none⟩
  leadSlots := noLeads
  indexSlots := by simp [tagIndex, slot, Segment.index]
  reduceSlots := by simp
  leadsNodup := List.nodup_nil
  indexesNodup := by simp
  reducesNodup := List.nodup_nil
  vocabFaces i f h := by
    cases i with
    | zero =>
      obtain rfl := Option.some.inj h
      exact ⟨by decide, rfl⟩
    | succ i => simp at h
  embedDeref_ok _ tag := ⟨tag, rfl⟩

/-- A store that knows one label. -/
def tagStore : Keyspace := (tagDoc.saveEach [(1, ⟨some "a", none⟩)] SortedMap.empty).2

/-- A new label for a new key, then for the key written before the batch. -/
def tagMoves : List (UInt8 × Tag) := [(2, ⟨some "b", none⟩), (1, ⟨some "b", none⟩)]

theorem tagMoves_named : tagDoc.NamedAlong (freshView tagStore) tagMoves :=
  ⟨Document.namedAlike_of_same (by decide +kernel),
    Document.namedAlike_of_same (by decide +kernel), trivial⟩

/-- The old row of the second save was named before the batch. -/
theorem batch_refines_steps_tags :
    (commitWrites tagStore (tagDoc.saveBatch tagMoves)).2
      = (tagDoc.saveEach tagMoves tagStore).2 :=
  ((Document.batch_refines_steps tagDoc tagStore).2 tagMoves tagMoves_named).2 (by decide +kernel)

/-- The tag of one key, written twice under two labels. -/
def tagSaves : List (UInt8 × Tag) := [(1, ⟨some "a", none⟩), (1, ⟨some "b", none⟩)]

/-- In one batch the entry of the first label stays behind. -/
theorem batch_keeps_stale_face :
    (commitWrites SortedMap.empty (tagDoc.saveBatch tagSaves)).1 = .ok () ∧
    (tagDoc.saveEach tagSaves SortedMap.empty).1 = .ok () ∧
    (commitWrites SortedMap.empty (tagDoc.saveBatch tagSaves)).2.get
      (tagIndex.entryKeyWith tagDoc.header 1 (strBytes "a")) = some [] ∧
    (tagDoc.saveEach tagSaves SortedMap.empty).2.get
      (tagIndex.entryKeyWith tagDoc.header 1 (strBytes "a")) = none ∧
    (commitWrites SortedMap.empty (tagDoc.saveBatch tagSaves)).2
      ≠ (tagDoc.saveEach tagSaves SortedMap.empty).2 := by
  have hbatch : (commitWrites SortedMap.empty (tagDoc.saveBatch tagSaves)).2.get
      (tagIndex.entryKeyWith tagDoc.header 1 (strBytes "a")) = some [] := by decide +kernel
  have heach : (tagDoc.saveEach tagSaves SortedMap.empty).2.get
      (tagIndex.entryKeyWith tagDoc.header 1 (strBytes "a")) = none := by decide +kernel
  refine ⟨by decide +kernel, by decide +kernel, hbatch, heach, fun heq => ?_⟩
  rw [heq, heach] at hbatch
  cases hbatch

end Okm.Model
