import Okm.Model.Faces

/-!
# Runs of the cleaning verbs

The verbs `merge`, `replace`, `purge`, and `purge_into` or `save_with_prev_into`
with their commit, in any order from the empty store. Each either moves no row or
cleans the row it found (`verbEffect_write`); a cleaned row keeps the invariant
that the faces hold the entries of the rows (`FaceInv.cleaned`). So after every
run the entries under the face slots are exactly those of the stored rows
(`faces_exact`).
-/

namespace Okm.Model

open Lib VirtualStorage KeyEncode

variable {K R : Type} [KeyEncode K]

namespace Document

variable (doc : Document K R)

/-- The entries of a row can be derived again from what is stored of it: no row
with the same payload and all its labels has others. -/
def Rederivable (key : K) (row : R) : Prop :=
  ∀ row', doc.Carries row row' → doc.indexEntries key row' = doc.indexEntries key row

/-- Faces that read the stored payload only can always be derived again. -/
theorem rederivable_of_payload
    (h : ∀ key (r r' : R), doc.encodePayload r = doc.encodePayload r' →
      doc.indexEntries key r = doc.indexEntries key r') (key : K) (row : R) :
    doc.Rederivable key row := fun row' hc => h key row' row hc.1

/-- The two rows own no entry in common. -/
def Apart (key : K) (row : R) (key' : K) (row' : R) : Prop :=
  ∀ e ∈ doc.indexEntries key row, ∀ e' ∈ doc.indexEntries key' row', e.1 ≠ e'.1

/-! ## The invariant -/

/-- The table holds the rows `w`, and its faces hold exactly their entries. -/
structure FaceInv (f : Reads) (w : K → Option R) : Prop where
  encoded : doc.RowsEncoded f
  stored : ∀ key, f (doc.primaryKey key) = (w key).map doc.encodePayload
  vocabs : doc.VocabsSound f
  named : ∀ key row, w key = some row → doc.Named f row
  rederivable : ∀ key row, w key = some row → doc.Rederivable key row
  apart : ∀ key row key' row', encode key ≠ encode key' → w key = some row → w key' = some row' →
    doc.Apart key row key' row'
  faces : ∀ s ∈ doc.faceSlots, ∀ suffix v, f (faceKey doc.header s suffix) = some v ↔
    ∃ key row, w key = some row ∧ (faceKey doc.header s suffix, v) ∈ doc.indexEntries key row

/-- The part of it that says nothing about faces. -/
structure RowInv (f : Reads) (w : K → Option R) : Prop where
  encoded : doc.RowsEncoded f
  stored : ∀ key, f (doc.primaryKey key) = (w key).map doc.encodePayload
  vocabs : doc.VocabsSound f
  named : ∀ key row, w key = some row → doc.Named f row

/-- The row under one key gave way, the vocabularies kept up with the new one. -/
structure RowChange (f f' : Reads) (key : K) (new : Option R) : Prop where
  rows : ∀ suffix, f' (faceKey doc.header primarySlot suffix)
    = if suffix = encode key then new.map doc.encodePayload
      else f (faceKey doc.header primarySlot suffix)
  vocabs : doc.VocabsSound f →
    doc.VocabsSound f' ∧ doc.IdsKept f f' ∧ ∀ row, new = some row → doc.Named f' row

/-- The rows after one of them gave way. -/
def setRow (w : K → Option R) (key : K) (new : Option R) : K → Option R :=
  fun k => if encode k = encode key then new else w k

variable {doc}

theorem Apart.symm {key key' : K} {row row' : R} (h : doc.Apart key row key' row') :
    doc.Apart key' row' key row := fun e he e' he' => (h e' he' e he).symm

/-- The row found has the entries of the row written. -/
theorem FaceInv.old_entries {f : Reads} {w : K → Option R} (inv : doc.FaceInv f w) {key : K}
    {old : Option R} (hstored : f (doc.primaryKey key) = old.map doc.encodePayload)
    (found : Found doc f key old) :
    old.elim [] (doc.indexEntries key) = (w key).elim [] (doc.indexEntries key) := by
  have hw := inv.stored key
  cases hrow : w key with
  | none =>
    rw [hrow, hstored] at hw
    rw [Option.map_eq_none_iff.mp hw]
  | some row =>
    rw [hrow] at hw
    obtain ⟨row', rfl, hc⟩ := found row hw (inv.named key row hrow)
    exact inv.rederivable key row hrow row' hc

theorem FaceInv.toRowInv {f : Reads} {w : K → Option R} (inv : doc.FaceInv f w) : doc.RowInv f w :=
  ⟨inv.encoded, inv.stored, inv.vocabs, inv.named⟩

/-- Rows that stay where they are stay what they are. -/
theorem RowInv.kept {f f' : Reads} {w : K → Option R} (inv : doc.RowInv f w)
    (hrows : ∀ suffix, f' (faceKey doc.header primarySlot suffix)
      = f (faceKey doc.header primarySlot suffix))
    (hvocabs : doc.VocabsSound f' ∧ doc.IdsKept f f') : doc.RowInv f' w where
  encoded := inv.encoded.kept hrows
  stored key := (hrows _).trans (inv.stored key)
  vocabs := hvocabs.1
  named key row hrow := (inv.named key row hrow).keep hvocabs.2

theorem FaceInv.kept {f f' : Reads} {w : K → Option R} (inv : doc.FaceInv f w)
    (hrows : ∀ suffix, f' (faceKey doc.header primarySlot suffix)
      = f (faceKey doc.header primarySlot suffix))
    (hfaces : ∀ s ∈ doc.faceSlots, ∀ suffix, f' (faceKey doc.header s suffix)
      = f (faceKey doc.header s suffix))
    (hvocabs : doc.VocabsSound f' ∧ doc.IdsKept f f') : doc.FaceInv f' w := by
  obtain ⟨encoded, stored, vocabs, named⟩ := inv.toRowInv.kept hrows hvocabs
  refine ⟨encoded, stored, vocabs, named, inv.rederivable, inv.apart, fun s hs suffix v => ?_⟩
  rw [hfaces s hs suffix]
  exact inv.faces s hs suffix v

theorem RowInv.resting {f f' : Reads} {w : K → Option R} (inv : doc.RowInv f w)
    (h : Resting doc f f') : doc.RowInv f' w :=
  inv.kept (h.quiet.at_slot fun hq => hq.1 rfl) (h.vocabs inv.vocabs)

/-- **A step at rest keeps the faces.** -/
theorem FaceInv.resting {f f' : Reads} {w : K → Option R} (inv : doc.FaceInv f w)
    (h : Resting doc f f') : doc.FaceInv f' w :=
  inv.kept (h.quiet.at_slot fun hq => hq.1 rfl)
    (fun _ hs => h.quiet.at_slot fun hq => hq.2.1 hs) (h.vocabs inv.vocabs)

/-- **One changed row** among the others. -/
theorem RowInv.changed {f f' : Reads} {w : K → Option R} (inv : doc.RowInv f w) {key : K}
    {new : Option R} (h : doc.RowChange f f' key new)
    (settled : ∀ row, new = some row → doc.Settled row) : doc.RowInv f' (setRow w key new) := by
  obtain ⟨hs', hk, hnamed⟩ := h.vocabs inv.vocabs
  refine ⟨inv.encoded.changed h.rows settled, fun k => ?_, hs', fun k row hrow => ?_⟩
  · rw [Document.primaryKey, h.rows, setRow]
    by_cases hkey : encode k = encode key
    · rw [if_pos hkey, if_pos hkey]
    · rw [if_neg hkey, if_neg hkey]
      exact inv.stored k
  · unfold setRow at hrow
    by_cases hkey : encode k = encode key
    · rw [if_pos hkey] at hrow
      exact hnamed row hrow
    · rw [if_neg hkey] at hrow
      exact (inv.named k row hrow).keep hk

/-- What the faces read as after a sweep, entry by entry. -/
theorem swept_iff {f : Reads} {olds : List Bytes} {pairs : List (Bytes × Bytes)} {k v : Bytes}
    (hfun : ∀ v', (k, v) ∈ pairs → (k, v') ∈ pairs → v = v') :
    written (delOps olds ++ putOps pairs) f k = some v ↔
      (k, v) ∈ pairs ∨ (k ∉ pairs.map Prod.fst ∧ k ∉ olds ∧ f k = some v) := by
  rw [written, pending_append, pending_delOps]
  rcases pending_putOps_cases pairs k with ⟨hno, hput⟩ | ⟨v', hmem, hput⟩
  · have hnomem : (k, v) ∉ pairs := fun h => hno (List.mem_map_of_mem h)
    rw [hput, Option.none_or]
    by_cases hk : k ∈ olds
    · simp [hk, hnomem]
    · simp [hk, hnomem, hno]
  · have hin : k ∈ pairs.map Prod.fst := List.mem_map_of_mem hmem
    rw [hput]
    change some v' = some v ↔ _
    constructor
    · intro heq
      rw [← Option.some.inj heq]
      exact Or.inl hmem
    · rintro (hv | ⟨hno, -, -⟩)
      · rw [hfun v' hv hmem]
      · exact absurd hin hno

/-- **A changed row with swept faces keeps them.** What the old row owned goes, what
the new row owns comes, and the other rows own neither. -/
theorem FaceInv.changed {f f' : Reads} {w : K → Option R} (inv : doc.FaceInv f w) {key : K}
    {old new : Option R} (h : doc.RowChange f f' key new) (swept : doc.Swept f f' key old new)
    (hold : old.elim [] (doc.indexEntries key) = (w key).elim [] (doc.indexEntries key))
    (settled : ∀ row, new = some row → doc.Settled row)
    (hre : ∀ row, new = some row → doc.Rederivable key row)
    (hapart : ∀ row, new = some row → ∀ key' row', encode key' ≠ encode key → w key' = some row' →
      doc.Apart key row key' row') : doc.FaceInv f' (setRow w key new) := by
  obtain ⟨encoded, stored, vocabs, named⟩ := inv.toRowInv.changed h settled
  refine ⟨encoded, stored, vocabs, named, fun k row hrow => ?_,
    fun k row k' row' hne hrow hrow' => ?_, fun s hs suffix v => ?_⟩
  · unfold setRow at hrow
    by_cases hkey : encode k = encode key
    · rw [if_pos hkey] at hrow
      rw [encode_injective hkey]
      exact hre row hrow
    · rw [if_neg hkey] at hrow
      exact inv.rederivable k row hrow
  · -- two rows, one of which may be the new one
    unfold setRow at hrow hrow'
    by_cases hkey : encode k = encode key
    · have hkey' : encode k' ≠ encode key := fun heq => hne (hkey.trans heq.symm)
      rw [if_pos hkey] at hrow
      rw [if_neg hkey'] at hrow'
      rw [encode_injective hkey]
      exact hapart row hrow k' row' hkey' hrow'
    · rw [if_neg hkey] at hrow
      by_cases hkey' : encode k' = encode key
      · rw [if_pos hkey'] at hrow'
        rw [encode_injective hkey']
        exact (hapart row' hrow' k row hkey hrow).symm
      · rw [if_neg hkey'] at hrow'
        exact inv.apart k row k' row' hne hrow hrow'
  · -- the entries: those of the new row, and those of the others the sweep left
    have hfun : ∀ v', (faceKey doc.header s suffix, v) ∈ new.elim [] (doc.indexEntries key) →
        (faceKey doc.header s suffix, v') ∈ new.elim [] (doc.indexEntries key) → v = v' := by
      intro v' hv hv'
      cases new with
      | none => cases hv
      | some row => exact indexEntries_functional hv hv'
    rw [swept s hs suffix, swept_iff hfun, hold]
    constructor
    · rintro (hv | ⟨hno, hnold, hf⟩)
      · cases hnew : new with
        | none =>
          rw [hnew] at hv
          cases hv
        | some row =>
          rw [hnew] at hv
          exact ⟨key, row, if_pos rfl, hv⟩
      · obtain ⟨k, row, hrow, hmem⟩ := (inv.faces s hs suffix v).mp hf
        have hkey : encode k ≠ encode key := by
          intro heq
          obtain rfl := encode_injective heq
          rw [hrow] at hnold
          exact hnold (List.mem_map_of_mem hmem)
        exact ⟨k, row, (if_neg hkey).trans hrow, hmem⟩
    · rintro ⟨k, row, hrow, hmem⟩
      unfold setRow at hrow
      by_cases hkey : encode k = encode key
      · rw [if_pos hkey] at hrow
        rw [encode_injective hkey] at hmem
        rw [hrow]
        exact Or.inl hmem
      · rw [if_neg hkey] at hrow
        -- another row shares no entry with the new row nor with the old one
        refine Or.inr ⟨fun hin => ?_, fun hin => ?_, (inv.faces s hs suffix v).mpr ⟨k, row, hrow, hmem⟩⟩
        · obtain ⟨e, he, heq⟩ := List.mem_map.mp hin
          cases hnew : new with
          | none =>
            rw [hnew] at he
            cases he
          | some row' =>
            rw [hnew] at he
            exact hapart row' hnew k row hkey hrow e he _ hmem heq
        · obtain ⟨e, he, heq⟩ := List.mem_map.mp hin
          cases hwk : w key with
          | none =>
            rw [hwk] at he
            cases he
          | some row' =>
            rw [hwk] at he
            exact inv.apart k row key row' hkey hrow hwk _ hmem e he heq.symm

theorem Cleaned.change {f f' : Reads} {key : K} {old new : Option R}
    (h : Cleaned doc f f' key old new) : doc.RowChange f f' key new := ⟨h.move.rows, h.vocabs⟩

/-- **A cleaned row keeps the faces.** -/
theorem FaceInv.cleaned {f f' : Reads} {w : K → Option R} (inv : doc.FaceInv f w) {key : K}
    {old new : Option R} (h : Cleaned doc f f' key old new) (found : Found doc f key old)
    (settled : ∀ row, new = some row → doc.Settled row)
    (hre : ∀ row, new = some row → doc.Rederivable key row)
    (hapart : ∀ row, new = some row → ∀ key' row', encode key' ≠ encode key → w key' = some row' →
      doc.Apart key row key' row') : doc.FaceInv f' (setRow w key new) :=
  inv.changed h.change h.swept (inv.old_entries h.move.stored found) settled hre hapart

end Document

/-! ## The verbs -/

/-- One call of a cleaning verb with its commit. `saveOver` hands the save the row
`get` answers, `save` lets it read the old row for itself. -/
inductive CleanWrite (K R : Type) where
  | merge (key : K) (object : SortedMap String DynamicValue)
  | replace (key : K) (object : SortedMap String DynamicValue)
  | purge (key : K)
  | purgeInto (key : K)
  | save (key : K) (document : R)
  | saveOver (key : K) (document : R)

namespace Document

variable (doc : Document K R)

/-- The save of a caller that holds the stored row. -/
def saveOverInto (key : K) (document : R) : Verb (BatchStore Keyspace) Unit := do
  let prev ← peekStore fun store => doc.get store key
  doc.saveWithPrevInto key document prev

/-- The store after a call, whatever the call answered. -/
def cleanWrite (m : Keyspace) : CleanWrite K R → Keyspace
  | .merge key object => (doc.merge m key object).2
  | .replace key object => (doc.replace m key object).2
  | .purge key => (doc.purge m key).2
  | .purgeInto key => (commitWrites m (doc.purgeInto key)).2
  | .save key document => (commitWrites m (doc.saveWithPrevInto key document none)).2
  | .saveOver key document => (commitWrites m (doc.saveOverInto key document)).2

/-- The row a map of declared names makes, as a write stores it. -/
def typedRow (m : Keyspace) (key : K) (typed : SortedMap String DynamicValue)
    (made : Except Error (R × Option R)) : Option (K × R) :=
  if typed.entries = [] then none
  else
    match made with
    | .ok (document, _) => (doc.internedRow m document).map (key, ·)
    | .error _ => none

/-- The row a call stores, with its key. -/
def rowWritten (m : Keyspace) : CleanWrite K R → Option (K × R)
  | .merge key object =>
    let typed := (doc.splitNames object).1
    doc.typedRow m key typed (doc.mergedRow m key typed)
  | .replace key object =>
    let typed := (doc.splitNames object).1
    doc.typedRow m key typed (doc.replacedRow m key typed)
  | .purge _ => none
  | .purgeInto _ => none
  | .save key document => (doc.internedRow m document).map (key, ·)
  | .saveOver key document => (doc.internedRow m document).map (key, ·)

/-- What a cleaning verb does: it rests, or it cleans the row it found and stores
the one it announced. -/
inductive CleanEffect (f f' : Reads) (stored : Option (K × R)) : Prop
  | rest (h : Resting doc f f')
  | cleaned (key : K) (old new : Option R) (h : Cleaned doc f f' key old new)
      (found : Found doc f key old) (hnew : ∀ row, new = some row → stored = some (key, row))

/-- What the embed pass of a write does: it puts the children the row carries and
drops those it let go. -/
def embedOps (row : R) (prev : Option R) : List (Op Bytes Bytes) :=
  putOps (doc.embedEntries row) ++ delOps (doc.releasedKeys row prev)

/-- What a save does to the whole store: it cleans the row it found, and outside the
table its embed pass runs. -/
structure SaveEffect (f f' : Reads) (key : K) (old : Option R) (row : R) : Prop where
  cleaned : Cleaned doc f f' key old (some row)
  found : Found doc f key old
  embeds : ∀ k, ¬ Under doc.header (fun _ => True) k → f' k = written (doc.embedOps row old) f k

/-- What a cleaning verb does to the whole store: it rests, or it saves a row over
the one it found, or it removes the row it found. -/
inductive VerbEffect (f f' : Reads) (stored : Option (K × R)) : Prop
  | rest (h : Resting doc f f')
  | wrote (key : K) (old : Option R) (row : R) (h : doc.SaveEffect f f' key old row)
      (hstored : stored = some (key, row))
  | removed (key : K) (old : R) (h : Cleaned doc f f' key (some old) none)
      (found : Found doc f key (some old)) (outside : OnlyUnder doc.header (fun _ => True) f f')

variable {doc}

theorem Resting.outside {f f' : Reads} (h : Resting doc f f') :
    OnlyUnder doc.header (fun _ => True) f f' := h.quiet.mono fun _ _ => trivial

theorem VerbEffect.resting {f f' f'' : Reads} {stored : Option (K × R)}
    (h : doc.VerbEffect f f' stored) (h' : Resting doc f' f'') : doc.VerbEffect f f'' stored := by
  cases h with
  | rest h => exact .rest (h.trans h')
  | wrote key old row h hstored =>
    exact .wrote key old row ⟨h.cleaned.resting h', h.found, fun k hk =>
      (h'.outside k hk).trans (h.embeds k hk)⟩ hstored
  | removed key old h found outside =>
    exact .removed key old (h.resting h') found (outside.trans h'.outside)

theorem VerbEffect.clean {f f' : Reads} {stored : Option (K × R)}
    (h : doc.VerbEffect f f' stored) : doc.CleanEffect f f' stored := by
  cases h with
  | rest h => exact .rest h
  | wrote key old row h hstored =>
    refine .cleaned key old (some row) h.cleaned h.found fun row' hrow => ?_
    rw [hstored, Option.some.inj hrow]
  | removed key old h found _ => exact .cleaned key (some old) none h found (by simp)

/-- Outside the table a row write is its embed pass. -/
theorem rowImage_outside {key : K} {row : R} {prev : Option R} {stale : List Bytes}
    (hstale : ∀ k ∈ stale, Under doc.header (· ∈ doc.faceSlots) k) (f : Reads) {k : Bytes}
    (hk : ¬ Under doc.header (fun _ => True) k) :
    doc.rowImage key row prev stale f k = written (doc.embedOps row prev) f k := by
  have hreduce : ∀ r ∈ doc.reduces, ∀ g, k ≠ faceKey doc.header r.slot g :=
    fun r _ g heq => hk ⟨r.slot, g, trivial, heq⟩
  have hfold : doc.unfolded key prev f k = f k := by
    cases prev with
    | none => rfl
    | some old => exact regroup_at_other hreduce f
  have hrow : pending [(doc.primaryKey key, some (doc.encodePayload row))] k = none := by
    refine pending_eq_none fun op hop heq => hk ?_
    obtain rfl := List.mem_singleton.mp hop
    exact ⟨primarySlot, _, trivial, heq.symm⟩
  have hsweep : pending (delOps stale) k = none := by
    refine pending_eq_none fun op hop heq => hk ?_
    obtain ⟨s, suffix, -, hop⟩ := hstale op.1 (mem_delOps hop)
    exact ⟨s, suffix, trivial, heq ▸ hop⟩
  have hfaces : pending (putOps (doc.indexEntries key row)) k = none := by
    refine pending_eq_none fun op hop heq => hk ?_
    obtain ⟨e, he, hop⟩ := mem_putOps hop
    obtain ⟨s, suffix, -, he⟩ := doc.under_of_indexEntries he
    exact ⟨s, suffix, trivial, heq ▸ hop ▸ he⟩
  rw [rowImage, regroup_at_other hreduce, written, written, hfold, embedOps, rowOps]
  simp only [pending_append, hrow, hsweep, hfaces, Option.or_none]

theorem removeImage_outside {key : K} {row : R} (f : Reads) :
    OnlyUnder doc.header (fun _ => True) f (doc.removeImage key row f) := by
  intro k hk
  have hreduce : ∀ r ∈ doc.reduces, ∀ g, k ≠ faceKey doc.header r.slot g :=
    fun r _ g heq => hk ⟨r.slot, g, trivial, heq⟩
  rw [removeImage, regroup_at_other hreduce]
  refine written_of_not_mem (fun op hop heq => hk ?_) f
  rcases List.mem_append.mp hop with hop | hop
  · obtain rfl := List.mem_singleton.mp hop
    exact ⟨primarySlot, _, trivial, heq.symm⟩
  · obtain ⟨e, he, hop⟩ := List.mem_map.mp (mem_delOps hop)
    obtain ⟨s, suffix, -, he⟩ := doc.under_of_indexEntries he
    exact ⟨s, suffix, trivial, heq ▸ hop ▸ he⟩

/-- Outside the table a row write behind its interning is its embed pass. -/
theorem interned_outside {m : Keyspace} {key : K} {document row : R} {prev : Option R}
    {stale : List Bytes} {s₁ s' : BatchStore Keyspace}
    (hintern : doc.intern document (freshView m) = (.ok row, s₁))
    (hstale : ∀ k ∈ stale, Under doc.header (· ∈ doc.faceSlots) k)
    (hview : viewGet s' = doc.rowImage key row prev stale (viewGet s₁)) {k : Bytes}
    (hk : ¬ Under doc.header (fun _ => True) k) :
    viewGet s' k = written (doc.embedOps row prev) m.get k := by
  have hlabels := confined_intern doc (σ := BatchStore Keyspace) document (freshView m)
  rw [hintern] at hlabels
  have hsame : viewGet s₁ k = m.get k := hlabels.mono (fun _ _ => trivial) k hk
  rw [hview, rowImage_outside hstale _ hk, written, written, hsame]

theorem save_outside {m : Keyspace} {key : K} {document row : R} {given prev : Option R}
    {s' : BatchStore Keyspace}
    (hprev : doc.prevRow key given (freshView m) = (.ok prev, freshView m))
    (hrow : doc.internedRow m document = some row)
    (h : doc.saveWithPrevInto key document given (freshView m) = (.ok (), s')) {k : Bytes}
    (hk : ¬ Under doc.header (fun _ => True) k) :
    viewGet s' k = written (doc.embedOps row prev) m.get k := by
  obtain ⟨row', s₁, hintern, hview⟩ := saveWithPrevInto_inv hprev h
  rw [internedRow, hintern] at hrow
  obtain rfl := Option.some.inj hrow
  exact interned_outside hintern staleFaces_under hview hk

theorem verbEffect_commitWrites {α : Type} {m : Keyspace} {body : Verb (BatchStore Keyspace) α}
    {stored : Option (K × R)}
    (h : ∀ a s', body (freshView m) = (.ok a, s') → doc.VerbEffect m.get (viewGet s') stored) :
    doc.VerbEffect m.get (commitWrites m body).2.get stored := by
  rcases commitWrites_cases m body with ⟨e, s', -, hcommit⟩ | ⟨a, s', hbody, hcommit⟩
  · rw [hcommit]
    exact .rest (Resting.refl _)
  · rw [hcommit]
    change doc.VerbEffect m.get (viewMap s').get stored
    rw [get_viewMap]
    exact h a s' hbody

section

variable (payload : doc.PayloadLaws) (laws : doc.LabelLaws) (elsewhere : doc.EmbedsElsewhere)
variable {m : Keyspace} (hrows : doc.RowsEncoded m.get)

include payload laws

/-- What `get` finds is the stored row, whether it asks the store or a view of it. -/
theorem found_get {σ : Type} [LawfulStorage σ] {s : σ}
    (hrows : doc.RowsEncoded (LawfulStorage.read s)) {key : K} {prev : Option R}
    (hget : doc.get s key = .ok prev) :
    LawfulStorage.read s (doc.primaryKey key) = prev.map doc.encodePayload ∧
    Found doc (LawfulStorage.read s) key prev := by
  obtain ⟨row, hrow, hstored⟩ := get_payload payload s hrows key
  rw [hget] at hrow
  obtain rfl := Except.ok.inj hrow
  refine ⟨hstored, fun row hstored named => ?_⟩
  obtain ⟨row', hrow', hc⟩ := get_carries payload laws s (hrows.settled hstored) named hstored
  rw [hget] at hrow'
  exact ⟨row', Except.ok.inj hrow', hc⟩

omit payload laws in
theorem verbEffect_deletePrev {key : K} {prev : Option R}
    (hstored : m.get (doc.primaryKey key) = prev.map doc.encodePayload)
    (found : Found doc m.get key prev) (stored : Option (K × R)) :
    doc.VerbEffect m.get (doc.deletedImage key prev m.get) stored := by
  cases prev with
  | none => exact .rest (Resting.refl _)
  | some old => exact .removed key old (cleaned_deleteInto hstored) found (removeImage_outside _)

omit payload laws in
theorem verbEffect_removeInto {key : K} {prev : Option R} {segment : Bool}
    (hstored : m.get (doc.primaryKey key) = prev.map doc.encodePayload)
    (found : Found doc m.get key prev) {s' : BatchStore Keyspace}
    (h : doc.removeInto key prev segment (freshView m) = (.ok (), s')) (stored : Option (K × R)) :
    doc.VerbEffect m.get (viewGet s') stored := by
  obtain ⟨s₁, s₂, hok, hview, hseg⟩ := removeInto_spec doc key prev segment (freshView m)
  obtain ⟨-, rfl⟩ := Prod.mk.inj (h.symm.trans hok)
  have heffect := verbEffect_deletePrev hstored found stored
  have hview' : viewGet s₁ = doc.deletedImage key prev m.get := hview
  rw [← hview'] at heffect
  exact heffect.resting (Resting.segment hseg)

include hrows elsewhere

/-- A save over the row a read found. -/
theorem saveEffect_saveOver {key : K} {document : R} {prev : Option R}
    (hget : doc.get m key = .ok prev) {s' : BatchStore Keyspace}
    (h : doc.saveWithPrevInto key document prev (freshView m) = (.ok (), s')) :
    ∃ row, doc.internedRow m document = some row ∧
      doc.SaveEffect m.get (viewGet s') key prev row := by
  obtain ⟨hstored, found⟩ := found_get payload laws (s := m) hrows hget
  have hstored' : m.get (doc.primaryKey key) = prev.map doc.encodePayload := hstored
  have hprev : doc.prevRow key prev (freshView m) = (.ok prev, freshView m) := by
    obtain ⟨prev', hok, hsame⟩ := prevRow_spec payload (s := freshView m) hrows key prev
      fun old hold => by
        have := hstored'
        rw [hold] at this
        exact this
    cases hcase : prev with
    | some old => rfl
    | none =>
      rw [hcase] at hok hstored'
      have hnone : m.get (doc.primaryKey key) = prev'.map doc.encodePayload := hsame
      rw [hstored'] at hnone
      rw [hok, Option.map_eq_none_iff.mp hnone.symm]
  obtain ⟨row, hintern, hcleaned⟩ := cleaned_save laws elsewhere hprev hstored' h
  exact ⟨row, hintern, hcleaned, found, fun k hk => save_outside hprev hintern h hk⟩

/-- A save that reads the old row for itself. -/
theorem saveEffect_save {key : K} {document : R} {s' : BatchStore Keyspace}
    (h : doc.saveWithPrevInto key document none (freshView m) = (.ok (), s')) :
    ∃ prev row, doc.internedRow m document = some row ∧
      doc.SaveEffect m.get (viewGet s') key prev row := by
  obtain ⟨prev, hprev, hstored⟩ := prevRow_spec payload (s := freshView m) hrows key none (by simp)
  obtain ⟨row, hintern, hcleaned⟩ := cleaned_save laws elsewhere hprev hstored h
  refine ⟨prev, row, hintern, hcleaned, fun row₀ hrow₀ named => ?_,
    fun k hk => save_outside hprev hintern h hk⟩
  obtain ⟨row', hok, hc⟩ := prevRow_carries payload laws (hrows.settled hrow₀) named hrow₀
  rw [hprev] at hok
  exact ⟨row', Except.ok.inj (Prod.mk.inj hok).1, hc⟩

omit payload laws elsewhere hrows in
/-- What a save does is what its verb does. -/
theorem SaveEffect.verb {f f' : Reads} {key : K} {old : Option R} {row : R}
    (h : doc.SaveEffect f f' key old row) {document : R}
    (hrow : doc.internedRow m document = some row) :
    doc.VerbEffect f f' ((doc.internedRow m document).map (key, ·)) :=
  .wrote key old row h (by rw [hrow, Option.map_some])

/-- The declared half of a `merge` or a `replace` that makes a row. -/
theorem verbEffect_peekSave {key : K} (made : Keyspace → Except Error (R × Option R))
    (hmade : ∀ document prev, made m = .ok (document, prev) → doc.get m key = .ok prev)
    {s' : BatchStore Keyspace}
    (h : (do
      let (document, prev) ← peekStore made
      doc.saveWithPrevInto key document prev : Verb (BatchStore Keyspace) Unit) (freshView m)
        = (.ok (), s')) {typed : SortedMap String DynamicValue} (htyped : typed.entries ≠ []) :
    doc.VerbEffect m.get (viewGet s') (doc.typedRow m key typed (made m)) := by
  obtain ⟨⟨document, prev⟩, s₁, hpeek, h⟩ := run_bind_eq_ok.mp h
  obtain ⟨hfound, rfl⟩ := Prod.mk.inj hpeek
  have hfound' : made m = .ok (document, prev) := hfound
  obtain ⟨row, hrow, heffect⟩ := saveEffect_saveOver payload laws elsewhere hrows
    (hmade document prev hfound') h
  replace heffect := heffect.verb hrow
  unfold typedRow
  rw [if_neg htyped, hfound']
  exact heffect

theorem verbEffect_mergeTyped {key : K} {typed : SortedMap String DynamicValue}
    {s' : BatchStore Keyspace} (h : doc.mergeTyped key typed (freshView m) = (.ok (), s')) :
    doc.VerbEffect m.get (viewGet s') (doc.typedRow m key typed (doc.mergedRow m key typed)) := by
  unfold mergeTyped at h
  by_cases hempty : typed.entries = []
  · rw [if_pos hempty] at h
    obtain ⟨-, rfl⟩ := Prod.mk.inj h
    exact .rest (Resting.refl _)
  · rw [if_neg hempty] at h
    refine verbEffect_peekSave payload laws elsewhere hrows
      (fun store => doc.mergedRow store key typed) (fun document prev hfound => ?_) h hempty
    obtain ⟨row, hget, hrest⟩ := bind_eq_ok.mp hfound
    obtain ⟨document', -, hrest⟩ := bind_eq_ok.mp hrest
    obtain ⟨-, rfl⟩ := Prod.mk.inj (Except.ok.inj hrest)
    exact hget

theorem verbEffect_replaceTyped {key : K} {typed : SortedMap String DynamicValue}
    {s' : BatchStore Keyspace} (h : doc.replaceTyped key typed (freshView m) = (.ok (), s')) :
    doc.VerbEffect m.get (viewGet s')
      (doc.typedRow m key typed (doc.replacedRow m key typed)) := by
  unfold replaceTyped at h
  by_cases hempty : typed.entries = []
  · rw [if_pos hempty] at h
    obtain ⟨prev, s₁, hpeek, h⟩ := run_bind_eq_ok.mp h
    obtain ⟨hget, rfl⟩ := Prod.mk.inj hpeek
    obtain ⟨s₂, hok, hview⟩ := writes_deletePrev doc key prev (freshView m)
    obtain ⟨-, rfl⟩ := Prod.mk.inj (h.symm.trans hok)
    have hview' : viewGet s' = doc.deletedImage key prev m.get := hview
    rw [hview']
    obtain ⟨hstored, found⟩ := found_get payload laws (s := m) hrows hget
    exact verbEffect_deletePrev hstored found _
  · rw [if_neg hempty] at h
    refine verbEffect_peekSave payload laws elsewhere hrows
      (fun store => doc.replacedRow store key typed) (fun document prev hfound => ?_) h
      hempty
    obtain ⟨row, hget, hrest⟩ := bind_eq_ok.mp hfound
    obtain ⟨document', -, hrest⟩ := bind_eq_ok.mp hrest
    obtain ⟨-, rfl⟩ := Prod.mk.inj (Except.ok.inj hrest)
    exact hget

/-- **Every cleaning verb** rests or cleans the row it found. -/
theorem verbEffect_write (w : CleanWrite K R) :
    doc.VerbEffect m.get (doc.cleanWrite m w).get (doc.rowWritten m w) := by
  cases w with
  | merge key object =>
    refine verbEffect_commitWrites fun _ s' h => ?_
    obtain ⟨u, s₁, htyped, hdynamic⟩ := run_bind_eq_ok.mp h
    -- the dynamic half stays in the segment, the typed half is the row
    have hseg := confined_mergeDynamic doc key (doc.splitNames object).2 s₁
    rw [hdynamic] at hseg
    exact (verbEffect_mergeTyped payload laws elsewhere hrows htyped).resting
      (Resting.segment hseg)
  | replace key object =>
    refine verbEffect_commitWrites fun _ s' h => ?_
    obtain ⟨u, s₁, htyped, hdynamic⟩ := run_bind_eq_ok.mp h
    have hseg := confined_slot1Into doc key (doc.splitNames object).2 s₁
    rw [hdynamic] at hseg
    exact (verbEffect_replaceTyped payload laws elsewhere hrows htyped).resting
      (Resting.segment hseg)
  | purge key =>
    change doc.VerbEffect m.get (doc.purge m key).2.get none
    unfold Document.purge
    cases hreads : doc.removalReads key m with
    | error e => exact .rest (Resting.refl _)
    | ok found =>
      obtain ⟨prev, segment⟩ := found
      dsimp only
      -- neither a row nor a segment: nothing is written
      by_cases hnone : (prev.isNone && !segment) = true
      · rw [if_pos hnone]
        exact .rest (Resting.refl _)
      · rw [if_neg hnone]
        obtain ⟨row, hget, hrest⟩ := bind_eq_ok.mp hreads
        obtain ⟨raw, -, hrest⟩ := bind_eq_ok.mp hrest
        obtain ⟨rfl, -⟩ := Prod.mk.inj (Except.ok.inj hrest)
        refine verbEffect_commitWrites fun _ s' h => ?_
        obtain ⟨u, s₁, hremove, h⟩ := run_bind_eq_ok.mp h
        obtain ⟨-, rfl⟩ := Prod.mk.inj h
        obtain ⟨hstored, found⟩ := found_get payload laws (s := m) hrows hget
        exact verbEffect_removeInto hstored found hremove none
  | purgeInto key =>
    -- the same inside a batch: a view that is fresh reads as the store
    refine verbEffect_commitWrites fun _ s' h => ?_
    obtain ⟨⟨prev, segment⟩, s₁, hpeek, h⟩ := run_bind_eq_ok.mp h
    obtain ⟨hreads, rfl⟩ := Prod.mk.inj hpeek
    dsimp only at h
    by_cases hnone : (prev.isNone && !segment) = true
    · rw [if_pos hnone] at h
      obtain ⟨-, rfl⟩ := Prod.mk.inj h
      exact .rest (Resting.refl _)
    · rw [if_neg hnone] at h
      obtain ⟨row, hget, hrest⟩ := bind_eq_ok.mp hreads
      obtain ⟨raw, -, hrest⟩ := bind_eq_ok.mp hrest
      obtain ⟨rfl, -⟩ := Prod.mk.inj (Except.ok.inj hrest)
      obtain ⟨u, s₁, hremove, h⟩ := run_bind_eq_ok.mp h
      obtain ⟨-, rfl⟩ := Prod.mk.inj h
      obtain ⟨hstored, found⟩ := found_get payload laws (s := freshView m) hrows hget
      exact verbEffect_removeInto hstored found hremove none
  | save key document =>
    refine verbEffect_commitWrites fun _ s' h => ?_
    obtain ⟨prev, row, hrow, heffect⟩ := saveEffect_save payload laws elsewhere hrows h
    exact heffect.verb hrow
  | saveOver key document =>
    refine verbEffect_commitWrites fun _ s' h => ?_
    obtain ⟨prev, s₁, hpeek, h⟩ := run_bind_eq_ok.mp h
    obtain ⟨hget, rfl⟩ := Prod.mk.inj hpeek
    obtain ⟨row, hrow, heffect⟩ := saveEffect_saveOver payload laws elsewhere hrows hget h
    exact heffect.verb hrow

end

/-! ## Runs -/

/-- What the declarations ask of a call: the row it stores keeps its payload, has
entries that can be derived from it again, and owns no entry together with another
stored row. -/
def CleanGuard (doc : Document K R) (m : Keyspace) (w : CleanWrite K R) : Prop :=
  ∀ key row, doc.rowWritten m w = some (key, row) →
    doc.Settled row ∧ doc.Rederivable key row ∧
      ∀ key' row', encode key' ≠ encode key → doc.get m key' = .ok (some row') →
        doc.Apart key row key' row'

/-- The stores the cleaning verbs reach from the empty one. -/
inductive FaceRun (doc : Document K R) : Keyspace → Prop
  | start : FaceRun doc SortedMap.empty
  | write {m : Keyspace} (run : FaceRun doc m) (w : CleanWrite K R) (guard : CleanGuard doc m w) :
      FaceRun doc (doc.cleanWrite m w)

section

variable (payload : doc.PayloadLaws) (laws : doc.LabelLaws)

theorem faceInv_start (doc : Document K R) :
    doc.FaceInv (SortedMap.empty : Keyspace).get fun _ => none where
  encoded suffix raw hraw := by cases hraw
  stored _ := rfl
  vocabs v _ := ⟨[], encodes_empty (fun _ => rfl) fun _ => rfl⟩
  named := by simp
  rederivable := by simp
  apart := by simp
  faces s _ suffix v := by
    constructor
    · intro h
      cases h
    · rintro ⟨key, row, hrow, -⟩
      cases hrow

include payload laws

/-- The entries of a row as `get` answers it are those of the row written. -/
theorem FaceInv.get_entries {m : Keyspace} {w : K → Option R} (inv : doc.FaceInv m.get w) {key : K}
    {row : R} (hrow : w key = some row) :
    ∃ row', doc.get m key = .ok (some row') ∧
      doc.indexEntries key row' = doc.indexEntries key row := by
  have hstored := inv.stored key
  rw [hrow] at hstored
  obtain ⟨row', hget, hc⟩ :=
    get_carries payload laws m (inv.encoded.settled hstored) (inv.named key row hrow) hstored
  exact ⟨row', hget, inv.rederivable key row hrow row' hc⟩

/-- **One call keeps the faces.** -/
theorem FaceInv.write (elsewhere : doc.EmbedsElsewhere) {m : Keyspace} {w : K → Option R}
    (inv : doc.FaceInv m.get w) {c : CleanWrite K R} (guard : CleanGuard doc m c) :
    ∃ w', doc.FaceInv (doc.cleanWrite m c).get w' := by
  cases (verbEffect_write payload laws elsewhere inv.encoded c).clean with
  | rest h => exact ⟨w, inv.resting h⟩
  | cleaned key old new h found hnew =>
    refine ⟨_, inv.cleaned h found (fun row hrow => (guard key row (hnew row hrow)).1)
      (fun row hrow => (guard key row (hnew row hrow)).2.1) ?_⟩
    intro row hrow key' row' hne hrow'
    obtain ⟨row'', hget, hentries⟩ := inv.get_entries payload laws hrow'
    have hapart := (guard key row (hnew row hrow)).2.2 key' row'' hne hget
    unfold Apart at hapart ⊢
    rwa [hentries] at hapart

theorem faceInv_run (elsewhere : doc.EmbedsElsewhere) {m : Keyspace} (run : FaceRun doc m) :
    ∃ w, doc.FaceInv m.get w := by
  induction run with
  | start => exact ⟨_, faceInv_start doc⟩
  | write run c guard ih =>
    obtain ⟨w, inv⟩ := ih
    exact inv.write payload laws elsewhere guard

/-- The entries under the face slots are those of the rows `get` answers. -/
theorem FaceInv.entries_iff {m : Keyspace} {w : K → Option R} (inv : doc.FaceInv m.get w)
    {k : Bytes} (hk : Under doc.header (· ∈ doc.faceSlots) k) (v : Bytes) :
    m.get k = some v ↔
      ∃ key row, doc.get m key = .ok (some row) ∧ (k, v) ∈ doc.indexEntries key row := by
  obtain ⟨s, suffix, hs, rfl⟩ := hk
  rw [inv.faces s hs suffix v]
  constructor
  · rintro ⟨key, row, hrow, hmem⟩
    obtain ⟨row', hget, hentries⟩ := inv.get_entries payload laws hrow
    exact ⟨key, row', hget, hentries ▸ hmem⟩
  · rintro ⟨key, row', hget, hmem⟩
    cases hrow : w key with
    | none =>
      have hstored := (found_get payload laws (s := m) inv.encoded hget).1
      have hnone := inv.stored key
      rw [hrow] at hnone
      change m.get (doc.primaryKey key) = _ at hstored
      rw [hnone] at hstored
      cases hstored
    | some row =>
      obtain ⟨row'', hget', hentries⟩ := inv.get_entries payload laws hrow
      rw [hget] at hget'
      obtain rfl := Option.some.inj (Except.ok.inj hget')
      exact ⟨key, row, hrow, hentries ▸ hmem⟩

/-- **Face consistency**: after any run of the cleaning verbs the entries under the
declared index and lead slots are exactly those of the stored rows. -/
theorem faces_exact (elsewhere : doc.EmbedsElsewhere) {m : Keyspace} (run : FaceRun doc m)
    {k : Bytes} (hk : Under doc.header (· ∈ doc.faceSlots) k) (v : Bytes) :
    m.get k = some v ↔
      ∃ key row, doc.get m key = .ok (some row) ∧ (k, v) ∈ doc.indexEntries key row := by
  obtain ⟨w, inv⟩ := faceInv_run payload laws elsewhere run
  exact inv.entries_iff payload laws hk v

end

end Document

/-! ## A tail of one key byte -/

/-- Two-byte keys. -/
instance pairKey : KeyEncode (UInt8 × UInt8) where
  keyLen := 2
  encode k := [k.1, k.2]
  decode b := (b.headD 0, b.tail.headD 0)
  length_encode _ := rfl
  decode_encode _ := rfl

/-- An index on the payload, behind it the first key byte only. -/
def tailIndex : KvIndex (UInt8 × UInt8) UInt8 where
  slot := slot Segment.index 1 firstIndex_bounds
  keyPrefixWidth := 1
  keyPrefixBytes k := [k.1]
  keyPrefix_le := by decide
  length_keyPrefix _ := rfl
  admits _ := true
  segments _ tag := [[tag]]
  entryValue _ _ := []

def tailDoc : Document (UInt8 × UInt8) UInt8 where
  partitionPrefix := []
  nsPrefix := [0, 4]
  leads := []
  indexes := [tailIndex]
  reduces := []
  vocabFields := []
  encodePayload tag := [tag]
  decodePayload raw := raw.headD 0
  embedDeref _ tag := .ok tag
  embedEntries _ := []
  embedKeys _ := []
  fields := ["tag"]
  toMap tag := SortedMap.empty.insert "tag" (.uint tag.toUInt64)
  tryFromMap map := byteField map "tag"
  leadSlots := noLeads
  indexSlots := by
    intro i hi
    obtain rfl := List.mem_singleton.mp hi
    rfl
  reduceSlots := by simp
  leadsNodup := List.nodup_nil
  indexesNodup := List.nodup_singleton _
  reducesNodup := List.nodup_nil
  vocabFaces := by simp
  embedDeref_ok _ tag := ⟨tag, rfl⟩

theorem tailDoc_payload : tailDoc.PayloadLaws where
  embedDeref_payload h := by
    obtain rfl := Except.ok.inj h
    rfl
  setName_payload := by simp [tailDoc]

theorem tailDoc_labels : tailDoc.LabelLaws := by
  constructor <;> simp [tailDoc]

theorem tailDoc_elsewhere : tailDoc.EmbedsElsewhere where
  entries := by simp [tailDoc]
  keys := by simp [tailDoc]

theorem tailDoc_rederivable (key : UInt8 × UInt8) (tag : UInt8) : tailDoc.Rederivable key tag := by
  refine tailDoc.rederivable_of_payload (fun key r r' h => ?_) key tag
  obtain rfl : r = r' := List.singleton_inj.mp h
  rfl

/-- The table with one row under `(1, 1)`. -/
def tailStore : Keyspace := tailDoc.cleanWrite SortedMap.empty (.save (1, 1) 5)

theorem tailStore_run : Document.FaceRun tailDoc tailStore := by
  refine .write .start (.save (1, 1) 5) fun key row _ => ⟨rfl, tailDoc_rederivable key row, ?_⟩
  intro key' row' _ hget
  cases hget

theorem tailStore_get {key : UInt8 × UInt8} {tag : UInt8}
    (h : tailDoc.get tailStore key = .ok (some tag)) : key = (1, 1) := by
  obtain ⟨w, inv⟩ := Document.faceInv_run tailDoc_payload tailDoc_labels tailDoc_elsewhere
    tailStore_run
  have hstored := (Document.found_get tailDoc_payload tailDoc_labels (s := tailStore)
    inv.encoded h).1
  have hmem := (tailStore.get_eq_some_iff _ _).mp hstored
  have hentries : tailStore.entries = [([0, 4, 0, 1, 1], [5]), ([0, 4, 0x30, 1, 5, 1], [])] := by
    decide
  obtain ⟨a, b⟩ := key
  rw [hentries] at hmem
  simp [Document.primaryKey, faceKey, encode, Document.header, tailDoc, primarySlot,
    Slot.bytes] at hmem
  exact Prod.ext hmem.1.1 hmem.1.2

/-- A second row with the same tag under another first byte keeps an entry of its own. -/
theorem faces_exact_twoTails :
    (tailDoc.cleanWrite tailStore (.save (2, 1) 5)).get [0, 4, 0x30, 1, 5, 1] = some [] ↔
      ∃ key row, tailDoc.get (tailDoc.cleanWrite tailStore (.save (2, 1) 5)) key = .ok (some row) ∧
        (([0, 4, 0x30, 1, 5, 1], []) : Bytes × Bytes) ∈ tailDoc.indexEntries key row := by
  refine Document.faces_exact tailDoc_payload tailDoc_labels tailDoc_elsewhere
    (.write tailStore_run (.save (2, 1) 5) fun key row h => ⟨rfl, tailDoc_rederivable key row, ?_⟩)
    ⟨tailIndex.slot, [5, 1], by decide, rfl⟩ []
  intro key' row' _ hget
  obtain ⟨rfl, rfl⟩ := Prod.mk.inj (Option.some.inj h)
  rw [tailStore_get hget]
  have hown : tailDoc.indexEntries (2, 1) 5 = [([0, 4, 0x30, 1, 5, 2], [])] := by decide
  have hother : tailDoc.indexEntries (1, 1) row' = [([0, 4, 0x30, 1, row', 1], [])] := rfl
  intro e he e' he'
  rw [hown] at he
  rw [hother] at he'
  rw [List.mem_singleton.mp he, List.mem_singleton.mp he']
  simp

/-- Two rows whose keys share the first byte own one entry between them: purging the
one leaves the other stored and without its entry. -/
theorem sharedTail_loses_entry :
    let m := tailDoc.cleanWrite (tailDoc.cleanWrite tailStore (.save (1, 2) 5)) (.purge (1, 1))
    tailDoc.get m (1, 2) = .ok (some 5) ∧
    (([0, 4, 0x30, 1, 5, 1], []) : Bytes × Bytes) ∈ tailDoc.indexEntries (1, 2) 5 ∧
    m.get [0, 4, 0x30, 1, 5, 1] = none :=
  ⟨by rfl, by decide, by decide⟩

end Okm.Model
