import Okm.Model.FaceRun

/-!
# Calls on a collection

Every verb of a collection as one call, and what it does to the whole store
(`tableEffect`): it rests, it stores a row over the one it found, or it removes the
row it found. Outside its own table a call that stores a row runs the embed pass of
that row, the others do nothing there.
-/

namespace Okm.Model

open Lib VirtualStorage KeyEncode

/-- One call on a collection. -/
inductive RowVerb (K R : Type) where
  | put (key : K) (document : R)
  | upsertWith (key : K) (f : Option R → R)
  | clean (w : CleanWrite K R)

namespace Document

variable {K R : Type} [KeyEncode K] (doc : Document K R)

/-- The row `get` answers. -/
def seen (m : Keyspace) (key : K) : Option R :=
  match doc.get m key with
  | .ok row => row
  | .error _ => none

/-- The store after a call, whatever the call answered. -/
def verb (m : Keyspace) : RowVerb K R → Keyspace
  | .put key document => (doc.put m key document).2
  | .upsertWith key f => (doc.upsertWith m key f).2
  | .clean w => doc.cleanWrite m w

/-- The row a call stores, with its key. -/
def rowStored (m : Keyspace) : RowVerb K R → Option (K × R)
  | .put key document => (doc.internedRow m document).map (key, ·)
  | .upsertWith key f => (doc.internedRow m (f (doc.seen m key))).map (key, ·)
  | .clean w => doc.rowWritten m w

/-- The call leaves no face of the old row behind: `put` sweeps nothing, so it must
find nothing to sweep. -/
def Tidy (m : Keyspace) : RowVerb K R → Prop
  | .put key document => ∀ row, doc.internedRow m document = some row →
      doc.staleFaces key row (doc.seen m key) = []
  | .upsertWith key f => ∀ row, doc.internedRow m (f (doc.seen m key)) = some row →
      doc.staleFaces key row (doc.seen m key) = []
  | .clean _ => True

/-- A put, an upsert or a save that stores `row`: its labels could be interned. -/
inductive Puts (m : Keyspace) : RowVerb K R → K → R → Prop
  | put {key : K} {document row : R} (h : doc.internedRow m document = some row) :
      Puts m (.put key document) key row
  | upsertWith {key : K} {f : Option R → R} {row : R}
      (h : doc.internedRow m (f (doc.seen m key)) = some row) : Puts m (.upsertWith key f) key row
  | save {key : K} {document row : R} (h : doc.internedRow m document = some row) :
      Puts m (.clean (.save key document)) key row
  | saveOver {key : K} {document row : R} (h : doc.internedRow m document = some row) :
      Puts m (.clean (.saveOver key document)) key row

/-- What a call that stores a row does to the whole store. -/
structure Wrote (m : Keyspace) (f' : Reads) (key : K) (old : Option R) (row : R)
    (tidy : Prop) : Prop where
  move : doc.RowMove m.get f' key old (some row)
  vocabs : doc.VocabsSound m.get → doc.VocabsSound f' ∧ doc.IdsKept m.get f' ∧
    ∀ row', some row = some row' → doc.Named f' row'
  faces : tidy → ∃ found, Found doc m.get key found ∧
    m.get (doc.primaryKey key) = found.map doc.encodePayload ∧
    doc.Swept m.get f' key found (some row)
  embeds : ∀ k, ¬ Under doc.header (fun _ => True) k → f' k = written (doc.embedOps row old) m.get k

/-- What a call does to the whole store. -/
inductive TableEffect (m : Keyspace) (f' : Reads) (v : RowVerb K R) : Prop
  | rest (h : Resting doc m.get f')
  | wrote (key : K) (old : Option R) (row : R) (h : doc.Wrote m f' key old row (doc.Tidy m v))
      (hstored : doc.rowStored m v = some (key, row))
  | removed (key : K) (old : R) (h : Cleaned doc m.get f' key (some old) none)
      (found : Found doc m.get key (some old)) (outside : OnlyUnder doc.header (fun _ => True) m.get f')

variable {doc}

theorem get_seen (doc : Document K R) (m : Keyspace) (key : K) : doc.get m key = .ok (doc.seen m key) := by
  obtain ⟨row, hrow⟩ := doc.get_ok m key
  rw [seen, hrow]

theorem Puts.stored {m : Keyspace} {v : RowVerb K R} {key : K} {row : R} (h : doc.Puts m v key row) :
    doc.rowStored m v = some (key, row) := by
  cases h with
  | put h => rw [rowStored, h, Option.map_some]
  | upsertWith h => rw [rowStored, h, Option.map_some]
  | save h => rw [rowStored, rowWritten, h, Option.map_some]
  | saveOver h => rw [rowStored, rowWritten, h, Option.map_some]

theorem SaveEffect.wrote {m : Keyspace} {f' : Reads} {key : K} {old : Option R} {row : R}
    (h : doc.SaveEffect m.get f' key old row) (tidy : Prop) : doc.Wrote m f' key old row tidy where
  move := h.cleaned.move
  vocabs := h.cleaned.vocabs
  faces _ := ⟨old, h.found, h.cleaned.move.stored, h.cleaned.swept⟩
  embeds := h.embeds

theorem commitWrites_ok {α : Type} {m : Keyspace} {body : Verb (BatchStore Keyspace) α} {a : α}
    {s' : BatchStore Keyspace} (h : body (freshView m) = (.ok a, s')) :
    commitWrites m body = (.ok a, viewMap s') := by
  rcases commitWrites_cases m body with ⟨e, s'', hbody, -⟩ | ⟨a', s'', hbody, hcommit⟩
  · cases (Prod.mk.inj (h.symm.trans hbody)).1
  · obtain ⟨ha, rfl⟩ := Prod.mk.inj (h.symm.trans hbody)
    rw [hcommit, Except.ok.inj ha]

section

variable (payload : doc.PayloadLaws) (laws : doc.LabelLaws) (elsewhere : doc.EmbedsElsewhere)
variable {m : Keyspace} (hrows : doc.RowsEncoded m.get)

include payload laws elsewhere hrows

/-- **A put** moves one row, and outside the table runs its embed pass. -/
theorem wrote_put (key : K) {document row : R} (hrow : doc.internedRow m document = some row) :
    ∃ old, doc.Wrote m (doc.put m key document).2.get key old row
      (doc.staleFaces key row (doc.seen m key) = []) := by
  cases hintern : doc.intern document (freshView m) with
  | mk verdict s₁ =>
    rw [internedRow, hintern] at hrow
    cases verdict with
    | error e => cases hrow
    | ok row' =>
      obtain rfl := Option.some.inj hrow
      have hquiet := (confined_intern doc (σ := BatchStore Keyspace) document (freshView m)).mono
        fun _ => labelSlot_quiet doc
      rw [hintern] at hquiet
      have hsame : viewGet s₁ (doc.primaryKey key) = m.get (doc.primaryKey key) :=
        hquiet.at_slot (fun hs => hs.1 rfl) _
      have hget : peek (fun view => VirtualStorage.get view (doc.primaryKey key)) s₁
          = (.ok (m.get (doc.primaryKey key)), s₁) := by
        rw [← hsame]
        exact congrArg (·, s₁) (lawfulBatchStore.get_eq s₁ (doc.primaryKey key))
      obtain ⟨s', hwrite, hview⟩ := doc.writes_writeRow (σ := BatchStore Keyspace) key row'
        ((m.get (doc.primaryKey key)).map doc.decodePayload) [] s₁
      have hbody : doc.putInto key document (freshView m) = (.ok (), s') := by
        unfold Document.putInto
        rw [run_bind_of_ok hintern, run_bind_of_ok hget]
        exact hwrite
      have hstored : m.get (doc.primaryKey key)
          = ((m.get (doc.primaryKey key)).map doc.decodePayload).map doc.encodePayload := by
        cases hraw : m.get (doc.primaryKey key) with
        | none => rfl
        | some raw => rw [Option.map_some, Option.map_some, hrows.reencode hraw]
      obtain ⟨hmove, hvocabs, hfaces⟩ :=
        interned_write laws elsewhere hintern (by simp) hstored hview
      have hput : (doc.put m key document).2.get = viewGet s' := by
        rw [Document.put, commitWrites_ok hbody, get_viewMap]
      rw [hput]
      refine ⟨_, hmove, hvocabs, fun tidy => ?_, fun k hk =>
        interned_outside hintern (by simp) hview hk⟩
      obtain ⟨hfound, found⟩ := found_get payload laws (s := m) hrows (doc.get_seen m key)
      exact ⟨doc.seen m key, found, hfound, swept_of_stale tidy fun s hs suffix => hfaces s hs suffix⟩

theorem wrote_upsertWith {key : K} {f : Option R → R} {row : R}
    (hrow : doc.internedRow m (f (doc.seen m key)) = some row) :
    ∃ old, doc.Wrote m (doc.upsertWith m key f).2.get key old row
      (doc.staleFaces key row (doc.seen m key) = []) := by
  obtain ⟨old, hwrote⟩ := wrote_put payload laws elsewhere hrows key hrow
  have hstore : (doc.upsertWith m key f).2 = (doc.put m key (f (doc.seen m key))).2 := by
    unfold Document.upsertWith
    rw [get_seen]
    dsimp only
    generalize doc.put m key (f (doc.seen m key)) = answer
    obtain ⟨verdict, m'⟩ := answer
    cases verdict with
    | error e => rfl
    | ok u => rfl
  rw [hstore]
  exact ⟨old, hwrote⟩

/-- A save that may run does. -/
theorem wrote_save (key : K) {document row : R} {given : Option R}
    (hgiven : given = none ∨ doc.get m key = .ok given)
    (hrow : doc.internedRow m document = some row) :
    ∃ s' old, doc.saveWithPrevInto key document given (freshView m) = (.ok (), s') ∧
      doc.Wrote m (viewGet s') key old row True := by
  have hprev : ∃ prev, doc.prevRow key given (freshView m) = (.ok prev, freshView m) := by
    cases given with
    | some old => exact ⟨some old, rfl⟩
    | none =>
      obtain ⟨prev, hprev, -⟩ := prevRow_spec payload (s := freshView m) hrows key none (by simp)
      exact ⟨prev, hprev⟩
  obtain ⟨prev, hprev⟩ := hprev
  cases hintern : doc.intern document (freshView m) with
  | mk verdict s₁ =>
    rw [internedRow, hintern] at hrow
    cases verdict with
    | error e => cases hrow
    | ok row' =>
      obtain rfl := Option.some.inj hrow
      obtain ⟨s', hwrite, -⟩ := doc.writes_writeRow (σ := BatchStore Keyspace) key row' prev
        (doc.staleFaces key row' prev) s₁
      have hbody : doc.saveWithPrevInto key document given (freshView m) = (.ok (), s') := by
        unfold Document.saveWithPrevInto
        rw [run_bind_of_ok hprev, run_bind_of_ok hintern]
        exact hwrite
      have hinterned : doc.internedRow m document = some row' := by rw [internedRow, hintern]
      rcases hgiven with rfl | hget
      · obtain ⟨old, row'', hrow', heffect⟩ := saveEffect_save payload laws elsewhere hrows hbody
        rw [hinterned] at hrow'
        obtain rfl := Option.some.inj hrow'
        exact ⟨s', old, hbody, heffect.wrote True⟩
      · obtain ⟨row'', hrow', heffect⟩ :=
          saveEffect_saveOver payload laws elsewhere hrows hget hbody
        rw [hinterned] at hrow'
        obtain rfl := Option.some.inj hrow'
        exact ⟨s', given, hbody, heffect.wrote True⟩

/-- **A put, an upsert or a save that may run** stores its row. -/
theorem wrote_of_puts {v : RowVerb K R} {key : K} {row : R} (h : doc.Puts m v key row) :
    ∃ old, doc.Wrote m (doc.verb m v).get key old row (doc.Tidy m v) := by
  cases h with
  | put hrow =>
    obtain ⟨old, hwrote⟩ := wrote_put payload laws elsewhere hrows key hrow
    exact ⟨old, hwrote.move, hwrote.vocabs, fun tidy => hwrote.faces (tidy row hrow),
      hwrote.embeds⟩
  | upsertWith hrow =>
    obtain ⟨old, hwrote⟩ := wrote_upsertWith payload laws elsewhere hrows hrow
    exact ⟨old, hwrote.move, hwrote.vocabs, fun tidy => hwrote.faces (tidy row hrow),
      hwrote.embeds⟩
  | @save _ document _ hrow =>
    obtain ⟨s', old, hbody, hwrote⟩ := wrote_save payload laws elsewhere hrows key
      (Or.inl rfl) hrow
    refine ⟨old, ?_⟩
    change doc.Wrote m (commitWrites m (doc.saveWithPrevInto key document none)).2.get key old row True
    rw [commitWrites_ok hbody, get_viewMap]
    exact hwrote
  | @saveOver _ document _ hrow =>
    obtain ⟨s', old, hbody, hwrote⟩ := wrote_save payload laws elsewhere hrows key
      (Or.inr (doc.get_seen m key)) hrow
    have hover : doc.saveOverInto key document (freshView m) = (.ok (), s') := by
      have hpeek : peekStore (fun store => doc.get store key) (freshView m)
          = (.ok (doc.seen m key), freshView m) := congrArg (·, freshView m) (doc.get_seen m key)
      unfold Document.saveOverInto
      rw [run_bind_of_ok hpeek]
      exact hbody
    refine ⟨old, ?_⟩
    change doc.Wrote m (commitWrites m (doc.saveOverInto key document)).2.get key old row True
    rw [commitWrites_ok hover, get_viewMap]
    exact hwrote

omit payload laws elsewhere hrows in
/-- A put whose labels are refused writes nothing. -/
theorem put_refused (key : K) {document : R} (hrow : doc.internedRow m document = none) :
    (doc.put m key document).2 = m := by
  rcases commitWrites_cases m (doc.putInto key document) with ⟨e, s', -, hcommit⟩ | ⟨u, s', hbody, -⟩
  · exact congrArg Prod.snd hcommit
  · obtain ⟨row, s₁, hintern, -⟩ := run_bind_eq_ok.mp hbody
    rw [internedRow, hintern] at hrow
    cases hrow

/-- **What each call does** to the whole store. -/
theorem tableEffect (v : RowVerb K R) : doc.TableEffect m (doc.verb m v).get v := by
  cases v with
  | put key document =>
    cases hrow : doc.internedRow m document with
    | none =>
      change doc.TableEffect m (doc.put m key document).2.get _
      rw [put_refused key hrow]
      exact .rest (Resting.refl _)
    | some row =>
      have hputs : doc.Puts m (.put key document) key row := .put hrow
      obtain ⟨old, hwrote⟩ := wrote_of_puts payload laws elsewhere hrows hputs
      exact .wrote key old row hwrote hputs.stored
  | upsertWith key f =>
    cases hrow : doc.internedRow m (f (doc.seen m key)) with
    | none =>
      have hrefused := put_refused key hrow
      change doc.TableEffect m (doc.upsertWith m key f).2.get _
      unfold Document.upsertWith
      rw [get_seen]
      dsimp only
      generalize doc.put m key (f (doc.seen m key)) = answer at hrefused ⊢
      obtain ⟨verdict, m'⟩ := answer
      obtain rfl : m' = m := hrefused
      cases verdict with
      | error e => exact .rest (Resting.refl _)
      | ok u => exact .rest (Resting.refl _)
    | some row =>
      have hputs : doc.Puts m (.upsertWith key f) key row := .upsertWith hrow
      obtain ⟨old, hwrote⟩ := wrote_of_puts payload laws elsewhere hrows hputs
      exact .wrote key old row hwrote hputs.stored
  | clean w =>
    cases verbEffect_write payload laws elsewhere hrows w with
    | rest h => exact .rest h
    | wrote key old row h hstored => exact .wrote key old row (h.wrote _) hstored
    | removed key old h found outside => exact .removed key old h found outside

end

end Document

end Okm.Model
