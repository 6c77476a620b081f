import Okm.Model.BatchRuns
import Okm.Model.FaceRun
import Okm.Model.RebuildSound

/-!
# A rebuild of faces that are kept

The write path derives the entries of a row with its labels at hand; a rebuild decodes the
payload and looks no label up. Where the entries of a table come from payloads alone the two
agree, and a rebuild of faces the cleaning verbs kept changes nothing (`rebuild_keeps`).

A func that reads a label makes them differ: the rebuilt face holds the entries of rows without
labels (`rebuild_forgets_label`).
-/

namespace Okm.Model

open Lib VirtualStorage KeyEncode

namespace Declared

variable {K R : Type} [KeyEncode K] {d : Declared K R}

/-- A row as `get` answers it, with labels and children, has the entries of its payload. -/
def PayloadEntries (d : Declared K R) (m : Keyspace) : Prop :=
  ∀ key raw row, m.get (d.doc.primaryKey key) = some raw → d.doc.get m key = .ok (some row) →
    d.doc.indexEntries key (d.doc.decodePayload raw) = d.doc.indexEntries key row

section

variable (payload : d.doc.PayloadLaws) (laws : d.doc.LabelLaws)

theorem rowsWellFormed_of_inv {m : Keyspace} {w : K → Option R} (inv : d.doc.FaceInv m.get w) :
    d.RowsWellFormed m := by
  rintro k v hget ⟨suffix, rfl⟩
  have hkey : d.primaryFace ++ suffix = faceKey d.doc.header primarySlot suffix := by
    rw [primaryFace, faceKey, faceKey, List.append_nil]
    rfl
  rw [hkey] at hget ⊢
  obtain ⟨key, -, rfl, -⟩ := inv.encoded suffix v hget
  exact ⟨key, rfl⟩

include payload laws

/-- The entries a rebuild derives for a key are those the write path left there. -/
theorem derived_iff {m : Keyspace} {w : K → Option R} (inv : d.doc.FaceInv m.get w)
    (hentries : d.PayloadEntries m) {k : Bytes} (hk : d.Live k) (v : Bytes) :
    (∃ row ∈ d.storedRows m, (k, v) ∈ d.doc.indexEntries row.1 row.2) ↔ m.get k = some v := by
  rw [inv.entries_iff payload laws hk v]
  constructor
  · rintro ⟨⟨key, row⟩, hrow, hmem⟩
    obtain ⟨raw, hraw, rfl⟩ := (mem_storedRows (rowsWellFormed_of_inv inv)).mp hrow
    obtain ⟨written, hwritten⟩ : ∃ written, w key = some written := by
      have hstored := (inv.stored key).symm.trans hraw
      obtain ⟨written, hwritten, -⟩ := Option.map_eq_some_iff.mp hstored
      exact ⟨written, hwritten⟩
    obtain ⟨row, hget, -⟩ := inv.get_entries payload laws hwritten
    exact ⟨key, row, hget, hentries key raw row hraw hget ▸ hmem⟩
  · rintro ⟨key, row, hget, hmem⟩
    have hraw := (Document.found_get payload laws (s := m) inv.encoded hget).1
    refine ⟨(key, _), (mem_storedRows (rowsWellFormed_of_inv inv)).mpr ⟨_, hraw, rfl⟩, ?_⟩
    rw [hentries key _ row hraw hget]
    exact hmem

/-- **What a rebuild restores is what the write path left.** -/
theorem Restored.same {m m' : Keyspace} (restored : d.Restored m m') {w : K → Option R}
    (inv : d.doc.FaceInv m.get w) (hentries : d.PayloadEntries m) {k : Bytes}
    (hk : k ≠ d.metaKey) : m'.get k = m.get k := by
  by_cases hlive : d.Live k
  · rw [restored.faces k hlive]
    obtain ⟨hfrom, hinto⟩ := d.unionEntries_spec m
    refine Option.ext fun v => ⟨fun hunion => ?_, fun hget => ?_⟩
    · exact (derived_iff payload laws inv hentries hlive v).mp (hfrom k v hunion)
    · obtain ⟨row, hrow, hmem⟩ := (derived_iff payload laws inv hentries hlive v).mpr hget
      obtain ⟨v', hunion, hagree⟩ := hinto row hrow (k, v) hmem
      obtain rfl : v' = v := hagree fun row' hrow' u hmem' => by
        have hu := (derived_iff payload laws inv hentries hlive u).mp ⟨row', hrow', hmem'⟩
        exact Option.some.inj (hu.symm.trans hget)
      exact hunion
  · exact restored.others k hlive hk

/-- **A rebuild of faces that are exact changes nothing**, where the entries come from the
payloads: along every run of the cleaning verbs, for every chunk and any faults planned. -/
theorem rebuild_keeps (elsewhere : d.doc.EmbedsElsewhere) {s s' : Flaky}
    (run : Document.FaceRun d.doc s.store) (hentries : d.PayloadEntries s.store)
    (hexact : d.SweepsExact s.store) {chunk : Nat} {report : RebuildReport}
    (h : d.rebuildFaces chunk s = (.ok report, s')) {k : Bytes} (hk : k ≠ d.metaKey) :
    s'.store.get k = s.store.get k := by
  obtain ⟨w, inv⟩ := Document.faceInv_run payload laws elsewhere run
  have hsound := rebuild_sound (rowsWellFormed_of_inv inv) hexact chunk
  exact (hsound.restored report s' h).same payload laws inv hentries hk

end

end Declared

/-! ## An index on labels -/

/-- Tags with the func index on their label. -/
def tagTable : Declared UInt8 Tag where
  doc := tagDoc
  layoutVersion := 1
  indexDecls := [⟨"by_name", 0x3001, ["tag"], [], "name_bytes", false⟩]
  liveSlots := rfl

/-- The row is stored under its id, and the rebuild finds no label in it: the entry of the label
is gone, and one without a label has taken its place. -/
theorem rebuild_forgets_label :
    tagStore.get (tagIndex.entryKeyWith tagDoc.header 1 (strBytes "a")) = some [] ∧
    (∃ report, (tagTable.rebuildFaces 4 (⟨tagStore, [], Faults.never⟩ : Flaky)).1 = .ok report) ∧
    (tagTable.rebuildFaces 4 (⟨tagStore, [], Faults.never⟩ : Flaky)).2.store.get
      (tagIndex.entryKeyWith tagDoc.header 1 (strBytes "a")) = none ∧
    (tagTable.rebuildFaces 4 (⟨tagStore, [], Faults.never⟩ : Flaky)).2.store.get
      (tagIndex.entryKeyWith tagDoc.header 1 []) = some [] := by
  have hanswer : (tagTable.rebuildFaces 4 (⟨tagStore, [], Faults.never⟩ : Flaky)).1
      = .ok ⟨1, 1, 1, 1, 2⟩ := by
    decide +kernel
  exact ⟨by decide +kernel, ⟨_, hanswer⟩, by decide +kernel, by decide +kernel⟩

end Okm.Model
