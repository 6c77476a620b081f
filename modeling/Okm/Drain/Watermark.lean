import Mathlib.Data.String.Basic
import Okm.Drain.Window

/-!
# The watermark of a table

One consumer drains one table, again and again, while the log seals more segments. Whatever
writes fail, a segment the watermark has passed is in a window whose file holds the rows of the
window's puts and of nothing else; where none fails, it is in no other window (`drain_covers`).

The watermark does not pass a window without rows. If the window is as large as a window may
be, the segments sealed behind it are never looked at (`rowless_window_stalls`).
-/

namespace Okm.Drain

open Lib Model Okm.Dynamic
open Guarded (answer refuse abort)

/-! ## Segments in order -/

theorem SegmentFile.name_pos (s : SegmentFile) : "" < s.name := by
  rw [String.lt_iff_toList_lt, SegmentFile.name, String.toList_append]
  cases s.stem.toList with
  | nil => exact List.nil_lt_cons _ _
  | cons c cs => exact List.nil_lt_cons _ _

theorem firstStem_ne_nil {segments : List SegmentFile} (h : segments ≠ []) :
    ∃ s ∈ segments, firstStem segments = s.stem := by
  cases segments with
  | nil => exact absurd rfl h
  | cons s segments => exact ⟨s, List.mem_cons_self, rfl⟩

theorem lastStem_name {segments : List SegmentFile} {last : SegmentFile}
    (h : segments.getLast? = some last) : lastStem segments ++ ".segment" = last.name := by
  rw [lastStem, h]
  rfl

/-- Windows on the two sides of a name are called differently. -/
theorem windowName_ne {table : String} {segments segments' : List SegmentFile} {mark : String}
    (hne : segments ≠ []) (hne' : segments' ≠ []) (hle : ∀ s ∈ segments, s.name ≤ mark)
    (hlt : ∀ s ∈ segments', mark < s.name) :
    windowName table segments ≠ windowName table segments' := by
  intro heq
  obtain ⟨s, hs, hfirst⟩ := firstStem_ne_nil hne
  obtain ⟨s', hs', hfirst'⟩ := firstStem_ne_nil hne'
  have hstem : s.stem = s'.stem := by
    rw [← hfirst, ← hfirst']
    exact congrArg WindowName.first heq
  have hname : s.name = s'.name := by rw [SegmentFile.name, SegmentFile.name, hstem]
  exact absurd (hlt s' hs') (not_lt_of_ge (hname ▸ hle s hs))

section

variable {cfg : DrainConfig} {mark : String} {segments : List SegmentFile}

theorem mem_window {s : SegmentFile} (h : s ∈ window cfg mark segments) :
    s ∈ segments ∧ mark < s.name := by
  have hfilter := List.mem_of_mem_take h
  obtain ⟨hs, hlt⟩ := List.mem_filter.mp hfilter
  exact ⟨hs, of_decide_eq_true hlt⟩

theorem filter_suffix (sorted : segments.Pairwise fun a b => a.name < b.name) :
    (segments.filter fun s => decide (mark < s.name)) <:+ segments := by
  induction segments with
  | nil => exact List.suffix_rfl
  | cons s segments ih =>
    obtain ⟨hfirst, hrest⟩ := List.pairwise_cons.mp sorted
    by_cases hs : mark < s.name
    · -- the first that is past the mark, and so is every later one
      have hall : ∀ t ∈ s :: segments, decide (mark < t.name) = true := by
        intro t ht
        rcases List.mem_cons.mp ht with rfl | ht
        · exact decide_eq_true hs
        · exact decide_eq_true (lt_trans hs (hfirst t ht))
      rw [List.filter_eq_self.mpr hall]
    · rw [List.filter_cons_of_neg (by simpa using hs)]
      exact (ih hrest).trans (List.suffix_cons _ _)

theorem window_part (sorted : segments.Pairwise fun a b => a.name < b.name) :
    window cfg mark segments <:+: segments :=
  (List.take_prefix _ _).isInfix.trans (filter_suffix sorted).isInfix

/-- The last of a window is the last by name. -/
theorem le_last (sorted : segments.Pairwise fun a b => a.name < b.name) {last s : SegmentFile}
    (hlast : (window cfg mark segments).getLast? = some last)
    (hs : s ∈ window cfg mark segments) : s.name ≤ last.name := by
  have hpart : window cfg mark segments <:+: segments := window_part sorted
  have hwindow := sorted.sublist hpart.sublist
  obtain ⟨front, hfront⟩ := List.getLast?_eq_some_iff.mp hlast
  rw [hfront] at hs hwindow
  rcases List.mem_append.mp hs with hs | hs
  · exact le_of_lt ((List.pairwise_append.mp hwindow).2.2 s hs last (List.mem_singleton.mpr rfl))
  · rw [List.mem_singleton.mp hs]

/-- What is between the mark and the last of a window is in the window. -/
theorem mem_window_of_le (sorted : segments.Pairwise fun a b => a.name < b.name)
    {last s : SegmentFile} (hlast : (window cfg mark segments).getLast? = some last)
    (hs : s ∈ segments) (hpast : mark < s.name) (hle : s.name ≤ last.name) :
    s ∈ window cfg mark segments := by
  have hfilter : s ∈ segments.filter fun s => decide (mark < s.name) :=
    List.mem_filter.mpr ⟨hs, decide_eq_true hpast⟩
  have hsorted := sorted.sublist (List.filter_sublist (p := fun s => decide (mark < s.name)))
  rw [← List.take_append_drop (max cfg.maxSegments 1)
    (segments.filter fun s => decide (mark < s.name))] at hfilter hsorted
  rcases List.mem_append.mp hfilter with hin | hout
  · exact hin
  · have hlt := (List.pairwise_append.mp hsorted).2.2 last (List.mem_of_getLast? hlast) s hout
    exact absurd hle (not_le_of_gt hlt)

end

/-! ## What one drain does -/

section

variable {arrow : Arrow} {cfg : DrainConfig} {dir : TableDir}

/-- What a batch is made of. -/
structure Assembled (cfg : DrainConfig) (dir : TableDir) (mark : String)
    (segments : List SegmentFile) (schema : CollectionSchema) (g : Gathered)
    (batch : arrow.Batch) : Prop where
  declared : loadSidecar dir = .ok schema
  taken : segments = window cfg mark dir.segments
  nonempty : segments ≠ []
  rows : ∃ header, headerOf dir.name = .ok header ∧ gather header schema segments = answer g
  filled : g.rows ≠ []
  built : recordBatch arrow schema g.keys g.rows (some g.labels) = answer batch

theorem prepare_batch {mark : String} {segments : List SegmentFile} {schema : CollectionSchema}
    {g : Gathered} {batch : arrow.Batch}
    (h : prepare arrow cfg dir mark = answer (.batch segments schema g batch)) :
    Assembled cfg dir mark segments schema g batch := by
  unfold prepare at h
  obtain ⟨header, hheader, h⟩ := Guarded.bind_eq_answer.mp h
  obtain ⟨schema', hschema, h⟩ := Guarded.bind_eq_answer.mp h
  dsimp only at h
  split at h
  · cases h
  · rename_i hsome
    obtain ⟨g', hgather, h⟩ := Guarded.bind_eq_answer.mp h
    split at h
    · cases h
    · rename_i hfilled
      obtain ⟨batch', hbatch, h⟩ := Guarded.bind_eq_answer.mp h
      injection h with h
      injection h with hsegments hschema' hg hbatch'
      subst hsegments hschema' hg hbatch'
      exact ⟨Guarded.lift_eq_answer.mp hschema, rfl, fun hnil => hsome (by rw [hnil]; rfl),
        ⟨header, Guarded.lift_eq_answer.mp hheader, hgather⟩,
        fun hnil => hfilled (by rw [hnil]; rfl), Guarded.mapRefuse_eq_answer.mp hbatch⟩

/-- Only the window's own files are written, and the watermark moves after them. -/
structure Wrote (table : String) (segments : List SegmentFile) (schema : CollectionSchema)
    (g : Gathered) (batch : arrow.Batch) (out out' : OutDir arrow) : Prop where
  files : ∀ name, name ≠ windowName table segments → out'.files name = out.files name
  manifests : ∀ name, name ≠ windowName table segments → out'.manifests name = out.manifests name
  watermark : out'.watermark = out.watermark ∨
    out'.watermark = lastStem segments ++ ".segment" ∧
      out'.files (windowName table segments) = some batch ∧
      out'.manifests (windowName table segments)
        = some (manifestOf table schema segments g batch)

theorem writeWindow_wrote (weather : Weather arrow) (table : String) (segments : List SegmentFile)
    (schema : CollectionSchema) (g : Gathered) (batch : arrow.Batch) (report : Report)
    (out : OutDir arrow) : Wrote table segments schema g batch out
      (writeWindow weather table segments schema g batch report out).2 := by
  unfold writeWindow
  cases weather.file with
  | some left => exact ⟨fun name hname => if_neg hname, fun _ _ => rfl, Or.inl rfl⟩
  | none =>
    dsimp only
    cases weather.manifest with
    | true => exact ⟨fun name hname => if_neg hname, fun _ _ => rfl, Or.inl rfl⟩
    | false =>
      cases weather.watermark with
      | true => exact ⟨fun name hname => if_neg hname, fun name hname => if_neg hname, Or.inl rfl⟩
      | false =>
        exact ⟨fun name hname => if_neg hname, fun name hname => if_neg hname,
          Or.inr ⟨rfl, if_pos rfl, if_pos rfl⟩⟩

/-- No write fails. -/
structure Calm (weather : Weather arrow) : Prop where
  file : weather.file = none
  manifest : weather.manifest = false
  watermark : weather.watermark = false

theorem writeWindow_calm {weather : Weather arrow} (calm : Calm weather) (table : String)
    (segments : List SegmentFile) (schema : CollectionSchema) (g : Gathered) (batch : arrow.Batch)
    (report : Report) (out : OutDir arrow) :
    (writeWindow weather table segments schema g batch report out).2
      = { (out.setFile (windowName table segments) (some batch)).setManifest
            (windowName table segments) (manifestOf table schema segments g batch) with
          watermark := lastStem segments ++ ".segment" } := by
  unfold writeWindow
  rw [calm.file, calm.manifest, calm.watermark]
  rfl

theorem drain_single (weather : Weather arrow) (out : OutDir arrow) :
    (drain cfg (fun _ => weather) [dir] Report.empty out).2
      = (drainTable cfg weather dir Report.empty out).2 := by
  unfold drain
  rcases drainTable cfg weather dir Report.empty out with ⟨answer | refuse | abort, out'⟩ <;> rfl

/-- A drain of one table writes nothing, or one window. -/
theorem drain_cases (cfg : DrainConfig) (dir : TableDir) (weather : Weather arrow) (out : OutDir arrow) :
    (drain cfg (fun _ => weather) [dir] Report.empty out).2 = out ∨
      ∃ segments schema g batch report, Assembled cfg dir out.watermark segments schema g batch ∧
        (drain cfg (fun _ => weather) [dir] Report.empty out).2
          = (writeWindow weather dir.name segments schema g batch report out).2 := by
  rw [drain_single]
  unfold drainTable
  dsimp only
  cases hprepare : prepare arrow cfg dir out.watermark with
  | refuse e => exact Or.inl rfl
  | abort a => exact Or.inl rfl
  | answer prepared =>
    cases prepared with
    | nothing => exact Or.inl rfl
    | rowless segments segmentOnly => exact Or.inl rfl
    | batch segments schema g batch =>
      exact Or.inr ⟨segments, schema, g, batch, _, prepare_batch hprepare, rfl⟩

end

/-! ## Along a run -/

/-- A table's log and what one consumer has of it. -/
structure Site (arrow : Arrow) where
  dir : TableDir
  out : OutDir arrow

def Site.new (arrow : Arrow) (dir : TableDir) : Site arrow := ⟨dir, OutDir.empty arrow⟩

/-- The log seals one more segment; it numbers them upward. -/
def TableDir.seal (dir : TableDir) (segment : SegmentFile) : TableDir :=
  if later : ∀ s ∈ dir.segments, s.name < segment.name then
    { dir with
      segments := dir.segments ++ [segment]
      sorted := List.pairwise_append.mpr ⟨dir.sorted, List.pairwise_singleton _ _,
        fun s hs _ ht => List.mem_singleton.mp ht ▸ later s hs⟩ }
  else dir

inductive Event (arrow : Arrow) where
  | sealed (segment : SegmentFile)
  | drained (weather : Weather arrow)

section

variable {arrow : Arrow}

def Event.Calm : Event arrow → Prop
  | .sealed _ => True
  | .drained weather => Drain.Calm weather

namespace Site

def step (cfg : DrainConfig) (site : Site arrow) : Event arrow → Site arrow
  | .sealed s => { site with dir := site.dir.seal s }
  | .drained weather =>
    { site with out := (drain cfg (fun _ => weather) [site.dir] Report.empty site.out).2 }

def run (cfg : DrainConfig) (site : Site arrow) (events : List (Event arrow)) : Site arrow :=
  events.foldl (step cfg) site

end Site

/-- A batch of the primary puts of these segments. -/
def RowsOf (dir : TableDir) (segments : List SegmentFile) (batch : arrow.Batch) : Prop :=
  ∃ header schema rows labels, headerOf dir.name = .ok header ∧ loadSidecar dir = .ok schema ∧
    List.Forall₂ (Decoded schema) (segments.flatMap (putsOf header schema)) rows ∧
    recordBatch arrow schema ((segments.flatMap (putsOf header schema)).map Prod.fst) rows (some labels)
      = answer batch

/-- A window whose files are there. -/
structure Landed (dir : TableDir) (out : OutDir arrow) (segments : List SegmentFile) : Prop where
  part : segments <:+: dir.segments
  file : ∃ batch, out.files (windowName dir.name segments) = some batch ∧ RowsOf dir segments batch
  manifest : ∃ manifest, out.manifests (windowName dir.name segments) = some manifest ∧
    manifest.segments = segments.map SegmentFile.name

/-- What the watermark has passed has landed. -/
structure Covered (site : Site arrow) : Prop where
  mark : site.out.watermark = "" ∨ ∃ s ∈ site.dir.segments, site.out.watermark = s.name
  landed : ∀ s ∈ site.dir.segments, s.name ≤ site.out.watermark →
    ∃ segments, s ∈ segments ∧ Landed site.dir site.out segments ∧
      ∀ t ∈ segments, t.name ≤ site.out.watermark

/-- A segment is in one window, and the watermark has passed it. -/
structure Once (site : Site arrow) : Prop where
  behind : ∀ name manifest, site.out.manifests name = some manifest →
    ∀ s ∈ manifest.segments, s ≤ site.out.watermark
  once : ∀ name manifest name' manifest', site.out.manifests name = some manifest →
    site.out.manifests name' = some manifest' →
    ∀ s, s ∈ manifest.segments → s ∈ manifest'.segments → name = name'

end

section

variable {arrow : Arrow} {cfg : DrainConfig} {dir : TableDir} {mark : String} {segments : List SegmentFile}
  {schema : CollectionSchema} {g : Gathered} {batch : arrow.Batch}

theorem Assembled.past (h : Assembled cfg dir mark segments schema g batch) {s : SegmentFile}
    (hs : s ∈ segments) : s ∈ dir.segments ∧ mark < s.name := by
  rw [h.taken] at hs
  exact mem_window hs

/-- The last segment of a window, which the watermark moves to. -/
theorem Assembled.last (h : Assembled cfg dir mark segments schema g batch) :
    ∃ last, lastStem segments ++ ".segment" = last.name ∧ last ∈ segments ∧
      (∀ s ∈ segments, s.name ≤ last.name) ∧
      ∀ s ∈ dir.segments, mark < s.name → s.name ≤ last.name → s ∈ segments := by
  obtain ⟨last, hlast⟩ : ∃ last, segments.getLast? = some last :=
    ⟨_, List.getLast?_eq_some_getLast h.nonempty⟩
  refine ⟨last, lastStem_name hlast, List.mem_of_getLast? hlast, ?_⟩
  rw [h.taken] at hlast ⊢
  exact ⟨fun s hs => le_last dir.sorted hlast hs,
    fun s hs hpast hle => mem_window_of_le dir.sorted hlast hs hpast hle⟩

theorem Assembled.rowsOf (h : Assembled cfg dir mark segments schema g batch) :
    RowsOf dir segments batch := by
  obtain ⟨header, hheader, hgather⟩ := h.rows
  obtain ⟨hkeys, hrows⟩ := gather_rows hgather
  refine ⟨header, schema, g.rows, g.labels, hheader, h.declared, hrows, ?_⟩
  rw [← hkeys]
  exact h.built

/-- The windows that are there keep their files: the new one is called otherwise. -/
theorem Landed.kept {out out' : OutDir arrow} {old : List SegmentFile} (hland : Landed dir out old)
    (hold : old ≠ []) (hbehind : ∀ t ∈ old, t.name ≤ out.watermark)
    (hnew : Assembled cfg dir out.watermark segments schema g batch)
    (hwrote : Wrote dir.name segments schema g batch out out') : Landed dir out' old := by
  have hname : windowName dir.name old ≠ windowName dir.name segments :=
    windowName_ne hold hnew.nonempty hbehind fun s hs => (hnew.past hs).2
  refine ⟨hland.part, ?_, ?_⟩
  · rw [hwrote.files _ hname]
    exact hland.file
  · rw [hwrote.manifests _ hname]
    exact hland.manifest

end

section

variable {arrow : Arrow} {cfg : DrainConfig} {site : Site arrow}

theorem covered_sealed (h : Covered site) (segment : SegmentFile) :
    Covered (site.step cfg (.sealed segment)) := by
  rw [Site.step, TableDir.seal]
  split
  · rename_i later
    refine ⟨h.mark.imp_right fun ⟨s, hs, hmark⟩ => ⟨s, List.mem_append_left _ hs, hmark⟩, ?_⟩
    intro s hs hle
    rcases List.mem_append.mp hs with hs | hs
    · obtain ⟨segments, hmem, hland, hbehind⟩ := h.landed s hs hle
      exact ⟨segments, hmem, ⟨hland.part.trans (List.prefix_append _ _).isInfix, hland.file,
        hland.manifest⟩, hbehind⟩
    · -- the watermark is a segment's name, and the new one is behind them all
      rw [List.mem_singleton.mp hs] at hle
      rcases h.mark with hmark | ⟨t, ht, hmark⟩
      · exact absurd (hmark ▸ hle) (not_le_of_gt segment.name_pos)
      · exact absurd (hmark ▸ hle) (not_le_of_gt (later t ht))
  · exact h

theorem covered_drained (h : Covered site) (weather : Weather arrow) :
    Covered (site.step cfg (.drained weather)) := by
  rw [Site.step]
  rcases drain_cases cfg site.dir weather site.out with hout
    | ⟨segments, schema, g, batch, report, hassembled, hout⟩
  · rw [hout]
    exact h
  · rw [hout]
    have hwrote := writeWindow_wrote weather site.dir.name segments schema g batch report site.out
    generalize (writeWindow weather site.dir.name segments schema g batch report site.out).2 = out'
      at hwrote
    rcases hwrote.watermark with hmark | ⟨hmark, hfile, hmanifest⟩
    · refine ⟨hmark ▸ h.mark, ?_⟩
      dsimp only
      rw [hmark]
      intro s hs hle
      obtain ⟨old, hmem, hland, hbehind⟩ := h.landed s hs hle
      have hkept := hland.kept (List.ne_nil_of_mem hmem) hbehind hassembled hwrote
      exact ⟨old, hmem, hkept, hbehind⟩
    · obtain ⟨last, hname, hlast, hfront, hwhole⟩ := hassembled.last
      rw [hname] at hmark
      have hmoved := hassembled.past hlast
      refine ⟨Or.inr ⟨last, hmoved.1, hmark⟩, ?_⟩
      dsimp only
      rw [hmark]
      intro s hs hle
      by_cases hold : s.name ≤ site.out.watermark
      · obtain ⟨old, hmem, hland, hbehind⟩ := h.landed s hs hold
        have hkept := hland.kept (List.ne_nil_of_mem hmem) hbehind hassembled hwrote
        exact ⟨old, hmem, hkept, fun t ht => le_trans (hbehind t ht) (le_of_lt hmoved.2)⟩
      · refine ⟨segments, hwhole s hs (lt_of_not_ge hold) hle, ⟨?_, ?_, ?_⟩, hfront⟩
        · rw [hassembled.taken]
          exact window_part site.dir.sorted
        · exact ⟨batch, hfile, hassembled.rowsOf⟩
        · exact ⟨_, hmanifest, rfl⟩

theorem once_drained (h : Once site) {weather : Weather arrow} (calm : Calm weather) :
    Once (site.step cfg (.drained weather)) := by
  rw [Site.step]
  rcases drain_cases cfg site.dir weather site.out with hout
    | ⟨segments, schema, g, batch, report, hassembled, hout⟩
  · rw [hout]
    exact h
  · rw [hout, writeWindow_calm calm]
    obtain ⟨last, hname, hlast, hfront, -⟩ := hassembled.last
    have hnew : ∀ n ∈ segments.map SegmentFile.name, site.out.watermark < n ∧ n ≤ last.name := by
      intro n hn
      obtain ⟨s, hs, rfl⟩ := List.mem_map.mp hn
      exact ⟨(hassembled.past hs).2, hfront s hs⟩
    have hmoved : site.out.watermark ≤ last.name := le_of_lt (hassembled.past hlast).2
    -- a manifest that is there is the new one or was there before
    have hmanifest : ∀ name manifest, (if name = windowName site.dir.name segments then
          some (manifestOf site.dir.name schema segments g batch)
        else site.out.manifests name) = some manifest →
        (name = windowName site.dir.name segments ∧
          manifest.segments = segments.map SegmentFile.name) ∨
        site.out.manifests name = some manifest := by
      intro name manifest hm
      split at hm
      · rename_i hname
        injection hm with hm
        exact Or.inl ⟨hname, hm ▸ rfl⟩
      · exact Or.inr hm
    refine ⟨?_, ?_⟩
    · intro name manifest hm s hs
      dsimp only
      rw [hname]
      rcases hmanifest name manifest hm with ⟨-, hsegments⟩ | hold
      · exact (hnew s (hsegments ▸ hs)).2
      · exact le_trans (h.behind name manifest hold s hs) hmoved
    · intro name manifest name' manifest' hm hm' s hs hs'
      rcases hmanifest name manifest hm with ⟨hname, hsegments⟩ | hold
      · rcases hmanifest name' manifest' hm' with ⟨hname', -⟩ | hold'
        · rw [hname, hname']
        · have hbehind := h.behind name' manifest' hold' s hs'
          exact absurd (hnew s (hsegments ▸ hs)).1 (not_lt_of_ge hbehind)
      · rcases hmanifest name' manifest' hm' with ⟨-, hsegments'⟩ | hold'
        · have hbehind := h.behind name manifest hold s hs
          exact absurd (hnew s (hsegments' ▸ hs')).1 (not_lt_of_ge hbehind)
        · exact h.once name manifest name' manifest' hold hold' s hs hs'

theorem covered_run (h : Covered site) (events : List (Event arrow)) : Covered (site.run cfg events) := by
  induction events generalizing site with
  | nil => exact h
  | cons event events ih =>
    cases event with
    | sealed segment => exact ih (covered_sealed h segment)
    | drained weather => exact ih (covered_drained h weather)

theorem once_run (h : Once site) {events : List (Event arrow)} (calm : ∀ event ∈ events, event.Calm) :
    Once (site.run cfg events) := by
  induction events generalizing site with
  | nil => exact h
  | cons event events ih =>
    obtain ⟨hevent, hevents⟩ := List.forall_mem_cons.mp calm
    cases event with
    | sealed segment =>
      have hsealed : Once (site.step cfg (.sealed segment)) := ⟨h.behind, h.once⟩
      exact ih hsealed hevents
    | drained weather => exact ih (once_drained h hevent) hevents

theorem covered_new (arrow : Arrow) (dir : TableDir) : Covered (Site.new arrow dir) :=
  ⟨Or.inl rfl, fun s _ hle => absurd hle (not_le_of_gt s.name_pos)⟩

theorem once_new (arrow : Arrow) (dir : TableDir) : Once (Site.new arrow dir) := by
  refine ⟨fun name manifest h => ?_, fun name manifest name' manifest' h => ?_⟩
  · cases h
  · cases h

end

/-- **What the watermark of a lone table has passed is in a window file**, in any order of drains
and sealings, whichever writes fail; and where none fails, no segment is in two windows. -/
theorem drain_covers (arrow : Arrow) (cfg : DrainConfig) (dir : TableDir) (events : List (Event arrow)) :
    (∀ s ∈ ((Site.new arrow dir).run cfg events).dir.segments,
      s.name ≤ ((Site.new arrow dir).run cfg events).out.watermark →
        ∃ segments, s ∈ segments ∧ Landed ((Site.new arrow dir).run cfg events).dir
          ((Site.new arrow dir).run cfg events).out segments) ∧
    ((∀ event ∈ events, event.Calm) → Once ((Site.new arrow dir).run cfg events)) := by
  refine ⟨fun s hs hle => ?_, fun calm => once_run (once_new arrow dir) calm⟩
  obtain ⟨segments, hmem, hland, -⟩ := (covered_run (covered_new arrow dir) events).landed s hs hle
  exact ⟨segments, hmem, hland⟩

/-- A segment of one op on a line. -/
def lineSegment (stem : String) (op line : UInt8) (payload : Bytes) : SegmentFile :=
  ⟨stem, Changelog.record (Wire.OpFrame.one op [0, 9, 0, 0, 0, 0, line] payload)⟩

def firstLine : SegmentFile := lineSegment "00000001" Wire.opPut 9 [1, 0, 4, 0, 0, 0, 7]

def secondLine : SegmentFile := lineSegment "00000002" Wire.opPut 10 [1, 0, 4, 0, 0, 0, 8]

/-- The directory of the lines, with these segments. -/
def lineDir (segments : List SegmentFile)
    (sorted : segments.Pairwise fun a b => a.name < b.name) : TableDir where
  name := "0009"
  sidecars := [lineTable.schema.toCollectionSchema]
  segments := segments
  sorted := sorted

/-- Two lines are sealed, and each is drained twice; the first write of a manifest may fail, and
the first write of the second watermark. -/
def lineEvents (manifest watermark : Bool) : List (Event plainArrow) :=
  [.sealed firstLine, .drained ⟨none, manifest, false⟩, .drained ⟨none, false, false⟩,
    .sealed secondLine, .drained ⟨none, false, watermark⟩, .drained ⟨none, false, false⟩]

def lineSite (manifest watermark : Bool) : Site plainArrow :=
  (Site.new plainArrow (lineDir [] List.Pairwise.nil)).run ⟨1⟩ (lineEvents manifest watermark)

/-- Each line is a window of its own. With both writes failing on the way, both windows land; with
none, neither line is in two windows. -/
theorem drain_covers_lines :
    ((lineSite true true).out.watermark = "00000002.segment" ∧
      ∀ s ∈ [firstLine, secondLine], ∃ segments, s ∈ segments ∧
        Landed (lineSite true true).dir (lineSite true true).out segments) ∧
    Once (lineSite false false) := by
  have hcalm : ∀ event ∈ lineEvents false false, event.Calm := by
    intro event hevent
    simp only [lineEvents, List.mem_cons, List.not_mem_nil, or_false] at hevent
    rcases hevent with rfl | rfl | rfl | rfl | rfl | rfl
    all_goals first | trivial | exact ⟨rfl, rfl, rfl⟩
  obtain ⟨hpassed, -⟩ := drain_covers plainArrow ⟨1⟩ (lineDir [] List.Pairwise.nil)
    (lineEvents true true)
  have hsegments : (lineSite true true).dir.segments = [firstLine, secondLine] := by
    decide +kernel
  have hmark : (lineSite true true).out.watermark = "00000002.segment" := by decide +kernel
  refine ⟨⟨hmark, fun s hs => ?_⟩, (drain_covers plainArrow ⟨1⟩ (lineDir [] List.Pairwise.nil)
    (lineEvents false false)).2 hcalm⟩
  refine hpassed s (hsegments.symm ▸ hs) (hmark.symm ▸ ?_)
  rcases List.mem_cons.mp hs with rfl | hs
  · decide
  · obtain rfl := List.mem_singleton.mp hs
    decide

/-- A drain whose window has a row passes it. -/
theorem drain_passes {arrow : Arrow} {cfg : DrainConfig} {site : Site arrow} {header : Bytes} {schema : CollectionSchema}
    {g : Gathered} {batch : arrow.Batch} (hheader : headerOf site.dir.name = .ok header)
    (hschema : loadSidecar site.dir = .ok schema)
    (hgather : gather header schema (window cfg site.out.watermark site.dir.segments) = answer g)
    (hrows : g.rows ≠ [])
    (hbatch : recordBatch arrow schema g.keys g.rows (some g.labels) = answer batch)
    {weather : Weather arrow} (calm : Calm weather) :
    ∀ s ∈ window cfg site.out.watermark site.dir.segments,
      s.name ≤ (site.step cfg (.drained weather)).out.watermark := by
  intro s hs
  have hsome : window cfg site.out.watermark site.dir.segments ≠ [] := List.ne_nil_of_mem hs
  have hprepare : prepare arrow cfg site.dir site.out.watermark
      = answer (.batch (window cfg site.out.watermark site.dir.segments) schema g batch) := by
    unfold prepare
    rw [hheader, Guarded.lift_ok, Guarded.answer_bind, hschema, Guarded.lift_ok,
      Guarded.answer_bind]
    dsimp only
    rw [if_neg (by simpa using hsome), hgather, Guarded.answer_bind, if_neg (by simpa using hrows),
      hbatch]
    rfl
  obtain ⟨last, hlast⟩ :
      ∃ last, (window cfg site.out.watermark site.dir.segments).getLast? = some last :=
    ⟨_, List.getLast?_eq_some_getLast hsome⟩
  rw [Site.step, drain_single, drainTable]
  dsimp only
  rw [hprepare]
  dsimp only
  rw [writeWindow_calm calm]
  dsimp only
  rw [lastStem_name hlast]
  exact le_last site.dir.sorted hlast hs

/-! ## What the watermark does not pass -/

/-- Tables drained into one directory share the watermark: a table whose segments another's has
passed writes nothing. -/
theorem shared_watermark_skips {arrow : Arrow} {cfg : DrainConfig} {weather : TableDir → Weather arrow}
    {dir dir' : TableDir} {report report' : Report} {out out' : OutDir arrow}
    (h : drainTable cfg (weather dir) dir report out = (answer report', out'))
    (hpassed : ∀ s ∈ dir'.segments, s.name ≤ out'.watermark) :
    (drain cfg weather [dir, dir'] report out).2 = out' := by
  have hnone : window cfg out'.watermark dir'.segments = [] := by
    refine List.eq_nil_iff_forall_not_mem.mpr fun s hs => ?_
    obtain ⟨hmem, hlt⟩ := mem_window hs
    exact absurd hlt (not_lt_of_ge (hpassed s hmem))
  have hskip : (drainTable cfg (weather dir') dir' report' out').2 = out' := by
    unfold drainTable
    dsimp only
    cases hprepare : prepare arrow cfg dir' out'.watermark with
    | refuse e => rfl
    | abort a => rfl
    | answer prepared =>
      cases prepared with
      | nothing => rfl
      | rowless segments segmentOnly => rfl
      | batch segments schema g batch =>
        have hassembled := prepare_batch hprepare
        exact absurd (hassembled.taken.trans hnone) hassembled.nonempty
  rw [drain, h]
  dsimp only
  unfold drain
  rcases hrest : drainTable cfg (weather dir') dir' report' out' with
    ⟨answer | refuse | abort, out''⟩ <;> rw [hrest] at hskip <;> exact hskip

theorem window_append {cfg : DrainConfig} {mark : String} {segments : List SegmentFile}
    (hfull : max cfg.maxSegments 1 ≤ (segments.filter fun s => decide (mark < s.name)).length)
    (more : List SegmentFile) : window cfg mark (segments ++ more) = window cfg mark segments := by
  unfold window
  rw [List.filter_append, List.take_append_of_le_length hfull]

/-- A later state of a log: the same table, with more segments. -/
structure Grown (dir dir' : TableDir) : Prop where
  name : dir'.name = dir.name
  sidecars : dir'.sidecars = dir.sidecars
  segments : ∃ more, dir'.segments = dir.segments ++ more

theorem Grown.seal {dir dir' : TableDir} (h : Grown dir dir') (segment : SegmentFile) :
    Grown dir (dir'.seal segment) := by
  unfold TableDir.seal
  split
  · obtain ⟨more, hmore⟩ := h.segments
    exact ⟨h.name, h.sidecars, more ++ [segment], by rw [← List.append_assoc, ← hmore]⟩
  · exact h

/-- **A full window without a put of a row is not passed**, whatever is sealed behind it and
whether or not its segments can be read. -/
theorem rowless_window_stalls {arrow : Arrow} {cfg : DrainConfig} {site : Site arrow}
    (hfull : max cfg.maxSegments 1
      ≤ (site.dir.segments.filter fun s => decide (site.out.watermark < s.name)).length)
    (hputs : ∀ header schema, headerOf site.dir.name = .ok header →
      loadSidecar site.dir = .ok schema →
      (window cfg site.out.watermark site.dir.segments).flatMap (putsOf header schema) = [])
    (events : List (Event arrow)) : (site.run cfg events).out = site.out := by
  suffices hrun : ∀ site' : Site arrow, Grown site.dir site'.dir → site'.out = site.out →
      (site'.run cfg events).out = site.out from
    hrun site ⟨rfl, rfl, [], (List.append_nil _).symm⟩ rfl
  induction events with
  | nil => exact fun _ _ hout => hout
  | cons event events ih =>
    intro site' hgrown hout
    cases event with
    | sealed segment => exact ih (site'.step cfg (.sealed segment)) (hgrown.seal segment) hout
    | drained weather =>
      refine ih (site'.step cfg (.drained weather)) hgrown ?_
      obtain ⟨more, hmore⟩ := hgrown.segments
      rw [Site.step]
      rcases drain_cases cfg site'.dir weather site'.out with hsame
        | ⟨segments, schema, g, batch, report, hassembled, -⟩
      · rw [hsame, hout]
      · -- the window is still the one without a put
        obtain ⟨header, hheader, hgather⟩ := hassembled.rows
        rw [hassembled.taken, hout, hmore, window_append hfull] at hgather
        rw [hgrown.name] at hheader
        have hschema : loadSidecar site.dir = loadSidecar site'.dir := by
          rw [loadSidecar, loadSidecar, hgrown.sidecars, hgrown.name]
        have hrows := (gather_rows hgather).2
        rw [hputs header schema hheader (hschema.trans hassembled.declared)] at hrows
        exact absurd (List.forall₂_nil_left_iff.mp hrows) hassembled.filled

/-- A window of an empty segment and of a line that is deleted: it cannot be gathered, and the line
behind it is not drained. -/
theorem rowless_window_stalls_deleted :
    ((Site.new plainArrow (lineDir [⟨"00000000", []⟩, lineSegment "00000001" Wire.opDelete 9 []]
      (by decide))).run ⟨2⟩ [.sealed secondLine, .drained ⟨none, false, false⟩]).out.watermark
        = "" := by
  have hheader : headerOf "0009" = .ok [0, 9] := rfl
  refine congrArg OutDir.watermark (@rowless_window_stalls plainArrow ⟨2⟩ (Site.new plainArrow
    (lineDir [⟨"00000000", []⟩, lineSegment "00000001" Wire.opDelete 9 []] (by decide)))
    (by decide) (fun header schema hname hschema => ?_)
    [.sealed secondLine, .drained ⟨none, false, false⟩])
  obtain rfl : [0, 9] = header := Except.ok.inj (hheader.symm.trans hname)
  obtain rfl : lineTable.schema.toCollectionSchema = schema := Except.ok.inj hschema
  decide +kernel

end Okm.Drain
