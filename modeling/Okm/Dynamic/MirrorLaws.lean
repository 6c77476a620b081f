import Okm.Dynamic.Mirror
import Okm.Model.VocabRun

/-!
# What a mirror reflects

A mirror denotes the list of labels the store's faces denote, and after them those its plans
did not get to publish. A plan that answers publishes them all; its frames are those over the
labels it leaves. So a mirror read from the store, one that planned and one that adopted the
receipt are the same mirror.
-/

namespace Okm.Dynamic

open Lib Model VirtualStorage

variable {ns : Bytes}

/-- The mirror denotes `labels`, and `more` behind them which no operation has carried. -/
structure Reflects (d : VocabMirror) (labels more : List String) : Prop where
  nodup : (labels ++ more).Nodup
  fits : (labels ++ more).length < 2 ^ 16
  names : ∀ name, d.byName.get name = (labels ++ more).idxOf? name
  ids : ∀ id, d.byId.get id = (labels ++ more)[id]?
  next : d.nextId = (labels ++ more).length
  written : d.written = more.zipIdx labels.length

namespace Reflects

variable {d d' : VocabMirror} {labels more : List String}

theorem unique (h : Reflects d labels more) (h' : Reflects d' labels more) : d = d' := by
  obtain ⟨byName, byId, nextId, written⟩ := d
  obtain ⟨byName', byId', nextId', written'⟩ := d'
  have hnames : byName = byName' := SortedMap.ext_get fun name => (h.names name).trans
    (h'.names name).symm
  have hids : byId = byId' := SortedMap.ext_get fun id => (h.ids id).trans (h'.ids id).symm
  have hnext : nextId = nextId' := h.next.trans h'.next.symm
  have hwritten : written = written' := h.written.trans h'.written.symm
  rw [hnames, hids, hnext, hwritten]

theorem empty : Reflects {} [] [] where
  nodup := List.nodup_nil
  fits := by decide
  names _ := rfl
  ids _ := rfl
  next := rfl
  written := rfl

/-- Once published, the names are labels like the others. -/
theorem published (h : Reflects d labels more) :
    Reflects { d with written := [] } (labels ++ more) [] where
  nodup := by rw [List.append_nil]; exact h.nodup
  fits := by rw [List.append_nil]; exact h.fits
  names name := by rw [List.append_nil]; exact h.names name
  ids id := by rw [List.append_nil]; exact h.ids id
  next := by rw [List.append_nil]; exact h.next
  written := rfl

/-- Reading an id through the mirror. -/
theorem nameFor_eq (h : Reflects d labels []) :
    d.nameFor = (NameIds.ofLabels labels (by simpa using h.nodup) (by simpa using h.fits)).nameOf := by
  funext id
  have hid := h.ids id.toNat
  rwa [List.append_nil] at hid

theorem idxOf_concat {name : String} (hnew : name ∉ labels) (other : String) :
    (labels ++ [name]).idxOf? other
      = if other = name then some labels.length else labels.idxOf? other := by
  by_cases h : other = name
  · subst h
    rw [if_pos rfl, List.idxOf?_eq_some_iff]
    refine ⟨by simp, by simp, fun j hj heq => hnew ?_⟩
    rw [List.getElem_append_left hj] at heq
    exact heq ▸ List.getElem_mem hj
  · rw [if_neg h]
    cases hidx : labels.idxOf? other with
    | none =>
      refine List.idxOf?_eq_none_iff.mpr fun hmem => ?_
      rcases List.mem_append.mp hmem with hmem | hmem
      · exact List.idxOf?_eq_none_iff.mp hidx hmem
      · exact h (List.mem_singleton.mp hmem)
    | some i =>
      obtain ⟨hlt, hat, hfirst⟩ := List.idxOf?_eq_some_iff.mp hidx
      refine List.idxOf?_eq_some_iff.mpr ⟨by simp; omega, ?_, fun j hj => ?_⟩
      · rw [List.getElem_append_left hlt, hat]
      · rw [List.getElem_append_left (by omega)]
        exact hfirst j hj

/-- A name claimed stands behind all others. -/
theorem claim (h : Reflects d labels more) {name : String}
    (hnew : d.byName.get name = none) (hroom : d.nextId + 1 < 2 ^ 16) :
    Reflects (d.claimed name d.nextId (d.nextId + 1)) labels (more ++ [name]) := by
  have hfresh : name ∉ labels ++ more := by
    rw [h.names, List.idxOf?_eq_none_iff] at hnew
    exact hnew
  have hnext := h.next
  constructor
  · rw [← List.append_assoc, List.nodup_append]
    refine ⟨h.nodup, List.nodup_singleton name, fun a ha b hb hab => hfresh ?_⟩
    rw [← List.mem_singleton.mp hb, ← hab]
    exact ha
  · rw [← List.append_assoc, List.length_append, List.length_singleton]
    omega
  · intro other
    rw [VocabMirror.claimed, SortedMap.get_insert, ← List.append_assoc, idxOf_concat hfresh, h.names, hnext]
  · intro id
    rw [VocabMirror.claimed, SortedMap.get_insert, ← List.append_assoc, h.ids, hnext]
    by_cases hid : id = (labels ++ more).length
    · rw [if_pos hid, hid, List.getElem?_concat_length]
    · rw [if_neg hid]
      rcases Nat.lt_or_ge id (labels ++ more).length with hlt | hge
      · rw [List.getElem?_append_left hlt]
      · rw [List.getElem?_eq_none hge, List.getElem?_eq_none (by
          rw [List.length_append, List.length_singleton]
          omega)]
  · rw [VocabMirror.claimed, ← List.append_assoc, List.length_append, List.length_singleton]
    dsimp only
    omega
  · rw [VocabMirror.claimed, List.zipIdx_append, h.written, hnext, List.length_append]
    rfl

/-- **A mirror that adopts a receipt reflects what the plan left.** -/
theorem adopt (h : Reflects d labels [])
    (hnodup : (labels ++ more).Nodup) (hfits : (labels ++ more).length < 2 ^ 16) :
    Reflects (d.adopt (more.zipIdx labels.length)) (labels ++ more) [] := by
  induction more generalizing d labels with
  | nil =>
    rw [List.append_nil]
    exact h
  | cons name more ih =>
    have hcons : labels ++ name :: more = (labels ++ [name]) ++ more := by simp
    rw [hcons] at hnodup hfits ⊢
    have hnext := h.next
    rw [List.append_nil] at hnext
    have hfresh : name ∉ labels := by
      intro hmem
      have hdisjoint := (List.nodup_append.mp (List.nodup_append.mp hnodup).1).2.2
      exact hdisjoint name hmem name (by simp) rfl
    have hnone : d.byName.get name = none := by
      rw [h.names, List.append_nil]
      exact List.idxOf?_eq_none_iff.mpr hfresh
    have hroom : d.nextId + 1 < 2 ^ 16 := by
      simp only [List.length_append, List.length_singleton] at hfits
      omega
    have hclaimed := (h.claim hnone hroom).published
    have hstep := ih (by simpa using hclaimed) hnodup hfits
    have hraised : raised labels.length labels.length = labels.length + 1 := by
      unfold raised
      rw [if_pos (le_refl _), Nat.min_eq_left (by omega)]
    have heq : d.adopt ((name :: more).zipIdx labels.length)
        = VocabMirror.adopt { d.claimed name d.nextId (d.nextId + 1) with written := [] }
            (more.zipIdx (labels ++ [name]).length) := by
      have hw := h.written
      rw [List.zipIdx_nil] at hw
      rw [List.zipIdx_cons, List.length_append, List.length_singleton]
      unfold VocabMirror.adopt
      rw [List.foldl_cons]
      dsimp only
      rw [hnext, hraised, hw]
      rfl
    rw [heq]
    exact hstep

end Reflects

/-! ## A plan's operations -/

/-- Both directions of each name, and the cursor behind them if there is a name. -/
def growthOps (ns : Bytes) (labels more : List String) : List (Op Bytes Bytes) :=
  (more.zipIdx labels.length).flatMap (nameOps ns) ++
    if more = [] then [] else [(VocabCache.cursorKey fieldVocab ns,
      some (VocabId.u16.toBe (labels ++ more).length))]

theorem growthOps_concat (labels more : List String) (name : String) :
    growthOps ns labels (more ++ [name])
      = (more.zipIdx labels.length).flatMap (nameOps ns)
        ++ [(VocabCache.idKey fieldVocab .u16 ns (labels ++ more).length, some (strBytes name))]
        ++ [(VocabCache.nameKey fieldVocab ns name,
          some (VocabId.u16.toBe (labels ++ more).length))]
        ++ [(VocabCache.cursorKey fieldVocab ns,
          some (VocabId.u16.toBe ((labels ++ more).length + 1)))] := by
  unfold growthOps
  rw [List.zipIdx_append, List.flatMap_append, if_neg (by simp)]
  simp [nameOps, Nat.add_assoc]

/-- One more name is one more allocation: its cursor covers the one before. -/
theorem pending_growthOps_concat (labels more : List String) (name : String) (k : Bytes) :
    pending (growthOps ns labels (more ++ [name])) k
      = (pending (VocabCache.allocation .u16 fieldVocab ns name (labels ++ more).length
          ((labels ++ more).length + 1)).ops k).or (pending (growthOps ns labels more) k) := by
  have hidname : VocabCache.idKey fieldVocab .u16 ns (labels ++ more).length
      ≠ VocabCache.nameKey fieldVocab ns name := faceKey_ne_of_slot fieldVocab.distinct _ _
  rw [growthOps_concat, pending_allocation, pending_concat, pending_concat, pending_concat]
  simp only [eq_comm (b := k)]
  by_cases hcursor : k = VocabCache.cursorKey fieldVocab ns
  · rw [if_pos hcursor, if_pos hcursor, Option.some_or]
  rw [if_neg hcursor, if_neg hcursor]
  by_cases hid : k = VocabCache.idKey fieldVocab .u16 ns (labels ++ more).length
  · rw [if_pos hid, if_pos hid, if_neg (hid ▸ hidname), Option.some_or]
  rw [if_neg hid, if_neg hid]
  by_cases hname : k = VocabCache.nameKey fieldVocab ns name
  · rw [if_pos hname, if_pos hname, Option.some_or]
  rw [if_neg hname, if_neg hname, Option.none_or]
  unfold growthOps
  split
  · rw [List.append_nil]
  · rw [pending_concat, if_neg (Ne.symm hcursor)]

/-- **The operations append the names to the list the faces denote.** -/
theorem encodes_growth {read : Bytes → Option Bytes} {labels more : List String}
    (h : Encodes .u16 fieldVocab ns read labels) (hnodup : (labels ++ more).Nodup)
    (hfits : (labels ++ more).length < 2 ^ 16) :
    Encodes .u16 fieldVocab ns (fun k => (pending (growthOps ns labels more) k).getD (read k))
      (labels ++ more) := by
  induction more using List.reverseRecOn with
  | nil =>
    rw [List.append_nil]
    exact h
  | append_singleton more name ih =>
    rw [← List.append_assoc] at hnodup hfits ⊢
    have hlen : (labels ++ more).length + 1 < 2 ^ 16 := by
      rwa [List.length_append, List.length_singleton] at hfits
    have ih := ih (List.nodup_append.mp hnodup).1 (by omega)
    have hnew : name ∉ labels ++ more := by
      intro hmem
      exact (List.nodup_append.mp hnodup).2.2 name hmem name (by simp) rfl
    refine ih.append hnew hlen fun k => ?_
    rw [pending_growthOps_concat]
    cases pending (VocabCache.allocation .u16 fieldVocab ns name (labels ++ more).length
      ((labels ++ more).length + 1)).ops k <;> rfl

/-! ## The frames of a plan -/

/-- The bytes are the frames of the fields, over these labels and over all that come. -/
def Framed (labels : List String) (fields : ValueMap) (body : Bytes) : Prop :=
  ∀ u, GrowsTo labels u → putFramesNamed (resolveIn u) (dynFields fields) = .ok body

theorem Framed.grows {labels labels' : List String} {fields : ValueMap} {body : Bytes}
    (h : Framed labels fields body) (hgrows : GrowsTo labels labels') :
    Framed labels' fields body := fun u hu => h u (GrowsTo.trans _ _ _ hgrows hu)

/-- The state of a plan over the labels and the unpublished names it started from. -/
def Grown (ns : Bytes) (labels before : List String) (g : Growth) (labels' : List String) : Prop :=
  ∃ more, labels' = labels ++ (before ++ more) ∧ Reflects g.mirror labels (before ++ more) ∧
    g.ops = (more.zipIdx (labels ++ before).length).flatMap (nameOps ns)

theorem resolveIn_of_idxOf {labels : List String} {name : String} {i : Nat}
    (h : labels.idxOf? name = some i) : resolveIn labels name = .ok (UInt16.ofNat i) := by
  unfold resolveIn numberOf
  rw [h]
  rfl

/-- **The resolver of a plan finds a name, or claims the next id for it.** -/
theorem settles_resolveGrowing (labels before : List String) (name : String) :
    Settles (Grown ns labels before) GrowsTo (resolveGrowing ns name)
      fun labels' => resolveIn labels' name := by
  intro g _ id g' hgrown hrun
  obtain ⟨more, rfl, href, hops⟩ := hgrown
  have hfound : ∀ (labels' : List String) (i : Nat), labels'.Nodup →
      labels'.idxOf? name = some i → ∀ u, GrowsTo labels' u →
        resolveIn u name = .ok (UInt16.ofNat i) := fun labels' i hnodup hidx u hu =>
    resolveIn_of_prefix hu.1 (hu.2 hnodup) (resolveIn_of_idxOf hidx)
  unfold resolveGrowing at hrun
  cases hname : g.mirror.byName.get name with
  | some i =>
    rw [hname] at hrun
    obtain ⟨hanswer, rfl⟩ := Prod.mk.inj hrun
    obtain rfl := Except.ok.inj hanswer
    exact ⟨_, ⟨more, rfl, href, hops⟩, GrowsTo.refl _,
      hfound _ i href.nodup ((href.names name).symm.trans hname)⟩
  | none =>
    rw [hname] at hrun
    dsimp only at hrun
    unfold claimId at hrun
    by_cases hroom : g.mirror.nextId + 1 < 2 ^ 16
    · rw [if_pos hroom] at hrun
      obtain ⟨hanswer, rfl⟩ := Prod.mk.inj hrun
      obtain rfl := Except.ok.inj hanswer
      have hclaimed := href.claim hname hroom
      rw [List.append_assoc] at hclaimed
      refine ⟨labels ++ (before ++ (more ++ [name])), ⟨more ++ [name], rfl, hclaimed, ?_⟩,
        ⟨⟨[name], by simp⟩, ?_⟩, ?_⟩
      · have hnext : g.mirror.nextId = (labels ++ before).length + more.length := by
          rw [href.next]
          simp [Nat.add_assoc]
        rw [List.zipIdx_append, List.flatMap_append, hops, hnext]
        rfl
      · exact fun _ => hclaimed.nodup
      · refine hfound _ _ hclaimed.nodup ?_
        have hidx := hclaimed.names name
        rw [VocabMirror.claimed, SortedMap.get_insert_self] at hidx
        exact hidx.symm
    · rw [if_neg hroom] at hrun
      cases (Prod.mk.inj hrun).1

/-- What a plan of a segment's fields over a mirror amounts to: the names it claims itself are
carried by operations, those claimed before it are not. -/
theorem planPutFields_eq_ok {pkey : Bytes} {fields : ValueMap} {d d' : VocabMirror}
    {labels before : List String} {plan : PlannedFields} (href : Reflects d labels before)
    (h : planPutFields ns pkey fields d = (.ok plan, d')) :
    ∃ more body, Reflects d' (labels ++ (before ++ more)) [] ∧
      Framed (labels ++ (before ++ more)) fields body ∧
      plan.newVocabEntries = (before ++ more).zipIdx labels.length ∧
      plan.ops = (more.zipIdx (labels ++ before).length).flatMap (nameOps ns) ++
        (if before ++ more = [] then [] else [(VocabCache.cursorKey fieldVocab ns,
          some (VocabId.u16.toBe (labels ++ (before ++ more)).length))]) ++
        [(fieldsKey ns pkey, if body = [] then none else some body)] := by
  unfold planPutFields at h
  cases hframes : putFramesNamed (resolveGrowing ns) (dynFields fields) ⟨d, []⟩ with
  | mk answer g =>
    rw [hframes] at h
    cases answer with
    | error e => cases (Prod.mk.inj h).1
    | ok body =>
      obtain ⟨hplan, rfl⟩ := Prod.mk.inj h
      obtain rfl := Except.ok.inj hplan
      have hstart : Grown ns labels before ⟨d, []⟩ (labels ++ before) :=
        ⟨[], by rw [List.append_nil], by rw [List.append_nil]; exact href, rfl⟩
      obtain ⟨_, ⟨more, rfl, href', hops⟩, hgrows, hbody⟩ :=
        settles_frames (settles_resolveGrowing labels before) (dynFields fields) _ _ _ _ hstart
          hframes
      refine ⟨more, body, href'.published, hbody, href'.written, ?_⟩
      dsimp only
      rw [hops, href'.written, href'.next]
      congr 3
      rw [List.zipIdx_eq_nil_iff]

/-- A plan over a mirror with nothing unpublished. -/
theorem planPutFields_synced {pkey : Bytes} {fields : ValueMap} {d d' : VocabMirror}
    {labels : List String} {plan : PlannedFields} (href : Reflects d labels [])
    (h : planPutFields ns pkey fields d = (.ok plan, d')) :
    ∃ more body, Reflects d' (labels ++ more) [] ∧ Framed (labels ++ more) fields body ∧
      plan.newVocabEntries = more.zipIdx labels.length ∧
      plan.ops = growthOps ns labels more
        ++ [(fieldsKey ns pkey, if body = [] then none else some body)] := by
  obtain ⟨more, body, href', hframed, hreceipt, hops⟩ := planPutFields_eq_ok href h
  rw [List.nil_append] at href' hframed hreceipt hops
  rw [List.append_nil] at hops
  exact ⟨more, body, href', hframed, hreceipt, hops⟩

/-- A refused plan leaves what it claimed at the end of the mirror. -/
theorem planPutFields_eq_error {pkey : Bytes} {fields : ValueMap} {d d' : VocabMirror} {e : Error}
    (h : planPutFields ns pkey fields d = (.error e, d')) :
    ∃ g, putFramesNamed (resolveGrowing ns) (dynFields fields) ⟨d, []⟩ = (.error e, g) ∧
      d' = g.mirror := by
  unfold planPutFields at h
  cases hframes : putFramesNamed (resolveGrowing ns) (dynFields fields) ⟨d, []⟩ with
  | mk answer g =>
    rw [hframes] at h
    cases answer with
    | ok body => cases (Prod.mk.inj h).1
    | error e' =>
      obtain ⟨herr, rfl⟩ := Prod.mk.inj h
      obtain rfl := Except.error.inj herr
      exact ⟨g, rfl, rfl⟩

/-! ## The mirror of a store -/

theorem scanSuffixKv_face {s : Slot} (hs : s.val ≤ 0x0F) (ns : Bytes) (store : Keyspace) :
    VocabCache.scanSuffixKv store (faceKey ns s [])
      = .ok (store.under (faceKey ns s [])).entries := by
  have hface : faceKey ns s [] = ns ++ [UInt8.ofNat s.val] := by
    unfold faceKey Slot.bytes
    rw [if_pos hs, List.append_nil]
  have hbyte : UInt8.ofNat s.val ≠ 0xFF := by
    intro heq
    have := congrArg UInt8.toNat heq
    rw [UInt8.toNat_ofNat'] at this
    change s.val % 256 = 255 at this
    omega
  rw [hface]
  exact scanSuffixKv_under hbyte store

theorem mem_under_face {s : Slot} {ns : Bytes} {store : Keyspace} {e : Bytes × Bytes} :
    e ∈ (store.under (faceKey ns s [])).entries ↔ store.get (faceKey ns s e.1) = some e.2 := by
  have hkey : faceKey ns s [] ++ e.1 = faceKey ns s e.1 := by simp [faceKey]
  rw [Keyspace.mem_under, hkey, SortedMap.get_eq_some_iff]

/-- What an entry of the id face says. -/
def idPair (e : Bytes × Bytes) : Option (Nat × String) :=
  (VocabId.u16.fromBe e.1).bind fun id => (strOfBytes e.2).map fun name => (id, name)

/-- What an entry of the name face says. -/
def namePair (e : Bytes × Bytes) : Option (String × Nat) :=
  (strOfBytes e.1).bind fun name => (VocabId.u16.fromBe e.2).map fun id => (name, id)

theorem enterName_eq (d : VocabMirror) (e : Bytes × Bytes) : d.enterName e
    = { d with byId := (idPair e).elim d.byId fun p => d.byId.insert p.1 p.2 } := by
  unfold VocabMirror.enterName idPair
  cases VocabId.u16.fromBe e.1 <;> cases strOfBytes e.2 <;> rfl

theorem enterId_eq (d : VocabMirror) (e : Bytes × Bytes) : d.enterId e
    = { d with
        byName := (namePair e).elim d.byName fun p => d.byName.insert p.1 p.2
        nextId := (namePair e).elim d.nextId fun p => raised d.nextId p.2 } := by
  unfold VocabMirror.enterId namePair
  cases strOfBytes e.1 <;> cases VocabId.u16.fromBe e.2 <;> rfl

theorem foldl_enterName (es : List (Bytes × Bytes)) (d : VocabMirror) :
    es.foldl VocabMirror.enterName d = { d with byId := SortedMap.enterAll idPair d.byId es } := by
  induction es generalizing d with
  | nil => rfl
  | cons e es ih =>
    rw [List.foldl_cons, ih, enterName_eq]
    rfl

theorem foldl_enterId (es : List (Bytes × Bytes)) (d : VocabMirror) :
    es.foldl VocabMirror.enterId d = { d with
      byName := SortedMap.enterAll namePair d.byName es
      nextId := es.foldl (fun next e => (namePair e).elim next fun p => raised next p.2)
        d.nextId } := by
  induction es generalizing d with
  | nil => rfl
  | cons e es ih =>
    rw [List.foldl_cons, ih, enterId_eq]
    rfl

/-- Ids below a bound raise no watermark above it. -/
theorem foldl_raised_le {es : List (Bytes × Bytes)} {next n : Nat} (hnext : next ≤ n)
    (h : ∀ e ∈ es, ∀ p, namePair e = some p → p.2 < n) :
    es.foldl (fun next e => (namePair e).elim next fun p => raised next p.2) next ≤ n := by
  induction es generalizing next with
  | nil => exact hnext
  | cons e es ih =>
    obtain ⟨he, hes⟩ := List.forall_mem_cons.mp h
    refine ih ?_ hes
    dsimp only
    cases hpair : namePair e with
    | none => exact hnext
    | some p =>
      have hlt := he p hpair
      rw [Option.elim_some]
      unfold raised
      split
      · omega
      · exact hnext

section

variable {store : Keyspace} {labels : List String}

theorem namePair_of_mem (h : Encodes .u16 fieldVocab ns store.get labels) {e : Bytes × Bytes}
    (he : e ∈ (store.under (faceKey ns fieldVocabNameSlot [])).entries) {p : String × Nat}
    (hpair : namePair e = some p) : labels[p.2]? = some p.1 := by
  obtain ⟨id, label, hget, hsuffix, hraw⟩ := (h.names e.1 e.2).mp (mem_under_face.mp he)
  unfold namePair at hpair
  rw [hsuffix, hraw, strOfBytes_strBytes, Option.bind_some, VocabId.fromBe_toBe (h.index_lt hget)]
    at hpair
  obtain rfl := Option.some.inj hpair
  exact hget

/-- The id face as it is loaded. -/
def loadedNames (ns : Bytes) (store : Keyspace) : SortedMap Nat String :=
  SortedMap.enterAll idPair SortedMap.empty (store.under (faceKey ns fieldVocabIdSlot [])).entries

/-- The name face as it is loaded. -/
def loadedIds (ns : Bytes) (store : Keyspace) : SortedMap String Nat :=
  SortedMap.enterAll namePair SortedMap.empty
    (store.under (faceKey ns fieldVocabNameSlot [])).entries

theorem get_loadedNames (h : Encodes .u16 fieldVocab ns store.get labels) (id : Nat) :
    (loadedNames ns store).get id = labels[id]? := by
  refine SortedMap.get_enterAll (f := fun id => labels[id]?) (fun e he id name hpair => ?_)
    (fun id name hget => ?_) id
  · have hread := mem_under_face.mp he
    unfold idPair at hpair
    obtain ⟨id', hid, hpair⟩ := Option.bind_eq_some_iff.mp hpair
    obtain ⟨name', hname, hpair⟩ := Option.map_eq_some_iff.mp hpair
    obtain ⟨rfl, rfl⟩ := Prod.mk.inj hpair
    have hne : e.1 ≠ [] := by
      intro hnil
      rw [hnil] at hid
      cases hid
    have hread' := h.ids e.1 hne
    rw [hid, Option.bind_some] at hread'
    obtain ⟨label, hlabel, hbytes⟩ := Option.map_eq_some_iff.mp (hread'.symm.trans hread)
    rw [← hbytes, strOfBytes_strBytes] at hname
    rw [hlabel, hname]
  · have hlt := h.index_lt hget
    refine ⟨(VocabId.u16.toBe id, strBytes name), mem_under_face.mpr ?_, ?_⟩
    · have hread := h.id_eq hlt
      rw [hget] at hread
      exact hread
    · unfold idPair
      rw [VocabId.fromBe_toBe hlt, Option.bind_some, strOfBytes_strBytes]
      rfl

theorem get_loadedIds (h : Encodes .u16 fieldVocab ns store.get labels) (name : String) :
    (loadedIds ns store).get name = labels.idxOf? name := by
  refine SortedMap.get_enterAll (f := fun name => labels.idxOf? name)
    (fun e he name id hpair => ?_) (fun name id hidx => ?_) name
  · exact idxOf_of_getElem h.nodup (namePair_of_mem h he hpair)
  · have hget := getElem_of_idxOf hidx
    refine ⟨(strBytes name, VocabId.u16.toBe id), mem_under_face.mpr ?_, ?_⟩
    · exact h.name_of_getElem hget
    · unfold namePair
      rw [strOfBytes_strBytes, Option.bind_some, VocabId.fromBe_toBe (h.index_lt hget)]
      rfl

/-- **The mirror a store loads reflects the list its faces denote.** -/
theorem load_spec (h : Encodes .u16 fieldVocab ns store.get labels) :
    ∃ d, VocabMirror.load store ns = .ok d ∧ Reflects d labels [] := by
  have hslots : fieldVocabIdSlot.val ≤ 0x0F ∧ fieldVocabNameSlot.val ≤ 0x0F := by decide
  have hcursor : VirtualStorage.get store (VocabCache.cursorKey fieldVocab ns)
      = .ok (store.get (VocabCache.cursorKey fieldVocab ns)) := rfl
  have hreflects : ∀ next, next = labels.length →
      Reflects ⟨loadedIds ns store, loadedNames ns store, next, []⟩ labels [] := by
    intro next heq
    constructor
    · rw [List.append_nil]
      exact h.nodup
    · rw [List.append_nil]
      exact h.fits
    · rw [List.append_nil]
      exact get_loadedIds h
    · rw [List.append_nil]
      exact get_loadedNames h
    · rw [List.append_nil]
      exact heq
    · rfl
  have hnext := @foldl_raised_le (store.under (faceKey ns fieldVocabNameSlot [])).entries 0
    labels.length (Nat.zero_le _) fun e he p hpair =>
      (List.getElem?_eq_some_iff.mp (namePair_of_mem h he hpair)).1
  unfold VocabMirror.load
  rw [scanSuffixKv_face hslots.1, scanSuffixKv_face hslots.2, hcursor]
  simp only [bind, Except.bind]
  rw [foldl_enterName, foldl_enterId, h.cursor]
  by_cases hnil : labels = []
  · rw [if_pos hnil, Option.bind_none]
    subst hnil
    exact ⟨_, rfl, hreflects _ (Nat.le_zero.mp hnext)⟩
  · rw [if_neg hnil, Option.bind_some, VocabId.fromBe_toBe h.fits]
    exact ⟨_, rfl, hreflects _ (Nat.max_eq_right hnext)⟩

end

/-! ## Reading a segment back -/

/-- The fields of every object in the value stand in name order, each name once. -/
def Value.Wf (v : Value) : Prop := (valueToDynValue v).Wf

/-- What a segment keeps of a value: unsigned numbers at one width, signed ones reread. -/
def kept (v : Value) : Value := dynValueToValue (reread (valueToDynValue v))

/-- Every name written has an id. -/
theorem idOf_of_framed {labels : List String} {values : List (String × DynamicValue)} {b : Bytes}
    (h : putFramesNamed (resolveIn labels) values = .ok b) {nv : String × DynamicValue}
    (hnv : nv ∈ values) : ∃ id, numberOf labels nv.1 = some id := by
  induction values generalizing b with
  | nil => cases hnv
  | cons first rest ih =>
    rw [putFramesNamed] at h
    obtain ⟨frame, hframe, h⟩ := bind_eq_ok.mp h
    obtain ⟨frames, hframes, -⟩ := bind_eq_ok.mp h
    rcases List.mem_cons.mp hnv with rfl | hnv
    · rw [putFrameNamed] at hframe
      obtain ⟨id, hid, -⟩ := bind_eq_ok.mp hframe
      unfold resolveIn at hid
      cases hnum : numberOf labels nv.1 with
      | none =>
        rw [hnum] at hid
        cases hid
      | some i => exact ⟨i, rfl⟩
    · exact ih hframes hnv

/-- What a frame says, read through the mirror. -/
def framePair (d : VocabMirror) (f : DynamicField) : Option (String × Value) :=
  (d.nameFor f.id).map fun name => (name, dynValueToValue f.value)

theorem fieldsFromFrames_eq (raw : Bytes) (d : VocabMirror) : fieldsFromFrames raw d
    = SortedMap.enterAll (framePair d) SortedMap.empty (decodeNamed d.nameFor raw) := by
  unfold fieldsFromFrames SortedMap.enterAll
  congr 1
  funext out f
  unfold framePair
  cases d.nameFor f.id <;> rfl

/-- **A segment is read back through any mirror of its labels.** -/
theorem get_fieldsFromFrames {d : VocabMirror} {labels : List String} {fields : ValueMap}
    {body : Bytes} (href : Reflects d labels []) (hframed : Framed labels fields body)
    (hwf : ∀ e ∈ fields.entries, e.2.Wf) (hsize : body.length < 2 ^ 49) (name : String) :
    (fieldsFromFrames body d).get name = (fields.get name).map kept := by
  have hnodup : labels.Nodup := by simpa using href.nodup
  have hfits : labels.length < 2 ^ 16 := by simpa using href.fits
  have hdyn : ∀ nv ∈ dynFields fields, nv.2.Wf := by
    intro nv hnv
    obtain ⟨e, he, rfl⟩ := List.mem_map.mp hnv
    exact hwf e he
  have hframes := hframed labels (GrowsTo.refl labels)
  have hread := @decodeNamed_putFramesNamed (NameIds.ofLabels labels hnodup hfits) _ _ hdyn
    hframes hsize
  rw [fieldsFromFrames_eq, href.nameFor_eq, hread]
  refine SortedMap.get_enterAll (f := fun name => (fields.get name).map kept)
    (fun f hf n w hpair => ?_) (fun n w hget => ?_) name
  · -- a frame that is read was written for a field
    obtain ⟨nv, hnv, hf⟩ := List.mem_filterMap.mp hf
    obtain ⟨dv, hdv, rfl⟩ := List.mem_map.mp hnv
    obtain ⟨e, he, rfl⟩ := List.mem_map.mp hdv
    obtain ⟨id, hid, rfl⟩ := Option.map_eq_some_iff.mp hf
    unfold framePair at hpair
    rw [href.nameFor_eq, ((NameIds.ofLabels labels hnodup hfits).inverse _ _).mp hid] at hpair
    obtain ⟨rfl, rfl⟩ := Prod.mk.inj (Option.some.inj hpair)
    exact Option.map_eq_some_iff.mpr ⟨e.2, (fields.get_eq_some_iff _ _).mpr he, rfl⟩
  · -- a field has a frame, for every name got an id
    obtain ⟨v, hv, rfl⟩ := Option.map_eq_some_iff.mp hget
    have he := (fields.get_eq_some_iff n v).mp hv
    have hnv : (n, valueToDynValue v) ∈ dynFields fields := List.mem_map.mpr ⟨(n, v), he, rfl⟩
    obtain ⟨id, hid⟩ := idOf_of_framed hframes hnv
    refine ⟨⟨id, reread (valueToDynValue v)⟩, List.mem_filterMap.mpr ⟨(n, _),
      List.mem_map.mpr ⟨_, hnv, rfl⟩, ?_⟩, ?_⟩
    · exact Option.map_eq_some_iff.mpr ⟨id, hid, rfl⟩
    · unfold framePair
      rw [href.nameFor_eq, ((NameIds.ofLabels labels hnodup hfits).inverse _ _).mp hid]
      rfl

end Okm.Dynamic
