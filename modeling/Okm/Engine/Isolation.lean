import Okm.Engine.Tenant

/-!
# When a frame is isolated

A scan without an end runs past the tenant's last key into the keys of whoever sorts
behind it. It stays without consequence in three ways: nothing sorts behind the tenant,
whose prefix is of `0xFF` bytes; the frame's own writes before it fill the page it asks
for; or its answer never leaves the host, because a later op puts its own in its place
or makes the host drop the frame. The last is no rescue where a key shorter than the
prefix may lie in the range, since slicing it aborts.

`Contained` says so of the ops the host comes to, and `hosted_isolation` is that it is
the exact condition. One way is a simulation of two runs that tells apart what will still
be shown from what will not; the other way exhibits the engine with one foreign key.
-/

namespace Okm.Engine

open Lib Wire VirtualStorage

/-! ## The condition -/

/-- What the tenant has stored when it started from nothing. -/
def written (before : List FrameOp) : Keyspace := applyOps SortedMap.empty (sent before)

/-- The frame's own earlier writes fill the page. -/
def Filled (p : Bytes) (before : List FrameOp) (lo : Bytes) (want : Option Nat) : Prop :=
  ∃ w ∈ want, w ≤ (ownBehind p (written before) lo).length

/-- What an op of this tag has answered is not shown: a later op of the same tag answers
in its place, or the host leaves the function. -/
def Covered (p : Bytes) (tag : UInt8) (after : List FrameOp) : Prop :=
  ∃ op ∈ after, Stops p op ∨ op.1 = tag

/-- No key shorter than the prefix lies behind the start, and the answer is not shown. -/
def Hidden (p : Bytes) (tag : UInt8) (lo : Bytes) (after : List FrameOp) : Prop :=
  ¬ lo ≤ List.replicate (p.length - 1) 0xFF ∧ Covered p tag after

/-- Every scan without an end the host comes to is filled or hidden. -/
def Contained (p : Bytes) (before : List FrameOp) : List FrameOp → Prop
  | [] => True
  | op :: after => Stops p op ∨
      (∀ scan ∈ endless p op, Filled p before scan.1 scan.2 ∨ Hidden p op.1 scan.1 after)
        ∧ Contained p (before ++ [op]) after

instance Filled.decidable (p : Bytes) (before : List FrameOp) (lo : Bytes) (want : Option Nat) :
    Decidable (Filled p before lo want) :=
  inferInstanceAs (Decidable (∃ w ∈ want, w ≤ (ownBehind p (written before) lo).length))

instance Covered.decidable (p : Bytes) (tag : UInt8) (after : List FrameOp) :
    Decidable (Covered p tag after) :=
  inferInstanceAs (Decidable (∃ op ∈ after, Stops p op ∨ op.1 = tag))

instance Hidden.decidable (p : Bytes) (tag : UInt8) (lo : Bytes) (after : List FrameOp) :
    Decidable (Hidden p tag lo after) :=
  inferInstanceAs (Decidable (¬ _ ∧ _))

instance Contained.decidable (p : Bytes) (before : List FrameOp) :
    ∀ ops, Decidable (Contained p before ops)
  | [] => isTrue trivial
  | op :: after =>
    have := Contained.decidable p (before ++ [op]) after
    inferInstanceAs (Decidable (_ ∨ _ ∧ _))

/-! ## What lies behind a start -/

section Behind

variable {p lo : Bytes} {want : Option Nat}

theorem endless_start {op : FrameOp} (h : endless p op = some (lo, want)) :
    p ≤ lo ∧ p.length ≤ lo.length := by
  obtain ⟨tag, key, value⟩ := op
  have hhosted : p ≤ p ++ key ∧ p.length ≤ (p ++ key).length :=
    ⟨le_append p key, by rw [List.length_append]; exact Nat.le_add_right _ _⟩
  unfold endless at h
  dsimp only at h
  split at h
  · split at h
    · obtain ⟨rfl, -⟩ := Prod.mk.inj (Option.some.inj h)
      exact hhosted
    · cases h
  split at h
  · split at h
    · rename_i hshape
      obtain ⟨rfl, -⟩ := Prod.mk.inj (Option.some.inj h)
      obtain ⟨exclusive, page, -, -, hstart, -⟩ := streamShape_some hshape
      cases exclusive with
      | false =>
        obtain rfl := Option.some.inj hstart
        exact hhosted
      | true =>
        refine ⟨le_trans hhosted.1 (le_of_lt (lt_prefixEnd_self hstart)), ?_⟩
        have hlen := length_prefixEnd hstart
        rw [hlen]
        exact hhosted.2
    · cases h
  · cases h

/-- Every key of at most `n` bytes sorts at or before `n` bytes of `0xFF`. -/
theorem le_replicate_ff {n : Nat} {k : Bytes} (h : k.length ≤ n) : k ≤ List.replicate n 0xFF := by
  induction k generalizing n with
  | nil =>
    have hnil := le_append ([] : Bytes) (List.replicate n 0xFF)
    rwa [List.nil_append] at hnil
  | cons b k ih =>
    cases n with
    | zero => exact absurd h (by simp)
    | succ n =>
      have hrest := ih (n := n) (by simpa using h)
      rw [List.replicate_succ]
      refine not_lt.mp fun hlt => ?_
      rcases (cons_lt_cons_iff _ _ _ _).mp hlt with hb | ⟨-, hk⟩
      · have := UInt8.lt_iff_toNat_lt.mp hb
        have := b.toNat_lt
        change 255 < b.toNat at *
        omega
      · exact absurd hk (not_lt.mpr hrest)

/-- With nothing short behind the start, a scan finds nothing short. -/
theorem allLong_of_hidden (h : ¬ lo ≤ List.replicate (p.length - 1) 0xFF) (store : Keyspace) :
    AllLong p (found store lo want) := by
  intro e he
  by_contra hshort
  have hle := (SortedMap.mem_range _ _ _ _).mp (takeWant_subset he)
  exact h (le_trans hle.2.1 (le_replicate_ff (by omega)))

/-- A scan that does not get past the tenant's own entries answers these. -/
theorem found_own (hlo : p ≤ lo) {store : Keyspace}
    (h : (∀ b ∈ p, b = 0xFF) ∨ ∃ w ∈ want, w ≤ (ownBehind p (store.under p) lo).length) :
    AllLong p (found store lo want)
      ∧ (found store lo want).map (stripEntry p)
        = takeWant want (ownBehind p (store.under p) lo) := by
  obtain ⟨own, others, hrange, hpaged, hown, hothers⟩ := range_split hlo store
  -- either way the scan stops within its own entries
  have hfound : found store lo want = takeWant want own := by
    rcases h with hff | ⟨w, rfl, hw⟩
    · have hnone : others = [] := by
        rw [hothers, List.filter_eq_nil_iff]
        intro e _ hall
        have hall := of_decide_eq_true hall
        exact hall.2 (prefix_of_all_ff hff (le_trans hlo hall.1))
      rw [found, hrange, hnone, List.append_nil]
    · rw [← hown, List.length_map] at hw
      rw [found, hrange]
      exact List.take_append_of_le_length hw
  refine ⟨fun e he => ?_, by rw [hfound, takeWant_map, hown]⟩
  rw [hfound] at he
  exact (hpaged e (takeWant_subset he)).length_le

/-- What the frame has written is stored, whatever was there before. -/
theorem get_written (store : Keyspace) (before : List FrameOp) (k : Bytes) :
    (Keyspace.under p (applyOps store (hosted p before))).get k
      = readThrough (store.under p) (sent before) k := by
  have hpending : pending (hosted p before) (p ++ k) = pending (sent before) k := by
    unfold pending hosted
    rw [← List.map_reverse, List.find?_map, Option.map_map]
    simp only [Function.comp_def, List.append_cancel_left_eq]
    exact congrArg _ (congrArg (List.find? · _) (funext fun x => decide_eq_decide.mpr Iff.rfl))
  rw [Keyspace.get_under, get_applyOps, readThrough, hpending, ← Keyspace.get_under]
  rfl

theorem length_written_le (store : Keyspace) (before : List FrameOp) (lo : Bytes) :
    (ownBehind p (written before) lo).length
      ≤ (ownBehind p (Keyspace.under p (applyOps store (hosted p before))) lo).length := by
  have hkept : ∀ e ∈ ownBehind p (written before) lo,
      e ∈ ownBehind p (Keyspace.under p (applyOps store (hosted p before))) lo := by
    intro e he
    obtain ⟨hmem, hle⟩ := List.mem_filter.mp he
    refine List.mem_filter.mpr ⟨?_, hle⟩
    have hget := (SortedMap.get_eq_some_iff (written before) e.1 e.2).mpr hmem
    refine (SortedMap.get_eq_some_iff _ e.1 e.2).mp ?_
    rw [written, get_applyOps, readThrough] at hget
    rw [get_written, readThrough]
    cases hp : pending (sent before) e.1 with
    | none =>
      rw [hp] at hget
      cases hget
    | some v =>
      rw [hp] at hget
      exact hget
  have hnodup : (ownBehind p (written before) lo).Nodup := by
    refine ((written before).sorted.filter _).imp fun hab heq => ?_
    exact absurd (congrArg Prod.fst heq) (ne_of_lt hab)
  exact (hnodup.subperm hkept).length_le

end Behind

/-! ## Two runs the tenant cannot tell apart -/

section TwoRuns

variable {p : Bytes} {a b : Keyspace}

/-- Two runs of one frame agree, up to answers that will not be shown. -/
structure Agree (p : Bytes) (rest : List FrameOp) (s t : ExecState Keyspace) : Prop where
  under : s.engine.under p = t.engine.under p
  batch : s.batch = t.batch
  value : s.resp.value = t.resp.value
  fault : s.resp.fault = t.resp.fault
  suffixes : s.resp.suffixes = t.resp.suffixes ∨ Covered p opScan rest
  hits : s.resp.hits = t.resp.hits ∧ s.resp.tail = t.resp.tail ∨ Covered p opScanStream rest

/-- Both runs go on alike, or both leave the loop with one answer. -/
def StepAgree (p : Bytes) (rest : List FrameOp) : ExecStep Keyspace → ExecStep Keyspace → Prop
  | .next s, .next t => Agree p rest s t
  | .stop _ answer, .stop _ answer' => answer = answer'
  | _, _ => False

theorem applyOps_under (h : a.under p = b.under p) (ops : List (Op Bytes Bytes)) :
    Keyspace.under p (applyOps a ops) = Keyspace.under p (applyOps b ops) := by
  rw [Keyspace.under_eq_iff] at h ⊢
  intro k
  rw [get_applyOps, get_applyOps, readThrough, readThrough, h k]

theorem Agree.flush {rest : List FrameOp} {s t : ExecState Keyspace} (h : Agree p rest s t) :
    (flushed s).engine.under p = (flushed t).engine.under p := by
  change Keyspace.under p (applyOps s.engine s.batch.ops)
    = Keyspace.under p (applyOps t.engine t.batch.ops)
  rw [h.batch]
  exact applyOps_under h.under _

theorem covered_cons {tag : UInt8} {op : FrameOp} {after : List FrameOp} (hstop : ¬ Stops p op) :
    Covered p tag (op :: after) ↔ op.1 = tag ∨ Covered p tag after := by
  simp [Covered, hstop]

/-- Two queries answered: the field of the op's own tag is new, every other is as it
was. -/
theorem Agree.query {op : FrameOp} {after : List FrameOp} {s t : ExecState Keyspace}
    (h : Agree p (op :: after) s t) (hstop : ¬ Stops p op) {r r' : OpResponse}
    (hvalue : r.value = r'.value)
    (hfault : r.fault = s.resp.fault ∧ r'.fault = t.resp.fault)
    (hscan : op.1 = opScan → r.suffixes = r'.suffixes ∨ Covered p opScan after)
    (hother : op.1 ≠ opScan → r.suffixes = s.resp.suffixes ∧ r'.suffixes = t.resp.suffixes)
    (hstream : op.1 = opScanStream →
      r.hits = r'.hits ∧ r.tail = r'.tail ∨ Covered p opScanStream after)
    (hother' : op.1 ≠ opScanStream → (r.hits = s.resp.hits ∧ r.tail = s.resp.tail)
      ∧ r'.hits = t.resp.hits ∧ r'.tail = t.resp.tail) :
    Agree p after { flushed s with resp := r } { flushed t with resp := r' } where
  under := h.flush
  batch := rfl
  value := hvalue
  fault := by
    rw [hfault.1, hfault.2]
    exact h.fault
  suffixes := by
    by_cases htag : op.1 = opScan
    · exact hscan htag
    · rw [(hother htag).1, (hother htag).2]
      exact h.suffixes.imp_right fun hc => ((covered_cons hstop).mp hc).resolve_left htag
  hits := by
    by_cases htag : op.1 = opScanStream
    · exact hstream htag
    · obtain ⟨⟨hs, hs'⟩, ht, ht'⟩ := hother' htag
      rw [hs, hs', ht, ht']
      exact h.hits.imp_right fun hc => ((covered_cons hstop).mp hc).resolve_left htag

/-- The tags of queries. -/
theorem query_tags {op : FrameOp} (hstop : ¬ Stops p op)
    (hwrite : ¬ (op.1 = opPut ∨ op.1 = opDelete)) :
    op.1 = opGet ∨ op.1 = opScan ∨ op.1 = opScanStream := by
  rcases tag_cases op.1 with h | h | h | h | h | h
  · exact absurd (Or.inl h) hwrite
  · exact absurd (Or.inr h) hwrite
  · exact Or.inl h
  · exact Or.inr (Or.inl h)
  · exact Or.inr (Or.inr h)
  · exact absurd (Or.inl h) hstop

/-- The entries two runs answer are alike, or neither answer is shown. -/
theorem found_agree {before : List FrameOp} {op : FrameOp} {after : List FrameOp} {lo : Bytes}
    {want : Option Nat} (hend : endless p op = some (lo, want))
    (hq : (∀ b ∈ p, b = 0xFF) ∨ Filled p before lo want ∨ Hidden p op.1 lo after)
    (hab : a.under p = b.under p) :
    let x := applyOps a (hosted p before)
    let y := applyOps b (hosted p before)
    AllLong p (found x lo want) ∧ AllLong p (found y lo want)
      ∧ ((found x lo want).map (stripEntry p) = (found y lo want).map (stripEntry p)
        ∨ Covered p op.1 after) := by
  intro x y
  have hlo := (endless_start hend).1
  have hown : (∀ b ∈ p, b = 0xFF) ∨ Filled p before lo want →
      AllLong p (found x lo want) ∧ AllLong p (found y lo want)
      ∧ (found x lo want).map (stripEntry p) = (found y lo want).map (stripEntry p) := by
    intro hq
    have hwide : ∀ store : Keyspace, (∀ b ∈ p, b = 0xFF) ∨ ∃ w ∈ want,
        w ≤ (ownBehind p (Keyspace.under p (applyOps store (hosted p before))) lo).length := by
      intro store
      refine hq.imp_right fun ⟨w, hw, hle⟩ => ⟨w, hw, ?_⟩
      exact le_trans hle (length_written_le store before lo)
    obtain ⟨hx, hx'⟩ := found_own hlo (hwide a)
    obtain ⟨hy, hy'⟩ := found_own hlo (hwide b)
    exact ⟨hx, hy, by rw [hx', hy', applyOps_under hab]⟩
  rcases hq with hff | hfilled | ⟨hshort, hcovered⟩
  · obtain ⟨hx, hy, hxy⟩ := hown (Or.inl hff)
    exact ⟨hx, hy, Or.inl hxy⟩
  · obtain ⟨hx, hy, hxy⟩ := hown (Or.inr hfilled)
    exact ⟨hx, hy, Or.inl hxy⟩
  · exact ⟨allLong_of_hidden hshort x, allLong_of_hidden hshort y, Or.inr hcovered⟩

/-- **One op of two runs.** -/
theorem execOp_agree {before : List FrameOp} {op : FrameOp} {after : List FrameOp}
    (hq : (∀ b ∈ p, b = 0xFF) ∨ Stops p op ∨
      ∀ scan ∈ endless p op, Filled p before scan.1 scan.2 ∨ Hidden p op.1 scan.1 after)
    (hab : a.under p = b.under p) {s t : ExecState Keyspace}
    (hs : (flushed s).engine = applyOps a (hosted p before))
    (ht : (flushed t).engine = applyOps b (hosted p before)) (h : Agree p (op :: after) s t) :
    StepAgree p after (execOp (some p) s op) (execOp (some p) t op) := by
  have hflush := h.flush
  by_cases hstop : Stops p op
  · obtain ⟨answer, -, -, heq⟩ := execOp_stops hstop
    rcases heq s with hs' | hs' <;> rcases heq t with ht' | ht' <;> rw [hs', ht'] <;> rfl
  by_cases hwrite : op.1 = opPut ∨ op.1 = opDelete
  · rw [execOp_mutation hwrite, execOp_mutation hwrite]
    have hne : ∀ tag, ¬ (tag = opPut ∨ tag = opDelete) → op.1 ≠ tag := by
      rintro tag htag rfl
      exact htag hwrite
    refine ⟨h.under, by rw [h.batch], h.value, h.fault, ?_, ?_⟩
    · exact h.suffixes.imp_right fun hc =>
        ((covered_cons hstop).mp hc).resolve_left (hne opScan (by decide))
    · exact h.hits.imp_right fun hc =>
        ((covered_cons hstop).mp hc).resolve_left (hne opScanStream (by decide))
  have htags := query_tags hstop hwrite
  have hdistinct : opGet ≠ opScan ∧ opGet ≠ opScanStream ∧ opScan ≠ opScanStream := by decide
  cases hend : endless p op with
  | none =>
    -- with an end both answer from the same keys
    rw [execOp_bounded hwrite hstop hend, execOp_bounded hwrite hstop hend, hflush]
    obtain ⟨tag, key, value⟩ := op
    rcases htags with rfl | rfl | rfl
    · exact h.query hstop rfl ⟨rfl, rfl⟩ (fun heq => absurd heq hdistinct.1)
        (fun _ => ⟨rfl, rfl⟩) (fun heq => absurd heq hdistinct.2.1)
        (fun _ => ⟨⟨rfl, rfl⟩, rfl, rfl⟩)
    · exact h.query hstop h.value ⟨rfl, rfl⟩ (fun _ => Or.inl rfl)
        (fun hne => absurd rfl hne) (fun heq => absurd heq hdistinct.2.2)
        (fun _ => ⟨⟨rfl, rfl⟩, rfl, rfl⟩)
    · have hshape : streamShape p key value ≠ none := fun hno => hstop (Or.inr ⟨rfl, hno⟩)
      obtain ⟨⟨stop, lo, want⟩, hshape⟩ := Option.ne_none_iff_exists'.mp hshape
      simp only [tenantAnswer, if_neg hdistinct.2.1.symm, if_neg hdistinct.2.2.symm, hshape]
      exact h.query hstop h.value ⟨rfl, rfl⟩ (fun heq => absurd heq hdistinct.2.2.symm)
        (fun _ => ⟨rfl, rfl⟩) (fun _ => Or.inl ⟨rfl, rfl⟩) (fun hne => absurd rfl hne)
  | some scan =>
    obtain ⟨lo, want⟩ := scan
    have hq' : (∀ b ∈ p, b = 0xFF) ∨ Filled p before lo want ∨ Hidden p op.1 lo after :=
      hq.imp_right fun hq => (hq.resolve_left hstop) (lo, want) hend
    obtain ⟨hx, hy, hxy⟩ := found_agree hend hq' hab
    rw [execOp_endless hend, execOp_endless hend, hs, ht, if_pos hx, if_pos hy]
    have hlen : (found (applyOps a (hosted p before)) lo want).map (stripEntry p)
        = (found (applyOps b (hosted p before)) lo want).map (stripEntry p) →
        (found (applyOps a (hosted p before)) lo want).length
          = (found (applyOps b (hosted p before)) lo want).length := by
      intro heq
      have := congrArg List.length heq
      rwa [List.length_map, List.length_map] at this
    unfold answering
    by_cases htag : op.1 = opScan
    · rw [if_pos htag, if_pos htag]
      refine h.query hstop h.value ⟨rfl, rfl⟩ (fun _ => ?_) (fun hne => absurd htag hne)
        (fun heq => absurd (htag.symm.trans heq) hdistinct.2.2) (fun _ => ⟨⟨rfl, rfl⟩, rfl, rfl⟩)
      refine hxy.imp (fun heq => ?_) fun hc => htag ▸ hc
      exact congrArg (List.map Prod.fst) heq
    · rw [if_neg htag, if_neg htag]
      refine h.query hstop h.value ⟨rfl, rfl⟩ (fun heq => absurd heq htag) (fun _ => ⟨rfl, rfl⟩)
        (fun hstream => ?_) (fun hne => ?_)
      · refine hxy.imp (fun heq => ⟨heq, ?_⟩) fun hc => hstream ▸ hc
        rw [hlen heq]
      · rcases htags with hget | hscan | hstream
        · rw [endless, if_neg htag, if_neg hne] at hend
          cases hend
        · exact absurd hscan htag
        · exact absurd hstream hne

theorem execOps_agree {before ops : List FrameOp}
    (hq : (∀ b ∈ p, b = 0xFF) ∨ Contained p before ops) (hab : a.under p = b.under p)
    {s t : ExecState Keyspace} (hs : (flushed s).engine = applyOps a (hosted p before))
    (ht : (flushed t).engine = applyOps b (hosted p before)) (h : Agree p ops s t) :
    StepAgree p [] (execOps (some p) s ops) (execOps (some p) t ops) := by
  induction ops generalizing before s t with
  | nil => exact h
  | cons op after ih =>
    have hstep := execOp_agree (hq.imp_right fun hc => hc.imp_right And.left) hab hs ht h
    unfold execOps
    cases hs' : execOp (some p) s op with
    | stop engine answer =>
      cases ht' : execOp (some p) t op with
      | next t' => rw [hs', ht'] at hstep; exact absurd hstep id
      | stop engine' answer' => rw [hs', ht'] at hstep; exact hstep
    | next s' =>
      cases ht' : execOp (some p) t op with
      | stop engine answer => rw [hs', ht'] at hstep; exact absurd hstep id
      | next t' =>
        rw [hs', ht'] at hstep
        have hgoes : ¬ Stops p op := by
          intro hstop
          obtain ⟨answer, -, -, heq⟩ := execOp_stops hstop
          rcases heq s with hno | hno <;> rw [hs'] at hno <;> cases hno
        have hq' : (∀ b ∈ p, b = 0xFF) ∨ Contained p (before ++ [op]) after :=
          hq.imp_right fun hc => (hc.resolve_left hgoes).2
        refine ih hq' ?_ ?_ hstep
        · rw [(execOp_writes hs').1, hs, hosted_append, applyOps_append]
        · rw [(execOp_writes ht').1, ht, hosted_append, applyOps_append]

/-- **Two engines that agree under the prefix answer a contained frame alike.** -/
theorem applyFrame_agree {frame : OpFrame}
    (hq : (∀ b ∈ p, b = 0xFF) ∨ Contained p [] frame.ops) (hab : a.under p = b.under p) :
    (applyFrame (some p) a frame).1 = (applyFrame (some p) b frame).1 := by
  have hstart : Agree p frame.ops { engine := a } { engine := b } :=
    ⟨hab, rfl, rfl, rfl, Or.inl rfl, Or.inl ⟨rfl, rfl⟩⟩
  have hstep := execOps_agree hq hab (s := { engine := a }) (t := { engine := b }) rfl rfl hstart
  unfold applyFrame
  cases hs : execOps (some p) { engine := a } frame.ops with
  | stop engine answer =>
    cases ht : execOps (some p) { engine := b } frame.ops with
    | next t => rw [hs, ht] at hstep; exact absurd hstep id
    | stop engine' answer' => rw [hs, ht] at hstep; exact hstep
  | next s =>
    cases ht : execOps (some p) { engine := b } frame.ops with
    | stop engine answer => rw [hs, ht] at hstep; exact absurd hstep id
    | next t =>
      rw [hs, ht] at hstep
      have hnone : ∀ tag, ¬ Covered p tag [] := by
        rintro tag ⟨op, hop, -⟩
        exact absurd hop List.not_mem_nil
      have hsuffixes := hstep.suffixes.resolve_right (hnone _)
      obtain ⟨hhits, htail⟩ := hstep.hits.resolve_right (hnone _)
      have hresp : s.resp = t.resp := by
        have heta : ∀ r : OpResponse, r = ⟨r.value, r.suffixes, r.hits, r.tail, r.fault⟩ :=
          fun _ => rfl
        rw [heta s.resp, heta t.resp, hstep.value, hsuffixes, hhits, htail, hstep.fault]
      simp only [execFinish, VirtualStorage.commitBatch, hresp]

end TwoRuns

/-- The tenant's own part of an engine. -/
def ownPart (p : Bytes) (store : Keyspace) : Keyspace := store.restrict p.isPrefixOf

theorem ownPart_own (p : Bytes) (store : Keyspace) : OwnOnly p (ownPart p store) := by
  intro e he
  exact List.isPrefixOf_iff_prefix.mp (List.mem_filter.mp he).2

theorem under_ownPart (p : Bytes) (store : Keyspace) : (ownPart p store).under p = store.under p := by
  rw [Keyspace.under_eq_iff]
  intro k
  rw [ownPart, SortedMap.get_restrict, if_pos (List.isPrefixOf_iff_prefix.mpr (List.prefix_append p k))]

/-- **A contained frame is isolated.** Its answer is the one it gets on the tenant's own
part of the engine. -/
theorem isolated_of_contained {p bytes : Bytes} {frame : OpFrame}
    (hdec : OpFrame.decode bytes = some frame)
    (hq : (∀ b ∈ p, b = 0xFF) ∨ Contained p [] frame.ops) : Isolated p bytes frame := by
  have happly : ∀ store : Keyspace, apply (some p) store bytes = applyFrame (some p) store frame :=
    fun store => by rw [apply, hdec]
  have hlocal : ∀ store : Keyspace, (apply (some p) store bytes).1
      = (applyFrame (some p) (ownPart p store) frame).1 := by
    intro store
    rw [happly]
    exact applyFrame_agree hq (under_ownPart p store).symm
  -- what is the tenant's own in its part of the engine is its own in the engine
  have hown : ∀ (store : Keyspace) (k v : Bytes),
      Own p (ownPart p store) frame k v → Own p store frame k v := by
    intro store k v how
    refine how.imp_left fun hget => ?_
    rw [← Keyspace.get_under, under_ownPart, Keyspace.get_under] at hget
    exact hget
  have hrun : ∀ store, _ := fun store => @applyFrame_own p (ownPart p store) frame (ownPart_own p store)
  refine ⟨fun a b hab => ?_, fun a resp hresp v hv => ?_, fun a resp hresp x hx => ?_,
    fun a resp hresp x hx => ?_, fun a k hk => apply_foreign p a bytes hk, fun a => ?_⟩
  · rw [happly, happly]
    exact applyFrame_agree hq hab
  · rw [hlocal] at hresp
    obtain ⟨k, how⟩ := ((hrun a).2 resp hresp).1 v hv
    exact ⟨k, hown a k v how⟩
  · rw [hlocal] at hresp
    obtain ⟨k, v, hxk, how⟩ := ((hrun a).2 resp hresp).2.1 x hx
    exact ⟨k, v, hxk, hown a k v how⟩
  · rw [hlocal] at hresp
    exact hown a x.1 x.2 (((hrun a).2 resp hresp).2.2 x hx)
  · rw [hlocal]
    exact (hrun a).1

/-! ## A scan that is not contained leaks -/

section Leak

variable {p lo : Bytes} {want : Option Nat}

/-- An op that does not stop goes on, or finds a key too short to carry the prefix. Only
the field of its own tag changes. -/
theorem execOp_goes {op : FrameOp} (hstop : ¬ Stops p op) (s : ExecState Keyspace) :
    (execOp (some p) s op = .stop (flushed s).engine (.error .slice)
      ∧ ¬ AllLong p (flushed s).engine.entries)
    ∨ ∃ s', execOp (some p) s op = .next s' ∧ (op.1 ≠ opScan → s'.resp.suffixes = s.resp.suffixes)
      ∧ (op.1 ≠ opScanStream → s'.resp.hits = s.resp.hits) := by
  by_cases hwrite : op.1 = opPut ∨ op.1 = opDelete
  · exact Or.inr ⟨_, execOp_mutation hwrite s, fun _ => rfl, fun _ => rfl⟩
  have htags := query_tags hstop hwrite
  have hdistinct : opGet ≠ opScan ∧ opGet ≠ opScanStream ∧ opScan ≠ opScanStream := by decide
  cases hend : endless p op with
  | none =>
    refine Or.inr ⟨_, execOp_bounded hwrite hstop hend s, fun htag => ?_, fun htag => ?_⟩
    · rcases htags with hget | hscan | hstream
      · simp only [tenantAnswer, if_pos hget]
      · exact absurd hscan htag
      · simp only [tenantAnswer, hstream, if_neg hdistinct.2.1.symm, if_neg hdistinct.2.2.symm]
        split <;> rfl
    · rcases htags with hget | hscan | hstream
      · simp only [tenantAnswer, if_pos hget]
      · simp only [tenantAnswer, hscan, if_neg hdistinct.1.symm, if_true]
      · exact absurd hstream htag
  | some scan =>
    obtain ⟨lo, want⟩ := scan
    rw [execOp_endless hend]
    by_cases hlong : AllLong p (found (flushed s).engine lo want)
    · rw [if_pos hlong]
      refine Or.inr ⟨_, rfl, fun htag => ?_, fun htag => ?_⟩
      · simp only [answering, if_neg htag]
      · rcases htags with hget | hscan | hstream
        · rw [endless, hget, if_neg hdistinct.1, if_neg hdistinct.2.1] at hend
          cases hend
        · simp only [answering, if_pos hscan]
        · exact absurd hstream htag
    · rw [if_neg hlong]
      refine Or.inl ⟨rfl, fun hall => hlong fun e he => hall e ?_⟩
      exact (List.mem_filter.mp (takeWant_subset he)).1

theorem allLong_hosted {store : Keyspace} (h : AllLong p store.entries) (ops : List FrameOp) :
    AllLong p (applyOps store (hosted p ops)).entries := by
  intro e he
  by_cases hp : p <+: e.1
  · exact hp.length_le
  · have hget := (SortedMap.get_eq_some_iff _ e.1 e.2).mpr he
    rw [get_hosted ops store hp] at hget
    exact h e ((store.get_eq_some_iff e.1 e.2).mp hget)

/-- Ops that do not stop, one after another. -/
theorem execOps_goes {store : Keyspace} {ops : List FrameOp} (hstop : ∀ op ∈ ops, ¬ Stops p op)
    {before : List FrameOp} {s : ExecState Keyspace}
    (hs : (flushed s).engine = applyOps store (hosted p before)) :
    (∃ engine, execOps (some p) s ops = .stop engine (.error .slice) ∧ ¬ AllLong p store.entries)
    ∨ ∃ s', execOps (some p) s ops = .next s'
      ∧ (flushed s').engine = applyOps store (hosted p (before ++ ops))
      ∧ ((∀ op ∈ ops, op.1 ≠ opScan) → s'.resp.suffixes = s.resp.suffixes)
      ∧ ((∀ op ∈ ops, op.1 ≠ opScanStream) → s'.resp.hits = s.resp.hits) := by
  induction ops generalizing before s with
  | nil =>
    refine Or.inr ⟨s, rfl, ?_, fun _ => rfl, fun _ => rfl⟩
    rw [List.append_nil]
    exact hs
  | cons op ops ih =>
    unfold execOps
    rcases execOp_goes (hstop op (by simp)) s with ⟨heq, hshort⟩ | ⟨s₁, heq, hsuffixes, hhits⟩
    · refine Or.inl ⟨_, by rw [heq], fun hall => hshort ?_⟩
      rw [hs]
      exact allLong_hosted hall before
    · have hs₁ : (flushed s₁).engine = applyOps store (hosted p (before ++ [op])) := by
        rw [(execOp_writes heq).1, hs, hosted_append, applyOps_append]
      rw [heq]
      rcases ih (fun o ho => hstop o (by simp [ho])) hs₁ with hslice | ⟨s', hnext, hs', hsuf, hhit⟩
      · exact Or.inl hslice
      · refine Or.inr ⟨s', hnext, ?_, fun hno => ?_, fun hno => ?_⟩
        · rw [hs', List.append_assoc]
          rfl
        · rw [hsuf fun o ho => hno o (by simp [ho]), hsuffixes (hno op (by simp))]
        · rw [hhit fun o ho => hno o (by simp [ho]), hhits (hno op (by simp))]

theorem execOps_append (s : ExecState Keyspace) (ops ops' : List FrameOp) :
    execOps (some p) s (ops ++ ops') = match execOps (some p) s ops with
      | .next s => execOps (some p) s ops'
      | .stop engine answer => .stop engine answer := by
  induction ops generalizing s with
  | nil => rfl
  | cons op ops ih =>
    rw [List.cons_append, execOps, execOps]
    cases execOp (some p) s op with
    | next s' => exact ih s'
    | stop engine answer => rfl

/-- Behind any start of the tenant there is room for a foreign key. -/
theorem exists_foreign (hff : ¬ ∀ b ∈ p, b = 0xFF) (hlen : p.length ≤ lo.length) :
    ∃ f, lo ≤ f ∧ ¬ p <+: f ∧ p.length ≤ f.length := by
  by_cases hlo : p <+: lo
  · cases he : prefixEnd p with
    | none => exact absurd ((prefixEnd_eq_none_iff p).mp he) hff
    | some e =>
      refine ⟨e, le_of_lt (lt_prefixEnd he hlo), fun hpe => ?_, le_of_eq (length_prefixEnd he).symm⟩
      exact absurd (lt_prefixEnd he hpe) (lt_irrefl e)
  · exact ⟨lo, le_refl _, hlo, hlen⟩

/-- An engine holding one foreign key and nothing else. -/
def foreignOnly (f : Bytes) : Keyspace := SortedMap.insert SortedMap.empty f []

theorem under_foreignOnly {f : Bytes} (hf : ¬ p <+: f) :
    Keyspace.under p SortedMap.empty = (foreignOnly f).under p := by
  rw [Keyspace.under_eq_iff]
  intro k
  have hne : p ++ k ≠ f := fun h => hf (h ▸ List.prefix_append p k)
  rw [foreignOnly, SortedMap.get_insert_of_ne _ _ hne]

theorem under_written {store : Keyspace} (hstore : Keyspace.under p SortedMap.empty = store.under p)
    (before : List FrameOp) :
    Keyspace.under p (applyOps store (hosted p before)) = written before := by
  refine SortedMap.ext_get fun k => ?_
  rw [get_written, ← hstore, written, get_applyOps]
  rfl

/-- **What a scan finds where the tenant stored nothing before**: what the frame wrote,
and then, if its page is not full, the foreign key. -/
theorem found_foreignOnly {f : Bytes} (hf : ¬ p <+: f) (hlo : p ≤ lo) (hle : lo ≤ f)
    {before : List FrameOp} (hfill : ¬ Filled p before lo want) :
    (found (applyOps SortedMap.empty (hosted p before)) lo want).length
        = (ownBehind p (written before) lo).length
    ∧ (found (applyOps (foreignOnly f) (hosted p before)) lo want).length
        = (ownBehind p (written before) lo).length + 1
    ∧ ∃ v, (f, v) ∈ found (applyOps (foreignOnly f) (hosted p before)) lo want := by
  -- a page that is not full takes one entry more
  have htake : ∀ es : List (Bytes × Bytes),
      es.length ≤ (ownBehind p (written before) lo).length + 1 → takeWant want es = es := by
    intro es hes
    cases hw : want with
    | none => rfl
    | some w =>
      have hlt : ¬ w ≤ (ownBehind p (written before) lo).length := fun hle =>
        hfill ⟨w, by rw [hw]; rfl, hle⟩
      exact List.take_of_length_le (by omega)
  obtain ⟨own, others, hrange, -, hown, hothers⟩ :=
    range_split hlo (applyOps SortedMap.empty (hosted p before))
  obtain ⟨own', others', hrange', -, hown', hothers'⟩ :=
    range_split hlo (applyOps (foreignOnly f) (hosted p before))
  rw [under_written rfl] at hown
  rw [under_written (under_foreignOnly hf)] at hown'
  have hlen := congrArg List.length hown
  have hlen' := congrArg List.length hown'
  rw [List.length_map] at hlen hlen'
  have hnone : others = [] := by
    rw [hothers, List.filter_eq_nil_iff]
    intro e he hall
    have hall := of_decide_eq_true hall
    have hget := (SortedMap.get_eq_some_iff _ e.1 e.2).mpr he
    rw [get_hosted before _ hall.2] at hget
    cases hget
  have hone : others' = [(f, [])] := by
    refine SortedMap.eq_of_mem_iff ?_ (List.pairwise_singleton _ _) fun e => ?_
    · rw [hothers']
      exact (applyOps (foreignOnly f) (hosted p before)).sorted.filter _
    · rw [hothers', List.mem_filter, List.mem_singleton, ← SortedMap.get_eq_some_iff,
        decide_eq_true_iff]
      constructor
      · rintro ⟨hget, -, hp⟩
        rw [get_hosted before _ hp, foreignOnly, SortedMap.get_insert] at hget
        split at hget
        · rename_i hkey
          exact Prod.ext hkey (Option.some.inj hget).symm
        · cases hget
      · rintro rfl
        refine ⟨?_, hle, hf⟩
        rw [get_hosted before _ hf, foreignOnly, SortedMap.get_insert, if_pos rfl]
  rw [hnone, List.append_nil] at hrange
  rw [hone] at hrange'
  have hfound : found (applyOps SortedMap.empty (hosted p before)) lo want = own := by
    rw [found, hrange]
    exact htake own (by omega)
  have hfound' : found (applyOps (foreignOnly f) (hosted p before)) lo want = own' ++ [(f, [])] := by
    rw [found, hrange']
    exact htake _ (by rw [List.length_append, List.length_singleton]; omega)
  refine ⟨by rw [hfound, hlen], ?_, [], ?_⟩
  · rw [hfound', List.length_append, List.length_singleton, hlen']
  · rw [hfound']
    exact List.mem_append_right _ (List.mem_singleton.mpr rfl)

/-- A frame is not contained because of some first scan the host comes to. -/
theorem not_contained {before ops : List FrameOp} (h : ¬ Contained p before ops) :
    ∃ mid op after lo want, ops = mid ++ op :: after ∧ (∀ o ∈ mid, ¬ Stops p o)
      ∧ endless p op = some (lo, want) ∧ ¬ Filled p (before ++ mid) lo want
      ∧ ¬ Hidden p op.1 lo after := by
  induction ops generalizing before with
  | nil => exact absurd trivial h
  | cons op after ih =>
    rw [Contained, not_or, not_and_or] at h
    obtain ⟨hstop, hscan | hrest⟩ := h
    · simp only [not_forall, not_or] at hscan
      obtain ⟨⟨lo, want⟩, hend, hfill, hhide⟩ := hscan
      refine ⟨[], op, after, lo, want, rfl, by simp, hend, ?_, hhide⟩
      rw [List.append_nil]
      exact hfill
    · obtain ⟨mid, op', after', lo, want, rfl, hmid, hend, hfill, hhide⟩ := ih hrest
      refine ⟨op :: mid, op', after', lo, want, rfl, ?_, hend, ?_, hhide⟩
      · intro o ho
        rcases List.mem_cons.mp ho with rfl | ho
        · exact hstop
        · exact hmid o ho
      · rwa [List.append_assoc] at hfill

theorem endless_tag {op : FrameOp} (h : endless p op = some (lo, want)) :
    op.1 = opScan ∨ op.1 = opScanStream := by
  unfold endless at h
  split at h
  · rename_i htag
    exact Or.inl htag
  split at h
  · rename_i htag
    exact Or.inr htag
  · cases h

/-- With no key too short, an answer that nothing covers is shown. -/
theorem shown_of_uncovered {store : Keyspace} (hlong : AllLong p store.entries)
    {mid after : List FrameOp} {op : FrameOp} (hmid : ∀ o ∈ mid, ¬ Stops p o)
    (hend : endless p op = some (lo, want)) (hcover : ¬ Covered p op.1 after) :
    ∃ resp, (applyFrame (some p) store ⟨mid ++ op :: after⟩).1 = .ok (some resp)
      ∧ (op.1 = opScan → resp.suffixes.length
        = (found (applyOps store (hosted p mid)) lo want).length)
      ∧ (op.1 = opScanStream → resp.hits.length
        = (found (applyOps store (hosted p mid)) lo want).length) := by
  have hafter : ∀ o ∈ after, ¬ Stops p o ∧ o.1 ≠ op.1 := fun o ho =>
    ⟨fun hstop => hcover ⟨o, ho, Or.inl hstop⟩, fun htag => hcover ⟨o, ho, Or.inr htag⟩⟩
  have hstart : (flushed { engine := store }).engine = applyOps store (hosted p []) := rfl
  obtain ⟨s₁, hs₁, hstore, -, -⟩ :=
    (execOps_goes hmid hstart).resolve_left (fun ⟨_, _, hshort⟩ => hshort hlong)
  rw [List.nil_append] at hstore
  -- the scan goes on with what it found
  obtain ⟨s₂, hs₂, hresp⟩ : ∃ s₂, execOp (some p) s₁ op = .next s₂ ∧ s₂.resp
      = answering p op.1 want (found (applyOps store (hosted p mid)) lo want) s₁.resp := by
    have hfound : AllLong p (found (flushed s₁).engine lo want) := by
      intro e he
      rw [hstore] at he
      exact allLong_hosted hlong _ e (List.mem_filter.mp (takeWant_subset he)).1
    refine ⟨_, (execOp_endless hend s₁).trans (if_pos hfound), ?_⟩
    rw [hstore]
  have hstore₂ := (execOp_writes hs₂).1
  rw [hstore, ← applyOps_append, ← hosted_append] at hstore₂
  obtain ⟨s₃, hs₃, -, hsuffixes, hhits⟩ := (execOps_goes (fun o ho => (hafter o ho).1)
    hstore₂).resolve_left (fun ⟨_, _, hshort⟩ => hshort hlong)
  have hall : execOps (some p) { engine := store } (mid ++ op :: after) = .next s₃ := by
    rw [execOps_append, hs₁]
    change execOps (some p) s₁ (op :: after) = _
    rw [execOps, hs₂]
    exact hs₃
  refine ⟨s₃.resp, by rw [applyFrame, hall]; rfl, fun htag => ?_, fun htag => ?_⟩
  · rw [hsuffixes fun o ho => htag ▸ (hafter o ho).2, hresp]
    simp only [answering, if_pos htag, List.length_map]
  · have hne : op.1 ≠ opScan := by
      rw [htag]
      decide
    rw [hhits fun o ho => htag ▸ (hafter o ho).2, hresp]
    simp only [answering, if_neg hne, List.length_map]

/-- **A frame that is not contained is not isolated.** -/
theorem contained_of_isolated {bytes : Bytes} {frame : OpFrame}
    (hdec : OpFrame.decode bytes = some frame) (hff : ¬ ∀ b ∈ p, b = 0xFF)
    (hiso : Isolated p bytes frame) : Contained p [] frame.ops := by
  have happly : ∀ store : Keyspace, apply (some p) store bytes = applyFrame (some p) store frame :=
    fun store => by rw [apply, hdec]
  by_contra hno
  obtain ⟨mid, op, after, lo, want, hops, hmid, hend, hfill, hhide⟩ := not_contained hno
  rw [List.nil_append] at hfill
  obtain ⟨hlo, hlen⟩ := endless_start hend
  have hframe : frame = ⟨mid ++ op :: after⟩ := congrArg OpFrame.mk hops
  by_cases hshort : lo ≤ List.replicate (p.length - 1) 0xFF
  · -- a foreign key too short aborts the host, here or before
    have hpos : p.length ≠ 0 := by
      intro hzero
      rw [List.eq_nil_of_length_eq_zero hzero] at hff
      exact hff fun b hb => absurd hb List.not_mem_nil
    have hf : ¬ p <+: List.replicate (p.length - 1) 0xFF := by
      intro hp
      have := hp.length_le
      rw [List.length_replicate] at this
      omega
    obtain ⟨-, -, v, hmem⟩ := found_foreignOnly hf hlo hshort hfill
    refine hiso.slice (foreignOnly (List.replicate (p.length - 1) 0xFF)) ?_
    rw [happly, hframe, applyFrame, execOps_append]
    have hstart : (flushed { engine := foreignOnly (List.replicate (p.length - 1) 0xFF) }).engine
        = applyOps (foreignOnly (List.replicate (p.length - 1) 0xFF)) (hosted p []) := rfl
    rcases execOps_goes hmid hstart with
      ⟨engine, heq, -⟩ | ⟨s, heq, hstore, -, -⟩
    · rw [heq]
      rfl
    · have hnot : ¬ AllLong p (found (flushed s).engine lo want) := by
        intro hall
        rw [hstore, List.nil_append] at hall
        have := hall _ hmem
        rw [List.length_replicate] at this
        omega
      rw [heq]
      simp only [execOps, execOp_endless hend, if_neg hnot]
      rfl
  · -- a foreign key long enough shows
    have hcover : ¬ Covered p op.1 after := fun hc => hhide ⟨hshort, hc⟩
    obtain ⟨f, hle, hf, hflen⟩ := exists_foreign hff hlen
    obtain ⟨hnone, hone, -⟩ := found_foreignOnly hf hlo hle hfill
    have hlong : AllLong p (foreignOnly f).entries := by
      intro e he
      obtain rfl := List.mem_singleton.mp he
      exact hflen
    -- an empty engine answers otherwise
    have hempty : AllLong p (SortedMap.empty : Keyspace).entries :=
      fun e he => absurd he List.not_mem_nil
    obtain ⟨r, hr, hrs, hrh⟩ := shown_of_uncovered hempty hmid hend hcover
    obtain ⟨r', hr', hrs', hrh'⟩ := shown_of_uncovered hlong hmid hend hcover
    have hsame := hiso.answer SortedMap.empty (foreignOnly f) (under_foreignOnly hf)
    rw [happly, happly, hframe, hr, hr'] at hsame
    obtain rfl := Option.some.inj (Except.ok.inj hsame)
    rcases endless_tag hend with htag | htag
    · have := (hrs htag).symm.trans (hrs' htag)
      omega
    · have := (hrh htag).symm.trans (hrh' htag)
      omega

end Leak

/-! ## Isolation -/

/-- **Tenant isolation of a hosted storage.** A frame is isolated exactly when nothing
sorts behind the tenant or every endless scan the host comes to is filled or hidden; and
no frame whatsoever changes a foreign key. -/
theorem hosted_isolation (p bytes : Bytes) (frame : OpFrame)
    (hdec : OpFrame.decode bytes = some frame) :
    (Isolated p bytes frame ↔ (∀ b ∈ p, b = 0xFF) ∨ Contained p [] frame.ops) ∧
    (∀ (store : Keyspace) (k : Bytes), ¬ p <+: k →
      (apply (some p) store bytes).2.get k = store.get k) := by
  refine ⟨⟨fun hiso => ?_, isolated_of_contained hdec⟩,
    fun store k hk => apply_foreign p store bytes hk⟩
  by_cases hff : ∀ b ∈ p, b = 0xFF
  · exact Or.inl hff
  · exact Or.inr (contained_of_isolated hdec hff hiso)

/-- Two endless scans of tenant `[9]` that stay in: the page of the first is filled by the
frame's own keys, and the answer of the second gives way to that of a bounded one. -/
def containedScans : OpFrame :=
  ⟨[(opPut, [1], [7]), (opPut, [2], [8]), (opScanStream, [], [0x00, 2]), (opScan, [], [0x00]),
    (opScan, [1], [0x01, 5])]⟩

theorem hosted_isolation_contained : Isolated [9] containedScans.encode containedScans :=
  (hosted_isolation [9] containedScans.encode containedScans (by decide)).1.mpr
    (Or.inr (by decide))

/-- A scan of tenant `[9]` from its first key on, without an end. -/
def endlessScan : OpFrame := OpFrame.one opScan [] [0x00]

/-- **The scan without an end answers another tenant's key.** -/
theorem endlessScan_leaks : ¬ Isolated [9] endlessScan.encode endlessScan := by
  intro h
  have hsame := h.answer SortedMap.empty (foreignOnly [10, 1])
    (under_foreignOnly (by decide))
  have hempty : (apply (some [9]) (SortedMap.empty : Keyspace) endlessScan.encode).1
      = .ok (some {}) := by decide
  have hleak : (apply (some [9]) (foreignOnly [10, 1]) endlessScan.encode).1
      = .ok (some { suffixes := [[1]] }) := by decide
  rw [hempty, hleak] at hsame
  simp at hsame

end Okm.Engine
