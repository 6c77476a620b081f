import Okm.Engine.RemoteScan

/-!
# What a hosted sender can reach

Several hosted hosts share one engine, each behind its own prefix. Isolation is
a statement about two engines: if they agree on the tenant's keys, no frame of
the tenant can tell them apart.

Point reads, prefix scans and bounded scans are confined by concatenation alone.
A scan without an end is confined only where nothing sorts behind the tenant: in an
engine of its own, or under a prefix of `0xFF` bytes. What it does elsewhere is the
subject of `Isolation`.
-/

namespace Okm.Engine

open Lib Wire VirtualStorage

/-- The tenant stored `v` under its key `k` before the frame, or the frame does. -/
def Own (p : Bytes) (store : Keyspace) (frame : OpFrame) (k v : Bytes) : Prop :=
  store.get (p ++ k) = some v ∨ (opPut, k, v) ∈ frame.ops

/-- **Tenant isolation of one request frame.** The answer does not depend on what
lies outside the prefix, everything in it is the tenant's own, no foreign key
changes, and no key is too short to be stripped of the prefix. -/
structure Isolated (p bytes : Bytes) (frame : OpFrame) : Prop where
  answer : ∀ a b : Keyspace, a.under p = b.under p →
    (apply (some p) a bytes).1 = (apply (some p) b bytes).1
  value : ∀ (a : Keyspace) (resp : OpResponse), (apply (some p) a bytes).1 = .ok (some resp) →
    ∀ v, resp.value = some v → ∃ k, Own p a frame k v
  suffixes : ∀ (a : Keyspace) (resp : OpResponse), (apply (some p) a bytes).1 = .ok (some resp) →
    ∀ s ∈ resp.suffixes, ∃ k v, s <:+ k ∧ Own p a frame k v
  hits : ∀ (a : Keyspace) (resp : OpResponse), (apply (some p) a bytes).1 = .ok (some resp) →
    ∀ h ∈ resp.hits, Own p a frame h.1 h.2
  foreign : ∀ (a : Keyspace) (k : Bytes), ¬ p <+: k → (apply (some p) a bytes).2.get k = a.get k
  slice : ∀ a : Keyspace, (apply (some p) a bytes).1 ≠ .error .slice

/-! ## What an op asks for -/

/-- A stream value under a key: its end, the key its page starts at, and how many hits it
wants. `none` where the host leaves the function instead: the value is empty, its flag is
unknown, the end it announces has no room, or nothing lies behind an exclusive start. -/
def streamShape (p key value : Bytes) : Option (Option Bytes × Bytes × Option Nat) :=
  match value with
  | [] => none
  | flag :: rest =>
    let want := pageWant ((flag :: rest).getLast (List.cons_ne_nil _ _))
    if flag = 0x00 then some (none, p ++ key, want)
    else if flag = 0x03 then (prefixEnd (p ++ key)).map fun lo => (none, lo, want)
    else if rest = [] then none
    else if flag = 0x01 then some (some rest.dropLast, p ++ key, want)
    else if flag = 0x02 then (prefixEnd (p ++ key)).map fun lo => (some rest.dropLast, lo, want)
    else none

/-- The op makes the host leave the function, whatever the engine holds. -/
def Stops (p : Bytes) (op : FrameOp) : Prop :=
  opScanStream < op.1 ∨ op.1 = opScanStream ∧ streamShape p op.2.1 op.2.2 = none

instance Stops.decidable (p : Bytes) (op : FrameOp) : Decidable (Stops p op) :=
  inferInstanceAs (Decidable (_ ∨ _ ∧ _))

/-- Where a scan without an end starts, and how many hits it wants: `OP_SCAN` with
`[0x00]`, or a stream flagged unbounded. -/
def endless (p : Bytes) (op : FrameOp) : Option (Bytes × Option Nat) :=
  if op.1 = opScan then if op.2.2 = [0x00] then some (p ++ op.2.1, none) else none
  else if op.1 = opScanStream then
    match streamShape p op.2.1 op.2.2 with
    | some (none, lo, want) => some (lo, want)
    | _ => none
  else none

section Shape

variable {p key value : Bytes}

theorem streamShape_some {stop : Option Bytes} {lo : Bytes} {want : Option Nat}
    (h : streamShape p key value = some (stop, lo, want)) :
    ∃ (exclusive : Bool) (page : UInt8), value.getLast? = some page
      ∧ streamBounds (some p) value = .ok (some (stop.map (hostedKey (some p)), exclusive))
      ∧ requestStart (some p) key exclusive = some lo ∧ want = pageWant page := by
  cases value with
  | nil => cases h
  | cons flag rest =>
    have hlast := List.getLast?_eq_some_getLast (List.cons_ne_nil flag rest)
    unfold streamShape at h
    dsimp only at h
    split at h
    · rename_i hflag
      obtain ⟨rfl, rfl, rfl⟩ : none = stop ∧ p ++ key = lo ∧ _ = want := by simpa using h
      exact ⟨false, _, hlast, by simp [streamBounds, hflag], rfl, rfl⟩
    split at h
    · rename_i hflag
      obtain ⟨e, he, heq⟩ := Option.map_eq_some_iff.mp h
      obtain ⟨rfl, rfl, rfl⟩ : none = stop ∧ e = lo ∧ _ = want := by simpa using heq
      exact ⟨true, _, hlast, by simp [streamBounds, hflag], he, rfl⟩
    split at h
    · cases h
    rename_i hne
    split at h
    · rename_i hflag
      obtain ⟨rfl, rfl, rfl⟩ : some rest.dropLast = stop ∧ p ++ key = lo ∧ _ = want := by
        simpa using h
      have hroom : 1 ≤ rest.length := List.length_pos_of_ne_nil hne
      refine ⟨false, _, hlast, ?_, rfl, rfl⟩
      simp [streamBounds, hflag, hroom, Except.map]
    split at h
    · rename_i hflag
      obtain ⟨e, he, heq⟩ := Option.map_eq_some_iff.mp h
      obtain ⟨rfl, rfl, rfl⟩ : some rest.dropLast = stop ∧ e = lo ∧ _ = want := by
        simpa using heq
      have hroom : 1 ≤ rest.length := List.length_pos_of_ne_nil hne
      refine ⟨true, _, hlast, ?_, he, rfl⟩
      simp [streamBounds, hflag, hroom, Except.map]
    · cases h

theorem streamShape_none (h : streamShape p key value = none) :
    value.getLast? = none ∨ (∃ e, e ≠ Panic.slice ∧ streamBounds (some p) value = .error e)
      ∨ streamBounds (some p) value = .ok none ∨ ∃ stop exclusive,
        streamBounds (some p) value = .ok (some (stop, exclusive))
          ∧ requestStart (some p) key exclusive = none := by
  cases value with
  | nil => exact Or.inl rfl
  | cons flag rest =>
    refine Or.inr ?_
    unfold streamShape at h
    dsimp only at h
    split at h
    · cases h
    split at h
    · rename_i hflag
      -- no end and no start above the key
      refine Or.inr (Or.inr ⟨none, true, by simp [streamBounds, hflag], ?_⟩)
      exact Option.map_eq_none_iff.mp h
    rename_i hflag0 hflag3
    split at h
    · -- no room: the span of a bounded flag aborts, any other flag is unknown
      rename_i hrest
      subst hrest
      by_cases hflag : flag = 0x01 ∨ flag = 0x02
      · refine Or.inl ⟨.span, by simp, ?_⟩
        rcases hflag with rfl | rfl
        · rfl
        · rfl
      · rw [not_or] at hflag
        refine Or.inr (Or.inl ?_)
        simp [streamBounds, hflag0, hflag3, hflag.1, hflag.2]
    rename_i hne
    have hroom : 1 ≤ rest.length := List.length_pos_of_ne_nil hne
    split at h
    · cases h
    rename_i hflag1
    split at h
    · rename_i hflag
      refine Or.inr (Or.inr ⟨some (p ++ rest.dropLast), true, ?_, Option.map_eq_none_iff.mp h⟩)
      simp [streamBounds, hflag, hroom, Except.map, hostedKey]
    · rename_i hflag2
      refine Or.inr (Or.inl ?_)
      simp [streamBounds, hflag0, hflag3, hflag1, hflag2]

end Shape

/-! ## The answers of the engine, in terms of the tenant's keyspace -/

section Answers

variable {p : Bytes}

/-- Behind a prefix of `0xFF` bytes there is nothing but the prefix itself. -/
theorem prefix_of_all_ff (h : ∀ b ∈ p, b = 0xFF) {k : Bytes} (hk : p ≤ k) : p <+: k := by
  induction p generalizing k with
  | nil => exact List.nil_prefix
  | cons b p ih =>
    cases k with
    | nil => exact absurd (lt_of_lt_of_le List.Lex.nil hk) (lt_irrefl _)
    | cons c k =>
      have hb : b = 0xFF := h b (by simp)
      have hc : ¬ 0xFF < c := by
        rw [UInt8.lt_iff_toNat_lt]
        have := c.toNat_lt
        change ¬ 255 < c.toNat
        omega
      rcases lt_or_eq_of_le hk with hlt | heq
      · rcases (cons_lt_cons_iff b c p k).mp hlt with hbc | ⟨rfl, hpk⟩
        · exact absurd (hb ▸ hbc) hc
        · exact List.cons_prefix_cons.mpr
            ⟨rfl, ih (fun x hx => h x (by simp [hx])) (le_of_lt hpk)⟩
      · exact heq ▸ List.prefix_refl _

/-- An engine with no key but the tenant's. -/
def OwnOnly (p : Bytes) (store : Keyspace) : Prop := ∀ e ∈ store.entries, p <+: e.1

/-- The hits a page budget lets through. -/
def takeWant (want : Option Nat) (es : List (Bytes × Bytes)) : List (Bytes × Bytes) :=
  match want with
  | none => es
  | some w => es.take w

theorem takeWant_subset {want : Option Nat} {es : List (Bytes × Bytes)} {e : Bytes × Bytes}
    (h : e ∈ takeWant want es) : e ∈ es := by
  cases want with
  | none => exact h
  | some w => exact List.mem_of_mem_take h

theorem stripAll_map {es : List (Bytes × Bytes)} (h : ∀ e ∈ es, p <+: e.1) :
    stripAll p.length (es.map Prod.fst) = .ok ((es.map (stripEntry p)).map Prod.fst) := by
  induction es with
  | nil => rfl
  | cons e es ih =>
    have hlen : p.length ≤ e.1.length := (h e (by simp)).length_le
    have htail := ih (fun e' he' => h e' (by simp [he']))
    simp only [List.map_cons, stripAll, sliceFrom, if_pos hlen, htail, bind, Except.bind,
      stripEntry]

/-- A confined range answer is the tenant's own range. -/
theorem strip_range {store : Keyspace} {start : Bytes} {stop : Option Bytes}
    (h : Confined (some p) store start stop) :
    stripAll p.length ((store.range (p ++ start) (stop.map (p ++ ·))).map Prod.fst)
      = .ok (((store.under p).range start stop).map Prod.fst) := by
  have hmap : stop.map (hostedKey (some p)) = stop.map (p ++ ·) := by cases stop <;> rfl
  have hown : ∀ e ∈ store.range (p ++ start) (stop.map (p ++ ·)), p <+: e.1 := by
    have := @confined_range (some p) store start stop h (p ++ start) (le_refl _)
    rwa [hmap] at this
  rw [stripAll_map hown, Keyspace.range_under hown]

/-- **A confined page is a page of the tenant's own range.** -/
theorem streamPage_confined {store : Keyspace} {key : Bytes} {stop : Option Bytes}
    (h : Confined (some p) store key stop) (exclusive : Bool) (page : UInt8) :
    streamPage (some p) store key (stop.map (hostedKey (some p))) exclusive page
      = match requestStart (some p) key exclusive with
        | none => .error .expect
        | some lo =>
          let hits := takeWant (pageWant page)
            (((store.under p).range key stop).filter (fun e => decide (lo ≤ p ++ e.1)))
          .ok (hits, none, if some hits.length = pageWant page then tailMore else tailFinal) := by
  unfold streamPage requestStart
  cases hs : (if exclusive then prefixEnd (hostedKey (some p) key)
      else some (hostedKey (some p) key)) with
  | none => simp only [hs]
  | some lo =>
    have hlo : hostedKey (some p) key ≤ lo := by
      cases exclusive with
      | true => exact le_of_lt (lt_prefixEnd_self hs)
      | false => exact le_of_eq (Option.some.inj hs)
    have hpage := confined_page h hlo (pageBudget store page)
    -- without a budget the page holds the whole range, which is no longer than the store
    have htake : ((localScan (some p) store key stop).filter
          (fun e => decide (lo ≤ hostedKey (some p) e.1))).take (pageBudget store page)
        = takeWant (pageWant page)
            (((store.under p).range key stop).filter (fun e => decide (lo ≤ p ++ e.1))) := by
      unfold pageBudget
      cases pageWant page with
      | some w => rfl
      | none =>
        refine List.take_of_length_le ?_
        have h1 := List.length_filter_le (fun e => decide (lo ≤ p ++ e.1))
          ((store.under p).range key stop)
        have h2 : ((store.under p).range key stop).length ≤ (store.under p).entries.length :=
          List.length_filter_le _ _
        have h3 : (store.under p).entries.length ≤ store.entries.length := by
          simp only [Keyspace.under, List.length_map]
          exact List.length_filter_le _ _
        change (((store.under p).range key stop).filter
          (fun e => decide (lo ≤ p ++ e.1))).length ≤ _
        rw [Option.getD_none]
        omega
    rw [htake] at hpage
    simp only [hs, pageLoop_range, hpage, bind, Except.bind]

/-- What a confined `OP_SCAN` answers, over the tenant's own keyspace. -/
def tenantScan (own : Keyspace) (key value : Bytes) : List Bytes :=
  match value with
  | 0x01 :: stop => (own.range key (some stop)).map Prod.fst
  | _ => own.suffixes key

/-- A value of neither range shape is a prefix scan. -/
theorem scanned_of_other {value : Bytes} (h0 : value ≠ [0x00])
    (h1 : ∀ stop, value ≠ 0x01 :: stop) (store : Keyspace) (key : Bytes) :
    scanned (some p) store key value = .ok (.ok (store.suffixes (p ++ key))) := by
  unfold scanned
  split
  · exact absurd rfl h0
  · exact absurd rfl (h1 _)
  · rfl

theorem tenantScan_of_other {value : Bytes} (h1 : ∀ stop, value ≠ 0x01 :: stop) (own : Keyspace) (key : Bytes) :
    tenantScan own key value = own.suffixes key := by
  unfold tenantScan
  split
  · exact absurd rfl (h1 _)
  · rfl

/-- A scan with an end is confined. -/
theorem scanned_confined {key value : Bytes} (h0 : value ≠ [0x00]) (store : Keyspace) :
    scanned (some p) store key value
      = .ok (.ok (tenantScan (store.under p) key value)) := by
  by_cases h1 : ∃ stop, value = 0x01 :: stop
  · obtain ⟨stop, rfl⟩ := h1
    have hstrip := @strip_range p store key (some stop) (Or.inl rfl)
    rw [Option.map_some] at hstrip
    simp only [scanned, tenantScan, VirtualStorage.scanRange, hostedKey, prefixBytes,
      Option.getD_some, hstrip, Except.map]
  · have h1' : ∀ stop, value ≠ 0x01 :: stop := fun stop hs => h1 ⟨stop, hs⟩
    rw [scanned_of_other h0 h1', tenantScan_of_other h1', Keyspace.suffixes_under]

theorem mem_tenantScan {own : Keyspace} {key value s : Bytes} (h : s ∈ tenantScan own key value) :
    ∃ k v, s <:+ k ∧ own.get k = some v := by
  unfold tenantScan at h
  split at h
  · obtain ⟨e, he, rfl⟩ := List.mem_map.mp h
    rw [SortedMap.mem_range] at he
    exact ⟨e.1, e.2, List.suffix_refl _, he.1⟩
  · obtain ⟨e, he, rfl⟩ := List.mem_map.mp h
    exact ⟨e.1, e.2, List.drop_suffix _ _,
      (own.get_eq_some_iff _ _).mpr (List.mem_filter.mp he).1⟩

/-! ### Behind a start -/

/-- The tenant's own entries at or behind a start. -/
def ownBehind (p : Bytes) (own : Keyspace) (lo : Bytes) : List (Bytes × Bytes) :=
  own.entries.filter fun e => decide (lo ≤ p ++ e.1)

/-- Whatever is not the tenant's and lies behind its prefix lies behind all its keys. -/
theorem lt_foreign {f k : Bytes} (hle : p ≤ f) (hf : ¬ p <+: f) (hk : p <+: k) : k < f := by
  obtain ⟨t, rfl⟩ := hk
  by_contra hnot
  rcases lt_or_eq_of_le (not_lt.mp hnot) with hlt | rfl
  · exact hf (prefix_of_between (s := []) (by rwa [List.append_nil]) hlt)
  · exact hf (List.prefix_append p t)

/-- **A range without an end is the tenant's own entries, then those of others.** -/
theorem range_split {lo : Bytes} (hlo : p ≤ lo) (store : Keyspace) :
    ∃ own others, store.range lo none = own ++ others ∧ (∀ e ∈ own, p <+: e.1)
      ∧ own.map (stripEntry p) = ownBehind p (store.under p) lo
      ∧ others = store.entries.filter fun e => decide (lo ≤ e.1 ∧ ¬ p <+: e.1) := by
  refine ⟨store.entries.filter fun e => decide (lo ≤ e.1 ∧ p <+: e.1), _, ?_, ?_, ?_, rfl⟩
  · refine SortedMap.eq_of_mem_iff (store.range_sorted lo none) ?_ fun e => ?_
    · refine List.pairwise_append.mpr ⟨store.sorted.filter _, store.sorted.filter _, ?_⟩
      intro a ha b hb
      have ha' := of_decide_eq_true (List.mem_filter.mp ha).2
      have hb' := of_decide_eq_true (List.mem_filter.mp hb).2
      exact lt_foreign (le_trans hlo hb'.1) hb'.2 ha'.2
    · rw [SortedMap.mem_range, SortedMap.get_eq_some_iff, List.mem_append, List.mem_filter,
        List.mem_filter]
      by_cases hp : p <+: e.1
      · simp [hp]
      · simp [hp]
  · intro e he
    exact (of_decide_eq_true (List.mem_filter.mp he).2).2
  · rw [ownBehind, Keyspace.under, List.filter_map, List.filter_filter]
    refine congrArg _ (List.filter_congr fun e _ => ?_)
    by_cases hp : p <+: e.1
    · obtain ⟨k, hk⟩ := hp
      have hpb : p.isPrefixOf e.1 = true :=
        List.isPrefixOf_iff_prefix.mpr (hk ▸ List.prefix_append p k)
      simp [stripEntry, ← hk]
    · have hpb : p.isPrefixOf e.1 = false := by
        rw [Bool.eq_false_iff]
        exact fun h => hp (List.isPrefixOf_iff_prefix.mp h)
      simp [hp, hpb]

/-- The entries a scan without an end answers. -/
def found (store : Keyspace) (lo : Bytes) (want : Option Nat) : List (Bytes × Bytes) :=
  takeWant want (store.range lo none)

/-- All keys are long enough to carry the prefix. -/
def AllLong (p : Bytes) (es : List (Bytes × Bytes)) : Prop := ∀ e ∈ es, p.length ≤ e.1.length

instance AllLong.decidable (p : Bytes) (es : List (Bytes × Bytes)) : Decidable (AllLong p es) :=
  inferInstanceAs (Decidable (∀ e ∈ es, p.length ≤ e.1.length))

theorem takeWant_map {want : Option Nat} {es : List (Bytes × Bytes)} :
    (takeWant want es).map (stripEntry p) = takeWant want (es.map (stripEntry p)) := by
  cases want with
  | none => rfl
  | some w => exact List.map_take

theorem stripAll_eq (n : Nat) (ks : List Bytes) :
    stripAll n ks = if ∀ k ∈ ks, n ≤ k.length then .ok (ks.map (List.drop n))
      else .error .slice := by
  induction ks with
  | nil => rfl
  | cons k ks ih =>
    rw [stripAll, ih, sliceFrom]
    by_cases hk : n ≤ k.length
    · by_cases hks : ∀ k ∈ ks, n ≤ k.length
      · have hall : ∀ x ∈ k :: ks, n ≤ x.length := by
          intro x hx
          rcases List.mem_cons.mp hx with rfl | hx
          · exact hk
          · exact hks x hx
        rw [if_pos hk, if_pos hks, if_pos hall]
        rfl
      · have hall : ¬ ∀ x ∈ k :: ks, n ≤ x.length := fun h =>
          hks fun x hx => h x (List.mem_cons_of_mem _ hx)
        rw [if_pos hk, if_neg hks, if_neg hall]
        rfl
    · have hall : ¬ ∀ x ∈ k :: ks, n ≤ x.length := fun h => hk (h k List.mem_cons_self)
      rw [if_neg hk, if_neg hall]
      rfl

/-- A page of a range without an end: the first of its entries, unless one of them is too
short to carry the prefix. -/
theorem streamPage_endless {store : Keyspace} {key lo : Bytes} {exclusive : Bool} {page : UInt8}
    (hlo : requestStart (some p) key exclusive = some lo) :
    streamPage (some p) store key none exclusive page
      = if AllLong p (found store lo (pageWant page)) then
        .ok ((found store lo (pageWant page)).map (stripEntry p), none,
          if some (found store lo (pageWant page)).length = pageWant page
          then tailMore else tailFinal)
      else .error .slice := by
  have htake : (store.range lo none).take (pageBudget store page) = found store lo (pageWant page) := by
    unfold pageBudget found
    cases pageWant page with
    | some w => rfl
    | none =>
      have hlen : (store.range lo none).length ≤ store.entries.length := List.length_filter_le _ _
      rw [Option.getD_none]
      exact List.take_of_length_le (by omega)
  have hloop := pageLoop_range (some p) store lo none page
  rw [requestStart] at hlo
  rw [Option.map_none, pageAnswer, Option.map_none, htake, prefixBytes, Option.getD_some] at hloop
  have hall : ((found store lo (pageWant page)).all fun e => decide (p.length ≤ e.1.length)) = true
      ↔ AllLong p (found store lo (pageWant page)) := by
    simp [AllLong]
  simp only [streamPage, hlo, prefixBytes, Option.getD_some, hloop]
  by_cases hlong : AllLong p (found store lo (pageWant page))
  · rw [if_pos (hall.mpr hlong), if_pos hlong]
    simp only [bind, Except.bind, List.length_map]
  · rw [if_neg (fun h => hlong (hall.mp h)), if_neg hlong]
    rfl

end Answers

/-! ## One op on one engine -/

section Ops

variable {p : Bytes}

/-- The state of a frame once its pending writes have landed. -/
def flushed (s : ExecState Keyspace) : ExecState Keyspace :=
  { s with engine := applyOps s.engine s.batch.ops, batch := {} }

theorem afterFlush_eq (s : ExecState Keyspace)
    (query : ExecState Keyspace → ExecStep Keyspace) : afterFlush s query = query (flushed s) := by
  unfold afterFlush flushPending flushed
  by_cases h : s.batch.ops = []
  · obtain ⟨engine, ⟨ops⟩, resp⟩ := s
    obtain rfl : ops = [] := h
    rfl
  · rw [if_neg h]
    rfl

theorem execOp_get (s : ExecState Keyspace) (key value : Bytes) :
    execOp (some p) s (opGet, key, value)
      = .next { flushed s with
          resp := { s.resp with value := (flushed s).engine.get (p ++ key) } } := by
  have htags : ¬ opGet = opPut ∧ ¬ opGet = opDelete := by decide
  simp only [execOp, if_neg htags.1, if_neg htags.2, if_true, afterFlush_eq]
  rfl

theorem execOp_unknown {tag : UInt8} (h : opScanStream < tag) (s : ExecState Keyspace)
    (key value : Bytes) : execOp (some p) s (tag, key, value) = .stop s.engine (.ok none) := by
  have hne : ∀ known, ¬ opScanStream < known → tag ≠ known := fun known hk heq => hk (heq ▸ h)
  simp only [execOp, if_neg (hne opPut (by decide)), if_neg (hne opDelete (by decide)),
    if_neg (hne opGet (by decide)), if_neg (hne opScan (by decide)),
    if_neg (hne opScanStream (by decide))]

theorem tag_cases (tag : UInt8) : tag = opPut ∨ tag = opDelete ∨ tag = opGet ∨ tag = opScan ∨
    tag = opScanStream ∨ opScanStream < tag := by
  have heq : ∀ known : UInt8, tag.toNat = known.toNat → tag = known :=
    fun known h => UInt8.toNat_inj.mp h
  by_cases h0 : tag.toNat = 0
  · exact Or.inl (heq opPut h0)
  by_cases h1 : tag.toNat = 1
  · exact Or.inr (Or.inl (heq opDelete h1))
  by_cases h2 : tag.toNat = 2
  · exact Or.inr (Or.inr (Or.inl (heq opGet h2)))
  by_cases h3 : tag.toNat = 3
  · exact Or.inr (Or.inr (Or.inr (Or.inl (heq opScan h3))))
  by_cases h4 : tag.toNat = 4
  · exact Or.inr (Or.inr (Or.inr (Or.inr (Or.inl (heq opScanStream h4)))))
  · refine Or.inr (Or.inr (Or.inr (Or.inr (Or.inr (UInt8.lt_iff_toNat_lt.mpr ?_)))))
    change 4 < tag.toNat
    omega

/-- The writes among the ops. -/
def sent (ops : List FrameOp) : List (Op Bytes Bytes) :=
  ops.filterMap fun op =>
    if op.1 = opPut then some (op.2.1, some op.2.2)
    else if op.1 = opDelete then some (op.2.1, none)
    else none

/-- The writes among the ops, under the prefix. -/
def hosted (p : Bytes) (ops : List FrameOp) : List (Op Bytes Bytes) :=
  (sent ops).map fun op => (p ++ op.1, op.2)

theorem hosted_append (ops ops' : List FrameOp) : hosted p (ops ++ ops') = hosted p ops ++ hosted p ops' := by
  rw [hosted, sent, List.filterMap_append, List.map_append]
  rfl

/-- A write joins the batch. -/
theorem execOp_mutation {op : FrameOp} (h : op.1 = opPut ∨ op.1 = opDelete) (s : ExecState Keyspace) :
    execOp (some p) s op = .next { s with batch := ⟨s.batch.ops ++ hosted p [op]⟩ } := by
  obtain ⟨tag, key, value⟩ := op
  rcases h with rfl | rfl
  · rfl
  · rfl

/-- A query writes nothing. -/
theorem hosted_query {op : FrameOp} (h : ¬ (op.1 = opPut ∨ op.1 = opDelete)) : hosted p [op] = [] := by
  rw [not_or] at h
  simp [hosted, sent, h.1, h.2]

theorem execOp_scan (s : ExecState Keyspace) (key value : Bytes) :
    execOp (some p) s (opScan, key, value)
      = match scanned (some p) (flushed s).engine key value with
        | .error e => .stop (flushed s).engine (.error e)
        | .ok (.ok keys) => .next { flushed s with resp := { s.resp with suffixes := keys } }
        | .ok (.error e) => .next { flushed s with
            resp := { s.resp with suffixes := [], fault := some (errorText e) } } := by
  have htags : ¬ opScan = opPut ∧ ¬ opScan = opDelete ∧ ¬ opScan = opGet := by decide
  simp only [execOp, if_neg htags.1, if_neg htags.2.1, if_neg htags.2.2, if_true, afterFlush_eq]
  rfl

theorem execOp_stream (s : ExecState Keyspace) (key value : Bytes) :
    execOp (some p) s (opScanStream, key, value)
      = match value.getLast? with
        | none => .stop (flushed s).engine (.ok none)
        | some page =>
          match streamBounds (some p) value with
          | .error e => .stop (flushed s).engine (.error e)
          | .ok none => .stop (flushed s).engine (.ok none)
          | .ok (some (stop, exclusive)) =>
            match streamPage (some p) (flushed s).engine key stop exclusive page with
            | .error e => .stop (flushed s).engine (.error e)
            | .ok (pairs, fault, tail) => .next { flushed s with resp := { s.resp with
                hits := pairs, tail := some tail, fault := fault.or s.resp.fault } } := by
  have htags : ¬ opScanStream = opPut ∧ ¬ opScanStream = opDelete ∧ ¬ opScanStream = opGet
      ∧ ¬ opScanStream = opScan := by decide
  simp only [execOp, if_neg htags.1, if_neg htags.2.1, if_neg htags.2.2.1, if_neg htags.2.2.2,
    if_true, afterFlush_eq]
  rfl

/-- **An op that stops stops on every engine, with one answer.** -/
theorem execOp_stops {op : FrameOp} (h : Stops p op) :
    ∃ answer, answer ≠ .error .slice ∧ (∀ resp, answer ≠ .ok (some resp)) ∧
      ∀ s : ExecState Keyspace, (execOp (some p) s op = .stop s.engine answer
        ∨ execOp (some p) s op = .stop (flushed s).engine answer) := by
  obtain ⟨tag, key, value⟩ := op
  rcases h with hlt | ⟨rfl, hshape⟩
  · exact ⟨.ok none, by simp, by simp, fun s => Or.inl (execOp_unknown hlt s key value)⟩
  · rcases streamShape_none hshape with hlast | ⟨e, hne, hbounds⟩ | hbounds
        | ⟨stop, exclusive, hbounds, hstart⟩
    · refine ⟨.ok none, by simp, by simp, fun s => Or.inr ?_⟩
      simp only [execOp_stream, hlast]
    · cases hlast : value.getLast? with
      | none =>
        refine ⟨.ok none, by simp, by simp, fun s => Or.inr ?_⟩
        simp only [execOp_stream, hlast]
      | some page =>
        refine ⟨.error e, by simpa using hne, by simp, fun s => Or.inr ?_⟩
        simp only [execOp_stream, hlast, hbounds]
    · refine ⟨.ok none, by simp, by simp, fun s => Or.inr ?_⟩
      cases hlast : value.getLast? with
      | none => simp only [execOp_stream, hlast]
      | some page => simp only [execOp_stream, hlast, hbounds]
    · cases hlast : value.getLast? with
      | none =>
        refine ⟨.ok none, by simp, by simp, fun s => Or.inr ?_⟩
        simp only [execOp_stream, hlast]
      | some page =>
        refine ⟨.error .expect, by simp, by simp, fun s => Or.inr ?_⟩
        rw [requestStart] at hstart
        simp only [execOp_stream, hlast, hbounds, streamPage, hstart]

/-- What a query with an end answers, over the tenant's own keyspace. -/
def tenantAnswer (p : Bytes) (op : FrameOp) (own : Keyspace) (resp : OpResponse) : OpResponse :=
  if op.1 = opGet then { resp with value := own.get op.2.1 }
  else if op.1 = opScan then { resp with suffixes := tenantScan own op.2.1 op.2.2 }
  else
    match streamShape p op.2.1 op.2.2 with
    | some (stop, lo, want) =>
      let hits := takeWant want ((own.range op.2.1 stop).filter fun e => decide (lo ≤ p ++ e.1))
      { resp with
        hits := hits, tail := some (if some hits.length = want then tailMore else tailFinal) }
    | none => resp

/-- **A query with an end answers from the tenant's own keys.** -/
theorem execOp_bounded {op : FrameOp} (hquery : ¬ (op.1 = opPut ∨ op.1 = opDelete))
    (hstop : ¬ Stops p op) (hend : endless p op = none) (s : ExecState Keyspace) :
    execOp (some p) s op = .next { flushed s with
      resp := tenantAnswer p op ((flushed s).engine.under p) s.resp } := by
  obtain ⟨tag, key, value⟩ := op
  rcases tag_cases tag with rfl | rfl | rfl | rfl | rfl | hunknown
  · exact absurd (Or.inl rfl) hquery
  · exact absurd (Or.inr rfl) hquery
  · rw [execOp_get, ← Keyspace.get_under]
    rfl
  · have hvalue : value ≠ [0x00] := by
      rintro rfl
      simp [endless] at hend
    simp only [execOp_scan, scanned_confined hvalue]
    rfl
  · have hshape : streamShape p key value ≠ none := fun h => hstop (Or.inr ⟨rfl, h⟩)
    obtain ⟨⟨stop, lo, want⟩, hshape⟩ := Option.ne_none_iff_exists'.mp hshape
    obtain ⟨exclusive, page, hlast, hbounds, hstart, rfl⟩ := streamShape_some hshape
    cases hstopped : stop with
    | none =>
      rw [hstopped] at hshape
      have hscan : opScanStream ≠ opScan := by decide
      simp [endless, hscan, hshape] at hend
    | some u =>
      have hconfined : Confined (some p) (flushed s).engine key (some u) := Or.inl rfl
      have hpage := streamPage_confined hconfined exclusive page
      rw [hstart] at hpage
      rw [hstopped] at hshape hbounds
      have htags : opScanStream ≠ opGet ∧ opScanStream ≠ opScan := by decide
      simp only [execOp_stream, hlast, hbounds, hpage, tenantAnswer, if_neg htags.1,
        if_neg htags.2, hshape, Option.none_or]
  · exact absurd (Or.inl hunknown) hstop

/-- What an endless scan answers, with the entries it found. -/
def answering (p : Bytes) (tag : UInt8) (want : Option Nat) (found : List (Bytes × Bytes))
    (resp : OpResponse) : OpResponse :=
  if tag = opScan then { resp with suffixes := (found.map (stripEntry p)).map Prod.fst }
  else
    { resp with
      hits := found.map (stripEntry p)
      tail := some (if some found.length = want then tailMore else tailFinal) }

/-- **An endless scan answers the first entries behind its start, whoever's they are**, and
aborts at one too short to carry the prefix. -/
theorem execOp_endless {op : FrameOp} {lo : Bytes} {want : Option Nat}
    (h : endless p op = some (lo, want)) (s : ExecState Keyspace) :
    execOp (some p) s op
      = if AllLong p (found (flushed s).engine lo want) then
        .next { flushed s with
          resp := answering p op.1 want (found (flushed s).engine lo want) s.resp }
      else .stop (flushed s).engine (.error .slice) := by
  obtain ⟨tag, key, value⟩ := op
  unfold endless at h
  dsimp only at h
  split at h
  · rename_i htag
    subst htag
    split at h
    · rename_i hvalue
      subst hvalue
      obtain ⟨rfl, rfl⟩ : p ++ key = lo ∧ none = want := by simpa using h
      -- a scan to the end of the engine: every key it finds is stripped
      have hstrip := stripAll_eq p.length (((flushed s).engine.range (p ++ key) none).map Prod.fst)
      have hall : (∀ k ∈ ((flushed s).engine.range (p ++ key) none).map Prod.fst, p.length ≤ k.length)
          ↔ AllLong p (found (flushed s).engine (p ++ key) none) := List.forall_mem_map
      simp only [execOp_scan, scanned, VirtualStorage.scanRange, hostedKey, prefixBytes,
        Option.getD_some, hstrip]
      by_cases hlong : AllLong p (found (flushed s).engine (p ++ key) none)
      · rw [if_pos (hall.mpr hlong), if_pos hlong]
        simp [Except.map, answering, found, takeWant, stripEntry, Function.comp_def]
      · rw [if_neg (fun h => hlong (hall.mp h)), if_neg hlong]
        rfl
    · cases h
  split at h
  · rename_i htag
    subst htag
    split at h
    · rename_i lo' want' hshape
      obtain ⟨rfl, rfl⟩ : lo' = lo ∧ want' = want := by simpa using h
      obtain ⟨exclusive, page, hlast, hbounds, hstart, rfl⟩ := streamShape_some hshape
      -- a page of such a scan, cut to its budget
      have hpage := @streamPage_endless p (flushed s).engine key lo' exclusive page hstart
      simp only [execOp_stream, hlast, hbounds, Option.map_none, hpage]
      by_cases hlong : AllLong p (found (flushed s).engine lo' (pageWant page))
      · rw [if_pos hlong, if_pos hlong]
        have htags : opScanStream ≠ opScan := by decide
        simp only [answering, if_neg htags, Option.none_or]
      · rw [if_neg hlong, if_neg hlong]
    · cases h
  · cases h

end Ops

/-! ## A frame on an engine of its own -/

section OneRun

variable {p : Bytes} {store : Keyspace} {frame : OpFrame}

/-- What holds while a frame of the tenant runs on `store`: foreign keys are as
they were, and whatever the tenant can read, has pending or has in its answer is
its own. -/
structure RunsOwn (p : Bytes) (store : Keyspace) (frame : OpFrame) (s : ExecState Keyspace) :
    Prop where
  foreign : ∀ k, ¬ p <+: k → s.engine.get k = store.get k
  stored : ∀ k v, s.engine.get (p ++ k) = some v → Own p store frame k v
  pending : ∀ op ∈ s.batch.ops, ∃ k, op.1 = p ++ k ∧ ∀ v, op.2 = some v → Own p store frame k v
  value : ∀ v, s.resp.value = some v → ∃ k, Own p store frame k v
  suffixes : ∀ x ∈ s.resp.suffixes, ∃ k v, x <:+ k ∧ Own p store frame k v
  hits : ∀ h ∈ s.resp.hits, Own p store frame h.1 h.2

/-- The same while an op stops the frame, or goes on. -/
def StepOwn (p : Bytes) (store : Keyspace) (frame : OpFrame) : ExecStep Keyspace → Prop
  | .next s => RunsOwn p store frame s
  | .stop engine answer => (∀ k, ¬ p <+: k → engine.get k = store.get k) ∧
      answer ≠ .error .slice ∧ ∀ resp, answer ≠ .ok (some resp)

theorem runsOwn_init : RunsOwn p store frame { engine := store } where
  foreign _ _ := rfl
  stored _ _ h := Or.inl h
  pending _ h := absurd h (List.not_mem_nil)
  value _ h := absurd h (by simp)
  suffixes _ h := absurd h (List.not_mem_nil)
  hits _ h := absurd h (List.not_mem_nil)

theorem RunsOwn.flush {s : ExecState Keyspace} (h : RunsOwn p store frame s) :
    RunsOwn p store frame (flushed s) where
  foreign k hk := by
    change (applyOps s.engine s.batch.ops).get k = _
    rw [get_applyOps_of_not_mem, h.foreign k hk]
    intro op hop heq
    obtain ⟨k', hk', -⟩ := h.pending op hop
    exact hk (heq ▸ hk' ▸ List.prefix_append p k')
  stored k v hget := by
    change (applyOps s.engine s.batch.ops).get (p ++ k) = some v at hget
    rw [get_applyOps, readThrough] at hget
    cases hp : Lib.pending s.batch.ops (p ++ k) with
    | none =>
      rw [hp] at hget
      exact h.stored k v hget
    | some w =>
      rw [hp, Option.getD_some] at hget
      subst hget
      obtain ⟨k', hk', hown⟩ := h.pending _ (mem_of_pending hp)
      obtain rfl := List.append_cancel_left hk'
      exact hown v rfl
  pending _ hop := absurd hop (List.not_mem_nil)
  value := h.value
  suffixes := h.suffixes
  hits := h.hits

/-- The entries of a tenant's own engine are its own. -/
theorem RunsOwn.own {s : ExecState Keyspace} (h : RunsOwn p store frame s) (hown : OwnOnly p store)
    {e : Bytes × Bytes} (he : e ∈ s.engine.entries) : ∃ k, e.1 = p ++ k ∧ Own p store frame k e.2 := by
  have hget := (s.engine.get_eq_some_iff e.1 e.2).mpr he
  have hp : p <+: e.1 := by
    by_contra hp
    rw [h.foreign e.1 hp] at hget
    exact hp (hown e ((store.get_eq_some_iff e.1 e.2).mp hget))
  obtain ⟨k, hk⟩ := hp
  rw [← hk] at hget
  exact ⟨k, hk.symm, h.stored k e.2 hget⟩

theorem execOp_own (hown : OwnOnly p store) {op : FrameOp} (hop : op ∈ frame.ops)
    {s : ExecState Keyspace} (h : RunsOwn p store frame s) :
    StepOwn p store frame (execOp (some p) s op) := by
  have hf := h.flush
  by_cases hstop : Stops p op
  · obtain ⟨answer, hne, hno, heq⟩ := execOp_stops hstop
    rcases heq s with heq | heq
    · rw [heq]
      exact ⟨h.foreign, hne, hno⟩
    · rw [heq]
      exact ⟨hf.foreign, hne, hno⟩
  by_cases hwrite : op.1 = opPut ∨ op.1 = opDelete
  · rw [execOp_mutation hwrite]
    refine { h with pending := fun o ho => ?_ }
    rcases List.mem_append.mp ho with hold | hnew
    · exact h.pending o hold
    · obtain ⟨tag, key, value⟩ := op
      rcases hwrite with rfl | rfl
      · obtain rfl := List.mem_singleton.mp hnew
        exact ⟨key, rfl, fun v hv => Or.inr (Option.some.inj hv ▸ hop)⟩
      · obtain rfl := List.mem_singleton.mp hnew
        exact ⟨key, rfl, fun v hv => absurd hv (by simp)⟩
  cases hend : endless p op with
  | none =>
    rw [execOp_bounded hwrite hstop hend]
    have hread : ∀ k v, ((flushed s).engine.under p).get k = some v → Own p store frame k v :=
      fun k v hk => hf.stored k v (by rwa [Keyspace.get_under] at hk)
    -- one field of the answer is new, and it is read from the tenant's own keys
    unfold tenantAnswer
    split
    · exact { hf with value := fun v hv => ⟨op.2.1, hread op.2.1 v hv⟩ }
    split
    · refine { hf with suffixes := fun x hx => ?_ }
      obtain ⟨k, v, hxk, hget⟩ := mem_tenantScan hx
      exact ⟨k, v, hxk, hread k v hget⟩
    split
    · refine { hf with hits := fun x hx => ?_ }
      have hx' := (List.mem_filter.mp (takeWant_subset hx)).1
      rw [SortedMap.mem_range] at hx'
      exact hread x.1 x.2 hx'.1
    · exact hf
  | some shape =>
    obtain ⟨lo, want⟩ := shape
    have hfound : ∀ e ∈ found (flushed s).engine lo want,
        ∃ k, e.1 = p ++ k ∧ Own p store frame k e.2 := by
      intro e he
      exact hf.own hown (List.mem_filter.mp (takeWant_subset he)).1
    have hlong : AllLong p (found (flushed s).engine lo want) := by
      intro e he
      obtain ⟨k, hk, -⟩ := hfound e he
      rw [hk, List.length_append]
      exact Nat.le_add_right _ _
    have hstrip : ∀ x ∈ (found (flushed s).engine lo want).map (stripEntry p),
        Own p store frame x.1 x.2 := by
      intro x hx
      obtain ⟨e, he, rfl⟩ := List.mem_map.mp hx
      obtain ⟨k, hk, how⟩ := hfound e he
      rw [stripEntry, hk, List.drop_left]
      exact how
    rw [execOp_endless hend, if_pos hlong, answering]
    split
    · refine { hf with suffixes := fun x hx => ?_ }
      obtain ⟨e, he, rfl⟩ := List.mem_map.mp hx
      exact ⟨e.1, e.2, List.suffix_refl _, hstrip e he⟩
    · exact { hf with hits := hstrip }

theorem execOps_own (hown : OwnOnly p store) {ops : List FrameOp} (hsub : ∀ op ∈ ops, op ∈ frame.ops)
    {s : ExecState Keyspace} (h : RunsOwn p store frame s) :
    StepOwn p store frame (execOps (some p) s ops) := by
  induction ops generalizing s with
  | nil => exact h
  | cons op ops ih =>
    have hstep := execOp_own hown (hsub op (by simp)) h
    unfold execOps
    cases hs : execOp (some p) s op with
    | next s' =>
      rw [hs] at hstep
      exact ih (fun o ho => hsub o (by simp [ho])) hstep
    | stop engine answer =>
      rw [hs] at hstep
      exact hstep

/-- What a frame answers on an engine of the tenant's own is the tenant's own. -/
theorem applyFrame_own (hown : OwnOnly p store) :
    (applyFrame (some p) store frame).1 ≠ .error .slice ∧
    ∀ resp, (applyFrame (some p) store frame).1 = .ok (some resp) →
      (∀ v, resp.value = some v → ∃ k, Own p store frame k v)
      ∧ (∀ x ∈ resp.suffixes, ∃ k v, x <:+ k ∧ Own p store frame k v)
      ∧ ∀ h ∈ resp.hits, Own p store frame h.1 h.2 := by
  have hinit : RunsOwn p store frame { engine := store } := runsOwn_init
  have hrun := execOps_own hown (fun _ h => h) hinit
  unfold applyFrame
  cases hs : execOps (some p) { engine := store } frame.ops with
  | next s =>
    rw [hs] at hrun
    refine ⟨by simp [execFinish, VirtualStorage.commitBatch], fun resp hresp => ?_⟩
    obtain rfl : s.resp = resp := by
      simpa [execFinish, VirtualStorage.commitBatch] using hresp
    exact ⟨hrun.value, hrun.suffixes, hrun.hits⟩
  | stop engine answer =>
    rw [hs] at hrun
    exact ⟨hrun.2.1, fun resp hresp => absurd hresp (hrun.2.2 resp)⟩

end OneRun

/-! ## What a frame writes -/

section Writes

variable {p : Bytes} {store : Keyspace}

/-- **An op that goes on leaves its writes, and nothing else, to land.** -/
theorem execOp_writes {op : FrameOp} {s s' : ExecState Keyspace}
    (h : execOp (some p) s op = .next s') :
    (flushed s').engine = applyOps (flushed s).engine (hosted p [op])
      ∧ (s'.engine = s.engine ∨ s'.engine = (flushed s).engine) := by
  by_cases hstop : Stops p op
  · obtain ⟨answer, -, -, heq⟩ := execOp_stops hstop
    rcases heq s with heq | heq
    · rw [heq] at h
      cases h
    · rw [heq] at h
      cases h
  by_cases hwrite : op.1 = opPut ∨ op.1 = opDelete
  · rw [execOp_mutation hwrite] at h
    obtain rfl := ExecStep.next.inj h
    exact ⟨applyOps_append _ _ _, Or.inl rfl⟩
  have hquery : ∀ resp, s' = { flushed s with resp := resp } →
      (flushed s').engine = applyOps (flushed s).engine (hosted p [op])
        ∧ (s'.engine = s.engine ∨ s'.engine = (flushed s).engine) := by
    rintro resp rfl
    rw [hosted_query hwrite]
    exact ⟨rfl, Or.inr rfl⟩
  cases hend : endless p op with
  | none =>
    rw [execOp_bounded hwrite hstop hend] at h
    exact hquery _ (ExecStep.next.inj h).symm
  | some shape =>
    obtain ⟨lo, want⟩ := shape
    rw [execOp_endless hend] at h
    split at h
    · exact hquery _ (ExecStep.next.inj h).symm
    · cases h

/-- Wherever an op leaves the function, only its predecessors' writes may have landed. -/
theorem execOp_stopped {op : FrameOp} {s : ExecState Keyspace} {engine : Keyspace}
    {answer : Except Panic (Option OpResponse)} (h : execOp (some p) s op = .stop engine answer) :
    engine = s.engine ∨ engine = (flushed s).engine := by
  by_cases hstop : Stops p op
  · obtain ⟨answer', -, -, heq⟩ := execOp_stops hstop
    rcases heq s with heq | heq
    · rw [heq] at h
      exact Or.inl (ExecStep.stop.inj h).1.symm
    · rw [heq] at h
      exact Or.inr (ExecStep.stop.inj h).1.symm
  by_cases hwrite : op.1 = opPut ∨ op.1 = opDelete
  · rw [execOp_mutation hwrite] at h
    cases h
  cases hend : endless p op with
  | none =>
    rw [execOp_bounded hwrite hstop hend] at h
    cases h
  | some shape =>
    obtain ⟨lo, want⟩ := shape
    rw [execOp_endless hend] at h
    split at h
    · cases h
    · exact Or.inr (ExecStep.stop.inj h).1.symm

/-- The tenant's writes land under its prefix. -/
theorem get_hosted (ops : List FrameOp) (store : Keyspace) {k : Bytes} (hk : ¬ p <+: k) :
    (applyOps store (hosted p ops)).get k = store.get k := by
  refine get_applyOps_of_not_mem store fun op hop heq => ?_
  obtain ⟨o, -, rfl⟩ := List.mem_map.mp hop
  exact hk (heq ▸ List.prefix_append p o.1)

/-- Foreign keys are as they were, before and after what is pending lands. -/
structure KeepsForeign (p : Bytes) (store : Keyspace) (s : ExecState Keyspace) : Prop where
  now : ∀ k, ¬ p <+: k → s.engine.get k = store.get k
  landed : ∀ k, ¬ p <+: k → (flushed s).engine.get k = store.get k

theorem execOps_foreign (ops : List FrameOp) {s : ExecState Keyspace}
    (h : KeepsForeign p store s) :
    match execOps (some p) s ops with
    | .next s => KeepsForeign p store s
    | .stop engine _ => ∀ k, ¬ p <+: k → engine.get k = store.get k := by
  induction ops generalizing s with
  | nil => exact h
  | cons op ops ih =>
    unfold execOps
    cases hs : execOp (some p) s op with
    | next s' =>
      obtain ⟨hwrites, hnow⟩ := execOp_writes hs
      refine ih ⟨?_, fun k hk => ?_⟩
      · rcases hnow with hnow | hnow
        · rw [hnow]
          exact h.now
        · rw [hnow]
          exact h.landed
      · rw [hwrites, get_hosted [op] _ hk]
        exact h.landed k hk
    | stop engine answer =>
      rcases execOp_stopped hs with rfl | rfl
      · exact h.now
      · exact h.landed

/-- **No frame of a tenant, whatever it holds, changes a foreign key.** -/
theorem apply_foreign (p : Bytes) (store : Keyspace) (bytes : Bytes) {k : Bytes}
    (hk : ¬ p <+: k) : (apply (some p) store bytes).2.get k = store.get k := by
  unfold apply
  cases OpFrame.decode bytes with
  | none => rfl
  | some frame =>
    have hstart : KeepsForeign p store { engine := store } := ⟨fun _ _ => rfl, fun _ _ => rfl⟩
    have h := execOps_foreign frame.ops hstart
    simp only [applyFrame]
    cases hs : execOps (some p) { engine := store } frame.ops with
    | next s => rw [hs] at h; exact h.landed k hk
    | stop engine answer => rw [hs] at h; exact h k hk

end Writes

end Okm.Engine
