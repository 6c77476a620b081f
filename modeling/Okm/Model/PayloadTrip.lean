import Okm.Model.PayloadFields

/-!
# What the payload codec keeps

The walks over a declaration. The hot walk is told the length of its segment and finds every
field in it; the cold walk finds the tag of each variable-width field in front of it, because
the writer left none out. `round_trips_iff` puts them together: a row comes back, and its
frames announce what they hold, exactly when each of its values is regular.
-/

namespace Okm.Model

open Lib

variable {checked : Bool}

/-! ## The hot segment -/

theorem PayloadKind.width_of_cold {kind : PayloadKind} (h : kind.hot = false) : kind.width = 0 := by
  cases kind with
  | plain kind =>
    cases kind with
    | fixedBytes n =>
      have hzero : n = 0 := by simpa [PayloadKind.hot, FieldKind.hot] using h
      exact hzero
    | str | bytes | varInt | vector | refs => rfl
    | _ => cases h
  | texts okLen => rfl

/-- The bytes of the hot segment. -/
def hotWidth (fields : List PayloadField) : Nat := (fields.map fun f => f.kind.width).sum

/-- **The hot walk reads the segment that was written.** -/
theorem hotWalk_hotSegment {cells : List PayloadCell} (hfits : ∀ c ∈ cells, c.value.Fits) :
    ∃ hot, hotSegment checked cells = .ok hot
      ∧ hot.length = hotWidth (cells.map PayloadCell.field)
      ∧ ∀ rest, hotWalk checked hot.length (hot ++ rest) (cells.map PayloadCell.field)
          = .ok ((cells.filter PayloadCell.hot).map PayloadCell.stored) := by
  induction cells with
  | nil => exact ⟨[], rfl, rfl, fun rest => rfl⟩
  | cons c cells ih =>
    obtain ⟨hfit, hcells⟩ := List.forall_mem_cons.mp hfits
    obtain ⟨hot, hwritten, hlen, hread⟩ := ih hcells
    have hwidth : hotWidth ((c :: cells).map PayloadCell.field)
        = c.field.kind.width + hotWidth (cells.map PayloadCell.field) := by
      rw [hotWidth, List.map_cons, List.map_cons, List.sum_cons, hotWidth]
    by_cases hhot : c.hot = true
    · have hkind : c.field.kind.hot = true := hhot
      obtain ⟨b, hb⟩ := @PayloadValue.kept_of_hot checked _ _ hkind hfit
      have hsum : (b ++ hot).length - c.field.kind.width = hot.length := by
        rw [List.length_append, hb.taken]
        omega
      refine ⟨b ++ hot, ?_, ?_, fun rest => ?_⟩
      · rw [hotSegment, if_pos hhot, hb.written, hwritten]
        rfl
      · rw [List.length_append, hb.taken, hlen, hwidth]
      · rw [List.map_cons, hotWalk, if_pos hkind,
          if_pos (by rw [List.length_append, hb.taken]; omega), List.append_assoc,
          hb.read (hot ++ rest), hsum]
        change (hotWalk checked hot.length (hot ++ rest) _ >>= _) = _
        rw [hread rest, List.filter_cons_of_pos hhot]
        rfl
    · have hkind : ¬ c.field.kind.hot = true := hhot
      refine ⟨hot, ?_, ?_, fun rest => ?_⟩
      · rw [hotSegment, if_neg hhot, hwritten]
      · rw [hlen, hwidth, PayloadKind.width_of_cold (by simpa using hkind), Nat.zero_add]
      · rw [List.map_cons, hotWalk, if_neg hkind, hread rest, List.filter_cons_of_neg hhot]

/-! ## The cold segment -/

/-- A frame announces the bytes it has. -/
def ColdFrame.Announces (f : ColdFrame) : Prop :=
  takeLen (f.len ++ f.value) = some (f.value.length, f.len.length)

@[simp] theorem ColdFrame.head?_bytes (f : ColdFrame) (rest : Bytes) :
    (f.bytes ++ rest).head? = some f.tag := rfl

@[simp] theorem ColdFrame.tail_bytes (f : ColdFrame) (rest : Bytes) :
    (f.bytes ++ rest).tail = f.len ++ (f.value ++ rest) := List.append_assoc _ _ _

/-- What a frame announces is read whatever stands behind it. -/
theorem ColdFrame.Announces.read {f : ColdFrame} (h : f.Announces) (rest : Bytes) :
    takeLen (f.len ++ rest) = some (f.value.length, f.len.length) := by
  have hfront := (takeLen_front h).2 rest
  rwa [List.take_left] at hfront

/-- The fields whose frames are written. -/
def coldOf (cells : List PayloadCell) : List PayloadCell := cells.filter fun c => !c.hot

theorem coldOf_cons_of_hot {c : PayloadCell} (h : c.hot = true) (cells : List PayloadCell) :
    coldOf (c :: cells) = coldOf cells :=
  List.filter_cons_of_neg (by simp [h])

theorem coldOf_cons_of_cold {c : PayloadCell} (h : ¬ c.hot = true) (cells : List PayloadCell) :
    coldOf (c :: cells) = c :: coldOf cells :=
  List.filter_cons_of_pos (by simpa using h)

theorem frame_eq_ok {i : Nat} {c : PayloadCell} {frame : ColdFrame} :
    c.frame checked i = .ok frame ↔ ∃ n, c.value.lenExpr checked = .ok n
      ∧ putLenIn checked n = .ok frame.len ∧ c.value.encode checked = .ok frame.value
      ∧ frame.tag = UInt8.ofNat i := by
  constructor
  · intro h
    obtain ⟨n, hn, h⟩ := bind_eq_ok.mp h
    obtain ⟨len, hlen, h⟩ := bind_eq_ok.mp h
    obtain ⟨value, hvalue, h⟩ := bind_eq_ok.mp h
    obtain rfl := Except.ok.inj h
    exact ⟨n, hn, hlen, hvalue, rfl⟩
  · intro h
    obtain ⟨n, hn, hlen, hvalue, htag⟩ := h
    rw [PayloadCell.frame, hn]
    change (putLenIn checked n >>= _) = _
    rw [hlen]
    change (c.value.encode checked >>= _) = _
    rw [hvalue, ← htag]
    rfl

/-- The frame of a regular field is written, announces what it has and is read. -/
theorem frame_of_regular {c : PayloadCell} (hcold : ¬ c.hot = true) (hfits : c.value.Fits)
    (hregular : c.value.Regular) (i : Nat) :
    ∃ frame, c.frame checked i = .ok frame ∧ frame.Announces
      ∧ ∀ rest fields, coldWalk checked i (frame.bytes ++ rest) (c.field :: fields) = (do
        let cells ← coldWalk checked (i + 1) rest fields
        .ok (c.stored :: cells)) := by
  have hkind : ¬ c.field.kind.hot = true := hcold
  obtain ⟨b, hb, hannounced⟩ :=
    @PayloadValue.kept_of_regular checked _ _ (by simpa using hkind) hfits hregular
  have hlt : b.length < 2 ^ 64 := lt_trans hannounced.short (by omega)
  have hlen := @putLenIn_eq checked _ hannounced.width
  have hread := takeLen_putLen_width hlt hannounced.width b
  rw [← length_putLen_width hlt] at hread
  refine ⟨⟨UInt8.ofNat i, putLen b.length, b⟩,
    frame_eq_ok.mpr ⟨_, hannounced.counted, hlen, hb.written, rfl⟩, hread, fun rest fields => ?_⟩
  rw [coldWalk, if_neg hkind, if_pos (ColdFrame.head?_bytes _ rest), ColdFrame.tail_bytes,
    takeLenIn_putLen hlt hannounced.width]
  change (c.field.kind.decode checked b.length (List.drop (putLen b.length).length _) >>= _) = _
  rw [List.drop_left, hb.read rest]
  rfl

/-- **The cold walk reads the frames that were written.** -/
theorem coldWalk_coldFrames {cells : List PayloadCell} (hfits : ∀ c ∈ cells, c.value.Fits)
    (hregular : ∀ c ∈ cells, c.value.Regular) (i : Nat) :
    ∃ frames, coldFrames checked i cells = .ok frames ∧ (∀ frame ∈ frames, frame.Announces)
      ∧ coldWalk checked i (frames.flatMap ColdFrame.bytes) (cells.map PayloadCell.field)
        = .ok ((coldOf cells).map PayloadCell.stored) := by
  induction cells generalizing i with
  | nil => exact ⟨[], rfl, by simp, rfl⟩
  | cons c cells ih =>
    obtain ⟨hfit, hfits⟩ := List.forall_mem_cons.mp hfits
    obtain ⟨hreg, hregular⟩ := List.forall_mem_cons.mp hregular
    obtain ⟨frames, hframes, hannounce, hwalk⟩ := ih hfits hregular (i + 1)
    by_cases hhot : c.hot = true
    · have hkind : c.field.kind.hot = true := hhot
      refine ⟨frames, ?_, hannounce, ?_⟩
      · rw [coldFrames, if_pos hhot, hframes]
      · rw [List.map_cons, coldWalk, if_pos hkind, hwalk, coldOf_cons_of_hot hhot]
    · obtain ⟨frame, hframe, hfirst, hread⟩ :=
        @frame_of_regular checked _ hhot hfit hreg i
      refine ⟨frame :: frames, ?_, List.forall_mem_cons.mpr ⟨hfirst, hannounce⟩, ?_⟩
      · rw [coldFrames, if_neg hhot, hframe]
        change (coldFrames checked (i + 1) cells >>= _) = _
        rw [hframes]
        rfl
      · rw [List.flatMap_cons, List.map_cons, hread, hwalk, coldOf_cons_of_cold hhot]
        rfl

/-- **Frames that announce what they have and give the row back are of regular values.** -/
theorem regular_of_coldWalk {cells : List PayloadCell} (hfits : ∀ c ∈ cells, c.value.Fits) {i : Nat}
    {frames : List ColdFrame} (hframes : coldFrames checked i cells = .ok frames)
    (hannounce : ∀ frame ∈ frames, frame.Announces)
    (hwalk : coldWalk checked i (frames.flatMap ColdFrame.bytes) (cells.map PayloadCell.field)
      = .ok ((coldOf cells).map PayloadCell.stored)) :
    ∀ c ∈ cells, c.value.Regular := by
  induction cells generalizing i frames with
  | nil => simp
  | cons c cells ih =>
    obtain ⟨hfit, hfits⟩ := List.forall_mem_cons.mp hfits
    by_cases hhot : c.hot = true
    · have hkind : c.field.kind.hot = true := hhot
      rw [coldFrames, if_pos hhot] at hframes
      rw [List.map_cons, coldWalk, if_pos hkind, coldOf_cons_of_hot hhot] at hwalk
      exact List.forall_mem_cons.mpr
        ⟨PayloadValue.regular_of_hot hkind, ih hfits hframes hannounce hwalk⟩
    · have hkind : ¬ c.field.kind.hot = true := hhot
      rw [coldFrames, if_neg hhot] at hframes
      obtain ⟨frame, hframe, hframes⟩ := bind_eq_ok.mp hframes
      obtain ⟨frames, hrest, hframes⟩ := bind_eq_ok.mp hframes
      obtain rfl := Except.ok.inj hframes
      obtain ⟨hfirst, hannounce⟩ := List.forall_mem_cons.mp hannounce
      obtain ⟨n, hcounted, hlen, hvalue, htag⟩ := frame_eq_ok.mp hframe
      have hhead : (frame.bytes ++ frames.flatMap ColdFrame.bytes).head? = some (UInt8.ofNat i) :=
        htag ▸ ColdFrame.head?_bytes frame _
      rw [List.flatMap_cons, List.map_cons, coldWalk, if_neg hkind, if_pos hhead,
        ColdFrame.tail_bytes, coldOf_cons_of_cold hhot] at hwalk
      obtain ⟨⟨len, took⟩, htake, hwalk⟩ := bind_eq_ok.mp hwalk
      obtain ⟨rfl, rfl⟩ : frame.value.length = len ∧ frame.len.length = took := by
        have hread := (hfirst.read _).symm.trans (takeLen_of_in htake)
        exact Prod.mk.inj (Option.some.inj hread)
      obtain ⟨⟨v, tail⟩, hread, hwalk⟩ := bind_eq_ok.mp hwalk
      obtain ⟨back, hback, hwalk⟩ := bind_eq_ok.mp hwalk
      obtain ⟨hcell, rfl⟩ := List.cons.inj (Except.ok.inj hwalk)
      obtain rfl : v = c.value.stored := eq_of_heq (PayloadCell.mk.inj hcell).2
      rw [List.drop_left] at hread
      have hregular : c.value.Regular :=
        PayloadValue.regular_of_read (by simpa using hkind) hfit hvalue hcounted
          (putLenIn_ok hlen ▸ hfirst) hread
      -- a regular field takes its own bytes, so the walk stands before the next frame
      obtain ⟨b, hb, -⟩ :=
        @PayloadValue.kept_of_regular checked _ _ (by simpa using hkind) hfit hregular
      obtain rfl : b = frame.value := Except.ok.inj (hb.written.symm.trans hvalue)
      obtain ⟨-, rfl⟩ := Prod.mk.inj (Except.ok.inj ((hb.read _).symm.trans hread))
      exact List.forall_mem_cons.mpr ⟨hregular, ih hfits hrest hannounce hback⟩

/-! ## The row -/

/-- A cold walk answers for each cold field. -/
theorem length_coldWalk {cells back : List PayloadCell} {i : Nat} {b : Bytes}
    (h : coldWalk checked i b (cells.map PayloadCell.field) = .ok back) :
    back.length = (coldOf cells).length := by
  induction cells generalizing i b back with
  | nil =>
    obtain rfl := Except.ok.inj h
    rfl
  | cons c cells ih =>
    by_cases hhot : c.hot = true
    · have hkind : c.field.kind.hot = true := hhot
      rw [List.map_cons, coldWalk, if_pos hkind] at h
      rw [ih h, coldOf_cons_of_hot hhot]
    · have hkind : ¬ c.field.kind.hot = true := hhot
      rw [List.map_cons, coldWalk, if_neg hkind] at h
      rw [coldOf_cons_of_cold hhot, List.length_cons]
      split at h
      · obtain ⟨⟨len, took⟩, -, h⟩ := bind_eq_ok.mp h
        obtain ⟨⟨v, tail⟩, -, h⟩ := bind_eq_ok.mp h
        obtain ⟨cells', hcells', h⟩ := bind_eq_ok.mp h
        rw [← Except.ok.inj h, List.length_cons, ih hcells']
      · obtain ⟨cells', hcells', h⟩ := bind_eq_ok.mp h
        rw [← Except.ok.inj h, List.length_cons, ih hcells']

/-- The two walks of a row make up the row, and no other cold walk does. -/
theorem gather_eq {cells cold : List PayloadCell} (hlen : cold.length = (coldOf cells).length) :
    gather (cells.map PayloadCell.field) ((cells.filter PayloadCell.hot).map PayloadCell.stored) cold
        = cells.map PayloadCell.stored
      ↔ cold = (coldOf cells).map PayloadCell.stored := by
  induction cells generalizing cold with
  | nil =>
    obtain rfl := List.length_eq_zero_iff.mp hlen
    exact iff_of_true rfl rfl
  | cons c cells ih =>
    by_cases hhot : c.hot = true
    · have hkind : c.field.kind.hot = true := hhot
      rw [coldOf_cons_of_hot hhot] at hlen ⊢
      rw [List.filter_cons_of_pos hhot, List.map_cons, List.map_cons, gather, if_pos hkind]
      change c.stored :: gather _ _ _ = c.stored :: _ ↔ _
      rw [List.cons_inj_right, List.tail_cons, ih hlen]
    · have hkind : ¬ c.field.kind.hot = true := hhot
      rw [coldOf_cons_of_cold hhot] at hlen ⊢
      obtain ⟨d, cold, rfl⟩ := List.exists_cons_of_length_eq_add_one hlen
      rw [List.filter_cons_of_neg hhot, List.map_cons, gather, if_neg hkind]
      change d :: gather _ _ cold = c.stored :: _ ↔ _
      rw [List.map_cons, List.cons.injEq, List.cons.injEq, ih (by simpa using hlen)]

/-- The decoder on what was written: the two walks, each over its segment. -/
theorem decodePayload_payloadBytes {decl : PayloadDecl} {cells : List PayloadCell}
    (hfields : cells.map PayloadCell.field = decl.fields) (hfits : ∀ c ∈ cells, c.value.Fits)
    (hsmall : hotWidth decl.fields < 2 ^ 16) {hot : Bytes}
    (hhot : hotSegment checked cells = .ok hot) (frames : List ColdFrame) :
    decl.decodePayload checked (payloadBytes decl.version hot frames) = (do
      let cold ← coldWalk checked 0 (frames.flatMap ColdFrame.bytes) decl.fields
      .ok (gather decl.fields ((cells.filter PayloadCell.hot).map PayloadCell.stored) cold)) := by
  obtain ⟨hot', hwritten, hlen, hread⟩ := @hotWalk_hotSegment checked _ hfits
  obtain rfl : hot' = hot := Except.ok.inj (hwritten.symm.trans hhot)
  rw [hfields] at hlen hread
  have hcount : beNat (beBytes 2 hot'.length) = hot'.length := beNat_beBytes (by omega)
  rw [payloadBytes, PayloadDecl.decodePayload, if_neg (lt_irrefl decl.version),
    sliceOff_append (length_beBytes 2 _)]
  change (hotWalk checked (beNat (beBytes 2 hot'.length)) _ _ >>= _) = _
  rw [hcount, hread]
  change (coldWalk checked 0 (List.drop hot'.length _) _ >>= _) = _
  rw [List.drop_left]

theorem encodePayload_eq_ok {decl : PayloadDecl} {cells : List PayloadCell} {hot : Bytes}
    {frames : List ColdFrame} (hhot : hotSegment checked cells = .ok hot)
    (hframes : coldFrames checked 0 cells = .ok frames) :
    decl.encodePayload checked cells = .ok (payloadBytes decl.version hot frames) := by
  rw [PayloadDecl.encodePayload, hhot]
  change (coldFrames checked 0 cells >>= _) = _
  rw [hframes]
  rfl

variable {decl : PayloadDecl} {row : PayloadRow decl}

theorem regular_of_roundTrips (h : decl.RoundTrips checked row) :
    ∀ c ∈ row.cells, c.value.Regular := by
  obtain ⟨hot, frames, hhot, hframes, -, hannounce, hread⟩ := h
  rw [decodePayload_payloadBytes row.fields row.fits row.hotFits hhot] at hread
  obtain ⟨cold, hcold, hgather⟩ := bind_eq_ok.mp hread
  rw [← row.fields] at hcold hgather
  have hlen := length_coldWalk hcold
  rw [(gather_eq hlen).mp (Except.ok.inj hgather)] at hcold
  exact regular_of_coldWalk row.fits hframes hannounce hcold

/-- **The payload codec round trips exactly on regular rows**, in either build: on those with
no length and no `VarInt` of width eight, no list of `2 ^ 32` items, and lists of texts whose
lengths take four bytes each on the whole. -/
theorem round_trips_iff (checked : Bool) (decl : PayloadDecl) (row : PayloadRow decl) :
    decl.RoundTrips checked row ↔ ∀ c ∈ row.cells, c.value.Regular := by
  refine ⟨regular_of_roundTrips, fun hregular => ?_⟩
  obtain ⟨hot, hhot, -, -⟩ := @hotWalk_hotSegment checked _ row.fits
  obtain ⟨frames, hframes, hannounce, hwalk⟩ :=
    @coldWalk_coldFrames checked _ row.fits hregular 0
  refine ⟨hot, frames, hhot, hframes, encodePayload_eq_ok hhot hframes, hannounce, ?_⟩
  rw [decodePayload_payloadBytes row.fields row.fits row.hotFits hhot, ← row.fields, hwalk]
  refine congrArg Except.ok ((gather_eq ?_).mpr rfl)
  rw [List.length_map]

/-! ## One number -/

/-- A declaration of one `VarInt<u64>`. -/
def oneNumber : PayloadDecl where
  version := 1
  fields := [⟨"seen", .plain (.varInt .u64), .plain (.varInt 0)⟩]
  tagged := by decide

/-- A row with a number of fifty-one bits. -/
def wideNumber : PayloadRow oneNumber where
  cells := [⟨⟨"seen", .plain (.varInt .u64), .plain (.varInt 0)⟩, .plain (.varInt (2 ^ 50))⟩]
  fields := rfl
  fits c hc := by
    obtain rfl := List.mem_singleton.mp hc
    trivial
  hotFits := by decide

/-- A number of width eight does not come back, in either build. -/
theorem wide_number_lost :
    ¬ oneNumber.RoundTrips true wideNumber ∧ ¬ oneNumber.RoundTrips false wideNumber := by
  have hwidth : widthOf (2 ^ 50) = 8 := by decide +kernel
  have hlost : ∀ checked, ¬ oneNumber.RoundTrips checked wideNumber := by
    intro checked h
    have hregular := regular_of_roundTrips h _ (List.mem_singleton.mpr rfl)
    exact hregular hwidth
  exact ⟨hlost true, hlost false⟩

/-! ## Documents of the map bridge -/

/-- A cell of a document as the codec has it. -/
def Cell.payload (c : Cell) : PayloadCell :=
  ⟨⟨c.field.name, .plain c.field.kind, .plain c.field.dflt⟩, .plain c.value⟩

theorem segment_hot (i : Nat) (cells : List Cell) :
    segment checked true i cells = hotSegment checked (cells.map Cell.payload) := by
  induction cells generalizing i with
  | nil => rfl
  | cons c cells ih =>
    rw [List.map_cons, segment, hotSegment]
    by_cases hhot : c.field.kind.hot = true
    · have hcell : c.payload.hot = true := hhot
      rw [if_pos hhot, if_pos hcell, FieldValue.frame_of_hot hhot, ih]
      rfl
    · have hcell : ¬ c.payload.hot = true := hhot
      rw [if_neg hhot, if_neg hcell, ih]

/-- A frame counted by what it holds is the frame the arm counts. -/
theorem frame_iff {c : Cell} (hcold : c.field.kind.hot = false) {i : Nat} {b : Bytes} :
    c.value.frame checked (UInt8.ofNat i) = .ok b
      ↔ ∃ frame, c.payload.frame checked i = .ok frame ∧ frame.bytes = b := by
  rw [FieldValue.frame, if_neg (by rw [hcold]; decide)]
  constructor
  · intro h
    obtain ⟨body, hbody, h⟩ := bind_eq_ok.mp h
    obtain ⟨len, hlen, h⟩ := bind_eq_ok.mp h
    refine ⟨⟨UInt8.ofNat i, len, body⟩, frame_eq_ok.mpr ?_, Except.ok.inj h⟩
    exact ⟨body.length, lenExpr_of_encode hcold hbody, hlen, hbody, rfl⟩
  · intro h
    obtain ⟨frame, hframe, rfl⟩ := h
    obtain ⟨n, hcounted, hlen, hbody, htag⟩ := frame_eq_ok.mp hframe
    obtain rfl := Except.ok.inj ((lenExpr_of_encode hcold hbody).symm.trans hcounted)
    have hvalue : c.value.encode checked = .ok frame.value := hbody
    rw [hvalue]
    change (putLenIn checked frame.value.length >>= _) = _
    rw [hlen, ← htag]
    rfl

theorem segment_cold {i : Nat} {cells : List Cell} {b : Bytes} :
    segment checked false i cells = .ok b ↔ ∃ frames,
      coldFrames checked i (cells.map Cell.payload) = .ok frames
        ∧ frames.flatMap ColdFrame.bytes = b := by
  induction cells generalizing i b with
  | nil =>
    constructor
    · exact fun h => ⟨[], rfl, Except.ok.inj h⟩
    · intro h
      obtain ⟨frames, hframes, rfl⟩ := h
      obtain rfl := Except.ok.inj hframes
      rfl
  | cons c cells ih =>
    rw [List.map_cons, segment, coldFrames]
    by_cases hhot : c.field.kind.hot = true
    · have hcell : c.payload.hot = true := hhot
      rw [if_neg (by rw [hhot]; decide), if_pos hcell, ih]
    · have hcell : ¬ c.payload.hot = true := hhot
      have hcold : c.field.kind.hot = false := by simpa using hhot
      rw [if_pos hcold, if_neg hcell]
      constructor
      · intro h
        obtain ⟨front, hfront, h⟩ := bind_eq_ok.mp h
        obtain ⟨back, hback, h⟩ := bind_eq_ok.mp h
        obtain rfl := Except.ok.inj h
        obtain ⟨frame, hframe, rfl⟩ := (frame_iff hcold).mp hfront
        obtain ⟨frames, hframes, rfl⟩ := ih.mp hback
        exact ⟨frame :: frames, bind_eq_ok.mpr ⟨frame, hframe, bind_eq_ok.mpr ⟨frames, hframes, rfl⟩⟩,
          List.flatMap_cons⟩
      · intro h
        obtain ⟨frames, hframes, rfl⟩ := h
        obtain ⟨frame, hframe, hframes⟩ := bind_eq_ok.mp hframes
        obtain ⟨frames, hrest, hframes⟩ := bind_eq_ok.mp hframes
        obtain rfl := Except.ok.inj hframes
        have hfront := (frame_iff hcold).mpr ⟨frame, hframe, rfl⟩
        have hback := ih.mpr ⟨frames, hrest, rfl⟩
        exact bind_eq_ok.mpr ⟨_, hfront, bind_eq_ok.mpr ⟨_, hback, by rw [List.flatMap_cons]⟩⟩

/-- **A document is written as the bridge has it**: the bytes are the same wherever either
writes any. -/
theorem encodePayload_payload {decl : PayloadDecl} {cells : List Cell} {b : Bytes} :
    decl.encodePayload checked (cells.map Cell.payload) = .ok b
      ↔ encodePayload checked decl.version cells = .ok b := by
  constructor
  · intro h
    obtain ⟨hot, hhot, h⟩ := bind_eq_ok.mp h
    obtain ⟨frames, hframes, h⟩ := bind_eq_ok.mp h
    obtain rfl := Except.ok.inj h
    have hcold := segment_cold.mpr ⟨frames, hframes, rfl⟩
    rw [← segment_hot 0] at hhot
    refine bind_eq_ok.mpr ⟨hot, hhot, bind_eq_ok.mpr ⟨_, hcold, ?_⟩⟩
    rw [payloadBytes, List.append_assoc]
    rfl
  · intro h
    obtain ⟨hot, hhot, h⟩ := bind_eq_ok.mp h
    obtain ⟨cold, hcold, h⟩ := bind_eq_ok.mp h
    obtain rfl := Except.ok.inj h
    obtain ⟨frames, hframes, rfl⟩ := segment_cold.mp hcold
    rw [segment_hot] at hhot
    refine bind_eq_ok.mpr ⟨hot, hhot, bind_eq_ok.mpr ⟨frames, hframes, ?_⟩⟩
    rw [payloadBytes, List.append_assoc]
    rfl

end Okm.Model
