import Okm.Lib.ByteCodec
import Okm.Lib.Run

/-!
# Readers that count what they ask for

A reader takes bytes off the front of what is left and counts the memory it asks for. It
may end early: with nothing, when the bytes run out or are refused, or with a fault of its
host.

Three facts about a reader compose along its steps and its loops. `ReadsAs` says which
bytes it reads as which value; `Spells` says the converse, that what it read was spelled
that way; `Spends` bounds what it asks for by what it consumes, with some slack for what
was asked for in vain.
-/

namespace Okm.Lib

/-! ## Little-endian numbers -/

/-- The low `w` bytes of `n`, least significant first. -/
def leBytes (w n : Nat) : List UInt8 := (beBytes w n).reverse

/-- The number a byte string spells, least significant byte first. -/
def leNat (bs : List UInt8) : Nat := beNat bs.reverse

@[simp] theorem length_leBytes (w n : Nat) : (leBytes w n).length = w := by
  rw [leBytes, List.length_reverse, length_beBytes]

theorem leNat_leBytes {w n : Nat} (h : n < 256 ^ w) : leNat (leBytes w n) = n := by
  rw [leNat, leBytes, List.reverse_reverse, beNat_beBytes h]

theorem leNat_lt (bs : List UInt8) : leNat bs < 256 ^ bs.length := by
  have h := beNat_lt bs.reverse
  rwa [List.length_reverse] at h

theorem leBytes_leNat (bs : List UInt8) : leBytes bs.length (leNat bs) = bs := by
  have h := beBytes_beNat bs.reverse
  rw [List.length_reverse] at h
  rw [leBytes, leNat, h, List.reverse_reverse]

theorem leBytes_injective {w m n : Nat} (hm : m < 256 ^ w) (hn : n < 256 ^ w)
    (h : leBytes w m = leBytes w n) : m = n := by
  rw [← leNat_leBytes hm, h, leNat_leBytes hn]

/-- Two numbers of one width at the front of one string. -/
theorem leBytes_append_inj {w m n : Nat} {as bs : List UInt8} (hm : m < 256 ^ w) (hn : n < 256 ^ w)
    (h : leBytes w m ++ as = leBytes w n ++ bs) : m = n ∧ as = bs := by
  obtain ⟨hfront, hrest⟩ := List.append_inj h (by rw [length_leBytes, length_leBytes])
  exact ⟨leBytes_injective hm hn hfront, hrest⟩

/-! ## Readers -/

/-- How a reading ends early. -/
inductive Stop (φ : Type) where
  | nothing
  | fault (f : φ)

/-- What is left to read, and the bytes asked for so far. -/
structure Cursor where
  left : List UInt8
  taken : Nat

abbrev Reading (φ α : Type) := Run (Stop φ) Cursor α

variable {φ α β ρ : Type}

/-- The next `n` bytes. -/
def nextBytes (n : Nat) : Reading φ (List UInt8) := fun c =>
  if n ≤ c.left.length then (.ok (c.left.take n), ⟨c.left.drop n, c.taken⟩)
  else (.error .nothing, c)

/-- The next `w` bytes as a number. -/
def nextNat (w : Nat) : Reading φ Nat := do
  let bytes ← nextBytes w
  pure (leNat bytes)

/-- What was read is refused. -/
def refuse : Reading φ α := fun c => (.error .nothing, c)

/-- Room for `count` elements: a request the machine cannot express is the fault `f`. -/
def request (f : φ) (size count : Nat) : Reading φ Unit := fun c =>
  if size * count < 2 ^ 63 then (.ok (), ⟨c.left, c.taken + size * count⟩)
  else (.error (.fault f), c)

/-- The same reading `n` times. -/
def times (x : Reading φ α) : Nat → Reading φ (List α)
  | 0 => pure []
  | n + 1 => do
    let a ← x
    let as ← times x n
    pure (a :: as)

/-! ## Which bytes are read as what -/

/-- The bytes are read as the value, whatever follows them. -/
def ReadsAs (x : Reading φ α) (chunk : List UInt8) (a : α) : Prop :=
  ∀ rest taken, ∃ taken', x ⟨chunk ++ rest, taken⟩ = (.ok a, ⟨rest, taken'⟩)

theorem readsAs_pure (a : α) : ReadsAs (pure a : Reading φ α) [] a :=
  fun _ taken => ⟨taken, rfl⟩

theorem ReadsAs.bind {x : Reading φ α} {f : α → Reading φ β} {chunk chunk' : List UInt8} {a : α}
    {b : β} (hx : ReadsAs x chunk a) (hf : ReadsAs (f a) chunk' b) :
    ReadsAs (x >>= f) (chunk ++ chunk') b := by
  intro rest taken
  obtain ⟨taken', heq⟩ := hx (chunk' ++ rest) taken
  obtain ⟨taken'', heq'⟩ := hf rest taken'
  refine ⟨taken'', ?_⟩
  rw [List.append_assoc, run_bind_of_ok heq, heq']

theorem readsAs_bytes (chunk : List UInt8) :
    ReadsAs (nextBytes chunk.length : Reading φ (List UInt8)) chunk chunk := by
  intro rest taken
  refine ⟨taken, ?_⟩
  rw [nextBytes, if_pos (by simp), List.take_left, List.drop_left]

theorem readsAs_nat {w n : Nat} (h : n < 256 ^ w) :
    ReadsAs (nextNat w : Reading φ Nat) (leBytes w n) n := by
  intro rest taken
  have hbytes := readsAs_bytes (φ := φ) (leBytes w n)
  rw [length_leBytes] at hbytes
  obtain ⟨taken', heq⟩ := hbytes rest taken
  refine ⟨taken', ?_⟩
  rw [nextNat, run_bind_of_ok heq, run_pure, leNat_leBytes h]

/-- A request that can be expressed reads nothing. -/
theorem readsAs_request (f : φ) {size count : Nat} (h : size * count < 2 ^ 63) :
    ReadsAs (request f size count) [] () :=
  fun _ _ => ⟨_, if_pos h⟩

/-- The branch taken decides. -/
theorem ReadsAs.pos {p : Prop} [Decidable p] {x y : Reading φ α} {chunk : List UInt8} {a : α}
    (hp : p) (h : ReadsAs x chunk a) : ReadsAs (if p then x else y) chunk a := by
  rw [if_pos hp]
  exact h

theorem ReadsAs.neg {p : Prop} [Decidable p] {x y : Reading φ α} {chunk : List UInt8} {a : α}
    (hp : ¬p) (h : ReadsAs y chunk a) : ReadsAs (if p then x else y) chunk a := by
  rw [if_neg hp]
  exact h

theorem readsAs_times {x : Reading φ α} {enc : ρ → List UInt8} {dec : ρ → α} :
    ∀ {rs : List ρ}, (∀ r ∈ rs, ReadsAs x (enc r) (dec r)) →
      ReadsAs (times x rs.length) (rs.flatMap enc) (rs.map dec)
  | [], _ => readsAs_pure []
  | r :: rs, h => by
    have hrest : ReadsAs (times x rs.length) (rs.flatMap enc) (rs.map dec) :=
      readsAs_times fun r' hr' => h r' (List.mem_cons_of_mem _ hr')
    have hcons := hrest.bind (f := fun as => (pure (dec r :: as) : Reading φ (List α)))
      (readsAs_pure (dec r :: rs.map dec))
    rw [List.append_nil] at hcons
    exact (h r List.mem_cons_self).bind hcons

/-! ## What was read was spelled so -/

/-- Every value read is the reading of some fit description, and the bytes consumed are
how that description is spelled. -/
def Spells (x : Reading φ α) (enc : ρ → List UInt8) (dec : ρ → α) (fit : ρ → Prop) : Prop :=
  ∀ c a c', x c = (.ok a, c') → ∃ r, fit r ∧ c.left = enc r ++ c'.left ∧ a = dec r

theorem spells_bytes (n : Nat) :
    Spells (nextBytes n : Reading φ (List UInt8)) id id fun bytes => bytes.length = n := by
  intro c a c' h
  unfold nextBytes at h
  by_cases hn : n ≤ c.left.length
  · rw [if_pos hn] at h
    obtain ⟨ha, rfl⟩ := Prod.mk.inj h
    refine ⟨c.left.take n, List.length_take_of_le hn, ?_, (Except.ok.inj ha).symm⟩
    exact (List.take_append_drop n c.left).symm
  · rw [if_neg hn] at h
    cases (Prod.mk.inj h).1

theorem spells_nat (w : Nat) :
    Spells (nextNat w : Reading φ Nat) (leBytes w) id fun n => n < 256 ^ w := by
  intro c a c' h
  obtain ⟨bytes, mid, hbytes, hpure⟩ := run_bind_eq_ok.mp h
  obtain ⟨r, hlen, hleft, heq⟩ := spells_bytes w c bytes mid hbytes
  obtain ⟨ha, rfl⟩ := Prod.mk.inj hpure
  have hr : leNat r = leNat bytes := by rw [heq]; rfl
  refine ⟨leNat r, ?_, ?_, (Except.ok.inj ha).symm.trans hr.symm⟩
  · rw [← hlen]
    exact leNat_lt r
  · rw [hleft, ← hlen, leBytes_leNat]
    rfl

/-- A request consumes nothing. -/
theorem request_ok {f : φ} {size count : Nat} {u : Unit} {c c' : Cursor}
    (h : request f size count c = (.ok u, c')) : c'.left = c.left := by
  unfold request at h
  by_cases hsize : size * count < 2 ^ 63
  · rw [if_pos hsize] at h
    rw [← (Prod.mk.inj h).2]
  · rw [if_neg hsize] at h
    cases (Prod.mk.inj h).1

theorem spells_times {x : Reading φ α} {enc : ρ → List UInt8} {dec : ρ → α} {fit : ρ → Prop}
    (h : Spells x enc dec fit) : ∀ n : Nat,
    Spells (times x n) (fun rs : List ρ => rs.flatMap enc) (fun rs => rs.map dec)
      fun rs => rs.length = n ∧ ∀ r ∈ rs, fit r
  | 0 => by
    intro c a c' hx
    obtain ⟨ha, rfl⟩ := Prod.mk.inj hx
    exact ⟨[], ⟨rfl, fun r hr => by cases hr⟩, rfl, (Except.ok.inj ha).symm⟩
  | n + 1 => by
    intro c a c' hx
    obtain ⟨first, c1, hfirst, hx⟩ := run_bind_eq_ok.mp hx
    obtain ⟨rest, c2, hrest, hx⟩ := run_bind_eq_ok.mp hx
    obtain ⟨ha, rfl⟩ := Prod.mk.inj hx
    obtain ⟨r, hfit, hleft, rfl⟩ := h c first c1 hfirst
    obtain ⟨rs, ⟨hlen, hfits⟩, hleft', rfl⟩ := spells_times h n c1 rest c2 hrest
    refine ⟨r :: rs, ⟨by rw [List.length_cons, hlen], ?_⟩, ?_, (Except.ok.inj ha).symm⟩
    · intro r' hr'
      rcases List.mem_cons.mp hr' with rfl | hmem
      · exact hfit
      · exact hfits r' hmem
    · rw [hleft, hleft']
      dsimp only
      rw [List.flatMap_cons, List.append_assoc]

/-! ## What is asked for -/

/-- What a reader asks for is paid by what it consumes, at `rate` for each byte; a reading
that ends with nothing may have asked for `slack` more. A value that is read satisfies `P`
and took at least `floor` bytes. No fault. -/
structure SpendsAt (x : Reading φ α) (c : Cursor) (rate slack : Nat) (floor : α → Nat)
    (P : α → Prop) : Prop where
  ok : ∀ a c', x c = (.ok a, c') → P a ∧ c'.left.length + floor a ≤ c.left.length ∧
    c'.taken + rate * c'.left.length ≤ c.taken + rate * c.left.length
  nothing : ∀ c', x c = (.error .nothing, c') →
    c'.taken ≤ c.taken + rate * c.left.length + slack
  fault : ∀ f c', x c ≠ (.error (.fault f), c')

/-- Wherever it starts. -/
def Spends (x : Reading φ α) (rate slack : Nat) (floor : α → Nat) (P : α → Prop) : Prop :=
  ∀ c, SpendsAt x c rate slack floor P

section

variable {rate slack : Nat} {x : Reading φ α} {c : Cursor} {floor : α → Nat} {P : α → Prop}

theorem SpendsAt.mono {rate' slack' : Nat} {floor' : α → Nat} {P' : α → Prop}
    (h : SpendsAt x c rate slack floor P) (hrate : rate ≤ rate') (hslack : slack ≤ slack')
    (hfloor : ∀ a, P a → floor' a ≤ floor a) (hP : ∀ a, P a → P' a) :
    SpendsAt x c rate' slack' floor' P' := by
  obtain ⟨more, rfl⟩ := Nat.exists_eq_add_of_le hrate
  obtain ⟨hok, hnothing, hfault⟩ := h
  refine ⟨fun a c' heq => ?_, fun c' heq => ?_, hfault⟩
  · obtain ⟨hval, hleft, htaken⟩ := hok a c' heq
    have hfl := hfloor a hval
    have hmore : more * c'.left.length ≤ more * c.left.length :=
      Nat.mul_le_mul_left more (by omega)
    refine ⟨hP a hval, by omega, ?_⟩
    rw [Nat.add_mul, Nat.add_mul]
    omega
  · have hbound := hnothing c' heq
    rw [Nat.add_mul]
    omega

theorem Spends.mono {rate' slack' : Nat} {floor' : α → Nat} {P' : α → Prop}
    (h : Spends x rate slack floor P) (hrate : rate ≤ rate') (hslack : slack ≤ slack')
    (hfloor : ∀ a, P a → floor' a ≤ floor a) (hP : ∀ a, P a → P' a) :
    Spends x rate' slack' floor' P' := fun c => (h c).mono hrate hslack hfloor hP

/-- A reading that returns. -/
theorem spendsAt_ok {a : α} {c' : Cursor} (h : x c = (.ok a, c')) (ha : P a)
    (hleft : c'.left.length + floor a ≤ c.left.length) (htaken : c'.taken = c.taken) :
    SpendsAt x c rate slack floor P := by
  have hle : rate * c'.left.length ≤ rate * c.left.length := Nat.mul_le_mul_left rate (by omega)
  refine ⟨fun b d heq => ?_, fun d heq => ?_, fun f d heq => ?_⟩
  · rw [h] at heq
    obtain ⟨hb, rfl⟩ := Prod.mk.inj heq
    obtain rfl := Except.ok.inj hb
    exact ⟨ha, hleft, by omega⟩
  · rw [h] at heq
    cases (Prod.mk.inj heq).1
  · rw [h] at heq
    cases (Prod.mk.inj heq).1

/-- A reading that ends with nothing at once. -/
theorem spendsAt_nothing (h : x c = (.error .nothing, c)) : SpendsAt x c rate slack floor P := by
  refine ⟨fun b d heq => ?_, fun d heq => ?_, fun f d heq => ?_⟩
  · rw [h] at heq
    cases (Prod.mk.inj heq).1
  · rw [h] at heq
    rw [← (Prod.mk.inj heq).2]
    omega
  · rw [h] at heq
    cases (Prod.mk.inj heq).1

theorem spends_pure (a : α) (rate slack : Nat) :
    Spends (pure a : Reading φ α) rate slack (fun _ => 0) (· = a) :=
  fun _ => spendsAt_ok rfl rfl (Nat.le_refl _) rfl

theorem spends_refuse (rate slack : Nat) (floor : α → Nat) (P : α → Prop) :
    Spends (refuse : Reading φ α) rate slack floor P :=
  fun _ => spendsAt_nothing rfl

theorem spends_bytes (n rate slack : Nat) :
    Spends (nextBytes n : Reading φ (List UInt8)) rate slack (fun _ => n)
      fun bytes => bytes.length = n := by
  intro c
  by_cases hn : n ≤ c.left.length
  · have hrun : (nextBytes n : Reading φ (List UInt8)) c
        = (.ok (c.left.take n), ⟨c.left.drop n, c.taken⟩) := if_pos hn
    refine spendsAt_ok hrun (List.length_take_of_le hn) ?_ rfl
    rw [List.length_drop]
    omega
  · exact spendsAt_nothing (if_neg hn)

/-- One reading after the other, from one place. -/
theorem SpendsAt.bind {f : α → Reading φ β} {total : β → Nat} {Q : β → Prop}
    (hx : SpendsAt x c rate slack floor P)
    (hf : ∀ a c', x c = (.ok a, c') → P a →
      SpendsAt (f a) c' rate slack (fun b => total b - floor a) Q) :
    SpendsAt (x >>= f) c rate slack total Q := by
  obtain ⟨hok, hnothing, hfault⟩ := hx
  cases hrun : x c with
  | mk answer c1 =>
    cases answer with
    | error e =>
      have hboth : (x >>= f) c = (.error e, c1) := by rw [run_bind, hrun]
      refine ⟨fun b c' heq => ?_, fun c' heq => ?_, fun g c' heq => ?_⟩
      · rw [hboth] at heq
        cases (Prod.mk.inj heq).1
      · rw [hboth] at heq
        obtain ⟨he, rfl⟩ := Prod.mk.inj heq
        rw [Except.error.inj he] at hrun
        exact hnothing _ hrun
      · rw [hboth] at heq
        obtain ⟨he, rfl⟩ := Prod.mk.inj heq
        rw [Except.error.inj he] at hrun
        exact hfault g _ hrun
    | ok a =>
      have hboth := run_bind_of_ok (f := f) hrun
      obtain ⟨hval, hleft, htaken⟩ := hok a c1 hrun
      obtain ⟨hok', hnothing', hfault'⟩ := hf a c1 hrun hval
      refine ⟨fun b c' heq => ?_, fun c' heq => ?_, fun g c' heq => ?_⟩
      · rw [hboth] at heq
        obtain ⟨hval', hleft', htaken'⟩ := hok' b c' heq
        exact ⟨hval', by omega, by omega⟩
      · rw [hboth] at heq
        have hbound := hnothing' c' heq
        omega
      · rw [hboth] at heq
        exact hfault' g c' heq

/-- One reading after the other. -/
theorem Spends.bind {f : α → Reading φ β} {total : β → Nat} {Q : β → Prop}
    (hx : Spends x rate slack floor P)
    (hf : ∀ a, P a → Spends (f a) rate slack (fun b => total b - floor a) Q) :
    Spends (x >>= f) rate slack total Q :=
  fun c => (hx c).bind fun a c' _ ha => hf a ha c'

theorem spends_nat (w rate slack : Nat) :
    Spends (nextNat w : Reading φ Nat) rate slack (fun _ => w) fun n => n < 256 ^ w := by
  refine (spends_bytes w rate slack).bind fun bytes hlen => ?_
  refine (spends_pure (leNat bytes) rate slack).mono (Nat.le_refl _) (Nat.le_refl _) (by simp) ?_
  rintro n rfl
  rw [← hlen]
  exact leNat_lt bytes

/-- **A request before a reading** is paid by what the reading consumes, or is slack. -/
theorem Spends.requested {f : φ} (h : Spends x rate slack floor P) (q size count : Nat)
    (hfits : size * count < 2 ^ 63) (hpaid : ∀ a, P a → size * count ≤ q * floor a) :
    Spends (request f size count >>= fun _ => x) (rate + q) (slack + size * count) floor P := by
  intro c
  have hrun : request f size count c = (.ok (), ⟨c.left, c.taken + size * count⟩) := if_pos hfits
  have hboth := run_bind_of_ok (f := fun _ => x) hrun
  obtain ⟨hok, hnothing, hfault⟩ := h ⟨c.left, c.taken + size * count⟩
  refine ⟨fun a c' heq => ?_, fun c' heq => ?_, fun g c' heq => ?_⟩
  · rw [hboth] at heq
    obtain ⟨hval, hleft, htaken⟩ := hok a c' heq
    dsimp only at hleft htaken
    have hpay := hpaid a hval
    have hq : q * c'.left.length + q * floor a ≤ q * c.left.length := by
      rw [← Nat.mul_add]
      exact Nat.mul_le_mul_left q hleft
    refine ⟨hval, hleft, ?_⟩
    rw [Nat.add_mul, Nat.add_mul]
    omega
  · rw [hboth] at heq
    have hbound := hnothing c' heq
    dsimp only at hbound
    rw [Nat.add_mul]
    omega
  · rw [hboth] at heq
    exact hfault g c' heq

/-- **A request after a reading** for no more than was consumed. -/
theorem Spends.charged {f : φ} (h : Spends x rate slack floor P) (q size : Nat) (count : α → Nat)
    (hfits : ∀ a, P a → size * count a < 2 ^ 63)
    (hpaid : ∀ a, P a → size * count a ≤ q * floor a) :
    Spends (x >>= fun a => request f size (count a) >>= fun _ => pure a) (rate + q) slack floor
      P := by
  intro c
  obtain ⟨hok, hnothing, hfault⟩ := h c
  cases hrun : x c with
  | mk answer c1 =>
    cases answer with
    | error e =>
      have hboth : (x >>= fun a => request f size (count a) >>= fun _ => pure a) c
          = (.error e, c1) := by rw [run_bind, hrun]
      refine ⟨fun b c' heq => ?_, fun c' heq => ?_, fun g c' heq => ?_⟩
      · rw [hboth] at heq
        cases (Prod.mk.inj heq).1
      · rw [hboth] at heq
        obtain ⟨he, rfl⟩ := Prod.mk.inj heq
        rw [Except.error.inj he] at hrun
        have hbound := hnothing _ hrun
        rw [Nat.add_mul]
        omega
      · rw [hboth] at heq
        obtain ⟨he, rfl⟩ := Prod.mk.inj heq
        rw [Except.error.inj he] at hrun
        exact hfault g _ hrun
    | ok a =>
      obtain ⟨hval, hleft, htaken⟩ := hok a c1 hrun
      -- the request fits, and is paid from the floor of what was read
      have hreq : request f size (count a) c1
          = (.ok (), ⟨c1.left, c1.taken + size * count a⟩) := if_pos (hfits a hval)
      have hboth : (x >>= fun a => request f size (count a) >>= fun _ => pure a) c
          = (.ok a, ⟨c1.left, c1.taken + size * count a⟩) := by
        rw [run_bind_of_ok hrun, run_bind_of_ok hreq, run_pure]
      refine ⟨fun b c' heq => ?_, fun c' heq => ?_, fun g c' heq => ?_⟩
      · rw [hboth] at heq
        obtain ⟨hb, rfl⟩ := Prod.mk.inj heq
        obtain rfl := Except.ok.inj hb
        have hpay := hpaid _ hval
        have hq : q * c1.left.length + q * floor a ≤ q * c.left.length := by
          rw [← Nat.mul_add]
          exact Nat.mul_le_mul_left q hleft
        refine ⟨hval, hleft, ?_⟩
        dsimp only
        rw [Nat.add_mul, Nat.add_mul]
        omega
      · rw [hboth] at heq
        cases (Prod.mk.inj heq).1
      · rw [hboth] at heq
        cases (Prod.mk.inj heq).1

/-- The same reading some times over. -/
theorem Spends.times (h : Spends x rate slack floor P) {least : Nat}
    (hleast : ∀ a, P a → least ≤ floor a) :
    ∀ n : Nat, Spends (times x n) rate slack (fun _ => n * least) fun as => as.length = n
  | 0 => by
    refine (spends_pure ([] : List α) rate slack).mono (Nat.le_refl _) (Nat.le_refl _) (by simp) ?_
    rintro as rfl
    rfl
  | n + 1 => by
    refine h.bind fun a ha => ?_
    refine (Spends.times h hleast n).bind fun as has => ?_
    have hfloor := hleast a ha
    refine (spends_pure (a :: as) rate slack).mono (Nat.le_refl _) (Nat.le_refl _) ?_ ?_
    · intro b _
      rw [Nat.succ_mul]
      omega
    · rintro b rfl
      rw [List.length_cons, has]

end

end Okm.Lib
