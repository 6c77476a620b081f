import Mathlib.Tactic.ByContra
import Okm.Lib.Frames

/-!
# Readers and the grammars they read

A grammar says which strings spell which values. `Parses get G` ties a reader of the front
of a string to one: what it takes off is what the grammar spells, and it takes off whatever
the grammar spells, the same whatever follows. The relation composes along sequences and
counted loops, so a decoder gets its grammar part by part.

A reader of whole strings accepts in full (`Whole`) when nothing shorter is read as the same
value: no accepted string carries a tail the reader did not look at.
-/

namespace Okm.Lib

variable {α β γ : Type}

/-- The reader takes off exactly what the grammar spells. -/
def Parses (get : List β → Option (α × List β)) (G : List β → α → Prop) : Prop :=
  ∀ bs a rest, get bs = some (a, rest) ↔ ∃ chunk, G chunk a ∧ bs = chunk ++ rest

/-- Spellings one after another. -/
inductive Spell (G : List β → α → Prop) : List β → List α → Prop
  | nil : Spell G [] []
  | cons {chunk chunks : List β} {a : α} {as : List α} :
    G chunk a → Spell G chunks as → Spell G (chunk ++ chunks) (a :: as)

/-- No accepted string is read the same without its end. -/
def Whole (decode : List β → Option α) (bs : List β) : Prop :=
  ∀ a, decode bs = some a → ∀ front, front <+: bs → decode front = some a → front = bs

variable {get : List β → Option (α × List β)} {G : List β → α → Prop}

/-- A spelling is read off the front of whatever it stands in front of. -/
theorem Parses.reads (h : Parses get G) {chunk : List β} {a : α} (hG : G chunk a) :
    Reads get chunk a :=
  fun rest => (h _ a rest).mpr ⟨chunk, hG, rfl⟩

/-- Exactly `n` elements spell themselves. -/
theorem parses_takeExact (n : Nat) :
    Parses (takeExact n (β := β)) fun c as => c = as ∧ as.length = n := by
  intro bs as rest
  constructor
  · intro h
    obtain ⟨hlen, hbs⟩ := takeExact_eq_some h
    exact ⟨as, ⟨rfl, hlen⟩, hbs⟩
  · rintro ⟨chunk, ⟨rfl, hlen⟩, rfl⟩
    exact takeExact_append hlen rest

/-- One reader after another, the second chosen by what the first one read. -/
theorem Parses.bind (h : Parses get G) {next : α → List β → Option (γ × List β)}
    {H : α → List β → γ → Prop} (hnext : ∀ a, Parses (next a) (H a)) :
    Parses (fun bs => (get bs).bind fun p => next p.1 p.2)
      fun chunk c => ∃ front back a, G front a ∧ H a back c ∧ chunk = front ++ back := by
  intro bs c rest
  constructor
  · intro hread
    obtain ⟨⟨a, mid⟩, hget, hmid⟩ := Option.bind_eq_some_iff.mp hread
    obtain ⟨front, hG, rfl⟩ := (h bs a mid).mp hget
    obtain ⟨back, hH, rfl⟩ := (hnext a mid c rest).mp hmid
    exact ⟨front ++ back, ⟨front, back, a, hG, hH, rfl⟩, (List.append_assoc _ _ _).symm⟩
  · rintro ⟨chunk, ⟨front, back, a, hG, hH, rfl⟩, rfl⟩
    rw [List.append_assoc]
    refine Option.bind_eq_some_iff.mpr ⟨(a, back ++ rest), h.reads hG _, ?_⟩
    exact (hnext a).reads hH rest

/-- What was read is passed on as something else. -/
theorem Parses.map (h : Parses get G) (f : α → γ) :
    Parses (fun bs => (get bs).map fun p => (f p.1, p.2)) fun chunk c => ∃ a, G chunk a ∧ f a = c := by
  intro bs c rest
  constructor
  · intro hread
    obtain ⟨⟨a, rest'⟩, hget, heq⟩ := Option.map_eq_some_iff.mp hread
    obtain ⟨rfl, rfl⟩ := Prod.mk.inj heq
    obtain ⟨chunk, hG, hbs⟩ := (h bs a rest').mp hget
    exact ⟨chunk, ⟨a, hG, rfl⟩, hbs⟩
  · rintro ⟨chunk, ⟨a, hG, rfl⟩, rfl⟩
    exact Option.map_eq_some_iff.mpr ⟨(a, rest), h.reads hG rest, rfl⟩

/-- The same grammar in other words. -/
theorem Parses.congr (h : Parses get G) {get' : List β → Option (α × List β)}
    {G' : List β → α → Prop} (hget : ∀ bs, get' bs = get bs) (hG : ∀ c a, G' c a ↔ G c a) :
    Parses get' G' := by
  intro bs a rest
  rw [hget, h bs a rest]
  exact exists_congr fun chunk => and_congr_left' (hG chunk a).symm

/-- A counted loop: one spelling per round. -/
theorem Parses.counted (h : Parses get G) {loop : Nat → List β → Option (List α × List β)}
    (hzero : ∀ bs, loop 0 bs = some ([], bs))
    (hsucc : ∀ n bs, loop (n + 1) bs = (get bs).bind fun p =>
      (loop n p.2).bind fun q => some (p.1 :: q.1, q.2)) (n : Nat) :
    Parses (loop n) fun chunk as => Spell G chunk as ∧ as.length = n := by
  induction n with
  | zero =>
    intro bs as rest
    rw [hzero]
    constructor
    · intro heq
      obtain ⟨rfl, rfl⟩ := Prod.mk.inj (Option.some.inj heq)
      exact ⟨[], ⟨.nil, rfl⟩, rfl⟩
    · rintro ⟨chunk, ⟨hspell, hlen⟩, rfl⟩
      cases hspell with
      | nil => rfl
      | cons hG hrest => cases hlen
  | succ n ih =>
    intro bs as rest
    rw [hsucc]
    constructor
    · intro heq
      obtain ⟨⟨a, mid⟩, hget, heq⟩ := Option.bind_eq_some_iff.mp heq
      obtain ⟨⟨as', rest'⟩, hloop, heq⟩ := Option.bind_eq_some_iff.mp heq
      obtain ⟨rfl, rfl⟩ := Prod.mk.inj (Option.some.inj heq)
      obtain ⟨front, hG, rfl⟩ := (h bs a mid).mp hget
      obtain ⟨back, ⟨hspell, hlen⟩, rfl⟩ := (ih mid as' rest').mp hloop
      exact ⟨front ++ back, ⟨.cons hG hspell, congrArg (· + 1) hlen⟩, (List.append_assoc _ _ _).symm⟩
    · rintro ⟨chunk, ⟨hspell, hlen⟩, rfl⟩
      cases hspell with
      | nil => cases hlen
      | @cons front back a as' hG hrest =>
        rw [List.append_assoc]
        refine Option.bind_eq_some_iff.mpr ⟨(a, back ++ rest), h.reads hG _, ?_⟩
        refine Option.bind_eq_some_iff.mpr ⟨(as', rest), ?_, rfl⟩
        exact (ih _ as' rest).mpr ⟨back, ⟨hrest, Nat.succ.inj hlen⟩, rfl⟩

/-- **A decoder that refuses every spelling with something behind it** ignores no tail. -/
theorem whole_of_refuses {decode : List β → Option α}
    (hrefuse : ∀ front more a, decode front = some a → more ≠ [] → decode (front ++ more) = none)
    (bs : List β) : Whole decode bs := by
  intro a hbs front hpre hsame
  obtain ⟨more, rfl⟩ := hpre
  by_contra hne
  have hmore : more ≠ [] := by
    rintro rfl
    exact hne (List.append_nil front).symm
  rw [hrefuse front more a hsame hmore] at hbs
  cases hbs

/-- **Reading a front part in full** leaves a tail unread on just the strings that go on
behind a spelling. -/
theorem Parses.whole_front (h : Parses get G) {decode : List β → Option α}
    (hdecode : ∀ bs, decode bs = (get bs).map Prod.fst) (bs : List β) :
    Whole decode bs ↔ ∀ front, front <+: bs → front ≠ bs → ∀ a, ¬ G front a := by
  have haccept : ∀ {front more : List β} {a : α}, G front a → decode (front ++ more) = some a := by
    intro front more a hG
    rw [hdecode, h.reads hG more]
    rfl
  constructor
  · intro hwhole front hpre hne a hG
    obtain ⟨more, rfl⟩ := hpre
    refine hne (hwhole a (haccept hG) front (List.prefix_append _ _) ?_)
    have hself : decode (front ++ []) = some a := haccept hG
    rwa [List.append_nil] at hself
  · intro hnone a hbs front hpre hsame
    rw [hdecode] at hsame
    obtain ⟨⟨a', rest⟩, hget, -⟩ := Option.map_eq_some_iff.mp hsame
    obtain ⟨chunk, hG, rfl⟩ := (h front a' rest).mp hget
    by_contra hne
    -- the spelling lies inside the shorter string, so it ends before the longer one does
    refine hnone chunk ((List.prefix_append _ _).trans hpre) ?_ a' hG
    rintro rfl
    obtain ⟨more, hmore⟩ := hpre
    have hlen := congrArg List.length hmore
    rw [List.length_append, List.length_append] at hlen
    have hrest : rest = [] := List.eq_nil_of_length_eq_zero (by omega)
    rw [hrest, List.append_nil] at hne
    exact hne rfl

end Okm.Lib
