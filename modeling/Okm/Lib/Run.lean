/-!
# Steps that may be refused

A step takes a state and answers a value or an error; the state it leaves is
known either way, so what a refused step already wrote is visible. Two facts
compose along a sequence of steps: a relation between the state before and after
(`Keeps`), and, for steps that are never refused, the state they leave as seen
through a view (`Does`).
-/

namespace Okm.Lib

/-- A step over a state that may be refused. -/
abbrev Run (ε σ α : Type) := ExceptT ε (StateM σ) α

variable {ε σ α β ρ : Type}

/-- A bind that answers: both parts did. -/
theorem bind_eq_ok {x : Except ε α} {f : α → Except ε β} {b : β} :
    (x >>= f) = .ok b ↔ ∃ a, x = .ok a ∧ f a = .ok b := by
  cases x with
  | error e => simp [bind, Except.bind]
  | ok a => simp [bind, Except.bind]

theorem mapError_eq_ok {ε' : Type} {g : ε → ε'} {x : Except ε α} {a : α} :
    x.mapError g = .ok a ↔ x = .ok a := by
  cases x with
  | error e =>
    constructor
    · intro h
      cases h
    · intro h
      cases h
  | ok b =>
    constructor
    · intro h
      rw [Except.ok.inj h]
    · intro h
      rw [Except.ok.inj h]
      rfl

/-- A loop over what is all answered. -/
theorem mapM_eq_ok {f : α → Except ε β} {g : α → β} {as : List α}
    (h : ∀ a ∈ as, f a = .ok (g a)) : as.mapM f = .ok (as.map g) := by
  induction as with
  | nil => rfl
  | cons a as ih =>
    obtain ⟨ha, has⟩ := List.forall_mem_cons.mp h
    rw [List.mapM_cons, ha, ih has]
    rfl

/-- One error stops the loop. -/
theorem mapM_error {f : α → Except ε β} {a : α} {as : List α} (ha : a ∈ as)
    (h : ∃ e, f a = .error e) : ∃ e, as.mapM f = .error e := by
  induction as with
  | nil => cases ha
  | cons b as ih =>
    rw [List.mapM_cons]
    cases hb : f b with
    | error e => exact ⟨e, rfl⟩
    | ok b' =>
      rcases List.mem_cons.mp ha with rfl | ha
      · obtain ⟨e, he⟩ := h
        rw [hb] at he
        cases he
      · obtain ⟨e, he⟩ := ih ha
        rw [he]
        exact ⟨e, rfl⟩

/-- What is asked of the answer is decided by looking at it. -/
instance decidableForallOk {x : Except ε α} {P : α → Prop} [DecidablePred P] :
    Decidable (∀ a, x = .ok a → P a) :=
  match x with
  | .ok a => decidable_of_iff (P a) ⟨fun h _ ha => Except.ok.inj ha ▸ h, fun h => h a rfl⟩
  | .error _ => .isTrue (fun _ ha => by cases ha)

/-- An answer there is. -/
theorem exists_of_isOk {x : Except ε α} (h : x.isOk = true) : ∃ a, x = .ok a := by
  cases x with
  | error e => cases h
  | ok a => exact ⟨a, rfl⟩

theorem run_bind (x : Run ε σ α) (f : α → Run ε σ β) (s : σ) :
    (x >>= f) s = match x s with
      | (.ok a, s') => f a s'
      | (.error e, s') => (.error e, s') := by
  change (match x s with | (a, s') => ExceptT.bindCont f a s') = _
  cases h : x s with
  | mk a s' => cases a <;> rfl

theorem run_bind_of_ok {x : Run ε σ α} {f : α → Run ε σ β} {s s' : σ} {a : α}
    (h : x s = (.ok a, s')) : (x >>= f) s = f a s' := by
  rw [run_bind, h]

/-- A sequence that answers: both steps did. -/
theorem run_bind_eq_ok {x : Run ε σ α} {f : α → Run ε σ β} {s s'' : σ} {b : β} :
    (x >>= f) s = (.ok b, s'') ↔ ∃ a s', x s = (.ok a, s') ∧ f a s' = (.ok b, s'') := by
  constructor
  · intro h
    rw [run_bind] at h
    cases hx : x s with
    | mk answer s' =>
      rw [hx] at h
      cases answer with
      | error e => cases (congrArg Prod.fst h : Except.error e = Except.ok b)
      | ok a => exact ⟨a, s', rfl, h⟩
  · rintro ⟨a, s', hx, hf⟩
    rw [run_bind_of_ok hx, hf]

@[simp] theorem run_pure (a : α) (s : σ) : (pure a : Run ε σ α) s = (.ok a, s) := rfl

/-! ## Relations a step keeps -/

/-- Whatever the step answers, it leaves a state related to the one it found. -/
def Keeps (P : σ → σ → Prop) (x : Run ε σ α) : Prop := ∀ s, P s (x s).2

section

variable {P : σ → σ → Prop} (refl : ∀ s, P s s) (trans : ∀ a b c, P a b → P b c → P a c)

include refl in
theorem Keeps.pure (a : α) : Keeps P (pure a : Run ε σ α) := fun s => refl s

include trans in
theorem Keeps.bind {x : Run ε σ α} {f : α → Run ε σ β} (hx : Keeps P x)
    (hf : ∀ a, Keeps P (f a)) : Keeps P (x >>= f) := by
  intro s
  have hs := hx s
  rw [run_bind]
  cases h : x s with
  | mk answer s' =>
    rw [h] at hs
    cases answer with
    | error e => exact hs
    | ok a => exact trans _ _ _ hs (hf a s')

end

/-! ## Steps that go hand in hand -/

/-- From related states two steps answer alike and leave related states. -/
def Related {τ : Type} (Rel : σ → τ → Prop) (x : Run ε σ α) (y : Run ε τ α) : Prop :=
  ∀ s t, Rel s t → (x s).1 = (y t).1 ∧ Rel (x s).2 (y t).2

section

variable {τ : Type} {Rel : σ → τ → Prop}

theorem Related.pure (a : α) : Related Rel (pure a : Run ε σ α) (pure a : Run ε τ α) :=
  fun _ _ h => ⟨rfl, h⟩

theorem Related.bind {x : Run ε σ α} {y : Run ε τ α} {f : α → Run ε σ β} {f' : α → Run ε τ β}
    (hx : Related Rel x y) (hf : ∀ a, Related Rel (f a) (f' a)) :
    Related Rel (x >>= f) (y >>= f') := by
  intro s t h
  obtain ⟨hanswer, hrel⟩ := hx s t h
  rw [run_bind, run_bind]
  cases hs : x s with
  | mk answer s' =>
    cases ht : y t with
    | mk answer' t' =>
      rw [hs, ht] at hanswer hrel
      dsimp only at hanswer hrel
      subst hanswer
      cases answer with
      | error e => exact ⟨rfl, hrel⟩
      | ok a => exact hf a s' t' hrel

end

/-! ## Steps over a table that grows -/

/-- What the step answers, the plain step answers over the table it leaves, and over every
larger one. -/
def Settles {τ ε' : Type} (holds : σ → τ → Prop) (le : τ → τ → Prop) (x : Run ε σ α)
    (y : τ → Except ε' α) : Prop :=
  ∀ s t a s', holds s t → x s = (.ok a, s') →
    ∃ t', holds s' t' ∧ le t t' ∧ ∀ u, le t' u → y u = .ok a

section

variable {τ ε' : Type} {holds : σ → τ → Prop} {le : τ → τ → Prop}

theorem Settles.pure (refl : ∀ t, le t t) (a : α) :
    Settles holds le (pure a : Run ε σ α) fun _ => (pure a : Except ε' α) := by
  intro s t b s' h hrun
  obtain ⟨hanswer, rfl⟩ := Prod.mk.inj hrun
  obtain rfl := Except.ok.inj hanswer
  exact ⟨t, h, refl t, fun _ _ => rfl⟩

theorem Settles.bind (trans : ∀ t u v, le t u → le u v → le t v) {x : Run ε σ α}
    {f : α → Run ε σ β} {y : τ → Except ε' α} {g : τ → α → Except ε' β}
    (hx : Settles holds le x y) (hf : ∀ a, Settles holds le (f a) fun t => g t a) :
    Settles holds le (x >>= f) fun t => y t >>= g t := by
  intro s t b s'' h hrun
  obtain ⟨a, s', hfirst, hsecond⟩ := run_bind_eq_ok.mp hrun
  obtain ⟨t', h', hle, hy⟩ := hx s t a s' h hfirst
  obtain ⟨t'', h'', hle', hg⟩ := hf a s' t' b s'' h' hsecond
  refine ⟨t'', h'', trans _ _ _ hle hle', fun u hu => ?_⟩
  change (y u >>= g u) = .ok b
  rw [hy u (trans _ _ _ hle' hu)]
  exact hg u hu

end

/-! ## Steps that are never refused -/

/-- The step is never refused, and what is seen of the state changes by `F`. -/
def Does (view : σ → ρ) (F : ρ → ρ) (x : Run ε σ Unit) : Prop :=
  ∀ s, ∃ s', x s = (.ok (), s') ∧ view s' = F (view s)

variable {view : σ → ρ} {F G : ρ → ρ}

theorem Does.nothing : Does view id (pure () : Run ε σ Unit) := fun s => ⟨s, rfl, rfl⟩

theorem Does.seq {x y : Run ε σ Unit} (hx : Does view F x) (hy : Does view G y) :
    Does view (G ∘ F) (x >>= fun _ => y) := by
  intro s
  obtain ⟨s', hok, hview⟩ := hx s
  obtain ⟨s'', hok', hview'⟩ := hy s'
  refine ⟨s'', ?_, ?_⟩
  · rw [run_bind_of_ok hok, hok']
  · rw [hview', hview, Function.comp_apply]

end Okm.Lib
