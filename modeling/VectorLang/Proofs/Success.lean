/-!
# Computations that succeed

A computation on a state either gives a result and a state, or an error.  When a compound
computation gives a result is told by when its parts do.

* `bind_eq_ok`         a computation and the one after it succeed if both do
* `bind_eq_error`      they fail if one of the two does
* `mapM_eq_none_iff`   a row of results is missing if one of them is
* `mapM_eq_some_iff`   the results of a row are those of its members
* `mapM_bind`          a row of results that come of others
-/

namespace VectorLang

variable {ε σ α β γ : Type} {s s' : σ} {a : α}

@[simp] theorem pure_eq_ok {b : α} :
    (pure a : EStateM ε σ α) s = .ok b s' ↔ a = b ∧ s = s' := by
  show EStateM.Result.ok a s = .ok b s' ↔ _
  rw [EStateM.Result.ok.injEq]

@[simp] theorem throw_ne_ok {e : ε} : (throw e : EStateM ε σ α) s ≠ .ok a s' := by
  show EStateM.Result.error e s ≠ .ok a s'
  intro h
  cases h

/-- A step and the one after it succeed if both do. -/
@[simp] theorem bind_eq_ok {p : EStateM ε σ α} {f : α → EStateM ε σ β} {b : β} :
    (p >>= f) s = .ok b s' ↔ ∃ a m, p s = .ok a m ∧ f a m = .ok b s' := by
  simp only [bind, EStateM.bind]
  cases p s with
  | ok a m =>
    constructor
    · intro h
      exact ⟨a, m, rfl, h⟩
    · rintro ⟨a, m, h, hf⟩
      cases h
      exact hf
  | error e m => simp

/-- Where a step succeeds, the one after it goes on from there. -/
theorem bind_of_ok {p : EStateM ε σ α} {f : α → EStateM ε σ β} (h : p s = .ok a s') :
    (p >>= f) s = f a s' := by
  simp only [bind, EStateM.bind, h]

/-- Where a step fails, the one after it is not done. -/
theorem bind_of_error {p : EStateM ε σ α} {f : α → EStateM ε σ β} {e : ε}
    (h : p s = .error e s') : (p >>= f) s = .error e s' := by
  simp only [bind, EStateM.bind, h]

/-- A step and the one after it fail if the first does, or else the second. -/
theorem bind_eq_error {p : EStateM ε σ α} {f : α → EStateM ε σ β} {e : ε} :
    (p >>= f) s = .error e s' ↔
      p s = .error e s' ∨ ∃ a m, p s = .ok a m ∧ f a m = .error e s' := by
  simp only [bind, EStateM.bind]
  cases p s with
  | ok a m =>
    constructor
    · intro h
      exact Or.inr ⟨a, m, rfl, h⟩
    · rintro (h | ⟨a, m, h, hf⟩)
      · cases h
      · cases h
        exact hf
  | error e' m => simp

@[simp] theorem map_eq_ok {f : α → β} {p : EStateM ε σ α} {b : β} :
    (f <$> p) s = .ok b s' ↔ ∃ a, p s = .ok a s' ∧ f a = b := by
  simp only [Functor.map, EStateM.map]
  cases p s with
  | ok a m =>
    constructor
    · intro h
      cases h
      exact ⟨a, rfl, rfl⟩
    · rintro ⟨a, h, rfl⟩
      cases h
      rfl
  | error e m => simp

@[simp] theorem ite_eq_ok {c : Prop} [Decidable c] {p q : EStateM ε σ α} :
    (if c then p else q) s = .ok a s' ↔ (c ∧ p s = .ok a s') ∨ (¬ c ∧ q s = .ok a s') := by
  by_cases h : c
  · simp [h]
  · simp [h]

/-- A row has no results if one of its members has none. -/
theorem mapM_eq_none_iff {f : α → Option β} {as : List α} :
    as.mapM f = none ↔ ∃ a ∈ as, f a = none := by
  induction as with
  | nil => simp
  | cons a as ih =>
    simp only [List.mapM_cons, List.mem_cons, exists_eq_or_imp, ← ih]
    cases f a with
    | none => simp
    | some b => cases as.mapM f <;> simp

/-- The results of a row are those of its members. -/
theorem mapM_eq_some_iff {f : α → Option β} {as : List α} {bs : List β} :
    as.mapM f = some bs ↔ as.map f = bs.map some := by
  induction as generalizing bs with
  | nil => cases bs <;> simp
  | cons a as ih =>
    simp only [List.mapM_cons, List.map_cons]
    cases bs with
    | nil => cases f a <;> cases as.mapM f <;> simp
    | cons b bs =>
      cases f a with
      | none => simp
      | some b' =>
        cases hbs : as.mapM f with
        | none => simp [← ih, hbs]
        | some bs' => simp [← ih, hbs]

/-- Results that come of others one by one come of the row of these. -/
theorem mapM_bind {f : α → Option β} {g : β → Option γ} (as : List α) :
    as.mapM (fun a => (f a).bind g) = (as.mapM f).bind fun bs => bs.mapM g := by
  induction as with
  | nil => rfl
  | cons a as ih =>
    rw [List.mapM_cons, List.mapM_cons, ih]
    cases f a with
    | none => rfl
    | some b =>
      cases as.mapM f with
      | none => cases hb : g b <;> simp [hb]
      | some bs => simp

end VectorLang
