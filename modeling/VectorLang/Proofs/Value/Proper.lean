import Mathlib
import VectorLang.Proofs.Value.Broadcast

/-!
# Vectors with an element

No operation makes a vector of no elements of vectors that have one: values are joined where there
are any, an element is picked for each place that is asked for, and arithmetic gives a vector as
long as its longer operand.  Between such values a comparison and its contrary are never both true.

* `Value.Proper.join`, `Value.Proper.select`, `Value.Proper.arithmetic`   the operations
* `Relation.not_between_negated`   a comparison excludes its contrary
* `Relation.between_negated`       between single elements one of the two holds
* `Relation.between_eq_iff`        equal values are the same value
-/

namespace VectorLang

namespace Value

/-- Whether a value is a text, or a vector that has an element. -/
def Proper : Value → Prop
  | ints elements => elements ≠ []
  | text _ => True

/-! ## Operations -/

/-- Values that are joined make a value that is proper, if the first of them is. -/
theorem Proper.join {values : List Value} {v : Value} (hvalues : ∀ v ∈ values, v.Proper)
    (h : join? values = some v) : v.Proper := by
  cases values with
  | nil => cases h
  | cons first values =>
    cases first with
    | ints elements =>
      obtain ⟨joined, hjoined, rfl⟩ := Option.map_eq_some_iff.mp h
      obtain ⟨others, -, rfl⟩ := Option.map_eq_some_iff.mp hjoined
      have hfirst : elements ≠ [] := hvalues (ints elements) List.mem_cons_self
      exact List.append_ne_nil_of_left_ne_nil hfirst others
    | text s =>
      obtain ⟨joined, -, rfl⟩ := Option.map_eq_some_iff.mp h
      trivial

/-- What is picked has as many elements as there are places. -/
theorem length_gather? {α : Type} {elements picked : List α} {places : List Int}
    (h : gather? elements places = some picked) : picked.length = places.length := by
  have hlength := congrArg List.length (mapM_eq_some_iff.mp h)
  rwa [List.length_map, List.length_map, eq_comm] at hlength

/-- Where there is a place to pick, something is picked. -/
theorem Proper.select {v w : Value} {places : List Int} (hplaces : places ≠ [])
    (h : v.select? places = some w) : w.Proper := by
  cases v with
  | ints elements =>
    obtain ⟨picked, hpicked, rfl⟩ := Option.map_eq_some_iff.mp h
    have hlength := length_gather? hpicked
    show picked ≠ []
    rw [← List.length_pos_iff] at hplaces ⊢
    omega
  | text s =>
    obtain ⟨picked, -, rfl⟩ := Option.map_eq_some_iff.mp h
    trivial

/-- Arithmetic on vectors with an element gives such a vector. -/
theorem Proper.arithmetic {op : Arithmetic} {xs ys zs : List Int} (hx : (ints xs).Proper)
    (hy : (ints ys).Proper) (h : op.onVectors? xs ys = some zs) : (ints zs).Proper := by
  have hlength := Arithmetic.length_onVectors? hx hy h
  have hpos : 0 < xs.length := List.length_pos_iff.mpr hx
  show zs ≠ []
  rw [← List.length_pos_iff, hlength]
  omega

/-! ## Comparisons -/

/-- Whether two values can be compared: two vectors of one length, or two texts. -/
def Comparable : Value → Value → Prop
  | ints xs, ints ys => xs.length = ys.length
  | text _, text _ => True
  | _, _ => False

/-- Whether a value is a text, or a vector of just one element. -/
def IsSingle : Value → Prop
  | ints elements => elements.length = 1
  | text _ => True

end Value

namespace Relation

/-- Whether two values stand in a relation, all of their elements if they are vectors. -/
def between (r : Relation) : Value → Value → Bool
  | .ints xs, .ints ys => (xs.zip ys).all fun p => r.holds p.1 p.2
  | .text s, .text t => r.holds s t
  | _, _ => false

/-- The contrary of a relation. -/
def negated : Relation → Relation
  | lte => gt
  | lt => gte
  | eq => neq
  | neq => eq
  | gt => lte
  | gte => lt

/-- Of two elements, either a relation holds or its contrary. -/
theorem holds_negated {α : Type} [DecidableEq α] [LT α] [DecidableLT α] (r : Relation) (x y : α) :
    r.negated.holds x y = !r.holds x y := by
  cases r <;> simp [negated, holds]

variable {x y : Value}

theorem not_between_negated (r : Relation) (hx : x.Proper) (hcomparable : x.Comparable y) :
    ¬ (r.between x y = true ∧ r.negated.between x y = true) := by
  rintro ⟨h, hnegated⟩
  cases x with
  | ints xs =>
    cases y with
    | ints ys =>
      have hlength : xs.length = ys.length := hcomparable
      -- the first elements stand in both relations
      obtain ⟨p, hp⟩ : ∃ p, p ∈ xs.zip ys := by
        apply List.exists_mem_of_ne_nil
        rw [← List.length_pos_iff, List.length_zip, ← hlength, Nat.min_self, List.length_pos_iff]
        exact hx
      have hfirst := List.all_eq_true.mp hnegated p hp
      rw [holds_negated, List.all_eq_true.mp h p hp] at hfirst
      cases hfirst
    | text t => cases h
  | text s =>
    cases y with
    | ints ys => cases h
    | text t =>
      have htexts : r.negated.holds s t = true := hnegated
      have hholds : r.holds s t = true := h
      rw [holds_negated, hholds] at htexts
      cases htexts

theorem between_negated (r : Relation) (hx : x.IsSingle) (hy : y.IsSingle)
    (hcomparable : x.Comparable y) : r.negated.between x y = !r.between x y := by
  cases x with
  | ints xs =>
    cases y with
    | ints ys =>
      obtain ⟨a, rfl⟩ := List.length_eq_one_iff.mp hx
      obtain ⟨b, rfl⟩ := List.length_eq_one_iff.mp hy
      simp [between, holds_negated]
    | text t => cases hcomparable
  | text s =>
    cases y with
    | ints ys => cases hcomparable
    | text t => exact holds_negated r s t

/-- Values are equal if they are the same value. -/
theorem between_eq_iff (hcomparable : x.Comparable y) : eq.between x y = true ↔ x = y := by
  cases x with
  | ints xs =>
    cases y with
    | ints ys =>
      rw [Value.ints.injEq, ← List.forall₂_eq_eq_eq, List.forall₂_iff_zip]
      simp only [between, holds, List.all_eq_true, decide_eq_true_eq]
      constructor
      · intro h
        exact ⟨hcomparable, fun hp => h _ hp⟩
      · rintro ⟨_, h⟩ p hp
        exact h hp
    | text t => cases hcomparable
  | text s =>
    cases y with
    | ints ys => cases hcomparable
    | text t => simp [between, holds]

end Relation

end VectorLang
