import Mathlib
import VectorLang.Proofs.Success
import VectorLang.Value

/-!
# Arithmetic on vectors

An operator on two vectors works on the elements at one place, where a vector of one element has
it at every place (`elementAt`).  So what holds of integers holds of vectors place by place, and
whether there is a result at all depends on the lengths, and on the divisors.

* `Arithmetic.gives_iff`                   an operator on two integers
* `Arithmetic.onVectors?_isSome_iff`       when there is a result
* `Arithmetic.givesVector_of_onVectors?`   its length and its elements
* `Spreads.onVectors?`                     an operator on the results of others
* `Arithmetic.onVectors?_comm`, `onVectors?_assoc`, `onVectors?_distrib`, `onVectors?_sub`   laws
-/

namespace VectorLang

/-! ## Integers -/

/-- What an operator has as its result for two integers.  A quotient leaves a remainder that is
    smaller than the divisor, and has the sign of the dividend unless it is zero. -/
def Arithmetic.Gives (op : Arithmetic) (x y z : Int) : Prop :=
  match op with
  | add => z = x + y
  | sub => z = x - y
  | mul => z = x * y
  | div => ∃ r, x = y * z + r ∧ r.natAbs < y.natAbs ∧ (r = 0 ∨ r.sign = x.sign)

/-- There is just one quotient with such a remainder: the one that drops the fraction. -/
theorem quotient_iff {x y q : Int} (hy : y ≠ 0) :
    (∃ r, x = y * q + r ∧ r.natAbs < y.natAbs ∧ (r = 0 ∨ r.sign = x.sign)) ↔ q = x.tdiv y := by
  constructor
  · rintro ⟨r, hx, hr, hsign⟩
    have hsum : r + y * q = x := by omega
    rcases Int.le_total 0 x with hpos | hneg
    · have hr0 : 0 ≤ r := by
        rcases hsign with rfl | hsign
        · exact Int.le_refl 0
        · rw [← Int.sign_nonneg_iff, hsign, Int.sign_nonneg_iff]
          exact hpos
      exact ((Int.tdiv_tmod_unique hpos hy).mpr ⟨hsum, hr0, by omega⟩).1.symm
    · have hr0 : r ≤ 0 := by
        rcases hsign with rfl | hsign
        · exact Int.le_refl 0
        · rw [← Int.sign_nonpos_iff, hsign, Int.sign_nonpos_iff]
          exact hneg
      exact ((Int.tdiv_tmod_unique' hneg hy).mpr ⟨hsum, by omega, hr0⟩).1.symm
  · rintro rfl
    refine ⟨x.tmod y, (Int.mul_tdiv_add_tmod x y).symm, ?_, ?_⟩
    · rw [Int.natAbs_tmod]
      exact Nat.mod_lt _ (by omega)
    · rw [Int.sign_tmod, ← Int.sign_eq_zero_iff_zero, Int.sign_tmod]
      split
      · exact Or.inl rfl
      · exact Or.inr rfl

namespace Arithmetic

/-- An operator has a result for all integers, but for divisors of zero. -/
theorem result?_eq_none_iff {op : Arithmetic} {x y : Int} :
    op.result? x y = none ↔ op = div ∧ y = 0 := by
  cases op <;> simp [result?]

theorem gives_iff {op : Arithmetic} {x y z : Int} (h : op.result? x y = some z) (q : Int) :
    op.Gives x y q ↔ q = z := by
  cases op with
  | div =>
    simp only [result?] at h
    split at h
    · cases h
    · rename_i hy
      cases h
      exact quotient_iff hy
  | _ =>
    cases h
    exact Iff.rfl

end Arithmetic

/-! ## Places -/

/-- Whether two lengths fit: they are equal, or one of them is 1. -/
def Fits (n k : Nat) : Prop :=
  n = k ∨ n = 1 ∨ k = 1

instance (n k : Nat) : Decidable (Fits n k) :=
  inferInstanceAs (Decidable (_ ∨ _))

/-- The element of a row at a place, counted from 0, or its only element. -/
def elementAt {α : Type} (as : List α) (i : Nat) : Option α :=
  if as.length = 1 then as.head? else as[i]?

section

variable {α β : Type}

@[simp] theorem elementAt_singleton (a : α) (i : Nat) : elementAt [a] i = some a := rfl

theorem elementAt_map (f : α → β) (as : List α) (i : Nat) :
    elementAt (as.map f) i = (elementAt as i).map f := by
  rw [elementAt, elementAt, List.length_map]
  split
  · rw [List.head?_map]
  · rw [List.getElem?_map]

theorem elementAt_of_lt {as : List α} {i : Nat} (h : i < as.length) : elementAt as i = as[i]? := by
  rw [elementAt]
  split
  · obtain rfl : i = 0 := by omega
    exact List.head?_eq_getElem?
  · rfl

/-- Rows of one length are told apart by their elements. -/
theorem eq_of_elementAt {as bs : List α} (hlength : as.length = bs.length)
    (h : ∀ i, elementAt as i = elementAt bs i) : as = bs := by
  apply List.ext_getElem?
  intro i
  by_cases hi : i < as.length
  · rw [← elementAt_of_lt hi, ← elementAt_of_lt (hlength ▸ hi), h]
  · rw [List.getElem?_eq_none (by omega), List.getElem?_eq_none (by omega)]

theorem elementAt_zip {as : List α} {bs : List β} (hlength : as.length = bs.length) (i : Nat) :
    elementAt (as.zip bs) i = Option.map₂ Prod.mk (elementAt as i) (elementAt bs i) := by
  have hzip (i : Nat) : (as.zip bs)[i]? = Option.map₂ Prod.mk as[i]? bs[i]? := by
    rw [List.zip, List.getElem?_zipWith]
    cases as[i]? <;> cases bs[i]? <;> rfl
  simp only [elementAt, List.length_zip, ← hlength, Nat.min_self, List.head?_eq_getElem?, hzip]
  split <;> rfl

end

/-! ## Pairs -/

section

variable {xs ys : List Int} {pairs : List (Int × Int)}

/-- Elements are paired with those at the same place, or with the only one. -/
theorem broadcast_cases (h : broadcast xs ys = some pairs) :
    (xs.length = ys.length ∧ xs.zip ys = pairs) ∨
      (∃ x, xs = [x] ∧ ys.map (fun y => (x, y)) = pairs) ∨
      ∃ y, ys = [y] ∧ xs.map (fun x => (x, y)) = pairs := by
  unfold broadcast at h
  split at h
  · rename_i hlength
    exact Or.inl ⟨hlength, Option.some.inj h⟩
  · split at h
    · exact Or.inr (Or.inl ⟨_, rfl, Option.some.inj h⟩)
    · exact Or.inr (Or.inr ⟨_, rfl, Option.some.inj h⟩)
    · cases h

theorem broadcast_isSome_iff : (broadcast xs ys).isSome ↔ Fits xs.length ys.length := by
  constructor
  · intro h
    obtain ⟨pairs, h⟩ := Option.isSome_iff_exists.mp h
    rcases broadcast_cases h with ⟨hlength, _⟩ | ⟨x, rfl, _⟩ | ⟨y, rfl, _⟩
    · exact Or.inl hlength
    · exact Or.inr (Or.inl rfl)
    · exact Or.inr (Or.inr rfl)
  · intro h
    unfold broadcast
    split
    · rfl
    · rename_i hlength
      split
      · rfl
      · rfl
      · rename_i hxs hys
        rcases h with h | h | h
        · exact absurd h hlength
        · obtain ⟨x, rfl⟩ := List.length_eq_one_iff.mp h
          exact absurd rfl (hxs x)
        · obtain ⟨y, rfl⟩ := List.length_eq_one_iff.mp h
          exact absurd rfl (hys y)

section

variable (hx : xs ≠ []) (hy : ys ≠ []) (h : broadcast xs ys = some pairs)
include hx hy h

/-- There are as many pairs as the longer vector has elements. -/
theorem length_broadcast : pairs.length = max xs.length ys.length := by
  rw [← List.length_pos_iff] at hx hy
  rcases broadcast_cases h with ⟨hlength, rfl⟩ | ⟨x, rfl, rfl⟩ | ⟨y, rfl, rfl⟩
  · rw [List.length_zip]
    omega
  · rw [List.length_map, List.length_singleton]
    omega
  · rw [List.length_map, List.length_singleton]
    omega

omit hx hy in
theorem elementAt_broadcast (i : Nat) :
    elementAt pairs i = Option.map₂ Prod.mk (elementAt xs i) (elementAt ys i) := by
  rcases broadcast_cases h with ⟨hlength, rfl⟩ | ⟨x, rfl, rfl⟩ | ⟨y, rfl, rfl⟩
  · exact elementAt_zip hlength i
  · rw [elementAt_map, elementAt_singleton]
    rfl
  · rw [elementAt_map, elementAt_singleton]
    cases elementAt xs i <;> rfl

omit hy in
/-- Every element of the second vector is in one of the pairs. -/
theorem mem_map_snd_broadcast {y : Int} : y ∈ pairs.map Prod.snd ↔ y ∈ ys := by
  rcases broadcast_cases h with ⟨hlength, rfl⟩ | ⟨x, rfl, rfl⟩ | ⟨y, rfl, rfl⟩
  · rw [List.map_snd_zip (by omega)]
  · simp
  · obtain ⟨x, hxs⟩ := List.exists_mem_of_ne_nil xs hx
    simp only [List.map_map, List.mem_map, Function.comp_apply, List.mem_singleton]
    constructor
    · rintro ⟨_, _, rfl⟩
      rfl
    · rintro rfl
      exact ⟨x, hxs, rfl⟩

end

end

/-! ## Results -/

namespace Arithmetic

/-- The result of an operator on two vectors, if there is one. -/
def onVectors? (op : Arithmetic) (xs ys : List Int) : Option (List Int) :=
  (broadcast xs ys).bind fun pairs => pairs.mapM fun p => op.result? p.1 p.2

variable {op : Arithmetic} {xs ys zs : List Int}

/-- There is a result if the lengths fit and no divisor is zero. -/
theorem onVectors?_isSome_iff (hx : xs ≠ []) :
    (op.onVectors? xs ys).isSome ↔ Fits xs.length ys.length ∧ (op = div → 0 ∉ ys) := by
  rw [← broadcast_isSome_iff, onVectors?]
  cases hpairs : broadcast xs ys with
  | none => simp
  | some pairs =>
    have hzero : (∃ p ∈ pairs, op.result? p.1 p.2 = none) ↔ op = div ∧ 0 ∈ ys := by
      simp only [result?_eq_none_iff, ← mem_map_snd_broadcast hx hpairs, List.mem_map]
      tauto
    rw [Option.bind_some, Option.isSome_some, ← Option.ne_none_iff_isSome, ne_eq, mapM_eq_none_iff,
      hzero]
    tauto

theorem length_onVectors? (hx : xs ≠ []) (hy : ys ≠ []) (h : op.onVectors? xs ys = some zs) :
    zs.length = max xs.length ys.length := by
  obtain ⟨pairs, hpairs, h⟩ := Option.bind_eq_some_iff.mp h
  have hlength := congrArg List.length (mapM_eq_some_iff.mp h)
  rw [List.length_map, List.length_map, length_broadcast hx hy hpairs] at hlength
  exact hlength.symm

/-- The operator is applied to the elements at each place. -/
theorem elementAt_onVectors? (h : op.onVectors? xs ys = some zs) (i : Nat) :
    (elementAt zs i).map some = Option.map₂ op.result? (elementAt xs i) (elementAt ys i) := by
  obtain ⟨pairs, hpairs, h⟩ := Option.bind_eq_some_iff.mp h
  rw [← elementAt_map, ← mapM_eq_some_iff.mp h, elementAt_map, elementAt_broadcast hpairs,
    Option.map_map₂]

/-- Whether a vector is as long as the longer one of two others, and has at each place just what an
    operator gives for their elements there. -/
structure GivesVector (op : Arithmetic) (xs ys zs : List Int) : Prop where
  length : zs.length = max xs.length ys.length
  element (i : Nat) (h : i < zs.length) : ∃ x y, elementAt xs i = some x ∧
    elementAt ys i = some y ∧ ∀ z, op.Gives x y z ↔ z = zs[i]

theorem givesVector_of_onVectors? (hx : xs ≠ []) (hy : ys ≠ [])
    (h : op.onVectors? xs ys = some zs) : op.GivesVector xs ys zs where
  length := length_onVectors? hx hy h
  element i hi := by
    have helement := elementAt_onVectors? h i
    rw [elementAt_of_lt hi, List.getElem?_eq_getElem hi, Option.map_some, eq_comm,
      Option.map₂_eq_some_iff] at helement
    obtain ⟨x, y, hxi, hyi, hresult⟩ := helement
    exact ⟨x, y, hxi, hyi, gives_iff hresult⟩

end Arithmetic

/-! ## Laws -/

/-- Whether an outcome is a vector of `n` elements, those that `g` gives, if `fits` holds, and
    none otherwise. -/
structure Spreads (o : Option (List Int)) (fits : Prop) (n : Nat) (g : Nat → Option Int) :
    Prop where
  pos : 0 < n
  isSome : o.isSome ↔ fits
  length {vs : List Int} : o = some vs → vs.length = n
  element {vs : List Int} : o = some vs → ∀ i, elementAt vs i = g i

namespace Spreads

variable {o o₁ o₂ : Option (List Int)} {fits fits₁ fits₂ : Prop} {n n₁ n₂ : Nat}
  {g g₁ g₂ : Nat → Option Int}

/-- What is known of such an outcome determines it. -/
theorem eq (h₁ : Spreads o₁ fits₁ n₁ g₁) (h₂ : Spreads o₂ fits₂ n₂ g₂) (hfits : fits₁ ↔ fits₂)
    (hlength : n₁ = n₂) (helement : ∀ i, g₁ i = g₂ i) : o₁ = o₂ := by
  have hsome : o₁.isSome ↔ o₂.isSome := by rw [h₁.isSome, h₂.isSome, hfits]
  cases ho₁ : o₁ with
  | none =>
    rw [ho₁, Option.isSome_none] at hsome
    exact (Option.not_isSome_iff_eq_none.mp fun h => Bool.false_ne_true (hsome.mpr h)).symm
  | some vs =>
    obtain ⟨ws, ho₂⟩ : ∃ ws, o₂ = some ws := by
      rw [← Option.isSome_iff_exists, ← hsome, ho₁]
      rfl
    have hvs : vs = ws := by
      apply eq_of_elementAt
      · rw [h₁.length ho₁, h₂.length ho₂, hlength]
      · intro i
        rw [h₁.element ho₁, h₂.element ho₂, helement]
    rw [ho₂, hvs]

theorem of_ne_nil {xs : List Int} (hx : xs ≠ []) :
    Spreads (some xs) True xs.length (elementAt xs) where
  pos := List.length_pos_iff.mpr hx
  isSome := by simp
  length h := by rw [Option.some.inj h]
  element h i := by rw [Option.some.inj h]

theorem ne_nil (h : Spreads o fits n g) {xs : List Int} (ho : o = some xs) : xs ≠ [] := by
  rw [← List.length_pos_iff, h.length ho]
  exact h.pos

/-- An operator that has a result for all integers is applied to vectors. -/
theorem onVectors? {op : Arithmetic} {f : Int → Int → Int}
    (hop : ∀ x y, op.result? x y = some (f x y)) (h₁ : Spreads o₁ fits₁ n₁ g₁)
    (h₂ : Spreads o₂ fits₂ n₂ g₂) :
    Spreads (do op.onVectors? (← o₁) (← o₂)) (fits₁ ∧ fits₂ ∧ Fits n₁ n₂) (max n₁ n₂)
      fun i => Option.map₂ f (g₁ i) (g₂ i) := by
  have hoperands {zs : List Int} (h : (do op.onVectors? (← o₁) (← o₂)) = some zs) :
      ∃ xs ys, o₁ = some xs ∧ o₂ = some ys ∧ op.onVectors? xs ys = some zs := by
    obtain ⟨xs, ho₁, h⟩ := Option.bind_eq_some_iff.mp h
    obtain ⟨ys, ho₂, h⟩ := Option.bind_eq_some_iff.mp h
    exact ⟨xs, ys, ho₁, ho₂, h⟩
  constructor
  · exact Nat.lt_of_lt_of_le h₁.pos (Nat.le_max_left _ _)
  · rw [← h₁.isSome, ← h₂.isSome]
    cases ho₁ : o₁ with
    | none => simp
    | some xs =>
      cases ho₂ : o₂ with
      | none => simp
      | some ys =>
        have hdiv : op ≠ .div := by
          rintro rfl
          cases hop 0 0
        have hsome : (op.onVectors? xs ys).isSome ↔ Fits n₁ n₂ := by
          rw [Arithmetic.onVectors?_isSome_iff (h₁.ne_nil ho₁), h₁.length ho₁, h₂.length ho₂]
          simp [hdiv]
        simpa using hsome
  · intro zs h
    obtain ⟨xs, ys, ho₁, ho₂, h⟩ := hoperands h
    rw [Arithmetic.length_onVectors? (h₁.ne_nil ho₁) (h₂.ne_nil ho₂) h, h₁.length ho₁,
      h₂.length ho₂]
  · intro zs h i
    obtain ⟨xs, ys, ho₁, ho₂, h⟩ := hoperands h
    have helement := Arithmetic.elementAt_onVectors? h i
    rw [funext₂ hop, ← Option.map_map₂, h₁.element ho₁, h₂.element ho₂] at helement
    exact Option.map_injective (Option.some_injective _) helement

end Spreads

namespace Arithmetic

variable {op : Arithmetic} {f : Int → Int → Int} {xs ys zs : List Int}

/-- The operands may be exchanged if those of the operator on integers may. -/
theorem onVectors?_comm (hop : ∀ x y, op.result? x y = some (f x y)) (hf : ∀ x y, f x y = f y x)
    (hx : xs ≠ []) (hy : ys ≠ []) : op.onVectors? xs ys = op.onVectors? ys xs := by
  have hxs := Spreads.of_ne_nil hx
  have hys := Spreads.of_ne_nil hy
  apply (hxs.onVectors? hop hys).eq (hys.onVectors? hop hxs)
  · simp only [Fits, true_and]
    omega
  · exact Nat.max_comm _ _
  · intro i
    exact Option.map₂_comm hf

theorem onVectors?_assoc (hop : ∀ x y, op.result? x y = some (f x y))
    (hf : ∀ x y z, f (f x y) z = f x (f y z)) (hx : xs ≠ []) (hy : ys ≠ []) (hz : zs ≠ []) :
    (do op.onVectors? (← op.onVectors? xs ys) zs) =
      (do op.onVectors? xs (← op.onVectors? ys zs)) := by
  have hxs := Spreads.of_ne_nil hx
  have hys := Spreads.of_ne_nil hy
  have hzs := Spreads.of_ne_nil hz
  apply ((hxs.onVectors? hop hys).onVectors? hop hzs).eq
    (hxs.onVectors? hop (hys.onVectors? hop hzs))
  · have := hxs.pos
    have := hys.pos
    have := hzs.pos
    simp only [Fits, true_and]
    omega
  · exact Nat.max_assoc _ _ _
  · intro i
    exact Option.map₂_assoc hf

theorem onVectors?_distrib (hx : xs ≠ []) (hy : ys ≠ []) (hz : zs ≠ []) :
    (do mul.onVectors? xs (← add.onVectors? ys zs)) =
      (do add.onVectors? (← mul.onVectors? xs ys) (← mul.onVectors? xs zs)) := by
  have hxs := Spreads.of_ne_nil hx
  have hys := Spreads.of_ne_nil hy
  have hzs := Spreads.of_ne_nil hz
  have hadd (x y : Int) : add.result? x y = some (x + y) := rfl
  have hmul (x y : Int) : mul.result? x y = some (x * y) := rfl
  apply (hxs.onVectors? hmul (hys.onVectors? hadd hzs)).eq
    ((hxs.onVectors? hmul hys).onVectors? hadd (hxs.onVectors? hmul hzs))
  · have := hxs.pos
    have := hys.pos
    have := hzs.pos
    simp only [Fits, true_and]
    omega
  · omega
  · intro i
    cases elementAt xs i <;> cases elementAt ys i <;> cases elementAt zs i <;>
      simp [Int.mul_add]

/-- To subtract is to add what is negated. -/
theorem onVectors?_sub (hx : xs ≠ []) (hy : ys ≠ []) :
    sub.onVectors? xs ys = add.onVectors? xs (ys.map fun y => -y) := by
  have hxs := Spreads.of_ne_nil hx
  have hnegated : ys.map (fun y => -y) ≠ [] := by simpa using hy
  have hadd (x y : Int) : add.result? x y = some (x + y) := rfl
  have hsub (x y : Int) : sub.result? x y = some (x - y) := rfl
  apply (hxs.onVectors? hsub (Spreads.of_ne_nil hy)).eq
    (hxs.onVectors? hadd (Spreads.of_ne_nil hnegated))
  · rw [List.length_map]
  · rw [List.length_map]
  · intro i
    rw [elementAt_map, Option.map₂_map_right]
    cases elementAt xs i <;> cases elementAt ys i <;> simp [Int.sub_eq_add_neg]

end Arithmetic

end VectorLang
