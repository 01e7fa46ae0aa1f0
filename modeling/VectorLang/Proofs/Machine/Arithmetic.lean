import Mathlib
import VectorLang.Proofs.Machine.Values
import VectorLang.Proofs.Value.Broadcast

/-!
# Arithmetic in a run

The operands of an operator are evaluated one after the other, and what they come to is all that
matters: whether the operator has a result for the two vectors, and which check fails if it has
none.

* `eval_binary_eq`      an operator on two vectors
* `arithmetic_exact`    when there is a result, its elements, and the laws it obeys
-/

namespace VectorLang

open Exec

section

variable {ctx : Context} {n : Nat} {left right operand : Node} {m m₁ m₂ : Machine}
  {xs ys : List Int}

/-- An operator on two vectors has the result that it has for their elements.  Where there is none,
    the lengths do not fit, or else a divisor is zero. -/
theorem eval_binary_eq (hleft : eval ctx n left m = .ok (some (.ints xs)) m₁)
    (hright : eval ctx n right m₁ = .ok (some (.ints ys)) m₂) (location : Location)
    (op : Arithmetic) :
    eval ctx (n + 1) (.binary location op left right) m =
      match op.onVectors? xs ys with
      | some zs => .ok (some (.ints zs)) m₂
      | none => .error (.fault ⟨if Fits xs.length ys.length then .divisionByZero
          else .unequalOperands op, some location⟩) m₂ := by
  have hoperator : evalBinary (eval ctx n) location op left right m =
      (ofOption (.unequalOperands op) location (broadcast xs ys) >>= fun pairs =>
        .ints <$> ofOption .divisionByZero location
          (pairs.mapM fun p => op.result? p.1 p.2)) m₂ := by
    rw [evalBinary, bind_of_ok hleft, bind_of_ok hright]
  have hfits := @broadcast_isSome_iff xs ys
  show EStateM.map some (evalBinary (eval ctx n) location op left right) m = _
  rw [EStateM.map, hoperator, Arithmetic.onVectors?]
  cases hpairs : broadcast xs ys with
  | none =>
    rw [hpairs, Option.isSome_none] at hfits
    rw [if_neg fun h => Bool.false_ne_true (hfits.mpr h)]
    rfl
  | some pairs =>
    rw [hpairs, Option.isSome_some] at hfits
    rw [if_pos (hfits.mp rfl), Option.bind_some, ofOption, pure_bind]
    cases pairs.mapM fun p => op.result? p.1 p.2 with
    | none => rfl
    | some zs => rfl

theorem eval_negation_eq (hoperand : eval ctx n operand m = .ok (some (.ints xs)) m₁)
    (location : Location) :
    eval ctx (n + 1) (.unary location .negation operand) m =
      .ok (some (.ints (xs.map fun x => -x))) m₁ := by
  show EStateM.map some (evalUnary (eval ctx n) location .negation operand) m = _
  rw [EStateM.map, evalUnary, bind_of_ok hoperand]
  rfl

end

/-- A vector that a run computes has an element.  For vectors that have one: the operands of an
    operator must fit in length, which is checked first, and no divisor may be zero.  The result is
    as long as the longer operand, and at each place it has just what the operator gives for the
    elements there.  Addition and multiplication are commutative and associative, the one
    distributes over the other, and to subtract is to add the negation, where an operation that
    fails makes the whole fail. -/
theorem arithmetic_exact (ctx : Context) :
    (∀ fuel m, ctx.Visits fuel m → ∀ n node xs m',
      eval ctx n node m = .ok (some (.ints xs)) m' → xs ≠ []) ∧
    (∀ n location op left right m m₁ m₂ xs ys,
      eval ctx n left m = .ok (some (.ints xs)) m₁ →
      eval ctx n right m₁ = .ok (some (.ints ys)) m₂ → xs ≠ [] → ys ≠ [] →
      (¬ Fits xs.length ys.length → op.onVectors? xs ys = none ∧
        eval ctx (n + 1) (.binary location op left right) m =
          .error (.fault ⟨.unequalOperands op, some location⟩) m₂) ∧
      (Fits xs.length ys.length → op = .div → 0 ∈ ys → op.onVectors? xs ys = none ∧
        eval ctx (n + 1) (.binary location op left right) m =
          .error (.fault ⟨.divisionByZero, some location⟩) m₂) ∧
      (Fits xs.length ys.length → (op = .div → 0 ∉ ys) → ∃ zs, op.onVectors? xs ys = some zs ∧
        eval ctx (n + 1) (.binary location op left right) m = .ok (some (.ints zs)) m₂ ∧
        op.GivesVector xs ys zs)) ∧
    (∀ n location operand m m' xs, eval ctx n operand m = .ok (some (.ints xs)) m' →
      eval ctx (n + 1) (.unary location .negation operand) m =
        .ok (some (.ints (xs.map fun x => -x))) m') ∧
    ∀ xs ys zs : List Int, xs ≠ [] → ys ≠ [] → zs ≠ [] →
      (∀ op ∈ [Arithmetic.add, Arithmetic.mul],
        op.onVectors? xs ys = op.onVectors? ys xs ∧
        (do op.onVectors? (← op.onVectors? xs ys) zs) =
          (do op.onVectors? xs (← op.onVectors? ys zs))) ∧
      (do Arithmetic.mul.onVectors? xs (← Arithmetic.add.onVectors? ys zs)) =
        (do
          let products ← Arithmetic.mul.onVectors? xs ys
          Arithmetic.add.onVectors? products (← Arithmetic.mul.onVectors? xs zs)) ∧
      Arithmetic.sub.onVectors? xs ys =
        Arithmetic.add.onVectors? xs (ys.map fun y => -y) := by
  refine ⟨?_, ?_, ?_, ?_⟩
  · intro fuel m hvisits n node xs m' hnode
    exact ((yields_eval n node).ok (proper_of_visits hvisits) hnode).2 _ rfl
  · intro n location op left right m m₁ m₂ xs ys hleft hright hx hy
    have heval := eval_binary_eq hleft hright location op
    have hsome := @Arithmetic.onVectors?_isSome_iff op xs ys hx
    refine ⟨fun hfits => ?_, fun hfits hdiv hzero => ?_, fun hfits hdiv => ?_⟩
    · have hnone : op.onVectors? xs ys = none :=
        Option.not_isSome_iff_eq_none.mp fun h => hfits (hsome.mp h).1
      rw [hnone, if_neg hfits] at heval
      exact ⟨hnone, heval⟩
    · have hnone : op.onVectors? xs ys = none :=
        Option.not_isSome_iff_eq_none.mp fun h => (hsome.mp h).2 hdiv hzero
      rw [hnone, if_pos hfits] at heval
      exact ⟨hnone, heval⟩
    · obtain ⟨zs, hzs⟩ := Option.isSome_iff_exists.mp (hsome.mpr ⟨hfits, hdiv⟩)
      rw [hzs] at heval
      exact ⟨zs, hzs, heval, Arithmetic.givesVector_of_onVectors? hx hy hzs⟩
  · intro n location operand m m' xs hoperand
    exact eval_negation_eq hoperand location
  · intro xs ys zs hx hy hz
    refine ⟨fun op hop => ?_, Arithmetic.onVectors?_distrib hx hy hz,
      Arithmetic.onVectors?_sub hx hy⟩
    rcases List.mem_pair.mp hop with rfl | rfl
    · exact ⟨Arithmetic.onVectors?_comm (fun _ _ => rfl) Int.add_comm hx hy,
        Arithmetic.onVectors?_assoc (fun _ _ => rfl) Int.add_assoc hx hy hz⟩
    · exact ⟨Arithmetic.onVectors?_comm (fun _ _ => rfl) Int.mul_comm hx hy,
        Arithmetic.onVectors?_assoc (fun _ _ => rfl) Int.mul_assoc hx hy hz⟩

/-- A vector of two numbers, one of them negative. -/
def sevens : Node :=
  .vector copierCall.location [.int copierCall.location (-7), .int copierCall.location 7]

theorem arithmetic_exact_sevens :
    Context.Visits ⟨copyingTable, false⟩ 2 copyingOpened ∧
    eval ⟨copyingTable, false⟩ 3
        (.binary copierCall.location .div sevens (.int copierCall.location 2)) copyingOpened =
      .ok (some (.ints [-3, 3])) copyingOpened ∧
    Arithmetic.div.GivesVector [-7, 7] [2] [-3, 3] ∧
    eval ⟨copyingTable, false⟩ 3
        (.binary copierCall.location .div sevens (.int copierCall.location 0)) copyingOpened =
      .error (.fault ⟨.divisionByZero, some copierCall.location⟩) copyingOpened := by
  have hvisits : Context.Visits ⟨copyingTable, false⟩ 2 copyingOpened :=
    .opens reaches_copierCall pushes_copierCall
  obtain ⟨hproper, hbinary, -⟩ := arithmetic_exact ⟨copyingTable, false⟩
  have hsevens : eval ⟨copyingTable, false⟩ 2 sevens copyingOpened =
      .ok (some (.ints [-7, 7])) copyingOpened := by rfl
  have hint (k : Int) : eval ⟨copyingTable, false⟩ 2 (.int copierCall.location k) copyingOpened =
      .ok (some (.ints [k])) copyingOpened := by rfl
  have hne : [-7, 7] ≠ [] := hproper 2 copyingOpened hvisits 2 sevens _ _ hsevens
  have hnek (k : Int) : [k] ≠ [] := hproper 2 copyingOpened hvisits 2 _ _ _ (hint k)
  obtain ⟨-, -, hquotient⟩ := hbinary 2 copierCall.location .div _ _ _ _ _ _ _ hsevens (hint 2) hne
    (hnek 2)
  obtain ⟨zs, hzs, heval, hgives⟩ := hquotient (by decide) (by decide)
  obtain ⟨-, hzero, -⟩ := hbinary 2 copierCall.location .div _ _ _ _ _ _ _ hsevens (hint 0) hne
    (hnek 0)
  have hquotients : Arithmetic.div.onVectors? [-7, 7] [2] = some [-3, 3] := by decide
  obtain rfl : [-3, 3] = zs := Option.some.inj (hquotients.symm.trans hzs)
  exact ⟨hvisits, heval, hgives, (hzero (by decide) rfl (by decide)).2⟩

end VectorLang
