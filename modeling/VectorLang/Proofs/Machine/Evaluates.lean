import Mathlib
import VectorLang.Proofs.Machine.Fuel
import VectorLang.Proofs.Machine.Transition

/-!
# Evaluations that end

An evaluation that comes to an end does so with some fuel, and more fuel changes nothing.  So fuel
need not be spoken of where only evaluations that end matter: what a node comes to is told by what
the nodes below it come to.

* `Evaluates.unique`          an evaluation has one end
* `evaluatesAll_append_iff`   rows of nodes, one after another
* `evaluates_vector_iff`      vectors
* `evaluates_length_iff`      lengths
* `evaluates_subscript_iff`   variables with a subscript
-/

namespace VectorLang

open Exec

/-- Whether evaluating a node in a state ends, with a value or without one, in another state. -/
def Context.Evaluates (ctx : Context) (node : Node) (m : Machine) (v : Option Value)
    (m' : Machine) : Prop :=
  ∃ n, eval ctx n node m = .ok v m'

/-- Whether evaluating nodes one after another ends with a value for each of them. -/
inductive Context.EvaluatesAll (ctx : Context) :
    List Node → Machine → List Value → Machine → Prop where
  | nil (m : Machine) : ctx.EvaluatesAll [] m [] m
  | cons {node : Node} {nodes : List Node} {m m₁ m' : Machine} {v : Value} {vs : List Value} :
      ctx.Evaluates node m (some v) m₁ → ctx.EvaluatesAll nodes m₁ vs m' →
      ctx.EvaluatesAll (node :: nodes) m (v :: vs) m'

variable {ctx : Context} {node : Node} {m m' : Machine} {v : Option Value}

theorem Context.Evaluates.unique {v₁ v₂ : Option Value} {m₁ m₂ : Machine}
    (h₁ : ctx.Evaluates node m v₁ m₁) (h₂ : ctx.Evaluates node m v₂ m₂) : v₁ = v₂ ∧ m₁ = m₂ := by
  obtain ⟨n₁, h₁⟩ := h₁
  obtain ⟨n₂, h₂⟩ := h₂
  have hmax₁ := (refines_eval ctx (Nat.le_max_left n₁ n₂) node).ok h₁
  have hmax₂ := (refines_eval ctx (Nat.le_max_right n₁ n₂) node).ok h₂
  exact EStateM.Result.ok.inj (hmax₁.symm.trans hmax₂)

/-- A node is evaluated by the rule for its kind. -/
theorem evaluates_iff :
    ctx.Evaluates node m v m' ↔ ∃ n, evalStep ctx (eval ctx n) n node m = .ok v m' := by
  constructor
  · rintro ⟨n, h⟩
    cases n with
    | zero => cases h
    | succ n => exact ⟨n, h⟩
  · rintro ⟨n, h⟩
    exact ⟨n + 1, h⟩

theorem ofOption_eq_ok {α : Type} {cause : FaultCause} {location : Location} {o : Option α}
    {a : α} : ofOption cause location o m = .ok a m' ↔ o = some a ∧ m = m' := by
  cases o with
  | none => simp [ofOption, fail]
  | some b => simp [ofOption]

/-! ## Rows of nodes -/

/-- The values of a row of nodes, one after another. -/
def evalElements (ev : Evaluator) (elements : List Node) : Exec (List Value) :=
  elements.mapM fun element => do
    ofOption .undefinedElement element.location (← ev element)

theorem evalElements_cons_eq_ok {ev : Evaluator} {nodes : List Node} {vs : List Value} :
    evalElements ev (node :: nodes) m = .ok vs m' ↔
      ∃ v m₁ ws, ev node m = .ok (some v) m₁ ∧ evalElements ev nodes m₁ = .ok ws m' ∧
        vs = v :: ws := by
  simp only [evalElements, List.mapM_cons, bind_eq_ok, ofOption_eq_ok, pure_eq_ok]
  constructor
  · rintro ⟨v, m₁, ⟨_, _, hv, rfl, rfl⟩, ws, m₂, hws, rfl, rfl⟩
    exact ⟨v, _, ws, hv, hws, rfl⟩
  · rintro ⟨v, m₁, ws, hv, hws, rfl⟩
    exact ⟨v, m₁, ⟨_, _, hv, rfl, rfl⟩, ws, m', hws, rfl, rfl⟩

/-- A row of nodes whose evaluation ends does the same with more fuel. -/
theorem refines_evalElements {n n' : Nat} (hle : n ≤ n') (nodes : List Node) :
    Refines (evalElements (eval ctx n) nodes) (evalElements (eval ctx n') nodes) :=
  Refines.sequential.mapM nodes fun node _ =>
    Refines.bind (refines_eval ctx hle node) fun _ => Refines.refl _

theorem evaluatesAll_iff {nodes : List Node} {vs : List Value} :
    ctx.EvaluatesAll nodes m vs m' ↔ ∃ n, evalElements (eval ctx n) nodes m = .ok vs m' := by
  constructor
  · intro h
    induction h with
    | nil m => exact ⟨0, rfl⟩
    | cons hv _ ih =>
      -- the larger fuel is enough for the first node and for the others
      obtain ⟨n₁, hv⟩ := hv
      obtain ⟨n₂, hvs⟩ := ih
      have hv := (refines_eval ctx (Nat.le_max_left n₁ n₂) _).ok hv
      have hvs := (refines_evalElements (Nat.le_max_right n₁ n₂) _).ok hvs
      exact ⟨max n₁ n₂, evalElements_cons_eq_ok.mpr ⟨_, _, _, hv, hvs, rfl⟩⟩
  · rintro ⟨n, h⟩
    induction nodes generalizing m vs with
    | nil =>
      obtain ⟨rfl, rfl⟩ := pure_eq_ok.mp h
      exact .nil m
    | cons node nodes ih =>
      obtain ⟨v, m₁, ws, hv, hws, rfl⟩ := evalElements_cons_eq_ok.mp h
      exact .cons ⟨n, hv⟩ (ih hws)

/-- A row of nodes that is made of two is evaluated one after the other. -/
theorem evaluatesAll_append_iff {xs ys : List Node} {vs : List Value} :
    ctx.EvaluatesAll (xs ++ ys) m vs m' ↔
      ∃ us ws m₁, ctx.EvaluatesAll xs m us m₁ ∧ ctx.EvaluatesAll ys m₁ ws m' ∧ vs = us ++ ws := by
  constructor
  · intro h
    induction xs generalizing m vs with
    | nil => exact ⟨[], vs, m, .nil m, h, rfl⟩
    | cons x xs ih =>
      cases h with
      | cons hx h =>
        obtain ⟨us, ws, m₁, hus, hws, rfl⟩ := ih h
        exact ⟨_ :: us, ws, m₁, .cons hx hus, hws, rfl⟩
  · rintro ⟨us, ws, m₁, hus, hws, rfl⟩
    -- by induction on the first row; the second one starts where that ends
    induction hus with
    | nil m => exact hws
    | cons hx _ ih => exact .cons hx (ih hws)

theorem evaluatesAll_cons_iff {nodes : List Node} {vs : List Value} :
    ctx.EvaluatesAll (node :: nodes) m vs m' ↔
      ∃ v ws m₁, ctx.Evaluates node m (some v) m₁ ∧ ctx.EvaluatesAll nodes m₁ ws m' ∧
        vs = v :: ws := by
  constructor
  · intro h
    cases h with
    | cons hv hvs => exact ⟨_, _, _, hv, hvs, rfl⟩
  · rintro ⟨v, ws, m₁, hv, hws, rfl⟩
    exact .cons hv hws

/-! ## Rules -/

/-- A vector has the values of its elements, joined. -/
theorem evaluates_vector_iff {location : Location} {elements : List Node} :
    ctx.Evaluates (.vector location elements) m v m' ↔
      ∃ values w, ctx.EvaluatesAll elements m values m' ∧ Value.join? values = some w ∧
        v = some w := by
  have hrule (n : Nat) : evalStep ctx (eval ctx n) n (.vector location elements) =
      some <$> (evalElements (eval ctx n) elements >>= fun values =>
        ofOption .mixedElements location (Value.join? values)) := rfl
  simp only [evaluates_iff, hrule, map_eq_ok, bind_eq_ok, ofOption_eq_ok, evaluatesAll_iff]
  constructor
  · rintro ⟨n, w, ⟨values, _, hvalues, hw, rfl⟩, rfl⟩
    exact ⟨values, w, ⟨n, hvalues⟩, hw, rfl⟩
  · rintro ⟨values, w, ⟨n, hvalues⟩, hw, rfl⟩
    exact ⟨n, w, ⟨values, m', hvalues, hw, rfl⟩, rfl⟩

/-- A length is that of the value. -/
theorem evaluates_length_iff {location : Location} {operand : Node} :
    ctx.Evaluates (.unary location .length operand) m v m' ↔
      ∃ w, ctx.Evaluates operand m (some w) m' ∧ v = some (.ints [(w.length : Int)]) := by
  have hrule (n : Nat) : evalStep ctx (eval ctx n) n (.unary location .length operand) =
      some <$> evalUnary (eval ctx n) location .length operand := rfl
  rw [evaluates_iff]
  simp only [hrule, evalUnary, map_eq_ok, bind_eq_ok]
  constructor
  · rintro ⟨n, _, ⟨w, m₁, hw, h⟩, rfl⟩
    cases w with
    | none => cases h
    | some w =>
      cases h
      exact ⟨w, ⟨n, hw⟩, rfl⟩
  · rintro ⟨w, ⟨n, hw⟩, rfl⟩
    exact ⟨n, _, ⟨some w, m', hw, rfl⟩, rfl⟩

theorem readVariable_eq_ok {location : Location} {isGlobal : Bool} {name : String} {w : Value} :
    readVariable location isGlobal name m = .ok w m' ↔
      (m.stack.owner isGlobal).vars.get? name = some w ∧ m = m' := by
  rw [readVariable_eq]
  cases (m.stack.owner isGlobal).vars.get? name with
  | none => simp
  | some w => simp

/-- A variable with a subscript has the part of its value at the places that the subscript
    gives. -/
theorem evaluates_subscript_iff {location : Location} {isGlobal : Bool} {name : String}
    {subscript : Node} :
    ctx.Evaluates (.var location isGlobal name (some subscript)) m v m' ↔
      ∃ w places u, (m.stack.owner isGlobal).vars.get? name = some w ∧
        ctx.Evaluates subscript m (some (.ints places)) m' ∧ w.select? places = some u ∧
        v = some u := by
  have hrule (n : Nat) :
      evalStep ctx (eval ctx n) n (.var location isGlobal name (some subscript)) =
        some <$> evalVar (eval ctx n) location isGlobal name (some subscript) := rfl
  rw [evaluates_iff]
  simp only [hrule, evalVar_eq, map_eq_ok, bind_eq_ok, readVariable_eq_ok]
  constructor
  · rintro ⟨n, u, ⟨w, _, ⟨hw, rfl⟩, places, m₁, hplaces, h⟩, rfl⟩
    -- anything but a vector as a subscript is a fault
    cases places with
    | none => cases h
    | some places =>
      cases places with
      | text shown => cases h
      | ints places =>
        obtain ⟨hu, rfl⟩ := ofOption_eq_ok.mp h
        exact ⟨w, places, u, hw, ⟨n, hplaces⟩, hu, rfl⟩
  · rintro ⟨w, places, u, hw, ⟨n, hplaces⟩, hu, rfl⟩
    exact ⟨n, u, ⟨w, m, ⟨hw, rfl⟩, _, m', hplaces, ofOption_eq_ok.mpr ⟨hu, rfl⟩⟩, rfl⟩

end VectorLang
