import Mathlib
import VectorLang.Proofs.Machine.Scoping
import VectorLang.Proofs.Machine.Termination

/-!
# Expressions without calls

An expression in which nothing is called reads variables and computes a value.  It changes nothing,
not even where it fails, and nothing matters to it but the values of the variables that occur in
it: in two states that have the same ones it comes to the same value, or to the same fault
(`Exec.Coincide`).

* `expressionCongruence_coincide`   the rule of an expression in two states
* `coincide_eval`                   an expression in two states
* `plain_local`                     it changes nothing, and depends on its variables only
-/

namespace VectorLang

/-! ## Expressions -/

/-- Whether a node computes a value without a call. -/
def Node.isPlain : Node → Bool
  | int .. | string .. | vector .. | var .. | unary .. | binary .. => true
  | _ => false

/-- Whether there are only such nodes in a tree. -/
def Node.Plain (n : Node) : Prop := ∀ m, n.Contains m → m.isPlain = true

/-- Whether the variables that occur in a tree have the same values in two states: the globals in
    the frame of the globals, the other ones in the frame of the innermost call. -/
def Machine.AgreeOn (m₁ m₂ : Machine) (n : Node) : Prop :=
  ∀ location isGlobal name subscript, n.Contains (.var location isGlobal name subscript) →
    (m₁.stack.owner isGlobal).vars.get? name = (m₂.stack.owner isGlobal).vars.get? name

namespace Exec

/-- Whether two computations leave the states that they start in as they are, and come to the same
    result or stop with the same fault. -/
inductive Coincide (m₁ m₂ : Machine) {α : Type} (x y : Exec α) : Prop where
  | ok (a : α) : x m₁ = .ok a m₁ → y m₂ = .ok a m₂ → Coincide m₁ m₂ x y
  | fault (f : Fault) : x m₁ = .error (.fault f) m₁ → y m₂ = .error (.fault f) m₂ →
      Coincide m₁ m₂ x y

end Exec

open Exec

variable {m₁ m₂ : Machine}

theorem sequential_coincide : Sequential fun _ => Coincide m₁ m₂ where
  pure a := .ok a rfl rfl
  bind hx hf := by
    cases hx with
    | ok a hx hy =>
      cases hf a with
      | ok b hb hb' => exact .ok b ((bind_of_ok hx).trans hb) ((bind_of_ok hy).trans hb')
      | fault f hb hb' => exact .fault f ((bind_of_ok hx).trans hb) ((bind_of_ok hy).trans hb')
    | fault f hx hy => exact .fault f (bind_of_error hx) (bind_of_error hy)

/-- What the rule of an expression does depends on its parts, and on the variable that it reads. -/
theorem expressionCongruence_coincide {scopes : ScopeTable} {ev₁ ev₂ : Evaluator} {node : Node}
    (hparts : ∀ c ∈ node.parts, Coincide m₁ m₂ (ev₁ c) (ev₂ c)) (hagree : m₁.AgreeOn m₂ node) :
    ExpressionCongruence scopes ev₁ ev₂ node (fun _ _ => True) fun _ => Coincide m₁ m₂ where
  toSequential := sequential_coincide
  part hc hf := sequential_coincide.bind (hparts _ hc) fun v => hf v trivial
  fail _ _ := .fault _ rfl rfl
  readVariable {location isGlobal name subscript} hnode := by
    have hvalue := hagree location isGlobal name subscript (hnode ▸ .refl _)
    have h₁ := readVariable_eq location isGlobal name m₁
    have h₂ := readVariable_eq location isGlobal name m₂
    rw [← hvalue] at h₂
    cases hv : (m₁.stack.owner isGlobal).vars.get? name with
    | none =>
      rw [hv] at h₁ h₂
      exact .fault _ h₁ h₂
    | some v =>
      rw [hv] at h₁ h₂
      exact .ok v h₁ h₂

/-- An expression without calls comes to the same in two states that agree on its variables. -/
theorem coincide_eval {ctx₁ ctx₂ : Context} {node : Node} (hplain : node.Plain)
    (hagree : m₁.AgreeOn m₂ node) {n₁ n₂ : Nat} (hn₁ : node.size ≤ n₁) (hn₂ : node.size ≤ n₂) :
    ∃ x y : Exec Value, eval ctx₁ n₁ node = some <$> x ∧ eval ctx₂ n₂ node = some <$> y ∧
      Coincide m₁ m₂ x y := by
  induction node using Node.children_induction generalizing n₁ n₂ with
  | h node ih =>
    have hpos := node.size_pos
    obtain ⟨k₁, rfl⟩ := Nat.exists_eq_add_of_le' (Nat.le_trans hpos hn₁)
    obtain ⟨k₂, rfl⟩ := Nat.exists_eq_add_of_le' (Nat.le_trans hpos hn₂)
    have hparts : ∀ c ∈ node.parts, Coincide m₁ m₂ (eval ctx₁ k₁ c) (eval ctx₂ k₂ c) := by
      intro c hc
      have hchild := Node.mem_children_of_mem_parts hc
      have hlt := Node.size_lt_of_mem_children hchild
      obtain ⟨x, y, hx, hy, hxy⟩ := ih c hchild (fun m hm => hplain m (.step hchild hm))
        (fun location isGlobal name subscript hm => hagree _ _ _ _ (.step hchild hm))
        (show c.size ≤ k₁ by omega) (show c.size ≤ k₂ by omega)
      rw [hx, hy]
      exact sequential_coincide.map some hxy
    have hrule := @expressionCongruence_coincide _ _ ctx₁.scopes _ _ node hparts hagree
    have hroot := hplain node (.refl node)
    cases hnode : node with
    | int location value => exact ⟨_, _, rfl, rfl, sequential_coincide.pure _⟩
    | string location value => exact ⟨_, _, rfl, rfl, sequential_coincide.pure _⟩
    | vector location elements => exact ⟨_, _, rfl, rfl, hrule.vector hnode⟩
    | var location isGlobal name subscript => exact ⟨_, _, rfl, rfl, hrule.var hnode⟩
    | unary location op operand => exact ⟨_, _, rfl, rfl, hrule.unary hnode⟩
    | binary location op left right => exact ⟨_, _, rfl, rfl, hrule.binary hnode⟩
    | _ =>
      rw [hnode] at hroot
      cases hroot

/-- Evaluating an expression in which nothing is called changes nothing: it gives a value or stops
    with a fault, and the frames, the output, the steps and the numbers of frames are as before.
    In any two states that have the same values for the variables that occur in it, in whatever
    runs, it gives the same value, or stops with the same fault at the same place. -/
theorem plain_local {node : Node} (hplain : node.Plain) :
    (∀ ctx n m, node.size ≤ n →
      (∃ v, eval ctx n node m = .ok (some v) m) ∨
      ∃ f, eval ctx n node m = .error (.fault f) m) ∧
    ∀ ctx₁ ctx₂ n₁ n₂ m₁ m₂, node.size ≤ n₁ → node.size ≤ n₂ →
      (∀ location isGlobal name subscript,
        node.Contains (.var location isGlobal name subscript) →
        (m₁.stack.owner isGlobal).vars.get? name = (m₂.stack.owner isGlobal).vars.get? name) →
      (∃ v, eval ctx₁ n₁ node m₁ = .ok (some v) m₁ ∧ eval ctx₂ n₂ node m₂ = .ok (some v) m₂) ∨
      ∃ f, eval ctx₁ n₁ node m₁ = .error (.fault f) m₁ ∧
        eval ctx₂ n₂ node m₂ = .error (.fault f) m₂ := by
  have hboth (ctx₁ ctx₂ : Context) (n₁ n₂ : Nat) (m₁ m₂ : Machine) (hn₁ : node.size ≤ n₁)
      (hn₂ : node.size ≤ n₂) (hagree : m₁.AgreeOn m₂ node) :
      (∃ v, eval ctx₁ n₁ node m₁ = .ok (some v) m₁ ∧ eval ctx₂ n₂ node m₂ = .ok (some v) m₂) ∨
      ∃ f, eval ctx₁ n₁ node m₁ = .error (.fault f) m₁ ∧
        eval ctx₂ n₂ node m₂ = .error (.fault f) m₂ := by
    obtain ⟨x, y, hx, hy, hxy⟩ := coincide_eval hplain hagree hn₁ hn₂
    rw [hx, hy]
    cases sequential_coincide.map some hxy with
    | ok v hv hw =>
      obtain ⟨v, -, rfl⟩ := map_eq_ok.mp hv
      exact Or.inl ⟨v, hv, hw⟩
    | fault f hf hg => exact Or.inr ⟨f, hf, hg⟩
  refine ⟨fun ctx n m hn => ?_, hboth⟩
  rcases hboth ctx ctx n n m m hn hn fun _ _ _ _ _ => rfl with ⟨v, hv, -⟩ | ⟨f, hf, -⟩
  · exact Or.inl ⟨v, hv⟩
  · exact Or.inr ⟨f, hf⟩

/-- The element of the variable `A` at the place that the global variable `.K` gives. -/
def picked : Node :=
  .var copierCall.location false "A" (some (.var copierCall.location true ".K" none))

theorem picked_contains {m : Node} (h : picked.Contains m) :
    m = picked ∨ m = .var copierCall.location true ".K" none := by
  cases h with
  | refl => exact Or.inl rfl
  | step hc h =>
    obtain rfl := List.mem_singleton.mp hc
    cases h with
    | refl => exact Or.inr rfl
    | step hc _ => cases hc

/-- A state in which both variables have a value. -/
def pickable : Machine := copyingOpened.written true ".K" (some (.ints [1]))

/-- Another such state, in which a line has been printed and a further variable has a value. -/
def pickableToo : Machine :=
  { pickable.written false "X" (some (.text "")) with output := #["1"] }

theorem plain_local_picked :
    picked.Plain ∧ pickable.AgreeOn pickableToo picked ∧
    ∃ v, eval ⟨copyingTable, false⟩ 2 picked pickable = .ok (some v) pickable ∧
      eval ⟨copyingTable, true⟩ 3 picked pickableToo = .ok (some v) pickableToo := by
  have hplain : picked.Plain := by
    intro m hm
    rcases picked_contains hm with rfl | rfl <;> rfl
  have hagree : pickable.AgreeOn pickableToo picked := by
    intro location isGlobal name subscript hvar
    rcases picked_contains hvar with heq | heq
    · cases heq
      rfl
    · cases heq
      rfl
  have hvalue : eval ⟨copyingTable, false⟩ 2 picked pickable =
      .ok (some (.ints [1])) pickable := by rfl
  have hsize : picked.size = 2 := by decide
  obtain ⟨-, hlocal⟩ := plain_local hplain
  rcases hlocal _ ⟨copyingTable, true⟩ 2 3 _ _ (by omega) (by omega) hagree with h | ⟨f, hf, -⟩
  · exact ⟨hplain, hagree, h⟩
  · cases hvalue.symm.trans hf

end VectorLang
