import VectorLang.Proofs.Tree.Children
import VectorLang.Scope

/-!
# The shape of programs

A tree may have any node anywhere.  In the tree of a program, expressions are made of
expressions, statements of expressions and statements, and functions stand in functions
only.  A name is marked as global if it starts with a dot, which no parameter does.

* `Program.WellFormed.shape_of_contains`   the nodes of a program
-/

namespace VectorLang

/-- Whether a node is an expression, with nothing but expressions below it. -/
inductive Node.IsExpression : Node → Prop where
  | int {location : Location} {value : Int} : IsExpression (.int location value)
  | string {location : Location} {value : String} : IsExpression (.string location value)
  | vector {location : Location} {elements : List Node} :
      (∀ e ∈ elements, IsExpression e) → IsExpression (.vector location elements)
  | var {location : Location} {name : String} {subscript : Option Node} :
      (∀ e ∈ subscript, IsExpression e) →
      IsExpression (.var location (isGlobalName name) name subscript)
  | unary {location : Location} {op : UnaryOp} {operand : Node} :
      IsExpression operand → IsExpression (.unary location op operand)
  | binary {location : Location} {op : Arithmetic} {left right : Node} :
      IsExpression left → IsExpression right → IsExpression (.binary location op left right)
  | call {location : Location} {name : String} {args : List Node} :
      (∀ e ∈ args, IsExpression e) → IsExpression (.call location (isGlobalName name) name args)

/-- Whether a node is a statement with expressions and statements below it.  `functions` tells
    whether it may be a function. -/
inductive Node.IsStatement : Bool → Node → Prop where
  | output {functions : Bool} {location : Location} {value : Node} :
      value.IsExpression → IsStatement functions (.output location value)
  | assign {functions : Bool} {location : Location} {name : String} {value : Option Node} :
      (∀ e ∈ value, e.IsExpression) →
      IsStatement functions (.assign location (isGlobalName name) name value)
  | conditional {functions : Bool} {location : Location} {test : Comparison Node}
      {thenBody elseBody : List Node} :
      test.left.IsExpression → test.right.IsExpression → (∀ s ∈ thenBody, IsStatement false s) →
      (∀ s ∈ elseBody, IsStatement false s) →
      IsStatement functions (.conditional location test thenBody elseBody)
  | loop {functions : Bool} {location : Location} {whileTrue : Bool} {test : Comparison Node}
      {body : List Node} :
      test.left.IsExpression → test.right.IsExpression → (∀ s ∈ body, IsStatement false s) →
      IsStatement functions (.loop location whileTrue test body)
  | function {location : Location} {name : String} {params : List String} {body : List Node} :
      name ≠ globalScopeName → (∀ x ∈ params, isGlobalName x = false) →
      (∀ s ∈ body, IsStatement true s) →
      IsStatement true (.function ⟨location, isGlobalName name, name, params, body⟩)

/-- Whether a tree has the shape of a program. -/
structure Program.WellFormed (p : Program) : Prop where
  name : p.block.name = p.name
  isGlobal : p.block.isGlobal = false
  params : p.block.params = []
  name_ne : p.block.name ≠ globalScopeName
  body : ∀ s ∈ p.block.body, s.IsStatement true

/-! ## Nodes -/

namespace Node

variable {n c : Node} {functions : Bool}

/-- What stands below an expression is an expression. -/
theorem IsExpression.child (h : n.IsExpression) (hc : c ∈ n.children) : c.IsExpression := by
  cases h with
  | int | string => cases hc
  | vector helements => exact helements c hc
  | var hsubscript => exact hsubscript c (Option.mem_toList.mp hc)
  | unary hoperand =>
    obtain rfl := List.mem_singleton.mp hc
    exact hoperand
  | binary hleft hright =>
    simp only [children, List.mem_cons, List.not_mem_nil, or_false] at hc
    rcases hc with rfl | rfl
    · exact hleft
    · exact hright
  | call hargs => exact hargs c hc

/-- What stands below a statement is an expression or a statement, and functions stand in
    functions only. -/
theorem IsStatement.child (h : n.IsStatement functions) (hc : c ∈ n.children) :
    c.IsExpression ∨ c.IsStatement false ∨ (∃ d, n = .function d) ∧ c.IsStatement true := by
  cases h with
  | output hvalue =>
    obtain rfl := List.mem_singleton.mp hc
    exact Or.inl hvalue
  | assign hvalue => exact Or.inl (hvalue c (Option.mem_toList.mp hc))
  | conditional hleft hright hthen helse =>
    simp only [children, List.mem_cons, List.mem_append] at hc
    rcases hc with rfl | rfl | hc | hc
    · exact Or.inl hleft
    · exact Or.inl hright
    · exact Or.inr (Or.inl (hthen c hc))
    · exact Or.inr (Or.inl (helse c hc))
  | loop hleft hright hbody =>
    simp only [children, List.mem_cons] at hc
    rcases hc with rfl | rfl | hc
    · exact Or.inl hleft
    · exact Or.inl hright
    · exact Or.inr (Or.inl (hbody c hc))
  | function _ _ hbody => exact Or.inr (Or.inr ⟨⟨_, rfl⟩, hbody c hc⟩)

/-- Whether a node is an expression or a statement. -/
def IsRegular (n : Node) : Prop := n.IsExpression ∨ ∃ functions, n.IsStatement functions

theorem IsRegular.child (h : n.IsRegular) (hc : c ∈ n.children) : c.IsRegular := by
  rcases h with h | ⟨_, h⟩
  · exact Or.inl (h.child hc)
  · rcases h.child hc with h | h | ⟨_, h⟩
    · exact Or.inl h
    · exact Or.inr ⟨_, h⟩
    · exact Or.inr ⟨_, h⟩

theorem IsRegular.contains {m : Node} (h : n.IsRegular) (hm : n.Contains m) : m.IsRegular := by
  induction hm with
  | refl => exact h
  | step hc _ ih => exact ih (h.child hc)

end Node

/-- The nodes of a program are expressions and statements, but for the program itself. -/
theorem Program.WellFormed.shape_of_contains {p : Program} (hp : p.WellFormed) {node : Node}
    (h : p.Contains node) : node = .function p.block ∨ node.IsRegular := by
  cases h with
  | refl => exact Or.inl rfl
  | step hc hm =>
    have hstatement : Node.IsRegular _ := Or.inr ⟨true, hp.body _ hc⟩
    exact Or.inr (hstatement.contains hm)

end VectorLang
