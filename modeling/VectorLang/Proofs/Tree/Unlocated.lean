import VectorLang.Tree

/-!
# Trees without places

Two trees are equal up to their locations if they are the same once every location in them
is replaced by one that says nothing.

* `Node.unlocated_unlocated`      there is nothing left to replace after that
* `Program.unlocated_unlocated`   the same for whole programs
-/

namespace VectorLang

namespace Node

mutual

/-- A node without its locations. -/
def unlocated : Node → Node
  | int _ value => int default value
  | string _ value => string default value
  | vector _ elements => vector default (unlocatedList elements)
  | var _ isGlobal name subscript => var default isGlobal name (unlocatedOption subscript)
  | unary _ op operand => unary default op (unlocated operand)
  | binary _ op left right => binary default op (unlocated left) (unlocated right)
  | call _ isGlobal name args => call default isGlobal name (unlocatedList args)
  | predicate test => predicate (unlocatedComparison test)
  | output _ value => output default (unlocated value)
  | assign _ isGlobal name value => assign default isGlobal name (unlocatedOption value)
  | conditional _ test thenBody elseBody =>
    conditional default (unlocatedComparison test) (unlocatedList thenBody)
      (unlocatedList elseBody)
  | loop _ whileTrue test body =>
    loop default whileTrue (unlocatedComparison test) (unlocatedList body)
  | function d => function (unlocatedDefinition d)
  | program _ name block => program default name (unlocatedDefinition block)

/-- A row of nodes without their locations. -/
def unlocatedList : List Node → List Node
  | [] => []
  | node :: nodes => unlocated node :: unlocatedList nodes

/-- A node that may be left out, without its locations. -/
def unlocatedOption : Option Node → Option Node
  | none => none
  | some node => some (unlocated node)

/-- A comparison without its locations. -/
def unlocatedComparison : Comparison Node → Comparison Node
  | ⟨_, relation, left, right⟩ => ⟨default, relation, unlocated left, unlocated right⟩

/-- A definition without its locations. -/
def unlocatedDefinition : Definition Node → Definition Node
  | ⟨_, isGlobal, name, params, body⟩ =>
    ⟨default, isGlobal, name, params, unlocatedList body⟩

end

mutual

/-- A node without its locations has none that could be taken away. -/
theorem unlocated_unlocated : ∀ node : Node, node.unlocated.unlocated = node.unlocated
  | int .. | string .. => rfl
  | vector _ elements => by simp only [unlocated, unlocatedList_unlocatedList elements]
  | var _ _ _ subscript => by simp only [unlocated, unlocatedOption_unlocatedOption subscript]
  | unary _ _ operand => by simp only [unlocated, unlocated_unlocated operand]
  | binary _ _ left right => by
    simp only [unlocated, unlocated_unlocated left, unlocated_unlocated right]
  | call _ _ _ args => by simp only [unlocated, unlocatedList_unlocatedList args]
  | predicate test => by simp only [unlocated, unlocatedComparison_unlocatedComparison test]
  | output _ value => by simp only [unlocated, unlocated_unlocated value]
  | assign _ _ _ value => by simp only [unlocated, unlocatedOption_unlocatedOption value]
  | conditional _ test thenBody elseBody => by
    simp only [unlocated, unlocatedComparison_unlocatedComparison test,
      unlocatedList_unlocatedList thenBody, unlocatedList_unlocatedList elseBody]
  | loop _ _ test body => by
    simp only [unlocated, unlocatedComparison_unlocatedComparison test,
      unlocatedList_unlocatedList body]
  | function d => by simp only [unlocated, unlocatedDefinition_unlocatedDefinition d]
  | program _ _ block => by simp only [unlocated, unlocatedDefinition_unlocatedDefinition block]

theorem unlocatedList_unlocatedList :
    ∀ nodes, unlocatedList (unlocatedList nodes) = unlocatedList nodes
  | [] => rfl
  | node :: nodes => by
    simp only [unlocatedList, unlocated_unlocated node, unlocatedList_unlocatedList nodes]

theorem unlocatedOption_unlocatedOption :
    ∀ node?, unlocatedOption (unlocatedOption node?) = unlocatedOption node?
  | none => rfl
  | some node => by simp only [unlocatedOption, unlocated_unlocated node]

theorem unlocatedComparison_unlocatedComparison :
    ∀ test, unlocatedComparison (unlocatedComparison test) = unlocatedComparison test
  | ⟨_, _, left, right⟩ => by
    simp only [unlocatedComparison, unlocated_unlocated left, unlocated_unlocated right]

theorem unlocatedDefinition_unlocatedDefinition :
    ∀ d, unlocatedDefinition (unlocatedDefinition d) = unlocatedDefinition d
  | ⟨_, _, _, _, body⟩ => by simp only [unlocatedDefinition, unlocatedList_unlocatedList body]

end

end Node

/-- A program without its locations. -/
def Program.unlocated (p : Program) : Program :=
  ⟨default, p.name, Node.unlocatedDefinition p.block⟩

/-- A program without its locations has none that could be taken away. -/
theorem Program.unlocated_unlocated (p : Program) : p.unlocated.unlocated = p.unlocated := by
  simp only [Program.unlocated, Node.unlocatedDefinition_unlocatedDefinition]

end VectorLang
