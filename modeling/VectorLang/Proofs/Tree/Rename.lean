import VectorLang.Proofs.Tree.Unlocated
import VectorLang.Scope
import VectorLang.Scope.Event

/-!
# Other names and places

The names of functions, the names of variables and the locations of a tree may be exchanged
for others, everywhere at once (`Renaming`).  A tree without its locations is the case where
the names stay and all locations become one.

* `Node.rename_unlocate`   taking the locations away is a renaming
* `Program.events_rename`  what a tree does with names, after they were exchanged
-/

namespace VectorLang

/-! ## Renamings -/

/-- New names and places for those of a program. -/
structure Renaming where
  /-- The new places. -/
  place : Location → Location
  /-- The new names of functions. -/
  function : String → String
  /-- The new names of variables. -/
  var : String → String

namespace Renaming

/-- Whether different names stay different, and the name of the global scope is kept. -/
structure Faithful (ρ : Renaming) : Prop where
  function {x y : String} : ρ.function x = ρ.function y → x = y
  var {x y : String} : ρ.var x = ρ.var y → x = y
  globals : ρ.function globalScopeName = globalScopeName

/-- Takes the locations away and keeps all names. -/
def unlocate : Renaming := ⟨fun _ => default, id, id⟩

theorem faithful_unlocate : unlocate.Faithful := ⟨id, id, rfl⟩

end Renaming

/-! ## Trees -/

namespace Node

mutual

/-- A node with other names and places. -/
def rename (ρ : Renaming) : Node → Node
  | int location value => int (ρ.place location) value
  | string location value => string (ρ.place location) value
  | vector location elements => vector (ρ.place location) (renameList ρ elements)
  | var location isGlobal name subscript =>
    var (ρ.place location) isGlobal (ρ.var name) (renameOption ρ subscript)
  | unary location op operand => unary (ρ.place location) op (rename ρ operand)
  | binary location op left right =>
    binary (ρ.place location) op (rename ρ left) (rename ρ right)
  | call location isGlobal name args =>
    call (ρ.place location) isGlobal (ρ.function name) (renameList ρ args)
  | predicate test => predicate (renameComparison ρ test)
  | output location value => output (ρ.place location) (rename ρ value)
  | assign location isGlobal name value =>
    assign (ρ.place location) isGlobal (ρ.var name) (renameOption ρ value)
  | conditional location test thenBody elseBody =>
    conditional (ρ.place location) (renameComparison ρ test) (renameList ρ thenBody)
      (renameList ρ elseBody)
  | loop location whileTrue test body =>
    loop (ρ.place location) whileTrue (renameComparison ρ test) (renameList ρ body)
  | function d => function (renameDefinition ρ d)
  | program location name block =>
    program (ρ.place location) (ρ.function name) (renameDefinition ρ block)

/-- A row of nodes with other names and places. -/
def renameList (ρ : Renaming) : List Node → List Node
  | [] => []
  | node :: nodes => rename ρ node :: renameList ρ nodes

/-- A node that may be left out, with other names and places. -/
def renameOption (ρ : Renaming) : Option Node → Option Node
  | none => none
  | some node => some (rename ρ node)

/-- A comparison with other names and places. -/
def renameComparison (ρ : Renaming) : Comparison Node → Comparison Node
  | ⟨location, relation, left, right⟩ =>
    ⟨ρ.place location, relation, rename ρ left, rename ρ right⟩

/-- A definition with other names and places. -/
def renameDefinition (ρ : Renaming) : Definition Node → Definition Node
  | ⟨location, isGlobal, name, params, body⟩ =>
    ⟨ρ.place location, isGlobal, ρ.function name, params.map ρ.var, renameList ρ body⟩

end

variable {ρ : Renaming}

theorem renameList_eq (nodes : List Node) : renameList ρ nodes = nodes.map (rename ρ) := by
  induction nodes with
  | nil => rfl
  | cons node nodes ih => rw [renameList, ih, List.map_cons]

@[simp] theorem location_rename (node : Node) :
    (node.rename ρ).location = ρ.place node.location := by
  cases node with
  | predicate test => cases test; rfl
  | function d => cases d; rfl
  | _ => rfl

@[simp] theorem name_renameDefinition (d : Definition Node) :
    (renameDefinition ρ d).name = ρ.function d.name := by
  cases d
  rfl

@[simp] theorem isGlobal_renameDefinition (d : Definition Node) :
    (renameDefinition ρ d).isGlobal = d.isGlobal := by
  cases d
  rfl

@[simp] theorem params_renameDefinition (d : Definition Node) :
    (renameDefinition ρ d).params = d.params.map ρ.var := by
  cases d
  rfl

@[simp] theorem body_renameDefinition (d : Definition Node) :
    (renameDefinition ρ d).body = d.body.map (rename ρ) := by
  cases d
  exact renameList_eq _

mutual

/-- Taking the locations away keeps all names. -/
theorem rename_unlocate : ∀ node : Node, node.rename .unlocate = node.unlocated
  | int .. | string .. => rfl
  | vector _ elements => by rw [rename, unlocated, renameList_unlocate elements]; rfl
  | var _ _ _ subscript => by rw [rename, unlocated, renameOption_unlocate subscript]; rfl
  | unary _ _ operand => by rw [rename, unlocated, rename_unlocate operand]; rfl
  | binary _ _ left right => by
    rw [rename, unlocated, rename_unlocate left, rename_unlocate right]; rfl
  | call _ _ _ args => by rw [rename, unlocated, renameList_unlocate args]; rfl
  | predicate test => by rw [rename, unlocated, renameComparison_unlocate test]
  | output _ value => by rw [rename, unlocated, rename_unlocate value]; rfl
  | assign _ _ _ value => by rw [rename, unlocated, renameOption_unlocate value]; rfl
  | conditional _ test thenBody elseBody => by
    rw [rename, unlocated, renameComparison_unlocate test, renameList_unlocate thenBody,
      renameList_unlocate elseBody]; rfl
  | loop _ _ test body => by
    rw [rename, unlocated, renameComparison_unlocate test, renameList_unlocate body]; rfl
  | function d => by rw [rename, unlocated, renameDefinition_unlocate d]
  | program _ _ block => by rw [rename, unlocated, renameDefinition_unlocate block]; rfl

theorem renameList_unlocate : ∀ nodes, renameList .unlocate nodes = unlocatedList nodes
  | [] => rfl
  | node :: nodes => by
    rw [renameList, unlocatedList, rename_unlocate node, renameList_unlocate nodes]

theorem renameOption_unlocate : ∀ node?, renameOption .unlocate node? = unlocatedOption node?
  | none => rfl
  | some node => by rw [renameOption, unlocatedOption, rename_unlocate node]

theorem renameComparison_unlocate :
    ∀ test, renameComparison .unlocate test = unlocatedComparison test
  | ⟨_, _, left, right⟩ => by
    rw [renameComparison, unlocatedComparison, rename_unlocate left, rename_unlocate right]; rfl

theorem renameDefinition_unlocate :
    ∀ d, renameDefinition .unlocate d = unlocatedDefinition d
  | ⟨_, _, _, params, body⟩ => by
    rw [renameDefinition, unlocatedDefinition, renameList_unlocate body]
    simp [Renaming.unlocate]

end

end Node

/-- A program with other names and places. -/
def Program.rename (ρ : Renaming) (p : Program) : Program :=
  ⟨ρ.place p.location, ρ.function p.name, Node.renameDefinition ρ p.block⟩

theorem Program.rename_unlocate (p : Program) : p.rename .unlocate = p.unlocated := by
  rw [Program.rename, Program.unlocated, Node.renameDefinition_unlocate]
  rfl

/-! ## What a tree does with names -/

/-- What happens to another name, at another place. -/
def Event.rename (ρ : Renaming) : Event → Event
  | .enter d => .enter (Node.renameDefinition ρ d)
  | .leave => .leave
  | .target isGlobal name hasValue => .target isGlobal (ρ.var name) hasValue
  | .assigned isGlobal name => .assigned isGlobal (ρ.var name)
  | .read name => .read (ρ.var name)
  | .call isGlobal name args => .call isGlobal (ρ.function name) args

namespace Node

variable {ρ : Renaming}

mutual

theorem events_rename :
    ∀ node : Node, (node.rename ρ).events = node.events.map (Event.rename ρ)
  | int .. | string .. => rfl
  | vector _ elements => by rw [rename, events, events, eventsOfList_rename elements]
  | var _ _ _ subscript => by
    rw [rename, events, events, eventsOfOption_rename subscript]; rfl
  | unary _ _ operand => by rw [rename, events, events, events_rename operand]
  | binary _ _ left right => by
    rw [rename, events, events, events_rename left, events_rename right, List.map_append]
  | call _ _ _ args => by
    rw [rename, events, events, eventsOfList_rename args, renameList_eq, List.length_map]; rfl
  | predicate ⟨_, _, left, right⟩ => by
    rw [rename, renameComparison, events, events, events_rename left, events_rename right,
      List.map_append]
  | output _ value => by rw [rename, events, events, events_rename value]
  | assign _ _ _ (some value) => by
    rw [rename, renameOption, events, events, events_rename value, List.map_cons, List.map_append]
    rfl
  | assign _ _ _ none => rfl
  | conditional _ ⟨_, _, left, right⟩ thenBody elseBody => by
    rw [rename, renameComparison, events, events, events_rename left, events_rename right,
      eventsOfList_rename thenBody, eventsOfList_rename elseBody]
    simp only [List.map_append]
  | loop _ _ ⟨_, _, left, right⟩ body => by
    rw [rename, renameComparison, events, events, events_rename left, events_rename right,
      eventsOfList_rename body]
    simp only [List.map_append]
  | function ⟨_, _, _, _, body⟩ => by
    rw [rename, renameDefinition, events, events, eventsOfList_rename body]
    simp only [List.map_cons, List.map_append]
    rfl
  | program _ _ ⟨_, _, _, _, body⟩ => by
    rw [rename, renameDefinition, events, events, eventsOfList_rename body]
    simp only [List.map_cons, List.map_append]
    rfl

theorem eventsOfList_rename :
    ∀ nodes, eventsOfList (renameList ρ nodes) = (eventsOfList nodes).map (Event.rename ρ)
  | [] => rfl
  | node :: nodes => by
    rw [renameList, eventsOfList, eventsOfList, events_rename node, eventsOfList_rename nodes,
      List.map_append]

theorem eventsOfOption_rename :
    ∀ node?, eventsOfOption (renameOption ρ node?) = (eventsOfOption node?).map (Event.rename ρ)
  | none => rfl
  | some node => by rw [renameOption, eventsOfOption, eventsOfOption, events_rename node]

end

end Node

/-- A program does with the new names what it does with the old ones. -/
theorem Program.events_rename {ρ : Renaming} (p : Program) :
    (p.rename ρ).events = p.events.map (Event.rename ρ) :=
  Node.events_rename (.function p.block)

end VectorLang
