import VectorLang.Tree

/-!
# What a tree does with names

The names of a program are checked in the order in which they stand in the text.
`Node.events` lists what happens to them in that order: functions are entered and left,
variables are assigned, removed and read, functions are called.
-/

namespace VectorLang

/-- What happens to a name at one place of the text. -/
inductive Event where
  /-- The definition of a function starts. -/
  | enter (definition : Definition Node)
  /-- The definition that was entered last ends. -/
  | leave
  /-- An assignment to a variable starts; without a value it removes the variable. -/
  | target (isGlobal : Bool) (name : String) (hasValue : Bool)
  /-- The value that is assigned to a variable ends. -/
  | assigned (isGlobal : Bool) (name : String)
  /-- A variable is read. -/
  | read (name : String)
  /-- A function is called with a number of arguments. -/
  | call (isGlobal : Bool) (name : String) (args : Nat)

namespace Node

mutual

/-- What happens to names in a node, in textual order. -/
def events : Node → List Event
  | int .. | string .. => []
  | vector _ elements => eventsOfList elements
  | var _ _ name subscript => .read name :: eventsOfOption subscript
  | unary _ _ operand => operand.events
  | binary _ _ left right => left.events ++ right.events
  | call _ isGlobal name args => .call isGlobal name args.length :: eventsOfList args
  | predicate ⟨_, _, left, right⟩ => left.events ++ right.events
  | output _ value => value.events
  | assign _ isGlobal name (some value) =>
    .target isGlobal name true :: (value.events ++ [.assigned isGlobal name])
  | assign _ isGlobal name none => [.target isGlobal name false]
  | conditional _ ⟨_, _, left, right⟩ thenBody elseBody =>
    left.events ++ right.events ++ eventsOfList thenBody ++ eventsOfList elseBody
  | loop _ _ ⟨_, _, left, right⟩ body => left.events ++ right.events ++ eventsOfList body
  | function ⟨location, isGlobal, name, params, body⟩ =>
    .enter ⟨location, isGlobal, name, params, body⟩ :: (eventsOfList body ++ [.leave])
  | program _ _ ⟨location, isGlobal, name, params, body⟩ =>
    .enter ⟨location, isGlobal, name, params, body⟩ :: (eventsOfList body ++ [.leave])

/-- What happens to names in a row of nodes. -/
def eventsOfList : List Node → List Event
  | [] => []
  | node :: nodes => node.events ++ eventsOfList nodes

/-- What happens to names in a node that may be left out. -/
def eventsOfOption : Option Node → List Event
  | none => []
  | some node => node.events

end

end Node

/-- What happens to names in a program. -/
def Program.events (p : Program) : List Event :=
  (Node.function p.block).events

end VectorLang
