import VectorLang.Json
import VectorLang.Tree

/-!
# Trees as JSON documents

A node is written as an object of its location and its parts, in a fixed order.  The kind
of a node is not written.
-/

namespace VectorLang

/-- The document of a location. -/
def Location.toJson (loc : Location) : Json :=
  .obj [("file", .str loc.file), ("line", .num loc.line), ("column", .num loc.column),
    ("statement", .str loc.statement)]

namespace Node

/-- A node with its location and its other parts. -/
def object (loc : Location) (parts : List (String × Json)) : Json :=
  .obj (("location", loc.toJson) :: parts)

mutual

/-- The document of a node. -/
def toJson : Node → Json
  | int loc value => object loc [("value", .num value)]
  | string loc value => object loc [("value", .str value)]
  | vector loc elements => object loc [("elements", .arr (listToJson elements))]
  | var loc isGlobal name subscript =>
    object loc [("is_global", .bool isGlobal), ("name", .str name),
      ("subscript", optionToJson subscript)]
  | unary loc op operand => object loc [("op", .str op.name), ("operand", toJson operand)]
  | binary loc op left right =>
    object loc [("op", .str op.name), ("left", toJson left), ("right", toJson right)]
  | call loc isGlobal name args =>
    object loc [("is_global", .bool isGlobal), ("name", .str name),
      ("actual_params", .arr (listToJson args))]
  | predicate test => comparisonToJson test
  | output loc value => object loc [("expression", toJson value)]
  | assign loc isGlobal name value =>
    object loc [("is_global", .bool isGlobal), ("name", .str name), ("rhs", optionToJson value)]
  | conditional loc test thenBody elseBody =>
    object loc [("predicate", comparisonToJson test),
      ("then_statements", .arr (listToJson thenBody)),
      ("else_statements", .arr (listToJson elseBody))]
  | loop loc whileTrue test body =>
    object loc [("positive", .bool whileTrue), ("predicate", comparisonToJson test),
      ("statements", .arr (listToJson body))]
  | function d => definitionToJson d
  | program loc name block =>
    object loc [("name", .str name), ("block", definitionToJson block)]

/-- The documents of a row of nodes. -/
def listToJson : List Node → List Json
  | [] => []
  | node :: nodes => toJson node :: listToJson nodes

/-- The document of a node that may be left out. -/
def optionToJson : Option Node → Json
  | none => .null
  | some node => toJson node

/-- The document of a comparison. -/
def comparisonToJson : Comparison Node → Json
  | ⟨loc, r, left, right⟩ =>
    object loc [("op", .str r.name), ("left", toJson left), ("right", toJson right)]

/-- The document of a definition. -/
def definitionToJson : Definition Node → Json
  | ⟨loc, isGlobal, name, params, body⟩ =>
    object loc [("is_global", .bool isGlobal), ("name", .str name),
      ("formal_params", .arr (params.map .str)), ("statements", .arr (listToJson body))]

end

end Node

/-- The document of a program. -/
def Program.toJson (p : Program) : Json :=
  (Node.program p.location p.name p.block).toJson

end VectorLang
