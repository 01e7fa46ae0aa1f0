/-!
# Program trees

A program is one block of statements.  Statements and expressions are nodes of one type,
because every node can stand wherever a node can: the value of a statement is a value
like any other, and a tree that is built by hand may use that.

Every node has a location: the place of the token that it is known by, and the source
line that it stands on.
-/

namespace VectorLang

/-- A place in a source file. -/
structure Location where
  /-- The name of the file. -/
  file : String
  /-- The line, from 1. -/
  line : Nat
  /-- The column, from 1. -/
  column : Nat
  /-- The source line without the blanks at its ends. -/
  statement : String
deriving DecidableEq, Inhabited

/-- How two values are compared. -/
inductive Relation where
  | lte
  | lt
  | eq
  | neq
  | gt
  | gte
deriving DecidableEq, Inhabited

/-- The name of a relation. -/
def Relation.name : Relation → String
  | lte => "LTE"
  | lt => "LT"
  | eq => "EQ"
  | neq => "NEQ"
  | gt => "GT"
  | gte => "GTE"

/-- Arithmetic on two vectors. -/
inductive Arithmetic where
  | add
  | sub
  | mul
  | div
deriving DecidableEq, Inhabited

/-- The name of an arithmetic operator. -/
def Arithmetic.name : Arithmetic → String
  | add => "ADD"
  | sub => "SUB"
  | mul => "MUL"
  | div => "DIV"

/-- An operator on one vector. -/
inductive UnaryOp where
  | negation
  | length
deriving DecidableEq, Inhabited

/-- The name of an operator on one vector. -/
def UnaryOp.name : UnaryOp → String
  | negation => "NEGATION"
  | length => "LENGTH"

/-- A comparison of two nodes of type `α`. -/
structure Comparison (α : Type) where
  /-- Where the comparison starts. -/
  location : Location
  /-- How the sides are compared. -/
  relation : Relation
  /-- The left side. -/
  left : α
  /-- The right side. -/
  right : α

/-- A function with a body of nodes of type `α`. -/
structure Definition (α : Type) where
  /-- Where the definition starts. -/
  location : Location
  /-- Whether the name is known in the whole program. -/
  isGlobal : Bool
  /-- The name of the function. -/
  name : String
  /-- The names of the parameters. -/
  params : List String
  /-- The statements of the body. -/
  body : List α

/-- A statement or an expression. -/
inductive Node where
  /-- An integer. -/
  | int (location : Location) (value : Int)
  /-- A string. -/
  | string (location : Location) (value : String)
  /-- The values of the elements, joined. -/
  | vector (location : Location) (elements : List Node)
  /-- The value of a variable, or its elements at the indices that the subscript gives. -/
  | var (location : Location) (isGlobal : Bool) (name : String) (subscript : Option Node)
  /-- An operator applied to one operand. -/
  | unary (location : Location) (op : UnaryOp) (operand : Node)
  /-- Arithmetic on two operands. -/
  | binary (location : Location) (op : Arithmetic) (left right : Node)
  /-- A function call. -/
  | call (location : Location) (isGlobal : Bool) (name : String) (args : List Node)
  /-- A comparison outside a condition. -/
  | predicate (test : Comparison Node)
  /-- Prints the value of an expression. -/
  | output (location : Location) (value : Node)
  /-- Gives a variable a value, or removes the variable where there is no value. -/
  | assign (location : Location) (isGlobal : Bool) (name : String) (value : Option Node)
  /-- Runs one of two bodies. -/
  | conditional (location : Location) (test : Comparison Node) (thenBody elseBody : List Node)
  /-- Runs the body as long as the test is true, or as long as it is false. -/
  | loop (location : Location) (whileTrue : Bool) (test : Comparison Node) (body : List Node)
  /-- Declares a function. -/
  | function (definition : Definition Node)
  /-- A whole program. -/
  | program (location : Location) (name : String) (block : Definition Node)

/-- A whole program: a name, and a block that is run as a function of no parameters. -/
structure Program where
  /-- Where the program starts. -/
  location : Location
  /-- The name of the program. -/
  name : String
  /-- What the program does. -/
  block : Definition Node

namespace Node

/-- Where a node stands. -/
def location : Node → Location
  | int loc _ | string loc _ | vector loc _ | var loc _ _ _ | unary loc _ _ | binary loc _ _ _
  | call loc _ _ _ | output loc _ | assign loc _ _ _ | conditional loc _ _ _ | loop loc _ _ _
  | program loc _ _ => loc
  | predicate test => test.location
  | function definition => definition.location

/-- The name of a kind of node in diagnostics. -/
def label : Node → String
  | int .. => "Int"
  | string .. => "String"
  | vector .. => "Vector"
  | var .. => "Var"
  | unary .. => "UnaryOp"
  | binary .. => "BinaryOp"
  | call .. => "FunctionCall"
  | predicate .. => "Predicate"
  | output .. => "OutputExpression"
  | assign .. => "Assignment"
  | conditional .. => "IfExpression"
  | loop .. => "Loop"
  | function .. => "FunctionDefinition"
  | program .. => "Program"

end Node

/-- Whether a name is known in the whole program. -/
def isGlobalName (name : String) : Bool :=
  name.toList.head? == some '.'

end VectorLang
