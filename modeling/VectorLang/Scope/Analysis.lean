import VectorLang.Scope
import VectorLang.Scope.Event

/-!
# Checking the names of a program

The names of a program are checked before it is run, in two passes over its events.  The
first pass collects the global names, so that they can be used before the place where
they are defined.  The second pass builds the table of scopes and checks every use
against what is known at that place.

* A function has a name that no other one has.
* A parameter is not assigned to.
* A variable is read where it is a parameter or a variable of the function, or a global
  variable, at that place of the text.
* A function is called with as many arguments as it has parameters.  A function with a
  plain name is called after its definition starts, a global one anywhere.
-/

namespace VectorLang

/-- Why the names of a program are not in order. -/
inductive SemanticError where
  /-- Two functions have one name. -/
  | redefinition (name : String)
  /-- A parameter is assigned to. -/
  | parameterReassigned (name : String)
  /-- A variable is read that is not known. -/
  | undefinedVariable (name : String)
  /-- A function is called that is not known. -/
  | undefinedFunction (name : String)
  /-- A function is called with the wrong number of arguments. -/
  | arityMismatch (expected : Nat) (name : String) (got : Nat)
deriving DecidableEq, Inhabited

namespace SemanticError

/-- The text of the error. -/
def message : SemanticError → String
  | redefinition name => "Function \"" ++ name ++ "\" has already been defined"
  | parameterReassigned name => "Cannot reassign to function parameter \"" ++ name ++ "\""
  | undefinedVariable name => "Undefined variable \"" ++ name ++ "\""
  | undefinedFunction name => "Undefined function \"" ++ name ++ "\""
  | arityMismatch expected name got =>
    "Parameters mismatch, expected " ++ expected.repr ++ " arguments for function \"" ++ name ++
      "\" but got " ++ got.repr

end SemanticError

/-! ## Global names -/

/-- The global names of a program. -/
structure GlobalNames where
  /-- The global functions, each with the first definition of that name. -/
  functions : List (String × Definition Node)
  /-- The global variables: those whose last assignment gives a value. -/
  vars : List String

namespace GlobalNames

/-- Takes up the global name of an event, if it has one. -/
def step (g : GlobalNames) : Event → GlobalNames
  | .enter d =>
    if d.isGlobal && (g.functions.lookup d.name).isNone then
      { g with functions := g.functions ++ [(d.name, d)] }
    else g
  | .target true name true => { g with vars := addName name g.vars }
  | .target true name false => { g with vars := removeName name g.vars }
  | _ => g

/-- The global names of a row of events. -/
def ofEvents (events : List Event) : GlobalNames :=
  events.foldl step ⟨[], []⟩

end GlobalNames

/-! ## Checking -/

/-- The state of the check at one place of the text. -/
structure Analysis where
  /-- The scopes of all functions entered so far. -/
  table : ScopeTable
  /-- The names of the functions around the place, the innermost first. -/
  path : List String

namespace Analysis

/-- The scope at the place. -/
def current (a : Analysis) : Scope :=
  match a.path with
  | [] => a.table.global
  | name :: _ => (a.table.get? name).getD a.table.global

/-- Changes the global scope, or the scope at the place. -/
def modifyScope (isGlobal : Bool) (f : Scope → Scope) (a : Analysis) : Analysis :=
  match isGlobal, a.path with
  | false, name :: _ => { a with table := a.table.modifyFunction name f }
  | _, _ => { a with table := a.table.modifyGlobal f }

/-- Checks that a function of this name can be defined, and enters it. -/
def enter (a : Analysis) (d : Definition Node) : Except SemanticError Analysis :=
  if a.table.contains d.name then .error (.redefinition d.name)
  else
    let a := a.modifyScope d.isGlobal (Scope.addFunction d.name)
    .ok ⟨a.table.push d.name (.ofDefinition d), d.name :: a.path⟩

/-- Checks that a variable may be assigned to.  Without a value it is removed. -/
def target (a : Analysis) (isGlobal : Bool) (name : String) (hasValue : Bool) :
    Except SemanticError Analysis :=
  if a.current.params.contains name then .error (.parameterReassigned name)
  else if hasValue then .ok a
  else .ok (a.modifyScope isGlobal (Scope.removeVariable name))

/-- Checks that a variable is known. -/
def read (a : Analysis) (name : String) : Except SemanticError Analysis :=
  if a.table.global.vars.contains name || a.current.params.contains name ||
      a.current.vars.contains name then .ok a
  else .error (.undefinedVariable name)

/-- The function that a call reaches.  A global function is known before it is entered. -/
def callee? (globals : GlobalNames) (a : Analysis) (isGlobal : Bool) (name : String) :
    Option (Definition Node) :=
  if isGlobal then
    if a.table.global.functions.contains name then
      ((a.table.get? name).map Scope.definition).or (globals.functions.lookup name)
    else none
  else if name = globalScopeName then none
  else (a.table.get? name).map Scope.definition

/-- Checks that a function is known and takes this number of arguments. -/
def call (globals : GlobalNames) (a : Analysis) (isGlobal : Bool) (name : String) (args : Nat) :
    Except SemanticError Analysis :=
  match a.callee? globals isGlobal name with
  | none => .error (.undefinedFunction name)
  | some d =>
    if d.params.length = args then .ok a
    else .error (.arityMismatch d.params.length d.name args)

/-- Checks one event. -/
def step (globals : GlobalNames) (a : Analysis) : Event → Except SemanticError Analysis
  | .enter d => a.enter d
  | .leave => .ok { a with path := a.path.tail }
  | .target isGlobal name hasValue => a.target isGlobal name hasValue
  | .assigned isGlobal name => .ok (a.modifyScope isGlobal (Scope.addVariable name))
  | .read name => a.read name
  | .call isGlobal name args => a.call globals isGlobal name args

/-- The state before the first event. -/
def start (p : Program) (globals : GlobalNames) : Analysis :=
  ⟨⟨⟨[], p.block, globals.functions.map Prod.fst, globals.vars⟩, []⟩, []⟩

end Analysis

/-- Checks the names of a program, and gives the table of its scopes. -/
def analyze (p : Program) : Except SemanticError ScopeTable :=
  let events := p.events
  let globals := GlobalNames.ofEvents events
  (events.foldlM (Analysis.step globals) (.start p globals)).map Analysis.table

/-- A set of names in the order of their code points. -/
def sortedNames (names : List String) : List String :=
  names.mergeSort (· ≤ ·)

end VectorLang
