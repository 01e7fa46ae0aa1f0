import VectorLang.Tree

/-!
# Scopes

A scope holds what is known by name at one place of a program.  There is one for each
function, and the global scope for what is known in the whole program.  All scopes stand
side by side in one table; the scope of a function does not see the one around it.

Sets of names are lists without repetition.

* `mem_addName`      the names after one was added
* `mem_removeName`   the names after one was removed
-/

namespace VectorLang

/-- Adds a name to a set of names. -/
def addName (name : String) (names : List String) : List String :=
  if names.contains name then names else names ++ [name]

/-- Removes a name from a set of names. -/
def removeName (name : String) (names : List String) : List String :=
  names.filter (· != name)

@[simp] theorem mem_addName {x name : String} {names : List String} :
    x ∈ addName name names ↔ x = name ∨ x ∈ names := by
  unfold addName
  split
  · rename_i h
    simp only [List.contains_eq_mem, decide_eq_true_eq] at h
    exact ⟨Or.inr, fun hx => hx.elim (fun he => he ▸ h) id⟩
  · simp [or_comm]

@[simp] theorem mem_removeName {x name : String} {names : List String} :
    x ∈ removeName name names ↔ x ∈ names ∧ x ≠ name := by
  simp [removeName]

/-- The names that are known in a function, or in the whole program. -/
structure Scope where
  /-- The parameters. -/
  params : List String
  /-- The function whose scope this is. -/
  definition : Definition Node
  /-- The functions, as a set. -/
  functions : List String
  /-- The variables, as a set. -/
  vars : List String

namespace Scope

/-- The scope at the start of a function: the parameters and the function itself. -/
def ofDefinition (d : Definition Node) : Scope :=
  ⟨d.params, d, [d.name], []⟩

/-- Adds a function. -/
def addFunction (name : String) (s : Scope) : Scope :=
  { s with functions := addName name s.functions }

/-- Adds a variable. -/
def addVariable (name : String) (s : Scope) : Scope :=
  { s with vars := addName name s.vars }

/-- Removes a variable. -/
def removeVariable (name : String) (s : Scope) : Scope :=
  { s with vars := removeName name s.vars }

end Scope

/-- The name that the global scope has in the table. -/
def globalScopeName : String := "_Global"

/-- All scopes of a program. -/
structure ScopeTable where
  /-- What is known in the whole program. -/
  global : Scope
  /-- The scopes of the functions, by name, in the order of their definitions. -/
  functions : List (String × Scope)

namespace ScopeTable

/-- All scopes with their names, the global one first. -/
def toList (table : ScopeTable) : List (String × Scope) :=
  (globalScopeName, table.global) :: table.functions

/-- The scope of a name. -/
def get? (table : ScopeTable) (name : String) : Option Scope :=
  table.toList.lookup name

/-- Whether a name has a scope. -/
def contains (table : ScopeTable) (name : String) : Bool :=
  (table.get? name).isSome

/-- Changes the global scope. -/
def modifyGlobal (f : Scope → Scope) (table : ScopeTable) : ScopeTable :=
  { table with global := f table.global }

/-- Changes the scope of a function. -/
def modifyFunction (name : String) (f : Scope → Scope) (table : ScopeTable) : ScopeTable :=
  { table with
    functions := table.functions.map fun (n, s) => if n = name then (n, f s) else (n, s) }

/-- Adds the scope of a function after all others. -/
def push (name : String) (s : Scope) (table : ScopeTable) : ScopeTable :=
  { table with functions := table.functions ++ [(name, s)] }

/-- The table without the scopes of the named functions. -/
def without (names : List String) (table : ScopeTable) : ScopeTable :=
  { table with functions := table.functions.filter fun (n, _) => !names.contains n }

end ScopeTable

end VectorLang
