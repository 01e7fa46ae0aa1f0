import VectorLang.Proofs.Tree.Rename
import VectorLang.Scope.Analysis

/-!
# Checking other names

A program whose names are exchanged for others, different ones for different ones, is checked
like the program itself: it has the same scopes under the new names, or the same error.

* `Analysis.step_rename`   one event
* `analyze_rename`         a whole program
-/

namespace VectorLang

/-! ## Sets and tables of names -/

section

variable {α β : Type} {f : String → String} (hf : ∀ {x y : String}, f x = f y → x = y)
include hf

theorem contains_map (names : List String) (name : String) :
    (names.map f).contains (f name) = names.contains name := by
  rw [Bool.eq_iff_iff, List.contains_iff_mem, List.contains_iff_mem, List.mem_map]
  constructor
  · rintro ⟨x, hx, heq⟩
    rwa [← hf heq]
  · intro h
    exact ⟨name, h, rfl⟩

theorem map_addName (names : List String) (name : String) :
    (addName name names).map f = addName (f name) (names.map f) := by
  rw [addName, addName, contains_map hf]
  split
  · rfl
  · rw [List.map_append, List.map_singleton]

theorem map_removeName (names : List String) (name : String) :
    (removeName name names).map f = removeName (f name) (names.map f) := by
  rw [removeName, removeName, List.filter_map]
  congr 1
  refine List.filter_congr fun x _ => ?_
  rw [Bool.eq_iff_iff, bne_iff_ne, Function.comp_apply, bne_iff_ne]
  exact not_congr ⟨fun h => by rw [h], hf⟩

theorem lookup_map (g : α → β) (entries : List (String × α)) (name : String) :
    (entries.map fun entry => (f entry.1, g entry.2)).lookup (f name) =
      (entries.lookup name).map g := by
  induction entries with
  | nil => rfl
  | cons entry entries ih =>
    rw [List.map_cons, List.lookup_cons, List.lookup_cons, ih]
    by_cases h : name = entry.1
    · rw [h, beq_self_eq_true, beq_self_eq_true]
      rfl
    · have hne : ¬ f name = f entry.1 := fun h' => h (hf h')
      rw [beq_false_of_ne h, beq_false_of_ne hne]

end

/-! ## Scopes -/

/-- A scope with other names. -/
def Scope.rename (ρ : Renaming) (s : Scope) : Scope where
  params := s.params.map ρ.var
  definition := Node.renameDefinition ρ s.definition
  functions := s.functions.map ρ.function
  vars := s.vars.map ρ.var

/-- A table of scopes with other names. -/
def ScopeTable.rename (ρ : Renaming) (table : ScopeTable) : ScopeTable where
  global := table.global.rename ρ
  functions := table.functions.map fun entry => (ρ.function entry.1, entry.2.rename ρ)

/-- The global names of a program, exchanged for others. -/
def GlobalNames.rename (ρ : Renaming) (g : GlobalNames) : GlobalNames where
  functions := g.functions.map fun entry => (ρ.function entry.1, Node.renameDefinition ρ entry.2)
  vars := g.vars.map ρ.var

/-- The state of the check, with other names. -/
def Analysis.rename (ρ : Renaming) (a : Analysis) : Analysis :=
  ⟨a.table.rename ρ, a.path.map ρ.function⟩

/-- An error with other names. -/
def SemanticError.rename (ρ : Renaming) : SemanticError → SemanticError
  | .redefinition name => .redefinition (ρ.function name)
  | .parameterReassigned name => .parameterReassigned (ρ.var name)
  | .undefinedVariable name => .undefinedVariable (ρ.var name)
  | .undefinedFunction name => .undefinedFunction (ρ.function name)
  | .arityMismatch expected name got => .arityMismatch expected (ρ.function name) got

/-- What a check gives, with other names. -/
def renameChecked {α : Type} (ρ : Renaming) (f : α → α) :
    Except SemanticError α → Except SemanticError α
  | .ok a => .ok (f a)
  | .error e => .error (e.rename ρ)

section

variable {ρ : Renaming} (hρ : ρ.Faithful)
include hρ

namespace ScopeTable

theorem toList_rename (table : ScopeTable) : (table.rename ρ).toList =
    table.toList.map fun entry => (ρ.function entry.1, entry.2.rename ρ) := by
  rw [toList, toList, List.map_cons, hρ.globals]
  rfl

theorem get?_rename (table : ScopeTable) (name : String) :
    (table.rename ρ).get? (ρ.function name) = (table.get? name).map (Scope.rename ρ) := by
  rw [get?, toList_rename hρ]
  exact lookup_map hρ.function _ _ _

theorem contains_rename (table : ScopeTable) (name : String) :
    (table.rename ρ).contains (ρ.function name) = table.contains name := by
  rw [contains, contains, get?_rename hρ, Option.isSome_map]

omit hρ in
theorem modifyGlobal_rename {f g : Scope → Scope}
    (hf : ∀ s : Scope, g (s.rename ρ) = (f s).rename ρ) (table : ScopeTable) :
    (table.rename ρ).modifyGlobal g = (table.modifyGlobal f).rename ρ := by
  rw [modifyGlobal, modifyGlobal, rename, rename, hf]

theorem modifyFunction_rename (name : String) {f g : Scope → Scope}
    (hf : ∀ s : Scope, g (s.rename ρ) = (f s).rename ρ) (table : ScopeTable) :
    (table.rename ρ).modifyFunction (ρ.function name) g =
      (table.modifyFunction name f).rename ρ := by
  have hentry (entry : String × Scope) :
      (if ρ.function entry.1 = ρ.function name then (ρ.function entry.1, g (entry.2.rename ρ))
        else (ρ.function entry.1, entry.2.rename ρ)) =
      (ρ.function (if entry.1 = name then (entry.1, f entry.2) else entry).1,
        (if entry.1 = name then (entry.1, f entry.2) else entry).2.rename ρ) := by
    by_cases h : entry.1 = name
    · rw [if_pos (congrArg ρ.function h), if_pos h, hf]
    · rw [if_neg fun h' => h (hρ.function h'), if_neg h]
  rw [modifyFunction, modifyFunction, rename, rename, List.map_map, List.map_map]
  congr 1
  exact List.map_congr_left fun entry _ => hentry entry

omit hρ in
theorem push_rename (name : String) (s : Scope) (table : ScopeTable) :
    (table.rename ρ).push (ρ.function name) (s.rename ρ) = (table.push name s).rename ρ := by
  rw [push, push, rename, rename, List.map_append, List.map_singleton]

end ScopeTable

/-! ## Global names -/

namespace GlobalNames

theorem step_rename (g : GlobalNames) (e : Event) :
    (g.rename ρ).step (e.rename ρ) = (g.step e).rename ρ := by
  cases e with
  | enter d =>
    have hlookup : ((g.rename ρ).functions.lookup (ρ.function d.name)).isNone =
        (g.functions.lookup d.name).isNone := by
      rw [rename, lookup_map hρ.function, Option.isNone_map]
    simp only [Event.rename, step, Node.isGlobal_renameDefinition, Node.name_renameDefinition,
      hlookup]
    split
    · rw [rename, rename, List.map_append, List.map_singleton]
    · rfl
  | target isGlobal name hasValue =>
    cases isGlobal with
    | false => rfl
    | true =>
      cases hasValue with
      | true => rw [Event.rename, step, step, rename, rename, map_addName hρ.var]
      | false => rw [Event.rename, step, step, rename, rename, map_removeName hρ.var]
  | _ => rfl

theorem ofEvents_rename (events : List Event) :
    ofEvents (events.map (Event.rename ρ)) = (ofEvents events).rename ρ := by
  have hfold (g : GlobalNames) : (events.map (Event.rename ρ)).foldl step (g.rename ρ) =
      (events.foldl step g).rename ρ := by
    induction events generalizing g with
    | nil => rfl
    | cons e events ih =>
      rw [List.map_cons, List.foldl_cons, List.foldl_cons, step_rename hρ, ih]
  exact hfold ⟨[], []⟩

end GlobalNames

/-! ## Checking -/

namespace Scope

theorem addFunction_rename (name : String) (s : Scope) :
    (s.rename ρ).addFunction (ρ.function name) = (s.addFunction name).rename ρ := by
  rw [addFunction, addFunction, rename, rename, map_addName hρ.function]

theorem addVariable_rename (name : String) (s : Scope) :
    (s.rename ρ).addVariable (ρ.var name) = (s.addVariable name).rename ρ := by
  rw [addVariable, addVariable, rename, rename, map_addName hρ.var]

theorem removeVariable_rename (name : String) (s : Scope) :
    (s.rename ρ).removeVariable (ρ.var name) = (s.removeVariable name).rename ρ := by
  rw [removeVariable, removeVariable, rename, rename, map_removeName hρ.var]

omit hρ in
theorem ofDefinition_rename (d : Definition Node) :
    ofDefinition (Node.renameDefinition ρ d) = (ofDefinition d).rename ρ := by
  rw [ofDefinition, ofDefinition, rename, Node.params_renameDefinition, Node.name_renameDefinition]
  rfl

end Scope

namespace Analysis

theorem current_rename (a : Analysis) : (a.rename ρ).current = a.current.rename ρ := by
  obtain ⟨table, path⟩ := a
  cases path with
  | nil => rfl
  | cons name path =>
    show ((table.rename ρ).get? (ρ.function name)).getD (table.global.rename ρ) = _
    rw [ScopeTable.get?_rename hρ, Option.getD_map]
    rfl

theorem modifyScope_rename (isGlobal : Bool) {f g : Scope → Scope}
    (hf : ∀ s : Scope, g (s.rename ρ) = (f s).rename ρ) (a : Analysis) :
    (a.rename ρ).modifyScope isGlobal g = (a.modifyScope isGlobal f).rename ρ := by
  obtain ⟨table, path⟩ := a
  have hglobal : Analysis.mk ((table.rename ρ).modifyGlobal g) (path.map ρ.function) =
      (Analysis.mk (table.modifyGlobal f) path).rename ρ := by
    rw [ScopeTable.modifyGlobal_rename hf]
    rfl
  cases isGlobal with
  | true => exact hglobal
  | false =>
    cases path with
    | nil => exact hglobal
    | cons name path =>
      show Analysis.mk ((table.rename ρ).modifyFunction (ρ.function name) g) _ = _
      rw [ScopeTable.modifyFunction_rename hρ name hf]
      rfl

theorem enter_rename (a : Analysis) (d : Definition Node) :
    (a.rename ρ).enter (Node.renameDefinition ρ d) = renameChecked ρ (rename ρ) (a.enter d) := by
  have hcontains : (a.rename ρ).table.contains (ρ.function d.name) = a.table.contains d.name :=
    ScopeTable.contains_rename hρ a.table d.name
  rw [enter, enter, Node.name_renameDefinition, Node.isGlobal_renameDefinition, hcontains,
    modifyScope_rename hρ d.isGlobal (Scope.addFunction_rename hρ d.name),
    Scope.ofDefinition_rename]
  split
  · rfl
  · show Except.ok (Analysis.mk (ScopeTable.push _ _ (ScopeTable.rename ρ _)) _) = _
    rw [ScopeTable.push_rename]
    rfl

theorem target_rename (a : Analysis) (isGlobal : Bool) (name : String) (hasValue : Bool) :
    (a.rename ρ).target isGlobal (ρ.var name) hasValue =
      renameChecked ρ (rename ρ) (a.target isGlobal name hasValue) := by
  have hparam : (a.rename ρ).current.params.contains (ρ.var name) =
      a.current.params.contains name := by
    rw [current_rename hρ]
    exact contains_map hρ.var _ _
  rw [target, target, hparam]
  split
  · rfl
  · split
    · rfl
    · rw [modifyScope_rename hρ isGlobal (Scope.removeVariable_rename hρ name)]
      rfl

theorem read_rename (a : Analysis) (name : String) :
    (a.rename ρ).read (ρ.var name) = renameChecked ρ (rename ρ) (a.read name) := by
  -- a variable is global, a parameter or assigned before
  have hknown : ((a.rename ρ).table.global.vars.contains (ρ.var name) ||
      (a.rename ρ).current.params.contains (ρ.var name) ||
      (a.rename ρ).current.vars.contains (ρ.var name)) =
      (a.table.global.vars.contains name || a.current.params.contains name ||
        a.current.vars.contains name) := by
    rw [current_rename hρ]
    exact congr (congrArg _ (congr (congrArg _ (contains_map hρ.var _ _))
      (contains_map hρ.var _ _))) (contains_map hρ.var _ _)
  rw [read, read, hknown]
  split
  · rfl
  · rfl

theorem callee?_rename (globals : GlobalNames) (a : Analysis) (isGlobal : Bool) (name : String) :
    (a.rename ρ).callee? (globals.rename ρ) isGlobal (ρ.function name) =
      (a.callee? globals isGlobal name).map (Node.renameDefinition ρ) := by
  have hscope : ((a.rename ρ).table.get? (ρ.function name)).map Scope.definition =
      ((a.table.get? name).map Scope.definition).map (Node.renameDefinition ρ) := by
    rw [rename, ScopeTable.get?_rename hρ, Option.map_map, Option.map_map]
    rfl
  cases isGlobal with
  | true =>
    have hknown : (a.rename ρ).table.global.functions.contains (ρ.function name) =
        a.table.global.functions.contains name := contains_map hρ.function _ _
    have hlookup : (globals.rename ρ).functions.lookup (ρ.function name) =
        (globals.functions.lookup name).map (Node.renameDefinition ρ) :=
      lookup_map hρ.function _ _ _
    simp only [callee?, if_true, hknown, hscope, hlookup]
    split
    · cases (a.table.get? name).map Scope.definition <;> rfl
    · rfl
  | false =>
    -- no other name becomes that of the global scope
    have hsentinel : ρ.function name = globalScopeName ↔ name = globalScopeName :=
      ⟨fun h => hρ.function (h.trans hρ.globals.symm), fun h => by rw [h, hρ.globals]⟩
    simp only [callee?, Bool.false_eq_true, if_false, hsentinel, hscope]
    split
    · rfl
    · rfl

theorem call_rename (globals : GlobalNames) (a : Analysis) (isGlobal : Bool) (name : String)
    (args : Nat) : (a.rename ρ).call (globals.rename ρ) isGlobal (ρ.function name) args =
      renameChecked ρ (rename ρ) (a.call globals isGlobal name args) := by
  rw [call, call, callee?_rename hρ]
  cases a.callee? globals isGlobal name with
  | none => rfl
  | some d =>
    simp only [Option.map_some, Node.params_renameDefinition, Node.name_renameDefinition,
      List.length_map]
    split
    · rfl
    · rfl

/-- One event is checked like the event with the other names. -/
theorem step_rename (globals : GlobalNames) (a : Analysis) (e : Event) :
    step (globals.rename ρ) (a.rename ρ) (e.rename ρ) =
      renameChecked ρ (rename ρ) (step globals a e) := by
  cases e with
  | enter d => exact enter_rename hρ a d
  | leave =>
    show Except.ok (Analysis.mk (a.table.rename ρ) (a.path.map ρ.function).tail) = _
    rw [← List.map_tail]
    rfl
  | target isGlobal name hasValue => exact target_rename hρ a isGlobal name hasValue
  | assigned isGlobal name =>
    rw [Event.rename, step, modifyScope_rename hρ isGlobal (Scope.addVariable_rename hρ name)]
    rfl
  | read name => exact read_rename hρ a name
  | call isGlobal name args => exact call_rename hρ globals a isGlobal name args

theorem foldlM_rename (globals : GlobalNames) (a : Analysis) (events : List Event) :
    (events.map (Event.rename ρ)).foldlM (step (globals.rename ρ)) (a.rename ρ) =
      renameChecked ρ (rename ρ) (events.foldlM (step globals) a) := by
  induction events generalizing a with
  | nil => rfl
  | cons e events ih =>
    rw [List.map_cons, List.foldlM_cons, List.foldlM_cons, step_rename hρ]
    cases step globals a e with
    | ok a' => exact ih a'
    | error e => rfl

omit hρ in
theorem start_rename (p : Program) (globals : GlobalNames) :
    start (p.rename ρ) (globals.rename ρ) = (start p globals).rename ρ := by
  have hnames : (globals.rename ρ).functions.map Prod.fst =
      (globals.functions.map Prod.fst).map ρ.function := by
    rw [GlobalNames.rename, List.map_map, List.map_map]
    rfl
  rw [start, hnames]
  rfl

end Analysis

/-- A program with other names has the scopes that the program has, under the other names, or
    the same error. -/
theorem analyze_rename (p : Program) :
    analyze (p.rename ρ) = match analyze p with
      | .ok table => .ok (table.rename ρ)
      | .error e => .error (e.rename ρ) := by
  rw [analyze, analyze, Program.events_rename, GlobalNames.ofEvents_rename hρ,
    Analysis.start_rename, Analysis.foldlM_rename hρ]
  cases p.events.foldlM (Analysis.step (.ofEvents p.events)) (.start p (.ofEvents p.events)) with
  | ok a => rfl
  | error e => rfl

end

end VectorLang
