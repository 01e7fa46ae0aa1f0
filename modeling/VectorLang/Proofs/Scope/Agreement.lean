import Mathlib.Data.List.Nodup
import VectorLang.Proofs.Scope.Order

/-!
# What the check of names remembers

The check keeps sets of names that grow and shrink along the text.  At every place of the text
they hold what the events before that place tell, and for global names those of the whole
text, so that a complaint about an event can be told without them.

* `Analysis.Agrees.error_iff`   what the check of one event complains about
* `Analysis.Agrees.step`        what it remembers
* `agrees_of_foldlM`            what a row of checks remembers
-/

namespace VectorLang

/-! ## Complaints -/

namespace Program

/-- Whether a variable may be read after a row of events of a program.  A global variable is to
    be written a value last before that place, or if it is not written there at all, in the
    whole program.  Any other one is to be a parameter of the innermost function, or to be
    written a value last in the body of that function. -/
def Readable (p : Program) (before : List Event) (name : String) : Prop :=
  if isGlobalName name then (lastWrite? name before).or (lastWrite? name p.events) = some true
  else ∃ d own rest, openBodies before = (d, own) :: rest ∧
    (name ∈ d.params ∨ lastWrite? name own = some true)

/-- The functions that a name may call after a row of events of a program.  With a global name
    they may be defined anywhere, otherwise their definition has to start before. -/
def callable (p : Program) (before : List Event) (name : String) : List (Definition Node) :=
  entered (if isGlobalName name then p.events else before)

/-- What is wrong with an event, if anything is. -/
inductive Complaint (p : Program) (before : List Event) : Event → SemanticError → Prop where
  | redefinition {d : Definition Node} :
      d.name ∈ (entered before).map Definition.name →
      Complaint p before (.enter d) (.redefinition d.name)
  | parameterReassigned {isGlobal : Bool} {name : String} {hasValue : Bool}
      {d : Definition Node} {own : List Event} {rest : List (Definition Node × List Event)} :
      openBodies before = (d, own) :: rest → name ∈ d.params →
      Complaint p before (.target isGlobal name hasValue) (.parameterReassigned name)
  | undefinedVariable {name : String} :
      ¬ p.Readable before name → Complaint p before (.read name) (.undefinedVariable name)
  | undefinedFunction {isGlobal : Bool} {name : String} {args : Nat} :
      (∀ d ∈ p.callable before name, d.name ≠ name) →
      Complaint p before (.call isGlobal name args) (.undefinedFunction name)
  | arityMismatch {isGlobal : Bool} {name : String} {args : Nat} {d : Definition Node} :
      firstNamed? (p.callable before name) name = some d → d.params.length ≠ args →
      Complaint p before (.call isGlobal name args) (.arityMismatch d.params.length name args)

end Program

/-! ## Global functions -/

/-- Where global functions are told by their names, no other ones need to be looked at. -/
theorem firstNamed?_filter {ds : List (Definition Node)} {name : String}
    (hds : ∀ d ∈ ds, d.isGlobal = isGlobalName d.name) (hname : isGlobalName name = true) :
    firstNamed? (ds.filter Definition.isGlobal) name = firstNamed? ds name := by
  induction ds with
  | nil => rfl
  | cons d ds ih =>
    obtain ⟨hd, hds⟩ := List.forall_mem_cons.mp hds
    have hrest := ih hds
    by_cases heq : d.name = name
    · rw [heq, hname] at hd
      simp [firstNamed?, hd, heq]
    · cases hglobal : d.isGlobal <;> simpa [firstNamed?, hglobal, heq] using hrest

/-- The first pass finds every function with a global name, but for the program itself. -/
theorem Program.WellFormed.lookup_globals {p : Program} (hp : p.WellFormed)
    {before after : List Event} (h : p.events = before ++ after) (hbefore : before ≠ [])
    {name : String} (hname : isGlobalName name = true) :
    p.globals.functions.lookup name =
      (firstNamed? ((entered before).filter Definition.isGlobal) name).or
        (firstNamed? (entered after) name) := by
  have hafter : ∀ d ∈ entered after, d.isGlobal = isGlobalName d.name := by
    intro d hd
    obtain ⟨w, w', rfl⟩ := List.append_of_mem (mem_entered.mp hd)
    have hmarked := hp.marked (h.trans (List.append_assoc ..).symm) (by simp [hbefore])
    exact hmarked.1
  rw [globals, GlobalNames.lookup_ofEvents, h, entered_append, List.filter_append,
    firstNamed?_append, firstNamed?_filter hafter hname]

/-! ## The state of the check -/

/-- A scope after a write to a variable. -/
def Scope.write (name : String) : Bool → Scope → Scope
  | true => Scope.addVariable name
  | false => Scope.removeVariable name

namespace Scope

variable (name : String) (value : Bool) (s : Scope)

theorem header_write : (s.write name value).header = s.header := by
  cases value <;> rfl

theorem functions_write : (s.write name value).functions = s.functions := by
  cases value <;> rfl

theorem mem_vars_write {x : String} :
    x ∈ (s.write name value).vars ↔ if name = x then value = true else x ∈ s.vars := by
  by_cases hx : name = x
  · cases value <;> simp [write, addVariable, removeVariable, hx]
  · have hne : ¬ x = name := fun h => hx h.symm
    cases value <;> simp [write, addVariable, removeVariable, hx, hne]

end Scope

namespace Analysis

variable {p : Program} {before after : List Event} {a a' : Analysis}

/-- Whether the state of the check is told by the events before the place. -/
structure Agrees (p : Program) (before : List Event) (a : Analysis) : Prop
    extends Reflects p before a where
  path : a.path = (openBodies before).map (·.1.name)
  /-- An open function knows the variables that were written a value last in its body. -/
  own {d : Definition Node} {own : List Event} : (d, own) ∈ openBodies before →
    ∃ vars, (a.table.get? d.name).map Scope.vars = some vars ∧
      ∀ name, name ∈ vars ↔ isGlobalName name = false ∧ lastWrite? name own = some true
  vars {name : String} : name ∈ a.table.global.vars ↔ isGlobalName name = true ∧
    (lastWrite? name before).or (lastWrite? name p.events) = some true
  known {name : String} : isGlobalName name = true →
    (name ∈ a.table.global.functions ↔
      (firstNamed? (entered before) name).isSome ∨ (p.globals.functions.lookup name).isSome)

theorem path_modifyScope (isGlobal : Bool) (f : Scope → Scope) (a : Analysis) :
    (a.modifyScope isGlobal f).path = a.path := by
  unfold modifyScope
  split <;> rfl

theorem modifyScope_true (f : Scope → Scope) (a : Analysis) :
    (a.modifyScope true f).table = a.table.modifyGlobal f := rfl

theorem modifyScope_false {f : Scope → Scope} {name : String} {path : List String}
    (h : a.path = name :: path) :
    (a.modifyScope false f).table = a.table.modifyFunction name f := by
  simp only [modifyScope, h]

/-- An open function is the only one of its name so far. -/
theorem Reflects.firstNamed?_of_open (h : a.Reflects p before) {d : Definition Node}
    {own : List Event} (hd : (d, own) ∈ openBodies before) :
    firstNamed? (entered before) d.name = some d :=
  firstNamed?_of_mem h.distinct (mem_entered_of_open hd)

theorem Reflects.ne_of_open (h : a.Reflects p before) {d : Definition Node} {own : List Event}
    (hd : (d, own) ∈ openBodies before) : d.name ≠ globalScopeName :=
  h.reserved d (mem_entered_of_open hd)

/-- Open functions have different names. -/
theorem Reflects.nodup_open (h : a.Reflects p before) :
    ((openBodies before).map (·.1.name)).Nodup := by
  have hsub := (openBodies_sublist before).map Definition.name
  rw [List.map_map, List.map_reverse] at hsub
  exact hsub.nodup (List.nodup_reverse.mpr h.distinct)

namespace Agrees

/-! ## Errors -/

section

variable {error : SemanticError} {d : Definition Node} {own : List Event}
  {rest : List (Definition Node × List Event)} {isGlobal : Bool} {name : String}

/-- The place is in the innermost function. -/
theorem path_eq (h : a.Agrees p before) (hopen : openBodies before = (d, own) :: rest) :
    a.path = d.name :: rest.map (·.1.name) := by
  rw [h.path, hopen, List.map_cons]

/-- The scope at a place is that of the innermost function. -/
theorem current (h : a.Agrees p before) (hopen : openBodies before = (d, own) :: rest) :
    a.current.params = d.params ∧ ∀ name, name ∈ a.current.vars ↔
      isGlobalName name = false ∧ lastWrite? name own = some true := by
  have hmem : (d, own) ∈ openBodies before := hopen ▸ List.mem_cons_self
  obtain ⟨scope, hscope, _, hparams⟩ := h.exists_scope (h.firstNamed?_of_open hmem)
  obtain ⟨vars, hvars, hown⟩ := h.own hmem
  rw [hscope] at hvars
  cases hvars
  have hcurrent : a.current = scope := by simp [Analysis.current, h.path_eq hopen, hscope]
  rw [hcurrent]
  exact ⟨hparams, hown⟩

theorem enter_error_iff (h : a.Agrees p before) (hname : d.name ≠ globalScopeName) :
    a.enter d = .error error ↔ p.Complaint before (.enter d) error := by
  have hknown : a.table.contains d.name = true ↔
      d.name ∈ (entered before).map Definition.name := by
    rw [h.contains_iff]
    simp [hname, firstNamed?]
  rw [Analysis.enter]
  constructor
  · intro herror
    split at herror
    · rename_i hold
      cases herror
      exact .redefinition (hknown.mp hold)
    · cases herror
  · intro hcomplaint
    cases hcomplaint with
    | redefinition hmem => rw [if_pos (hknown.mpr hmem)]

theorem target_error_iff (h : a.Agrees p before) (hopen : openBodies before = (d, own) :: rest)
    {hasValue : Bool} : a.target isGlobal name hasValue = .error error ↔
      p.Complaint before (.target isGlobal name hasValue) error := by
  have hparams : a.current.params.contains name = true ↔ name ∈ d.params := by
    rw [(h.current hopen).1, List.contains_iff_mem]
  rw [Analysis.target]
  constructor
  · intro herror
    split at herror
    · rename_i hparam
      cases herror
      exact .parameterReassigned hopen (hparams.mp hparam)
    · split at herror <;> cases herror
  · intro hcomplaint
    cases hcomplaint with
    | parameterReassigned hopen' hmem =>
      cases hopen.symm.trans hopen'
      rw [if_pos (hparams.mpr hmem)]

/-- No parameter of an open function has a global name. -/
theorem readable_iff (h : a.Agrees p before) (hopen : openBodies before = (d, own) :: rest)
    (hparams : ∀ x ∈ d.params, isGlobalName x = false) :
    (a.table.global.vars.contains name || a.current.params.contains name ||
      a.current.vars.contains name) = true ↔ p.Readable before name := by
  obtain ⟨hcurrent, hown⟩ := h.current hopen
  simp only [Bool.or_eq_true, List.contains_iff_mem, hcurrent, hown, h.vars, Program.Readable,
    hopen]
  cases hname : isGlobalName name with
  | false => simp
  | true =>
    have hparam : name ∉ d.params := by
      intro hmem
      cases (hparams name hmem).symm.trans hname
    simp [hparam]

theorem read_error_iff (h : a.Agrees p before) (hopen : openBodies before = (d, own) :: rest)
    (hparams : ∀ x ∈ d.params, isGlobalName x = false) :
    a.read name = .error error ↔ p.Complaint before (.read name) error := by
  have hreadable : _ ↔ p.Readable before name := h.readable_iff hopen hparams
  rw [Analysis.read]
  constructor
  · intro herror
    split at herror
    · cases herror
    · rename_i hread
      cases herror
      exact .undefinedVariable fun hname => hread (hreadable.mpr hname)
  · intro hcomplaint
    cases hcomplaint with
    | undefinedVariable hname => rw [if_neg fun hread => hname (hreadable.mp hread)]

/-- The function of a name that is entered so far. -/
theorem definition?_eq (h : a.Agrees p before) (hname : name ≠ globalScopeName) :
    (a.table.get? name).map Scope.definition = firstNamed? (entered before) name := by
  have hscopes := congrArg (Option.map Prod.fst) (h.scopes hname)
  simpa [Option.map_map, Function.comp_def, Scope.header] using hscopes

/-- A global name may call what is entered so far or found by the first pass. -/
theorem callee?_global (h : a.Agrees p before) (hname : isGlobalName name = true) :
    a.callee? p.globals true name =
      (firstNamed? (entered before) name).or (p.globals.functions.lookup name) := by
  have hne : name ≠ globalScopeName := by
    rintro rfl
    cases hname
  have hknown := h.known hname
  rw [Analysis.callee?, if_pos rfl, h.definition?_eq hne]
  split
  · rfl
  · rename_i hnew
    rw [List.contains_iff_mem, hknown, not_or] at hnew
    simp only [Bool.not_eq_true, Option.isSome_eq_false_iff, Option.isNone_iff_eq_none] at hnew
    rw [hnew.1, hnew.2]
    rfl

/-- The function that a call is checked against is the first one that the name may call. -/
theorem callee?_eq (hp : p.WellFormed) (h : a.Agrees p before) (hsplit : p.events = before ++ after)
    (hbefore : before ≠ []) : a.callee? p.globals (isGlobalName name) name =
      firstNamed? (p.callable before name) name := by
  cases hname : isGlobalName name with
  | false =>
    have hcallable : p.callable before name = entered before := by simp [Program.callable, hname]
    rw [hcallable, Analysis.callee?, if_neg Bool.false_ne_true]
    split
    · rename_i hne
      exact (firstNamed?_eq_none.mpr fun d hd heq => h.reserved d hd (heq.trans hne)).symm
    · rename_i hne
      exact h.definition?_eq hne
  | true =>
    have hcallable : p.callable before name = entered before ++ entered after := by
      simp [Program.callable, hname, hsplit, entered_append]
    rw [h.callee?_global hname, hp.lookup_globals hsplit hbefore hname, hcallable,
      firstNamed?_append]
    cases hfirst : firstNamed? (entered before) name with
    | some d => rfl
    | none =>
      -- the program is not global, but it is entered first and so found before
      have hfilter : firstNamed? ((entered before).filter Definition.isGlobal) name = none := by
        rw [firstNamed?_eq_none] at hfirst ⊢
        exact fun d hd => hfirst d (List.mem_filter.mp hd).1
      rw [hfilter, Option.none_or]

theorem call_error_iff (hp : p.WellFormed) (h : a.Agrees p before)
    (hsplit : p.events = before ++ after) (hbefore : before ≠ []) {args : Nat} :
    a.call p.globals (isGlobalName name) name args = .error error ↔
      p.Complaint before (.call (isGlobalName name) name args) error := by
  rw [Analysis.call, h.callee?_eq hp hsplit hbefore]
  constructor
  · intro herror
    split at herror
    · rename_i hnone
      cases herror
      exact .undefinedFunction (firstNamed?_eq_none.mp hnone)
    · rename_i d hd
      split at herror
      · cases herror
      · rename_i hargs
        cases herror
        obtain ⟨_, rfl⟩ := firstNamed?_eq_some hd
        exact .arityMismatch hd hargs
  · intro hcomplaint
    cases hcomplaint with
    | undefinedFunction hnone => rw [firstNamed?_eq_none.mpr hnone]
    | arityMismatch hd hargs =>
      obtain ⟨_, rfl⟩ := firstNamed?_eq_some hd
      simp only [hd, if_neg hargs]

end

/-! ## Steps -/

section

variable {event : Event} {d : Definition Node} {own : List Event}
  {rest : List (Definition Node × List Event)}

/-- An event that changes nothing but the place. -/
theorem quiet (h : a.Agrees p before) (htable : a'.table = a.table)
    (hpath : a'.path = (openBodies (before ++ [event])).map (·.1.name))
    (hdefinition : event.definition? = none) (hwrite : ∀ name, event.write? name = none)
    (hopen : ∀ {d own}, (d, own) ∈ openBodies (before ++ [event]) →
      ∃ own', (d, own') ∈ openBodies before ∧ ∀ name, lastWrite? name own = lastWrite? name own') :
    a'.Agrees p (before ++ [event]) where
  toReflects := h.toReflects.congr htable (by simp [entered_concat, hdefinition])
  path := hpath
  own hmem := by
    obtain ⟨own', hmem', hlast⟩ := hopen hmem
    obtain ⟨vars, hvars, hown⟩ := h.own hmem'
    exact ⟨vars, htable ▸ hvars, fun name => by rw [hown, hlast]⟩
  vars := by simp [htable, h.vars, lastWrite?_concat, hwrite]
  known hname := by simp [htable, h.known hname, entered_concat, hdefinition]

/-- An event in the innermost function that changes nothing. -/
theorem use (h : a.Agrees p before) (hopen : openBodies before = (d, own) :: rest)
    (hstep : openStep ((d, own) :: rest) event = (d, own ++ [event]) :: rest)
    (hdefinition : event.definition? = none) (hwrite : ∀ name, event.write? name = none) :
    a.Agrees p (before ++ [event]) := by
  have hnext : openBodies (before ++ [event]) = (d, own ++ [event]) :: rest := by
    rw [openBodies_concat, hopen, hstep]
  refine h.quiet rfl ?_ hdefinition hwrite ?_
  · rw [h.path, hopen, hnext]
    rfl
  · intro d' own' hmem
    rw [hnext] at hmem
    rcases List.mem_cons.mp hmem with heq | hmem
    · cases heq
      exact ⟨own, hopen ▸ List.mem_cons_self, fun name => by simp [lastWrite?_concat, hwrite]⟩
    · exact ⟨own', hopen ▸ List.mem_cons_of_mem _ hmem, fun _ => rfl⟩

/-- The end of a function. -/
theorem leave (h : a.Agrees p before) :
    Agrees p (before ++ [.leave]) { a with path := a.path.tail } := by
  have hnext : openBodies (before ++ [.leave]) = (openBodies before).tail := by
    rw [openBodies_concat]
    rfl
  refine h.quiet rfl ?_ rfl (fun _ => rfl) ?_
  · rw [hnext, List.map_tail, ← h.path]
  · intro d own hmem
    exact ⟨own, List.mem_of_mem_tail (hnext ▸ hmem), fun _ => rfl⟩

/-- A write to a variable leaves the variables of the functions around the place. -/
theorem vars_outer (h : a.Agrees p before) (hopen : openBodies before = (d, own) :: rest)
    {d' : Definition Node} {own' : List Event} (hmem : (d', own') ∈ rest) (isGlobal : Bool)
    (f : Scope → Scope) :
    (a.modifyScope isGlobal f).table.get? d'.name = a.table.get? d'.name := by
  have hreserved := h.ne_of_open (hopen ▸ List.mem_cons_of_mem _ hmem)
  cases isGlobal with
  | true => rw [modifyScope_true, ScopeTable.get?_modifyGlobal f hreserved]
  | false =>
    have hnodup := h.nodup_open
    rw [hopen, List.map_cons, List.nodup_cons] at hnodup
    have hne : d'.name ≠ d.name := fun heq => hnodup.1 (heq ▸ List.mem_map_of_mem hmem)
    rw [modifyScope_false (h.path_eq hopen), ScopeTable.get?_modifyFunction _ f hreserved,
      if_neg hne]

/-- A write to a variable without a global name is to the innermost function. -/
theorem vars_inner (h : a.Agrees p before) (hopen : openBodies before = (d, own) :: rest)
    (n : String) (value : Bool) :
    ∃ vars, ((a.modifyScope (isGlobalName n) (Scope.write n value)).table.get? d.name).map
        Scope.vars = some vars ∧
      ∀ name, name ∈ vars ↔ isGlobalName name = false ∧
        (if n = name then some value else lastWrite? name own) = some true := by
  have hmem : (d, own) ∈ openBodies before := hopen ▸ List.mem_cons_self
  have hreserved := h.ne_of_open hmem
  obtain ⟨vars, hvars, hown⟩ := h.own hmem
  cases hglobal : isGlobalName n with
  | true =>
    refine ⟨vars, by rw [modifyScope_true, ScopeTable.get?_modifyGlobal _ hreserved, hvars], ?_⟩
    intro name
    rw [hown]
    split
    · rename_i heq
      simp [← heq, hglobal]
    · rfl
  | false =>
    obtain ⟨scope, hscope, rfl⟩ := Option.map_eq_some_iff.mp hvars
    refine ⟨(scope.write n value).vars, ?_, ?_⟩
    · rw [modifyScope_false (h.path_eq hopen), ScopeTable.get?_modifyFunction _ _ hreserved,
        if_pos rfl, hscope]
      rfl
    · intro name
      rw [Scope.mem_vars_write, hown]
      split
      · rename_i heq
        simp [← heq, hglobal]
      · rfl

/-- A write to a variable with a global name is to the global scope. -/
theorem vars_global (h : a.Agrees p before) (hopen : openBodies before = (d, own) :: rest)
    (n : String) (value : Bool) {name : String} :
    name ∈ (a.modifyScope (isGlobalName n) (Scope.write n value)).table.global.vars ↔
      isGlobalName name = true ∧
        (if n = name then some value else
          (lastWrite? name before).or (lastWrite? name p.events)) = some true := by
  cases hglobal : isGlobalName n with
  | true =>
    show name ∈ (a.table.global.write n value).vars ↔ _
    rw [Scope.mem_vars_write, h.vars]
    split
    · rename_i heq
      simp [← heq, hglobal]
    · rfl
  | false =>
    rw [modifyScope_false (h.path_eq hopen)]
    show name ∈ a.table.global.vars ↔ _
    rw [h.vars]
    split
    · rename_i heq
      simp [← heq, hglobal]
    · rfl

/-- A write to a variable in the innermost function. -/
theorem write (h : a.Agrees p before) (hopen : openBodies before = (d, own) :: rest)
    (hstep : openStep ((d, own) :: rest) event = (d, own ++ [event]) :: rest)
    (hdefinition : event.definition? = none) {n : String} {value : Bool}
    (hwrite : ∀ name, event.write? name = if n = name then some value else none) :
    (a.modifyScope (isGlobalName n) (Scope.write n value)).Agrees p (before ++ [event]) := by
  have hnext : openBodies (before ++ [event]) = (d, own ++ [event]) :: rest := by
    rw [openBodies_concat, hopen, hstep]
  have hentered : entered (before ++ [event]) = entered before := by
    simp [entered_concat, hdefinition]
  have hlast (name : String) (events : List Event) : lastWrite? name (events ++ [event]) =
      if n = name then some value else lastWrite? name events := by
    rw [lastWrite?_concat, hwrite]
    split <;> rfl
  constructor
  · exact (h.toReflects.modifyScope _ _ (Scope.header_write n value)
      (Scope.functions_write n value)).congr rfl hentered
  · rw [path_modifyScope, h.path, hopen, hnext]
    rfl
  · intro d' own' hmem
    rw [hnext] at hmem
    rcases List.mem_cons.mp hmem with heq | hmem
    · cases heq
      simpa only [hlast] using h.vars_inner hopen n value
    · rw [h.vars_outer hopen hmem]
      exact h.own (hopen ▸ List.mem_cons_of_mem _ hmem)
  · intro name
    rw [h.vars_global hopen, hlast]
    split <;> rfl
  · intro name hname
    rw [global_modifyScope Scope.functions (Scope.functions_write n value) _ a, hentered]
    exact h.known hname

/-- A function with a global name is added to the global scope. -/
theorem functions_enter (h : a.Agrees p before)
    (hmarked : openBodies before ≠ [] → d.isGlobal = isGlobalName d.name) {name : String}
    (hname : isGlobalName name = true) :
    name ∈ (a.modifyScope d.isGlobal (Scope.addFunction d.name)).table.global.functions ↔
      name = d.name ∨ name ∈ a.table.global.functions := by
  cases hopen : openBodies before with
  | nil =>
    have htable : (a.modifyScope d.isGlobal (Scope.addFunction d.name)).table =
        a.table.modifyGlobal (Scope.addFunction d.name) := by
      simp [modifyScope, h.path, hopen]
    rw [htable]
    exact mem_addName
  | cons body rest =>
    have hglobal := hmarked (by simp [hopen])
    cases hd : d.isGlobal with
    | true => exact mem_addName
    | false =>
      have hne : name ≠ d.name := by
        rintro rfl
        cases hname.symm.trans (hglobal.symm.trans hd)
      rw [modifyScope_false (h.path_eq hopen)]
      show name ∈ a.table.global.functions ↔ _
      simp [hne]

/-- The start of a function. -/
theorem enter (h : a.Agrees p before)
    (hmarked : openBodies before ≠ [] → d.isGlobal = isGlobalName d.name)
    (hname : d.name ≠ globalScopeName) (hok : a.enter d = .ok a') :
    a'.Agrees p (before ++ [.enter d]) := by
  have hnext : openBodies (before ++ [.enter d]) = (d, []) :: openBodies before := by
    rw [openBodies_concat]
    rfl
  have hreflects := h.toReflects.enter hok
  rw [Analysis.enter] at hok
  split at hok
  · cases hok
  · rename_i hnew
    cases hok
    have hnone : a.table.get? d.name = none := by simpa [ScopeTable.contains] using hnew
    have haddVars (s : Scope) : (s.addFunction d.name).vars = s.vars := rfl
    have hvars {n : String} (hn : n ≠ globalScopeName) :
        (((a.modifyScope d.isGlobal (Scope.addFunction d.name)).table.push d.name
          (.ofDefinition d)).get? n).map Scope.vars =
        ((a.table.get? n).map Scope.vars).or (if n = d.name then some [] else none) := by
      rw [ScopeTable.get?_push _ _ hn, Option.map_or,
        map_get?_modifyScope Scope.vars haddVars d.isGlobal a hn]
      split <;> rfl
    refine ⟨hreflects, ?_, ?_, ?_, ?_⟩
    · rw [hnext, List.map_cons, ← h.path]
      exact congrArg _ (path_modifyScope ..)
    · intro d' own' hmem
      rw [hnext] at hmem
      rcases List.mem_cons.mp hmem with heq | hmem
      · cases heq
        exact ⟨[], by rw [hvars hname, hnone, if_pos rfl]; rfl, by simp⟩
      · obtain ⟨vars, hold, hown⟩ := h.own hmem
        exact ⟨vars, by rw [hvars (h.ne_of_open hmem), hold]; rfl, hown⟩
    · intro name
      show name ∈ (a.modifyScope d.isGlobal (Scope.addFunction d.name)).table.global.vars ↔ _
      rw [global_modifyScope Scope.vars haddVars d.isGlobal a, h.vars, lastWrite?_concat]
      rfl
    · intro name hn
      show name ∈ (a.modifyScope d.isGlobal (Scope.addFunction d.name)).table.global.functions ↔ _
      rw [h.functions_enter hmarked hn, h.known hn, entered_concat, firstNamed?_append]
      by_cases heq : name = d.name
      · simp [heq, firstNamed?, Event.definition?]
      · have hne : ¬ d.name = name := fun h => heq h.symm
        simp [heq, hne, firstNamed?, Event.definition?]

/-- The check of an event goes wrong where the event is to be complained about. -/
theorem error_iff (hp : p.WellFormed) (h : a.Agrees p before)
    (hsplit : p.events = before ++ event :: after) {error : SemanticError} :
    a.step p.globals event = .error error ↔ p.Complaint before event error := by
  cases event with
  | enter d =>
    have hd : d ∈ entered p.events := mem_entered.mpr (by simp [hsplit])
    exact h.enter_error_iff (hp.definition_of_mem hd).1
  | leave | assigned =>
    constructor
    · intro herror
      cases herror
    · intro hcomplaint
      cases hcomplaint
  | target isGlobal name hasValue =>
    obtain ⟨_, d, own, rest, hopen, _⟩ := hp.exists_open hsplit rfl
    exact h.target_error_iff hopen
  | read name =>
    obtain ⟨_, d, own, rest, hopen, hparams⟩ := hp.exists_open hsplit rfl
    exact h.read_error_iff hopen hparams
  | call isGlobal name args =>
    obtain ⟨hmarked, d, own, rest, hopen, _⟩ := hp.exists_open hsplit rfl
    have hbefore : before ≠ [] := by
      rintro rfl
      cases hopen
    obtain rfl : isGlobal = isGlobalName name := hmarked
    exact h.call_error_iff hp hsplit hbefore

/-- The check of an event remembers what the event does. -/
theorem step (hp : p.WellFormed) (h : a.Agrees p before)
    (hsplit : p.events = before ++ event :: after) (hok : a.step p.globals event = .ok a') :
    a'.Agrees p (before ++ [event]) := by
  cases event with
  | enter d =>
    have hd : d ∈ entered p.events := mem_entered.mpr (by simp [hsplit])
    refine h.enter (fun hopen => ?_) (hp.definition_of_mem hd).1 hok
    have hbefore : before ≠ [] := fun hnil => hopen (hnil ▸ rfl)
    exact (hp.marked hsplit hbefore).1
  | leave =>
    cases hok
    exact h.leave
  | target isGlobal name hasValue =>
    obtain ⟨hmarked, d, own, rest, hopen, _⟩ := hp.exists_open hsplit rfl
    obtain rfl : isGlobal = isGlobalName name := hmarked
    rw [Analysis.step, Analysis.target] at hok
    split at hok
    · cases hok
    · cases hasValue with
      | true =>
        cases hok
        exact h.use hopen rfl rfl fun _ => rfl
      | false =>
        cases hok
        have hwrite (x : String) : (Event.target (isGlobalName name) name false).write? x =
            if name = x then some false else none := rfl
        exact h.write hopen rfl rfl hwrite
  | assigned isGlobal name =>
    obtain ⟨hmarked, d, own, rest, hopen, _⟩ := hp.exists_open hsplit rfl
    obtain rfl : isGlobal = isGlobalName name := hmarked
    have hwrite (x : String) : (Event.assigned (isGlobalName name) name).write? x =
        if name = x then some true else none := rfl
    cases hok
    exact h.write hopen rfl rfl hwrite
  | read name =>
    obtain ⟨_, d, own, rest, hopen, _⟩ := hp.exists_open hsplit rfl
    rw [Analysis.step, Analysis.read] at hok
    split at hok
    · cases hok
      exact h.use hopen rfl rfl fun _ => rfl
    · cases hok
  | call isGlobal name args =>
    obtain ⟨_, d, own, rest, hopen, _⟩ := hp.exists_open hsplit rfl
    obtain ⟨_, _, _, rfl⟩ := Analysis.call_eq_ok.mp hok
    exact h.use hopen rfl rfl fun _ => rfl

end

end Agrees

/-- Before the first event, nothing but the global names is known. -/
theorem agrees_start (hp : p.WellFormed) : (start p p.globals).Agrees p [] where
  toReflects := reflects_start p
  path := rfl
  own hmem := absurd hmem List.not_mem_nil
  vars := hp.mem_vars
  known {name} _ := by
    show name ∈ p.globals.functions.map Prod.fst ↔ false = true ∨ _
    rw [List.lookup_isSome_iff, List.mem_map]
    simp only [Bool.false_eq_true, false_or, beq_iff_eq, @eq_comm String name]

end Analysis

/-! ## Programs -/

section

variable {p : Program} {before after : List Event} {a : Analysis}

/-- The state of the check at every place of the text is told by the events before it. -/
theorem agrees_of_foldlM (hp : p.WellFormed) (hsplit : p.events = before ++ after)
    (h : before.foldlM (Analysis.step p.globals) (.start p p.globals) = .ok a) :
    a.Agrees p before := by
  induction before using List.reverseRecOn generalizing after a with
  | nil =>
    cases h
    exact Analysis.agrees_start hp
  | append_singleton before event ih =>
    obtain ⟨b, hb, hlast⟩ := checks_append.mp h
    obtain ⟨c, hstep, hnil⟩ := checks_cons.mp hlast
    cases hnil
    rw [List.append_assoc] at hsplit
    exact (ih hsplit hb).step hp hsplit hstep

end

end VectorLang
