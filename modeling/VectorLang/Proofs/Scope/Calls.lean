import VectorLang.Proofs.Machine.Faults
import VectorLang.Proofs.Machine.Reach
import VectorLang.Proofs.Scope.Table
import VectorLang.Proofs.Tree.Shape

/-!
# Calls are checked before the run

The function that a call runs is the one that the call was checked against, although the
check and the run look it up in different ways: the check by the name as far as the text has
been read, and the run by the name in the table of the whole program.

* `Program.closed_contains`       a run comes to no nodes but those of the program
* `callee_eq`                     what a call is checked against
* `calls_resolved`                what a call runs
-/

namespace VectorLang

/-! ## Nodes of a run -/

/-- The parts of a node stand right below it. -/
theorem Node.mem_children_of_mem_parts {node part : Node} (h : part ∈ node.parts) :
    part ∈ node.children := by
  cases node with
  | predicate | function | program => cases h
  | _ => exact h

/-- The final table holds the functions of the program. -/
theorem reflects_of_analyze {p : Program} {table : ScopeTable} (h : analyze p = .ok table) :
    ∃ a : Analysis, a.table = table ∧ a.Reflects p p.events := by
  obtain ⟨a, ha, htable⟩ := analyze_eq_ok.mp h
  exact ⟨a, htable, reflects_of_foldlM ha⟩

/-- The statements of every scope are nodes of the program. -/
theorem Program.contains_of_get? {p : Program} {table : ScopeTable} (h : analyze p = .ok table)
    {name : String} {scope : Scope} (hscope : table.get? name = some scope) {statement : Node}
    (hstatement : statement ∈ scope.definition.body) : p.Contains statement := by
  obtain ⟨a, rfl, ha⟩ := reflects_of_analyze h
  by_cases hname : name = globalScopeName
  · rw [hname, ScopeTable.get?_global] at hscope
    cases hscope
    have hblock : a.table.global.definition = p.block := congrArg Prod.fst ha.global
    rw [hblock] at hstatement
    exact .step hstatement (.refl _)
  · obtain ⟨hd, _⟩ := ha.definition_eq hname hscope
    obtain ⟨m, hm, hbody⟩ := Node.contains_of_enter (mem_entered.mp (firstNamed?_eq_some hd).1)
    exact hm.child (hbody ▸ hstatement)

/-- Evaluation does not leave the nodes of the program. -/
theorem Program.closed_contains {p : Program} {table : ScopeTable} (h : analyze p = .ok table) :
    Closed table p.Contains where
  parts hnode hpart := hnode.child (Node.mem_children_of_mem_parts hpart)
  bodies hscope hstatement _ := Program.contains_of_get? h hscope hstatement

/-! ## Functions that are called -/

section

variable {p : Program} {before after : List Event} {a : Analysis} {isGlobal : Bool}
  {name : String} {args : Nat}

/-- A global function that has not been entered was found by the first pass. -/
theorem Analysis.Reflects.lookup_isSome (h : a.Reflects p before)
    (hname : name ∈ a.table.global.functions) (hnone : a.table.get? name = none) :
    (p.globals.functions.lookup name).isSome := by
  refine (h.functions name hname).resolve_left fun hentered => ?_
  obtain ⟨d, hd⟩ := Option.isSome_iff_exists.mp hentered
  obtain ⟨scope, hscope, _⟩ := h.exists_scope hd
  rw [hnone] at hscope
  cases hscope

/-- If all functions have different names, a call is checked against the one that has the name
    in the whole program. -/
theorem Analysis.Reflects.firstNamed?_of_callee? {b : Analysis} (h : a.Reflects p before)
    (hend : b.Reflects p p.events) (hsplit : p.events = before ++ after) {d : Definition Node}
    (hcallee : a.callee? p.globals isGlobal name = some d) :
    firstNamed? (entered p.events) name = some d := by
  have hbefore {d' : Definition Node} (hd' : firstNamed? (entered before) name = some d') :
      firstNamed? (entered p.events) name = some d' := by
    rw [hsplit, entered_append, firstNamed?_append, hd', Option.some_or]
  have hlookup {d' : Definition Node} (hd' : p.globals.functions.lookup name = some d') :
      firstNamed? (entered p.events) name = some d' := by
    rw [Program.globals, GlobalNames.lookup_ofEvents] at hd'
    obtain ⟨hmem, rfl⟩ := firstNamed?_eq_some hd'
    exact firstNamed?_of_mem hend.distinct (List.mem_filter.mp hmem).1
  -- the name of the global scope is that of no function
  have hreserved {d' : Definition Node} (hd' : firstNamed? (entered p.events) name = some d') :
      name ≠ globalScopeName := by
    obtain ⟨hmem, rfl⟩ := firstNamed?_eq_some hd'
    exact hend.reserved d' hmem
  have hscope (hname : name ≠ globalScopeName)
      (hd : (a.table.get? name).map Scope.definition = some d) :
      firstNamed? (entered p.events) name = some d := by
    obtain ⟨scope, hget, rfl⟩ := Option.map_eq_some_iff.mp hd
    exact hbefore (h.definition_eq hname hget).1
  rw [Analysis.callee?] at hcallee
  split at hcallee
  · split at hcallee
    · rename_i hmem
      have hname : name ≠ globalScopeName := by
        rcases h.functions name (by simpa using hmem) with hd | hd
        · obtain ⟨d', hd'⟩ := Option.isSome_iff_exists.mp hd
          exact hreserved (hbefore hd')
        · obtain ⟨d', hd'⟩ := Option.isSome_iff_exists.mp hd
          exact hreserved (hlookup hd')
      rcases Option.or_eq_some_iff.mp hcallee with hd | ⟨_, hd⟩
      · exact hscope hname hd
      · exact hlookup hd
    · cases hcallee
  · split at hcallee
    · cases hcallee
    · rename_i hname
      exact hscope hname hcallee

/-- In a program whose names are in order, a call is checked against the function that has the
    name in the table of the whole program. -/
theorem callee_eq {table : ScopeTable} (h : analyze p = .ok table)
    (hsplit : p.events = before ++ .call isGlobal name args :: after) :
    ∃ a scope, before.foldlM (Analysis.step p.globals) (.start p p.globals) = .ok a ∧
      a.callee? p.globals isGlobal name = some scope.definition ∧
      table.get? name = some scope ∧ scope.params = scope.definition.params ∧
      scope.params.length = args := by
  obtain ⟨b, hb, rfl⟩ := analyze_eq_ok.mp h
  have hend := reflects_of_foldlM hb
  rw [hsplit] at hb
  obtain ⟨a, ha, hrest⟩ := checks_append.mp hb
  obtain ⟨c, hcall, _⟩ := checks_cons.mp hrest
  obtain ⟨d, hcallee, hargs, _⟩ := Analysis.call_eq_ok.mp hcall
  have hd := (reflects_of_foldlM ha).firstNamed?_of_callee? hend hsplit hcallee
  obtain ⟨scope, hscope, rfl, hparams⟩ := hend.exists_scope hd
  exact ⟨a, scope, ha, hcallee, hscope, hparams, hparams ▸ hargs⟩

end

/-- A call is checked where it stands in the text. -/
theorem Program.call_mem_events {p : Program} {location : Location} {isGlobal : Bool}
    {name : String} {args : List Node} (h : p.Contains (.call location isGlobal name args)) :
    .call isGlobal name args.length ∈ p.events :=
  h.mem_events (Node.mem_events_iff.mpr (Or.inl List.mem_cons_self))

/-- Every function that is called in a program has a scope. -/
theorem Program.exists_scope_of_contains {p : Program} {table : ScopeTable}
    (h : analyze p = .ok table) {location : Location} {isGlobal : Bool} {name : String}
    {args : List Node} (hnode : p.Contains (.call location isGlobal name args)) :
    ∃ scope, table.get? name = some scope := by
  obtain ⟨before, after, hsplit⟩ := List.append_of_mem (Program.call_mem_events hnode)
  obtain ⟨_, scope, _, _, hscope, _⟩ := callee_eq h hsplit
  exact ⟨scope, hscope⟩

/-- The check never misses a global function in what the first pass found.  If it succeeds,
    every call of a run finds its name in the table.  The function of that name is the one that
    the call was checked against, wherever it stands in the text, and there is an argument for
    every parameter.  So no run ends because a function is undefined. -/
theorem calls_resolved (p : Program) :
    (∀ before after name args a, p.events = before ++ .call true name args :: after →
      before.foldlM (Analysis.step p.globals) (.start p p.globals) = .ok a →
      name ∈ a.table.global.functions → a.table.get? name = none →
      (p.globals.functions.lookup name).isSome) ∧
    ∀ table verbose fuel, analyze p = .ok table →
      (∀ location isGlobal name args m,
        Context.Reaches ⟨table, verbose⟩ fuel (.call location isGlobal name args) m →
        .call isGlobal name args.length ∈ p.events ∧
        ∃ scope, table.get? name = some scope ∧ scope.params = scope.definition.params ∧
          scope.params.length = args.length ∧
          ∀ before after, p.events = before ++ .call isGlobal name args.length :: after →
            ∃ a, before.foldlM (Analysis.step p.globals) (.start p p.globals) = .ok a ∧
              a.callee? p.globals isGlobal name = some scope.definition) ∧
      ∀ name location m,
        run ⟨table, verbose⟩ fuel ≠ ⟨.failed ⟨.undefinedFunction name, location⟩, m⟩ := by
  constructor
  · intro before after name args a _ ha hname hnone
    exact (reflects_of_foldlM ha).lookup_isSome hname hnone
  · intro table verbose fuel h
    constructor
    · intro location isGlobal name args m hreach
      have hnode := mem_of_reaches (Program.closed_contains h) hreach
      obtain ⟨scope, hscope⟩ := Program.exists_scope_of_contains h hnode
      have hevent := Program.call_mem_events hnode
      -- every check of such a call leads to the function that has the name in the table
      have hcheck {before after : List Event}
          (hsplit : p.events = before ++ .call isGlobal name args.length :: after) :
          ∃ a, before.foldlM (Analysis.step p.globals) (.start p p.globals) = .ok a ∧
            a.callee? p.globals isGlobal name = some scope.definition ∧
            scope.params = scope.definition.params ∧ scope.params.length = args.length := by
        obtain ⟨a, scope', ha, hcallee, hscope', hparams⟩ := callee_eq h hsplit
        cases hscope.symm.trans hscope'
        exact ⟨a, ha, hcallee, hparams⟩
      obtain ⟨before, after, hsplit⟩ := List.append_of_mem hevent
      obtain ⟨_, _, _, hparams, hargs⟩ := hcheck hsplit
      refine ⟨hevent, scope, hscope, hparams, hargs, fun before' after' hsplit' => ?_⟩
      obtain ⟨a, ha, hcallee, _⟩ := hcheck hsplit'
      exact ⟨a, ha, hcallee⟩
    · intro name location m hrun
      cases explained_of_failed (Program.closed_contains h) hrun with
      | raised hnode hraises =>
        cases hraises with
        | undefinedFunction hnone =>
          obtain ⟨scope, hscope⟩ := Program.exists_scope_of_contains h hnode
          cases hnone.symm.trans hscope

/-- The definition of a global function that prints its parameter. -/
def printer : Definition Node :=
  ⟨default, true, ".F", ["X"], [.output default (.var default false "X" none)]⟩

/-- A call of that function. -/
def printerCall : Node := .call default true ".F" [.int default 7]

/-- A program that calls the function before it is defined. -/
def forwardProgram : Program :=
  ⟨default, "P", ⟨default, false, "P", [], [printerCall, .function printer]⟩⟩

/-- The scopes of that program. -/
def forwardTable : ScopeTable where
  global := ⟨[], forwardProgram.block, [".F", "P"], []⟩
  functions := [("P", ⟨[], forwardProgram.block, ["P"], []⟩), (".F", .ofDefinition printer)]

theorem calls_resolved_forward :
    analyze forwardProgram = .ok forwardTable ∧
    Context.Reaches ⟨forwardTable, false⟩ 1 printerCall (Context.start ⟨forwardTable, false⟩) ∧
    ∃ scope, forwardTable.get? ".F" = some scope ∧ scope.params.length = 1 := by
  have hanalyze : analyze forwardProgram = .ok forwardTable := by rfl
  have hreach : Context.Reaches ⟨forwardTable, false⟩ 1 printerCall
      (Context.start ⟨forwardTable, false⟩) := by
    intro stop
    exact bind_of_error evalStopped_self
  obtain ⟨_, hresolved⟩ := calls_resolved forwardProgram
  obtain ⟨hcalls, _⟩ := hresolved forwardTable false 1 hanalyze
  obtain ⟨_, scope, hscope, _, hargs, _⟩ := hcalls _ _ _ _ _ hreach
  exact ⟨hanalyze, hreach, scope, hscope, hargs⟩

end VectorLang
