import Mathlib
import VectorLang.Proofs.Machine.Rename
import VectorLang.Proofs.Machine.Safety
import VectorLang.Proofs.Scope.Order

/-!
# Names carry no meaning

A program that was read from a text may use other names for its functions, and others for its
variables and parameters.  All that matters is that different names stay different, and that
no function gets the name of the global scope.  The new names of functions have nothing to do
with those of variables.

A renaming that is injective on the names of one program is not yet faithful: it may take the
names that the program does not use to any others.  `Renaming.extend` changes it there.

* `Renaming.faithful_extend`    what a renaming is changed to is faithful
* `Program.rename_extend`       and does the same with the program
* `Node.Raises.rename`          a node fails under other names as it does under its own
* `names_immaterial`            check and run of a program under other names
-/

namespace VectorLang

/-! ## The names of a program -/

/-- The name that an event has for a function. -/
def Event.functionName? : Event → Option String
  | .enter d => some d.name
  | .call _ name _ => some name
  | _ => none

/-- The names that an event has for variables. -/
def Event.varNames : Event → List String
  | .enter d => d.params
  | .target _ name _ | .assigned _ name | .read name => [name]
  | .leave | .call .. => []

namespace Program

variable {p : Program} {event : Event} {x : String}

/-- The names of the functions that a program defines or calls, its own name included. -/
def functionNames (p : Program) : List String :=
  p.events.filterMap Event.functionName?

/-- The names of the variables and parameters of a program. -/
def varNames (p : Program) : List String :=
  p.events.flatMap Event.varNames

theorem mem_functionNames (h : event ∈ p.events) (hx : event.functionName? = some x) :
    x ∈ p.functionNames :=
  List.mem_filterMap.mpr ⟨event, h, hx⟩

theorem mem_varNames (h : event ∈ p.events) (hx : x ∈ event.varNames) : x ∈ p.varNames :=
  List.mem_flatMap.mpr ⟨event, h, hx⟩

end Program

/-! ## Renamings of some names -/

/-- A name that is longer than each one of a row. -/
def longerName : List String → String
  | [] => "x"
  | name :: names => name ++ longerName names

theorem length_lt_longerName {names : List String} {x : String} (h : x ∈ names) :
    x.length < (longerName names).length := by
  have hpos (names : List String) : 0 < (longerName names).length := by
    induction names with
    | nil => decide
    | cons name names ih =>
      rw [longerName, String.length_append]
      omega
  induction names with
  | nil => cases h
  | cons name names ih =>
    rw [longerName, String.length_append]
    rcases List.mem_cons.mp h with rfl | h
    · have := hpos names
      omega
    · have := ih h
      omega

/-- A function on all names that does what `f` does with some of them, and gives the rest names
    that are too long for those. -/
def extendNames (names : List String) (f : String → String) (x : String) : String :=
  if x ∈ names then f x else longerName (names.map f) ++ x

section

variable {names : List String} {f : String → String}

theorem extendNames_of_mem {x : String} (h : x ∈ names) : extendNames names f x = f x :=
  if_pos h

theorem extendNames_ne {x y : String} (hx : x ∈ names) (hy : y ∉ names) :
    extendNames names f x ≠ extendNames names f y := by
  intro heq
  rw [extendNames, extendNames, if_pos hx, if_neg hy] at heq
  have hlt := length_lt_longerName (List.mem_map_of_mem (f := f) hx)
  rw [heq, String.length_append] at hlt
  omega

/-- If `f` takes different ones of the names to different names, the extension does so with all
    names. -/
theorem extendNames_injective (hf : Set.InjOn f {x | x ∈ names}) :
    Function.Injective (extendNames names f) := by
  intro x y heq
  by_cases hx : x ∈ names
  · by_cases hy : y ∈ names
    · rw [extendNames_of_mem hx, extendNames_of_mem hy] at heq
      exact hf hx hy heq
    · exact absurd heq (extendNames_ne hx hy)
  · by_cases hy : y ∈ names
    · exact absurd heq.symm (extendNames_ne hy hx)
    · -- the same long name is put before both
      rw [extendNames, extendNames, if_neg hx, if_neg hy] at heq
      simpa using heq

end

namespace Renaming

variable {ρ ρ' : Renaming} {p : Program}

/-- A renaming that does the same with the names of a program, keeps the name of the global scope
    and takes different names to different ones everywhere. -/
def extend (ρ : Renaming) (p : Program) : Renaming where
  place := ρ.place
  function := extendNames (globalScopeName :: p.functionNames)
    (Function.update ρ.function globalScopeName globalScopeName)
  var := extendNames p.varNames ρ.var

theorem function_extend (x : String) :
    (ρ.extend p).function x = extendNames (globalScopeName :: p.functionNames)
      (Function.update ρ.function globalScopeName globalScopeName) x := rfl

/-- Whether a renaming takes different names of a program to different ones, and none of a
    function to that of the global scope. -/
structure FaithfulOn (ρ : Renaming) (p : Program) : Prop where
  function : Set.InjOn ρ.function {x | x ∈ p.functionNames}
  var : Set.InjOn ρ.var {x | x ∈ p.varNames}
  globals : ∀ x ∈ p.functionNames, ρ.function x ≠ globalScopeName

theorem faithful_extend (h : ρ.FaithfulOn p) : (ρ.extend p).Faithful := by
  have hfunction : Set.InjOn (Function.update ρ.function globalScopeName globalScopeName)
      {x | x ∈ globalScopeName :: p.functionNames} := by
    intro x hx y hy heq
    -- no other name is taken to the one that is kept
    by_cases hxg : x = globalScopeName
    · by_cases hyg : y = globalScopeName
      · rw [hxg, hyg]
      · rw [hxg, Function.update_self, Function.update_of_ne hyg] at heq
        exact absurd heq.symm (h.globals y (List.mem_of_ne_of_mem hyg hy))
    · have hx := List.mem_of_ne_of_mem hxg hx
      by_cases hyg : y = globalScopeName
      · rw [hyg, Function.update_self, Function.update_of_ne hxg] at heq
        exact absurd heq (h.globals x hx)
      · rw [Function.update_of_ne hxg, Function.update_of_ne hyg] at heq
        exact h.function hx (List.mem_of_ne_of_mem hyg hy) heq
  constructor
  · exact fun heq => extendNames_injective hfunction heq
  · exact fun heq => extendNames_injective h.var heq
  · rw [function_extend, extendNames_of_mem List.mem_cons_self, Function.update_self]

/-- Whether two renamings do the same with the names of an event. -/
structure AgreesOn (ρ ρ' : Renaming) (event : Event) : Prop where
  function : ∀ x ∈ event.functionName?, ρ.function x = ρ'.function x
  var : ∀ x ∈ event.varNames, ρ.var x = ρ'.var x

theorem agreesOn_extend (hglobal : globalScopeName ∉ p.functionNames) {event : Event}
    (h : event ∈ p.events) : ρ.AgreesOn (ρ.extend p) event := by
  constructor
  · intro x hx
    have hx := Program.mem_functionNames h hx
    have hne : x ≠ globalScopeName := fun heq => hglobal (heq ▸ hx)
    rw [function_extend, extendNames_of_mem (List.mem_cons_of_mem _ hx), Function.update_of_ne hne]
  · intro x hx
    exact (extendNames_of_mem (Program.mem_varNames h hx)).symm

end Renaming

/-! ## Trees -/

theorem Event.functionName?_rename {ρ : Renaming} (event : Event) :
    (event.rename ρ).functionName? = event.functionName?.map ρ.function := by
  cases event with
  | enter d => exact congrArg some (Node.name_renameDefinition d)
  | _ => rfl

namespace Node

variable {ρ ρ' : Renaming}

theorem renameOption_eq (node? : Option Node) : renameOption ρ node? = node?.map (rename ρ) := by
  cases node? <;> rfl

theorem renameDefinition_congr {d : Definition Node} (hplace : ρ.place = ρ'.place)
    (hname : ρ.function d.name = ρ'.function d.name)
    (hparams : ∀ x ∈ d.params, ρ.var x = ρ'.var x)
    (hbody : ∀ s ∈ d.body, s.rename ρ = s.rename ρ') :
    renameDefinition ρ d = renameDefinition ρ' d := by
  obtain ⟨location, isGlobal, name, params, body⟩ := d
  have hparams : params.map ρ.var = params.map ρ'.var := List.map_congr_left hparams
  have hbody : renameList ρ body = renameList ρ' body := by
    rw [renameList_eq, renameList_eq]
    exact List.map_congr_left hbody
  have hname : ρ.function name = ρ'.function name := hname
  rw [renameDefinition, renameDefinition, hplace, hname, hparams, hbody]

/-- Two renamings that do the same with the names and places of a node do the same with the
    node. -/
theorem rename_congr {n : Node} (h : n.IsRegular) (hplace : ρ.place = ρ'.place)
    (hn : ∀ event ∈ n.events, ρ.AgreesOn ρ' event) : n.rename ρ = n.rename ρ' := by
  induction n using children_induction with
  | h n ih =>
    have hopening : ∀ event ∈ n.opening, ρ.AgreesOn ρ' event := fun event hevent =>
      hn event (mem_events_iff.mpr (Or.inl hevent))
    have hchild : ∀ c ∈ n.children, c.rename ρ = c.rename ρ' := fun c hc =>
      ih c hc (h.child hc) fun event hevent =>
        hn event (mem_events_iff.mpr (Or.inr (Or.inl ⟨c, hc, hevent⟩)))
    have hlist {nodes : List Node} (hnodes : ∀ c ∈ nodes, c ∈ n.children) :
        renameList ρ nodes = renameList ρ' nodes := by
      rw [renameList_eq, renameList_eq]
      exact List.map_congr_left fun c hc => hchild c (hnodes c hc)
    have hoption {node? : Option Node} (hnode : ∀ c ∈ node?, c ∈ n.children) :
        renameOption ρ node? = renameOption ρ' node? := by
      rw [renameOption_eq, renameOption_eq]
      exact Option.map_congr fun c hc => hchild c (hnode c hc)
    have htest {test : Comparison Node} (hleft : test.left ∈ n.children)
        (hright : test.right ∈ n.children) :
        renameComparison ρ test = renameComparison ρ' test := by
      obtain ⟨location, relation, left, right⟩ := test
      rw [renameComparison, renameComparison, hplace, hchild _ hleft, hchild _ hright]
    cases n with
    | int | string => rw [rename, rename, hplace]
    | vector location elements =>
      have helements : renameList ρ elements = renameList ρ' elements := hlist fun c hc => hc
      rw [rename, rename, hplace, helements]
    | var location isGlobal name subscript =>
      have hname := (hopening _ List.mem_cons_self).var name List.mem_cons_self
      rw [rename, rename, hplace, hname, hoption fun c hc => Option.mem_toList.mpr hc]
    | unary location op operand | output location operand =>
      rw [rename, rename, hplace, hchild operand List.mem_cons_self]
    | binary location op left right =>
      rw [rename, rename, hplace, hchild left (by simp [children]),
        hchild right (by simp [children])]
    | call location isGlobal name args =>
      have hname := (hopening _ List.mem_cons_self).function name rfl
      have hargs : renameList ρ args = renameList ρ' args := hlist fun c hc => hc
      rw [rename, rename, hplace, hname, hargs]
    | predicate test => rw [rename, rename, htest (by simp [children]) (by simp [children])]
    | assign location isGlobal name value =>
      have hname := (hopening _ List.mem_cons_self).var name List.mem_cons_self
      rw [rename, rename, hplace, hname, hoption fun c hc => Option.mem_toList.mpr hc]
    | conditional location test thenBody elseBody =>
      rw [rename, rename, hplace, htest (by simp [children]) (by simp [children]),
        hlist fun c hc => by simp [children, hc], hlist fun c hc => by simp [children, hc]]
    | loop location whileTrue test body =>
      rw [rename, rename, hplace, htest (by simp [children]) (by simp [children]),
        hlist fun c hc => by simp [children, hc]]
    | function d =>
      have hd := hopening _ List.mem_cons_self
      rw [rename, rename, renameDefinition_congr hplace (hd.function d.name rfl) hd.var hchild]
    | program location name block =>
      -- neither an expression nor a statement
      rcases h with h | ⟨_, h⟩ <;> cases h

theorem test?_rename (node : Node) :
    (node.rename ρ).test? = node.test?.map (renameComparison ρ) := by
  cases node <;> rfl

/-- The rule of a node fails under other names where it fails under its own. -/
theorem Raises.rename (hρ : ρ.Faithful) {scopes : ScopeTable} {m : Machine} {node : Node}
    {cause : FaultCause} {location : Location} (h : node.Raises scopes m cause location) :
    (node.rename ρ).Raises (scopes.rename ρ) (m.rename ρ) (cause.rename ρ)
      (ρ.place location) := by
  cases h with
  | undefinedElement helement =>
    rw [← location_rename]
    refine .undefinedElement ?_
    rw [renameList_eq]
    exact List.mem_map_of_mem helement
  | mixedElements => exact .mixedElements
  | undefinedVariable hnone => exact .undefinedVariable ((Bindings.get?_rename hρ _ _).trans hnone)
  | uninitializedGlobal hnone =>
    exact .uninitializedGlobal ((Bindings.get?_rename hρ _ _).trans hnone)
  | invalidSubscript => exact .invalidSubscript
  | subscriptOutOfRange => exact .subscriptOutOfRange
  | negationOfOther => exact .negationOfOther
  | lengthOfUndefined => exact .lengthOfUndefined
  | arithmeticOnOther => exact .arithmeticOnOther
  | unequalOperands => exact .unequalOperands
  | divisionByZero => exact .divisionByZero
  | @incomparable _ test htest =>
    have htest : (node.rename ρ).test? = some (renameComparison ρ test) := by
      rw [test?_rename, htest, Option.map_some]
    cases test
    exact .incomparable htest
  | @unequalSides _ test htest =>
    have htest : (node.rename ρ).test? = some (renameComparison ρ test) := by
      rw [test?_rename, htest, Option.map_some]
    cases test
    exact .unequalSides htest
  | callStackExceeded hdepth =>
    refine .callStackExceeded ?_
    show maxDepth < (m.stack.rename ρ).depth
    rw [CallStack.depth_rename]
    exact hdepth
  | undefinedFunction hnone =>
    refine .undefinedFunction ?_
    rw [ScopeTable.get?_rename hρ, hnone, Option.map_none]
  | @predicateAsValue test =>
    cases test
    exact .predicateAsValue
  | @unsupportedFunction d =>
    cases d
    exact .unsupportedFunction
  | unsupportedProgram => exact .unsupportedProgram

end Node

namespace Program

variable {p : Program} {ρ : Renaming}

/-- No node of a program changes under a renaming that is changed where the program has no
    names. -/
theorem rename_extend_node (hp : p.WellFormed) (hglobal : globalScopeName ∉ p.functionNames)
    {node : Node} (h : p.Contains node) : node.rename (ρ.extend p) = node.rename ρ := by
  have hagrees : ∀ event ∈ p.events, ρ.AgreesOn (ρ.extend p) event := fun _ hevent =>
    Renaming.agreesOn_extend hglobal hevent
  have hregular {node : Node} (h : p.Contains node) (hnode : node.IsRegular) :
      node.rename ρ = node.rename (ρ.extend p) :=
    Node.rename_congr hnode rfl fun event hevent => hagrees event (h.mem_events hevent)
  rcases hp.shape_of_contains h with rfl | hnode
  · have hblock := hagrees (.enter p.block) (p.events_eq ▸ List.mem_cons_self)
    have hbody : ∀ s ∈ p.block.body, s.rename ρ = s.rename (ρ.extend p) := fun s hs =>
      hregular (.step hs (.refl s)) (hp.isRegular_of_mem hs)
    have hdefinition : Node.renameDefinition ρ p.block =
        Node.renameDefinition (ρ.extend p) p.block :=
      Node.renameDefinition_congr rfl (hblock.function p.block.name rfl) hblock.var hbody
    rw [Node.rename, Node.rename, hdefinition]
  · exact (hregular h hnode).symm

theorem rename_extend (hp : p.WellFormed) (hglobal : globalScopeName ∉ p.functionNames) :
    p.rename (ρ.extend p) = p.rename ρ := by
  have hblock : Node.renameDefinition (ρ.extend p) p.block = Node.renameDefinition ρ p.block := by
    have hnode := rename_extend_node (ρ := ρ) hp hglobal (.refl (.function p.block))
    simpa only [Node.rename, Node.function.injEq] using hnode
  have hname := congrArg Definition.name hblock
  rw [Node.name_renameDefinition, Node.name_renameDefinition, hp.name] at hname
  rw [rename, rename, hblock, hname]
  rfl

/-- A function that a program names is one that it defines, if its names are in order. -/
theorem exists_definition {table : ScopeTable} (h : analyze p = .ok table) {x : String}
    (hx : x ∈ p.functionNames) : ∃ d ∈ entered p.events, d.name = x := by
  obtain ⟨event, hevent, hname⟩ := List.mem_filterMap.mp hx
  cases event with
  | enter d =>
    cases hname
    exact ⟨d, mem_entered.mpr hevent, rfl⟩
  | call isGlobal name args =>
    cases hname
    obtain ⟨before, after, hsplit⟩ := List.append_of_mem hevent
    obtain ⟨a, scope, ha, hcallee, _⟩ := callee_eq h hsplit
    obtain ⟨b, _, hend⟩ := reflects_of_analyze h
    have hfirst := (reflects_of_foldlM ha).firstNamed?_of_callee? hend hsplit hcallee
    exact ⟨_, firstNamed?_eq_some hfirst⟩
  | _ => cases hname

/-- A definition of a program under other names is that of the program. -/
theorem mem_entered_rename {d' : Definition Node} (h : d' ∈ entered (p.rename ρ).events) :
    ∃ d ∈ entered p.events, Node.renameDefinition ρ d = d' := by
  rw [mem_entered, events_rename] at h
  obtain ⟨event, hevent, heq⟩ := List.mem_map.mp h
  cases event with
  | enter d =>
    cases heq
    exact ⟨d, mem_entered.mpr hevent, rfl⟩
  | _ => cases heq

/-- A program that passes the check under its own names or under other ones does not call the
    global scope. -/
theorem globalScopeName_notMem (hp : p.WellFormed) (hρ : ρ.FaithfulOn p)
    (h : (∃ t, analyze p = .ok t) ∨ ∃ t, analyze (p.rename ρ) = .ok t) :
    globalScopeName ∉ p.functionNames := by
  intro hglobal
  -- a name that is called is that of a definition, and no definition has this one
  obtain ⟨d, hd, hname⟩ : ∃ d ∈ entered p.events, d.name = globalScopeName := by
    rcases h with ⟨t, ht⟩ | ⟨t, ht⟩
    · exact exists_definition ht hglobal
    · -- the definition under the other name is one of the program, with the name that it had
      have hx : ρ.function globalScopeName ∈ (p.rename ρ).functionNames := by
        obtain ⟨event, hevent, hx⟩ := List.mem_filterMap.mp hglobal
        have hevent' : event.rename ρ ∈ (p.rename ρ).events := by
          rw [events_rename]
          exact List.mem_map_of_mem hevent
        exact mem_functionNames hevent' (by rw [Event.functionName?_rename, hx]; rfl)
      obtain ⟨d', hd', hname'⟩ := exists_definition ht hx
      obtain ⟨d, hd, rfl⟩ := mem_entered_rename hd'
      rw [Node.name_renameDefinition] at hname'
      exact ⟨d, hd, hρ.function (mem_functionNames (mem_entered.mp hd) rfl) hglobal hname'⟩
  exact (hp.definition_of_mem hd).1 hname

end Program

/-! ## Runs -/

@[simp] theorem FaultCause.rule?_rename {ρ : Renaming} (cause : FaultCause) :
    (cause.rename ρ).rule? = cause.rule? := by
  cases cause <;> rfl

/-- Whether a run of a program and a run of the program under other names go alike. -/
structure Outcome.Alike (ρ : Renaming) (p : Program) (t t' : ScopeTable) (o o' : Outcome) :
    Prop where
  /-- They print the same lines. -/
  output : o'.machine.output = o.machine.output
  /-- Both succeed, or none of them does. -/
  finished : o'.ending = .finished ↔ o.ending = .finished
  /-- Both need more fuel, or none of them does. -/
  outOfFuel : o'.ending = .outOfFuel ↔ o.ending = .outOfFuel
  /-- Both fail or none of them does, and they fail with the same rule at the same place. -/
  fault : (o'.fault?.map fun f => (f.cause.rule?, f.location)) =
    o.fault?.map fun f => (f.cause.rule?, f.location.map ρ.place)
  /-- The node that raises the one fault raises the other one under its other name.  There is
      such a node, unless a number has too many digits to be shown. -/
  node {f f' : Fault} : o.fault? = some f → o'.fault? = some f' → f.cause ≠ .numeralTooLong →
    ∃ node location, p.Contains node ∧ f.location = some location ∧
      node.Raises t o.machine f.cause location ∧
      (node.rename ρ).Raises t' o'.machine f'.cause (ρ.place location)

theorem Outcome.fault?_eq_some {o : Outcome} {f : Fault} :
    o.fault? = some f ↔ o.ending = .failed f := by
  rw [fault?]
  cases o.ending <;> simp

/-- A run goes like the run under other names. -/
theorem alike_run_rename {p : Program} {ρ : Renaming} {t : ScopeTable} (hp : p.WellFormed)
    (hρ : ρ.Faithful) (ht : analyze p = .ok t) (verbose : Bool) (fuel : Nat) :
    (run ⟨t, verbose⟩ fuel).Alike ρ p t (t.rename ρ) (run ⟨t.rename ρ, verbose⟩ fuel) := by
  have hrun : run ⟨t.rename ρ, verbose⟩ fuel = (run ⟨t, verbose⟩ fuel).rename ρ :=
    run_rename hρ ⟨t, verbose⟩ fuel
  rw [hrun]
  generalize hout : run ⟨t, verbose⟩ fuel = o
  obtain ⟨ending, m⟩ := o
  constructor
  · rfl
  · cases ending <;> simp [Outcome.rename, Ending.rename]
  · cases ending <;> simp [Outcome.rename, Ending.rename]
  · cases ending <;> simp [Outcome.rename, Ending.rename, Outcome.fault?, Fault.rename]
  · intro f f' hf hf' hcause
    rw [Outcome.fault?_eq_some] at hf hf'
    cases hf
    cases hf'
    cases explained_of_failed (hp.closed_evaluates ht) hout with
    | @raised node cause location hnode hraises =>
      exact ⟨node, location, hnode.1, rfl, hraises, hraises.rename hρ⟩
    | notLogged | notPrinted => exact absurd rfl hcause

/-- Names carry no meaning.  Let the functions of a program that was read from a text be given
    other names, different ones for different ones and none of them that of the global scope,
    and let its variables and parameters be given other names, different ones for different
    ones.  Then the program passes the check if and only if it did under the old names.  If so,
    it prints the same lines with all amounts of fuel, and it succeeds, needs more fuel or fails
    as under the old names, with the same rule at the corresponding node. -/
theorem names_immaterial {text file : String} {p : Program} {ρ : Renaming}
    (hparse : parse text file = .ok p) (hρ : ρ.FaithfulOn p) :
    ((∃ t', analyze (p.rename ρ) = .ok t') ↔ ∃ t, analyze p = .ok t) ∧
    ∀ t t' verbose fuel, analyze p = .ok t → analyze (p.rename ρ) = .ok t' →
      (run ⟨t, verbose⟩ fuel).Alike ρ p t t' (run ⟨t', verbose⟩ fuel) := by
  have hp := wellFormed_of_parse hparse
  -- the table of the renamed program is that under the changed renaming
  have hfaithful := Renaming.faithful_extend hρ
  have hrename := analyze_rename hfaithful p
  have hchecked {t : ScopeTable} (ht : analyze p = .ok t) :
      analyze (p.rename ρ) = .ok (t.rename (ρ.extend p)) := by
    rw [ht, p.rename_extend hp (Program.globalScopeName_notMem hp hρ (Or.inl ⟨t, ht⟩))] at hrename
    exact hrename
  constructor
  · constructor
    · rintro ⟨t', ht'⟩
      have hglobal := Program.globalScopeName_notMem hp hρ (Or.inr ⟨t', ht'⟩)
      rw [p.rename_extend hp hglobal, ht'] at hrename
      cases ht : analyze p with
      | ok t => exact ⟨t, rfl⟩
      | error e =>
        rw [ht] at hrename
        cases hrename
    · rintro ⟨t, ht⟩
      exact ⟨t.rename (ρ.extend p), hchecked ht⟩
  · intro t t' verbose fuel ht ht'
    have hglobal := Program.globalScopeName_notMem hp hρ (Or.inl ⟨t, ht⟩)
    rw [hchecked ht] at ht'
    cases ht'
    have halike := alike_run_rename hp hfaithful ht verbose fuel
    refine { halike with node := ?_ }
    -- on the nodes of the program, the two renamings do the same
    intro f f' hf hf' hcause
    obtain ⟨node, location, hnode, hlocation, hraises, hraises'⟩ := halike.node hf hf' hcause
    rw [p.rename_extend_node hp hglobal hnode] at hraises'
    exact ⟨node, location, hnode, hlocation, hraises, hraises'⟩

/-- A function that sets a variable of its own name. -/
def selfSetter : Definition Node :=
  let set (column : Nat) : Location := ⟨"", 3, column, "F <- \"hi\""⟩
  ⟨⟨"", 2, 1, "BEGIN F"⟩, false, "F", [],
    [.assign (set 1) false "F" (some (.vector (set 6) [.string (set 6) "hi"]))]⟩

/-- A program that prints what the function gives. -/
def namesake : Program :=
  let start : Location := ⟨"", 1, 1, "BEGIN P"⟩
  let call : Location := ⟨"", 5, 1, "F()"⟩
  ⟨start, "P", ⟨start, false, "P", [],
    [.function selfSetter, .output call (.call call false "F" [])]⟩⟩

theorem parse_namesake :
    parse "BEGIN P\nBEGIN F\nF <- \"hi\"\nEND\nF()\nEND" "" = .ok namesake := by cbv

/-- The scopes of the program. -/
def namesakeTable : ScopeTable where
  global := ⟨[], namesake.block, ["P"], []⟩
  functions := [("P", ⟨[], namesake.block, ["P", "F"], []⟩), ("F", ⟨[], selfSetter, ["F"], ["F"]⟩)]

/-- Calls all variables `X` and keeps everything else. -/
def renameVariables : Renaming := ⟨id, id, fun _ => "X"⟩

theorem names_immaterial_namesake : renameVariables.FaithfulOn namesake ∧
    (run ⟨namesakeTable, false⟩ 9).machine.output = #["hi"] ∧
    ∃ t, analyze (namesake.rename renameVariables) = .ok t ∧
      (run ⟨t, false⟩ 9).machine.output = #["hi"] := by
  have hnames : renameVariables.FaithfulOn namesake := by
    have hfunctions : namesake.functionNames = ["P", "F", "F"] := by rfl
    have hvars : namesake.varNames = ["F", "F"] := by rfl
    constructor
    · intro x _ y _ heq
      exact heq
    · -- there is only one variable
      intro x hx y hy _
      simp only [hvars, Set.mem_ofPred_eq, List.mem_cons, List.not_mem_nil, or_false,
        or_self] at hx hy
      rw [hx, hy]
    · rw [hfunctions]
      decide
  have hanalyze : analyze namesake = .ok namesakeTable := by rfl
  have houtput : (run ⟨namesakeTable, false⟩ 9).machine.output = #["hi"] := by rfl
  obtain ⟨hchecked, halike⟩ := names_immaterial parse_namesake hnames
  obtain ⟨t, ht⟩ := hchecked.mpr ⟨_, hanalyze⟩
  exact ⟨hnames, houtput, t, ht, (halike _ t false 9 hanalyze ht).output.trans houtput⟩

end VectorLang
