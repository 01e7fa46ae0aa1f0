import VectorLang.Scope.Analysis

/-!
# What the check of names has seen

At every place of the text that the check comes to, the table of scopes holds the functions
that were entered before: each name has the scope of the one function with that name.

* `reflects_of_foldlM`   the table at a place of the text
* `analyze_eq_ok`        a program that passes is checked up to its end
* `analyze_eq_error`     any other one up to the first place where something is wrong
-/

namespace VectorLang

/-! ## Tables -/

namespace Scope

/-- What a scope holds from its start to its end. -/
def header (s : Scope) : Definition Node × List String := (s.definition, s.params)

end Scope

namespace ScopeTable

variable {table : ScopeTable} {name : String}

/-- The global scope is the one that the name of the global scope has in the table. -/
theorem get?_global (table : ScopeTable) : table.get? globalScopeName = some table.global := by
  simp [get?, toList]

theorem get?_of_ne (h : name ≠ globalScopeName) :
    table.get? name = table.functions.lookup name := by
  have hb : (name == globalScopeName) = false := by simpa using h
  simp [get?, toList, List.lookup_cons, hb]

theorem get?_modifyGlobal (f : Scope → Scope) (h : name ≠ globalScopeName) :
    (table.modifyGlobal f).get? name = table.get? name := by
  rw [get?_of_ne h, get?_of_ne h, modifyGlobal]

theorem get?_modifyFunction (n : String) (f : Scope → Scope) (h : name ≠ globalScopeName) :
    (table.modifyFunction n f).get? name =
      if name = n then (table.get? name).map f else table.get? name := by
  rw [get?_of_ne h, get?_of_ne h, modifyFunction]
  induction table.functions with
  | nil => simp
  | cons entry entries ih =>
    obtain ⟨k, s⟩ := entry
    by_cases hk : k = n
    · by_cases hname : name = n
      · simp [hk, hname]
      · have hb : (name == n) = false := by simpa using hname
        simpa [List.lookup_cons, hk, hname, hb] using ih
    · by_cases hname : name = k
      · have hne : ¬ name = n := hname ▸ hk
        simp [hk, hname]
      · have hb : (name == k) = false := by simpa using hname
        simpa [List.lookup_cons, hk, hb] using ih

theorem get?_push (n : String) (s : Scope) (h : name ≠ globalScopeName) :
    (table.push n s).get? name = (table.get? name).or (if name = n then some s else none) := by
  rw [get?_of_ne h, get?_of_ne h, push, List.lookup_append]
  by_cases hname : name = n
  · simp [hname]
  · have hb : (name == n) = false := by simpa using hname
    simp [List.lookup_cons, hname, hb]

end ScopeTable

/-! ## Functions that were entered -/

/-- The definition that an event enters. -/
def Event.definition? : Event → Option (Definition Node)
  | .enter d => some d
  | _ => none

/-- The definitions that are entered in a row of events, in order. -/
def entered (events : List Event) : List (Definition Node) :=
  events.filterMap Event.definition?

theorem entered_append (events events' : List Event) :
    entered (events ++ events') = entered events ++ entered events' :=
  List.filterMap_append

theorem entered_concat (events : List Event) (event : Event) :
    entered (events ++ [event]) = entered events ++ event.definition?.toList := by
  rw [entered_append]
  cases event <;> rfl

theorem mem_entered {events : List Event} {d : Definition Node} :
    d ∈ entered events ↔ .enter d ∈ events := by
  rw [entered, List.mem_filterMap]
  constructor
  · rintro ⟨event, hevent, hd⟩
    cases event <;> cases hd
    exact hevent
  · intro h
    exact ⟨_, h, rfl⟩

/-- The first of some definitions that has a name. -/
def firstNamed? (ds : List (Definition Node)) (name : String) : Option (Definition Node) :=
  ds.find? (·.name == name)

theorem firstNamed?_append (ds ds' : List (Definition Node)) (name : String) :
    firstNamed? (ds ++ ds') name = (firstNamed? ds name).or (firstNamed? ds' name) :=
  List.find?_append

theorem firstNamed?_eq_none {ds : List (Definition Node)} {name : String} :
    firstNamed? ds name = none ↔ ∀ d ∈ ds, d.name ≠ name := by
  simp [firstNamed?]

theorem firstNamed?_eq_some {ds : List (Definition Node)} {name : String} {d : Definition Node}
    (h : firstNamed? ds name = some d) : d ∈ ds ∧ d.name = name :=
  ⟨List.mem_of_find?_eq_some h, by simpa using List.find?_some h⟩

/-- Among definitions with different names, the first one with a name is the only one. -/
theorem firstNamed?_of_mem {ds : List (Definition Node)} (hds : (ds.map Definition.name).Nodup)
    {d : Definition Node} (hd : d ∈ ds) : firstNamed? ds d.name = some d := by
  induction ds with
  | nil => cases hd
  | cons d' ds ih =>
    rw [List.map_cons, List.nodup_cons] at hds
    rw [firstNamed?, List.find?_cons]
    rcases List.mem_cons.mp hd with rfl | hd
    · simp
    · have hne : d'.name ≠ d.name := by
        intro heq
        exact hds.1 (heq ▸ List.mem_map_of_mem hd)
      have hb : (d'.name == d.name) = false := by simpa using hne
      rw [hb]
      exact ih hds.2 hd

/-! ## The state of the check -/

/-- The global names that the first pass finds in a program. -/
def Program.globals (p : Program) : GlobalNames := .ofEvents p.events

private theorem lookup_step (g : GlobalNames) (event : Event) (name : String) :
    (g.step event).functions.lookup name = (g.functions.lookup name).or
      (firstNamed? (event.definition?.toList.filter Definition.isGlobal) name) := by
  cases event with
  | enter d =>
    by_cases hglobal : d.isGlobal = true
    · cases hlookup : g.functions.lookup d.name with
      | none =>
        by_cases hname : name = d.name
        · simp [GlobalNames.step, Event.definition?, firstNamed?, hglobal, hlookup, hname,
            List.lookup_append]
        · have hb : (name == d.name) = false := by simpa using hname
          have hb' : (d.name == name) = false := by simpa using fun h => hname h.symm
          simp [GlobalNames.step, Event.definition?, firstNamed?, hglobal, hlookup, hb, hb',
            List.lookup_append, List.lookup_cons]
      | some d' =>
        by_cases hname : name = d.name
        · simp [GlobalNames.step, hglobal, hlookup, hname]
        · have hb : (d.name == name) = false := by simpa using fun h => hname h.symm
          simp [GlobalNames.step, Event.definition?, firstNamed?, hglobal, hlookup, hb]
    · simp [GlobalNames.step, Event.definition?, firstNamed?, hglobal]
  | target isGlobal _ hasValue =>
    cases isGlobal <;> cases hasValue <;>
      simp [GlobalNames.step, Event.definition?, firstNamed?]
  | _ => simp [GlobalNames.step, Event.definition?, firstNamed?]

/-- The global functions that the first pass finds are the first ones of their names. -/
theorem GlobalNames.lookup_ofEvents (events : List Event) (name : String) :
    (ofEvents events).functions.lookup name =
      firstNamed? ((entered events).filter Definition.isGlobal) name := by
  have hfold (g : GlobalNames) : (events.foldl step g).functions.lookup name =
      (g.functions.lookup name).or
        (firstNamed? ((entered events).filter Definition.isGlobal) name) := by
    induction events generalizing g with
    | nil => simp [entered, firstNamed?]
    | cons event events ih =>
      have hsplit : entered (event :: events) = event.definition?.toList ++ entered events := by
        rw [← List.singleton_append, entered_append]
        cases event <;> rfl
      rw [List.foldl_cons, ih, lookup_step, hsplit, List.filter_append, firstNamed?_append,
        Option.or_assoc]
  rw [ofEvents, hfold]
  rfl

/-- Whether the state of the check is that after the given events of a program. -/
structure Analysis.Reflects (p : Program) (before : List Event) (a : Analysis) : Prop where
  /-- The scopes are those of the functions that were entered. -/
  scopes {name : String} : name ≠ globalScopeName →
    (a.table.get? name).map Scope.header =
      (firstNamed? (entered before) name).map fun d => (d, d.params)
  global : a.table.global.header = (p.block, [])
  distinct : ((entered before).map Definition.name).Nodup
  reserved : ∀ d ∈ entered before, d.name ≠ globalScopeName
  /-- A function is known in the whole program if it was entered or found by the first pass. -/
  functions : ∀ name ∈ a.table.global.functions,
    (firstNamed? (entered before) name).isSome ∨ (p.globals.functions.lookup name).isSome

section

variable {events events' : List Event} {globals : GlobalNames} {a b : Analysis}

/-- A row of events passes the check if the first one does, and then the others. -/
theorem checks_cons {event : Event} :
    (event :: events).foldlM (Analysis.step globals) a = .ok b ↔
      ∃ c, a.step globals event = .ok c ∧ events.foldlM (Analysis.step globals) c = .ok b := by
  rw [List.foldlM_cons]
  cases a.step globals event with
  | error e => simp [bind, Except.bind]
  | ok c => simp [bind, Except.bind]

/-- A row of events passes the check if its first part does, and then the other one. -/
theorem checks_append :
    (events ++ events').foldlM (Analysis.step globals) a = .ok b ↔
      ∃ c, events.foldlM (Analysis.step globals) a = .ok c ∧
        events'.foldlM (Analysis.step globals) c = .ok b := by
  rw [List.foldlM_append]
  cases events.foldlM (Analysis.step globals) a with
  | error e => simp [bind, Except.bind]
  | ok c => simp [bind, Except.bind]

/-- A row of events fails the check where the first one of them does. -/
theorem checks_eq_error {error : SemanticError} :
    events.foldlM (Analysis.step globals) a = .error error ↔
      ∃ before event after b, events = before ++ event :: after ∧
        before.foldlM (Analysis.step globals) a = .ok b ∧ b.step globals event = .error error := by
  induction events generalizing a with
  | nil => simp [pure, Except.pure]
  | cons event events ih =>
    constructor
    · intro herror
      rw [List.foldlM_cons] at herror
      cases hstep : a.step globals event with
      | error e =>
        rw [hstep] at herror
        cases herror
        exact ⟨[], event, events, a, rfl, rfl, hstep⟩
      | ok c =>
        rw [hstep] at herror
        obtain ⟨before, event', after, b, rfl, hbefore, herror⟩ := ih.mp herror
        exact ⟨event :: before, event', after, b, rfl, checks_cons.mpr ⟨c, hstep, hbefore⟩, herror⟩
    · rintro ⟨before, event', after, b, hsplit, hbefore, herror⟩
      rw [List.foldlM_cons]
      cases before with
      | nil =>
        obtain ⟨rfl, rfl⟩ := List.cons.inj hsplit
        cases hbefore
        rw [herror]
        rfl
      | cons first before =>
        obtain ⟨rfl, rfl⟩ := List.cons.inj hsplit
        obtain ⟨c, hstep, hbefore⟩ := checks_cons.mp hbefore
        rw [hstep]
        exact ih.mpr ⟨before, event', after, b, rfl, hbefore, herror⟩

end

namespace Analysis

variable {p : Program} {before : List Event} {a a' : Analysis}

/-- A call that passes the check has as many arguments as the function that it is checked
    against has parameters. -/
theorem call_eq_ok {globals : GlobalNames} {isGlobal : Bool} {name : String} {args : Nat} :
    a.call globals isGlobal name args = .ok a' ↔
      ∃ d, a.callee? globals isGlobal name = some d ∧ d.params.length = args ∧ a = a' := by
  rw [call]
  cases a.callee? globals isGlobal name with
  | none => simp
  | some d => by_cases hargs : d.params.length = args <;> simp [hargs]

/-- One scope is changed, and no more than that. -/
theorem modifyScope_cases (isGlobal : Bool) (f : Scope → Scope) (a : Analysis) :
    (a.modifyScope isGlobal f).table = a.table.modifyGlobal f ∨
      ∃ name, (a.modifyScope isGlobal f).table = a.table.modifyFunction name f := by
  unfold modifyScope
  split
  · exact Or.inr ⟨_, rfl⟩
  · exact Or.inl rfl

section

variable {α : Type} (part : Scope → α) {f : Scope → Scope}

/-- The parts of scopes that a change to one scope does not concern. -/
theorem map_get?_modifyScope (hf : ∀ s, part (f s) = part s) (isGlobal : Bool) (a : Analysis)
    {name : String} (hname : name ≠ globalScopeName) :
    ((a.modifyScope isGlobal f).table.get? name).map part = (a.table.get? name).map part := by
  rcases modifyScope_cases isGlobal f a with htable | ⟨n, htable⟩
  · rw [htable, ScopeTable.get?_modifyGlobal f hname]
  · rw [htable, ScopeTable.get?_modifyFunction n f hname]
    split
    · cases a.table.get? name <;> simp [hf]
    · rfl

theorem global_modifyScope (hf : ∀ s, part (f s) = part s) (isGlobal : Bool) (a : Analysis) :
    part (a.modifyScope isGlobal f).table.global = part a.table.global := by
  rcases modifyScope_cases isGlobal f a with htable | ⟨n, htable⟩
  · rw [htable]
    exact hf _
  · rw [htable]
    rfl

theorem functions_modifyScope {isGlobal : Bool} {name : String}
    (h : name ∈ (a.modifyScope isGlobal f).table.global.functions) :
    name ∈ a.table.global.functions ∨ name ∈ (f a.table.global).functions := by
  rcases modifyScope_cases isGlobal f a with htable | ⟨n, htable⟩
  · rw [htable] at h
    exact Or.inr h
  · rw [htable] at h
    exact Or.inl h

end

namespace Reflects

/-- A change to the variables of one scope. -/
theorem modifyScope (h : a.Reflects p before) (isGlobal : Bool) (f : Scope → Scope)
    (hheader : ∀ s, (f s).header = s.header) (hfunctions : ∀ s, (f s).functions = s.functions) :
    (a.modifyScope isGlobal f).Reflects p before where
  scopes hname :=
    (map_get?_modifyScope Scope.header hheader isGlobal a hname).trans (h.scopes hname)
  global := (global_modifyScope Scope.header hheader isGlobal a).trans h.global
  distinct := h.distinct
  reserved := h.reserved
  functions name hname := by
    rcases functions_modifyScope hname with hold | hnew
    · exact h.functions name hold
    · rw [hfunctions] at hnew
      exact h.functions name hnew

/-- Nothing but the table and what was entered matters. -/
theorem congr (h : a.Reflects p before) {before' : List Event} (htable : a'.table = a.table)
    (hentered : entered before' = entered before) : a'.Reflects p before' where
  scopes hname := by rw [htable, hentered, h.scopes hname]
  global := by rw [htable, h.global]
  distinct := hentered ▸ h.distinct
  reserved := hentered ▸ h.reserved
  functions := by
    rw [htable, hentered]
    exact h.functions

/-- The scope of a name is that of the function that was entered with it. -/
theorem definition_eq (h : a.Reflects p before) {name : String} (hname : name ≠ globalScopeName)
    {scope : Scope} (hscope : a.table.get? name = some scope) :
    firstNamed? (entered before) name = some scope.definition ∧
      scope.params = scope.definition.params := by
  have hheader := h.scopes hname
  rw [hscope, Option.map_some, eq_comm, Option.map_eq_some_iff] at hheader
  obtain ⟨d, hd, heq⟩ := hheader
  obtain ⟨rfl, hparams⟩ := Prod.mk.inj heq
  exact ⟨hd, hparams.symm⟩

/-- A function that was entered has a scope. -/
theorem exists_scope (h : a.Reflects p before) {name : String} {d : Definition Node}
    (hd : firstNamed? (entered before) name = some d) :
    ∃ scope, a.table.get? name = some scope ∧ scope.definition = d ∧ scope.params = d.params := by
  obtain ⟨hmem, rfl⟩ := firstNamed?_eq_some hd
  have hheader := h.scopes (h.reserved d hmem)
  rw [hd, Option.map_some, Option.map_eq_some_iff] at hheader
  obtain ⟨scope, hscope, heq⟩ := hheader
  obtain ⟨hdefinition, hparams⟩ := Prod.mk.inj heq
  exact ⟨scope, hscope, hdefinition, hparams⟩

/-- A name has a scope if it is that of the global scope or of a function. -/
theorem contains_iff (h : a.Reflects p before) {name : String} :
    a.table.contains name = true ↔
      name = globalScopeName ∨ (firstNamed? (entered before) name).isSome := by
  by_cases hname : name = globalScopeName
  · simp [ScopeTable.contains, hname, ScopeTable.get?_global]
  · have hscopes := congrArg Option.isSome (h.scopes hname)
    rw [Option.isSome_map, Option.isSome_map] at hscopes
    simp [ScopeTable.contains, hscopes, hname]

/-- The function that is entered is the only one of its name so far. -/
theorem enter (h : a.Reflects p before) {d : Definition Node} (hok : a.enter d = .ok a') :
    a'.Reflects p (before ++ [.enter d]) := by
  have hentered : entered (before ++ [.enter d]) = entered before ++ [d] := entered_concat ..
  rw [Analysis.enter] at hok
  split at hok
  · cases hok
  · rename_i hnew
    cases hok
    rw [h.contains_iff] at hnew
    obtain ⟨hreserved, hfresh⟩ := not_or.mp hnew
    rw [Bool.not_eq_true, Option.isSome_eq_false_iff, Option.isNone_iff_eq_none] at hfresh
    have hheader : ∀ s : Scope, (s.addFunction d.name).header = s.header := fun _ => rfl
    constructor
    · intro name hname
      rw [ScopeTable.get?_push _ _ hname, hentered, firstNamed?_append, Option.map_or,
        Option.map_or, map_get?_modifyScope Scope.header hheader d.isGlobal a hname,
        h.scopes hname]
      by_cases hd : name = d.name
      · subst hd
        simp [firstNamed?, Scope.header, Scope.ofDefinition]
      · have hb : (d.name == name) = false := by simpa using fun heq => hd heq.symm
        simp [firstNamed?, hd, hb]
    · exact (global_modifyScope Scope.header hheader d.isGlobal a).trans h.global
    · rw [hentered, List.map_append, List.nodup_append]
      refine ⟨h.distinct, by simp, ?_⟩
      intro x hx y hy heq
      obtain ⟨d', hd', rfl⟩ := List.mem_map.mp hx
      obtain rfl := List.mem_singleton.mp hy
      exact firstNamed?_eq_none.mp hfresh d' hd' heq
    · intro d' hd'
      rw [hentered, List.mem_append, List.mem_singleton] at hd'
      rcases hd' with hd' | rfl
      · exact h.reserved d' hd'
      · exact hreserved
    · intro name hname
      rw [hentered, firstNamed?_append, Option.isSome_or, Bool.or_eq_true]
      have hold : name ∈ a.table.global.functions → _ := h.functions name
      rcases functions_modifyScope hname with hmem | hmem
      · rcases hold hmem with hbefore | hglobal
        · exact Or.inl (Or.inl hbefore)
        · exact Or.inr hglobal
      · rcases mem_addName.mp hmem with rfl | hmem
        · exact Or.inl (Or.inr (by simp [firstNamed?]))
        · rcases hold hmem with hbefore | hglobal
          · exact Or.inl (Or.inl hbefore)
          · exact Or.inr hglobal

/-- The check of an event adds what the event does. -/
theorem step (h : a.Reflects p before) {event : Event} (hok : a.step p.globals event = .ok a') :
    a'.Reflects p (before ++ [event]) := by
  have hsame (hevent : event.definition? = none) :
      entered (before ++ [event]) = entered before := by
    rw [entered_concat, hevent, Option.toList_none, List.append_nil]
  cases event with
  | enter d => exact h.enter hok
  | leave =>
    cases hok
    exact h.congr rfl (hsame rfl)
  | target isGlobal name hasValue =>
    rw [Analysis.step, Analysis.target] at hok
    split at hok
    · cases hok
    · split at hok
      · cases hok
        exact h.congr rfl (hsame rfl)
      · cases hok
        exact (h.modifyScope isGlobal (Scope.removeVariable name) (fun _ => rfl)
          fun _ => rfl).congr rfl (hsame rfl)
  | assigned isGlobal name =>
    cases hok
    exact (h.modifyScope isGlobal (Scope.addVariable name) (fun _ => rfl)
      fun _ => rfl).congr rfl (hsame rfl)
  | read name =>
    rw [Analysis.step, Analysis.read] at hok
    split at hok
    · cases hok
      exact h.congr rfl (hsame rfl)
    · cases hok
  | call isGlobal name args =>
    rw [Analysis.step, Analysis.call] at hok
    split at hok
    · cases hok
    · split at hok
      · cases hok
        exact h.congr rfl (hsame rfl)
      · cases hok

/-- The check of a row of events adds what they do. -/
theorem foldlM (h : a.Reflects p before) {events : List Event}
    (hok : events.foldlM (Analysis.step p.globals) a = .ok a') :
    a'.Reflects p (before ++ events) := by
  induction events generalizing before a with
  | nil =>
    cases hok
    rwa [List.append_nil]
  | cons event events ih =>
    obtain ⟨b, hstep, hok⟩ := checks_cons.mp hok
    have hrest := ih (h.step hstep) hok
    rwa [List.append_assoc] at hrest

end Reflects

/-- Before the first event, nothing but the global names is known. -/
theorem reflects_start (p : Program) : (start p p.globals).Reflects p [] where
  scopes hname := by
    rw [ScopeTable.get?_of_ne hname]
    rfl
  global := rfl
  distinct := List.nodup_nil
  reserved _ hd := absurd hd List.not_mem_nil
  functions name hname := by
    obtain ⟨entry, hentry, rfl⟩ := List.mem_map.mp hname
    exact Or.inr (List.lookup_isSome_iff.mpr ⟨entry, hentry, beq_self_eq_true _⟩)

end Analysis

/-- The state of the check at a place of the text. -/
theorem reflects_of_foldlM {p : Program} {before : List Event} {a : Analysis}
    (h : before.foldlM (Analysis.step p.globals) (.start p p.globals) = .ok a) :
    a.Reflects p before := by
  simpa using (Analysis.reflects_start p).foldlM h

theorem analyze_eq (p : Program) : analyze p =
    (p.events.foldlM (Analysis.step p.globals) (.start p p.globals)).map Analysis.table := rfl

/-- A program whose names are in order is checked up to its end. -/
theorem analyze_eq_ok {p : Program} {table : ScopeTable} :
    analyze p = .ok table ↔
      ∃ a, p.events.foldlM (Analysis.step p.globals) (.start p p.globals) = .ok a ∧
        a.table = table := by
  rw [analyze_eq]
  cases p.events.foldlM (Analysis.step p.globals) (.start p p.globals) with
  | error e => simp [Except.map]
  | ok a => simp [Except.map]

/-- Any other program is checked up to the first place where something is wrong. -/
theorem analyze_eq_error {p : Program} {error : SemanticError} :
    analyze p = .error error ↔
      ∃ before event after a, p.events = before ++ event :: after ∧
        before.foldlM (Analysis.step p.globals) (.start p p.globals) = .ok a ∧
        a.step p.globals event = .error error := by
  rw [← checks_eq_error, analyze_eq]
  cases p.events.foldlM (Analysis.step p.globals) (.start p p.globals) with
  | error e => simp [Except.map]
  | ok a => simp [Except.map]

end VectorLang
