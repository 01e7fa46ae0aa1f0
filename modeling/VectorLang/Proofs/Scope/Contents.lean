import Mathlib
import VectorLang.Proofs.Scope.Place

/-!
# What the table of scopes holds

The table that the check of names gives has one scope for every function, in the order of the
text.  The scope of a function knows what is defined in the body of that function and what its
body writes last, and the global scope what has a global name anywhere in the program.

* `Program.WellFormed.declares_iff`   the functions that are entered in a body stand in it
* `Analysis.step_cases`               what the check of one event does to the table
* `Analysis.Lists.step`               what the table lists after one more event
* `Analysis.get?_foldlM_of_closed`    a scope does not change after the end of its function
* `table_exact`                       the table of a program
-/

namespace VectorLang

/-! ## Functions in functions -/

/-- Whether a function is entered directly in the body of another one in a row of events. -/
def Declares (events : List Event) (d f : Definition Node) : Prop :=
  ∃ before after own rest, events = before ++ .enter f :: after ∧
    openBodies before = (d, own) :: rest

theorem declares_concat {events : List Event} {event : Event} {d f : Definition Node} :
    Declares (events ++ [event]) d f ↔ Declares events d f ∨
      event = .enter f ∧ ∃ own rest, openBodies events = (d, own) :: rest := by
  constructor
  · rintro ⟨before, after, own, rest, hsplit, hopen⟩
    rcases List.eq_nil_or_concat after with rfl | ⟨after, last, rfl⟩
    · obtain ⟨rfl, hlast⟩ := List.append_inj' hsplit rfl
      exact Or.inr ⟨List.singleton_inj.mp hlast, own, rest, hopen⟩
    · rw [List.concat_eq_append, ← List.cons_append, ← List.append_assoc] at hsplit
      exact Or.inl ⟨before, after, own, rest, (List.append_inj' hsplit rfl).1, hopen⟩
  · rintro (⟨before, after, own, rest, rfl, hopen⟩ | ⟨rfl, own, rest, hopen⟩)
    · exact ⟨before, after ++ [event], own, rest, by simp, hopen⟩
    · exact ⟨events, [], own, rest, rfl, hopen⟩

/-- An event of a row of nodes is one of a node of the row. -/
private theorem exists_node_of_event {nodes : List Node} {event : Event}
    {before after : List Event} (h : nodes.flatMap Node.events = before ++ event :: after) :
    ∃ l n r own own', nodes = l ++ n :: r ∧ n.events = own ++ event :: own' ∧
      before = l.flatMap Node.events ++ own := by
  induction nodes generalizing before with
  | nil => simp at h
  | cons m nodes ih =>
    rw [List.flatMap_cons, List.append_eq_append_iff] at h
    have hrest {w : List Event} (hw : nodes.flatMap Node.events = w ++ event :: after)
        (hbefore : before = m.events ++ w) : ∃ l n r own own', m :: nodes = l ++ n :: r ∧
          n.events = own ++ event :: own' ∧ before = l.flatMap Node.events ++ own := by
      obtain ⟨l, n, r, own, own', rfl, hn, rfl⟩ := ih hw
      exact ⟨m :: l, n, r, own, own', rfl, hn, by simp [hbefore]⟩
    rcases h with ⟨w, hbefore, hw⟩ | ⟨w, hm, hw⟩
    · exact hrest hw hbefore
    · cases w with
      | nil => exact hrest (w := []) hw.symm (by simpa using hm.symm)
      | cons _ w =>
        obtain ⟨rfl, -⟩ := List.cons.inj hw
        exact ⟨[], m, nodes, before, w, rfl, hm, rfl⟩

/-- Where a function is entered in a body, it is entered in one of its nodes. -/
private theorem exists_node_of_enter {nodes : List Node} {f : Definition Node}
    {before after : List Event}
    (h : nodes.flatMap Node.events ++ [.leave] = before ++ .enter f :: after) :
    ∃ l n r own own', nodes = l ++ n :: r ∧ n.events = own ++ .enter f :: own' ∧
      before = l.flatMap Node.events ++ own := by
  rcases List.append_eq_append_iff.mp h with ⟨w, -, hw⟩ | ⟨w, hw, hlast⟩
  · -- the last event enters nothing
    cases w with
    | nil => cases hw
    | cons _ w => simp at hw
  · cases w with
    | nil => cases hlast
    | cons _ w =>
      cases hlast
      exact exists_node_of_event hw

/-- Whether the innermost of some open functions has a function in its body. -/
def Encloses (bodies : List (Definition Node × List Event)) (f : Definition Node) : Prop :=
  ∃ g own rest, bodies = (g, own) :: rest ∧ .function f ∈ g.body

/-- Where a function is entered in the body of another one, it stands in the body of the innermost
    function. -/
private theorem encloses_of_block {g f : Definition Node} {before after : List Event}
    (hbody : ∀ n ∈ g.body, n.IsRegular)
    (hnode : ∀ n ∈ g.body, ∀ {own own' : List Event}, n.events = own ++ .enter f :: own' →
      ∀ bodies, own = [] ∧ n = .function f ∨ Encloses (own.foldl openStep bodies) f)
    (h : g.body.flatMap Node.events ++ [.leave] = before ++ .enter f :: after)
    (bodies : List (Definition Node × List Event)) :
    Encloses (before.foldl openStep ((g, []) :: bodies)) f := by
  obtain ⟨l, n, r, own, own', hsplit, hown, rfl⟩ := exists_node_of_enter h
  have hn : n ∈ g.body := by simp [hsplit]
  have hl : ∀ m ∈ l, m.IsRegular := fun m hm => hbody m (by simp [hsplit, hm])
  rw [List.foldl_append, foldl_openStep hl]
  rcases hnode n hn hown _ with ⟨rfl, rfl⟩ | henclosed
  · exact ⟨g, _, bodies, rfl, hn⟩
  · exact henclosed

/-- Where a function is entered in a node, it is that node or stands in the body of the innermost
    function. -/
theorem Node.IsRegular.encloses {n : Node} (h : n.IsRegular) {f : Definition Node}
    {before after : List Event} (hsplit : n.events = before ++ .enter f :: after)
    (bodies : List (Definition Node × List Event)) :
    before = [] ∧ n = .function f ∨ Encloses (before.foldl openStep bodies) f := by
  induction n using children_induction generalizing before after bodies with
  | h n ih =>
    cases hfunction : n.isFunction with
    | false =>
      have hinner : Event.IsInner (.enter f) :=
        h.isInner hfunction _ (hsplit ▸ List.mem_append_right _ List.mem_cons_self)
      cases hinner
    | true =>
      cases n with
      | function g =>
        cases before with
        | nil =>
          cases (List.cons.inj hsplit).1
          exact Or.inl ⟨rfl, rfl⟩
        | cons event before =>
          rw [events_eq] at hsplit
          obtain ⟨rfl, hrest⟩ := List.cons.inj hsplit
          exact Or.inr (encloses_of_block (fun c hc => h.child hc)
            (fun c hc _ _ hown bodies => ih c hc (h.child hc) hown bodies) hrest bodies)
      | _ => cases hfunction

/-- The functions that are entered directly in the body of a function are those that stand in
    it. -/
theorem Program.WellFormed.declares_iff {p : Program} (hp : p.WellFormed) {d f : Definition Node}
    (hd : d ∈ entered p.events) : Declares p.events d f ↔ .function f ∈ d.body := by
  constructor
  · rintro ⟨before, after, own, rest, hsplit, hopen⟩
    cases before with
    | nil => cases hopen
    | cons event before =>
      rw [p.events_eq] at hsplit
      obtain ⟨rfl, hrest⟩ := List.cons.inj hsplit
      obtain ⟨g, own', rest', hbodies, hf⟩ :=
        encloses_of_block (fun n hn => hp.isRegular_of_mem hn)
          (fun n hn _ _ hown bodies => (hp.isRegular_of_mem hn).encloses hown bodies) hrest []
      cases hopen.symm.trans hbodies
      exact hf
  · intro hf
    obtain ⟨before, after, hsplit⟩ := exists_split_of_entered hd
    obtain ⟨l, r, hbody⟩ := List.append_of_mem hf
    refine ⟨before ++ .enter d :: l.flatMap Node.events,
      f.body.flatMap Node.events ++ .leave :: (r.flatMap Node.events ++ .leave :: after),
      ownEvents l, openBodies before, ?_, hp.openBodies_place hd hbody before⟩
    rw [hsplit, hbody, List.flatMap_append, List.flatMap_cons, Node.events_eq (.function f)]
    simp [Node.opening, Node.closing, Node.children]

/-! ## Steps of the check -/

/-- Whether the names in a scope do not repeat. -/
structure Scope.IsProper (s : Scope) : Prop where
  functions : s.functions.Nodup
  vars : s.vars.Nodup

private theorem nodup_addName {name : String} {names : List String} (h : names.Nodup) :
    (addName name names).Nodup := by
  unfold addName
  split
  · exact h
  · rename_i hnew
    have hnew : name ∉ names := by simpa using hnew
    exact List.nodup_append_comm.mp (List.nodup_cons.mpr ⟨hnew, h⟩)

theorem Scope.IsProper.addFunction {s : Scope} (h : s.IsProper) (name : String) :
    (s.addFunction name).IsProper where
  functions := nodup_addName h.functions
  vars := h.vars

theorem Scope.IsProper.write {s : Scope} (h : s.IsProper) (name : String) (value : Bool) :
    (s.write name value).IsProper := by
  cases value with
  | true => exact ⟨h.functions, nodup_addName h.vars⟩
  | false => exact ⟨h.functions, h.vars.filter _⟩

namespace ScopeTable

variable {table : ScopeTable}

/-- The names of the functions with a scope, in order. -/
def names (table : ScopeTable) : List String := table.functions.map Prod.fst

/-- Whether no scope has a name twice. -/
def IsProper (table : ScopeTable) : Prop := ∀ entry ∈ table.toList, entry.2.IsProper

end ScopeTable

namespace Analysis

variable {globals : GlobalNames} {a a' : Analysis} {event : Event} {name : String}

theorem path_modifyScope_subset (isGlobal : Bool) (f : Scope → Scope) (a : Analysis) :
    (a.modifyScope isGlobal f).path ⊆ a.path := by
  rw [path_modifyScope]
  exact List.Subset.refl _

/-- The check of an event enters a function, or it changes the variables of one scope at most. -/
theorem step_cases (h : a.step globals event = .ok a') :
    (∃ d, event = .enter d ∧ a.table.contains d.name = false ∧ a'.path = d.name :: a.path ∧
      a'.table = (a.modifyScope d.isGlobal (Scope.addFunction d.name)).table.push d.name
        (.ofDefinition d)) ∨
    event.definition? = none ∧ a'.path ⊆ a.path ∧
      (a'.table = a.table ∨ ∃ isGlobal n value,
        a'.table = (a.modifyScope isGlobal (Scope.write n value)).table) := by
  cases event with
  | enter d =>
    rw [step, enter] at h
    split at h
    · cases h
    · rename_i hnew
      cases h
      exact Or.inl ⟨d, rfl, by simpa using hnew, congrArg _ (path_modifyScope ..), rfl⟩
  | leave =>
    cases h
    exact Or.inr ⟨rfl, List.tail_subset _, Or.inl rfl⟩
  | target isGlobal n hasValue =>
    rw [step, target] at h
    split at h
    · cases h
    · split at h
      · cases h
        exact Or.inr ⟨rfl, List.Subset.refl _, Or.inl rfl⟩
      · cases h
        exact Or.inr ⟨rfl, path_modifyScope_subset .., Or.inr ⟨isGlobal, n, false, rfl⟩⟩
  | assigned isGlobal n =>
    cases h
    exact Or.inr ⟨rfl, path_modifyScope_subset .., Or.inr ⟨isGlobal, n, true, rfl⟩⟩
  | read n =>
    rw [step, read] at h
    split at h
    · cases h
      exact Or.inr ⟨rfl, List.Subset.refl _, Or.inl rfl⟩
    · cases h
  | call isGlobal n args =>
    obtain ⟨_, _, _, rfl⟩ := call_eq_ok.mp h
    exact Or.inr ⟨rfl, List.Subset.refl _, Or.inl rfl⟩

/-! ## Functions that were left -/

/-- A change at a place is to the global scope or to that of the innermost function. -/
theorem get?_modifyScope_of_notMem (isGlobal : Bool) (f : Scope → Scope)
    (hname : name ≠ globalScopeName) (hpath : name ∉ a.path) :
    (a.modifyScope isGlobal f).table.get? name = a.table.get? name := by
  unfold modifyScope
  split
  · rename_i n path heq
    have hne : name ≠ n := fun hn => hpath (by simp [heq, hn])
    rw [ScopeTable.get?_modifyFunction n f hname, if_neg hne]
  · exact ScopeTable.get?_modifyGlobal f hname

/-- The check of an event keeps the scope of a function that is not open, and does not open it
    again. -/
theorem get?_step_of_closed {s : Scope} (hname : name ≠ globalScopeName)
    (hscope : a.table.get? name = some s) (hpath : name ∉ a.path)
    (h : a.step globals event = .ok a') : a'.table.get? name = some s ∧ name ∉ a'.path := by
  rcases step_cases h with ⟨d, -, hnew, hpath', htable⟩ | ⟨-, hpath', htable⟩
  · have hne : name ≠ d.name := by
      rintro rfl
      simp [ScopeTable.contains, hscope] at hnew
    rw [htable, ScopeTable.get?_push _ _ hname, get?_modifyScope_of_notMem _ _ hname hpath, hscope,
      hpath']
    exact ⟨rfl, by simp [hne, hpath]⟩
  · refine ⟨?_, fun hmem => hpath (hpath' hmem)⟩
    rcases htable with htable | ⟨isGlobal, n, value, htable⟩
    · rw [htable, hscope]
    · rw [htable, get?_modifyScope_of_notMem _ _ hname hpath, hscope]

/-- The scope of a function that was left stays as it is. -/
theorem get?_foldlM_of_closed {s : Scope} {events : List Event} (hname : name ≠ globalScopeName)
    (hscope : a.table.get? name = some s) (hpath : name ∉ a.path)
    (h : events.foldlM (step globals) a = .ok a') : a'.table.get? name = some s := by
  induction events generalizing a with
  | nil =>
    cases h
    exact hscope
  | cons event events ih =>
    obtain ⟨b, hstep, hrest⟩ := checks_cons.mp h
    obtain ⟨hscope, hpath⟩ := get?_step_of_closed hname hscope hpath hstep
    exact ih hscope hpath hrest

/-! ## What the table lists -/

variable {p : Program} {before after : List Event}

/-- Whether the scopes after a row of events list the functions that were entered, in order, and
    each of them those that were entered in its body. -/
structure Lists (p : Program) (before : List Event) (a : Analysis) : Prop where
  names : a.table.names = (entered before).map Definition.name
  proper : a.table.IsProper
  functions {d : Definition Node} : d ∈ entered before →
    ∃ functions, (a.table.get? d.name).map Scope.functions = some functions ∧
      ∀ name, name ∈ functions ↔ name = d.name ∨
        ∃ f, Declares before d f ∧ f.isGlobal = false ∧ f.name = name
  globals {name : String} : name ∈ a.table.global.functions ↔
    (before ≠ [] ∧ name = p.block.name) ∨
      ∃ f ∈ entered p.events, f.isGlobal = true ∧ f.name = name

theorem names_modifyScope (isGlobal : Bool) (f : Scope → Scope) (a : Analysis) :
    (a.modifyScope isGlobal f).table.names = a.table.names := by
  rcases modifyScope_cases isGlobal f a with htable | ⟨n, htable⟩
  · rw [htable]
    rfl
  · rw [htable, ScopeTable.names, ScopeTable.modifyFunction, List.map_map]
    refine List.map_congr_left ?_
    rintro ⟨k, s⟩ -
    show Prod.fst (if k = n then _ else _) = k
    split <;> rfl

theorem isProper_modifyScope {f : Scope → Scope} (hf : ∀ s : Scope, s.IsProper → (f s).IsProper)
    (isGlobal : Bool) (h : a.table.IsProper) : (a.modifyScope isGlobal f).table.IsProper := by
  obtain ⟨hglobal, hfunctions⟩ := List.forall_mem_cons.mp h
  rcases modifyScope_cases isGlobal f a with htable | ⟨n, htable⟩
  · rw [htable]
    exact List.forall_mem_cons.mpr ⟨hf _ hglobal, hfunctions⟩
  · rw [htable]
    refine List.forall_mem_cons.mpr ⟨hglobal, ?_⟩
    intro entry hentry
    obtain ⟨⟨k, s⟩, hold, rfl⟩ := List.mem_map.mp hentry
    show Scope.IsProper (Prod.snd (if k = n then _ else _))
    split
    · exact hf _ (hfunctions _ hold)
    · exact hfunctions _ hold

namespace Lists

/-- An event that enters no function lists nothing new. -/
theorem quiet (h : a.Lists p before) (hdefinition : event.definition? = none)
    (hbefore : before ≠ [])
    (hnames : a'.table.names = a.table.names) (hproper : a'.table.IsProper)
    (hfunctions : ∀ {name}, name ≠ globalScopeName →
      (a'.table.get? name).map Scope.functions = (a.table.get? name).map Scope.functions)
    (hglobals : a'.table.global.functions = a.table.global.functions)
    (hreserved : ∀ d ∈ entered before, d.name ≠ globalScopeName) :
    a'.Lists p (before ++ [event]) := by
  have hentered : entered (before ++ [event]) = entered before := by
    simp [entered_concat, hdefinition]
  constructor
  · rw [hnames, hentered, h.names]
  · exact hproper
  · intro d hd
    rw [hentered] at hd
    obtain ⟨functions, hscope, hmem⟩ := h.functions hd
    refine ⟨functions, (hfunctions (hreserved d hd)).trans hscope, ?_⟩
    intro name
    have hdeclares {f : Definition Node} :
        Declares (before ++ [event]) d f ↔ Declares before d f := by
      rw [declares_concat, or_iff_left]
      rintro ⟨rfl, -⟩
      cases hdefinition
    simp only [hmem, hdeclares]
  · intro name
    simp only [hglobals, h.globals, hbefore, ne_eq, List.append_eq_nil_iff, false_and,
      not_false_eq_true]

/-- The functions that the scope of an earlier function lists after one more function. -/
theorem functions_enter (h : a.Lists p before) (hagrees : a.Agrees p before)
    {d g e : Definition Node} {own : List Event} {rest : List (Definition Node × List Event)}
    (hopen : openBodies before = (e, own) :: rest) (hg : g ∈ entered before) :
    ∃ functions, ((a.modifyScope d.isGlobal (Scope.addFunction d.name)).table.get? g.name).map
        Scope.functions = some functions ∧
      ∀ name, name ∈ functions ↔ name = g.name ∨
        ∃ f, Declares (before ++ [.enter d]) g f ∧ f.isGlobal = false ∧ f.name = name := by
  have hreserved := hagrees.reserved g hg
  obtain ⟨functions, hscope, hmem⟩ := h.functions hg
  have hdeclares (f : Definition Node) : Declares (before ++ [.enter d]) g f ↔
      Declares before g f ∨ d = f ∧ e = g := by
    rw [declares_concat, hopen]
    simp
  cases hglobal : d.isGlobal with
  | true =>
    refine ⟨functions, by rw [modifyScope_true, ScopeTable.get?_modifyGlobal _ hreserved, hscope],
      ?_⟩
    intro name
    rw [hmem]
    refine or_congr_right (exists_congr fun f => and_congr_left fun hf => ?_)
    rw [hdeclares, or_iff_left]
    rintro ⟨rfl, -⟩
    cases hglobal.symm.trans hf.1
  | false =>
    obtain ⟨scope, hget, rfl⟩ := Option.map_eq_some_iff.mp hscope
    rw [modifyScope_false (hagrees.path_eq hopen), ScopeTable.get?_modifyFunction _ _ hreserved,
      hget]
    by_cases hname : g.name = e.name
    · -- among the functions that were entered, the name is that of the innermost one only
      have he : firstNamed? (entered before) e.name = some e :=
        hagrees.firstNamed?_of_open (hopen ▸ List.mem_cons_self)
      have hge : g = e := by
        rw [← hname, firstNamed?_of_mem hagrees.distinct hg] at he
        exact Option.some.inj he
      subst hge
      refine ⟨(scope.addFunction d.name).functions, by simp, ?_⟩
      intro name
      rw [Scope.addFunction, mem_addName, hmem]
      constructor
      · rintro (rfl | rfl | ⟨f, hf, hplain, rfl⟩)
        · exact Or.inr ⟨d, (hdeclares d).mpr (Or.inr ⟨rfl, rfl⟩), hglobal, rfl⟩
        · exact Or.inl rfl
        · exact Or.inr ⟨f, (hdeclares f).mpr (Or.inl hf), hplain, rfl⟩
      · rintro (rfl | ⟨f, hf, hplain, rfl⟩)
        · exact Or.inr (Or.inl rfl)
        · rcases (hdeclares f).mp hf with hf | ⟨rfl, -⟩
          · exact Or.inr (Or.inr ⟨f, hf, hplain, rfl⟩)
          · exact Or.inl rfl
    · refine ⟨scope.functions, by simp [hname], ?_⟩
      intro name
      have hold (f : Definition Node) :
          Declares (before ++ [.enter d]) g f ↔ Declares before g f := by
        rw [hdeclares, or_iff_left]
        rintro ⟨-, rfl⟩
        exact hname rfl
      simp only [hmem, hold]

/-- The functions that the global scope lists after one more function. -/
theorem globals_enter (h : a.Lists p before) (hagrees : a.Agrees p before) {d : Definition Node}
    (hsplit : p.events = before ++ .enter d :: after) {name : String} :
    name ∈ (a.modifyScope d.isGlobal (Scope.addFunction d.name)).table.global.functions ↔
      name = p.block.name ∨ ∃ f ∈ entered p.events, f.isGlobal = true ∧ f.name = name := by
  have hglobals : name ∈ a.table.global.functions ↔ _ := h.globals
  by_cases hbefore : before = []
  · -- the program is entered in the global scope
    subst hbefore
    rw [p.events_eq] at hsplit
    obtain ⟨heq, -⟩ := List.cons.inj hsplit
    cases heq
    have htable : (a.modifyScope p.block.isGlobal (Scope.addFunction p.block.name)).table =
        a.table.modifyGlobal (Scope.addFunction p.block.name) := by
      have hpath : a.path = [] := hagrees.path
      simp [modifyScope, hpath]
    rw [htable]
    show name ∈ addName p.block.name a.table.global.functions ↔ _
    rw [mem_addName, hglobals]
    simp
  · have hd : d ∈ entered p.events := mem_entered.mpr (by simp [hsplit])
    obtain ⟨⟨e, own⟩, rest, hopen⟩ :=
      List.exists_cons_of_ne_nil (Program.WellFormed.openBodies_ne hsplit hbefore)
    cases hglobal : d.isGlobal with
    | true =>
      show name ∈ addName d.name a.table.global.functions ↔ _
      rw [mem_addName, hglobals]
      constructor
      · rintro (rfl | ⟨-, rfl⟩ | hf)
        · exact Or.inr ⟨d, hd, hglobal, rfl⟩
        · exact Or.inl rfl
        · exact Or.inr hf
      · rintro (rfl | hf)
        · exact Or.inr (Or.inl ⟨hbefore, rfl⟩)
        · exact Or.inr (Or.inr hf)
    | false =>
      rw [modifyScope_false (hagrees.path_eq hopen)]
      show name ∈ a.table.global.functions ↔ _
      rw [hglobals]
      simp [hbefore]

/-- One more function. -/
theorem enter (h : a.Lists p before) (hagrees : a.Agrees p before) {d : Definition Node}
    (hsplit : p.events = before ++ .enter d :: after) (hname : d.name ≠ globalScopeName)
    (hnew : a.table.contains d.name = false)
    (htable : a'.table = (a.modifyScope d.isGlobal (Scope.addFunction d.name)).table.push d.name
      (.ofDefinition d)) :
    a'.Lists p (before ++ [.enter d]) := by
  have hentered : entered (before ++ [.enter d]) = entered before ++ [d] := entered_concat ..
  have hfresh : d ∉ entered before := by
    intro hd
    obtain ⟨functions, hscope, -⟩ := h.functions hd
    obtain ⟨scope, hscope, -⟩ := Option.map_eq_some_iff.mp hscope
    simp [ScopeTable.contains, hscope] at hnew
  constructor
  · show a'.table.functions.map Prod.fst = _
    rw [htable, ScopeTable.push, List.map_append, hentered, List.map_append, ← h.names,
      ← names_modifyScope]
    rfl
  · have hold : (a.modifyScope d.isGlobal (Scope.addFunction d.name)).table.IsProper :=
      isProper_modifyScope (fun s hs => hs.addFunction d.name) d.isGlobal h.proper
    obtain ⟨hglobal, hfunctions⟩ := List.forall_mem_cons.mp hold
    rw [htable]
    refine List.forall_mem_cons.mpr ⟨hglobal, List.forall_mem_append.mpr ⟨hfunctions, ?_⟩⟩
    intro entry hentry
    obtain rfl := List.mem_singleton.mp hentry
    exact ⟨List.nodup_singleton _, List.nodup_nil⟩
  · intro g hg
    rw [hentered, List.mem_append, List.mem_singleton] at hg
    rw [htable]
    rcases hg with hg | rfl
    · have hbefore : before ≠ [] := by
        rintro rfl
        cases hg
      obtain ⟨⟨e, own⟩, rest, hopen⟩ :=
        List.exists_cons_of_ne_nil (Program.WellFormed.openBodies_ne hsplit hbefore)
      obtain ⟨functions, hscope, hmem⟩ := h.functions_enter hagrees hopen hg (d := d)
      refine ⟨functions, ?_, hmem⟩
      rw [ScopeTable.get?_push _ _ (hagrees.reserved g hg), Option.map_or, hscope, Option.some_or]
    · have hheader (s : Scope) : (s.addFunction g.name).header = s.header := rfl
      refine ⟨[g.name], ?_, ?_⟩
      · have hnone : ((a.modifyScope g.isGlobal (Scope.addFunction g.name)).table.get? g.name).map
            Scope.header = none := by
          rw [map_get?_modifyScope Scope.header hheader g.isGlobal a hname]
          simpa [ScopeTable.contains] using hnew
        rw [ScopeTable.get?_push _ _ hname, Option.map_eq_none_iff.mp hnone, if_pos rfl]
        rfl
      · intro name
        rw [List.mem_singleton, or_iff_left]
        rintro ⟨f, hf, -⟩
        rcases declares_concat.mp hf with ⟨_, _, _, _, rfl, hopen⟩ | ⟨-, _, _, hopen⟩
        · refine hfresh ?_
          rw [entered_append]
          exact List.mem_append_left _ (mem_entered_of_open (hopen ▸ List.mem_cons_self))
        · exact hfresh (mem_entered_of_open (hopen ▸ List.mem_cons_self))
  · intro name
    rw [htable]
    show name ∈ (a.modifyScope d.isGlobal _).table.global.functions ↔ _
    rw [h.globals_enter hagrees hsplit]
    simp

/-- The table lists what one more event enters. -/
theorem step (hp : p.WellFormed) (h : a.Lists p before) (hagrees : a.Agrees p before)
    (hsplit : p.events = before ++ event :: after) (hok : a.step p.globals event = .ok a') :
    a'.Lists p (before ++ [event]) := by
  rcases step_cases hok with ⟨d, rfl, hnew, -, htable⟩ | ⟨hdefinition, -, htable⟩
  · have hd : d ∈ entered p.events := mem_entered.mpr (by simp [hsplit])
    exact h.enter hagrees hsplit (hp.definition_of_mem hd).1 hnew htable
  · obtain ⟨-, e, own, rest, hopen, -⟩ := hp.exists_open hsplit hdefinition
    have hbefore : before ≠ [] := by
      rintro rfl
      cases hopen
    rcases htable with htable | ⟨isGlobal, n, value, htable⟩
    · exact h.quiet hdefinition hbefore (by rw [htable]) (by rw [htable]; exact h.proper)
        (fun _ => by rw [htable]) (by rw [htable]) hagrees.reserved
    · have hfunctions := Scope.functions_write n value
      refine h.quiet hdefinition hbefore ?_ ?_ ?_ ?_ hagrees.reserved
      · rw [htable, names_modifyScope]
      · rw [htable]
        exact isProper_modifyScope (fun s hs => hs.write n value) isGlobal h.proper
      · intro name hname
        rw [htable, map_get?_modifyScope Scope.functions hfunctions isGlobal a hname]
      · rw [htable, global_modifyScope Scope.functions hfunctions isGlobal a]

end Lists

/-- The names that the first pass collects do not repeat. -/
private theorem nodup_ofEvents (events : List Event) :
    ((GlobalNames.ofEvents events).functions.map Prod.fst).Nodup ∧
      (GlobalNames.ofEvents events).vars.Nodup := by
  induction events using List.reverseRecOn with
  | nil => exact ⟨List.nodup_nil, List.nodup_nil⟩
  | append_singleton events event ih =>
    have hconcat : GlobalNames.ofEvents (events ++ [event]) =
        (GlobalNames.ofEvents events).step event := by
      rw [GlobalNames.ofEvents, List.foldl_append]
      rfl
    rw [hconcat]
    cases event with
    | enter d =>
      rw [GlobalNames.step]
      split
      · rename_i hnew
        rw [Bool.and_eq_true, Option.isNone_iff_eq_none, List.lookup_eq_none_iff] at hnew
        have hfresh : d.name ∉ (GlobalNames.ofEvents events).functions.map Prod.fst := by
          intro hmem
          obtain ⟨entry, hentry, heq⟩ := List.mem_map.mp hmem
          have hne := hnew.2 entry hentry
          simp [heq] at hne
        refine ⟨?_, ih.2⟩
        rw [List.map_append]
        exact List.nodup_append_comm.mp (List.nodup_cons.mpr ⟨hfresh, ih.1⟩)
      · exact ih
    | target isGlobal n hasValue =>
      cases isGlobal with
      | false => exact ih
      | true =>
        cases hasValue with
        | true => exact ⟨ih.1, nodup_addName ih.2⟩
        | false => exact ⟨ih.1, ih.2.filter _⟩
    | _ => exact ih

/-- Before the first event, the table lists the global names. -/
theorem lists_start (p : Program) : (start p p.globals).Lists p [] where
  names := rfl
  proper := by
    refine List.forall_mem_cons.mpr ⟨?_, fun entry hentry => absurd hentry List.not_mem_nil⟩
    exact ⟨(nodup_ofEvents p.events).1, (nodup_ofEvents p.events).2⟩
  functions hd := absurd hd List.not_mem_nil
  globals {name} := by
    have hlookup := congrArg Option.isSome (GlobalNames.lookup_ofEvents p.events name)
    rw [Bool.eq_iff_iff, List.lookup_isSome_iff] at hlookup
    show name ∈ p.globals.functions.map Prod.fst ↔ _
    rw [List.mem_map]
    simp only [beq_iff_eq, @eq_comm String name] at hlookup
    rw [Program.globals, hlookup]
    simp [firstNamed?]

/-- The table at every place of the text lists what was entered before. -/
theorem lists_of_foldlM (hp : p.WellFormed) (hsplit : p.events = before ++ after)
    (h : before.foldlM (step p.globals) (.start p p.globals) = .ok a) : a.Lists p before := by
  induction before using List.reverseRecOn generalizing after a with
  | nil =>
    cases h
    exact lists_start p
  | append_singleton before event ih =>
    obtain ⟨b, hb, hlast⟩ := checks_append.mp h
    obtain ⟨c, hstep, hnil⟩ := checks_cons.mp hlast
    cases hnil
    rw [List.append_assoc] at hsplit
    exact (ih hsplit hb).step hp (agrees_of_foldlM hp hsplit hb) hsplit hstep

end Analysis

/-! ## The table of a program -/

/-- Whether a scope holds what is known at the end of a function. -/
structure Scope.IsOf (s : Scope) (d : Definition Node) : Prop extends s.IsProper where
  definition : s.definition = d
  params : s.params = d.params
  /-- The function itself is known, and the plain ones that stand directly in its body. -/
  mem_functions {name : String} : name ∈ s.functions ↔ name = d.name ∨
    isGlobalName name = false ∧ ∃ f, .function f ∈ d.body ∧ f.name = name
  /-- A plain variable is known if the body writes it a value last. -/
  mem_vars {name : String} : name ∈ s.vars ↔
    isGlobalName name = false ∧ lastWrite? name (ownEvents d.body) = some true

/-- Whether a scope holds what is known in a whole program. -/
structure Scope.IsGlobalOf (s : Scope) (p : Program) : Prop extends s.IsProper where
  definition : s.definition = p.block
  params : s.params = p.block.params
  /-- The program itself is known, and every function with a global name. -/
  mem_functions {name : String} : name ∈ s.functions ↔ name = p.name ∨
    isGlobalName name = true ∧ ∃ f, p.Contains (.function f) ∧ f.name = name
  /-- A variable with a global name is known if the text writes it a value last. -/
  mem_vars {name : String} : name ∈ s.vars ↔
    isGlobalName name = true ∧ lastWrite? name p.events = some true

/-- Whether a table is that of a program: the global scope, then one scope for every function in
    the order of the text, the program itself first. -/
structure ScopeTable.IsOf (table : ScopeTable) (p : Program) : Prop where
  keys : table.toList.map Prod.fst =
    globalScopeName :: (entered p.events).map Definition.name
  distinct : (table.toList.map Prod.fst).Nodup
  program : (entered p.events).head? = some p.block ∧ p.block.name = p.name
  definitions {d : Definition Node} : d ∈ entered p.events ↔ p.Contains (.function d)
  global : table.global.IsGlobalOf p
  scopes {d : Definition Node} : d ∈ entered p.events →
    ∃ s, table.get? d.name = some s ∧ s.IsOf d

section

variable {p : Program} {d : Definition Node}

/-- The functions that are entered are those of the program, and the program itself. -/
theorem Program.mem_entered_iff (hp : p.WellFormed) :
    d ∈ entered p.events ↔ p.Contains (.function d) := by
  rw [mem_entered]
  constructor
  · intro hd
    have hcontains (n : Node) (hn : n = .function p.block ∨ n.IsRegular)
        (hd : .enter d ∈ n.events) : n.Contains (.function d) := by
      induction n using Node.children_induction with
      | h n ih =>
        rcases Node.mem_events_iff.mp hd with hd | ⟨c, hc, hd⟩ | hd
        · cases n with
          | function =>
            cases List.mem_singleton.mp hd
            exact .refl _
          | program => rcases hn with hn | (hn | ⟨_, hn⟩) <;> cases hn
          | _ => simp [Node.opening] at hd
        · have hchild : c.IsRegular := by
            rcases hn with rfl | hn
            · exact hp.isRegular_of_mem hc
            · exact hn.child hc
          exact .step hc (ih c hc (Or.inr hchild) hd)
        · cases n with
          | assign _ _ _ value => cases value <;> simp [Node.closing] at hd
          | _ => simp [Node.closing] at hd
    exact hcontains _ (Or.inl rfl) hd
  · intro hd
    exact hd.mem_events (Node.mem_events_iff.mpr (Or.inl List.mem_cons_self))

/-- A function other than the program is marked as global if its name is. -/
theorem Program.WellFormed.isGlobal_of_entered (hp : p.WellFormed) (hd : d ∈ entered p.events) :
    d = p.block ∨ d.isGlobal = isGlobalName d.name := by
  obtain ⟨before, after, hsplit⟩ := List.append_of_mem (mem_entered.mp hd)
  by_cases hbefore : before = []
  · rw [hbefore, p.events_eq] at hsplit
    cases (List.cons.inj hsplit).1
    exact Or.inl rfl
  · exact Or.inr (hp.marked hsplit hbefore).1

variable {a : Analysis}

/-- The scope of a function has at the end of the program the variables that it had when the
    function was left. -/
theorem Program.WellFormed.exists_scope_vars (hp : p.WellFormed)
    (ha : p.events.foldlM (Analysis.step p.globals) (.start p p.globals) = .ok a)
    (hd : d ∈ entered p.events) : ∃ s, a.table.get? d.name = some s ∧ ∀ name, name ∈ s.vars ↔
      isGlobalName name = false ∧ lastWrite? name (ownEvents d.body) = some true := by
  obtain ⟨before, after, hsplit⟩ := Program.exists_split_of_entered hd
  rw [← List.cons_append, ← List.append_assoc] at hsplit
  obtain ⟨b, hb, hrest⟩ := checks_append.mp (hsplit ▸ ha)
  obtain ⟨c, hleave, hrest⟩ := checks_cons.mp hrest
  cases hleave
  have hagrees := agrees_of_foldlM hp hsplit hb
  have hopen := hp.openBodies_place hd (List.append_nil _).symm before
  have hmem := hopen ▸ List.mem_cons_self (a := (d, ownEvents d.body)) (l := openBodies before)
  obtain ⟨vars, hvars, hown⟩ := hagrees.own hmem
  obtain ⟨s, hs, rfl⟩ := Option.map_eq_some_iff.mp hvars
  have hclosed : d.name ∉ b.path.tail := by
    have hnodup := hagrees.nodup_open
    rw [hopen, List.map_cons, List.nodup_cons] at hnodup
    rw [hagrees.path_eq hopen]
    exact hnodup.1
  exact ⟨s, Analysis.get?_foldlM_of_closed (a := ⟨b.table, b.path.tail⟩)
    (hagrees.ne_of_open hmem) hs hclosed hrest, hown⟩

/-- The scope of a function at the end of the program. -/
theorem Program.WellFormed.exists_scope_isOf (hp : p.WellFormed)
    (ha : p.events.foldlM (Analysis.step p.globals) (.start p p.globals) = .ok a)
    (hd : d ∈ entered p.events) : ∃ s, a.table.get? d.name = some s ∧ s.IsOf d := by
  have hwhole : p.events = p.events ++ [] := (List.append_nil _).symm
  have hagrees := agrees_of_foldlM hp hwhole ha
  have hlists := Analysis.lists_of_foldlM hp hwhole ha
  obtain ⟨s, hscope, hvars⟩ := hp.exists_scope_vars ha hd
  obtain ⟨s', hscope', hdefinition, hparams⟩ :=
    hagrees.exists_scope (firstNamed?_of_mem hagrees.distinct hd)
  obtain ⟨functions, hfunctions, hlisted⟩ := hlists.functions hd
  rw [hscope] at hscope' hfunctions
  cases hscope'
  cases hfunctions
  refine ⟨s, hscope, ?_, hdefinition, hparams, ?_, hvars _⟩
  · rw [ScopeTable.get?_of_ne (hagrees.reserved d hd), List.lookup_eq_some_iff] at hscope
    obtain ⟨l, r, hl, -⟩ := hscope
    exact hlists.proper (d.name, s) (List.mem_cons_of_mem _ (by simp [hl]))
  · intro name
    have hmarked {f : Definition Node} (hf : .function f ∈ d.body) :
        f.isGlobal = isGlobalName f.name := by
      rcases hp.isRegular_of_entered hd hf with hf | ⟨_, hf⟩ <;> cases hf
      rfl
    rw [hlisted]
    refine or_congr_right ⟨?_, ?_⟩
    · rintro ⟨f, hf, hplain, rfl⟩
      rw [hp.declares_iff hd] at hf
      exact ⟨(hmarked hf).symm.trans hplain, f, hf, rfl⟩
    · rintro ⟨hplain, f, hf, rfl⟩
      exact ⟨f, (hp.declares_iff hd).mpr hf, (hmarked hf).trans hplain, rfl⟩

/-- The global scope at the end of the program. -/
theorem Program.WellFormed.isGlobalOf (hp : p.WellFormed)
    (ha : p.events.foldlM (Analysis.step p.globals) (.start p p.globals) = .ok a) :
    a.table.global.IsGlobalOf p := by
  have hwhole : p.events = p.events ++ [] := (List.append_nil _).symm
  have hagrees := agrees_of_foldlM hp hwhole ha
  have hlists := Analysis.lists_of_foldlM hp hwhole ha
  obtain ⟨hdefinition, hparams⟩ := Prod.mk.inj hagrees.global
  have hne : p.events ≠ [] := by simp [p.events_eq]
  refine ⟨hlists.proper _ List.mem_cons_self, hdefinition, hparams.trans hp.params.symm, ?_, ?_⟩
  · intro name
    rw [hlists.globals, hp.name]
    constructor
    · rintro (⟨-, rfl⟩ | ⟨f, hf, hglobal, rfl⟩)
      · exact Or.inl rfl
      · rcases hp.isGlobal_of_entered hf with rfl | hmarked
        · exact Or.inl hp.name
        · exact Or.inr ⟨hmarked.symm.trans hglobal, f, (p.mem_entered_iff hp).mp hf, rfl⟩
    · rintro (rfl | ⟨hglobal, f, hf, rfl⟩)
      · exact Or.inl ⟨hne, rfl⟩
      · rw [← p.mem_entered_iff hp] at hf
        rcases hp.isGlobal_of_entered hf with rfl | hmarked
        · exact Or.inl ⟨hne, hp.name⟩
        · exact Or.inr ⟨f, hf, hmarked.trans hglobal, rfl⟩
  · intro name
    rw [hagrees.vars, Option.or_self]

end

/-- The table of a program that passes the check of names has the global scope and then one scope
    for every function, in the order of the text, and each of them holds what its function knows
    at its end. -/
theorem table_exact {text file : String} {p : Program} {table : ScopeTable}
    (hparse : parse text file = .ok p) (hanalyze : analyze p = .ok table) : table.IsOf p := by
  have hp := wellFormed_of_parse hparse
  obtain ⟨a, ha, rfl⟩ := analyze_eq_ok.mp hanalyze
  have hwhole : p.events = p.events ++ [] := (List.append_nil _).symm
  have hagrees := agrees_of_foldlM hp hwhole ha
  have hkeys : a.table.toList.map Prod.fst =
      globalScopeName :: (entered p.events).map Definition.name :=
    congrArg (globalScopeName :: ·) (Analysis.lists_of_foldlM hp hwhole ha).names
  constructor
  · exact hkeys
  · rw [hkeys, List.nodup_cons]
    refine ⟨?_, hagrees.distinct⟩
    intro hmem
    obtain ⟨d, hd, heq⟩ := List.mem_map.mp hmem
    exact hagrees.reserved d hd heq
  · refine ⟨?_, hp.name⟩
    rw [p.events_eq]
    rfl
  · exact p.mem_entered_iff hp
  · exact hp.isGlobalOf ha
  · exact hp.exists_scope_isOf ha

/-- A global function that sets a variable to its parameter. -/
def globalCopier : Definition Node :=
  let set (column : Nat) : Location := ⟨"", 5, column, "Y <- A"⟩
  ⟨⟨"", 4, 1, "BEGIN .F(A)"⟩, true, ".F", ["A"],
    [.assign (set 1) false "Y" (some (.vector (set 6) [.var (set 6) false "A" none]))]⟩

/-- A program that sets a variable, removes it, and defines the function. -/
def dropping : Program :=
  let start : Location := ⟨"", 1, 1, "BEGIN P"⟩
  let set (column : Nat) : Location := ⟨"", 2, column, "X <- 1"⟩
  ⟨start, "P", ⟨start, false, "P", [],
    [.assign (set 1) false "X" (some (.vector (set 6) [.int (set 6) 1])),
      .assign ⟨"", 3, 1, "X <-"⟩ false "X" none, .function globalCopier]⟩⟩

/-- The scopes of that program. -/
def droppingTable : ScopeTable where
  global := ⟨[], dropping.block, [".F", "P"], []⟩
  functions := [("P", ⟨[], dropping.block, ["P"], []⟩),
    (".F", ⟨["A"], globalCopier, [".F"], ["Y"]⟩)]

theorem table_exact_dropping :
    parse "BEGIN P\nX <- 1\nX <-\nBEGIN .F(A)\nY <- A\nEND\nEND" "" = .ok dropping ∧
    analyze dropping = .ok droppingTable ∧ droppingTable.IsOf dropping ∧
    lastWrite? "X" (ownEvents dropping.block.body) = some false ∧
    lastWrite? "Y" (ownEvents globalCopier.body) = some true := by
  have hparse : parse "BEGIN P\nX <- 1\nX <-\nBEGIN .F(A)\nY <- A\nEND\nEND" "" =
      .ok dropping := by cbv
  have hanalyze : analyze dropping = .ok droppingTable := by rfl
  exact ⟨hparse, hanalyze, table_exact hparse hanalyze, by decide, by decide⟩

end VectorLang
