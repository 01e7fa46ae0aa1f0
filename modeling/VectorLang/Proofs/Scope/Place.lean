import VectorLang.Proofs.Machine.Safety
import VectorLang.Proofs.Scope.WellNamed

/-!
# Places in the bodies of functions

The body of a function stands in the text between the two events that enter and leave it.  At
each of its statements the function is the innermost open one, and what happened in its own body
is what the statements before that place do: the functions that are declared among them have
been left again.

* `foldl_openStep`                          what a row of statements does to the open functions
* `Program.exists_split_of_entered`         a function in the text
* `Program.WellFormed.openBodies_place`     the open functions at a place in a body
* `Definition.Owns.assign`                  what a function assigns to
* `Program.Checked`                         programs of the right shape with names in order
-/

namespace VectorLang

/-! ## Rows of statements -/

/-- Whether an event neither enters nor leaves a function. -/
def Event.IsInner : Event → Prop
  | .enter _ | .leave => False
  | _ => True

/-- What the statements of a row do with names, but for the functions among them. -/
def ownEvents (nodes : List Node) : List Event :=
  (nodes.filter fun n => !n.isFunction).flatMap Node.events

@[simp] theorem ownEvents_nil : ownEvents [] = [] := rfl

theorem ownEvents_append (nodes nodes' : List Node) :
    ownEvents (nodes ++ nodes') = ownEvents nodes ++ ownEvents nodes' := by
  simp [ownEvents]

theorem ownEvents_singleton {n : Node} (h : n.isFunction = false) : ownEvents [n] = n.events := by
  simp [ownEvents, h]

/-- Where no function is entered or left, everything happens in the innermost one. -/
theorem foldl_openStep_inner {events : List Event} (h : ∀ event ∈ events, event.IsInner)
    (d : Definition Node) (own : List Event) (rest : List (Definition Node × List Event)) :
    events.foldl openStep ((d, own) :: rest) = (d, own ++ events) :: rest := by
  induction events generalizing own with
  | nil => simp
  | cons event events ih =>
    obtain ⟨hevent, hevents⟩ := List.forall_mem_cons.mp h
    have hstep : openStep ((d, own) :: rest) event = (d, own ++ [event]) :: rest := by
      cases event with
      | enter | leave => cases hevent
      | _ => rfl
    rw [List.foldl_cons, hstep, ih hevents, List.append_assoc, List.singleton_append]

namespace Node.IsRegular

variable {n : Node}

/-- An expression, or a statement that is no function, enters and leaves no function. -/
theorem isInner (h : n.IsRegular) (hfunction : n.isFunction = false) :
    ∀ event ∈ n.events, event.IsInner := by
  induction n using children_induction with
  | h n ih =>
    intro event hevent
    rcases mem_events_iff.mp hevent with hevent | ⟨c, hc, hevent⟩ | hevent
    · cases n with
      | function => cases hfunction
      | program => rcases h with h | ⟨_, h⟩ <;> cases h
      | var | call | assign =>
        cases List.mem_singleton.mp hevent
        trivial
      | _ => cases hevent
    · exact ih c hc (h.child hc) (h.isFunction_child hfunction hc) event hevent
    · cases n with
      | function => cases hfunction
      | program => rcases h with h | ⟨_, h⟩ <;> cases h
      | assign _ _ _ value =>
        cases value with
        | none => cases hevent
        | some value =>
          cases List.mem_singleton.mp hevent
          trivial
      | _ => cases hevent

end Node.IsRegular

/-- Statements one after the other. -/
private theorem foldl_openStep_row {nodes : List Node}
    (h : ∀ n ∈ nodes, ∀ d own rest,
      n.events.foldl openStep ((d, own) :: rest) = (d, own ++ ownEvents [n]) :: rest)
    (d : Definition Node) (own : List Event) (rest : List (Definition Node × List Event)) :
    (nodes.flatMap Node.events).foldl openStep ((d, own) :: rest) =
      (d, own ++ ownEvents nodes) :: rest := by
  induction nodes generalizing own with
  | nil => simp
  | cons n nodes ih =>
    obtain ⟨hn, hnodes⟩ := List.forall_mem_cons.mp h
    have hcons : ownEvents (n :: nodes) = ownEvents [n] ++ ownEvents nodes :=
      ownEvents_append [n] nodes
    rw [List.flatMap_cons, List.foldl_append, hn, ih hnodes, List.append_assoc, hcons]

/-- A row of statements adds what they do themselves to what happened in the innermost
    function. -/
theorem foldl_openStep {nodes : List Node} (h : ∀ n ∈ nodes, n.IsRegular) (d : Definition Node)
    (own : List Event) (rest : List (Definition Node × List Event)) :
    (nodes.flatMap Node.events).foldl openStep ((d, own) :: rest) =
      (d, own ++ ownEvents nodes) :: rest := by
  apply foldl_openStep_row
  intro n hn
  have hregular := h n hn
  clear hn
  induction n using Node.children_induction with
  | h n ih =>
    intro d own rest
    cases hfunction : n.isFunction with
    | false =>
      rw [foldl_openStep_inner (hregular.isInner hfunction), ownEvents_singleton hfunction]
    | true =>
      cases n with
      | function f =>
        have hbody : (f.body.flatMap Node.events).foldl openStep ((f, []) :: (d, own) :: rest) =
            (f, [] ++ ownEvents f.body) :: (d, own) :: rest :=
          foldl_openStep_row (fun c hc => ih c hc (hregular.child hc)) f [] _
        -- the function is left after its body, whatever happened there
        rw [Node.events_eq]
        show (f.body.flatMap Node.events ++ [Event.leave]).foldl openStep
          ((f, []) :: (d, own) :: rest) = _
        rw [List.foldl_append, hbody]
        simp [openStep, ownEvents, Node.isFunction]
      | _ => cases hfunction

/-! ## Functions in the text -/

/-- A function that is entered in a node is there with its body. -/
theorem Node.exists_split_of_enter {n : Node} {d : Definition Node} (h : .enter d ∈ n.events) :
    ∃ before after,
      n.events = before ++ .enter d :: (d.body.flatMap events ++ .leave :: after) := by
  induction n using children_induction with
  | h n ih =>
    rcases mem_events_iff.mp h with h | ⟨c, hc, h⟩ | h
    · cases n with
      | function | program =>
        cases List.mem_singleton.mp h
        exact ⟨[], [], events_eq _⟩
      | _ => simp [opening] at h
    · obtain ⟨before, after, hsplit⟩ := ih c hc h
      obtain ⟨nodes, nodes', hchildren⟩ := List.append_of_mem hc
      refine ⟨n.opening ++ nodes.flatMap events ++ before,
        after ++ nodes'.flatMap events ++ n.closing, ?_⟩
      rw [events_eq, hchildren, List.flatMap_append, List.flatMap_cons, hsplit]
      simp
    · -- what comes after the children enters nothing
      cases n with
      | assign location isGlobal name value => cases value <;> simp [closing] at h
      | _ => simp [closing] at h

namespace Program

variable {p : Program} {d : Definition Node} {before after : List Event} {l r : List Node}

theorem block_mem_entered (p : Program) : p.block ∈ entered p.events := by
  rw [mem_entered, p.events_eq]
  exact List.mem_cons_self

theorem exists_split_of_entered (h : d ∈ entered p.events) :
    ∃ before after,
      p.events = before ++ .enter d :: (d.body.flatMap Node.events ++ .leave :: after) :=
  Node.exists_split_of_enter (mem_entered.mp h)

/-- The statements of a function are nodes of the program. -/
theorem contains_of_entered (h : d ∈ entered p.events) {s : Node} (hs : s ∈ d.body) :
    p.Contains s := by
  obtain ⟨m, hm, hbody⟩ := Node.contains_of_enter (mem_entered.mp h)
  exact hm.child (hbody ▸ hs)

theorem WellFormed.isRegular_of_entered (hp : p.WellFormed) (h : d ∈ entered p.events) {s : Node}
    (hs : s ∈ d.body) : s.IsRegular := by
  obtain ⟨m, hm, hbody⟩ := Node.contains_of_enter (mem_entered.mp h)
  rw [← hbody] at hs
  rcases hp.shape_of_contains hm with rfl | hm
  · exact hp.isRegular_of_mem hs
  · exact hm.child hs

/-- The functions that are open at a place in a body. -/
theorem WellFormed.openBodies_place (hp : p.WellFormed) (h : d ∈ entered p.events)
    (hbody : d.body = l ++ r) (before : List Event) :
    openBodies (before ++ .enter d :: l.flatMap Node.events) =
      (d, ownEvents l) :: openBodies before := by
  have hl : ∀ s ∈ l, s.IsRegular := by
    intro s hs
    exact hp.isRegular_of_entered h (by simp [hbody, hs])
  rw [openBodies, List.foldl_append, List.foldl_cons]
  show (l.flatMap Node.events).foldl openStep ((d, []) :: openBodies before) = _
  rw [foldl_openStep hl, List.nil_append]

/-- An event of a statement in the body of a function happens in that function. -/
theorem WellFormed.exists_place (hp : p.WellFormed) (h : d ∈ entered p.events) {s : Node}
    (hbody : d.body = l ++ s :: r) (hfunction : s.isFunction = false) {own own' : List Event}
    {event : Event} (hs : s.events = own ++ event :: own') :
    ∃ before after rest, p.events = before ++ event :: after ∧
      openBodies before = (d, ownEvents l ++ own) :: rest := by
  obtain ⟨before, after, hsplit⟩ := exists_split_of_entered h
  have hinner : ∀ event ∈ own, event.IsInner := by
    intro event hevent
    apply (hp.isRegular_of_entered h (by simp [hbody])).isInner hfunction
    rw [hs]
    exact List.mem_append_left _ hevent
  refine ⟨before ++ .enter d :: l.flatMap Node.events ++ own,
    own' ++ r.flatMap Node.events ++ .leave :: after, openBodies before, ?_, ?_⟩
  · rw [hsplit, hbody, List.flatMap_append, List.flatMap_cons, hs]
    simp
  · rw [openBodies, List.foldl_append]
    show own.foldl openStep (openBodies (before ++ .enter d :: l.flatMap Node.events)) = _
    rw [hp.openBodies_place h hbody, foldl_openStep_inner hinner]

end Program

/-! ## Nodes of a body -/

/-- Whether a node stands in the body of a function, and not in a function in it. -/
def Definition.Owns (d : Definition Node) (node : Node) : Prop :=
  ∃ s ∈ d.body, s.isFunction = false ∧ s.Contains node

section

variable {p : Program} {d : Definition Node} {node : Node}

/-- What is evaluated below a node of a body is in that body. -/
theorem Definition.Owns.part (h : d.Owns node) {c : Node} (hc : c ∈ node.parts) : d.Owns c := by
  obtain ⟨s, hs, hfunction, hnode⟩ := h
  exact ⟨s, hs, hfunction, hnode.child (Node.mem_children_of_mem_parts hc)⟩

theorem Definition.owns_of_mem {s : Node} (hs : s ∈ d.body) (hfunction : s.isFunction = false) :
    d.Owns s :=
  ⟨s, hs, hfunction, .refl s⟩

theorem Definition.Owns.contains (h : d.Owns node) (hd : d ∈ entered p.events) :
    p.Contains node := by
  obtain ⟨s, hs, _, hnode⟩ := h
  exact (Program.contains_of_entered hd hs).trans hnode

theorem Definition.Owns.isRegular (h : d.Owns node) (hp : p.WellFormed)
    (hd : d ∈ entered p.events) : node.IsRegular := by
  obtain ⟨s, hs, _, hnode⟩ := h
  exact (hp.isRegular_of_entered hd hs).contains hnode

/-- The assignments of a function are to variables whose names are marked, and to none of its
    parameters. -/
theorem Definition.Owns.assign {location : Location} {isGlobal : Bool} {name : String}
    {value : Option Node} (h : d.Owns (.assign location isGlobal name value))
    (hp : p.WellFormed) (hnames : p.WellNamed) (hd : d ∈ entered p.events) :
    isGlobal = isGlobalName name ∧ name ∉ d.params := by
  constructor
  · rcases h.isRegular hp hd with h | ⟨_, h⟩
    · cases h
    · cases h
      rfl
  · obtain ⟨s, hs, hfunction, hnode⟩ := h
    have htarget : .target isGlobal name value.isSome ∈ s.events :=
      hnode.mem_events (Node.mem_events_iff.mpr (Or.inl List.mem_cons_self))
    obtain ⟨own, own', hown⟩ := List.append_of_mem htarget
    obtain ⟨l, r, hbody⟩ := List.append_of_mem hs
    obtain ⟨before, after, rest, hsplit, hopen⟩ := hp.exists_place hd hbody hfunction hown
    exact hnames.targets hsplit hopen

end

/-! ## Programs that were checked -/

/-- A program of the right shape whose names are in order.  Its scopes are those of `table`. -/
structure Program.Checked (p : Program) (table : ScopeTable) : Prop where
  shape : p.WellFormed
  names : p.WellNamed
  scopes : analyze p = .ok table

namespace Program.Checked

variable {text file : String} {p : Program} {table : ScopeTable}

theorem of_parse (hparse : parse text file = .ok p) (hanalyze : analyze p = .ok table) :
    p.Checked table where
  shape := wellFormed_of_parse hparse
  names := (analyze_iff_wellNamed hparse).1.mp ⟨table, hanalyze⟩
  scopes := hanalyze

/-- Every scope of the table is that of a function of the program, or that of the program
    itself. -/
theorem entered_of_get? (h : p.Checked table) {name : String} {scope : Scope}
    (hscope : table.get? name = some scope) :
    scope.definition ∈ entered p.events ∧ scope.params = scope.definition.params := by
  obtain ⟨a, rfl, ha⟩ := reflects_of_analyze h.scopes
  by_cases hname : name = globalScopeName
  · rw [hname, ScopeTable.get?_global] at hscope
    cases hscope
    obtain ⟨hblock, hparams⟩ := Prod.mk.inj ha.global
    rw [hblock, hparams, h.shape.params]
    exact ⟨p.block_mem_entered, rfl⟩
  · obtain ⟨hd, hparams⟩ := ha.definition_eq hname hscope
    exact ⟨(firstNamed?_eq_some hd).1, hparams⟩

/-- The program itself has a scope, with the name of its block. -/
theorem exists_scope_block (h : p.Checked table) :
    table.global.definition = p.block ∧
      ∃ scope, table.get? p.block.name = some scope ∧ scope.definition = p.block := by
  obtain ⟨a, rfl, ha⟩ := reflects_of_analyze h.scopes
  obtain ⟨scope, hscope, hdefinition, _⟩ :=
    ha.exists_scope (firstNamed?_of_mem ha.distinct p.block_mem_entered)
  exact ⟨congrArg Prod.fst ha.global, scope, hscope, hdefinition⟩

/-- Evaluation does not leave the nodes of the program that may be evaluated. -/
theorem part (h : p.Checked table) {node c : Node} (hnode : p.Evaluates node)
    (hc : c ∈ node.parts) : p.Evaluates c :=
  (h.shape.closed_evaluates h.scopes).parts hnode hc

end Program.Checked

end VectorLang
