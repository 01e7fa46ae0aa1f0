import Mathlib
import VectorLang.Proofs.Machine.Scoping

/-!
# Programs without conditions and loops

The check of names follows the text of a function once from its start to its end.  A call does the
same if there are no conditions and no loops.  Then the variables that the check knows at a place
are those that the frame of a call binds there, if every function gives a value: a variable that
is assigned no value would be removed.

That every function gives a value is seen first, because it does not depend on what is bound.
That no variable is missing and what is bound are then shown together: the names that are read
have to be bound, and a statement has to be reached without a fault.

* `Program.Linear.isSome_eval`         every evaluation gives a value
* `Program.Linear.keepsNames_eval`     expressions bind no names and miss none
* `Program.Linear.binds_statements`    what is bound between two statements
* `straightLine_sound`                 runs of such programs
-/

namespace VectorLang

open Exec

/-! ## Programs -/

/-- Whether no comparison decides what a program does: it has no conditional and no loop. -/
def Program.StraightLine (p : Program) : Prop :=
  ∀ node, p.Contains node → node.test? = none

/-- Whether a node removes a variable. -/
def Node.isRemoval : Node → Bool
  | assign _ _ _ none => true
  | _ => false

/-- Whether a function has a statement, apart from the functions in it, and the last one removes
    no variable. -/
def Definition.EndsInValue (d : Definition Node) : Prop :=
  ∃ init last, (d.body.filter fun s => !s.isFunction) = init ++ [last] ∧ last.isRemoval = false

/-- A checked program without conditions and loops, in which every function ends in a value. -/
structure Program.Linear (p : Program) (table : ScopeTable) : Prop extends p.Checked table where
  straight : p.StraightLine
  ends : ∀ d ∈ entered p.events, d.EndsInValue

theorem Node.IsExpression.isRemoval_eq {n : Node} (h : n.IsExpression) : n.isRemoval = false := by
  cases h <;> rfl

/-! ### Nodes without conditions and loops -/

/-- Whether a node is an expression, or prints one. -/
inductive Node.IsQuiet : Node → Prop where
  | expression {n : Node} : n.IsExpression → IsQuiet n
  | output {location : Location} {value : Node} : value.IsExpression →
      IsQuiet (.output location value)

namespace Node

theorem IsQuiet.isExpression_part {n c : Node} (h : n.IsQuiet) (hc : c ∈ n.parts) :
    c.IsExpression := by
  cases h with
  | expression h => exact h.child (mem_children_of_mem_parts hc)
  | output h =>
    obtain rfl := List.mem_singleton.mp hc
    exact h

theorem IsQuiet.isUse {n : Node} (h : n.IsQuiet) : ∀ event ∈ n.events, event.IsUse := by
  cases h with
  | expression h => exact h.isUse
  | output h => exact h.isUse

/-- Without conditions and loops, a statement that is no function is quiet or an assignment. -/
theorem IsRegular.isQuiet_or {n : Node} (h : n.IsRegular) (hfunction : n.isFunction = false)
    (htest : n.test? = none) :
    n.IsQuiet ∨ ∃ location name value, n = .assign location (isGlobalName name) name value ∧
      ∀ e ∈ value, e.IsExpression := by
  rcases h with h | ⟨_, h⟩
  · exact Or.inl (.expression h)
  · cases h with
    | output h => exact Or.inl (.output h)
    | assign h => exact Or.inr ⟨_, _, _, rfl, h⟩
    | conditional | loop => cases htest
    | function => cases hfunction

/-- What is evaluated below such a statement is an expression. -/
theorem IsRegular.isExpression_part {n c : Node} (h : n.IsRegular)
    (hfunction : n.isFunction = false) (htest : n.test? = none) (hc : c ∈ n.parts) :
    c.IsExpression := by
  rcases h.isQuiet_or hfunction htest with h | ⟨_, _, value, rfl, hvalue⟩
  · exact h.isExpression_part hc
  · exact hvalue c (Option.mem_toList.mp hc)

end Node

/-! ## Statements in a row -/

section

variable {ev : Evaluator} {e : Stop} {m m' : Machine}

theorem evalStatements_concat (ev : Evaluator) (statements : List Node) (s : Node) :
    evalStatements ev (statements ++ [s]) = evalStatements ev statements >>= fun _ => ev s := by
  unfold evalStatements
  rw [List.foldlM_append]
  congr 1
  funext v
  rw [List.foldlM_cons]
  exact bind_pure (ev s)

/-- A row of statements stops at one of them. -/
theorem evalStatements_eq_error {statements : List Node}
    (h : evalStatements ev statements m = .error e m') :
    ∃ l s r v m₁, statements = l ++ s :: r ∧ evalStatements ev l m = .ok v m₁ ∧
      ev s m₁ = .error e m' := by
  induction statements using List.reverseRecOn with
  | nil => cases h
  | append_singleton statements s ih =>
    rw [evalStatements_concat] at h
    rcases bind_eq_error.mp h with h | ⟨v, m₁, hbefore, h⟩
    · obtain ⟨l, s', r, v, m₁, rfl, hbefore, h⟩ := ih h
      exact ⟨l, s', r ++ [s], v, m₁, by simp, hbefore, h⟩
    · exact ⟨statements, s, [], v, m₁, rfl, hbefore, h⟩

/-- The body of a function stops at one of its own statements. -/
theorem evalBody_eq_error {d : Definition Node} (h : evalBody ev d m = .error e m') :
    ∃ l s r v m₁, d.body = l ++ s :: r ∧ s.isFunction = false ∧
      evalStatements ev (l.filter fun s => !s.isFunction) m = .ok v m₁ ∧
      ev s m₁ = .error e m' := by
  obtain ⟨own, s, own', v, m₁, hsplit, hbefore, hs⟩ := evalStatements_eq_error h
  obtain ⟨l, rest, hbody, rfl, hrest⟩ := List.filter_eq_append_iff.mp hsplit
  obtain ⟨functions, r, rfl, hfunctions, hfunction, rfl⟩ := List.filter_eq_cons_iff.mp hrest
  -- the functions before the statement are passed over
  have hnone : (functions.filter fun s => !s.isFunction) = [] :=
    List.filter_eq_nil_iff.mpr hfunctions
  refine ⟨l ++ functions, s, r, v, m₁, by simp [hbody], by simpa using hfunction, ?_, hs⟩
  rw [List.filter_append, hnone, List.append_nil]
  exact hbefore

end

/-! ## Values -/

namespace Program.Linear

variable {p : Program} {table : ScopeTable} {verbose : Bool}

/-- The body of a function gives a value if its statements do. -/
theorem isSome_evalBody (h : p.Linear table) {ev : Evaluator}
    (hev : ∀ s, p.Evaluates s → s.isRemoval = false →
      ∀ {m m' : Machine} {v : Option Value}, ev s m = .ok v m' → v.isSome)
    {d : Definition Node} (hd : d ∈ entered p.events) {m m' : Machine} {v : Option Value}
    (heval : evalBody ev d m = .ok v m') : v.isSome := by
  obtain ⟨init, last, hfilter, hremoval⟩ := h.ends d hd
  have hlast : last ∈ d.body.filter fun s => !s.isFunction := by simp [hfilter]
  obtain ⟨hmem, hfunction⟩ := List.mem_filter.mp hlast
  unfold evalBody at heval
  rw [hfilter, evalStatements_concat] at heval
  obtain ⟨_, m₁, _, heval⟩ := bind_eq_ok.mp heval
  exact hev last ⟨contains_of_entered hd hmem, by simpa using hfunction⟩ hremoval heval

/-- Every node that is evaluated has a value, unless it removes a variable. -/
theorem isSome_eval (h : p.Linear table) (n : Nat) {node : Node} (hnode : p.Evaluates node)
    (hremoval : node.isRemoval = false) {m m' : Machine} {v : Option Value}
    (heval : eval ⟨table, verbose⟩ n node m = .ok v m') : v.isSome := by
  induction n generalizing node m m' v with
  | zero => cases heval
  | succ n ih =>
    have hregular := h.shape.isRegular hnode
    have htest := h.straight node hnode.1
    have hpart {c : Node} (hc : c ∈ node.parts) {m m' : Machine} {v : Option Value}
        (hv : eval ⟨table, verbose⟩ n c m = .ok v m') : v.isSome :=
      ih (h.part hnode hc) (hregular.isExpression_part hnode.2 htest hc).isRemoval_eq hv
    cases node with
    | int | string =>
      cases heval
      rfl
    | vector | var | unary | binary =>
      obtain ⟨value, _, rfl⟩ := map_eq_ok.mp heval
      rfl
    | call location isGlobal name args =>
      -- a call gives what the last statement of its function does
      obtain ⟨_, scope, hscope, heval⟩ := evalCall_eq_ok heval
      obtain ⟨vars, m₁, snapshot, m₂, _, heval, _⟩ := inFrame_eq_ok heval
      exact h.isSome_evalBody (fun s hs hremoval _ _ _ hv => ih hs hremoval hv)
        (h.entered_of_get? hscope).1 heval
    | output location value =>
      obtain ⟨_, _, _, heval⟩ := bind_eq_ok.mp heval
      obtain ⟨v₁, m₁, hv₁, heval⟩ := bind_eq_ok.mp heval
      have hsome := hpart List.mem_cons_self hv₁
      cases v₁ with
      | none => cases hsome
      | some w =>
        obtain ⟨_, _, _, heval⟩ := bind_eq_ok.mp heval
        cases heval
        rfl
    | assign location isGlobal name value =>
      cases value with
      | none => cases hremoval
      | some value =>
        obtain ⟨_, _, _, heval⟩ := bind_eq_ok.mp heval
        obtain ⟨m₁, hvalue, rfl⟩ := evalAssign_eq_ok heval
        rcases hvalue with ⟨hnone, _, _⟩ | ⟨c, hc, hv⟩
        · cases hnone
        · exact hpart (Option.mem_toList.mpr hc) hv
    | conditional | loop => cases htest
    | predicate | program =>
      -- no part of a program that was read
      rcases hregular with hexpression | ⟨_, hstatement⟩
      · cases hexpression
      · cases hstatement
    | function => cases hnode.2

end Program.Linear

/-! ## Names that are bound -/

/-- What a function knows at a place in its body: its parameters, and the variables that were
    written a value last. -/
def Definition.Knows (d : Definition Node) (own : List Event) (name : String) : Prop :=
  name ∈ d.params ∨ (isGlobalName name = false ∧ lastWrite? name own = some true)

/-- Whether the innermost call binds just the names that a function knows at a place. -/
def Machine.Binds (d : Definition Node) (own : List Event) (m : Machine) : Prop :=
  ∀ x, x ∈ m.stack.top.vars.keys ↔ d.Knows own x

/-- Whether the innermost calls of two states bind the same names. -/
def Machine.SameNames (m m' : Machine) : Prop :=
  ∀ x, x ∈ m'.stack.top.vars.keys ↔ x ∈ m.stack.top.vars.keys

/-- Whether a reason to stop is another one than that a variable of a function, or an element of
    a vector, has no value. -/
def Stop.Sound (e : Stop) : Prop :=
  ∀ f, e = .fault f → (∀ name, f.cause ≠ .undefinedVariable name) ∧ f.cause ≠ .undefinedElement

theorem Machine.sound_unshown (m : Machine) : m.unshown.Sound := by
  intro f hf
  cases hf
  simp

theorem Stop.sound_outOfFuel : Stop.outOfFuel.Sound := by
  intro f hf
  cases hf

namespace Machine.Binds

variable {d : Definition Node} {own own' : List Event} {m m' : Machine}

theorem congr (h : m.Binds d own) (hsame : m.SameNames m')
    (hlast : ∀ x, lastWrite? x own' = lastWrite? x own) : m'.Binds d own' := by
  intro x
  rw [hsame x, h x, Definition.Knows, Definition.Knows, hlast]

/-- A variable is written that is no parameter. -/
theorem written (h : m.Binds d own) {name : String} (hparam : name ∉ d.params) {v : Option Value}
    (hlast : ∀ x, lastWrite? x own' = if name = x then some v.isSome else lastWrite? x own) :
    (m.written (isGlobalName name) name v).Binds d own' := by
  intro x
  have hwritten := mem_keys_written m (isGlobalName name) name v x
  cases hglobal : isGlobalName name with
  | true =>
    -- the frame of the call is not written to
    have htop : (m.written true name v).stack.top = m.stack.top :=
      owner_written_of_ne m true name v
    rw [htop, h x, Definition.Knows, Definition.Knows, hlast]
    by_cases hx : name = x
    · subst hx
      simp [hglobal]
    · simp [hx]
  | false =>
    rw [hglobal] at hwritten
    have htop : x ∈ m.stack.top.vars.keys ↔ _ := h x
    refine hwritten.trans ?_
    show _ ∨ (_ ∧ x ∈ m.stack.top.vars.keys) ↔ _
    rw [htop, Definition.Knows, Definition.Knows, hlast]
    by_cases hx : name = x
    · subst hx
      simp [hglobal, hparam]
    · have hne : ¬ x = name := fun h => hx h.symm
      simp [hx, hne]

end Machine.Binds

/-! ### The last write -/

/-- The first of some uses write nothing. -/
theorem lastWrite?_of_isUse {x : String} {events own own' : List Event} {event : Event}
    (huse : ∀ event ∈ events, event.IsUse) (hsplit : events = own ++ event :: own') :
    lastWrite? x own = none := by
  apply (last_of_isUse x _).2
  intro event hevent
  apply huse
  rw [hsplit]
  exact List.mem_append_left _ hevent

/-- An assignment is the last write to its variable. -/
theorem lastWrite?_assign {location : Location} {isGlobal : Bool} {name : String}
    {value : Option Node} (hvalue : ∀ e ∈ value, e.IsExpression) (own : List Event) (x : String) :
    lastWrite? x (own ++ (Node.assign location isGlobal name value).events) =
      if name = x then some value.isSome else lastWrite? x own := by
  cases value with
  | none =>
    show lastWrite? x (own ++ [.target isGlobal name false]) = _
    rw [lastWrite?_concat]
    by_cases hx : name = x <;> simp [Event.write?, hx]
  | some value =>
    show lastWrite? x (own ++ (.target isGlobal name true :: (value.events ++
      [.assigned isGlobal name]))) = _
    have hwrite : Event.write? x (.target isGlobal name true) = none := rfl
    have huse : lastWrite? x value.events = none := (last_of_isUse x (hvalue value rfl).isUse).2
    rw [← List.singleton_append, ← List.append_assoc, ← List.append_assoc, lastWrite?_concat,
      lastWrite?_append, lastWrite?_concat, hwrite, huse]
    by_cases hx : name = x <;> simp [Event.write?, hx]

/-! ## Evaluations -/

/-- Whether a computation binds the same names, and misses none if the names `K` are bound. -/
def KeepsNames (K : String → Prop) {α : Type} (x : Exec α) : Prop :=
  Within Machine.SameNames (fun m e _ => (∀ x, K x → x ∈ m.stack.top.vars.keys) → e.Sound) x

theorem composes_keepsNames (K : String → Prop) :
    Composes Machine.SameNames
      (fun m e _ => (∀ x, K x → x ∈ m.stack.top.vars.keys) → e.Sound) where
  refl _ _ := Iff.rfl
  trans h h' x := (h' x).trans (h x)
  after h h' hK := h' fun x hx => (h x).mpr (hK x hx)

theorem keepsNames_log (K : String → Prop) (ctx : Context) (action : Action)
    (location : Location) : KeepsNames K (log ctx action location) :=
  within_log (fun _ _ _ => Iff.rfl) fun m _ _ _ => m.sound_unshown

namespace Program.Linear

variable {p : Program} {table : ScopeTable} {verbose : Bool} {n : Nat}

/-- A call that is opened binds the parameters of its function. -/
theorem binds_opened (h : p.Linear table) {location : Location} {isGlobal : Bool} {name : String}
    {args : List Node} (hnode : p.Evaluates (.call location isGlobal name args)) {scope : Scope}
    (hscope : table.get? name = some scope) {vars : Bindings} {m m₁ : Machine}
    (hargs : evalArguments (eval ⟨table, verbose⟩ n) scope.params args m = .ok vars m₁) (id : Nat)
    (snapshot : Option (List (String × String))) :
    (m₁.opened ⟨name, vars, id, some location⟩ location snapshot).Binds scope.definition [] := by
  obtain ⟨before, after, hsplit⟩ := List.append_of_mem (call_mem_events hnode.1)
  obtain ⟨_, scope', _, _, hscope', hparams, hlength⟩ := callee_eq h.scopes hsplit
  cases hscope.symm.trans hscope'
  -- the check has seen as many arguments as there are parameters, and all of them have values
  have hkeys {x : String} : x ∈ vars.keys ↔ x ∈ scope.params := by
    apply mem_keys_evalArguments hargs (Nat.le_of_eq hlength)
    intro arg harg m m' v hv
    have hexpression : arg.IsExpression :=
      (h.shape.isRegular hnode).isExpression_part rfl rfl harg
    exact h.isSome_eval n (h.part hnode harg) hexpression.isRemoval_eq hv
  intro x
  show x ∈ vars.keys ↔ _
  rw [hkeys, hparams]
  simp [Definition.Knows]

/-- What the rule of a quiet node keeps, if the names that are read in it are bound. -/
theorem ruleTransition_keepsNames (h : p.Linear table) {K : String → Prop} {node : Node}
    (hnode : p.Evaluates node) (hquiet : node.IsQuiet)
    (hreads : ∀ x, .read x ∈ node.events → isGlobalName x = false → K x)
    (hparts : ∀ c ∈ node.parts, KeepsNames K (eval ⟨table, verbose⟩ n c))
    (hbody : ∀ d ∈ entered p.events, ∀ {m m' : Machine} {e : Stop}, m.Binds d [] →
      evalBody (eval ⟨table, verbose⟩ n) d m = .error e m' → e.Sound) :
    RuleTransition ⟨table, verbose⟩ (eval ⟨table, verbose⟩ n) node (fun _ v => v.isSome)
      Machine.SameNames (fun m e _ => (∀ x, K x → x ∈ m.stack.top.vars.keys) → e.Sound) where
  toComposes := composes_keepsNames K
  logged _ _ _ _ _ := Iff.rfl
  printed _ _ _ := Iff.rfl
  numbered _ _ := Iff.rfl
  unshown m _ := m.sound_unshown
  part hc := hparts _ hc
  post hc hv := h.isSome_eval n (h.part hnode hc)
    (hquiet.isExpression_part hc).isRemoval_eq hv
  written _ _ heq _ := by
    subst heq
    cases hquiet with
    | expression hexpression => cases hexpression
  raised {m cause location} hraises hcause hK f hf := by
    cases hf
    constructor
    · rintro name rfl
      cases hraises with
      | undefinedVariable hnone =>
        cases hquiet with
        | expression hexpression =>
          -- a variable that is read has to be known, and so it is bound
          generalize hglobal : false = isGlobal at hexpression
          cases hexpression
          have hbound := hK name (hreads name List.mem_cons_self hglobal.symm)
          rw [Bindings.mem_keys, hnone] at hbound
          cases hbound
    · intro heq
      obtain ⟨_, _, hnone⟩ := hcause heq
      cases hnone
  outOfFuel _ _ _ := Stop.sound_outOfFuel
  closed _ _ _ _ hsame hv := by
    intro x
    rw [stack_closed hv]
    exact hsame x
  notClosed heq _ hscope hargs _ he _ := by
    subst heq
    exact hbody _ (h.entered_of_get? hscope).1
      (h.binds_opened hnode hscope hargs _ _) he

/-! ### Statements -/

/-- Whether all quiet nodes keep the names with some fuel, where the names that are read in them
    are bound. -/
def QuietKeeps (p : Program) (table : ScopeTable) (verbose : Bool) (n : Nat) : Prop :=
  ∀ K node, p.Evaluates node → node.IsQuiet →
    (∀ x, .read x ∈ node.events → isGlobalName x = false → K x) →
    KeepsNames K (eval ⟨table, verbose⟩ n node)

section

variable {d : Definition Node} {l r : List Node} {s : Node} {m m' : Machine} {v : Option Value}
  {e : Stop}

/-- What a statement reads before it writes anything is known before the statement. -/
theorem knows_of_read (h : p.Linear table) (hd : d ∈ entered p.events)
    (hbody : d.body = l ++ s :: r) (hfunction : s.isFunction = false) {own own' : List Event}
    {x : String} (hs : s.events = own ++ .read x :: own') (hown : lastWrite? x own = none)
    (hx : isGlobalName x = false) : d.Knows (ownEvents l) x := by
  obtain ⟨before, after, rest, hsplit, hopen⟩ := h.shape.exists_place hd hbody hfunction hs
  have hread := h.names.reads hsplit
  rw [Readable, hx, if_neg Bool.false_ne_true] at hread
  obtain ⟨d', own'', rest', hopen', hknown⟩ := hread
  cases hopen.symm.trans hopen'
  rw [lastWrite?_append, hown, Option.none_or] at hknown
  exact hknown.imp id fun hlast => ⟨hx, hlast⟩

/-- A statement that is quiet reads what is known before it, and writes nothing. -/
theorem keepsNames_quiet (h : p.Linear table) (hkeeps : QuietKeeps p table verbose n)
    (hd : d ∈ entered p.events) (hbody : d.body = l ++ s :: r) (hfunction : s.isFunction = false)
    (hquiet : s.IsQuiet) : KeepsNames (d.Knows (ownEvents l)) (eval ⟨table, verbose⟩ n s) := by
  have hnode : p.Evaluates s := ⟨contains_of_entered hd (by simp [hbody]), hfunction⟩
  apply hkeeps _ s hnode hquiet
  intro x hread hx
  obtain ⟨own, own', hs⟩ := List.append_of_mem hread
  exact h.knows_of_read hd hbody hfunction hs (lastWrite?_of_isUse hquiet.isUse hs) hx

/-- The value that is assigned reads what is known before the assignment. -/
theorem keepsNames_value (h : p.Linear table) (hkeeps : QuietKeeps p table verbose n)
    (hd : d ∈ entered p.events) {location : Location} {isGlobal : Bool} {name : String}
    {value : Node} (hbody : d.body = l ++ .assign location isGlobal name (some value) :: r)
    (hvalue : value.IsExpression) :
    KeepsNames (d.Knows (ownEvents l)) (eval ⟨table, verbose⟩ n value) := by
  have hmem : .assign location isGlobal name (some value) ∈ d.body := by simp [hbody]
  have hcontains : p.Contains value :=
    (contains_of_entered hd hmem).child (Option.mem_toList.mpr rfl)
  apply hkeeps _ value ⟨hcontains, hvalue.isFunction_eq⟩ (.expression hvalue)
  intro x hread hx
  obtain ⟨own, own', hown⟩ := List.append_of_mem hread
  have hs : (Node.assign location isGlobal name (some value)).events =
      ([.target isGlobal name true] ++ own) ++ .read x :: (own' ++ [.assigned isGlobal name]) := by
    show .target isGlobal name true :: (value.events ++ [.assigned isGlobal name]) = _
    rw [hown]
    simp
  apply h.knows_of_read hd hbody rfl hs _ hx
  -- an assignment that starts has not written yet
  rw [lastWrite?_append, lastWrite?_of_isUse hvalue.isUse hown]
  rfl

/-- An assignment binds its variable if it has a value. -/
theorem binds_assign (h : p.Linear table) (hkeeps : ∀ k ≤ n, QuietKeeps p table verbose k)
    (hd : d ∈ entered p.events) {location : Location} {isGlobal : Bool} {name : String}
    {value : Option Node} (hbody : d.body = l ++ .assign location isGlobal name value :: r)
    (hvalue : ∀ c ∈ value, c.IsExpression) (hm : m.Binds d (ownEvents l))
    (hv : eval ⟨table, verbose⟩ n (.assign location isGlobal name value) m = .ok v m') :
    m'.Binds d (ownEvents l ++ (Node.assign location isGlobal name value).events) := by
  cases n with
  | zero => cases hv
  | succ n =>
    have hmem : .assign location isGlobal name value ∈ d.body := by simp [hbody]
    obtain ⟨rfl, hparam⟩ := (Definition.owns_of_mem hmem rfl).assign h.shape h.names hd
    have hlog := keepsNames_log (d.Knows (ownEvents l)) ⟨table, verbose⟩
      (.node (Node.assign location (isGlobalName name) name value).label) location
    obtain ⟨_, m₁, hlogged, hv⟩ := bind_eq_ok.mp hv
    have hm₁ : m₁.Binds d (ownEvents l) := hm.congr (hlog.ok hlogged) fun _ => rfl
    obtain ⟨m₂, hcases, rfl⟩ := evalAssign_eq_ok hv
    rcases hcases with ⟨rfl, rfl, rfl⟩ | ⟨c, rfl, hc⟩
    · exact hm₁.written hparam fun x => lastWrite?_assign hvalue _ x
    · have hexpression := hvalue c rfl
      have hkeeps := h.keepsNames_value (hkeeps n (Nat.le_succ n)) hd hbody hexpression
      have hm₂ : m₂.Binds d (ownEvents l) := hm₁.congr (hkeeps.ok hc) fun _ => rfl
      have hcontains : p.Contains c :=
        (contains_of_entered hd hmem).child (Option.mem_toList.mpr rfl)
      have hsome : v.isSome = true :=
        h.isSome_eval n ⟨hcontains, hexpression.isFunction_eq⟩ hexpression.isRemoval_eq hc
      apply hm₂.written hparam
      intro x
      rw [lastWrite?_assign hvalue, hsome]
      rfl

/-- An assignment misses no name. -/
theorem sound_assign (h : p.Linear table) (hkeeps : ∀ k ≤ n, QuietKeeps p table verbose k)
    (hd : d ∈ entered p.events) {location : Location} {isGlobal : Bool} {name : String}
    {value : Option Node} (hbody : d.body = l ++ .assign location isGlobal name value :: r)
    (hvalue : ∀ c ∈ value, c.IsExpression) (hm : m.Binds d (ownEvents l))
    (he : eval ⟨table, verbose⟩ n (.assign location isGlobal name value) m = .error e m') :
    e.Sound := by
  cases n with
  | zero =>
    cases he
    exact Stop.sound_outOfFuel
  | succ n =>
    have hlog := keepsNames_log (d.Knows (ownEvents l)) ⟨table, verbose⟩
      (.node (Node.assign location isGlobal name value).label) location
    rcases bind_eq_error.mp he with he | ⟨_, m₁, hlogged, he⟩
    · exact hlog.error he fun x hx => (hm x).mpr hx
    · obtain ⟨c, rfl, hc⟩ := evalAssign_eq_error he
      have hkeeps := h.keepsNames_value (hkeeps n (Nat.le_succ n)) hd hbody (hvalue c rfl)
      exact hkeeps.error hc fun x hx => (hlog.ok hlogged x).mpr ((hm x).mpr hx)

/-- A statement binds what is known after it. -/
theorem binds_statement (h : p.Linear table) (hkeeps : ∀ k ≤ n, QuietKeeps p table verbose k)
    (hd : d ∈ entered p.events) (hbody : d.body = l ++ s :: r) (hfunction : s.isFunction = false)
    (hm : m.Binds d (ownEvents l)) (hv : eval ⟨table, verbose⟩ n s m = .ok v m') :
    m'.Binds d (ownEvents (l ++ [s])) := by
  have hmem : s ∈ d.body := by simp [hbody]
  rw [ownEvents_append, ownEvents_singleton hfunction]
  rcases (h.shape.isRegular_of_entered hd hmem).isQuiet_or hfunction
    (h.straight s (contains_of_entered hd hmem)) with hquiet | ⟨_, _, _, rfl, hvalue⟩
  · apply hm.congr
    · exact (h.keepsNames_quiet (hkeeps n (Nat.le_refl n)) hd hbody hfunction hquiet).ok hv
    · intro x
      rw [lastWrite?_append, (last_of_isUse x hquiet.isUse).2, Option.none_or]
  · exact h.binds_assign hkeeps hd hbody hvalue hm hv

/-- A statement misses no name. -/
theorem sound_statement (h : p.Linear table) (hkeeps : ∀ k ≤ n, QuietKeeps p table verbose k)
    (hd : d ∈ entered p.events) (hbody : d.body = l ++ s :: r) (hfunction : s.isFunction = false)
    (hm : m.Binds d (ownEvents l)) (he : eval ⟨table, verbose⟩ n s m = .error e m') :
    e.Sound := by
  have hmem : s ∈ d.body := by simp [hbody]
  rcases (h.shape.isRegular_of_entered hd hmem).isQuiet_or hfunction
    (h.straight s (contains_of_entered hd hmem)) with hquiet | ⟨_, _, _, rfl, hvalue⟩
  · have hkeeps := h.keepsNames_quiet (hkeeps n (Nat.le_refl n)) hd hbody hfunction hquiet
    exact hkeeps.error he fun x hx => (hm x).mpr hx
  · exact h.sound_assign hkeeps hd hbody hvalue hm he

/-- Between two statements, the names are bound that are known there. -/
theorem binds_statements (h : p.Linear table) (hkeeps : ∀ k ≤ n, QuietKeeps p table verbose k)
    (hd : d ∈ entered p.events) (hbody : d.body = l ++ r) (hm : m.Binds d [])
    (hv : evalStatements (eval ⟨table, verbose⟩ n) (l.filter fun s => !s.isFunction) m =
      .ok v m') : m'.Binds d (ownEvents l) := by
  induction l using List.reverseRecOn generalizing r v m' with
  | nil =>
    cases hv
    exact hm
  | append_singleton l s ih =>
    rw [List.append_assoc, List.singleton_append] at hbody
    rw [List.filter_append] at hv
    cases hfunction : s.isFunction with
    | true =>
      -- a function is passed over
      have hnone : ([s].filter fun s => !s.isFunction) = [] := by simp [hfunction]
      have hown : ownEvents (l ++ [s]) = ownEvents l := by
        rw [ownEvents_append]
        simp [ownEvents, hfunction]
      rw [hnone, List.append_nil] at hv
      rw [hown]
      exact ih hbody hv
    | false =>
      have hsome : ([s].filter fun s => !s.isFunction) = [s] := by simp [hfunction]
      rw [hsome, evalStatements_concat] at hv
      obtain ⟨w, m₁, hbefore, hv⟩ := bind_eq_ok.mp hv
      exact h.binds_statement hkeeps hd hbody hfunction (ih hbody hbefore) hv

/-- The body of a function misses no name if its parameters are bound. -/
theorem sound_evalBody (h : p.Linear table) (hkeeps : ∀ k ≤ n, QuietKeeps p table verbose k)
    (hd : d ∈ entered p.events) (hm : m.Binds d [])
    (he : evalBody (eval ⟨table, verbose⟩ n) d m = .error e m') : e.Sound := by
  obtain ⟨l, s, r, v, m₁, hbody, hfunction, hbefore, he⟩ := evalBody_eq_error he
  have hm₁ := h.binds_statements hkeeps hd hbody hm hbefore
  exact h.sound_statement hkeeps hd hbody hfunction hm₁ he

end

/-- Quiet nodes keep the names, where those that are read in them are bound. -/
theorem keepsNames_eval (h : p.Linear table) (verbose : Bool) (n : Nat) :
    QuietKeeps p table verbose n := by
  induction n using Nat.strong_induction_on with
  | h n ih =>
    intro K node hnode hquiet hreads
    cases n with
    | zero => exact within_throw fun _ _ => Stop.sound_outOfFuel
    | succ n =>
      have hparts : ∀ c ∈ node.parts, KeepsNames K (eval ⟨table, verbose⟩ n c) := by
        intro c hc
        apply ih n (Nat.lt_succ_self n) K c (h.part hnode hc)
          (.expression (hquiet.isExpression_part hc))
        intro x hread
        apply hreads x
        exact Node.mem_events_iff.mpr
          (Or.inr (Or.inl ⟨c, Node.mem_children_of_mem_parts hc, hread⟩))
      -- a body is run with less fuel, and the values that it assigns with less than that
      have hbelow : ∀ k ≤ n, QuietKeeps p table verbose k := by
        intro k hk
        exact ih k (Nat.lt_succ_of_le hk)
      have hrule : RuleTransition ⟨table, verbose⟩ (eval ⟨table, verbose⟩ n) node _ _ _ :=
        h.ruleTransition_keepsNames hnode hquiet hreads hparts
          fun _ hd _ _ _ hm he => h.sound_evalBody hbelow hd hm he
      exact hrule.within n

end Program.Linear

/-! ## Runs -/

/-- The states that a run starts the body of a function in: those of the program at the start,
    and those of calls that have opened their frames. -/
inductive Context.Enters (ctx : Context) (fuel : Nat) : Definition Node → Machine → Prop where
  | program : Enters ctx fuel ctx.scopes.global.definition ctx.start
  | call {node : Node} {m m' : Machine} {scope : Scope} : ctx.Reaches fuel node m →
      ctx.Pushes node m scope m' → Enters ctx fuel scope.definition m'

namespace Program.Linear

variable {p : Program} {table : ScopeTable} {verbose : Bool} {fuel : Nat} {d : Definition Node}

/-- Where the body of a function starts, its parameters are bound. -/
theorem binds_of_enters (h : p.Linear table) {m : Machine}
    (henters : Context.Enters ⟨table, verbose⟩ fuel d m) :
    d ∈ entered p.events ∧ m.Binds d [] := by
  cases henters with
  | program =>
    obtain ⟨hblock, _⟩ := h.exists_scope_block
    show table.global.definition ∈ _ ∧ _
    rw [hblock]
    refine ⟨p.block_mem_entered, fun x => ?_⟩
    show x ∈ [] ↔ _
    simp [Definition.Knows, h.shape.params]
  | call hreach hpushes =>
    have hnode := mem_of_reaches (h.shape.closed_evaluates h.scopes) hreach
    cases hpushes with
    | call _ hscope hargs _ =>
      exact ⟨(h.entered_of_get? hscope).1,
        h.binds_opened hnode hscope hargs _ _⟩

/-- The check knows the same names at a place in a body, as variables of the function. -/
theorem knows_iff_current (h : p.Linear table) (hd : d ∈ entered p.events) {l r : List Node}
    (hbody : d.body = l ++ r) {before after : List Event}
    (hsplit : p.events = before ++ .enter d ::
      (l.flatMap Node.events ++ (r.flatMap Node.events ++ .leave :: after))) :
    ∃ a, (before ++ .enter d :: l.flatMap Node.events).foldlM (Analysis.step p.globals)
        (.start p p.globals) = .ok a ∧
      ∀ x, d.Knows (ownEvents l) x ↔ x ∈ d.params ∨ x ∈ a.current.vars := by
  have hsplit' : p.events = (before ++ .enter d :: l.flatMap Node.events) ++
      (r.flatMap Node.events ++ .leave :: after) := by
    rw [hsplit]
    simp
  obtain ⟨b, hb, _⟩ := analyze_eq_ok.mp h.scopes
  rw [hsplit'] at hb
  obtain ⟨a, ha, _⟩ := checks_append.mp hb
  have hagrees := agrees_of_foldlM h.shape hsplit' ha
  obtain ⟨_, hvars⟩ := hagrees.current (h.shape.openBodies_place hd hbody before)
  refine ⟨a, ha, fun x => ?_⟩
  rw [hvars]
  rfl

end Program.Linear

/-- In a program without conditions and loops, in which the body of every function ends with a
    statement that removes no variable, no run fails because a variable of a function or an
    element of a vector has no value, if the names of the program are in order.  Every call that
    returns gives a value.  Before every statement that a run comes to, the frame of the innermost
    call binds the parameters of its function and the variables that the check knows at that place
    of the text, and nothing else. -/
theorem straightLine_sound {text file : String} {p : Program} {table : ScopeTable} {verbose : Bool}
    (hparse : parse text file = .ok p) (hanalyze : analyze p = .ok table)
    (hstraight : p.StraightLine) (hends : ∀ d ∈ entered p.events, d.EndsInValue) :
    (∀ fuel f m, run ⟨table, verbose⟩ fuel = ⟨.failed f, m⟩ →
      (∀ name, f.cause ≠ .undefinedVariable name) ∧ f.cause ≠ .undefinedElement) ∧
    (∀ n location isGlobal name args m v m', p.Contains (.call location isGlobal name args) →
      eval ⟨table, verbose⟩ n (.call location isGlobal name args) m = .ok v m' → v.isSome) ∧
    ∀ fuel d m₀ n l r v m, Context.Enters ⟨table, verbose⟩ fuel d m₀ → d.body = l ++ r →
      evalStatements (eval ⟨table, verbose⟩ n) (l.filter fun s => !s.isFunction) m₀ = .ok v m →
      (∃ before after, p.events = before ++ .enter d ::
        (l.flatMap Node.events ++ (r.flatMap Node.events ++ .leave :: after))) ∧
      ∀ before after, p.events = before ++ .enter d ::
          (l.flatMap Node.events ++ (r.flatMap Node.events ++ .leave :: after)) →
        ∃ a, (before ++ .enter d :: l.flatMap Node.events).foldlM (Analysis.step p.globals)
            (.start p p.globals) = .ok a ∧
          ∀ x, x ∈ m.stack.top.vars.keys ↔ x ∈ d.params ∨ x ∈ a.current.vars := by
  have hp : p.Linear table := ⟨.of_parse hparse hanalyze, hstraight, hends⟩
  refine ⟨?_, ?_, ?_⟩
  · intro fuel f m hrun
    have henters : Context.Enters ⟨table, verbose⟩ fuel table.global.definition
        (Context.start ⟨table, verbose⟩) := .program
    obtain ⟨hd, hstart⟩ := hp.binds_of_enters henters
    have hbody := run_eq_failed.mp (congrArg Outcome.ending hrun)
    exact hp.sound_evalBody (fun k _ => hp.keepsNames_eval verbose k) hd hstart hbody f rfl
  · intro n location isGlobal name args m v m' hnode hv
    exact hp.isSome_eval n ⟨hnode, rfl⟩ rfl hv
  · intro fuel d m₀ n l r v m henters hbody hv
    obtain ⟨hd, hm₀⟩ := hp.binds_of_enters henters
    have hm := hp.binds_statements (fun k _ => hp.keepsNames_eval verbose k) hd hbody hm₀ hv
    constructor
    · obtain ⟨before, after, hsplit⟩ := Program.exists_split_of_entered hd
      refine ⟨before, after, ?_⟩
      rw [hsplit, hbody, List.flatMap_append, List.append_assoc]
    · intro before after hsplit
      obtain ⟨a, ha, hknows⟩ := hp.knows_iff_current hd hbody hsplit
      exact ⟨a, ha, fun x => (hm x).trans (hknows x)⟩

theorem straightLine_copying : copying.StraightLine := by
  have hleaf {n : Node} (hn : n.test? = none) (hchildren : n.children = []) :
      ∀ m, n.Contains m → m.test? = none :=
    Node.forall_contains_iff.mpr ⟨hn, by simp [hchildren]⟩
  have hparent {n c : Node} (hn : n.test? = none) (hchildren : n.children = [c])
      (hc : ∀ m, c.Contains m → m.test? = none) : ∀ m, n.Contains m → m.test? = none :=
    Node.forall_contains_iff.mpr ⟨hn, by simpa [hchildren] using hc⟩
  have hfunction : ∀ m, (Node.function copier).Contains m → m.test? = none :=
    hparent rfl rfl (hparent rfl rfl (hparent rfl rfl (hleaf rfl rfl)))
  have houtput : ∀ m, (Node.output copierCall.location copierCall).Contains m → m.test? = none :=
    hparent rfl rfl (hparent rfl rfl (hparent rfl rfl (hleaf rfl rfl)))
  exact Node.forall_contains_iff.mpr
    ⟨rfl, List.forall_mem_cons.mpr ⟨hfunction, List.forall_mem_singleton.mpr houtput⟩⟩

theorem straightLine_sound_copying :
    parse "BEGIN P\nBEGIN F(A)\nX <- A\nEND\nF(1)\nEND" "" = .ok copying ∧
    analyze copying = .ok copyingTable ∧ copying.StraightLine ∧
    (∀ d ∈ entered copying.events, d.EndsInValue) ∧
    ∃ v m before a, evalStatements (eval ⟨copyingTable, false⟩ 5)
        (copier.body.filter fun s => !s.isFunction) copyingOpened = .ok v m ∧
      (before ++ .enter copier :: copier.body.flatMap Node.events).foldlM
        (Analysis.step copying.globals) (.start copying copying.globals) = .ok a ∧
      "X" ∈ a.current.vars := by
  have hends : ∀ d ∈ entered copying.events, d.EndsInValue := by
    have hentered : entered copying.events = [copying.block, copier] := by rfl
    intro d hd
    rw [hentered] at hd
    simp only [List.mem_cons, List.not_mem_nil, or_false] at hd
    rcases hd with rfl | rfl
    · exact ⟨[], _, rfl, rfl⟩
    · exact ⟨[], _, rfl, rfl⟩
  obtain ⟨v, m, hv, hset⟩ : ∃ v m, evalStatements (eval ⟨copyingTable, false⟩ 5)
      (copier.body.filter fun s => !s.isFunction) copyingOpened = .ok v m ∧
        "X" ∈ m.stack.top.vars.keys :=
    ⟨some (.ints [1]), _, rfl, by decide⟩
  obtain ⟨_, _, hplaces⟩ :=
    straightLine_sound parse_copying analyze_copying straightLine_copying hends
  have henters := Context.Enters.call reaches_copierCall pushes_copierCall
  obtain ⟨⟨before, after, hsplit⟩, hcheck⟩ :=
    hplaces 2 copier copyingOpened 5 copier.body [] v m henters (List.append_nil _).symm hv
  obtain ⟨a, ha, hkeys⟩ := hcheck before after hsplit
  have hknown : "X" ∈ a.current.vars := ((hkeys "X").mp hset).resolve_left (by decide)
  exact ⟨parse_copying, analyze_copying, straightLine_copying, hends, v, m, before, a, hv, ha,
    hknown⟩

end VectorLang
