import Mathlib
import VectorLang.Proofs.Machine.Frames
import VectorLang.Proofs.Machine.Reach
import VectorLang.Proofs.Scope.Place

/-!
# The variables of a frame

The check of names is about the functions that a text declares one in the other, while a run
writes to the frame of the innermost call.  The two fit because the node that is evaluated always
stands in the body of the function that was called last.  So every frame binds names of its own
function only, and no parameter of an open call is written to.

* `Machine.Runs`                               the innermost call is one of a given function
* `Machine.Runs.writtenOwn`, `writtenGlobal`   what an assignment in its body keeps
* `keepsCall_eval`, `keepsCall_evalBody`       what evaluations in its body keep
* `frames_scoped`                              all states of a run
-/

namespace VectorLang

open Exec

/-! ## Names that are bound -/

namespace Bindings

variable {b : Bindings} {name x : String} {v : Value}

/-- The names that are bound. -/
def keys (b : Bindings) : List String := b.entries.map Prod.fst

theorem mem_keys : x ∈ b.keys ↔ (b.get? x).isSome := by
  rw [get?, List.lookup_isSome_iff, keys, List.mem_map]
  constructor
  · rintro ⟨entry, hentry, rfl⟩
    exact ⟨entry, hentry, beq_self_eq_true _⟩
  · rintro ⟨entry, hentry, hx⟩
    exact ⟨entry, hentry, (beq_iff_eq.mp hx).symm⟩

@[simp] theorem keys_empty : empty.keys = [] := rfl

@[simp] theorem mem_keys_set : x ∈ (b.set name v).keys ↔ x = name ∨ x ∈ b.keys := by
  rw [mem_keys, mem_keys, get?_set]
  by_cases hx : x = name <;> simp [hx]

@[simp] theorem mem_keys_erase : x ∈ (b.erase name).keys ↔ x ∈ b.keys ∧ x ≠ name := by
  rw [mem_keys, mem_keys, get?_erase]
  by_cases hx : x = name <;> simp [hx]

end Bindings

/-! ### Arguments -/

/-- Binds a parameter to the value of its argument, if there is one. -/
def Exec.bindArgument (ev : Evaluator) (bound : Bindings) (pair : String × Node) :
    Exec Bindings := do
  match ← ev pair.2 with
  | some v => return bound.set pair.1 v
  | none => return bound

theorem evalArguments_eq (ev : Evaluator) (params : List String) (args : List Node) :
    evalArguments ev params args = (params.zip args).foldlM (bindArgument ev) .empty := rfl

section

variable {ev : Evaluator} {m m' : Machine} {bound bound' vars : Bindings}

theorem mem_keys_of_bindArgument {pair : String × Node}
    (h : bindArgument ev bound pair m = .ok bound' m') :
    ∃ v, ev pair.2 m = .ok v m' ∧
      ∀ x, x ∈ bound'.keys ↔ x ∈ bound.keys ∨ (x = pair.1 ∧ v.isSome) := by
  obtain ⟨v, m₁, hv, h⟩ := bind_eq_ok.mp h
  cases v with
  | none =>
    cases h
    exact ⟨none, hv, by simp⟩
  | some v =>
    cases h
    exact ⟨some v, hv, by simp [or_comm]⟩

/-- Every name that is bound after the arguments is a parameter.  Every parameter is bound if
    all arguments have values. -/
private theorem mem_keys_of_foldlM {pairs : List (String × Node)}
    (h : pairs.foldlM (bindArgument ev) bound m = .ok vars m') :
    (∀ x ∈ vars.keys, x ∈ bound.keys ∨ x ∈ pairs.map Prod.fst) ∧
    ((∀ arg ∈ pairs.map Prod.snd, ∀ m m' v, ev arg m = .ok v m' → v.isSome) →
      ∀ x, x ∈ bound.keys ∨ x ∈ pairs.map Prod.fst → x ∈ vars.keys) := by
  induction pairs generalizing bound m with
  | nil =>
    cases h
    simp
  | cons pair pairs ih =>
    rw [List.foldlM_cons] at h
    obtain ⟨bound', m₁, hbind, h⟩ := bind_eq_ok.mp h
    obtain ⟨v, hv, hkeys⟩ := mem_keys_of_bindArgument hbind
    obtain ⟨hparams, hbound⟩ := ih h
    constructor
    · intro x hx
      rcases hparams x hx with hx | hx
      · rcases (hkeys x).mp hx with hx | ⟨rfl, _⟩
        · exact Or.inl hx
        · exact Or.inr List.mem_cons_self
      · exact Or.inr (List.mem_cons_of_mem _ hx)
    · intro hargs x hx
      have hsome : v.isSome := hargs _ List.mem_cons_self _ _ _ hv
      apply hbound fun arg harg => hargs arg (List.mem_cons_of_mem _ harg)
      rw [List.map_cons, List.mem_cons] at hx
      rw [hkeys]
      tauto

theorem mem_params_of_evalArguments {params : List String} {args : List Node}
    (h : evalArguments ev params args m = .ok vars m') {x : String} (hx : x ∈ vars.keys) :
    x ∈ params := by
  rw [evalArguments_eq] at h
  rcases (mem_keys_of_foldlM h).1 x hx with hx | hx
  · cases hx
  · obtain ⟨pair, hpair, rfl⟩ := List.mem_map.mp hx
    exact (List.of_mem_zip hpair).1

/-- If all arguments have values, and there is one for each parameter, the parameters are bound. -/
theorem mem_keys_evalArguments {params : List String} {args : List Node}
    (h : evalArguments ev params args m = .ok vars m') (hlength : params.length ≤ args.length)
    (hargs : ∀ arg ∈ args, ∀ m m' v, ev arg m = .ok v m' → v.isSome) {x : String} :
    x ∈ vars.keys ↔ x ∈ params := by
  refine ⟨mem_params_of_evalArguments h, fun hx => ?_⟩
  rw [evalArguments_eq] at h
  apply (mem_keys_of_foldlM h).2
  · intro arg harg
    obtain ⟨pair, hpair, rfl⟩ := List.mem_map.mp harg
    exact hargs _ (List.of_mem_zip hpair).2
  · rw [List.map_fst_zip hlength]
    exact Or.inr hx

end

/-! ### Writes -/

namespace Machine

section

variable (m : Machine) (isGlobal : Bool) (name : String) (v : Option Value)

/-- A variable that is written is bound if it is given a value. -/
theorem mem_keys_written (x : String) :
    x ∈ ((m.written isGlobal name v).stack.owner isGlobal).vars.keys ↔
      (x = name ∧ v.isSome) ∨ (x ≠ name ∧ x ∈ (m.stack.owner isGlobal).vars.keys) := by
  have hown (f : Frame → Frame) : (m.stack.modifyOwner isGlobal f).owner isGlobal =
      f (m.stack.owner isGlobal) := by
    cases isGlobal <;> rfl
  cases v with
  | none =>
    simp only [written, hown]
    show x ∈ (Bindings.erase _ name).keys ↔ _
    simp [and_comm]
  | some w =>
    simp only [written, hown]
    show x ∈ (Bindings.set _ name w).keys ↔ _
    by_cases hx : x = name <;> simp [hx]

theorem owner_written_of_ne :
    (m.written isGlobal name v).stack.owner (!isGlobal) = m.stack.owner (!isGlobal) := by
  cases isGlobal <;> cases v <;> rfl

theorem below_written : (m.written isGlobal name v).stack.below = m.stack.below := by
  cases isGlobal <;> cases v <;> rfl

theorem sameCall_top_written :
    m.stack.top.SameCall (m.written isGlobal name v).stack.top := by
  cases isGlobal <;> cases v <;> exact ⟨rfl, rfl, rfl⟩

variable {name}

/-- The other variables are left alone. -/
theorem get?_written {x : String} (hx : x ≠ name) :
    ((m.written isGlobal name v).stack.owner isGlobal).vars.get? x =
      (m.stack.owner isGlobal).vars.get? x := by
  cases isGlobal <;> cases v
  · exact (Bindings.get?_erase ..).trans (if_neg hx)
  · exact (Bindings.get?_set ..).trans (if_neg hx)
  · exact (Bindings.get?_erase ..).trans (if_neg hx)
  · exact (Bindings.get?_set ..).trans (if_neg hx)

end

end Machine

/-! ## States of a run -/

namespace Context

variable (ctx : Context)

/-- Whether running the body of a function from a state evaluates a node in a state. -/
def ReachesFrom (fuel : Nat) (d : Definition Node) (m : Machine) (node : Node) (m' : Machine) :
    Prop :=
  ∀ stop, evalBody (evalStopped ctx (node, m') stop fuel) d m = .error stop m'

/-- Whether a call that is evaluated in a state opens a frame for a function: the arguments have
    been evaluated, and the body of the function comes next. -/
inductive Pushes : Node → Machine → Scope → Machine → Prop where
  | call {n : Nat} {location : Location} {isGlobal : Bool} {name : String} {args : List Node}
      {scope : Scope} {vars : Bindings} {snapshot : Option (List (String × String))}
      {m m₁ : Machine} :
      m.stack.depth ≤ maxDepth → ctx.scopes.get? name = some scope →
      evalArguments (eval ctx n) scope.params args m.numbered = .ok vars m₁ →
      log ctx (.call name) location m₁ = .ok () (m₁.logged (.call name) location snapshot) →
      Pushes (.call location isGlobal name args) m scope
        (m₁.opened ⟨name, vars, m.frameCount, some location⟩ location snapshot)

/-- The states that running the body of a function from a state comes to: those that a node is
    evaluated in, those that evaluating it leaves, those that a call opens its frame in, and the
    last one. -/
inductive VisitsFrom (fuel : Nat) (d : Definition Node) (m : Machine) : Machine → Prop where
  | evaluates {node : Node} {m' : Machine} : ctx.ReachesFrom fuel d m node m' →
      VisitsFrom fuel d m m'
  | leaves {node : Node} {m' : Machine} (n : Nat) : ctx.ReachesFrom fuel d m node m' →
      VisitsFrom fuel d m (final (eval ctx n node m'))
  | opens {node : Node} {m' m'' : Machine} {scope : Scope} : ctx.ReachesFrom fuel d m node m' →
      ctx.Pushes node m' scope m'' → VisitsFrom fuel d m m''
  | ends : VisitsFrom fuel d m (final (evalBody (eval ctx fuel) d m))

/-- The states of a run. -/
def Visits (fuel : Nat) (m : Machine) : Prop :=
  ctx.VisitsFrom fuel ctx.scopes.global.definition ctx.start m

end Context

/-! ## Frames -/

/-- Whether a function gives a value to a variable of its own. -/
def Definition.Assigns (d : Definition Node) (name : String) : Prop :=
  ∃ location value, d.Owns (.assign location false name (some value))

/-- Whether a program gives a value to a global variable. -/
def Program.AssignsGlobal (p : Program) (name : String) : Prop :=
  ∃ location value, p.Contains (.assign location true name (some value))

/-- Whether a frame binds names of its function only, none of them global: its parameters, and
    the variables that its body assigns to. -/
def Frame.Scoped (table : ScopeTable) (f : Frame) : Prop :=
  ∃ scope, table.get? f.name = some scope ∧
    ∀ x ∈ f.vars.keys, isGlobalName x = false ∧
      (x ∈ scope.definition.params ∨ scope.definition.Assigns x)

/-- Whether all frames of a state bind such names, and the globals names that the program assigns
    to. -/
structure Machine.Scoped (p : Program) (table : ScopeTable) (m : Machine) : Prop where
  globals : ∀ x ∈ m.stack.globals.vars.keys, isGlobalName x = true ∧ p.AssignsGlobal x
  calls : ∀ f ∈ m.stack.top :: m.stack.below, f.Scoped table

/-- Whether two frames are those of one call, with the same parameters. -/
structure Frame.Keeps (table : ScopeTable) (f f' : Frame) : Prop where
  name : f'.name = f.name
  id : f'.id = f.id
  params {scope : Scope} {x : String} : table.get? f.name = some scope →
    x ∈ scope.definition.params → f'.vars.get? x = f.vars.get? x

namespace Frame.Keeps

variable {table : ScopeTable} {f₁ f₂ f₃ : Frame}

theorem refl (f : Frame) : f.Keeps table f := ⟨rfl, rfl, fun _ _ => rfl⟩

theorem trans (h : f₁.Keeps table f₂) (h' : f₂.Keeps table f₃) : f₁.Keeps table f₃ where
  name := h'.name.trans h.name
  id := h'.id.trans h.id
  params hscope hx := (h'.params (h.name ▸ hscope) hx).trans (h.params hscope hx)

end Frame.Keeps

/-! ## Calls -/

namespace Machine

/-- Whether the same call is innermost in two states, with the same parameters and on the same
    frames. -/
structure Stays (table : ScopeTable) (m m' : Machine) : Prop where
  top : m.stack.top.Keeps table m'.stack.top
  below : m'.stack.below = m.stack.below

/-- Whether the call that is innermost in one state is still open in another one, on the same
    frames and with the same parameters, but maybe with further calls on it. -/
def StaysOpen (table : ScopeTable) (m m' : Machine) : Prop :=
  ∃ inner f, m'.stack.top :: m'.stack.below = inner ++ f :: m.stack.below ∧
    m.stack.top.Keeps table f

/-- Whether the innermost call of a state is one of a function. -/
structure Runs (p : Program) (table : ScopeTable) (d : Definition Node) (m : Machine) : Prop
    extends m.Scoped p table where
  function : ∃ scope, table.get? m.stack.top.name = some scope ∧ scope.definition = d

section

variable {p : Program} {table : ScopeTable} {d : Definition Node} {m m₁ m₂ m₃ : Machine}

namespace Stays

theorem of_stack (h : m₁.stack = m.stack) : m.Stays table m₁ :=
  ⟨h ▸ .refl _, h ▸ rfl⟩

theorem trans (h : m₁.Stays table m₂) (h' : m₂.Stays table m₃) : m₁.Stays table m₃ :=
  ⟨h.top.trans h'.top, h'.below.trans h.below⟩

theorem staysOpen (h : m₁.Stays table m₂) : m₁.StaysOpen table m₂ :=
  ⟨[], m₂.stack.top, by rw [h.below, List.nil_append], h.top⟩

end Stays

namespace StaysOpen

theorem trans (h : m₁.StaysOpen table m₂) (h' : m₂.StaysOpen table m₃) :
    m₁.StaysOpen table m₃ := by
  obtain ⟨inner, f, hcalls, hf⟩ := h
  obtain ⟨inner', f', hcalls', hf'⟩ := h'
  cases inner with
  | nil =>
    -- the call is innermost in the second state too
    obtain ⟨rfl, hbelow⟩ := List.cons.inj hcalls
    exact ⟨inner', f', by rw [hcalls', hbelow], hf.trans hf'⟩
  | cons g inner =>
    obtain ⟨_, hbelow⟩ := List.cons.inj hcalls
    exact ⟨inner' ++ f' :: inner, f, by rw [hcalls', hbelow]; simp, hf⟩

/-- A call below the innermost one is not touched. -/
theorem opened {f : Frame} {location : Location} {snapshot : Option (List (String × String))}
    (h : (m₁.opened f location snapshot).StaysOpen table m₂) : m₁.StaysOpen table m₂ := by
  obtain ⟨inner, f', hcalls, _⟩ := h
  exact ⟨inner ++ [f'], m₁.stack.top, by rw [hcalls]; simp [Machine.opened, CallStack.push],
    .refl _⟩

end StaysOpen

namespace Runs

/-- Nothing but the frames matters. -/
theorem congr (h : m.Runs p table d) (hstack : m₁.stack = m.stack) : m₁.Runs p table d where
  globals := hstack ▸ h.globals
  calls := hstack ▸ h.calls
  function := hstack ▸ h.function

/-- The innermost call binds names of its function. -/
theorem mem_keys (h : m.Runs p table d) {x : String} (hx : x ∈ m.stack.top.vars.keys) :
    isGlobalName x = false ∧ (x ∈ d.params ∨ d.Assigns x) := by
  obtain ⟨scope, hscope, hdefinition⟩ := h.function
  obtain ⟨scope', hscope', hkeys⟩ := h.calls _ List.mem_cons_self
  cases hscope.symm.trans hscope'
  rw [hdefinition] at hkeys
  exact hkeys x hx

/-- A global variable is written. -/
theorem writtenGlobal (h : m.Runs p table d) {name : String} {v : Option Value}
    (hname : v.isSome → isGlobalName name = true ∧ p.AssignsGlobal name) :
    (m.written true name v).Runs p table d ∧ m.Stays table (m.written true name v) := by
  have htop : (m.written true name v).stack.top = m.stack.top := owner_written_of_ne m true name v
  have hbelow := below_written m true name v
  refine ⟨⟨⟨?_, ?_⟩, ?_⟩, ?_, hbelow⟩
  · intro x hx
    rcases (mem_keys_written m true name v x).mp hx with ⟨rfl, hv⟩ | ⟨_, hx⟩
    · exact hname hv
    · exact h.globals x hx
  · rw [htop, hbelow]
    exact h.calls
  · rw [htop]
    exact h.function
  · rw [htop]
    exact .refl _

/-- A variable of the innermost call is written that is no parameter. -/
theorem writtenOwn (h : m.Runs p table d) {name : String} {v : Option Value}
    (hparam : name ∉ d.params) (hname : v.isSome → isGlobalName name = false ∧ d.Assigns name) :
    (m.written false name v).Runs p table d ∧ m.Stays table (m.written false name v) := by
  have hglobals : (m.written false name v).stack.globals = m.stack.globals :=
    owner_written_of_ne m false name v
  have hbelow := below_written m false name v
  have htop := sameCall_top_written m false name v
  obtain ⟨scope, hscope, hdefinition⟩ := h.function
  have hscoped : (m.written false name v).stack.top.Scoped table := by
    refine ⟨scope, by rw [htop.name, hscope], fun x hx => ?_⟩
    rw [hdefinition]
    rcases (mem_keys_written m false name v x).mp hx with ⟨rfl, hv⟩ | ⟨_, hx⟩
    · exact ⟨(hname hv).1, Or.inr (hname hv).2⟩
    · exact h.mem_keys hx
  refine ⟨⟨⟨?_, ?_⟩, ?_⟩, ⟨htop.name, htop.id, ?_⟩, hbelow⟩
  · rw [hglobals]
    exact h.globals
  · rw [hbelow]
    exact List.forall_mem_cons.mpr ⟨hscoped, fun f hf => h.calls f (List.mem_cons_of_mem _ hf)⟩
  · rw [htop.name]
    exact h.function
  · -- what is written is no parameter
    intro scope' x hscope' hx
    cases hscope.symm.trans hscope'
    rw [hdefinition] at hx
    apply get?_written m false v
    intro heq
    exact hparam (heq ▸ hx)

/-- An assignment in the body of a function is to a variable of that function, or to a global
    one, and to no parameter. -/
theorem written (h : m.Runs p table d) (hp : p.Checked table)
    (hd : d ∈ entered p.events) {location : Location} {isGlobal : Bool} {name : String}
    {value : Option Node} (hnode : d.Owns (.assign location isGlobal name value))
    {v : Option Value} (hv : value = none → v = none) :
    (m.written isGlobal name v).Runs p table d ∧ m.Stays table (m.written isGlobal name v) := by
  obtain ⟨hglobal, hparam⟩ := hnode.assign hp.shape hp.names hd
  -- a value that is written is that of an expression
  have hvalue (hsome : v.isSome) : ∃ e, value = some e := by
    cases value with
    | none => simp [hv rfl] at hsome
    | some e => exact ⟨e, rfl⟩
  cases isGlobal with
  | true =>
    apply h.writtenGlobal
    intro hsome
    obtain ⟨e, rfl⟩ := hvalue hsome
    exact ⟨hglobal.symm, location, e, hnode.contains hd⟩
  | false =>
    apply h.writtenOwn hparam
    intro hsome
    obtain ⟨e, rfl⟩ := hvalue hsome
    exact ⟨hglobal.symm, location, e, hnode⟩

/-- A call that is opened runs its function, whose parameters are bound. -/
theorem opened (h : m.Scoped p table) (hp : p.Checked table) {name : String} {scope : Scope}
    (hscope : table.get? name = some scope) {vars : Bindings}
    (hvars : ∀ x ∈ vars.keys, x ∈ scope.params) {id : Nat} {location : Location}
    {snapshot : Option (List (String × String))} :
    (m.opened ⟨name, vars, id, some location⟩ location snapshot).Runs p table
      scope.definition := by
  obtain ⟨hentered, hparams⟩ := hp.entered_of_get? hscope
  have hf : Frame.Scoped table ⟨name, vars, id, some location⟩ := by
    refine ⟨scope, hscope, fun x hx => ?_⟩
    have hx := hvars x hx
    rw [hparams] at hx
    exact ⟨(hp.shape.definition_of_mem hentered).2 x hx, Or.inl hx⟩
  exact ⟨⟨h.globals, List.forall_mem_cons.mpr ⟨hf, h.calls⟩⟩, scope, hscope, rfl⟩

/-- Closing a call uncovers the one that it was opened on. -/
theorem closed {f : Frame} {location : Location} {snapshot : Option (List (String × String))}
    (h : m₁.Runs p table d) (h' : m₂.Scoped p table)
    (hstays : (m₁.opened f location snapshot).Stays table m₂) :
    m₂.closed.Runs p table d ∧ m₁.Stays table m₂.closed := by
  have hbelow : m₂.stack.below = m₁.stack.top :: m₁.stack.below := hstays.below
  -- only the globals may have changed
  have hpop : m₂.closed.stack = { m₁.stack with globals := m₂.stack.globals } := by
    show m₂.stack.pop = _
    rw [CallStack.pop, hbelow]
  refine ⟨⟨⟨?_, ?_⟩, ?_⟩, ?_, ?_⟩
  · rw [hpop]
    exact h'.globals
  · rw [hpop]
    exact h.calls
  · rw [hpop]
    exact h.function
  · rw [hpop]
    exact .refl _
  · rw [hpop]

end Runs

end

end Machine

/-! ## Evaluations -/

/-- A reason to stop that no node gives. -/
def Stop.marker : Stop := .fault ⟨.predicateAsValue, none⟩

section

variable {p : Program} {table : ScopeTable} {verbose : Bool} {place : Node × Machine}

/-- Whether an evaluation that stops does so in a state whose frames bind their own names, with
    the innermost call of a state still open.  If it was stopped at a place, that is one in the
    function that runs there. -/
structure StopsIn (p : Program) (table : ScopeTable) (place : Node × Machine) (m : Machine)
    (e : Stop) (m' : Machine) : Prop where
  frames : m'.Scoped p table
  stays : m.StaysOpen table m'
  place : e = .marker → m' = place.2 ∧
    ∃ d, d ∈ entered p.events ∧ d.Owns place.1 ∧ m'.Runs p table d

/-- What evaluations in the body of a function keep. -/
def KeepsCall (p : Program) (table : ScopeTable) (place : Node × Machine) (d : Definition Node)
    {α : Type} (x : Exec α) : Prop :=
  Within (fun m m' => m.Runs p table d → m'.Runs p table d ∧ m.Stays table m')
    (fun m e m' => m.Runs p table d → StopsIn p table place m e m') x

theorem composes_keepsCall (d : Definition Node) :
    Composes (fun m m' => m.Runs p table d → m'.Runs p table d ∧ m.Stays table m')
      (fun m e m' => m.Runs p table d → StopsIn p table place m e m') where
  refl m hm := ⟨hm, .of_stack rfl⟩
  trans h h' hm := by
    obtain ⟨hm₂, hstays⟩ := h hm
    obtain ⟨hm₃, hstays'⟩ := h' hm₂
    exact ⟨hm₃, hstays.trans hstays'⟩
  after h h' hm := by
    obtain ⟨hm₂, hstays⟩ := h hm
    have hstop := h' hm₂
    exact ⟨hstop.frames, hstays.staysOpen.trans hstop.stays, hstop.place⟩

/-- A computation that stops at once, for a reason of its own. -/
theorem stopsIn_self {d : Definition Node} {m : Machine} {e : Stop} (he : e ≠ .marker)
    (hm : m.Runs p table d) : StopsIn p table place m e m :=
  ⟨hm.toScoped, (Machine.Stays.of_stack rfl).staysOpen, fun h => absurd h he⟩

/-- What the rule of a node in the body of a function keeps. -/
theorem ruleTransition_keepsCall (hp : p.Checked table) {ev : Evaluator} {d : Definition Node}
    (hd : d ∈ entered p.events) {node : Node} (hnode : d.Owns node)
    (hparts : ∀ c ∈ node.parts, KeepsCall p table place d (ev c))
    (hbody : ∀ d ∈ entered p.events, KeepsCall p table place d (evalBody ev d)) :
    RuleTransition ⟨table, verbose⟩ ev node (fun _ _ => True)
      (fun m m' => m.Runs p table d → m'.Runs p table d ∧ m.Stays table m')
      (fun m e m' => m.Runs p table d → StopsIn p table place m e m') where
  toComposes := composes_keepsCall d
  logged m _ _ _ hm := ⟨hm.congr rfl, .of_stack rfl⟩
  printed m _ hm := ⟨hm.congr rfl, .of_stack rfl⟩
  numbered m hm := ⟨hm.congr rfl, .of_stack rfl⟩
  unshown m hm := stopsIn_self (by simp [Machine.unshown, Stop.marker]) hm
  part hc := hparts _ hc
  post _ _ := trivial
  written m v heq hv hm := hm.written hp hd (heq ▸ hnode) hv
  raised _ _ hm := stopsIn_self (by simp [Stop.marker]) hm
  outOfFuel m _ hm := stopsIn_self (by simp [Stop.marker]) hm
  closed _ _ hscope hargs hR hv hm := by
    obtain ⟨hm₁, hstays⟩ := hR hm
    have hentered := (hp.entered_of_get? hscope).1
    obtain ⟨hm₂, hstays₂⟩ := (hbody _ hentered).ok hv
      (.opened hm₁.toScoped hp hscope fun _ hx => mem_params_of_evalArguments hargs hx)
    obtain ⟨hclosed, hstays'⟩ := hm₁.closed hm₂.toScoped hstays₂
    exact ⟨hclosed, hstays.trans hstays'⟩
  notClosed _ _ hscope hargs hR he hm := by
    obtain ⟨hm₁, hstays⟩ := hR hm
    have hentered := (hp.entered_of_get? hscope).1
    have hstop := (hbody _ hentered).error he
      (.opened hm₁.toScoped hp hscope fun _ hx => mem_params_of_evalArguments hargs hx)
    exact ⟨hstop.frames, hstays.staysOpen.trans hstop.stays.opened, hstop.place⟩

/-- Such an evaluation leaves frames that bind their own names, with the call still open. -/
theorem KeepsCall.final {α : Type} {d : Definition Node} {x : Exec α}
    (h : KeepsCall p table place d x) {m : Machine} (hm : m.Runs p table d) :
    (final (x m)).Scoped p table ∧ m.StaysOpen table (final (x m)) := by
  cases hx : x m with
  | ok a m' =>
    obtain ⟨hm', hstays⟩ := h.ok hx hm
    exact ⟨hm'.toScoped, hstays.staysOpen⟩
  | error e m' =>
    have hstop := h.error hx hm
    exact ⟨hstop.frames, hstop.stays⟩

/-- What the statements of a function keep. -/
theorem keepsCall_evalBody {ev : Evaluator} {d : Definition Node}
    (hev : ∀ node, d.Owns node → KeepsCall p table place d (ev node)) :
    KeepsCall p table place d (evalBody ev d) :=
  (composes_keepsCall d).within_evalBody fun _ hs hfunction =>
    hev _ (Definition.owns_of_mem hs hfunction)

/-- What every evaluation of a node in the body of a function keeps, also if it may be stopped at
    a place. -/
theorem keepsCall_eval (hp : p.Checked table) {ev : Nat → Evaluator}
    (hev : StopsAt ⟨table, verbose⟩ place .marker ev) (n : Nat) {d : Definition Node}
    (hd : d ∈ entered p.events) {node : Node} (hnode : d.Owns node) :
    KeepsCall p table place d (ev n node) := by
  induction n generalizing d node with
  | zero =>
    rw [hev.zero]
    exact within_throw fun m hm => stopsIn_self (by simp [Stop.marker]) hm
  | succ n ih =>
    have hrule : RuleTransition ⟨table, verbose⟩ (ev n) node _ _ _ :=
      ruleTransition_keepsCall hp hd hnode (fun c hc => ih hd (hnode.part hc))
        fun d hd => keepsCall_evalBody fun _ hnode => ih hd hnode
    apply hev.within (hrule.within n)
    -- where it is stopped, the function that runs is the one of the node
    rintro m rfl hm
    exact ⟨hm.toScoped, (Machine.Stays.of_stack rfl).staysOpen, fun _ => ⟨rfl, d, hd, hnode, hm⟩⟩

/-! ## Runs -/

section

variable (hp : p.Checked table)
include hp

/-- The node that is evaluated stands in the function that runs. -/
theorem stopsIn_of_reachesFrom {fuel : Nat} {d : Definition Node} (hd : d ∈ entered p.events)
    {m m' : Machine} {node : Node} (hm : m.Runs p table d)
    (h : Context.ReachesFrom ⟨table, verbose⟩ fuel d m node m') :
    m.StaysOpen table m' ∧
      ∃ d', d' ∈ entered p.events ∧ d'.Owns node ∧ m'.Runs p table d' := by
  have hbody : KeepsCall p table (node, m') d
      (evalBody (evalStopped ⟨table, verbose⟩ (node, m') .marker fuel) d) :=
    keepsCall_evalBody fun _ hnode =>
      keepsCall_eval hp stopsAt_evalStopped fuel hd hnode
  -- no node stops for this reason, so that it was stopped at the place
  have hstop := hbody.error (h .marker) hm
  exact ⟨hstop.stays, (hstop.place rfl).2⟩

/-- A call that opens a frame runs its function there, on the frames that were there before. -/
theorem runs_of_pushes {d : Definition Node} (hd : d ∈ entered p.events) {node : Node}
    (hnode : d.Owns node) {m m' : Machine} {scope : Scope} (hm : m.Runs p table d)
    (h : Context.Pushes ⟨table, verbose⟩ node m scope m') :
    m'.Runs p table scope.definition ∧ scope.definition ∈ entered p.events ∧
      m.StaysOpen table m' := by
  obtain @⟨n, location, isGlobal, name, args, scope, vars, snapshot, m, m₁, _, hscope, hargs, _⟩ :=
    h
  have hvars : KeepsCall p table (.int default 0, m) d
      (evalArguments (eval ⟨table, verbose⟩ n) scope.params args) :=
    @Sequential.arguments _ (composes_keepsCall d).sequential _ (eval ⟨table, verbose⟩ n) args
      (fun arg harg => keepsCall_eval hp stopsAt_eval n hd (hnode.part harg)) _
  obtain ⟨hm₁, hstays⟩ := hvars.ok hargs (hm.congr rfl)
  have hopened : (m₁.opened ⟨name, vars, m.frameCount, some location⟩ location snapshot).Runs p
      table scope.definition :=
    Machine.Runs.opened hm₁.toScoped hp hscope
      fun x hx => mem_params_of_evalArguments hargs hx
  have hopen : m₁.StaysOpen table
      (m₁.opened ⟨name, vars, m.frameCount, some location⟩ location snapshot) :=
    (Machine.Stays.of_stack rfl).staysOpen.opened
  exact ⟨hopened, (hp.entered_of_get? hscope).1, hstays.staysOpen.trans hopen⟩

/-- In every state that running the body of a function comes to, the frames bind their own names,
    and the call of that function is still open. -/
theorem scoped_of_visitsFrom {fuel : Nat} {d : Definition Node} (hd : d ∈ entered p.events)
    {m m' : Machine} (hm : m.Runs p table d)
    (h : Context.VisitsFrom ⟨table, verbose⟩ fuel d m m') :
    m'.Scoped p table ∧ m.StaysOpen table m' := by
  have heval (n : Nat) {d : Definition Node} (hd : d ∈ entered p.events) (node : Node)
      (hnode : d.Owns node) : KeepsCall p table (.int default 0, m) d
        (eval ⟨table, verbose⟩ n node) :=
    keepsCall_eval hp stopsAt_eval n hd hnode
  cases h with
  | evaluates hreach =>
    obtain ⟨hstays, _, _, _, hm'⟩ := stopsIn_of_reachesFrom hp hd hm hreach
    exact ⟨hm'.toScoped, hstays⟩
  | leaves n hreach =>
    obtain ⟨hstays, d', hd', hnode, hm'⟩ := stopsIn_of_reachesFrom hp hd hm hreach
    obtain ⟨hscoped, hstays'⟩ := (heval n hd' _ hnode).final hm'
    exact ⟨hscoped, hstays.trans hstays'⟩
  | opens hreach hpushes =>
    obtain ⟨hstays, d', hd', hnode, hm'⟩ := stopsIn_of_reachesFrom hp hd hm hreach
    obtain ⟨hm'', _, hstays'⟩ := runs_of_pushes hp hd' hnode hm' hpushes
    exact ⟨hm''.toScoped, hstays.trans hstays'⟩
  | ends => exact (keepsCall_evalBody (heval fuel hd)).final hm

end

/-- At the start of a run the program runs, and nothing is bound. -/
theorem runs_start (hp : p.Checked table) :
    (Context.start ⟨table, verbose⟩).Runs p table p.block := by
  obtain ⟨hblock, scope, hscope, hdefinition⟩ := hp.exists_scope_block
  have hname : (Context.start ⟨table, verbose⟩).stack.top.name = p.block.name := by
    rw [← hblock]
    rfl
  rw [← hname] at hscope
  refine ⟨⟨fun x hx => absurd hx List.not_mem_nil, ?_⟩, scope, hscope, hdefinition⟩
  intro f hf
  obtain rfl := List.mem_singleton.mp hf
  exact ⟨scope, hscope, fun x hx => absurd hx List.not_mem_nil⟩

/-- In every state of a run, the globals bind only global names that the program assigns to, and
    any other frame only names of its function that are not global: its parameters, and the
    variables that its own body assigns to.  From the moment that a call opens its frame, and as
    long as the body of its function runs, that frame lies on the same frames and its parameters
    are bound as they were then, or not bound as they were not. -/
theorem frames_scoped {text file : String} {verbose : Bool} {fuel : Nat}
    (hparse : parse text file = .ok p) (hanalyze : analyze p = .ok table) :
    (∀ m, Context.Visits ⟨table, verbose⟩ fuel m →
      (∀ x ∈ m.stack.globals.vars.keys, isGlobalName x = true ∧ p.AssignsGlobal x) ∧
      ∀ f ∈ m.stack.top :: m.stack.below, ∃ scope, table.get? f.name = some scope ∧
        ∀ x ∈ f.vars.keys, isGlobalName x = false ∧
          (x ∈ scope.definition.params ∨ scope.definition.Assigns x)) ∧
    ∀ node m scope m₁ n m₂, Context.Reaches ⟨table, verbose⟩ fuel node m →
      Context.Pushes ⟨table, verbose⟩ node m scope m₁ →
      Context.VisitsFrom ⟨table, verbose⟩ n scope.definition m₁ m₂ →
      ∃ inner f, m₂.stack.top :: m₂.stack.below = inner ++ f :: m₁.stack.below ∧
        f.id = m₁.stack.top.id ∧
        ∀ x ∈ scope.definition.params, f.vars.get? x = m₁.stack.top.vars.get? x := by
  have hp := Program.Checked.of_parse hparse hanalyze
  have hblock : table.global.definition = p.block := hp.exists_scope_block.1
  have hentered := p.block_mem_entered
  constructor
  · intro m hm
    rw [Context.Visits, hblock] at hm
    have hscoped := (scoped_of_visitsFrom hp hentered (runs_start hp) hm).1
    exact ⟨hscoped.globals, hscoped.calls⟩
  · intro node m scope m₁ n m₂ hreach hpushes hvisits
    have hfrom : Context.ReachesFrom ⟨table, verbose⟩ fuel p.block (Context.start ⟨table, verbose⟩)
        node m := by
      rw [← hblock]
      exact hreach
    obtain ⟨_, d, hd, hnode, hm⟩ :=
      stopsIn_of_reachesFrom hp hentered (runs_start hp) hfrom
    obtain ⟨hm₁, hd₁, _⟩ := runs_of_pushes hp hd hnode hm hpushes
    obtain ⟨_, inner, f, hcalls, hkeeps⟩ := scoped_of_visitsFrom hp hd₁ hm₁ hvisits
    refine ⟨inner, f, hcalls, hkeeps.id, fun x hx => ?_⟩
    -- the frame is named after a function that has the scope
    obtain ⟨scope', hscope', hdefinition⟩ := hm₁.function
    rw [← hdefinition] at hx
    exact hkeeps.params hscope' hx

end

/-- A function that sets a variable to its parameter. -/
def copier : Definition Node :=
  let set (column : Nat) : Location := ⟨"", 3, column, "X <- A"⟩
  ⟨⟨"", 2, 1, "BEGIN F(A)"⟩, false, "F", ["A"],
    [.assign (set 1) false "X" (some (.vector (set 6) [.var (set 6) false "A" none]))]⟩

/-- A call of that function. -/
def copierCall : Node :=
  let call (column : Nat) : Location := ⟨"", 5, column, "F(1)"⟩
  .call (call 1) false "F" [.vector (call 3) [.int (call 3) 1]]

/-- A program that calls the function. -/
def copying : Program :=
  let start : Location := ⟨"", 1, 1, "BEGIN P"⟩
  ⟨start, "P", ⟨start, false, "P", [],
    [.function copier, .output copierCall.location copierCall]⟩⟩

/-- The scopes of that program. -/
def copyingTable : ScopeTable where
  global := ⟨[], copying.block, ["P"], []⟩
  functions := [("P", ⟨[], copying.block, ["P", "F"], []⟩), ("F", ⟨["A"], copier, ["F"], ["X"]⟩)]

/-- The state that the call is evaluated in. -/
def copyingCalled : Machine :=
  (Context.start ⟨copyingTable, false⟩).logged (.node "OutputExpression") copierCall.location none

/-- The state that the call opens its frame in. -/
def copyingOpened : Machine :=
  copyingCalled.numbered.opened
    ⟨"F", Bindings.empty.set "A" (.ints [1]), 2, some copierCall.location⟩ copierCall.location none

theorem parse_copying :
    parse "BEGIN P\nBEGIN F(A)\nX <- A\nEND\nF(1)\nEND" "" = .ok copying := by cbv

theorem analyze_copying : analyze copying = .ok copyingTable := by rfl

theorem reaches_copierCall :
    Context.Reaches ⟨copyingTable, false⟩ 2 copierCall copyingCalled := by
  intro stop
  have hne : (Node.output copierCall.location copierCall,
      Context.start ⟨copyingTable, false⟩) ≠ (copierCall, copyingCalled) := by
    simp [copierCall]
  have hlog : log ⟨copyingTable, false⟩ (.node "OutputExpression") copierCall.location
      (Context.start ⟨copyingTable, false⟩) = .ok () copyingCalled := by rfl
  have houtput : evalStopped ⟨copyingTable, false⟩ (copierCall, copyingCalled) stop 2
      (.output copierCall.location copierCall) (Context.start ⟨copyingTable, false⟩) =
        .error stop copyingCalled := by
    rw [evalStopped_of_ne hne]
    exact (bind_of_ok hlog).trans (bind_of_error evalStopped_self)
  exact bind_of_error houtput

theorem pushes_copierCall : Context.Pushes ⟨copyingTable, false⟩ copierCall copyingCalled
    ⟨["A"], copier, ["F"], ["X"]⟩ copyingOpened := by
  have hargs : evalArguments (eval ⟨copyingTable, false⟩ 2) ["A"]
      [.vector ⟨"", 5, 3, "F(1)"⟩ [.int ⟨"", 5, 3, "F(1)"⟩ 1]] copyingCalled.numbered =
        .ok (Bindings.empty.set "A" (.ints [1])) copyingCalled.numbered := by rfl
  exact .call (by decide) rfl hargs rfl

theorem frames_scoped_copying :
    parse "BEGIN P\nBEGIN F(A)\nX <- A\nEND\nF(1)\nEND" "" = .ok copying ∧
    analyze copying = .ok copyingTable ∧
    ∃ m, Context.VisitsFrom ⟨copyingTable, false⟩ 5 copier copyingOpened m ∧
      "X" ∈ m.stack.top.vars.keys ∧
      ∃ inner f, m.stack.top :: m.stack.below = inner ++ f :: copyingOpened.stack.below ∧
        f.vars.get? "A" = some (.ints [1]) := by
  have hvisits : Context.VisitsFrom ⟨copyingTable, false⟩ 5 copier copyingOpened
      (final (evalBody (eval ⟨copyingTable, false⟩ 5) copier copyingOpened)) := .ends
  obtain ⟨_, hcalls⟩ := frames_scoped parse_copying analyze_copying
  obtain ⟨inner, f, hstack, _, hparams⟩ :=
    hcalls _ _ _ _ 5 _ reaches_copierCall pushes_copierCall hvisits
  have hset : "X" ∈ (final (evalBody (eval ⟨copyingTable, false⟩ 5) copier
      copyingOpened)).stack.top.vars.keys := by decide
  exact ⟨parse_copying, analyze_copying, _, hvisits, hset, inner, f, hstack,
    (hparams "A" List.mem_cons_self).trans rfl⟩

end VectorLang
