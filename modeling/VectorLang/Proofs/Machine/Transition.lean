import VectorLang.Proofs.Machine.Congruence
import VectorLang.Proofs.Scope.Table

/-!
# What an evaluation changes

A relation between the states before and after an evaluation is preserved by every
evaluation if it is by the few basic steps that change a state at all (`Transition`).  The
same holds of what is known of the state in which an evaluation stops.  Calls are the one
exception: what is known of the body of a function, which runs on a larger stack, must carry
over to the call.

Where that is not enough, because what is preserved depends on the node, there is the same for the
rule of one node (`RuleTransition`), to be used in an induction on the fuel.

* `Transition.congruence`   one computation is a relation between computations
* `RuleTransition.within`   the rule of one node
* `within_eval`             every evaluation
* `within_run`              the run of a program
-/

namespace VectorLang

/-! ## Basic steps -/

namespace Exec

/-- Logging a step fails where the variables are to be logged and one cannot be shown. -/
theorem log_eq (ctx : Context) (action : Action) (location : Location) (m : Machine) :
    log ctx action location m =
      match if ctx.verbose then m.stack.top.snapshot?.map some else some none with
      | some snapshot =>
        .ok ()
          { m with log := m.log.push ⟨m.log.size, m.stack.top.id, location, action, snapshot⟩ }
      | none => .error (.fault ⟨.numeralTooLong, m.log.back?.map Step.location⟩) m := by
  obtain ⟨scopes, verbose⟩ := ctx
  cases verbose with
  | false => rfl
  | true =>
    change (some <$> shown m.stack.top.snapshot? >>= _) m = _
    cases h : m.stack.top.snapshot? with
    | none => rfl
    | some snapshot => rfl

/-- A variable is read where it has a value. -/
theorem readVariable_eq (location : Location) (isGlobal : Bool) (name : String) (m : Machine) :
    readVariable location isGlobal name m =
      match (m.stack.owner isGlobal).vars.get? name with
      | some v => .ok v m
      | none => .error (.fault ⟨if isGlobal then .uninitializedGlobal name
          else .undefinedVariable name, some location⟩) m := by
  show ofOption _ location ((m.stack.owner isGlobal).vars.get? name) m = _
  cases (m.stack.owner isGlobal).vars.get? name <;> rfl

/-- A call may be opened where not too many are open. -/
theorem checkDepth_eq (location : Location) (m : Machine) :
    checkDepth location m =
      if maxDepth < m.stack.depth then .error (.fault ⟨.callStackExceeded, some location⟩) m
      else .ok () m := by
  show (if maxDepth < m.stack.depth then fail .callStackExceeded location else pure ()) m = _
  split <;> rfl

/-- A value is shown where it has a text. -/
theorem shown_eq {α : Type} (o : Option α) (m : Machine) :
    shown o m =
      match o with
      | some a => .ok a m
      | none => .error (.fault ⟨.numeralTooLong, m.log.back?.map Step.location⟩) m := by
  cases o <;> rfl

end Exec

namespace Machine

/-- The state after a step of the innermost call was logged. -/
def logged (m : Machine) (action : Action) (location : Location)
    (snapshot : Option (List (String × String))) : Machine :=
  { m with log := m.log.push ⟨m.log.size, m.stack.top.id, location, action, snapshot⟩ }

/-- The state after a variable was given a value, or removed. -/
def written (m : Machine) (isGlobal : Bool) (name : String) : Option Value → Machine
  | some v => { m with stack := m.stack.modifyOwner isGlobal (Frame.setVariable name v) }
  | none => { m with stack := m.stack.modifyOwner isGlobal (Frame.eraseVariable name) }

/-- The state after a frame got its number. -/
def numbered (m : Machine) : Machine :=
  { m with frameCount := m.frameCount + 1 }

/-- The state after a call was logged and opened. -/
def opened (m : Machine) (f : Frame) (location : Location)
    (snapshot : Option (List (String × String))) : Machine :=
  { m.logged (.call f.name) location snapshot with stack := m.stack.push f }

/-- The state after a call was closed. -/
def closed (m : Machine) : Machine :=
  { m with stack := m.stack.pop }

/-- The fault of a number that is too long to be shown. -/
def unshown (m : Machine) : Stop :=
  .fault ⟨.numeralTooLong, m.log.back?.map Step.location⟩

end Machine

/-! ## Calls -/

namespace Exec

variable {ctx : Context} {ev : Evaluator} {location : Location} {name : String}
  {args : List Node} {arguments : Exec Bindings} {body : Exec (Option Value)} {v : Option Value}
  {e : Stop} {m m' : Machine}

/-- What a call does that comes to its end. -/
theorem inFrame_eq_ok (h : inFrame ctx location name arguments body m = .ok v m') :
    ∃ vars m₁ snapshot m₂, arguments m.numbered = .ok vars m₁ ∧
      body (m₁.opened ⟨name, vars, m.frameCount, some location⟩ location snapshot) = .ok v m₂ ∧
      m' = m₂.closed := by
  obtain ⟨_, _, hnumber, h⟩ := bind_eq_ok.mp h
  cases hnumber
  obtain ⟨vars, m₁, hvars, h⟩ := bind_eq_ok.mp h
  obtain ⟨_, _, hlog, h⟩ := bind_eq_ok.mp h
  obtain ⟨_, _, hpush, h⟩ := bind_eq_ok.mp h
  cases hpush
  obtain ⟨result, m₂, hbody, h⟩ := bind_eq_ok.mp h
  cases h
  rw [log_eq] at hlog
  split at hlog
  · cases hlog
    exact ⟨vars, m₁, _, m₂, hvars, hbody, rfl⟩
  · cases hlog

/-- Where a call stops: at an argument, at its step, or in the body of the function. -/
theorem inFrame_eq_error (h : inFrame ctx location name arguments body m = .error e m') :
    arguments m.numbered = .error e m' ∨
      ∃ vars m₁, arguments m.numbered = .ok vars m₁ ∧
        (log ctx (.call name) location m₁ = .error e m' ∨
          ∃ snapshot, body (m₁.opened ⟨name, vars, m.frameCount, some location⟩ location snapshot) =
            .error e m') := by
  rcases bind_eq_error.mp h with hnumber | ⟨_, _, hnumber, h⟩
  · cases hnumber
  cases hnumber
  rcases bind_eq_error.mp h with h | ⟨vars, m₁, hvars, h⟩
  · exact Or.inl h
  rcases bind_eq_error.mp h with h | ⟨_, _, hlog, h⟩
  · exact Or.inr ⟨vars, m₁, hvars, Or.inl h⟩
  rcases bind_eq_error.mp h with hpush | ⟨_, _, hpush, h⟩
  · cases hpush
  cases hpush
  rcases bind_eq_error.mp h with h | ⟨_, _, _, h⟩
  · rw [log_eq] at hlog
    split at hlog
    · cases hlog
      exact Or.inr ⟨vars, m₁, hvars, Or.inr ⟨_, h⟩⟩
    · cases hlog
  -- closing a call does not stop
  · cases h

/-- A call that comes to its end is one of a function that has a scope, and not too many calls
    were open. -/
theorem evalCall_eq_ok (h : evalCall ctx ev location name args m = .ok v m') :
    m.stack.depth ≤ maxDepth ∧ ∃ scope, ctx.scopes.get? name = some scope ∧
      inFrame ctx location name (evalArguments ev scope.params args)
        (evalBody ev scope.definition) m = .ok v m' := by
  rw [evalCall_eq] at h
  obtain ⟨_, _, hdepth, h⟩ := bind_eq_ok.mp h
  rw [checkDepth_eq] at hdepth
  split at hdepth
  · cases hdepth
  · rename_i hle
    cases hdepth
    cases hscope : ctx.scopes.get? name with
    | some scope =>
      rw [hscope] at h
      exact ⟨Nat.le_of_not_lt hle, scope, rfl, h⟩
    | none =>
      rw [hscope] at h
      cases h

/-- A call that stops has too many calls open, or the function has no scope, or else it stops
    after it got a number for its frame. -/
theorem evalCall_eq_error (h : evalCall ctx ev location name args m = .error e m') :
    (maxDepth < m.stack.depth ∧ e = .fault ⟨.callStackExceeded, some location⟩ ∧ m' = m) ∨
    (ctx.scopes.get? name = none ∧ e = .fault ⟨.undefinedFunction name, some location⟩ ∧ m' = m) ∨
    (m.stack.depth ≤ maxDepth ∧ ∃ scope, ctx.scopes.get? name = some scope ∧
      inFrame ctx location name (evalArguments ev scope.params args)
        (evalBody ev scope.definition) m = .error e m') := by
  rw [evalCall_eq] at h
  rcases bind_eq_error.mp h with h | ⟨_, _, hdepth, h⟩
  · rw [checkDepth_eq] at h
    split at h
    · rename_i hlt
      cases h
      exact Or.inl ⟨hlt, rfl, rfl⟩
    · cases h
  · rw [checkDepth_eq] at hdepth
    split at hdepth
    · cases hdepth
    · rename_i hle
      cases hdepth
      cases hscope : ctx.scopes.get? name with
      | some scope =>
        rw [hscope] at h
        exact Or.inr (Or.inr ⟨Nat.le_of_not_lt hle, scope, rfl, h⟩)
      | none =>
        rw [hscope] at h
        cases h
        exact Or.inr (Or.inl ⟨rfl, rfl, rfl⟩)

end Exec

/-! ## Assignments -/

namespace Exec

variable {ev : Evaluator} {isGlobal : Bool} {name : String} {value : Option Node}
  {v : Option Value} {e : Stop} {m m' : Machine}

/-- What an assignment does that comes to its end. -/
theorem evalAssign_eq_ok (h : evalAssign ev isGlobal name value m = .ok v m') :
    ∃ m₁, ((value = none ∧ v = none ∧ m₁ = m) ∨ ∃ c, value = some c ∧ ev c m = .ok v m₁) ∧
      m' = m₁.written isGlobal name v := by
  rw [evalAssign_eq] at h
  obtain ⟨w, m₁, hw, h⟩ := bind_eq_ok.mp h
  obtain ⟨_, m₂, hwrite, h⟩ := bind_eq_ok.mp h
  cases h
  have hwritten : m' = m₁.written isGlobal name v := by
    cases v with
    | none =>
      cases hwrite
      rfl
    | some v =>
      cases hwrite
      rfl
  refine ⟨m₁, ?_, hwritten⟩
  cases value with
  | none =>
    cases hw
    exact Or.inl ⟨rfl, rfl, rfl⟩
  | some c => exact Or.inr ⟨c, rfl, hw⟩

/-- An assignment stops only where its value does. -/
theorem evalAssign_eq_error (h : evalAssign ev isGlobal name value m = .error e m') :
    ∃ c, value = some c ∧ ev c m = .error e m' := by
  rw [evalAssign_eq] at h
  rcases bind_eq_error.mp h with h | ⟨w, m₁, _, h⟩
  · cases value with
    | none => cases h
    | some c => exact ⟨c, rfl, h⟩
  · -- a variable is written without fail
    rcases bind_eq_error.mp h with h | ⟨_, m₂, _, h⟩
    · cases w with
      | none => cases h
      | some w => cases h
    · cases h

end Exec

/-! ## Relations between states -/

/-- A relation `R` between the states before and after a computation that succeeds, and a
    relation `F` between the state before, the reason why it stops and the state that it
    stops in, that hold of one computation after another if they hold of both. -/
structure Composes (R : Machine → Machine → Prop) (F : Machine → Stop → Machine → Prop) :
    Prop where
  refl (m : Machine) : R m m
  trans {m₁ m₂ m₃ : Machine} : R m₁ m₂ → R m₂ m₃ → R m₁ m₃
  after {m₁ m₂ m₃ : Machine} {e : Stop} : R m₁ m₂ → F m₂ e m₃ → F m₁ e m₃

namespace Exec

/-- Whether a computation leads from a state to one that `R` relates to it, or stops in one
    that `F` does. -/
structure Within (R : Machine → Machine → Prop) (F : Machine → Stop → Machine → Prop)
    {α : Type} (x : Exec α) : Prop where
  ok {m m' : Machine} {a : α} : x m = .ok a m' → R m m'
  error {m m' : Machine} {e : Stop} : x m = .error e m' → F m e m'

end Exec

section

open Exec

variable {R : Machine → Machine → Prop} {F : Machine → Stop → Machine → Prop} {α β : Type}

theorem Composes.within_pure (h : Composes R F) (a : α) : Within R F (pure a : Exec α) where
  ok {m _ _} hx := by
    cases hx
    exact h.refl m
  error hx := by cases hx

/-- What comes after a computation is done with a result of it only. -/
theorem Composes.within_bind_result (h : Composes R F) {x : Exec α} {f : α → Exec β}
    (hx : Within R F x) (hf : ∀ a, (∃ m m', x m = .ok a m') → Within R F (f a)) :
    Within R F (x >>= f) where
  ok hm := by
    obtain ⟨a, m, ha, hb⟩ := bind_eq_ok.mp hm
    exact h.trans (hx.ok ha) ((hf a ⟨_, _, ha⟩).ok hb)
  error hm := by
    rcases bind_eq_error.mp hm with he | ⟨a, m, ha, he⟩
    · exact hx.error he
    · exact h.after (hx.ok ha) ((hf a ⟨_, _, ha⟩).error he)

theorem Composes.within_bind (h : Composes R F) {x : Exec α} {f : α → Exec β}
    (hx : Within R F x) (hf : ∀ a, Within R F (f a)) : Within R F (x >>= f) :=
  h.within_bind_result hx fun a _ => hf a

/-- A computation that stops at once. -/
theorem within_throw {e : Stop} (he : ∀ m, F m e m) : Within R F (throw e : Exec α) where
  ok hm := by cases hm
  error {m _ _} hm := by
    cases hm
    exact he m

theorem Composes.sequential (h : Composes R F) : Sequential fun _ x _ => Within R F x where
  pure a := h.within_pure a
  bind hx hf := h.within_bind hx hf

theorem Composes.within_repeatWhile (h : Composes R F) {test : Exec Bool} {body : Exec Unit}
    (htest : Within R F test) (hbody : Within R F body) (hfuel : ∀ m, F m .outOfFuel m) (n : Nat) :
    Within R F (repeatWhile test body n) :=
  @Sequential.repeatWhile _ h.sequential test test body body htest hbody (within_throw hfuel) n

variable {ctx : Context} {ev : Evaluator}

theorem Composes.within_evalBody (h : Composes R F) {d : Definition Node}
    (hev : ∀ s ∈ d.body, s.isFunction = false → Within R F (ev s)) :
    Within R F (evalBody ev d) := by
  apply @Sequential.statements _ h.sequential ev ev
  intro s hs
  obtain ⟨hs, hfunction⟩ := List.mem_filter.mp hs
  exact hev s hs (by simpa using hfunction)

/-! ### Basic steps -/

theorem Composes.within_readVariable (h : Composes R F) {location : Location} {isGlobal : Bool}
    {name : String}
    (hnone : ∀ m : Machine, (m.stack.owner isGlobal).vars.get? name = none →
      F m (.fault ⟨if isGlobal then .uninitializedGlobal name else .undefinedVariable name,
        some location⟩) m) : Within R F (readVariable location isGlobal name) := by
  constructor
  · intro m m' a hm
    rw [readVariable_eq] at hm
    split at hm
    · cases hm
      exact h.refl m
    · cases hm
  · intro m m' e hm
    rw [readVariable_eq] at hm
    split at hm
    · cases hm
    · rename_i hv
      cases hm
      exact hnone _ hv

theorem within_log {action : Action} {location : Location}
    (hlogged : ∀ m snapshot, R m (m.logged action location snapshot))
    (hnotLogged : ∀ m : Machine, ctx.verbose = true → m.stack.top.snapshot? = none →
      F m m.unshown m) : Within R F (log ctx action location) := by
  constructor
  · intro m m' a hm
    rw [log_eq] at hm
    split at hm
    · cases hm
      exact hlogged m _
    · cases hm
  · intro m m' e hm
    rw [log_eq] at hm
    split at hm
    · cases hm
    · rename_i hsnapshot
      cases hm
      cases hverbose : ctx.verbose with
      | false => simp [hverbose] at hsnapshot
      | true => exact hnotLogged _ hverbose (by simpa [hverbose] using hsnapshot)

theorem within_writeVariable {isGlobal : Bool} {name : String} {v : Option Value}
    (hwritten : ∀ m, R m (m.written isGlobal name v)) :
    Within R F (writeVariable isGlobal name v) := by
  constructor
  · intro m m' a hm
    have hwritten := hwritten m
    cases v with
    | some v =>
      cases hm
      exact hwritten
    | none =>
      cases hm
      exact hwritten
  · intro m m' e hm
    cases v with
    | some v => cases hm
    | none => cases hm

theorem Composes.within_evalOutput (h : Composes R F) {value : Node}
    (hvalue : Within R F (ev value))
    (hprinted : ∀ (m : Machine) line, R m { m with output := m.output.push line })
    (hnotPrinted : ∀ {m₀ m : Machine} {v : Value}, ev value m₀ = .ok (some v) m →
      v.render? = none → F m m.unshown m) : Within R F (evalOutput ev value) := by
  constructor
  · intro m m' a hm
    obtain ⟨v, m₁, hv, hm⟩ := bind_eq_ok.mp hm
    refine h.trans (hvalue.ok hv) ?_
    cases v with
    | none =>
      cases hm
      exact h.refl _
    | some v =>
      obtain ⟨line, m₂, hshown, hm⟩ := bind_eq_ok.mp hm
      cases hm
      rw [shown_eq] at hshown
      split at hshown
      · cases hshown
        exact hprinted m₁ line
      · cases hshown
  · intro m m' e hm
    rcases bind_eq_error.mp hm with he | ⟨v, m₁, hv, hm⟩
    · exact hvalue.error he
    · refine h.after (hvalue.ok hv) ?_
      cases v with
      | none => cases hm
      | some v =>
        rcases bind_eq_error.mp hm with hshown | ⟨_, m₂, _, hm⟩
        · rw [shown_eq] at hshown
          split at hshown
          · cases hshown
          · rename_i htext
            cases hshown
            exact hnotPrinted hv htext
        · cases hm

end

/-- Such relations that every basic step of an evaluation preserves. -/
structure Transition (ctx : Context) (ev : Evaluator) (N : Node → Prop)
    (R : Machine → Machine → Prop) (F : Machine → Stop → Machine → Prop) : Prop
    extends Composes R F where
  /-- A step of the innermost call is logged. -/
  logged (m : Machine) (action : Action) (location : Location)
    (snapshot : Option (List (String × String))) : R m (m.logged action location snapshot)
  /-- A line is printed. -/
  printed (m : Machine) (line : String) : R m { m with output := m.output.push line }
  /-- A variable is set. -/
  set (m : Machine) (isGlobal : Bool) (name : String) (v : Value) :
    R m { m with stack := m.stack.modifyOwner isGlobal (Frame.setVariable name v) }
  /-- A variable is removed. -/
  erased (m : Machine) (isGlobal : Bool) (name : String) :
    R m { m with stack := m.stack.modifyOwner isGlobal (Frame.eraseVariable name) }
  /-- A frame gets its number, the arguments are evaluated, the call is opened, the body of
      its function runs, and the call is closed. -/
  called {m m₁ m₂ : Machine} {name : String} {vars : Bindings} {location : Location}
    {snapshot : Option (List (String × String))} : R m.numbered m₁ →
    R (m₁.opened ⟨name, vars, m.frameCount, some location⟩ location snapshot) m₂ →
    R m m₂.closed
  /-- The call stops before it is opened. -/
  notOpened {m m' : Machine} {e : Stop} : F m.numbered e m' → F m e m'
  /-- The body of the function stops. -/
  notClosed {m m₁ m₂ : Machine} {e : Stop} {name : String} {vars : Bindings}
    {location : Location} {snapshot : Option (List (String × String))} : R m.numbered m₁ →
    F (m₁.opened ⟨name, vars, m.frameCount, some location⟩ location snapshot) e m₂ →
    F m e m₂
  /-- The rule of a node fails. -/
  raised {m : Machine} {node : Node} {cause : FaultCause} {location : Location} : N node →
    node.Raises ctx.scopes m cause location → F m (.fault ⟨cause, some location⟩) m
  outOfFuel (m : Machine) : F m .outOfFuel m
  /-- A variable cannot be logged. -/
  notLogged {m : Machine} : ctx.verbose = true → m.stack.top.snapshot? = none → F m m.unshown m
  /-- The value of an expression cannot be printed. -/
  notPrinted {m₀ m : Machine} {location : Location} {value : Node} {v : Value} :
    N (.output location value) → ev value m₀ = .ok (some v) m → v.render? = none → F m m.unshown m

namespace Transition

open Exec

variable {ctx : Context} {ev : Evaluator} {N : Node → Prop} {R : Machine → Machine → Prop}
  {F : Machine → Stop → Machine → Prop}

theorem within_log (h : Transition ctx ev N R F) (action : Action) (location : Location) :
    Within R F (log ctx action location) :=
  VectorLang.within_log (fun m snapshot => h.logged m action location snapshot)
    fun _ => h.notLogged

theorem within_output (h : Transition ctx ev N R F) {location : Location} {value : Node}
    (hnode : N (.output location value)) (hvalue : Within R F (ev value)) :
    Within R F (evalOutput ev value) :=
  h.within_evalOutput hvalue h.printed (h.notPrinted hnode)

theorem within_checkDepth (h : Transition ctx ev N R F) {location : Location}
    {isGlobal : Bool} {name : String} {args : List Node}
    (hnode : N (.call location isGlobal name args)) : Within R F (checkDepth location) := by
  constructor
  · intro m m' a hm
    rw [checkDepth_eq] at hm
    split at hm
    · cases hm
    · cases hm
      exact h.refl m
  · intro m m' e hm
    rw [checkDepth_eq] at hm
    split at hm
    · rename_i hdepth
      cases hm
      exact h.raised hnode (.callStackExceeded hdepth)
    · cases hm

/-- The frame of a call is there while the body of the function runs, and gone after it. -/
theorem within_inFrame (h : Transition ctx ev N R F) (location : Location) (name : String)
    {arguments : Exec Bindings} {body : Exec (Option Value)} (hargs : Within R F arguments)
    (hbody : Within R F body) : Within R F (inFrame ctx location name arguments body) := by
  constructor
  · intro m m' v hm
    obtain ⟨vars, m₁, snapshot, m₂, hvars, hv, rfl⟩ := inFrame_eq_ok hm
    exact h.called (hargs.ok hvars) (hbody.ok hv)
  · intro m m' e hm
    rcases inFrame_eq_error hm with he | ⟨vars, m₁, hvars, he | ⟨snapshot, he⟩⟩
    · exact h.notOpened (hargs.error he)
    · exact h.notOpened (h.after (hargs.ok hvars) ((h.within_log _ _).error he))
    · exact h.notClosed (hargs.ok hvars) (hbody.error he)

/-- To stay within the relations is a relation between computations, if they are preserved by
    the basic steps. -/
theorem congruence (h : Transition ctx ev N R F) :
    Congruence ctx ctx ev ev N fun _ x _ => Within R F x where
  scopes := rfl
  pure a := h.within_pure a
  bind hx hf := h.within_bind hx hf
  fail hnode hraises := within_throw fun m => h.raised hnode (hraises m)
  outOfFuel := within_throw h.outOfFuel
  readVariable {location isGlobal name subscript} hnode := by
    refine h.within_readVariable fun m hnone => ?_
    cases isGlobal with
    | true => exact h.raised hnode (.uninitializedGlobal hnone)
    | false => exact h.raised hnode (.undefinedVariable hnone)
  log action location := h.within_log action location
  output hnode hvalue :=
    h.within_bind (h.within_log _ _) fun _ => h.within_output hnode hvalue
  writeVariable {location isGlobal name value} v _ := by
    refine within_writeVariable fun m => ?_
    cases v with
    | some v => exact h.set m isGlobal name v
    | none => exact h.erased m isGlobal name
  checkDepth hnode := h.within_checkDepth hnode
  inFrame _ hargs hbody := h.within_inFrame _ _ hargs hbody

end Transition

/-! ## The rule of one node -/

/-- Relations between states that the rule of one node preserves.  What is known of the values
    that its parts have is `Post`. -/
structure RuleTransition (ctx : Context) (ev : Evaluator) (node : Node)
    (Post : Node → Option Value → Prop) (R : Machine → Machine → Prop)
    (F : Machine → Stop → Machine → Prop) : Prop extends Composes R F where
  logged (m : Machine) (action : Action) (location : Location)
    (snapshot : Option (List (String × String))) : R m (m.logged action location snapshot)
  printed (m : Machine) (line : String) : R m { m with output := m.output.push line }
  numbered (m : Machine) : R m m.numbered
  /-- A variable cannot be logged, or a value not be printed. -/
  unshown (m : Machine) : F m m.unshown m
  /-- A part of the node is evaluated. -/
  part {c : Node} : c ∈ node.parts → Exec.Within R F (ev c)
  post {c : Node} {v : Option Value} {m m' : Machine} : c ∈ node.parts → ev c m = .ok v m' →
    Post c v
  /-- A variable is written, with no value if none is assigned. -/
  written {location : Location} {isGlobal : Bool} {name : String} {value : Option Node}
    (m : Machine) (v : Option Value) : node = .assign location isGlobal name value →
    (value = none → v = none) → R m (m.written isGlobal name v)
  raised {m : Machine} {cause : FaultCause} {location : Location} :
    node.Raises ctx.scopes m cause location →
    (cause = .undefinedElement → ∃ c ∈ node.parts, Post c none) →
    F m (.fault ⟨cause, some location⟩) m
  outOfFuel {location : Location} {whileTrue : Bool} {test : Comparison Node} {body : List Node}
    (m : Machine) : node = .loop location whileTrue test body → F m .outOfFuel m
  /-- A call comes to its end. -/
  closed {location : Location} {isGlobal : Bool} {name : String} {args : List Node}
    {scope : Scope} {m m₁ m₂ : Machine} {vars : Bindings}
    {snapshot : Option (List (String × String))} {v : Option Value} :
    node = .call location isGlobal name args → m.stack.depth ≤ maxDepth →
    ctx.scopes.get? name = some scope →
    evalArguments ev scope.params args m.numbered = .ok vars m₁ → R m m₁ →
    evalBody ev scope.definition
      (m₁.opened ⟨name, vars, m.frameCount, some location⟩ location snapshot) = .ok v m₂ →
    R m m₂.closed
  /-- The body of the function that is called stops. -/
  notClosed {location : Location} {isGlobal : Bool} {name : String} {args : List Node}
    {scope : Scope} {m m₁ m₂ : Machine} {vars : Bindings}
    {snapshot : Option (List (String × String))} {e : Stop} :
    node = .call location isGlobal name args → m.stack.depth ≤ maxDepth →
    ctx.scopes.get? name = some scope →
    evalArguments ev scope.params args m.numbered = .ok vars m₁ → R m m₁ →
    evalBody ev scope.definition
      (m₁.opened ⟨name, vars, m.frameCount, some location⟩ location snapshot) = .error e m₂ →
    F m e m₂

namespace RuleTransition

open Exec

variable {ctx : Context} {ev : Evaluator} {node : Node} {Post : Node → Option Value → Prop}
  {R : Machine → Machine → Prop} {F : Machine → Stop → Machine → Prop}

theorem within_evalCall (h : RuleTransition ctx ev node Post R F) {location : Location}
    {isGlobal : Bool} {name : String} {args : List Node}
    (hnode : node = .call location isGlobal name args)
    (hargs : ∀ params, Within R F (evalArguments ev params args)) :
    Within R F (evalCall ctx ev location name args) := by
  have hraised {m : Machine} {cause : FaultCause}
      (hraises : (Node.call location isGlobal name args).Raises ctx.scopes m cause location) :
      F m (.fault ⟨cause, some location⟩) m :=
    h.raised (hnode ▸ hraises) fun heq => by subst heq; cases hraises
  constructor
  · intro m m' v hm
    obtain ⟨hdepth, scope, hscope, hm⟩ := evalCall_eq_ok hm
    obtain ⟨vars, m₁, snapshot, m₂, hvars, hv, rfl⟩ := inFrame_eq_ok hm
    exact h.closed hnode hdepth hscope hvars
      (h.trans (h.numbered m) ((hargs _).ok hvars)) hv
  · intro m m' e hm
    rcases evalCall_eq_error hm with ⟨hdepth, rfl, rfl⟩ | ⟨hscope, rfl, rfl⟩ |
      ⟨hdepth, scope, hscope, hm⟩
    · exact hraised (.callStackExceeded hdepth)
    · exact hraised (.undefinedFunction hscope)
    · have hlog : Within R F (log ctx (.call name) location) :=
        VectorLang.within_log (fun m snapshot => h.logged m _ _ snapshot) fun m _ _ => h.unshown m
      rcases inFrame_eq_error hm with he | ⟨vars, m₁, hvars, he | ⟨snapshot, he⟩⟩
      · exact h.after (h.numbered m) ((hargs _).error he)
      · exact h.after (h.trans (h.numbered m) ((hargs _).ok hvars)) (hlog.error he)
      · exact h.notClosed hnode hdepth hscope hvars
          (h.trans (h.numbered m) ((hargs _).ok hvars)) he

theorem congruence (h : RuleTransition ctx ev node Post R F) (fuel : Nat) :
    RuleCongruence ctx ctx ev ev fuel fuel node Post fun _ x _ => Within R F x := by
  have hlog (action : Action) (location : Location) : Within R F (log ctx action location) :=
    VectorLang.within_log (fun m snapshot => h.logged m action location snapshot)
      fun m _ _ => h.unshown m
  refine {
    pure := fun a => h.within_pure a
    bind := fun hx hf => h.within_bind hx hf
    part := fun hc hf => h.within_bind_result (h.part hc) fun v hv => hf v ?_
    fail := fun hraises hcause => within_throw fun m => h.raised (hraises m) hcause
    readVariable := fun hnode => h.within_readVariable fun m hnone => ?_
    log := hlog
    output := fun _ hvalue => h.within_bind (hlog _ _) fun _ =>
      h.within_evalOutput hvalue h.printed fun _ _ => h.unshown _
    writeVariable := fun v hnode hv => within_writeVariable fun m => h.written m v hnode hv
    call := fun hnode hargs => h.within_evalCall hnode hargs
    loop := fun hnode htest hbody => ?_ }
  · obtain ⟨m, m', hv⟩ := hv
    exact h.post hc hv
  · rename_i location isGlobal name subscript
    have hraised {cause : FaultCause}
        (hraises : (Node.var location isGlobal name subscript).Raises ctx.scopes m cause location)
        (hcause : cause ≠ .undefinedElement) : F m (.fault ⟨cause, some location⟩) m :=
      h.raised (hnode ▸ hraises) fun heq => absurd heq hcause
    cases isGlobal with
    | true => exact hraised (.uninitializedGlobal hnone) (by simp)
    | false => exact hraised (.undefinedVariable hnone) (by simp)
  · exact h.within_repeatWhile htest hbody (fun m => h.outOfFuel m hnode) fuel

/-- The rule of a node stays within relations that it preserves. -/
theorem within (h : RuleTransition ctx ev node Post R F) (fuel : Nat) :
    Within R F (evalStep ctx ev fuel node) :=
  (h.congruence fuel).related

end RuleTransition

/-! ## Evaluations -/

section

variable {ctx : Context} {N : Node → Prop} {R : Machine → Machine → Prop}
  {F : Machine → Stop → Machine → Prop}

/-- Every evaluation stays within relations that the basic steps preserve. -/
theorem within_eval (h : ∀ n, Transition ctx (eval ctx n) N R F) (hN : Closed ctx.scopes N)
    (n : Nat) {node : Node} (hnode : N node) : Exec.Within R F (eval ctx n node) :=
  related_eval (fun n => (h n).congruence) hN n hnode

/-- The state before the first step of a run. -/
def Context.start (ctx : Context) : Machine :=
  .start globalScopeName ctx.scopes.global.definition.name

/-- A run that a fault ends is an evaluation of the body of the program that stops with it. -/
theorem run_eq_failed {fuel : Nat} {f : Fault} :
    (run ctx fuel).ending = .failed f ↔
      evalBody (eval ctx fuel) ctx.scopes.global.definition ctx.start =
        .error (.fault f) (run ctx fuel).machine := by
  rw [run]
  show _ ↔ evalBody (eval ctx fuel) ctx.scopes.global.definition
    (.start globalScopeName ctx.scopes.global.definition.name) = _
  cases evalBody (eval ctx fuel) ctx.scopes.global.definition
    (.start globalScopeName ctx.scopes.global.definition.name) with
  | ok _ _ => simp
  | error stop _ => cases stop <;> simp

/-- A run that a fault ends stops in a state that `F` relates to the start. -/
theorem within_run (h : ∀ n, Transition ctx (eval ctx n) N R F) (hN : Closed ctx.scopes N)
    {fuel : Nat} {f : Fault} (hrun : (run ctx fuel).ending = .failed f) :
    F ctx.start (.fault f) (run ctx fuel).machine := by
  have hbody : Exec.Within R F (evalBody (eval ctx fuel) ctx.scopes.global.definition) :=
    related_evalBody (h fuel).congruence hN (fun _ hnode => within_eval h hN fuel hnode)
      ctx.scopes.get?_global
  exact hbody.error (run_eq_failed.mp hrun)

end

end VectorLang
