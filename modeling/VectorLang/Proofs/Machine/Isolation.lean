import VectorLang.Proofs.Machine.Frames

/-!
# What a function sees of its callers

The body of a function reads its own variables and the global ones.  Of the calls that are
open when it is called it sees nothing but how many they are.  Called in two states that have
the same global variables and are equally deep, with the same values for its parameters, it
has the same value, prints the same lines and leaves the same global variables, or it stops
for the same reason.

* `Isolated.congruence`   the basic steps, in two states that look the same
* `Isolated.invoke`       a call, from states in which the callers differ
* `call_isolated`         the same for every function
-/

namespace VectorLang

open Exec

/-! ## States that look the same -/

/-- Whether the same names have the same values. -/
def Bindings.Agree (b₁ b₂ : Bindings) : Prop :=
  ∀ name, b₁.get? name = b₂.get? name

namespace Bindings.Agree

variable {b₁ b₂ : Bindings}

theorem refl (b : Bindings) : b.Agree b := fun _ => rfl

theorem set (h : b₁.Agree b₂) (name : String) (v : Value) :
    (b₁.set name v).Agree (b₂.set name v) := by
  intro other
  rw [get?_set, get?_set, h other]

theorem erase (h : b₁.Agree b₂) (name : String) : (b₁.erase name).Agree (b₂.erase name) := by
  intro other
  rw [get?_erase, get?_erase, h other]

end Bindings.Agree

namespace Machine

/-- Whether two states look the same to the innermost call.  Where `p` holds, their last steps
    have the same location, which faults of numbers that are too long are reported at. -/
structure Alike (p : Prop) (m₁ m₂ : Machine) : Prop where
  globals : m₁.stack.globals.vars.Agree m₂.stack.globals.vars
  top : m₁.stack.top.vars.Agree m₂.stack.top.vars
  depth : m₁.stack.depth = m₂.stack.depth
  lastStep : p → m₁.log.back?.map Step.location = m₂.log.back?.map Step.location

namespace Alike

variable {p q : Prop} {m₁ m₂ : Machine}

theorem mono (h : Alike p m₁ m₂) (hq : q → p) : Alike q m₁ m₂ :=
  { h with lastStep := fun h' => h.lastStep (hq h') }

theorem owner (h : Alike p m₁ m₂) (isGlobal : Bool) :
    (m₁.stack.owner isGlobal).vars.Agree (m₂.stack.owner isGlobal).vars := by
  cases isGlobal with
  | true => exact h.globals
  | false => exact h.top

theorem logged (h : Alike p m₁ m₂) (action : Action) (location : Location)
    (snapshot : Option (List (String × String))) :
    Alike True (m₁.logged action location snapshot) (m₂.logged action location snapshot) where
  globals := h.globals
  top := h.top
  depth := h.depth
  lastStep _ := by simp [Machine.logged]

theorem modifyOwner (h : Alike p m₁ m₂) (isGlobal : Bool) {change : Frame → Frame}
    (hchange : ∀ f₁ f₂ : Frame, f₁.vars.Agree f₂.vars →
      (change f₁).vars.Agree (change f₂).vars) :
    Alike p { m₁ with stack := m₁.stack.modifyOwner isGlobal change }
      { m₂ with stack := m₂.stack.modifyOwner isGlobal change } where
  globals := by
    cases isGlobal with
    | true => exact hchange _ _ h.globals
    | false => exact h.globals
  top := by
    cases isGlobal with
    | true => exact h.top
    | false => exact hchange _ _ h.top
  depth := by
    rw [CallStack.depth_modifyOwner, CallStack.depth_modifyOwner]
    exact h.depth
  lastStep := h.lastStep

end Alike

end Machine

/-! ## Computations that end the same way -/

/-- Whether two computations came to the same end: one result and states that `P` relates, or one
    reason to stop.  Both have added the same lines to what was printed before, and the global
    variables are the same. -/
inductive Exec.Match {α : Type} (P : Machine → Machine → Prop) (printed₁ printed₂ : Array String) :
    EStateM.Result Stop Machine α → EStateM.Result Stop Machine α → Prop where
  | ok {a : α} {lines : Array String} {m₁ m₂ : Machine} :
      m₁.output = printed₁ ++ lines → m₂.output = printed₂ ++ lines →
      m₁.stack.globals.vars.Agree m₂.stack.globals.vars → P m₁ m₂ →
      Match P printed₁ printed₂ (.ok a m₁) (.ok a m₂)
  | error {e : Stop} {lines : Array String} {m₁ m₂ : Machine} :
      m₁.output = printed₁ ++ lines → m₂.output = printed₂ ++ lines →
      m₁.stack.globals.vars.Agree m₂.stack.globals.vars →
      Match P printed₁ printed₂ (.error e m₁) (.error e m₂)

namespace Exec.Match

variable {α β : Type} {P Q : Machine → Machine → Prop} {m₁ m₂ : Machine}

theorem mono {printed₁ printed₂ : Array String} {r₁ r₂ : EStateM.Result Stop Machine α}
    (h : Match P printed₁ printed₂ r₁ r₂) (hP : ∀ {m₁ m₂}, P m₁ m₂ → Q m₁ m₂) :
    Match Q printed₁ printed₂ r₁ r₂ := by
  cases h with
  | ok h₁ h₂ hglobals h => exact .ok h₁ h₂ hglobals (hP h)
  | error h₁ h₂ hglobals => exact .error h₁ h₂ hglobals

/-- A result and states that look the same, with nothing printed. -/
theorem silent {p : Prop} {a : α} (h : Machine.Alike p m₁ m₂) :
    Match (Machine.Alike p) m₁.output m₂.output (.ok a m₁) (.ok a m₂) :=
  .ok Array.append_empty.symm Array.append_empty.symm h.globals h

/-- A reason to stop in states that look the same, with nothing printed. -/
theorem stopped {p : Prop} {e : Stop} (h : Machine.Alike p m₁ m₂) :
    Match P m₁.output m₂.output (.error e m₁ : EStateM.Result Stop Machine α) (.error e m₂) :=
  .error Array.append_empty.symm Array.append_empty.symm h.globals

/-- The lines that a computation prints come before those of the one that follows. -/
theorem bind {x₁ x₂ : Exec α} {f₁ f₂ : α → Exec β}
    (hx : Match P m₁.output m₂.output (x₁ m₁) (x₂ m₂))
    (hf : ∀ (a : α) {m₁' m₂' : Machine}, P m₁' m₂' →
      Match Q m₁'.output m₂'.output (f₁ a m₁') (f₂ a m₂')) :
    Match Q m₁.output m₂.output ((x₁ >>= f₁) m₁) ((x₂ >>= f₂) m₂) := by
  generalize hx₁ : x₁ m₁ = r₁ at hx
  generalize hx₂ : x₂ m₂ = r₂ at hx
  cases hx with
  | @ok a lines m₁' m₂' h₁ h₂ _ hP =>
    rw [bind_of_ok hx₁, bind_of_ok hx₂]
    have hrest := hf a hP
    rw [h₁, h₂] at hrest
    generalize f₁ a m₁' = r₁ at hrest
    generalize f₂ a m₂' = r₂ at hrest
    cases hrest with
    | ok h₁' h₂' hglobals h =>
      rw [Array.append_assoc] at h₁' h₂'
      exact .ok h₁' h₂' hglobals h
    | error h₁' h₂' hglobals =>
      rw [Array.append_assoc] at h₁' h₂'
      exact .error h₁' h₂' hglobals
  | error h₁ h₂ hglobals =>
    rw [bind_of_error hx₁, bind_of_error hx₂]
    exact .error h₁ h₂ hglobals

end Exec.Match

/-- Whether a computation comes to the same end in states that look the same. -/
structure Exec.Isolated {α : Type} (x : Exec α) : Prop where
  follows : Within Machine.Follows (fun _ _ _ => True) x
  agree {p : Prop} {m₁ m₂ : Machine} : Machine.Alike p m₁ m₂ →
    Match (Machine.Alike p) m₁.output m₂.output (x m₁) (x m₂)

theorem Exec.Isolated.bind {α β : Type} {x : Exec α} {f : α → Exec β} (hx : Isolated x)
    (hf : ∀ a, Isolated (f a)) : Isolated (x >>= f) where
  follows := Machine.composes_follows.within_bind hx.follows fun a => (hf a).follows
  agree h := (hx.agree h).bind fun a _ _ h' => (hf a).agree h'

/-! ## Calls -/

namespace Exec

/-- Runs the body of a function in a frame of its own, with the values of its parameters. -/
def invoke (ctx : Context) (location : Location) (name : String) (vars : Bindings)
    (body : Exec (Option Value)) (id : Nat) : Exec (Option Value) := do
  log ctx (.call name) location
  modifyStack (·.push ⟨name, vars, id, some location⟩)
  let result ← body
  modifyStack CallStack.pop
  return result

/-- A step is logged where the variables are not logged with it. -/
theorem log_of_quiet {ctx : Context} (hverbose : ctx.verbose = false) (action : Action)
    (location : Location) (m : Machine) :
    log ctx action location m = .ok () (m.logged action location none) := by
  rw [log_eq, hverbose]
  rfl

theorem invoke_eq {ctx : Context} (hverbose : ctx.verbose = false) (location : Location)
    (name : String) (vars : Bindings) (body : Exec (Option Value)) (id : Nat) (m : Machine) :
    invoke ctx location name vars body id m =
      match body (m.opened ⟨name, vars, id, some location⟩ location none) with
      | .ok v m' => .ok v m'.closed
      | .error e m' => .error e m' := by
  rw [invoke, bind_of_ok (log_of_quiet hverbose (.call name) location m)]
  show (body >>= fun v => modifyStack CallStack.pop >>= fun _ => pure v)
    (m.opened ⟨name, vars, id, some location⟩ location none) = _
  cases h : body (m.opened ⟨name, vars, id, some location⟩ location none) with
  | ok v m' => exact bind_of_ok h
  | error e m' => exact bind_of_error h

/-- Closing a call keeps nothing of its stack but the global variables. -/
theorem closed_of_follows {m m' : Machine} {f : Frame} {location : Location}
    {snapshot : Option (List (String × String))} (h : (m.opened f location snapshot).Follows m') :
    { m' with stack := { m.stack with globals := m'.stack.globals } } = m'.closed := by
  rw [Machine.closed, CallStack.SameCalls.pop_eq h.stack]

variable {ctx : Context} {body : Exec (Option Value)} {m₁ m₂ : Machine}

/-- The callers may be anything, if they are equally many and the global variables are the same.
    Their variables are after the call what they were before it. -/
theorem Isolated.invoke (hverbose : ctx.verbose = false) (hbody : Isolated body) {p : Prop}
    (hglobals : m₁.stack.globals.vars.Agree m₂.stack.globals.vars)
    (hdepth : m₁.stack.depth = m₂.stack.depth) {location₁ location₂ : Location}
    (hplace : p → location₁ = location₂) (name : String) (vars : Bindings) (id₁ id₂ : Nat) :
    Match (fun m₁' m₂' => m₁.stack.top.vars.Agree m₂.stack.top.vars → Machine.Alike p m₁' m₂')
      m₁.output m₂.output (invoke ctx location₁ name vars body id₁ m₁)
      (invoke ctx location₂ name vars body id₂ m₂) := by
  have halike : Machine.Alike p (m₁.opened ⟨name, vars, id₁, some location₁⟩ location₁ none)
      (m₂.opened ⟨name, vars, id₂, some location₂⟩ location₂ none) := by
    refine ⟨hglobals, .refl vars, congrArg (· + 1) hdepth, fun h => ?_⟩
    simp [Machine.opened, Machine.logged, hplace h]
  have hmatch := hbody.agree halike
  rw [invoke_eq hverbose, invoke_eq hverbose]
  generalize hr₁ : body (m₁.opened ⟨name, vars, id₁, some location₁⟩ location₁ none) = r₁ at hmatch
  generalize hr₂ : body (m₂.opened ⟨name, vars, id₂, some location₂⟩ location₂ none) = r₂ at hmatch
  cases hmatch with
  | @ok v lines m₁' m₂' h₁ h₂ _ halike' =>
    show Match _ _ _ (.ok v m₁'.closed) (.ok v m₂'.closed)
    rw [← closed_of_follows (hbody.follows.ok hr₁), ← closed_of_follows (hbody.follows.ok hr₂)]
    refine .ok h₁ h₂ halike'.globals fun htop => ?_
    exact ⟨halike'.globals, htop, hdepth, halike'.lastStep⟩
  | error h₁ h₂ hglobals' => exact .error h₁ h₂ hglobals'

/-- The frames of a call get different numbers, which nothing depends on. -/
theorem Isolated.inFrame (hverbose : ctx.verbose = false) {arguments : Exec Bindings}
    (hargs : Isolated arguments) (hbody : Isolated body) (location : Location) (name : String) :
    Isolated (inFrame ctx location name arguments body) where
  follows := (Machine.transition_follows ctx fun _ => body).within_inFrame location name
    hargs.follows hbody.follows
  agree {p m₁ m₂} h := by
    have hnumbered : Machine.Alike p m₁.numbered m₂.numbered :=
      ⟨h.globals, h.top, h.depth, h.lastStep⟩
    show Match _ m₁.numbered.output m₂.numbered.output
      ((arguments >>= fun vars => Exec.invoke ctx location name vars body m₁.frameCount)
        m₁.numbered)
      ((arguments >>= fun vars => Exec.invoke ctx location name vars body m₂.frameCount)
        m₂.numbered)
    refine Match.bind (hargs.agree hnumbered) fun vars m₁' m₂' h' => ?_
    have hplace : p → location = location := fun _ => rfl
    have hinvoke := hbody.invoke hverbose h'.globals h'.depth hplace name vars m₁.frameCount
      m₂.frameCount
    exact hinvoke.mono fun halike => halike h'.top

/-! ## Basic steps -/

theorem Isolated.log (hverbose : ctx.verbose = false) (action : Action) (location : Location)
    {p : Prop} (h : Machine.Alike p m₁ m₂) :
    Match (Machine.Alike True) m₁.output m₂.output (log ctx action location m₁)
      (log ctx action location m₂) := by
  rw [log_of_quiet hverbose, log_of_quiet hverbose]
  exact .silent (h.logged action location none)

/-- A value that has no text stops the computation with the location of the last step. -/
theorem Isolated.printValue (v : Option Value) (h : Machine.Alike True m₁ m₂) :
    Match (Machine.Alike True) m₁.output m₂.output (printValue v m₁) (printValue v m₂) := by
  cases v with
  | none => exact .silent h
  | some v =>
    have hshown : Match (Machine.Alike True) m₁.output m₂.output (shown v.render? m₁)
        (shown v.render? m₂) := by
      rw [shown_eq, shown_eq, h.lastStep trivial]
      split
      · exact .silent h
      · exact .stopped h
    refine Match.bind hshown fun line m₁' m₂' h' => ?_
    exact .ok Array.push_eq_append Array.push_eq_append h'.globals
      ⟨h'.globals, h'.top, h'.depth, h'.lastStep⟩

/-- What the basic steps do is the same in states that look the same. -/
theorem Isolated.congruence (hverbose : ctx.verbose = false) (ev : Evaluator) :
    Congruence ctx ctx ev ev Node.Any fun _ x _ => Isolated x := by
  have follows := (Machine.transition_follows ctx ev).congruence
  refine {
    scopes := rfl
    pure := fun a => ⟨follows.pure a, .silent⟩
    bind := bind
    fail := fun hnode hraises => ⟨follows.fail hnode hraises, .stopped⟩
    outOfFuel := ⟨follows.outOfFuel, .stopped⟩
    readVariable := fun hnode => ⟨follows.readVariable hnode, fun h => ?_⟩
    log := fun action location => ⟨follows.log action location, fun h =>
      (Isolated.log hverbose action location h).mono fun h => h.mono fun _ => trivial⟩
    output := fun hnode hvalue => ⟨follows.output hnode hvalue.follows, fun h => ?_⟩
    writeVariable := fun v hnode => ⟨follows.writeVariable v hnode, fun h => ?_⟩
    checkDepth := fun hnode => ⟨follows.checkDepth hnode, fun h => ?_⟩
    inFrame := fun _ hargs hbody => .inFrame hverbose hargs hbody _ _ }
  · rw [readVariable_eq, readVariable_eq, h.owner]
    split
    · exact .silent h
    · exact .stopped h
  · refine (Isolated.log hverbose _ _ h).bind fun _ _ _ h => ?_
    have hprinted := (hvalue.agree h).bind fun v _ _ h => Isolated.printValue v h
    exact hprinted.mono fun h => h.mono fun _ => trivial
  · cases v with
    | some v => exact .silent (h.modifyOwner _ fun _ _ h => h.set _ v)
    | none => exact .silent (h.modifyOwner _ fun _ _ h => h.erase _)
  · rw [checkDepth_eq, checkDepth_eq, h.depth]
    split
    · exact .stopped h
    · exact .silent h

end Exec

/-! ## Functions -/

/-- Every evaluation comes to the same end in states that look the same. -/
theorem isolated_eval {ctx : Context} (hverbose : ctx.verbose = false) (n : Nat) (node : Node) :
    Isolated (eval ctx n node) :=
  related_eval (fun n => Isolated.congruence hverbose (eval ctx n)) (closed_any _) n trivial

theorem isolated_evalBody {ctx : Context} (hverbose : ctx.verbose = false) (n : Nat)
    (d : Definition Node) : Isolated (evalBody (eval ctx n) d) :=
  related_evalStatements (Isolated.congruence hverbose (eval ctx n))
    (fun node _ => isolated_eval hverbose n node) fun _ _ => trivial

/-- A function is called in two states that have the same global variables and are equally deep,
    with the same values for its parameters.  It has the same value in both, or stops for the
    same reason; it prints the same lines and leaves the same global variables. -/
theorem call_isolated {ctx : Context} (hverbose : ctx.verbose = false) {m₁ m₂ : Machine}
    (hglobals : ∀ name, m₁.stack.globals.vars.get? name = m₂.stack.globals.vars.get? name)
    (hdepth : m₁.stack.depth = m₂.stack.depth) (fuel : Nat) (name : String) (d : Definition Node)
    (vars : Bindings) (location₁ location₂ : Location) (id₁ id₂ : Nat) :
    ∃ (m₁' m₂' : Machine) (lines : Array String),
      ((∃ v, invoke ctx location₁ name vars (evalBody (eval ctx fuel) d) id₁ m₁ = .ok v m₁' ∧
          invoke ctx location₂ name vars (evalBody (eval ctx fuel) d) id₂ m₂ = .ok v m₂') ∨
        ∃ e, invoke ctx location₁ name vars (evalBody (eval ctx fuel) d) id₁ m₁ = .error e m₁' ∧
          invoke ctx location₂ name vars (evalBody (eval ctx fuel) d) id₂ m₂ = .error e m₂') ∧
      m₁'.output = m₁.output ++ lines ∧ m₂'.output = m₂.output ++ lines ∧
      ∀ name, m₁'.stack.globals.vars.get? name = m₂'.stack.globals.vars.get? name := by
  -- the locations of the calls need not be the same
  have hplace : False → location₁ = location₂ := False.elim
  have h := (isolated_evalBody hverbose fuel d).invoke hverbose hglobals hdepth hplace name vars
    id₁ id₂
  generalize invoke ctx location₁ name vars (evalBody (eval ctx fuel) d) id₁ m₁ = r₁ at h
  generalize invoke ctx location₂ name vars (evalBody (eval ctx fuel) d) id₂ m₂ = r₂ at h
  cases h with
  | ok h₁ h₂ hglobals' _ => exact ⟨_, _, _, Or.inl ⟨_, rfl, rfl⟩, h₁, h₂, hglobals'⟩
  | error h₁ h₂ hglobals' => exact ⟨_, _, _, Or.inr ⟨_, rfl, rfl⟩, h₁, h₂, hglobals'⟩

/-- A function that prints its parameter and keeps it in a global variable. -/
def keeper : Definition Node :=
  let read := .var default false "A" none
  ⟨default, false, "F", ["A"], [.output default read, .assign default true ".G" (some read)]⟩

/-- A program with that function. -/
def keeperContext : Context :=
  let main := .ofDefinition ⟨default, false, "P", [], []⟩
  ⟨⟨main, [("P", main), ("F", .ofDefinition keeper)]⟩, false⟩

/-- A state of the program that has a variable of the name of the parameter. -/
def shadowedCaller : Machine :=
  { keeperContext.start with
    output := #["before"]
    log := #[⟨0, 1, default, .node "Assignment", none⟩]
    stack := keeperContext.start.stack.modifyOwner false (Frame.setVariable "A" (.text "no")) }

/-- The value that the caller gives to its own variable is not seen. -/
theorem call_isolated_keeper :
    keeperContext.start.stack.depth = shadowedCaller.stack.depth ∧
    keeperContext.start.stack.top ≠ shadowedCaller.stack.top ∧
    ∃ m, invoke keeperContext ⟨"", 7, 1, "F(\"A\")"⟩ "F" (Bindings.empty.set "A" (.text "hi"))
        (evalBody (eval keeperContext 3) keeper) 9 shadowedCaller = .ok (some (.text "hi")) m ∧
      m.output = #["before", "hi"] ∧ m.stack.globals.vars.get? ".G" = some (.text "hi") := by
  have hverbose : keeperContext.verbose = false := rfl
  have hglobals : ∀ name, keeperContext.start.stack.globals.vars.get? name =
    shadowedCaller.stack.globals.vars.get? name := fun _ => rfl
  have hdepth : keeperContext.start.stack.depth = shadowedCaller.stack.depth := rfl
  have htop : keeperContext.start.stack.top ≠ shadowedCaller.stack.top := by decide
  -- the call from the start of the program
  obtain ⟨m₀, hm₀, houtput, hset⟩ : ∃ m, invoke keeperContext default "F"
      (Bindings.empty.set "A" (.text "hi")) (evalBody (eval keeperContext 3) keeper) 2
        keeperContext.start = .ok (some (.text "hi")) m ∧
      m.output = #["hi"] ∧ m.stack.globals.vars.get? ".G" = some (.text "hi") :=
    ⟨_, rfl, rfl, rfl⟩
  obtain ⟨m₁, m₂, lines, hends, h₁, h₂, hafter⟩ := call_isolated hverbose hglobals hdepth 3 "F"
    keeper (Bindings.empty.set "A" (.text "hi")) default ⟨"", 7, 1, "F(\"A\")"⟩ 2 9
  rw [hm₀] at hends
  rcases hends with ⟨v, hv, hm₂⟩ | ⟨e, he, _⟩
  · cases hv
    rw [houtput] at h₁
    have hlines : lines = #["hi"] := by simpa [Context.start, Machine.start] using h₁.symm
    refine ⟨hdepth, htop, m₂, hm₂, ?_, (hafter ".G").symm.trans hset⟩
    rw [h₂, hlines]
    rfl
  · cases he

end VectorLang
