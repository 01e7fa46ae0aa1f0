import Mathlib
import VectorLang.Proofs.Machine.Scoping
import VectorLang.Proofs.Value.Proper

/-!
# The values of a run

Every vector that a run computes or binds has an element: numbers and texts do, no operation makes
a vector without one of those that have one, and variables are bound to values that were computed.
That is an invariant of the frames together with what an evaluation gives, so that both are shown
at once (`Exec.Yields`), one rule after the other.

* `yields_evalStep`      the rule of a node
* `proper_of_visits`     the states of a run
* `evalTest_eq_ok`       a comparison that does not fail
* `values_proper`        values and comparisons of a run
-/

namespace VectorLang

open Exec

/-! ## States -/

/-- Whether all names are bound to proper values. -/
def Bindings.Proper (b : Bindings) : Prop :=
  ∀ x v, b.get? x = some v → v.Proper

namespace Bindings.Proper

variable {b : Bindings}

theorem empty : Bindings.empty.Proper := fun x v h => by
  rw [get?_empty] at h
  cases h

theorem set (h : b.Proper) (name : String) {v : Value} (hv : v.Proper) :
    (b.set name v).Proper := by
  intro x w hx
  rw [get?_set] at hx
  split at hx
  · cases hx
    exact hv
  · exact h x w hx

theorem erase (h : b.Proper) (name : String) : (b.erase name).Proper := by
  intro x w hx
  rw [get?_erase] at hx
  split at hx
  · cases hx
  · exact h x w hx

end Bindings.Proper

/-- Whether all frames bind their names to proper values. -/
structure Machine.Proper (m : Machine) : Prop where
  globals : m.stack.globals.vars.Proper
  calls : ∀ f ∈ m.stack.top :: m.stack.below, f.vars.Proper

/-- Whether a value is proper, if there is one. -/
def ProperIfAny (v : Option Value) : Prop :=
  ∀ w, v = some w → w.Proper

theorem properIfAny_none : ProperIfAny none := fun w h => by cases h

theorem properIfAny_some {v : Value} (hv : v.Proper) : ProperIfAny (some v) := fun w h => by
  cases h
  exact hv

namespace Machine.Proper

variable {m m' : Machine}

/-- Nothing but the frames matters. -/
theorem congr (h : m.Proper) (hstack : m'.stack = m.stack) : m'.Proper where
  globals := hstack ▸ h.globals
  calls := hstack ▸ h.calls

theorem numbered (h : m.Proper) : m.numbered.Proper := h.congr rfl

theorem owner (h : m.Proper) (isGlobal : Bool) : (m.stack.owner isGlobal).vars.Proper := by
  cases isGlobal with
  | true => exact h.globals
  | false => exact h.calls _ List.mem_cons_self

theorem frames (h : m.Proper) {f : Frame} (hf : f ∈ m.stack.frames) : f.vars.Proper := by
  rw [CallStack.frames, List.mem_cons, List.mem_reverse] at hf
  rcases hf with rfl | hf
  · exact h.globals
  · exact h.calls f hf

/-- A variable is given a proper value, or removed. -/
theorem written (h : m.Proper) (isGlobal : Bool) (name : String) {v : Option Value}
    (hv : ProperIfAny v) : (m.written isGlobal name v).Proper := by
  obtain ⟨htop, hbelow⟩ := List.forall_mem_cons.mp h.calls
  cases isGlobal with
  | false =>
    cases v with
    | none => exact ⟨h.globals, List.forall_mem_cons.mpr ⟨htop.erase name, hbelow⟩⟩
    | some v => exact ⟨h.globals, List.forall_mem_cons.mpr ⟨htop.set name (hv v rfl), hbelow⟩⟩
  | true =>
    cases v with
    | none => exact ⟨h.globals.erase name, h.calls⟩
    | some v => exact ⟨h.globals.set name (hv v rfl), h.calls⟩

/-- A call is opened whose parameters are bound to proper values. -/
theorem opened (h : m.Proper) {f : Frame} (hf : f.vars.Proper) (location : Location)
    (snapshot : Option (List (String × String))) : (m.opened f location snapshot).Proper :=
  ⟨h.globals, List.forall_mem_cons.mpr ⟨hf, h.calls⟩⟩

theorem closed (h : m.Proper) : m.closed.Proper := by
  cases hbelow : m.stack.below with
  | nil =>
    apply h.congr
    rw [Machine.closed, CallStack.pop, hbelow]
  | cons f fs =>
    have hcalls := (List.forall_mem_cons.mp h.calls).2
    have hpop : m.stack.pop = { m.stack with top := f, below := fs } := by
      rw [CallStack.pop, hbelow]
    rw [hbelow] at hcalls
    constructor
    · rw [Machine.closed, hpop]
      exact h.globals
    · rw [Machine.closed, hpop]
      exact hcalls

end Machine.Proper

theorem Context.start_proper (ctx : Context) : ctx.start.Proper where
  globals := .empty
  calls f hf := by
    obtain rfl := List.mem_singleton.mp hf
    exact .empty

/-! ## Computations -/

namespace Exec

/-- Whether a computation that starts with proper values only ends or stops with such values, and
    has results with a property. -/
structure Yields {α : Type} (P : α → Prop) (x : Exec α) : Prop where
  ok {m m' : Machine} {a : α} : m.Proper → x m = .ok a m' → m'.Proper ∧ P a
  error {m m' : Machine} {e : Stop} : m.Proper → x m = .error e m' → m'.Proper

namespace Yields

variable {α β : Type} {P : α → Prop} {Q : β → Prop} {x : Exec α}

theorem pure {a : α} (ha : P a) : Yields P (Pure.pure a) where
  ok hm h := by
    cases h
    exact ⟨hm, ha⟩
  error _ h := by cases h

theorem throw (e : Stop) : Yields P (MonadExcept.throw e : Exec α) where
  ok _ h := by cases h
  error hm h := by
    cases h
    exact hm

theorem bind (hx : Yields P x) {f : α → Exec β} (hf : ∀ a, P a → Yields Q (f a)) :
    Yields Q (x >>= f) where
  ok hm h := by
    obtain ⟨a, m₁, ha, h⟩ := bind_eq_ok.mp h
    obtain ⟨hm₁, ha⟩ := hx.ok hm ha
    exact (hf a ha).ok hm₁ h
  error hm h := by
    rcases bind_eq_error.mp h with h | ⟨a, m₁, ha, h⟩
    · exact hx.error hm h
    · obtain ⟨hm₁, ha⟩ := hx.ok hm ha
      exact (hf a ha).error hm₁ h

theorem map (hx : Yields P x) {f : α → β} (hf : ∀ a, P a → Q (f a)) : Yields Q (f <$> x) := by
  rw [map_eq_pure_bind]
  exact hx.bind fun a ha => .pure (hf a ha)

theorem mapM {f : α → Exec β} (as : List α) (hf : ∀ a ∈ as, Yields Q (f a)) :
    Yields (fun bs => ∀ b ∈ bs, Q b) (as.mapM f) := by
  induction as with
  | nil => exact .pure fun b hb => absurd hb List.not_mem_nil
  | cons a as ih =>
    obtain ⟨ha, has⟩ := List.forall_mem_cons.mp hf
    rw [List.mapM_cons]
    refine ha.bind fun b hb => (ih has).bind fun bs hbs => .pure ?_
    exact List.forall_mem_cons.mpr ⟨hb, hbs⟩

theorem foldlM {f : β → α → Exec β} (as : List α)
    (hf : ∀ b, Q b → ∀ a ∈ as, Yields Q (f b a)) {b : β} (hb : Q b) :
    Yields Q (as.foldlM f b) := by
  induction as generalizing b with
  | nil => exact .pure hb
  | cons a as ih =>
    rw [List.foldlM_cons]
    refine (hf b hb a List.mem_cons_self).bind fun b' hb' => ?_
    exact ih (fun b hb a ha => hf b hb a (List.mem_cons_of_mem _ ha)) hb'

theorem repeatWhile {test : Exec Bool} {body : Exec Unit} (htest : Yields (fun _ => True) test)
    (hbody : Yields (fun _ => True) body) (n : Nat) :
    Yields (fun _ => True) (Exec.repeatWhile test body n) := by
  induction n with
  | zero => exact .throw _
  | succ n ih =>
    refine htest.bind fun b _ => ?_
    cases b with
    | false => exact .pure True.intro
    | true => exact hbody.bind fun _ _ => ih

theorem ofOption {cause : FaultCause} {location : Location} {o : Option α}
    (ho : ∀ a, o = some a → P a) : Yields P (Exec.ofOption cause location o) := by
  cases o with
  | none => exact .throw _
  | some a => exact .pure (ho a rfl)

/-- A computation whose steps keep the values. -/
theorem of_within
    (h : Within (fun m m' => m.Proper → m'.Proper) (fun m _ m' => m.Proper → m'.Proper) x) :
    Yields (fun _ => True) x where
  ok hm hx := ⟨h.ok hx hm, True.intro⟩
  error hm hx := h.error hx hm

theorem final (hx : Yields P x) {m : Machine} (hm : m.Proper) : (final (x m)).Proper := by
  cases h : x m with
  | ok a m' => exact (hx.ok hm h).1
  | error e m' => exact hx.error hm h

end Yields

end Exec

/-! ## Rules -/

section

variable {ctx : Context} {ev : Evaluator}

theorem yields_log (action : Action) (location : Location) :
    Yields (fun _ => True) (log ctx action location) :=
  .of_within (within_log (fun _ _ hm => hm.congr rfl) fun _ _ _ hm => hm)

theorem yields_shown {α : Type} (o : Option α) : Yields (fun _ => True) (shown o) := by
  cases o with
  | some a => exact .pure trivial
  | none =>
    constructor
    · intro m m' a _ h
      cases h
    · intro m m' e hm h
      cases h
      exact hm

theorem yields_print (line : String) : Yields (fun _ => True) (print line) where
  ok hm h := by
    cases h
    exact ⟨hm.congr rfl, trivial⟩
  error _ h := by cases h

theorem yields_readVariable (location : Location) (isGlobal : Bool) (name : String) :
    Yields Value.Proper (readVariable location isGlobal name) where
  ok {m m' v} hm h := by
    rw [readVariable_eq] at h
    split at h
    · rename_i w hw
      cases h
      exact ⟨hm, hm.owner isGlobal name _ hw⟩
    · cases h
  error hm h := by
    rw [readVariable_eq] at h
    split at h
    · cases h
    · cases h
      exact hm

-- evaluating the nodes below gives proper values
variable (hev : ∀ node, Yields ProperIfAny (ev node))
include hev

theorem yields_evalVector (location : Location) (elements : List Node) :
    Yields Value.Proper (evalVector ev location elements) := by
  refine Yields.bind (P := fun values => ∀ v ∈ values, v.Proper) ?_ fun values hvalues => ?_
  · exact .mapM elements fun element _ => (hev element).bind fun v hv => .ofOption hv
  · exact .ofOption fun v hv => Value.Proper.join hvalues hv

theorem yields_evalVar (location : Location) (isGlobal : Bool) (name : String)
    (subscript : Option Node) :
    Yields Value.Proper (evalVar ev location isGlobal name subscript) := by
  rw [evalVar_eq]
  refine (yields_readVariable location isGlobal name).bind fun v hv => ?_
  cases subscript with
  | none => exact .pure hv
  | some subscript =>
    refine (hev subscript).bind fun places hplaces => ?_
    cases places with
    | none => exact .throw _
    | some places =>
      cases places with
      | ints places => exact .ofOption fun w hw => Value.Proper.select (hplaces _ rfl) hw
      | text shown => exact .throw _

theorem yields_evalUnary (location : Location) (op : UnaryOp) (operand : Node) :
    Yields Value.Proper (evalUnary ev location op operand) := by
  refine (hev operand).bind fun v hv => ?_
  split
  · rename_i elements
    have helements : elements ≠ [] := hv _ rfl
    apply Yields.pure
    show elements.map _ ≠ []
    simpa using helements
  · exact .throw _
  · exact .pure (List.cons_ne_nil _ _)
  · exact .throw _

theorem yields_evalBinary (location : Location) (op : Arithmetic) (left right : Node) :
    Yields Value.Proper (evalBinary ev location op left right) := by
  refine (hev left).bind fun x hx => (hev right).bind fun y hy => ?_
  split
  · rename_i xs ys
    refine Yields.bind (P := fun pairs => broadcast xs ys = some pairs) (.ofOption fun _ h => h)
      fun pairs hpairs => ?_
    apply Yields.map (P := fun zs => op.onVectors? xs ys = some zs)
    · exact .ofOption fun zs hzs => Option.bind_eq_some_iff.mpr ⟨pairs, hpairs, hzs⟩
    · exact fun zs hzs => Value.Proper.arithmetic (hx _ rfl) (hy _ rfl) hzs
  · exact .throw _

theorem yields_evalTest (test : Comparison Node) :
    Yields (fun _ => True) (evalTest ev test) := by
  refine (hev test.left).bind fun x _ => (hev test.right).bind fun y _ => ?_
  split
  · split
    · exact .pure trivial
    · exact .throw _
  · exact .pure trivial
  · exact .throw _

theorem yields_evalStatements (statements : List Node) :
    Yields ProperIfAny (evalStatements ev statements) :=
  .foldlM statements (fun _ _ statement _ => hev statement) properIfAny_none

theorem yields_evalBody (d : Definition Node) : Yields ProperIfAny (evalBody ev d) :=
  yields_evalStatements hev _

theorem yields_evalArguments (params : List String) (args : List Node) :
    Yields Bindings.Proper (evalArguments ev params args) := by
  rw [evalArguments_eq]
  refine .foldlM _ (fun bound hbound pair _ => ?_) .empty
  refine (hev pair.2).bind fun v hv => ?_
  cases v with
  | none => exact .pure hbound
  | some v => exact .pure (hbound.set pair.1 (hv v rfl))

theorem yields_evalOutput (value : Node) : Yields ProperIfAny (evalOutput ev value) := by
  refine (hev value).bind fun v hv => ?_
  cases v with
  | none => exact .pure hv
  | some v =>
    refine (yields_shown v.render?).bind fun line _ => ?_
    exact (yields_print line).bind fun _ _ => .pure hv

theorem yields_evalAssign (isGlobal : Bool) (name : String) (value : Option Node) :
    Yields ProperIfAny (evalAssign ev isGlobal name value) where
  ok hm h := by
    obtain ⟨m₁, hvalue, rfl⟩ := evalAssign_eq_ok h
    rcases hvalue with ⟨-, rfl, rfl⟩ | ⟨c, -, hc⟩
    · exact ⟨hm.written isGlobal name properIfAny_none, properIfAny_none⟩
    · obtain ⟨hm₁, hv⟩ := (hev c).ok hm hc
      exact ⟨hm₁.written isGlobal name hv, hv⟩
  error hm h := by
    obtain ⟨c, -, hc⟩ := evalAssign_eq_error h
    exact (hev c).error hm hc

theorem yields_evalCall (location : Location) (name : String) (args : List Node) :
    Yields ProperIfAny (evalCall ctx ev location name args) where
  ok hm h := by
    obtain ⟨-, scope, -, h⟩ := evalCall_eq_ok h
    obtain ⟨vars, m₁, snapshot, m₂, hvars, hv, rfl⟩ := inFrame_eq_ok h
    obtain ⟨hm₁, hvars⟩ := (yields_evalArguments hev _ _).ok hm.numbered hvars
    obtain ⟨hm₂, hv⟩ := (yields_evalBody hev _).ok (hm₁.opened hvars location snapshot) hv
    exact ⟨hm₂.closed, hv⟩
  error hm h := by
    rcases evalCall_eq_error h with ⟨-, -, rfl⟩ | ⟨-, -, rfl⟩ | ⟨-, scope, -, h⟩
    · exact hm
    · exact hm
    · rcases inFrame_eq_error h with h | ⟨vars, m₁, hvars, h⟩
      · exact (yields_evalArguments hev _ _).error hm.numbered h
      · obtain ⟨hm₁, hvars⟩ := (yields_evalArguments hev _ _).ok hm.numbered hvars
        rcases h with h | ⟨snapshot, h⟩
        · exact (yields_log _ _).error hm₁ h
        · exact (yields_evalBody hev _).error (hm₁.opened hvars location snapshot) h

/-- The rule of a node gives a proper value, if it gives one, and keeps the others. -/
theorem yields_evalStep (fuel : Nat) (node : Node) :
    Yields ProperIfAny (evalStep ctx ev fuel node) := by
  have hsome {x : Exec Value} (hx : Yields Value.Proper x) : Yields ProperIfAny (some <$> x) :=
    hx.map fun v hv => properIfAny_some hv
  cases node with
  | int location value => exact .pure (properIfAny_some (List.cons_ne_nil _ _))
  | string location value => exact .pure (properIfAny_some trivial)
  | vector location elements => exact hsome (yields_evalVector hev location elements)
  | var location isGlobal name subscript =>
    exact hsome (yields_evalVar hev location isGlobal name subscript)
  | unary location op operand => exact hsome (yields_evalUnary hev location op operand)
  | binary location op left right => exact hsome (yields_evalBinary hev location op left right)
  | call location isGlobal name args => exact yields_evalCall hev location name args
  | output location value =>
    exact (yields_log _ location).bind fun _ _ => yields_evalOutput hev value
  | assign location isGlobal name value =>
    exact (yields_log _ location).bind fun _ _ => yields_evalAssign hev isGlobal name value
  | conditional location test thenBody elseBody =>
    refine (yields_log _ location).bind fun _ _ => (yields_evalTest hev test).bind fun b _ => ?_
    cases b with
    | true => exact yields_evalStatements hev thenBody
    | false => exact yields_evalStatements hev elseBody
  | loop location whileTrue test body =>
    refine (yields_log _ location).bind fun _ _ => ?_
    refine (Yields.repeatWhile ?_ ?_ fuel).bind fun _ _ => .pure properIfAny_none
    · exact (yields_evalTest hev test).bind fun _ _ => .pure trivial
    · exact (yields_evalStatements hev body).bind fun _ _ => .pure trivial
  | predicate test => exact (yields_log _ _).bind fun _ _ => .throw _
  | function d => exact (yields_log _ _).bind fun _ _ => .throw _
  | program location name d => exact (yields_log _ _).bind fun _ _ => .throw _

end

/-! ## Runs -/

section

variable {ctx : Context}

/-- Evaluating a node gives a proper value, if it gives one, also if it may be stopped at a
    place. -/
theorem yields_stopsAt {ev : Nat → Evaluator} {place : Node × Machine} {stop : Stop}
    (hev : StopsAt ctx place stop ev) (n : Nat) (node : Node) :
    Yields ProperIfAny (ev n node) := by
  induction n generalizing node with
  | zero =>
    rw [hev.zero]
    exact .throw _
  | succ n ih =>
    have hstep : Yields ProperIfAny (evalStep ctx (ev n) n node) := yields_evalStep ih n node
    constructor
    · intro m m' v hm h
      rcases hev.succ n node m with heq | ⟨_, heq⟩
      · exact hstep.ok hm (heq ▸ h)
      · rw [heq] at h
        cases h
    · intro m m' e hm h
      rcases hev.succ n node m with heq | ⟨_, heq⟩
      · exact hstep.error hm (heq ▸ h)
      · rw [heq] at h
        cases h
        exact hm

theorem yields_eval (n : Nat) (node : Node) : Yields ProperIfAny (eval ctx n node) := by
  have hev : StopsAt ctx (node, ctx.start) .outOfFuel (eval ctx) := stopsAt_eval
  exact yields_stopsAt hev n node

/-- From proper values, running the body of a function comes to no others. -/
theorem proper_of_visitsFrom {fuel : Nat} {d : Definition Node} {m m' : Machine} (hm : m.Proper)
    (h : ctx.VisitsFrom fuel d m m') : m'.Proper := by
  have hreaches {node : Node} {m₁ : Machine} (hreach : ctx.ReachesFrom fuel d m node m₁) :
      m₁.Proper := by
    have hev : StopsAt ctx (node, m₁) .outOfFuel (evalStopped ctx (node, m₁) .outOfFuel) :=
      stopsAt_evalStopped
    exact (yields_evalBody (yields_stopsAt hev fuel) d).error hm (hreach .outOfFuel)
  cases h with
  | evaluates hreach => exact hreaches hreach
  | leaves n hreach => exact (yields_eval n _).final (hreaches hreach)
  | opens hreach hpushes =>
    obtain @⟨n, location, isGlobal, name, args, scope, vars, snapshot, m₁, m₂, _, _, hargs, _⟩ :=
      hpushes
    obtain ⟨hm₂, hvars⟩ := (yields_evalArguments (yields_eval n) _ _).ok
      (hreaches hreach).numbered hargs
    exact hm₂.opened hvars location snapshot
  | ends => exact (yields_evalBody (yields_eval fuel) d).final hm

theorem proper_of_visits {fuel : Nat} {m : Machine} (h : ctx.Visits fuel m) : m.Proper :=
  proper_of_visitsFrom ctx.start_proper h

end

/-! ## Comparisons -/

/-- A comparison that does not fail is one between the values of its sides. -/
theorem evalTest_eq_ok {ev : Evaluator} {test : Comparison Node} {m m' : Machine} {b : Bool} :
    evalTest ev test m = .ok b m' ↔
      ∃ x y m₁, ev test.left m = .ok (some x) m₁ ∧ ev test.right m₁ = .ok (some y) m' ∧
        x.Comparable y ∧ test.relation.between x y = b := by
  constructor
  · intro h
    obtain ⟨x, m₁, hx, h⟩ := bind_eq_ok.mp h
    obtain ⟨y, m₂, hy, h⟩ := bind_eq_ok.mp h
    split at h
    · split at h
      · rename_i hlength
        cases h
        exact ⟨_, _, m₁, hx, hy, hlength, rfl⟩
      · cases h
    · cases h
      exact ⟨_, _, m₁, hx, hy, trivial, rfl⟩
    · cases h
  · rintro ⟨x, y, m₁, hx, hy, hcomparable, rfl⟩
    rw [evalTest, bind_of_ok hx, bind_of_ok hy]
    cases x with
    | ints xs =>
      cases y with
      | ints ys =>
        have hlength : xs.length = ys.length := hcomparable
        simp only [hlength, if_true]
        rfl
      | text t => cases hcomparable
    | text s =>
      cases y with
      | ints ys => cases hcomparable
      | text t => rfl

/-- In every state of a run, each name that a frame binds is bound to a value, which is a text or
    a vector with an element, and so is every value that evaluating a node gives.  A comparison
    that does not fail has two values `x` and `y`, and no relation between them fails; it and its
    contrary are never both true, just one of them is if the values are texts or single integers,
    and the values are equal if they are the same. -/
theorem values_proper (ctx : Context) {fuel : Nat} {m : Machine} (h : ctx.Visits fuel m) :
    (∀ f ∈ m.stack.frames, ∀ name ∈ f.vars.keys, ∃ v, f.vars.get? name = some v ∧ v.Proper) ∧
    (∀ n node v m', eval ctx n node m = .ok (some v) m' → v.Proper) ∧
    ∀ n test b m', evalTest (eval ctx n) test m = .ok b m' →
      ∃ x y m₁, eval ctx n test.left m = .ok (some x) m₁ ∧
        eval ctx n test.right m₁ = .ok (some y) m' ∧
        (∀ r, evalTest (eval ctx n) { test with relation := r } m = .ok (r.between x y) m') ∧
        (∀ r : Relation, ¬ (r.between x y = true ∧ r.negated.between x y = true)) ∧
        (x.IsSingle → y.IsSingle → ∀ r : Relation, r.negated.between x y = !r.between x y) ∧
        (Relation.eq.between x y = true ↔ x = y) := by
  have hm := proper_of_visits h
  refine ⟨?_, ?_, ?_⟩
  · intro f hf name hname
    obtain ⟨v, hv⟩ := Option.isSome_iff_exists.mp (Bindings.mem_keys.mp hname)
    exact ⟨v, hv, hm.frames hf name v hv⟩
  · intro n node v m' hv
    exact ((yields_eval n node).ok hm hv).2 v rfl
  · intro n test b m' htest
    obtain ⟨x, y, m₁, hx, hy, hcomparable, -⟩ := evalTest_eq_ok.mp htest
    have hproper : x.Proper := ((yields_eval n test.left).ok hm hx).2 x rfl
    refine ⟨x, y, m₁, hx, hy, fun r => ?_, fun r => ?_, fun hsx hsy r => ?_, ?_⟩
    · exact evalTest_eq_ok.mpr ⟨x, y, m₁, hx, hy, hcomparable, rfl⟩
    · exact r.not_between_negated hproper hcomparable
    · exact r.between_negated hsx hsy hcomparable
    · exact Relation.between_eq_iff hcomparable

/-- The comparison of the parameter of a function with a number. -/
def belowTwo : Comparison Node :=
  ⟨copierCall.location, .lt, .var copierCall.location false "A" none,
    .int copierCall.location 2⟩

theorem values_proper_copying :
    Context.Visits ⟨copyingTable, false⟩ 2 copyingOpened ∧
    evalTest (eval ⟨copyingTable, false⟩ 1) belowTwo copyingOpened = .ok true copyingOpened ∧
    (∃ v, copyingOpened.stack.top.vars.get? "A" = some v ∧ v.Proper) ∧
    ∃ x y : Value, Relation.lt.between x y = true ∧ Relation.gte.between x y = false := by
  have hvisits : Context.Visits ⟨copyingTable, false⟩ 2 copyingOpened :=
    .opens reaches_copierCall pushes_copierCall
  have htest : evalTest (eval ⟨copyingTable, false⟩ 1) belowTwo copyingOpened =
      .ok true copyingOpened := by rfl
  obtain ⟨hframes, -, hcomparisons⟩ := values_proper ⟨copyingTable, false⟩ hvisits
  obtain ⟨x, y, m₁, -, -, hbetween, hnegated, -⟩ := hcomparisons 1 belowTwo true _ htest
  have hlt : Relation.lt.between x y = true :=
    (EStateM.Result.ok.inj ((hbetween .lt).symm.trans htest)).1
  refine ⟨hvisits, htest, ?_, x, y, hlt, ?_⟩
  · exact hframes copyingOpened.stack.top (by simp [CallStack.frames]) "A" (by decide)
  · rw [← Bool.not_eq_true]
    exact fun hgte => hnegated .lt ⟨hlt, hgte⟩

end VectorLang
