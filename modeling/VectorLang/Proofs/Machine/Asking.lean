import Mathlib.Tactic.Choose
import VectorLang.Proofs.Machine.Reach

/-!
# Where a run raises its fault

The rule of a node finds out what it does by asking for one evaluation after another, each of them
in a state that depends on the answers before.  Written down as a tree of questions
(`Exec.Dialogue`), a rule can be compared for all evaluators at once.  So there is one question for
every fault: the place where the run raised it, and that is a place that the run comes to.

* `asks_evalStep`              the rules of all nodes do nothing with an evaluator but to ask
* `Dialogue.answer_eq_error`   an error is one of the rule itself, or the answer to a question
* `exists_reaches`             the fault of a run is raised at a place that the run comes to
* `run_of_reaches`             a run that comes to a place where a fault is raised ends with it
-/

namespace VectorLang

open Exec

/-! ## Dialogues -/

namespace Exec

/-- What a computation does, told by the evaluations that it asks for. -/
inductive Dialogue (α : Type) where
  /-- It comes to its end, or stops. -/
  | done (result : EStateM.Result Stop Machine α)
  /-- It asks for the evaluation of a node in a state, and goes on after it. -/
  | ask (node : Node) (m : Machine) (next : Option Value → Machine → Dialogue α)

namespace Dialogue

variable {α β : Type}

/-- What comes of a dialogue with an evaluator.  It stops where an evaluation does. -/
def answer (ev : Evaluator) : Dialogue α → EStateM.Result Stop Machine α
  | done result => result
  | ask node m next =>
    match ev node m with
    | .ok v m' => (next v m').answer ev
    | .error e m' => .error e m'

/-- One dialogue after another. -/
def bind (d : Dialogue α) (f : α → Machine → Dialogue β) : Dialogue β :=
  match d with
  | done (.ok a m) => f a m
  | done (.error e m) => done (.error e m)
  | ask node m next => ask node m fun v m' => (next v m').bind f

theorem answer_ask_of_ok {ev : Evaluator} {node : Node} {m m' : Machine} {v : Option Value}
    (h : ev node m = .ok v m') (next : Option Value → Machine → Dialogue α) :
    (ask node m next).answer ev = (next v m').answer ev := by
  rw [answer, h]

theorem answer_ask_of_error {ev : Evaluator} {node : Node} {m m' : Machine} {e : Stop}
    (h : ev node m = .error e m') (next : Option Value → Machine → Dialogue α) :
    (ask node m next).answer ev = .error e m' := by
  rw [answer, h]

theorem answer_bind (ev : Evaluator) (d : Dialogue α) (f : α → Machine → Dialogue β) :
    (d.bind f).answer ev =
      match d.answer ev with
      | .ok a m => (f a m).answer ev
      | .error e m => .error e m := by
  induction d with
  | done result => cases result <;> rfl
  | ask node m next ih =>
    cases h : ev node m with
    | ok v m' =>
      rw [bind, answer_ask_of_ok h, answer_ask_of_ok h]
      exact ih v m'
    | error e m' => rw [bind, answer_ask_of_error h, answer_ask_of_error h]

end Dialogue

/-- Whether a computation does nothing with an evaluator but to ask for evaluations. -/
def Asks {α : Type} (x : Evaluator → Exec α) : Prop :=
  ∀ m, ∃ d : Dialogue α, ∀ ev, x ev m = d.answer ev

namespace Asks

variable {α β : Type}

/-- A computation that asks for nothing. -/
theorem const (x : Exec α) : Asks fun _ => x :=
  fun m => ⟨.done (x m), fun _ => rfl⟩

/-- One that asks for a single evaluation. -/
theorem ask (node : Node) : Asks fun ev => ev node := by
  intro m
  refine ⟨.ask node m fun v m' => .done (.ok v m'), fun ev => ?_⟩
  show ev node m = _
  cases h : ev node m with
  | ok v m' => rw [Dialogue.answer_ask_of_ok h, Dialogue.answer]
  | error e m' => rw [Dialogue.answer_ask_of_error h]

theorem bind {x : Evaluator → Exec α} {f : Evaluator → α → Exec β} (hx : Asks x)
    (hf : ∀ a, Asks fun ev => f ev a) : Asks fun ev => x ev >>= f ev := by
  choose next hnext using hf
  intro m
  obtain ⟨d, hd⟩ := hx m
  refine ⟨d.bind next, fun ev => ?_⟩
  show (x ev >>= f ev) m = _
  rw [Dialogue.answer_bind, ← hd ev]
  cases h : x ev m with
  | ok a m' =>
    rw [bind_of_ok h]
    exact hnext a m' ev
  | error e m' => exact bind_of_error h

theorem map {x : Evaluator → Exec α} (f : α → β) (hx : Asks x) : Asks fun ev => f <$> x ev := by
  simp only [map_eq_pure_bind]
  exact bind hx fun a => const (pure (f a))

theorem mapM {f : Evaluator → α → Exec β} (hf : ∀ a, Asks fun ev => f ev a) (as : List α) :
    Asks fun ev => as.mapM (f ev) := by
  induction as with
  | nil => exact const (pure [])
  | cons a as ih =>
    simp only [List.mapM_cons]
    exact bind (hf a) fun b => bind ih fun bs => const (pure (b :: bs))

theorem foldlM {f : Evaluator → β → α → Exec β} (hf : ∀ b a, Asks fun ev => f ev b a) (b : β)
    (as : List α) : Asks fun ev => as.foldlM (f ev) b := by
  induction as generalizing b with
  | nil => exact const (pure b)
  | cons a as ih =>
    simp only [List.foldlM_cons]
    exact bind (hf b a) ih

theorem repeatWhile {test : Evaluator → Exec Bool} {body : Evaluator → Exec Unit}
    (htest : Asks test) (hbody : Asks body) (n : Nat) :
    Asks fun ev => Exec.repeatWhile (test ev) (body ev) n := by
  induction n with
  | zero => exact const (throw .outOfFuel)
  | succ n ih =>
    refine bind htest fun b => ?_
    cases b with
    | false => exact const (pure ())
    | true => exact bind hbody fun _ => ih

end Asks

end Exec

/-! ## Rules -/

theorem asks_evalStatements (statements : List Node) :
    Asks fun ev => evalStatements ev statements :=
  .foldlM (fun _ statement => .ask statement) none statements

theorem asks_evalBody (d : Definition Node) : Asks fun ev => evalBody ev d :=
  asks_evalStatements _

theorem asks_evalArguments (params : List String) (args : List Node) :
    Asks fun ev => evalArguments ev params args := by
  refine .foldlM (fun _ pair => ?_) _ (params.zip args)
  exact .bind (.ask pair.2) fun _ => .const _

theorem asks_evalVector (location : Location) (elements : List Node) :
    Asks fun ev => evalVector ev location elements := by
  refine .bind (.mapM (fun element => ?_) elements) fun _ => .const _
  exact .bind (.ask element) fun _ => .const _

theorem asks_evalVar (location : Location) (isGlobal : Bool) (name : String)
    (subscript : Option Node) : Asks fun ev => evalVar ev location isGlobal name subscript := by
  simp only [evalVar_eq]
  refine .bind (.const _) fun _ => ?_
  cases subscript with
  | none => exact .const _
  | some subscript => exact .bind (.ask subscript) fun _ => .const _

theorem asks_evalUnary (location : Location) (op : UnaryOp) (operand : Node) :
    Asks fun ev => evalUnary ev location op operand :=
  .bind (.ask operand) fun _ => .const _

theorem asks_evalBinary (location : Location) (op : Arithmetic) (left right : Node) :
    Asks fun ev => evalBinary ev location op left right :=
  .bind (.ask left) fun _ => .bind (.ask right) fun _ => .const _

theorem asks_evalTest (test : Comparison Node) : Asks fun ev => evalTest ev test :=
  .bind (.ask test.left) fun _ => .bind (.ask test.right) fun _ => .const _

theorem asks_evalCall (ctx : Context) (location : Location) (name : String) (args : List Node) :
    Asks fun ev => evalCall ctx ev location name args := by
  simp only [evalCall_eq]
  refine .bind (.const _) fun _ => ?_
  cases ctx.scopes.get? name with
  | none => exact .const _
  | some scope =>
    refine .bind (.const newFrameId) fun _ => .bind (asks_evalArguments scope.params args) ?_
    refine fun _ => .bind (.const _) fun _ => .bind (.const _) fun _ => ?_
    exact .bind (asks_evalBody scope.definition) fun _ => .const _

theorem asks_evalOutput (value : Node) : Asks fun ev => evalOutput ev value :=
  .bind (.ask value) fun _ => .const _

theorem asks_evalAssign (isGlobal : Bool) (name : String) (value : Option Node) :
    Asks fun ev => evalAssign ev isGlobal name value := by
  simp only [evalAssign_eq]
  refine .bind ?_ fun _ => .const _
  cases value with
  | none => exact .const _
  | some value => exact .ask value

/-- The rules of all nodes ask for evaluations, and do nothing else with an evaluator. -/
theorem asks_evalStep (ctx : Context) (n : Nat) (node : Node) :
    Asks fun ev => evalStep ctx ev n node := by
  cases node with
  | int location value => exact .const (pure _)
  | string location value => exact .const (pure _)
  | vector location elements => exact .map _ (asks_evalVector location elements)
  | var location isGlobal name subscript =>
    exact .map _ (asks_evalVar location isGlobal name subscript)
  | unary location op operand => exact .map _ (asks_evalUnary location op operand)
  | binary location op left right => exact .map _ (asks_evalBinary location op left right)
  | call location isGlobal name args => exact asks_evalCall ctx location name args
  | output location value => exact .bind (.const _) fun _ => asks_evalOutput value
  | assign location isGlobal name value =>
    exact .bind (.const _) fun _ => asks_evalAssign isGlobal name value
  | conditional location test thenBody elseBody =>
    refine .bind (.const _) fun _ => .bind (asks_evalTest test) fun b => ?_
    cases b with
    | true => exact asks_evalStatements thenBody
    | false => exact asks_evalStatements elseBody
  | loop location whileTrue test body =>
    refine .bind (.const _) fun _ => .bind (.repeatWhile ?_ ?_ n) fun _ => .const _
    · exact .bind (asks_evalTest test) fun _ => .const _
    · exact .bind (asks_evalStatements body) fun _ => .const _
  | predicate test => exact .bind (.const _) fun _ => .const _
  | function d => exact .bind (.const _) fun _ => .const _
  | program location name block => exact .bind (.const _) fun _ => .const _

/-- The rule of a node in a state is a dialogue. -/
theorem exists_dialogue (ctx : Context) (n : Nat) (node : Node) (m : Machine) :
    ∃ d : Dialogue (Option Value), ∀ ev, evalStep ctx ev n node m = d.answer ev :=
  asks_evalStep ctx n node m

/-! ## Evaluators that stop -/

/-- Whether an evaluator does what another one does, or else stops for a reason in a state. -/
def MayStop (ev ev' : Evaluator) (stop : Stop) (m : Machine) : Prop :=
  ∀ node m', ev' node m' = ev node m' ∨ ev' node m' = .error stop m

/-- An evaluator that raises no faults: it runs out of fuel instead. -/
def muted (ev : Evaluator) : Evaluator := fun node m =>
  match ev node m with
  | .ok v m' => .ok v m'
  | .error _ m' => .error .outOfFuel m'

theorem muted_of_ok {ev : Evaluator} {node : Node} {m m' : Machine} {v : Option Value}
    (h : ev node m = .ok v m') : muted ev node m = .ok v m' := by
  rw [muted, h]

theorem muted_eq_error {ev : Evaluator} {node : Node} {m m' : Machine} {e : Stop}
    (h : muted ev node m = .error e m') : e = .outOfFuel := by
  rw [muted] at h
  split at h
  · cases h
  · cases h
    rfl

namespace Exec.Dialogue

variable {α : Type} {ev ev' : Evaluator} {stop : Stop} {m : Machine}

/-- A dialogue with an evaluator that may stop is the same as before, or it stops. -/
theorem answer_of_mayStop (h : MayStop ev ev' stop m) (d : Dialogue α) :
    d.answer ev' = d.answer ev ∨ d.answer ev' = .error stop m := by
  induction d with
  | done result => exact Or.inl rfl
  | ask node m₁ next ih =>
    rcases h node m₁ with heq | heq
    · cases hanswer : ev node m₁ with
      | ok v m' =>
        rw [answer_ask_of_ok hanswer, answer_ask_of_ok (heq.trans hanswer)]
        exact ih v m'
      | error e m' =>
        rw [answer_ask_of_error hanswer, answer_ask_of_error (heq.trans hanswer)]
        exact Or.inl rfl
    · exact Or.inr (answer_ask_of_error heq next)

/-- A dialogue that ends with an error does so of itself, or the error is the answer to one of its
    questions.  Any evaluator that stops at that question stops the dialogue. -/
theorem answer_eq_error {e : Stop} {m' : Machine} {d : Dialogue α}
    (h : d.answer ev = .error e m') :
    d.answer (muted ev) = .error e m' ∨
      ∃ node m₁, ev node m₁ = .error e m' ∧ ∀ ev' stop m, MayStop ev ev' stop m →
        ev' node m₁ = .error stop m → d.answer ev' = .error stop m := by
  induction d with
  | done result => exact Or.inl h
  | ask node m₁ next ih =>
    cases hanswer : ev node m₁ with
    | ok v m₂ =>
      rw [answer_ask_of_ok hanswer] at h
      rw [answer_ask_of_ok (muted_of_ok hanswer)]
      rcases ih v m₂ h with hown | ⟨c, m₃, hc, hstops⟩
      · exact Or.inl hown
      · refine Or.inr ⟨c, m₃, hc, fun ev' stop m hmay hstop => ?_⟩
        -- the dialogue comes to the question, unless it is stopped before
        rcases hmay node m₁ with heq | heq
        · rw [answer_ask_of_ok (heq.trans hanswer)]
          exact hstops ev' stop m hmay hstop
        · exact answer_ask_of_error heq next
    | error e' m₂ =>
      rw [answer_ask_of_error hanswer] at h
      cases h
      refine Or.inr ⟨node, m₁, hanswer, fun ev' stop m _ hstop => ?_⟩
      exact answer_ask_of_error hstop next

end Exec.Dialogue

/-- An evaluation that may be stopped at a place is the same as before, or it is stopped there. -/
theorem mayStop_evalStopped (ctx : Context) (place : Node × Machine) (stop : Stop) (n : Nat) :
    MayStop (eval ctx n) (evalStopped ctx place stop n) stop place.2 := by
  induction n with
  | zero => exact fun node m => Or.inl rfl
  | succ n ih =>
    intro node m
    by_cases h : (node, m) = place
    · rw [← h]
      exact Or.inr evalStopped_self
    · obtain ⟨d, hd⟩ := exists_dialogue ctx n node m
      rw [evalStopped_of_ne h, hd, eval, hd]
      exact d.answer_of_mayStop ih

/-! ## Faults -/

section

variable {ctx : Context} {f : Fault} {m m' : Machine}

/-- A fault is raised by the rule of a node that the evaluation comes to, though nothing below that
    node raises one. -/
theorem exists_raised {n : Nat} {node : Node} (h : eval ctx n node m = .error (.fault f) m') :
    ∃ c m₀ k, (∀ stop, evalStopped ctx (c, m₀) stop n node m = .error stop m₀) ∧
      evalStep ctx (muted (eval ctx k)) k c m₀ = .error (.fault f) m' := by
  induction n generalizing node m with
  | zero => cases h
  | succ n ih =>
    obtain ⟨d, hd⟩ := exists_dialogue ctx n node m
    rw [eval, hd] at h
    rcases Dialogue.answer_eq_error h with hown | ⟨c, m₁, hc, hstops⟩
    · rw [← hd] at hown
      exact ⟨node, m, n, fun stop => evalStopped_self, hown⟩
    · obtain ⟨c', m₀, k, hplace, hraised⟩ := ih hc
      refine ⟨c', m₀, k, fun stop => ?_, hraised⟩
      by_cases hself : (node, m) = (c', m₀)
      · cases hself
        exact evalStopped_self
      · rw [evalStopped_of_ne hself, hd]
        exact hstops _ _ _ (mayStop_evalStopped ctx (c', m₀) stop n) (hplace stop)

/-- Statements and arguments, one after another, raise no faults but those of their own. -/
theorem composes_muted : Composes (fun _ _ => True) (fun _ e _ => e = .outOfFuel) :=
  ⟨fun _ => trivial, fun _ _ => trivial, fun _ h => h⟩

theorem within_muted (ev : Evaluator) (node : Node) :
    Within (fun _ _ => True) (fun _ e _ => e = .outOfFuel) (muted ev node) :=
  ⟨fun _ => trivial, muted_eq_error⟩

theorem evalBody_muted_eq_error {ev : Evaluator} {d : Definition Node} {e : Stop}
    (h : evalBody (muted ev) d m = .error e m') : e = .outOfFuel :=
  (composes_muted.within_evalBody fun s _ _ => within_muted ev s).error h

theorem evalArguments_muted_eq_error {ev : Evaluator} {params : List String} {args : List Node}
    {e : Stop} (h : evalArguments (muted ev) params args m = .error e m') : e = .outOfFuel := by
  have hargs : Within (fun _ _ => True) (fun _ e _ => e = .outOfFuel)
      (evalArguments (muted ev) params args) :=
    @Sequential.arguments _ composes_muted.sequential _ (muted ev) args
      (fun arg _ => within_muted ev arg) params
  exact hargs.error h

/-- The fault that ended a run was raised by the rule of a node that the run came to, though
    nothing below that node raised one. -/
theorem exists_reaches {fuel : Nat} (h : run ctx fuel = ⟨.failed f, m⟩) :
    ∃ c m₀ k, ctx.Reaches fuel c m₀ ∧
      evalStep ctx (muted (eval ctx k)) k c m₀ = .error (.fault f) m := by
  have hrun := run_eq_failed.mp (congrArg Outcome.ending h)
  rw [h] at hrun
  change ctx.runWith (eval ctx fuel) = _ at hrun
  obtain ⟨d, hd⟩ : ∃ d : Dialogue (Option Value), ∀ ev, ctx.runWith ev = d.answer ev :=
    asks_evalBody ctx.scopes.global.definition ctx.start
  rw [hd] at hrun
  rcases Dialogue.answer_eq_error hrun with hown | ⟨c, m₁, hc, hstops⟩
  · rw [← hd] at hown
    cases evalBody_muted_eq_error hown
  · obtain ⟨c', m₀, k, hplace, hraised⟩ := exists_raised hc
    refine ⟨c', m₀, k, fun stop => ?_, hraised⟩
    rw [hd]
    exact hstops _ _ _ (mayStop_evalStopped ctx (c', m₀) stop fuel) (hplace stop)

/-- Stopping an evaluation at a place where it stops anyway makes no difference. -/
theorem evalStopped_eq_eval {node : Node} {stop : Stop}
    (h : ∀ n, eval ctx (n + 1) node m = .error stop m) (n : Nat) :
    evalStopped ctx (node, m) stop n = eval ctx n := by
  induction n with
  | zero => rfl
  | succ n ih =>
    funext node' m'
    by_cases hplace : (node', m') = (node, m)
    · cases hplace
      rw [evalStopped_self, h]
    · rw [evalStopped_of_ne hplace, ih, eval]

/-- A run that comes to a node which always raises a fault raises it. -/
theorem run_of_reaches {fuel : Nat} {node : Node} (hreach : ctx.Reaches fuel node m)
    (h : ∀ n, eval ctx (n + 1) node m = .error (.fault f) m) : run ctx fuel = ⟨.failed f, m⟩ := by
  have hrun := hreach (.fault f)
  rw [evalStopped_eq_eval h] at hrun
  rw [run_eq, hrun]
  rfl

end

end VectorLang
