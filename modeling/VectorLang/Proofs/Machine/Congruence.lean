import VectorLang.Machine.Eval
import VectorLang.Proofs.Success

/-!
# Relations between evaluations

Two evaluations of one node take the same rule.  They are related, for any relation between
computations, if the basic steps of the rules are and if the relation is kept where one
computation follows another (`Congruence`).  What a single evaluation does is the case where
the two are the same.

The nodes that are evaluated may be restricted to a set that holds the parts of its nodes and
the statements of all functions (`Closed`).  A fault is one of those that the rule of the node
can raise (`Node.Raises`).

All of this comes down to the rule of one node (`RuleCongruence`), where more may be known: of the
node itself, and of the values that its parts have.  Less is needed for the rules of expressions
without calls (`ExpressionCongruence`).

* `Sequential`               a relation that is kept where one computation follows another
* `RuleCongruence.related`   the rule of one node
* `related_evalStep`         the rules of all nodes, given evaluators that are related
* `related_eval`             every evaluation
-/

namespace VectorLang

/-! ## Nodes -/

/-- The nodes that the rule of a node evaluates, but for the body of a function that is
    called. -/
def Node.parts : Node → List Node
  | .int .. | .string .. | .predicate .. | .function .. | .program .. => []
  | .vector _ elements => elements
  | .var _ _ _ subscript => subscript.toList
  | .unary _ _ operand => [operand]
  | .binary _ _ left right => [left, right]
  | .call _ _ _ args => args
  | .output _ value => [value]
  | .assign _ _ _ value => value.toList
  | .conditional _ test thenBody elseBody => test.left :: test.right :: (thenBody ++ elseBody)
  | .loop _ _ test body => test.left :: test.right :: body

/-- The comparison that decides what a statement does. -/
def Node.test? : Node → Option (Comparison Node)
  | .conditional _ test _ _ | .loop _ _ test _ => some test
  | _ => none

/-- Whether a set of nodes holds all nodes that are evaluated below one of its nodes or in a
    function. -/
structure Closed (scopes : ScopeTable) (N : Node → Prop) : Prop where
  parts {node part : Node} : N node → part ∈ node.parts → N part
  bodies {name : String} {scope : Scope} {statement : Node} : scopes.get? name = some scope →
    statement ∈ scope.definition.body → statement.isFunction = false → N statement

/-- The set of all nodes. -/
def Node.Any (_ : Node) : Prop := True

theorem closed_any (scopes : ScopeTable) : Closed scopes Node.Any :=
  ⟨fun _ _ => trivial, fun _ _ _ => trivial⟩

/-- The faults that the rule of a node can raise, each with the state that it is raised in
    and the location that it is reported at. -/
inductive Node.Raises (scopes : ScopeTable) : Machine → Node → FaultCause → Location → Prop where
  | undefinedElement {m : Machine} {location : Location} {elements : List Node} {element : Node} :
      element ∈ elements →
      Raises scopes m (.vector location elements) .undefinedElement element.location
  | mixedElements {m : Machine} {location : Location} {elements : List Node} :
      Raises scopes m (.vector location elements) .mixedElements location
  | undefinedVariable {m : Machine} {location : Location} {name : String}
      {subscript : Option Node} :
      m.stack.top.vars.get? name = none →
      Raises scopes m (.var location false name subscript) (.undefinedVariable name) location
  | uninitializedGlobal {m : Machine} {location : Location} {name : String}
      {subscript : Option Node} :
      m.stack.globals.vars.get? name = none →
      Raises scopes m (.var location true name subscript) (.uninitializedGlobal name) location
  | invalidSubscript {m : Machine} {location : Location} {isGlobal : Bool} {name shown : String}
      {subscript : Node} :
      Raises scopes m (.var location isGlobal name (some subscript)) (.invalidSubscript shown)
        location
  | subscriptOutOfRange {m : Machine} {location : Location} {isGlobal : Bool} {name : String}
      {subscript : Node} :
      Raises scopes m (.var location isGlobal name (some subscript)) .subscriptOutOfRange location
  | negationOfOther {m : Machine} {location : Location} {operand : Node} :
      Raises scopes m (.unary location .negation operand) .negationOfOther location
  | lengthOfUndefined {m : Machine} {location : Location} {operand : Node} :
      Raises scopes m (.unary location .length operand) .lengthOfUndefined location
  | arithmeticOnOther {m : Machine} {location : Location} {op : Arithmetic} {left right : Node} :
      Raises scopes m (.binary location op left right) (.arithmeticOnOther op) location
  | unequalOperands {m : Machine} {location : Location} {op : Arithmetic} {left right : Node} :
      Raises scopes m (.binary location op left right) (.unequalOperands op) location
  | divisionByZero {m : Machine} {location : Location} {left right : Node} :
      Raises scopes m (.binary location .div left right) .divisionByZero location
  | incomparable {m : Machine} {node : Node} {test : Comparison Node} :
      node.test? = some test →
      Raises scopes m node (.incomparable test.relation) test.location
  | unequalSides {m : Machine} {node : Node} {test : Comparison Node} :
      node.test? = some test →
      Raises scopes m node (.unequalSides test.relation) test.location
  | callStackExceeded {m : Machine} {location : Location} {isGlobal : Bool} {name : String}
      {args : List Node} :
      maxDepth < m.stack.depth →
      Raises scopes m (.call location isGlobal name args) .callStackExceeded location
  | undefinedFunction {m : Machine} {location : Location} {isGlobal : Bool} {name : String}
      {args : List Node} :
      scopes.get? name = none →
      Raises scopes m (.call location isGlobal name args) (.undefinedFunction name) location
  | predicateAsValue {m : Machine} {test : Comparison Node} :
      Raises scopes m (.predicate test) .predicateAsValue test.location
  | unsupportedFunction {m : Machine} {d : Definition Node} :
      Raises scopes m (.function d) (.unsupportedNode (Node.function d).label) d.location
  | unsupportedProgram {m : Machine} {location : Location} {name : String}
      {block : Definition Node} :
      Raises scopes m (.program location name block)
        (.unsupportedNode (Node.program location name block).label) location

/-! ## Basic steps -/

namespace Exec

/-- Reads a variable. -/
def readVariable (location : Location) (isGlobal : Bool) (name : String) : Exec Value := do
  let m ← get
  ofOption (if isGlobal then .uninitializedGlobal name else .undefinedVariable name) location
    ((m.stack.owner isGlobal).vars.get? name)

/-- Gives a variable a value, or removes it. -/
def writeVariable (isGlobal : Bool) (name : String) : Option Value → Exec Unit
  | some v => modifyStack (·.modifyOwner isGlobal (Frame.setVariable name v))
  | none => modifyStack (·.modifyOwner isGlobal (Frame.eraseVariable name))

/-- Prints a value, if there is one. -/
def printValue (v : Option Value) : Exec (Option Value) := do
  match v with
  | some v => print (← shown v.render?)
  | none => pure ()
  return v

/-- Checks that a call may be opened. -/
def checkDepth (location : Location) : Exec Unit := do
  let m ← get
  if maxDepth < m.stack.depth then fail .callStackExceeded location

/-- Runs the body of a function in a frame of its own, after its arguments. -/
def inFrame (ctx : Context) (location : Location) (name : String) (arguments : Exec Bindings)
    (body : Exec (Option Value)) : Exec (Option Value) := do
  let id ← newFrameId
  let vars ← arguments
  log ctx (.call name) location
  modifyStack (·.push ⟨name, vars, id, some location⟩)
  let result ← body
  modifyStack CallStack.pop
  return result

end Exec

open Exec

theorem evalVar_eq (ev : Evaluator) (location : Location) (isGlobal : Bool) (name : String)
    (subscript : Option Node) :
    evalVar ev location isGlobal name subscript =
      readVariable location isGlobal name >>= fun v =>
        match subscript with
        | none => pure v
        | some subscript => ev subscript >>= fun places =>
          match places with
          | some (.ints places) => ofOption .subscriptOutOfRange location (v.select? places)
          | some (.text shown) => fail (.invalidSubscript shown) location
          | none => fail (.invalidSubscript "") location := by
  funext m
  cases isGlobal <;> rfl

theorem evalAssign_eq (ev : Evaluator) (isGlobal : Bool) (name : String) (value : Option Node) :
    evalAssign ev isGlobal name value =
      (match value with
        | none => pure none
        | some value => ev value) >>= fun v =>
          writeVariable isGlobal name v >>= fun _ => pure v := by
  cases value with
  | none => rfl
  | some value =>
    show (ev value >>= _) = (ev value >>= _)
    congr 1
    funext v
    cases v <;> rfl

/-- What comes after the check is done where it succeeds. -/
theorem checkDepth_bind {α : Type} (location : Location) (f : Unit → Exec α) :
    (checkDepth location >>= f) =
      get >>= fun m =>
        if maxDepth < m.stack.depth then fail .callStackExceeded location >>= f else f () := by
  funext m
  show (bind (if maxDepth < m.stack.depth then fail .callStackExceeded location else pure ()) f) m =
    (if maxDepth < m.stack.depth then fail .callStackExceeded location >>= f else f ()) m
  split
  · rfl
  · rfl

theorem evalCall_eq (ctx : Context) (ev : Evaluator) (location : Location) (name : String)
    (args : List Node) :
    evalCall ctx ev location name args =
      checkDepth location >>= fun _ =>
        match ctx.scopes.get? name with
        | some scope =>
          inFrame ctx location name (evalArguments ev scope.params args)
            (evalBody ev scope.definition)
        | none => fail (.undefinedFunction name) location := by
  rw [checkDepth_bind, evalCall]
  cases ctx.scopes.get? name with
  | some scope => rfl
  | none => rfl

/-! ## One computation after another -/

/-- A relation between computations, by the type of their results, that is kept where one
    computation follows another. -/
structure Sequential (Rel : (α : Type) → Exec α → Exec α → Prop) : Prop where
  pure {α : Type} (a : α) : Rel α (Pure.pure a) (Pure.pure a)
  bind {α β : Type} {x₁ x₂ : Exec α} {f₁ f₂ : α → Exec β} : Rel α x₁ x₂ →
    (∀ a, Rel β (f₁ a) (f₂ a)) → Rel β (x₁ >>= f₁) (x₂ >>= f₂)

namespace Sequential

variable {Rel : (α : Type) → Exec α → Exec α → Prop} {α β : Type}

theorem map (h : Sequential Rel) {x₁ x₂ : Exec α} (f : α → β) (hx : Rel α x₁ x₂) :
    Rel β (f <$> x₁) (f <$> x₂) := by
  rw [map_eq_pure_bind, map_eq_pure_bind]
  exact h.bind hx fun a => h.pure (f a)

theorem mapM (h : Sequential Rel) {f₁ f₂ : α → Exec β} (as : List α)
    (hf : ∀ a ∈ as, Rel β (f₁ a) (f₂ a)) : Rel (List β) (as.mapM f₁) (as.mapM f₂) := by
  induction as with
  | nil => exact h.pure []
  | cons a as ih =>
    obtain ⟨ha, has⟩ := List.forall_mem_cons.mp hf
    rw [List.mapM_cons, List.mapM_cons]
    exact h.bind ha fun _ => h.bind (ih has) fun _ => h.pure _

theorem foldlM (h : Sequential Rel) {f₁ f₂ : β → α → Exec β} (b : β) (as : List α)
    (hf : ∀ b, ∀ a ∈ as, Rel β (f₁ b a) (f₂ b a)) : Rel β (as.foldlM f₁ b) (as.foldlM f₂ b) := by
  induction as generalizing b with
  | nil => exact h.pure b
  | cons a as ih =>
    rw [List.foldlM_cons, List.foldlM_cons]
    refine h.bind (hf b a List.mem_cons_self) fun b' => ?_
    exact ih b' fun b a ha => hf b a (List.mem_cons_of_mem _ ha)

/-- The tests and rounds of a loop follow one another. -/
theorem repeatWhile (h : Sequential Rel) {test₁ test₂ : Exec Bool} {body₁ body₂ : Exec Unit}
    (htest : Rel Bool test₁ test₂) (hbody : Rel Unit body₁ body₂)
    (hfuel : Rel Unit (throw .outOfFuel) (throw .outOfFuel)) (n : Nat) :
    Rel Unit (Exec.repeatWhile test₁ body₁ n) (Exec.repeatWhile test₂ body₂ n) := by
  induction n with
  | zero => exact hfuel
  | succ n ih =>
    refine h.bind htest fun b => ?_
    cases b with
    | false => exact h.pure ()
    | true => exact h.bind hbody fun _ => ih

theorem statements (h : Sequential Rel) {ev₁ ev₂ : Evaluator} {statements : List Node}
    (hev : ∀ s ∈ statements, Rel (Option Value) (ev₁ s) (ev₂ s)) :
    Rel (Option Value) (evalStatements ev₁ statements) (evalStatements ev₂ statements) :=
  h.foldlM none statements fun _ s hs => hev s hs

theorem arguments (h : Sequential Rel) {ev₁ ev₂ : Evaluator} {args : List Node}
    (hev : ∀ arg ∈ args, Rel (Option Value) (ev₁ arg) (ev₂ arg)) (params : List String) :
    Rel Bindings (evalArguments ev₁ params args) (evalArguments ev₂ params args) := by
  refine h.foldlM Bindings.empty (params.zip args) fun bound p hp => ?_
  refine h.bind (hev p.2 (List.of_mem_zip hp).2) fun v => ?_
  cases v with
  | some v => exact h.pure _
  | none => exact h.pure _

end Sequential

/-! ## The rule of one node -/

/-- Of all operators, only division has no result for some integers. -/
theorem eq_div_of_result {op : Arithmetic} {x y : Int} (hresult : op.result? x y = none) :
    op = .div := by
  cases op with
  | div => rfl
  | _ => exact nomatch hresult

/-- A relation between computations that the rule of an expression without calls is in, for two
    evaluators.  What is known of the values that its parts have is `Post`. -/
structure ExpressionCongruence (scopes : ScopeTable) (ev₁ ev₂ : Evaluator) (node : Node)
    (Post : Node → Option Value → Prop) (Rel : (α : Type) → Exec α → Exec α → Prop) : Prop
    extends Sequential Rel where
  /-- A part of the node is evaluated. -/
  part {β : Type} {c : Node} {f₁ f₂ : Option Value → Exec β} : c ∈ node.parts →
    (∀ v, Post c v → Rel β (f₁ v) (f₂ v)) → Rel β (ev₁ c >>= f₁) (ev₂ c >>= f₂)
  /-- The rule fails, whatever the state is. -/
  fail {α : Type} {cause : FaultCause} {location : Location} :
    (∀ m, node.Raises scopes m cause location) →
    (cause = .undefinedElement → ∃ c ∈ node.parts, Post c none) →
    Rel α (Exec.fail cause location) (Exec.fail cause location)
  readVariable {location : Location} {isGlobal : Bool} {name : String} {subscript : Option Node} :
    node = .var location isGlobal name subscript →
    Rel Value (Exec.readVariable location isGlobal name) (Exec.readVariable location isGlobal name)

/-- The same for the rule of any node. -/
structure RuleCongruence (ctx₁ ctx₂ : Context) (ev₁ ev₂ : Evaluator) (fuel₁ fuel₂ : Nat)
    (node : Node) (Post : Node → Option Value → Prop)
    (Rel : (α : Type) → Exec α → Exec α → Prop) : Prop
    extends ExpressionCongruence ctx₁.scopes ev₁ ev₂ node Post Rel where
  log (action : Action) (location : Location) :
    Rel Unit (Exec.log ctx₁ action location) (Exec.log ctx₂ action location)
  /-- A value is printed, after the step was logged. -/
  output {location : Location} {value : Node} : node = .output location value →
    Rel (Option Value) (ev₁ value) (ev₂ value) →
    Rel (Option Value)
      (Exec.log ctx₁ (.node (Node.output location value).label) location >>= fun _ =>
        evalOutput ev₁ value)
      (Exec.log ctx₂ (.node (Node.output location value).label) location >>= fun _ =>
        evalOutput ev₂ value)
  /-- A variable is written, with no value if none is assigned. -/
  writeVariable {location : Location} {isGlobal : Bool} {name : String} {value : Option Node}
    (v : Option Value) : node = .assign location isGlobal name value → (value = none → v = none) →
    Rel Unit (Exec.writeVariable isGlobal name v) (Exec.writeVariable isGlobal name v)
  /-- A function is called, whose arguments are related. -/
  call {location : Location} {isGlobal : Bool} {name : String} {args : List Node} :
    node = .call location isGlobal name args →
    (∀ params, Rel Bindings (evalArguments ev₁ params args) (evalArguments ev₂ params args)) →
    Rel (Option Value) (evalCall ctx₁ ev₁ location name args) (evalCall ctx₂ ev₂ location name args)
  /-- A loop is run, whose tests and rounds are related. -/
  loop {location : Location} {whileTrue : Bool} {test : Comparison Node} {body : List Node}
    {test₁ test₂ : Exec Bool} {body₁ body₂ : Exec Unit} :
    node = .loop location whileTrue test body → Rel Bool test₁ test₂ → Rel Unit body₁ body₂ →
    Rel Unit (Exec.repeatWhile test₁ body₁ fuel₁) (Exec.repeatWhile test₂ body₂ fuel₂)

namespace ExpressionCongruence

variable {scopes : ScopeTable} {ev₁ ev₂ : Evaluator} {node : Node}
  {Post : Node → Option Value → Prop} {Rel : (α : Type) → Exec α → Exec α → Prop}

/-- The evaluations of a part are related, whatever is known of its value. -/
theorem value (h : ExpressionCongruence scopes ev₁ ev₂ node Post Rel) {c : Node}
    (hc : c ∈ node.parts) : Rel (Option Value) (ev₁ c) (ev₂ c) := by
  have hpart : Rel (Option Value) (ev₁ c >>= Pure.pure) (ev₂ c >>= Pure.pure) :=
    h.part hc fun v _ => h.pure v
  rwa [bind_pure, bind_pure] at hpart

theorem ofOption (h : ExpressionCongruence scopes ev₁ ev₂ node Post Rel) {α : Type}
    {cause : FaultCause} {location : Location} (o : Option α)
    (hraises : o = none → ∀ m, node.Raises scopes m cause location)
    (hcause : cause ≠ .undefinedElement) :
    Rel α (Exec.ofOption cause location o) (Exec.ofOption cause location o) := by
  cases o with
  | none => exact h.fail (hraises rfl) fun heq => absurd heq hcause
  | some a => exact h.pure a

theorem vector (h : ExpressionCongruence scopes ev₁ ev₂ node Post Rel)
    {location : Location} {elements : List Node} (hnode : node = .vector location elements) :
    Rel Value (evalVector ev₁ location elements) (evalVector ev₂ location elements) := by
  subst hnode
  refine h.bind (h.mapM elements fun element helement => ?_) fun values => ?_
  · refine h.part helement fun v hv => ?_
    cases v with
    | some v => exact h.pure v
    | none => exact h.fail (fun _ => .undefinedElement helement) fun _ => ⟨element, helement, hv⟩
  · exact h.ofOption _ (fun _ _ => .mixedElements) (by simp)

theorem var (h : ExpressionCongruence scopes ev₁ ev₂ node Post Rel)
    {location : Location} {isGlobal : Bool} {name : String} {subscript : Option Node}
    (hnode : node = .var location isGlobal name subscript) :
    Rel Value (evalVar ev₁ location isGlobal name subscript)
      (evalVar ev₂ location isGlobal name subscript) := by
  rw [evalVar_eq, evalVar_eq]
  refine h.bind (h.readVariable hnode) fun v => ?_
  subst hnode
  cases subscript with
  | none => exact h.pure v
  | some subscript =>
    refine h.part (Option.mem_toList.mpr rfl) fun places _ => ?_
    -- only a vector of numbers selects anything
    match places with
    | some (.ints _) => exact h.ofOption _ (fun _ _ => .subscriptOutOfRange) (by simp)
    | some (.text _) => exact h.fail (fun _ => .invalidSubscript) (by simp)
    | none => exact h.fail (fun _ => .invalidSubscript) (by simp)

theorem unary (h : ExpressionCongruence scopes ev₁ ev₂ node Post Rel)
    {location : Location} {op : UnaryOp} {operand : Node}
    (hnode : node = .unary location op operand) :
    Rel Value (evalUnary ev₁ location op operand) (evalUnary ev₂ location op operand) := by
  subst hnode
  refine h.part List.mem_cons_self fun v _ => ?_
  match op, v with
  | .negation, some (.ints _) => exact h.pure _
  | .negation, some (.text _) => exact h.fail (fun _ => .negationOfOther) (by simp)
  | .negation, none => exact h.fail (fun _ => .negationOfOther) (by simp)
  | .length, some _ => exact h.pure _
  | .length, none => exact h.fail (fun _ => .lengthOfUndefined) (by simp)

theorem binary (h : ExpressionCongruence scopes ev₁ ev₂ node Post Rel)
    {location : Location} {op : Arithmetic} {left right : Node}
    (hnode : node = .binary location op left right) :
    Rel Value (evalBinary ev₁ location op left right) (evalBinary ev₂ location op left right) := by
  subst hnode
  refine h.part (c := left) (by simp [Node.parts]) fun x _ => ?_
  refine h.part (c := right) (by simp [Node.parts]) fun y _ => ?_
  match x, y with
  | some (.ints _), some (.ints _) =>
    refine h.bind (h.ofOption _ (fun _ _ => .unequalOperands) (by simp)) fun pairs => ?_
    refine h.map _ (h.ofOption _ (fun hpairs _ => ?_) (by simp))
    obtain ⟨p, _, hp⟩ := mapM_eq_none_iff.mp hpairs
    obtain rfl := eq_div_of_result hp
    exact .divisionByZero
  | some (.ints _), some (.text _) => exact h.fail (fun _ => .arithmeticOnOther) (by simp)
  | some (.ints _), none => exact h.fail (fun _ => .arithmeticOnOther) (by simp)
  | some (.text _), _ => exact h.fail (fun _ => .arithmeticOnOther) (by simp)
  | none, _ => exact h.fail (fun _ => .arithmeticOnOther) (by simp)

theorem test (h : ExpressionCongruence scopes ev₁ ev₂ node Post Rel)
    {test : Comparison Node} (htest : node.test? = some test) (hleft : test.left ∈ node.parts)
    (hright : test.right ∈ node.parts) : Rel Bool (evalTest ev₁ test) (evalTest ev₂ test) := by
  refine h.part hleft fun x _ => h.part hright fun y _ => ?_
  match x, y with
  | some (.ints xs), some (.ints ys) =>
    show Rel Bool (if xs.length = ys.length then _ else _) (if xs.length = ys.length then _ else _)
    split
    · exact h.pure _
    · exact h.fail (fun _ => .unequalSides htest) (by simp)
  | some (.text _), some (.text _) => exact h.pure _
  | some (.ints _), some (.text _) => exact h.fail (fun _ => .incomparable htest) (by simp)
  | some (.ints _), none => exact h.fail (fun _ => .incomparable htest) (by simp)
  | some (.text _), some (.ints _) => exact h.fail (fun _ => .incomparable htest) (by simp)
  | some (.text _), none => exact h.fail (fun _ => .incomparable htest) (by simp)
  | none, _ => exact h.fail (fun _ => .incomparable htest) (by simp)

end ExpressionCongruence

namespace RuleCongruence

variable {ctx₁ ctx₂ : Context} {ev₁ ev₂ : Evaluator} {fuel₁ fuel₂ : Nat} {node : Node}
  {Post : Node → Option Value → Prop} {Rel : (α : Type) → Exec α → Exec α → Prop}

theorem assign (h : RuleCongruence ctx₁ ctx₂ ev₁ ev₂ fuel₁ fuel₂ node Post Rel)
    {location : Location} {isGlobal : Bool} {name : String} {value : Option Node}
    (hnode : node = .assign location isGlobal name value) :
    Rel (Option Value) (evalAssign ev₁ isGlobal name value)
      (evalAssign ev₂ isGlobal name value) := by
  have hwrite (v : Option Value) (hv : value = none → v = none) :
      Rel (Option Value) (Exec.writeVariable isGlobal name v >>= fun _ => Pure.pure v)
        (Exec.writeVariable isGlobal name v >>= fun _ => Pure.pure v) :=
    h.bind (h.writeVariable v hnode hv) fun _ => h.pure v
  rw [evalAssign_eq, evalAssign_eq]
  cases value with
  | none =>
    rw [pure_bind]
    exact hwrite none fun _ => rfl
  | some value =>
    apply h.bind
    · apply h.value
      rw [hnode]
      exact Option.mem_toList.mpr rfl
    · exact fun v => hwrite v (by simp)

/-- The rule of a node is related to itself. -/
theorem related (h : RuleCongruence ctx₁ ctx₂ ev₁ ev₂ fuel₁ fuel₂ node Post Rel) :
    Rel (Option Value) (evalStep ctx₁ ev₁ fuel₁ node) (evalStep ctx₂ ev₂ fuel₂ node) := by
  cases hnode : node with
  | int location value => exact h.pure _
  | string location value => exact h.pure _
  | vector location elements => exact h.map _ (h.vector hnode)
  | var location isGlobal name subscript => exact h.map _ (h.var hnode)
  | unary location op operand => exact h.map _ (h.unary hnode)
  | binary location op left right => exact h.map _ (h.binary hnode)
  | call location isGlobal name args =>
    refine h.call hnode fun params => h.arguments (fun arg harg => h.value ?_) params
    rw [hnode]
    exact harg
  | output location value =>
    refine h.output hnode (h.value ?_)
    rw [hnode]
    exact List.mem_cons_self
  | assign location isGlobal name value =>
    exact h.bind (h.log _ location) fun _ => h.assign hnode
  | conditional location test thenBody elseBody =>
    have htest : Rel Bool (evalTest ev₁ test) (evalTest ev₂ test) :=
      h.test (by rw [hnode]; rfl) (by simp [hnode, Node.parts]) (by simp [hnode, Node.parts])
    refine h.bind (h.log _ location) fun _ => h.bind htest fun b => ?_
    cases b with
    | true => exact h.statements fun s hs => h.value (by simp [hnode, Node.parts, hs])
    | false => exact h.statements fun s hs => h.value (by simp [hnode, Node.parts, hs])
  | loop location whileTrue test body =>
    have htest : Rel Bool (evalTest ev₁ test) (evalTest ev₂ test) :=
      h.test (by rw [hnode]; rfl) (by simp [hnode, Node.parts]) (by simp [hnode, Node.parts])
    have hbody : Rel (Option Value) (evalStatements ev₁ body) (evalStatements ev₂ body) :=
      h.statements fun s hs => h.value (by simp [hnode, Node.parts, hs])
    refine h.bind (h.log _ location) fun _ => ?_
    refine h.bind (h.loop hnode ?_ ?_) fun _ => h.pure none
    · exact h.bind htest fun b => h.pure _
    · exact h.bind hbody fun _ => h.pure ()
  | predicate test =>
    refine h.bind (h.log _ _) fun _ => h.fail (fun _ => ?_) (by simp)
    rw [hnode]
    exact .predicateAsValue
  | function d =>
    refine h.bind (h.log _ _) fun _ => h.fail (fun _ => ?_) (by simp)
    rw [hnode]
    exact .unsupportedFunction
  | program location name d =>
    refine h.bind (h.log _ _) fun _ => h.fail (fun _ => ?_) (by simp)
    rw [hnode]
    exact .unsupportedProgram

end RuleCongruence

/-! ## Related evaluations -/

/-- A relation between computations, by the type of their results, that the basic steps of
    two evaluators are in and that is kept where one computation follows another.  Both
    evaluate nodes of the set `N`, one of them as `ctx₁` and `ev₁` say and the other one as
    `ctx₂` and `ev₂` say. -/
structure Congruence (ctx₁ ctx₂ : Context) (ev₁ ev₂ : Evaluator) (N : Node → Prop)
    (Rel : (α : Type) → Exec α → Exec α → Prop) : Prop where
  scopes : ctx₂.scopes = ctx₁.scopes
  pure {α : Type} (a : α) : Rel α (Pure.pure a) (Pure.pure a)
  bind {α β : Type} {x₁ x₂ : Exec α} {f₁ f₂ : α → Exec β} : Rel α x₁ x₂ →
    (∀ a, Rel β (f₁ a) (f₂ a)) → Rel β (x₁ >>= f₁) (x₂ >>= f₂)
  /-- The rule of a node fails, whatever the state is. -/
  fail {α : Type} {node : Node} {cause : FaultCause} {location : Location} : N node →
    (∀ m, node.Raises ctx₁.scopes m cause location) →
    Rel α (Exec.fail cause location) (Exec.fail cause location)
  outOfFuel {α : Type} : Rel α (throw .outOfFuel) (throw .outOfFuel)
  readVariable {location : Location} {isGlobal : Bool} {name : String} {subscript : Option Node} :
    N (.var location isGlobal name subscript) →
    Rel Value (Exec.readVariable location isGlobal name) (Exec.readVariable location isGlobal name)
  log (action : Action) (location : Location) :
    Rel Unit (Exec.log ctx₁ action location) (Exec.log ctx₂ action location)
  /-- A value is printed, after the step was logged. -/
  output {location : Location} {value : Node} : N (.output location value) →
    Rel (Option Value) (ev₁ value) (ev₂ value) →
    Rel (Option Value)
      (Exec.log ctx₁ (.node (Node.output location value).label) location >>= fun _ =>
        evalOutput ev₁ value)
      (Exec.log ctx₂ (.node (Node.output location value).label) location >>= fun _ =>
        evalOutput ev₂ value)
  writeVariable {location : Location} {isGlobal : Bool} {name : String} {value : Option Node}
    (v : Option Value) : N (.assign location isGlobal name value) →
    Rel Unit (Exec.writeVariable isGlobal name v) (Exec.writeVariable isGlobal name v)
  checkDepth {location : Location} {isGlobal : Bool} {name : String} {args : List Node} :
    N (.call location isGlobal name args) →
    Rel Unit (Exec.checkDepth location) (Exec.checkDepth location)
  /-- A function is run, after its arguments. -/
  inFrame {location : Location} {isGlobal : Bool} {name : String} {args : List Node}
    {arguments₁ arguments₂ : Exec Bindings} {body₁ body₂ : Exec (Option Value)} :
    N (.call location isGlobal name args) → Rel Bindings arguments₁ arguments₂ →
    Rel (Option Value) body₁ body₂ →
    Rel (Option Value) (Exec.inFrame ctx₁ location name arguments₁ body₁)
      (Exec.inFrame ctx₂ location name arguments₂ body₂)

/-! ## Evaluations -/

section

variable {ctx₁ ctx₂ : Context} {ev₁ ev₂ : Evaluator} {N : Node → Prop}
  {Rel : (α : Type) → Exec α → Exec α → Prop}

theorem Congruence.sequential (h : Congruence ctx₁ ctx₂ ev₁ ev₂ N Rel) : Sequential Rel :=
  ⟨h.pure, h.bind⟩

variable (h : Congruence ctx₁ ctx₂ ev₁ ev₂ N Rel) (hN : Closed ctx₁.scopes N)
  (hev : ∀ node, N node → Rel (Option Value) (ev₁ node) (ev₂ node))
include h hN hev

omit hN in
theorem related_evalStatements {statements : List Node} (hstatements : ∀ s ∈ statements, N s) :
    Rel (Option Value) (evalStatements ev₁ statements) (evalStatements ev₂ statements) :=
  h.sequential.statements fun s hs => hev s (hstatements s hs)

theorem related_evalBody {name : String} {scope : Scope}
    (hscope : ctx₁.scopes.get? name = some scope) :
    Rel (Option Value) (evalBody ev₁ scope.definition) (evalBody ev₂ scope.definition) := by
  refine related_evalStatements h hev fun s hs => ?_
  obtain ⟨hs, hfunction⟩ := List.mem_filter.mp hs
  exact hN.bodies hscope hs (by simpa using hfunction)

theorem related_evalArguments {location : Location} {isGlobal : Bool} {name : String}
    {args : List Node} (hnode : N (.call location isGlobal name args)) (params : List String) :
    Rel Bindings (evalArguments ev₁ params args) (evalArguments ev₂ params args) :=
  h.sequential.arguments (fun arg harg => hev arg (hN.parts hnode harg)) params

/-- The rule of a node of the set, whose parts are in the set. -/
theorem Congruence.rule (fuel : Nat) {node : Node} (hnode : N node) :
    RuleCongruence ctx₁ ctx₂ ev₁ ev₂ fuel fuel node (fun _ _ => True) Rel where
  toSequential := h.sequential
  part hc hf := h.bind (hev _ (hN.parts hnode hc)) fun v => hf v trivial
  fail hraises _ := h.fail hnode hraises
  readVariable heq := h.readVariable (heq ▸ hnode)
  log := h.log
  output heq hvalue := h.output (heq ▸ hnode) hvalue
  writeVariable v heq _ := h.writeVariable v (heq ▸ hnode)
  call {location isGlobal name args} heq hargs := by
    rw [heq] at hnode
    rw [evalCall_eq, evalCall_eq, h.scopes]
    refine h.bind (h.checkDepth hnode) fun _ => ?_
    cases hscope : ctx₁.scopes.get? name with
    | some scope =>
      exact h.inFrame hnode (hargs scope.params) (related_evalBody h hN hev hscope)
    | none => exact h.fail hnode fun _ => .undefinedFunction hscope
  loop _ htest hbody := h.sequential.repeatWhile htest hbody h.outOfFuel fuel

/-- The rule of every node is related to itself, if evaluating the nodes below is. -/
theorem related_evalStep (fuel : Nat) {node : Node} (hnode : N node) :
    Rel (Option Value) (evalStep ctx₁ ev₁ fuel node) (evalStep ctx₂ ev₂ fuel node) :=
  (h.rule hN hev fuel hnode).related

end

/-- Every evaluation is related to the other one. -/
theorem related_eval {ctx₁ ctx₂ : Context} {N : Node → Prop}
    {Rel : (α : Type) → Exec α → Exec α → Prop}
    (h : ∀ n, Congruence ctx₁ ctx₂ (eval ctx₁ n) (eval ctx₂ n) N Rel)
    (hN : Closed ctx₁.scopes N) (n : Nat) {node : Node} (hnode : N node) :
    Rel (Option Value) (eval ctx₁ n node) (eval ctx₂ n node) := by
  induction n generalizing node with
  | zero => exact (h 0).outOfFuel
  | succ n ih => exact related_evalStep (h n) hN (fun _ hnode => ih hnode) n hnode

end VectorLang
