import VectorLang.Machine.State
import VectorLang.Scope

/-!
# Evaluation

Every node may have a value: an expression always has one, a statement where it assigns
or prints one, a function call where the last statement of the body does.

Evaluating a node changes the state of the run, and may stop it with a fault.  Statements
and calls are logged; expressions are not.

`eval` follows calls and loops as deep as its fuel allows.  A run that ends does not
depend on it.  The rules stand in `evalStep`, which evaluates one node given a way to
evaluate the nodes below it.
-/

namespace VectorLang

/-- Why an evaluation stops. -/
inductive Stop where
  /-- A node cannot be evaluated. -/
  | fault (f : Fault)
  /-- The fuel is used up. -/
  | outOfFuel
deriving DecidableEq, Inhabited

/-- A computation on the state of a run. -/
abbrev Exec (α : Type) := EStateM Stop Machine α

/-- What stays the same in a run. -/
structure Context where
  /-- The scopes of the functions. -/
  scopes : ScopeTable
  /-- Whether the variables are logged with every step. -/
  verbose : Bool

namespace Exec

/-- Stops with a fault at a node. -/
def fail {α : Type} (cause : FaultCause) (location : Location) : Exec α :=
  throw (.fault ⟨cause, some location⟩)

/-- Gives the result if there is one, and stops with a fault at a node otherwise. -/
def ofOption {α : Type} (cause : FaultCause) (location : Location) : Option α → Exec α
  | some a => pure a
  | none => fail cause location

/-- Gives a text if there is one.  Otherwise a number has too many digits; that is a fault
    of the last logged step. -/
def shown {α : Type} : Option α → Exec α
  | some a => pure a
  | none => do
    let m ← get
    throw (.fault ⟨.numeralTooLong, m.log.back?.map Step.location⟩)

/-- Logs a step of the innermost call. -/
def log (ctx : Context) (action : Action) (location : Location) : Exec Unit := do
  let m ← get
  let top := m.stack.top
  let snapshot ← if ctx.verbose then some <$> shown top.snapshot? else pure none
  set { m with log := m.log.push ⟨m.log.size, top.id, location, action, snapshot⟩ }

/-- Prints a line. -/
def print (line : String) : Exec Unit :=
  modify fun m => { m with output := m.output.push line }

/-- Changes the frames. -/
def modifyStack (f : CallStack → CallStack) : Exec Unit :=
  modify fun m => { m with stack := f m.stack }

/-- Gives the number of a new frame. -/
def newFrameId : Exec Nat := do
  let m ← get
  set { m with frameCount := m.frameCount + 1 }
  return m.frameCount

/-- Repeats `body` as long as `test` is true, at most as often as the fuel allows. -/
def repeatWhile (test : Exec Bool) (body : Exec Unit) : Nat → Exec Unit
  | 0 => throw .outOfFuel
  | n + 1 => do
    if ← test then
      body
      repeatWhile test body n

end Exec

open Exec

/-! ## Expressions -/

/-- The way to evaluate the nodes below a node. -/
abbrev Evaluator := Node → Exec (Option Value)

/-- The values of the elements of a vector, joined. -/
def evalVector (ev : Evaluator) (location : Location) (elements : List Node) : Exec Value := do
  let values ← elements.mapM fun element => do
    ofOption .undefinedElement element.location (← ev element)
  ofOption .mixedElements location (Value.join? values)

/-- The value of a variable, or the part of it that the subscript selects. -/
def evalVar (ev : Evaluator) (location : Location) (isGlobal : Bool) (name : String)
    (subscript : Option Node) : Exec Value := do
  let cause := if isGlobal then .uninitializedGlobal name else .undefinedVariable name
  let m ← get
  let v ← ofOption cause location ((m.stack.owner isGlobal).vars.get? name)
  match subscript with
  | none => return v
  | some subscript =>
    match ← ev subscript with
    | some (.ints places) => ofOption .subscriptOutOfRange location (v.select? places)
    | some (.text shown) => fail (.invalidSubscript shown) location
    | none => fail (.invalidSubscript "") location

/-- The value of an operator on one operand. -/
def evalUnary (ev : Evaluator) (location : Location) (op : UnaryOp) (operand : Node) :
    Exec Value := do
  let v ← ev operand
  match op, v with
  | .negation, some (.ints elements) => return .ints (elements.map fun x => -x)
  | .negation, _ => fail .negationOfOther location
  | .length, some v => return .ints [(v.length : Int)]
  | .length, none => fail .lengthOfUndefined location

/-- The value of arithmetic on two operands. -/
def evalBinary (ev : Evaluator) (location : Location) (op : Arithmetic) (left right : Node) :
    Exec Value := do
  let x ← ev left
  let y ← ev right
  match x, y with
  | some (.ints xs), some (.ints ys) =>
    let pairs ← ofOption (.unequalOperands op) location (broadcast xs ys)
    .ints <$> ofOption .divisionByZero location (pairs.mapM fun (x, y) => op.result? x y)
  | _, _ => fail (.arithmeticOnOther op) location

/-- Whether a comparison is true. -/
def evalTest (ev : Evaluator) (test : Comparison Node) : Exec Bool := do
  let x ← ev test.left
  let y ← ev test.right
  match x, y with
  | some (.ints xs), some (.ints ys) =>
    if xs.length = ys.length then
      return (xs.zip ys).all fun (x, y) => test.relation.holds x y
    else fail (.unequalSides test.relation) test.location
  | some (.text s), some (.text t) => return test.relation.holds s t
  | _, _ => fail (.incomparable test.relation) test.location

/-! ## Statements -/

/-- Runs statements in order.  The value is that of the last one. -/
def evalStatements (ev : Evaluator) (statements : List Node) : Exec (Option Value) :=
  statements.foldlM (fun _ statement => ev statement) none

/-- Whether a node declares a function. -/
def Node.isFunction : Node → Bool
  | function _ => true
  | _ => false

/-- Runs the body of a function.  The functions declared in it are passed over. -/
def evalBody (ev : Evaluator) (d : Definition Node) : Exec (Option Value) :=
  evalStatements ev (d.body.filter fun statement => !statement.isFunction)

/-- The parameters of a function, bound to the values that the arguments have. -/
def evalArguments (ev : Evaluator) (params : List String) (args : List Node) : Exec Bindings :=
  (params.zip args).foldlM
    (fun bound (param, arg) => do
      match ← ev arg with
      | some v => return bound.set param v
      | none => return bound)
    .empty

/-- The value of a function call.  The arguments are evaluated by the caller; the call is
    logged after them. -/
def evalCall (ctx : Context) (ev : Evaluator) (location : Location) (name : String)
    (args : List Node) : Exec (Option Value) := do
  let m ← get
  if maxDepth < m.stack.depth then fail .callStackExceeded location
  let scope ← ofOption (.undefinedFunction name) location (ctx.scopes.get? name)
  let id ← newFrameId
  let vars ← evalArguments ev scope.params args
  log ctx (.call name) location
  modifyStack (·.push ⟨name, vars, id, some location⟩)
  let result ← evalBody ev scope.definition
  modifyStack CallStack.pop
  return result

/-- Prints the value of an expression, if it has one. -/
def evalOutput (ev : Evaluator) (value : Node) : Exec (Option Value) := do
  let v ← ev value
  match v with
  | some v => print (← shown v.render?)
  | none => pure ()
  return v

/-- Assigns to a variable.  It is removed where the assigned expression is left out or has
    no value. -/
def evalAssign (ev : Evaluator) (isGlobal : Bool) (name : String) (value : Option Node) :
    Exec (Option Value) := do
  let v ←
    match value with
    | none => pure none
    | some value => ev value
  match v with
  | some v => modifyStack (·.modifyOwner isGlobal (Frame.setVariable name v))
  | none => modifyStack (·.modifyOwner isGlobal (Frame.eraseVariable name))
  return v

/-- Evaluates a node by the rule for its kind.  `ev` evaluates the nodes below it, and a
    loop is run at most `fuel` times. -/
def evalStep (ctx : Context) (ev : Evaluator) (fuel : Nat) : Evaluator
  | .int _ value => return some (.ints [value])
  | .string _ value => return some (.text value)
  | .vector location elements => some <$> evalVector ev location elements
  | .var location isGlobal name subscript => some <$> evalVar ev location isGlobal name subscript
  | .unary location op operand => some <$> evalUnary ev location op operand
  | .binary location op left right => some <$> evalBinary ev location op left right
  | .call location _ name args => evalCall ctx ev location name args
  | node@(.output location value) => do
    log ctx (.node node.label) location
    evalOutput ev value
  | node@(.assign location isGlobal name value) => do
    log ctx (.node node.label) location
    evalAssign ev isGlobal name value
  | node@(.conditional location test thenBody elseBody) => do
    log ctx (.node node.label) location
    if ← evalTest ev test then evalStatements ev thenBody else evalStatements ev elseBody
  | node@(.loop location whileTrue test body) => do
    log ctx (.node node.label) location
    repeatWhile (return (← evalTest ev test) == whileTrue)
      (do let _ ← evalStatements ev body) fuel
    return none
  | node@(.predicate test) => do
    log ctx (.node node.label) test.location
    fail .predicateAsValue test.location
  | node@(.function d) => do
    log ctx (.node node.label) d.location
    fail (.unsupportedNode node.label) d.location
  | node@(.program location _ _) => do
    log ctx (.node node.label) location
    fail (.unsupportedNode node.label) location

/-- Evaluates a node. -/
def eval (ctx : Context) : Nat → Evaluator
  | 0 => fun _ => throw .outOfFuel
  | n + 1 => evalStep ctx (eval ctx n) n

/-! ## Whole programs -/

/-- How a run ends. -/
inductive Ending where
  /-- All statements were run. -/
  | finished
  /-- A node could not be evaluated. -/
  | failed (f : Fault)
  /-- The fuel was used up. -/
  | outOfFuel
deriving DecidableEq, Inhabited

/-- A run that has ended. -/
structure Outcome where
  /-- How it ended. -/
  ending : Ending
  /-- The state at its end. -/
  machine : Machine
deriving DecidableEq, Inhabited

namespace Outcome

/-- The frames that are left at the end: all of them after a fault, the globals after the
    last statement. -/
def frames (o : Outcome) : List Frame :=
  match o.ending with
  | .finished => [o.machine.stack.globals]
  | _ => o.machine.stack.frames

/-- The fault that ended the run. -/
def fault? (o : Outcome) : Option Fault :=
  match o.ending with
  | .failed f => some f
  | _ => none

/-- The number of the last step. -/
def lastStep? (o : Outcome) : Option Nat :=
  o.machine.log.back?.map Step.index

end Outcome

/-- More fuel than a run on any computer uses up. -/
def ampleFuel : Nat := Nat.pow 2 62

/-- Runs a program whose names have been checked. -/
def run (ctx : Context) (fuel : Nat) : Outcome :=
  let main := ctx.scopes.global.definition
  match evalBody (eval ctx fuel) main (.start globalScopeName main.name) with
  | .ok _ m => ⟨.finished, m⟩
  | .error (.fault f) m => ⟨.failed f, m⟩
  | .error .outOfFuel m => ⟨.outOfFuel, m⟩

end VectorLang
