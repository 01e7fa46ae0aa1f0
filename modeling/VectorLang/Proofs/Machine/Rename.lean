import VectorLang.Proofs.Machine.Reach
import VectorLang.Proofs.Scope.Rename

/-!
# Running under other names

A program whose names are exchanged for others, different ones for different ones, runs like
the program itself.  Its states are those of the program under the other names, step by step,
and it prints the same lines.

* `renames_eval`   every evaluation
* `run_rename`     every run
-/

namespace VectorLang

open Exec

/-! ## States -/

/-- A cause with other names. -/
def FaultCause.rename (ρ : Renaming) : FaultCause → FaultCause
  | undefinedVariable name => undefinedVariable (ρ.var name)
  | uninitializedGlobal name => uninitializedGlobal (ρ.var name)
  | undefinedFunction name => undefinedFunction (ρ.function name)
  | cause => cause

/-- A fault with other names and places. -/
def Fault.rename (ρ : Renaming) (f : Fault) : Fault :=
  ⟨f.cause.rename ρ, f.location.map ρ.place⟩

/-- A reason to stop, with other names and places. -/
def Stop.rename (ρ : Renaming) : Stop → Stop
  | fault f => fault (f.rename ρ)
  | outOfFuel => outOfFuel

/-- What a step does, with other names. -/
def Action.rename (ρ : Renaming) : Action → Action
  | node label => node label
  | call function => call (ρ.function function)

/-- A step with other names and places. -/
def Step.rename (ρ : Renaming) (s : Step) : Step :=
  { s with
    location := ρ.place s.location
    action := s.action.rename ρ
    snapshot := s.snapshot.map fun vars => vars.map fun entry => (ρ.var entry.1, entry.2) }

/-- Variables with other names. -/
def Bindings.rename (ρ : Renaming) (b : Bindings) : Bindings :=
  ⟨b.entries.map fun entry => (ρ.var entry.1, entry.2)⟩

/-- A frame with other names and places. -/
def Frame.rename (ρ : Renaming) (f : Frame) : Frame where
  name := ρ.function f.name
  vars := f.vars.rename ρ
  id := f.id
  calledAt := f.calledAt.map ρ.place

/-- A stack with other names and places. -/
def CallStack.rename (ρ : Renaming) (s : CallStack) : CallStack :=
  ⟨s.globals.rename ρ, s.top.rename ρ, s.below.map (Frame.rename ρ)⟩

/-- A state with other names and places.  The lines that were printed are the same. -/
def Machine.rename (ρ : Renaming) (m : Machine) : Machine :=
  { m with log := m.log.map (Step.rename ρ), stack := m.stack.rename ρ }

theorem Machine.lastLocation_rename {ρ : Renaming} (m : Machine) :
    (m.rename ρ).log.back?.map Step.location = (m.log.back?.map Step.location).map ρ.place := by
  have hback : (m.rename ρ).log.back? = m.log.back?.map (Step.rename ρ) := by simp [rename]
  rw [hback, Option.map_map, Option.map_map]
  rfl

theorem Machine.unshown_rename {ρ : Renaming} (m : Machine) :
    (m.rename ρ).unshown = m.unshown.rename ρ := by
  rw [unshown, unshown, lastLocation_rename]
  rfl

theorem Machine.logged_rename {ρ : Renaming} (m : Machine) (action : Action) (location : Location)
    (snapshot : Option (List (String × String))) :
    (m.rename ρ).logged (action.rename ρ) (ρ.place location)
      (snapshot.map fun vars => vars.map fun entry => (ρ.var entry.1, entry.2)) =
        (m.logged action location snapshot).rename ρ := by
  simp [logged, rename, Step.rename, CallStack.rename, Frame.rename]

/-- What a computation comes to, with other names and places. -/
def Exec.rename (ρ : Renaming) {α β : Type} (f : α → β) :
    EStateM.Result Stop Machine α → EStateM.Result Stop Machine β
  | .ok a m => .ok (f a) (m.rename ρ)
  | .error e m => .error (e.rename ρ) (m.rename ρ)

@[simp] theorem Node.isFunction_rename {ρ : Renaming} (node : Node) :
    (node.rename ρ).isFunction = node.isFunction := by
  cases node <;> rfl

/-! ## Variables -/

section

variable {ρ : Renaming} (hρ : ρ.Faithful)
include hρ

namespace Bindings

theorem get?_rename (b : Bindings) (name : String) :
    (b.rename ρ).get? (ρ.var name) = b.get? name := by
  have hlookup := lookup_map hρ.var (fun v : Value => v) b.entries name
  rwa [Option.map_id'] at hlookup

theorem set_rename (b : Bindings) (name : String) (v : Value) :
    (b.rename ρ).set (ρ.var name) v = (b.set name v).rename ρ := by
  obtain ⟨entries⟩ := b
  have hentries : setEntries (ρ.var name) v (entries.map fun entry => (ρ.var entry.1, entry.2)) =
      (setEntries name v entries).map fun entry => (ρ.var entry.1, entry.2) := by
    induction entries with
    | nil => rfl
    | cons entry entries ih =>
      obtain ⟨n, w⟩ := entry
      simp only [List.map_cons, setEntries, ih]
      -- an entry has the new name if and only if it had the old one
      by_cases h : name = n
      · rw [if_pos (congrArg ρ.var h), if_pos h, List.map_cons]
      · rw [if_neg fun h' => h (hρ.var h'), if_neg h, List.map_cons]
  exact congrArg Bindings.mk hentries

theorem erase_rename (b : Bindings) (name : String) :
    (b.rename ρ).erase (ρ.var name) = (b.erase name).rename ρ := by
  rw [erase, erase, rename, rename, List.filter_map]
  congr 2
  refine List.filter_congr fun entry _ => ?_
  rw [Function.comp_apply, Bool.eq_iff_iff, bne_iff_ne, bne_iff_ne]
  exact not_congr ⟨hρ.var, fun h => by rw [h]⟩

end Bindings

theorem Frame.setVariable_rename (name : String) (v : Value) (f : Frame) :
    (f.rename ρ).setVariable (ρ.var name) v = (f.setVariable name v).rename ρ := by
  rw [setVariable, setVariable, rename, rename, Bindings.set_rename hρ]

theorem Frame.eraseVariable_rename (name : String) (f : Frame) :
    (f.rename ρ).eraseVariable (ρ.var name) = (f.eraseVariable name).rename ρ := by
  rw [eraseVariable, eraseVariable, rename, rename, Bindings.erase_rename hρ]

omit hρ in
theorem Frame.snapshot?_rename (f : Frame) :
    (f.rename ρ).snapshot? = f.snapshot?.map fun vars =>
      vars.map fun entry => (ρ.var entry.1, entry.2) := by
  obtain ⟨name, ⟨entries⟩, id, calledAt⟩ := f
  simp only [snapshot?, rename, Bindings.rename]
  induction entries with
  | nil => rfl
  | cons entry entries ih =>
    obtain ⟨n, v⟩ := entry
    rw [List.map_cons, List.mapM_cons, List.mapM_cons, ih]
    cases v.snapshot? with
    | none => rfl
    | some text =>
      cases entries.mapM fun entry : String × Value =>
          entry.2.snapshot?.map fun s => (entry.1, s) with
      | none => rfl
      | some texts => rfl

omit hρ in
theorem CallStack.modifyOwner_rename (isGlobal : Bool) {f g : Frame → Frame}
    (hf : ∀ frame : Frame, g (frame.rename ρ) = (f frame).rename ρ) (s : CallStack) :
    (s.rename ρ).modifyOwner isGlobal g = (s.modifyOwner isGlobal f).rename ρ := by
  cases isGlobal with
  | true => exact congrArg (fun frame => CallStack.mk frame _ _) (hf s.globals)
  | false => exact congrArg (fun frame => CallStack.mk _ frame _) (hf s.top)

omit hρ in
@[simp] theorem CallStack.depth_rename (s : CallStack) : (s.rename ρ).depth = s.depth := by
  simp [depth, rename]

omit hρ in
theorem CallStack.pop_rename (s : CallStack) : (s.rename ρ).pop = s.pop.rename ρ := by
  obtain ⟨globals, top, below⟩ := s
  cases below <;> rfl

end

/-! ## Computations -/

/-- Whether one computation does under other names what another one does. -/
def Exec.Renames (ρ : Renaming) {α β : Type} (f : α → β) (x : Exec α) (y : Exec β) : Prop :=
  ∀ m : Machine, y (m.rename ρ) = rename ρ f (x m)

namespace Exec.Renames

variable {ρ : Renaming} {α β γ δ : Type} {f : α → β} {g : γ → δ}

theorem pure (a : α) : Renames ρ f (Pure.pure a) (Pure.pure (f a)) := fun _ => rfl

theorem bind {x : Exec α} {y : Exec β} {k : α → Exec γ} {l : β → Exec δ} (hx : Renames ρ f x y)
    (hk : ∀ a, Renames ρ g (k a) (l (f a))) : Renames ρ g (x >>= k) (y >>= l) := by
  intro m
  have h := hx m
  cases hm : x m with
  | ok a m' =>
    rw [hm] at h
    rw [bind_of_ok h, bind_of_ok hm]
    exact hk a m'
  | error e m' =>
    rw [hm] at h
    rw [bind_of_error h, bind_of_error hm]
    rfl

theorem map {x : Exec α} {y : Exec β} (k : α → γ) (l : β → δ) (hx : Renames ρ f x y)
    (hk : ∀ a, l (f a) = g (k a)) : Renames ρ g (k <$> x) (l <$> y) := by
  intro m
  have h := hx m
  simp only [Functor.map, EStateM.map, h]
  cases x m with
  | ok a m' => simp only [rename, hk]
  | error e m' => rfl

theorem fail {cause cause' : FaultCause} (hcause : cause.rename ρ = cause') (location : Location) :
    Renames ρ f (fail cause location) (fail cause' (ρ.place location)) := by
  subst hcause
  exact fun _ => rfl

theorem ofOption {cause cause' : FaultCause} (hcause : cause.rename ρ = cause')
    (location : Location) (o : Option α) :
    Renames ρ id (ofOption cause location o) (ofOption cause' (ρ.place location) o) := by
  cases o with
  | some a => exact pure a
  | none => exact fail hcause location

theorem outOfFuel : Renames ρ f (throw .outOfFuel) (throw .outOfFuel) := fun _ => rfl

theorem modifyStack {f g : CallStack → CallStack}
    (hf : ∀ s : CallStack, g (s.rename ρ) = (f s).rename ρ) :
    Renames ρ id (modifyStack f) (modifyStack g) := by
  intro m
  show EStateM.Result.ok () { m.rename ρ with stack := g (m.stack.rename ρ) } = _
  rw [hf]
  rfl

theorem newFrameId : Renames ρ id newFrameId newFrameId := fun _ => rfl

theorem print (line : String) : Renames ρ id (print line) (print line) := fun _ => rfl

/-- A number that is too long is reported at the new place of the last step. -/
theorem shown (o : Option α) : Renames ρ id (shown o) (shown o) := by
  intro m
  rw [shown_eq, shown_eq]
  cases o with
  | some a => rfl
  | none => exact congrArg (fun e => EStateM.Result.error e (m.rename ρ)) m.unshown_rename

theorem mapM {as : List γ} {h : γ → δ} {k : γ → Exec α} {l : δ → Exec β}
    (hk : ∀ a ∈ as, Renames ρ f (k a) (l (h a))) :
    Renames ρ (List.map f) (as.mapM k) ((as.map h).mapM l) := by
  induction as with
  | nil => exact pure []
  | cons a as ih =>
    obtain ⟨ha, has⟩ := List.forall_mem_cons.mp hk
    rw [List.map_cons, List.mapM_cons, List.mapM_cons]
    exact bind ha fun b => bind (ih has) fun bs => pure (f := List.map f) (b :: bs)

theorem foldlM {as : List γ} {h : γ → δ} {k : α → γ → Exec α} {l : β → δ → Exec β} (b : α)
    (hk : ∀ b, ∀ a ∈ as, Renames ρ f (k b a) (l (f b) (h a))) :
    Renames ρ f (as.foldlM k b) ((as.map h).foldlM l (f b)) := by
  induction as generalizing b with
  | nil => exact pure b
  | cons a as ih =>
    rw [List.map_cons, List.foldlM_cons, List.foldlM_cons]
    refine bind (hk b a List.mem_cons_self) fun b' => ?_
    exact ih b' fun b a ha => hk b a (List.mem_cons_of_mem _ ha)

theorem repeatWhile {test test' : Exec Bool} {body body' : Exec Unit}
    (htest : Renames ρ id test test') (hbody : Renames ρ id body body') (n : Nat) :
    Renames ρ id (repeatWhile test body n) (repeatWhile test' body' n) := by
  induction n with
  | zero => exact outOfFuel
  | succ n ih =>
    refine bind htest fun b => ?_
    cases b with
    | false => exact pure ()
    | true => exact bind hbody fun _ => ih

end Exec.Renames

/-! ## Basic steps -/

/-- A context with other names and places. -/
def Context.rename (ρ : Renaming) (ctx : Context) : Context :=
  ⟨ctx.scopes.rename ρ, ctx.verbose⟩

namespace Exec.Renames

variable {ρ : Renaming}

theorem log (ctx : Context) (action : Action) (location : Location) :
    Renames ρ id (log ctx action location)
      (log (ctx.rename ρ) (action.rename ρ) (ρ.place location)) := by
  intro m
  -- the texts of the variables are logged under the new names
  have hsnapshot : (if ctx.verbose then (m.rename ρ).stack.top.snapshot?.map some else some none) =
      (if ctx.verbose then m.stack.top.snapshot?.map some else some none).map
        (Option.map fun vars => vars.map fun entry => (ρ.var entry.1, entry.2)) := by
    have htop : (m.rename ρ).stack.top = m.stack.top.rename ρ := rfl
    rw [htop, Frame.snapshot?_rename]
    split
    · rw [Option.map_map, Option.map_map]
      rfl
    · rfl
  have hverbose : (ctx.rename ρ).verbose = ctx.verbose := rfl
  rw [log_eq, log_eq, hverbose, hsnapshot]
  cases (if ctx.verbose then m.stack.top.snapshot?.map some else some none) with
  | none => exact congrArg (fun e => EStateM.Result.error e (m.rename ρ)) m.unshown_rename
  | some snapshot =>
    exact congrArg (EStateM.Result.ok ()) (m.logged_rename action location snapshot)

theorem printValue (v : Option Value) : Renames ρ id (printValue v) (printValue v) := by
  cases v with
  | none => exact pure none
  | some v => exact bind (shown v.render?) fun line => bind (print line) fun _ => pure (some v)

theorem checkDepth (location : Location) :
    Renames ρ id (checkDepth location) (checkDepth (ρ.place location)) := by
  intro m
  rw [checkDepth_eq, checkDepth_eq]
  show (if maxDepth < (m.stack.rename ρ).depth then _ else _) = _
  rw [CallStack.depth_rename]
  split
  · rfl
  · rfl

theorem inFrame (ctx : Context) (location : Location) (name : String)
    {arguments arguments' : Exec Bindings} {body body' : Exec (Option Value)}
    (hargs : Renames ρ (Bindings.rename ρ) arguments arguments') (hbody : Renames ρ id body body') :
    Renames ρ id (inFrame ctx location name arguments body)
      (inFrame (ctx.rename ρ) (ρ.place location) (ρ.function name) arguments' body') := by
  refine bind newFrameId fun id => bind hargs fun vars => ?_
  refine bind (log ctx (.call name) location) fun _ => ?_
  refine bind (modifyStack fun s => rfl) fun _ => bind hbody fun result => ?_
  exact bind (modifyStack CallStack.pop_rename) fun _ => pure result

section

variable (hρ : ρ.Faithful)
include hρ

theorem readVariable (location : Location) (isGlobal : Bool) (name : String) :
    Renames ρ id (readVariable location isGlobal name)
      (readVariable (ρ.place location) isGlobal (ρ.var name)) := by
  intro m
  have howner : ((m.rename ρ).stack.owner isGlobal).vars.get? (ρ.var name) =
      (m.stack.owner isGlobal).vars.get? name := by
    cases isGlobal with
    | true => exact Bindings.get?_rename hρ _ name
    | false => exact Bindings.get?_rename hρ _ name
  rw [readVariable_eq, readVariable_eq, howner]
  cases (m.stack.owner isGlobal).vars.get? name with
  | some v => rfl
  | none => cases isGlobal <;> rfl

theorem writeVariable (isGlobal : Bool) (name : String) (v : Option Value) :
    Renames ρ id (writeVariable isGlobal name v) (writeVariable isGlobal (ρ.var name) v) := by
  cases v with
  | some v =>
    exact modifyStack (CallStack.modifyOwner_rename isGlobal (Frame.setVariable_rename hρ name v))
  | none =>
    exact modifyStack (CallStack.modifyOwner_rename isGlobal (Frame.eraseVariable_rename hρ name))

end

end Exec.Renames

/-! ## Rules -/

section Rules

variable {ρ : Renaming} {ev ev' : Evaluator}
  (hev : ∀ node, Renames ρ id (ev node) (ev' (node.rename ρ)))
include hev

theorem renames_evalVector (location : Location) (elements : List Node) :
    Renames ρ id (evalVector ev location elements)
      (evalVector ev' (ρ.place location) (elements.map (Node.rename ρ))) := by
  refine Renames.bind (Renames.mapM (f := id) fun element _ => ?_) fun values => ?_
  · refine Renames.bind (hev element) fun v => ?_
    rw [Node.location_rename]
    exact Renames.ofOption rfl element.location v
  · rw [List.map_id]
    exact Renames.ofOption rfl location (Value.join? values)

theorem renames_evalUnary (location : Location) (op : UnaryOp) (operand : Node) :
    Renames ρ id (evalUnary ev location op operand)
      (evalUnary ev' (ρ.place location) op (operand.rename ρ)) := by
  refine Renames.bind (hev operand) fun v => ?_
  match op, v with
  | .negation, some (.ints elements) => exact Renames.pure _
  | .negation, some (.text _) => exact Renames.fail rfl location
  | .negation, none => exact Renames.fail rfl location
  | .length, some v => exact Renames.pure _
  | .length, none => exact Renames.fail rfl location

theorem renames_evalBinary (location : Location) (op : Arithmetic) (left right : Node) :
    Renames ρ id (evalBinary ev location op left right)
      (evalBinary ev' (ρ.place location) op (left.rename ρ) (right.rename ρ)) := by
  refine Renames.bind (hev left) fun x => Renames.bind (hev right) fun y => ?_
  match x, y with
  | some (.ints xs), some (.ints ys) =>
    refine Renames.bind (Renames.ofOption rfl location (broadcast xs ys)) fun pairs => ?_
    exact Renames.map _ _ (Renames.ofOption rfl location _) fun _ => rfl
  | some (.ints _), some (.text _) => exact Renames.fail rfl location
  | some (.ints _), none => exact Renames.fail rfl location
  | some (.text _), _ => exact Renames.fail rfl location
  | none, _ => exact Renames.fail rfl location

theorem renames_evalTest (test : Comparison Node) :
    Renames ρ id (evalTest ev test) (evalTest ev' (Node.renameComparison ρ test)) := by
  obtain ⟨location, relation, left, right⟩ := test
  refine Renames.bind (hev left) fun x => Renames.bind (hev right) fun y => ?_
  match x, y with
  | some (.ints xs), some (.ints ys) =>
    show Renames ρ id (if xs.length = ys.length then _ else _)
      (if xs.length = ys.length then _ else _)
    split
    · exact Renames.pure _
    · exact Renames.fail rfl location
  | some (.text _), some (.text _) => exact Renames.pure _
  | some (.ints _), some (.text _) => exact Renames.fail rfl location
  | some (.ints _), none => exact Renames.fail rfl location
  | some (.text _), some (.ints _) => exact Renames.fail rfl location
  | some (.text _), none => exact Renames.fail rfl location
  | none, _ => exact Renames.fail rfl location

theorem renames_evalStatements (statements : List Node) :
    Renames ρ id (evalStatements ev statements)
      (evalStatements ev' (statements.map (Node.rename ρ))) :=
  Renames.foldlM none fun _ statement _ => hev statement

theorem renames_evalBody (d : Definition Node) :
    Renames ρ id (evalBody ev d) (evalBody ev' (Node.renameDefinition ρ d)) := by
  -- the functions in a body are passed over under either name
  have hbody : ((Node.renameDefinition ρ d).body.filter fun s => !s.isFunction) =
      (d.body.filter fun s => !s.isFunction).map (Node.rename ρ) := by
    rw [Node.body_renameDefinition, List.filter_map]
    congr 1
    exact List.filter_congr fun s _ => by rw [Function.comp_apply, Node.isFunction_rename]
  rw [evalBody, evalBody, hbody]
  exact renames_evalStatements hev _

theorem renames_evalOutput (value : Node) :
    Renames ρ id (evalOutput ev value) (evalOutput ev' (value.rename ρ)) :=
  Renames.bind (hev value) fun v => Renames.printValue v

variable (hρ : ρ.Faithful)
include hρ

theorem renames_evalVar (location : Location) (isGlobal : Bool) (name : String)
    (subscript : Option Node) : Renames ρ id (evalVar ev location isGlobal name subscript)
      (evalVar ev' (ρ.place location) isGlobal (ρ.var name) (Node.renameOption ρ subscript)) := by
  rw [evalVar_eq, evalVar_eq]
  refine Renames.bind (Renames.readVariable hρ location isGlobal name) fun v => ?_
  cases subscript with
  | none => exact Renames.pure v
  | some subscript =>
    refine Renames.bind (hev subscript) fun places => ?_
    match places with
    | some (.ints _) => exact Renames.ofOption rfl location _
    | some (.text _) => exact Renames.fail rfl location
    | none => exact Renames.fail rfl location

theorem renames_evalArguments (params : List String) (args : List Node) :
    Renames ρ (Bindings.rename ρ) (evalArguments ev params args)
      (evalArguments ev' (params.map ρ.var) (args.map (Node.rename ρ))) := by
  rw [evalArguments, evalArguments, List.zip_map]
  refine Renames.foldlM (f := Bindings.rename ρ) Bindings.empty fun bound p _ => ?_
  refine Renames.bind (hev p.2) fun v => ?_
  cases v with
  | none => exact Renames.pure bound
  | some v =>
    show Renames ρ _ (pure (bound.set p.1 v)) (pure ((bound.rename ρ).set (ρ.var p.1) v))
    rw [Bindings.set_rename hρ]
    exact Renames.pure (bound.set p.1 v)

theorem renames_evalCall (ctx : Context) (location : Location) (name : String)
    (args : List Node) : Renames ρ id (evalCall ctx ev location name args)
      (evalCall (ctx.rename ρ) ev' (ρ.place location) (ρ.function name)
        (args.map (Node.rename ρ))) := by
  rw [evalCall_eq, evalCall_eq]
  refine Renames.bind (Renames.checkDepth location) fun _ => ?_
  have hscope : (ctx.rename ρ).scopes.get? (ρ.function name) =
      (ctx.scopes.get? name).map (Scope.rename ρ) := ScopeTable.get?_rename hρ ctx.scopes name
  rw [hscope]
  cases ctx.scopes.get? name with
  | none => exact Renames.fail rfl location
  | some scope =>
    exact Renames.inFrame ctx location name (renames_evalArguments hev hρ scope.params args)
      (renames_evalBody hev scope.definition)

theorem renames_evalAssign (isGlobal : Bool) (name : String) (value : Option Node) :
    Renames ρ id (evalAssign ev isGlobal name value)
      (evalAssign ev' isGlobal (ρ.var name) (Node.renameOption ρ value)) := by
  rw [evalAssign_eq, evalAssign_eq]
  -- what is done with the value, which need not be there
  have hwrite (v : Option Value) : Renames ρ id
      (writeVariable isGlobal name v >>= fun _ => pure v)
      (writeVariable isGlobal (ρ.var name) v >>= fun _ => pure v) :=
    Renames.bind (Renames.writeVariable hρ isGlobal name v) fun _ => Renames.pure v
  cases value with
  | none => exact Renames.bind (Renames.pure none) hwrite
  | some value => exact Renames.bind (hev value) hwrite

/-- The rule of every node does under other names what it does under its own. -/
theorem renames_evalStep (ctx : Context) (fuel : Nat) (node : Node) :
    Renames ρ id (evalStep ctx ev fuel node)
      (evalStep (ctx.rename ρ) ev' fuel (node.rename ρ)) := by
  cases node with
  | int location value => exact Renames.pure _
  | string location value => exact Renames.pure _
  | vector location elements =>
    rw [Node.rename, Node.renameList_eq]
    exact Renames.map some some (renames_evalVector hev location elements) fun _ => rfl
  | var location isGlobal name subscript =>
    exact Renames.map some some (renames_evalVar hev hρ location isGlobal name subscript)
      fun _ => rfl
  | unary location op operand =>
    exact Renames.map some some (renames_evalUnary hev location op operand) fun _ => rfl
  | binary location op left right =>
    exact Renames.map some some (renames_evalBinary hev location op left right) fun _ => rfl
  | call location isGlobal name args =>
    rw [Node.rename, Node.renameList_eq]
    exact renames_evalCall hev hρ ctx location name args
  | output location value =>
    exact Renames.bind (Renames.log ctx _ location) fun _ => renames_evalOutput hev value
  | assign location isGlobal name value =>
    exact Renames.bind (Renames.log ctx _ location) fun _ =>
      renames_evalAssign hev hρ isGlobal name value
  | conditional location test thenBody elseBody =>
    rw [Node.rename, Node.renameList_eq, Node.renameList_eq]
    refine Renames.bind (Renames.log ctx _ location) fun _ => ?_
    refine Renames.bind (renames_evalTest hev test) fun b => ?_
    cases b with
    | true => exact renames_evalStatements hev thenBody
    | false => exact renames_evalStatements hev elseBody
  | loop location whileTrue test body =>
    rw [Node.rename, Node.renameList_eq]
    refine Renames.bind (Renames.log ctx _ location) fun _ => ?_
    refine Renames.bind (Renames.repeatWhile ?_ ?_ fuel) fun _ => Renames.pure none
    · exact Renames.bind (renames_evalTest hev test) fun b => Renames.pure _
    · exact Renames.bind (renames_evalStatements hev body) fun _ => Renames.pure ()
  | predicate test =>
    obtain ⟨location, relation, left, right⟩ := test
    exact Renames.bind (Renames.log ctx _ location) fun _ => Renames.fail rfl location
  | function d =>
    obtain ⟨location, isGlobal, name, params, body⟩ := d
    exact Renames.bind (Renames.log ctx _ location) fun _ => Renames.fail rfl location
  | program location name block =>
    exact Renames.bind (Renames.log ctx _ location) fun _ => Renames.fail rfl location

end Rules

/-! ## Runs -/

/-- How a run ends, with other names and places. -/
def Ending.rename (ρ : Renaming) : Ending → Ending
  | finished => finished
  | failed f => failed (f.rename ρ)
  | outOfFuel => outOfFuel

/-- A run that has ended, with other names and places.  What it printed is the same. -/
def Outcome.rename (ρ : Renaming) (o : Outcome) : Outcome :=
  ⟨o.ending.rename ρ, o.machine.rename ρ⟩

section

variable {ρ : Renaming} (hρ : ρ.Faithful)
include hρ

/-- Every evaluation does under other names what it does under its own. -/
theorem renames_eval (ctx : Context) (n : Nat) (node : Node) :
    Renames ρ id (eval ctx n node) (eval (ctx.rename ρ) n (node.rename ρ)) := by
  induction n generalizing node with
  | zero => exact Renames.outOfFuel
  | succ n ih => exact renames_evalStep ih hρ ctx n node

theorem start_rename (ctx : Context) : (ctx.rename ρ).start = ctx.start.rename ρ := by
  have hname : (ctx.rename ρ).scopes.global.definition.name =
      ρ.function ctx.scopes.global.definition.name := Node.name_renameDefinition _
  rw [Context.start, Context.start, hname]
  simp [Machine.start, Machine.rename, CallStack.rename, Frame.rename, Bindings.rename,
    Bindings.empty, hρ.globals]

/-- A program runs under other names as it does under its own. -/
theorem run_rename (ctx : Context) (fuel : Nat) :
    run (ctx.rename ρ) fuel = (run ctx fuel).rename ρ := by
  have hbody : Renames ρ id (evalBody (eval ctx fuel) ctx.scopes.global.definition)
      (evalBody (eval (ctx.rename ρ) fuel) (ctx.rename ρ).scopes.global.definition) :=
    renames_evalBody (renames_eval hρ ctx fuel) ctx.scopes.global.definition
  have hrun := hbody ctx.start
  rw [run_eq, run_eq, Context.runWith, Context.runWith, start_rename hρ, hrun]
  cases evalBody (eval ctx fuel) ctx.scopes.global.definition ctx.start with
  | ok v m => rfl
  | error e m => cases e <;> rfl

end

end VectorLang
