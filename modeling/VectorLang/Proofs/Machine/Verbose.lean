import VectorLang.Proofs.Machine.Reach
import VectorLang.Proofs.Machine.Faults

/-!
# Logging the variables

A verbose run logs with every step the texts of the variables of the innermost call.  It does
what the run without them does, step by step, until it comes to a variable that has no text.
There it stops, with less output and a shorter log than the other run.

* `Exec.Quieter.congruence`   the basic steps of the two runs
* `verbose_run`               the two runs of a program
-/

namespace VectorLang

open Exec

/-! ## Without the variables -/

/-- A step without the texts of the variables. -/
def Step.plain (s : Step) : Step :=
  { s with snapshot := none }

/-- A state whose steps are logged without the texts of the variables. -/
def Machine.plain (m : Machine) : Machine :=
  { m with log := m.log.map Step.plain }

/-- The end of a run whose steps are logged without the texts of the variables. -/
def Outcome.plain (o : Outcome) : Outcome :=
  { o with machine := o.machine.plain }

namespace Machine

@[simp] theorem stack_plain (m : Machine) : m.plain.stack = m.stack := rfl

@[simp] theorem plain_logged (m : Machine) (action : Action) (location : Location)
    (snapshot : Option (List (String × String))) :
    (m.logged action location snapshot).plain = m.plain.logged action location none := by
  simp [plain, logged, Step.plain]

/-- The last step is the same one. -/
@[simp] theorem unshown_plain (m : Machine) : m.plain.unshown = m.unshown := by
  have hback : m.plain.log.back? = m.log.back?.map Step.plain := by simp [plain]
  rw [unshown, unshown, hback, Option.map_map]
  rfl

end Machine

theorem Outcome.lastStep?_plain (o : Outcome) : o.plain.lastStep? = o.lastStep? := by
  have hback : o.plain.machine.log.back? = o.machine.log.back?.map Step.plain := by
    simp [plain, Machine.plain]
  rw [lastStep?, lastStep?, hback, Option.map_map]
  rfl

/-- What a computation comes to, its steps logged without the texts of the variables. -/
def Exec.plain {α : Type} : EStateM.Result Stop Machine α → EStateM.Result Stop Machine α
  | .ok a m => .ok a m.plain
  | .error e m => .error e m.plain

/-! ## Output and log -/

/-- Whether nothing was taken back of what was printed and logged. -/
structure Machine.Grows (m m' : Machine) : Prop where
  output : m.output.toList <+: m'.output.toList
  log : m.log.toList <+: m'.log.toList

namespace Machine.Grows

variable {m m₁ m₂ m₃ : Machine}

theorem refl (m : Machine) : m.Grows m :=
  ⟨List.prefix_refl _, List.prefix_refl _⟩

theorem trans (h : m₁.Grows m₂) (h' : m₂.Grows m₃) : m₁.Grows m₃ :=
  ⟨h.output.trans h'.output, h.log.trans h'.log⟩

theorem logged (m : Machine) (action : Action) (location : Location)
    (snapshot : Option (List (String × String))) : m.Grows (m.logged action location snapshot) :=
  ⟨List.prefix_refl _, by simp [Machine.logged]⟩

/-- What is opened after the arguments of a call comes after what they print and log. -/
theorem opened {f : Frame} {location : Location} {snapshot : Option (List (String × String))}
    (h : m.numbered.Grows m₁) (h' : (m₁.opened f location snapshot).Grows m₂) : m.Grows m₂ := by
  have hlog := h.trans (.logged m₁ (.call f.name) location snapshot)
  -- the frames are part of neither
  exact ⟨h.output.trans h'.output, hlog.log.trans h'.log⟩

end Machine.Grows

theorem Machine.composes_grows : Composes Machine.Grows fun m _ m' => m.Grows m' where
  refl := .refl
  trans := .trans
  after := .trans

/-- No basic step takes back what was printed or logged. -/
theorem Machine.transition_grows (ctx : Context) (ev : Evaluator) :
    Transition ctx ev Node.Any Machine.Grows fun m _ m' => m.Grows m' where
  toComposes := composes_grows
  logged := .logged
  printed m line := ⟨by simp, List.prefix_refl _⟩
  set m _ _ _ := ⟨List.prefix_refl _, List.prefix_refl _⟩
  erased m _ _ := ⟨List.prefix_refl _, List.prefix_refl _⟩
  called h h' := ⟨(h.opened h').output, (h.opened h').log⟩
  notOpened h := ⟨h.output, h.log⟩
  notClosed h h' := h.opened h'
  raised _ _ := .refl _
  outOfFuel := .refl
  notLogged _ _ := .refl _
  notPrinted _ _ _ := .refl _

/-- Whether a computation takes back nothing of what was printed and logged. -/
def Exec.Keeps {α : Type} (x : Exec α) : Prop :=
  Within Machine.Grows (fun m _ m' => m.Grows m') x

theorem Exec.Keeps.final {α : Type} {x : Exec α} (h : Keeps x) (m : Machine) :
    m.Grows (Exec.final (x m)) := by
  cases hx : x m with
  | ok a m' => exact h.ok hx
  | error e m' => exact h.error hx

/-! ## Verbose computations -/

/-- Whether two computations do the same, one of them verbose, but that the verbose one may
    stop at a variable of the innermost call that has no text.  The other one goes on then. -/
structure Exec.Quieter {α : Type} (x y : Exec α) : Prop where
  keeps : Keeps y
  cases (m : Machine) : y m.plain = plain (x m) ∨
    ∃ m', x m = .error m'.unshown m' ∧ m'.stack.top.snapshot? = none ∧
      m'.plain.Grows (final (y m.plain))

namespace Exec.Quieter

variable {α β : Type}

/-- A computation that neither reads the log nor changes it. -/
theorem of_plain {x : Exec α} (h : Keeps x) (hx : ∀ m, x m.plain = plain (x m)) : Quieter x x :=
  ⟨h, fun m => Or.inl (hx m)⟩

/-- A computation that succeeds in every state. -/
theorem of_ok {x : Exec α} {a : Machine → α} {next : Machine → Machine}
    (hx : ∀ m, x m = .ok (a m) (next m)) (hgrows : ∀ m : Machine, m.Grows (next m))
    (ha : ∀ m : Machine, a m.plain = a m)
    (hnext : ∀ m : Machine, next m.plain = (next m).plain) :
    Quieter x x := by
  refine of_plain ⟨fun {m _ _} h => ?_, fun {m _ _} h => ?_⟩ fun m => ?_
  · rw [hx] at h
    cases h
    exact hgrows m
  · rw [hx] at h
    cases h
  · rw [hx, hx, ha, hnext]
    rfl

/-- Where the verbose computation stops, what follows in the other one takes nothing back. -/
theorem bind {x y : Exec α} {f g : α → Exec β}
    (hx : Quieter x y) (hf : ∀ a, Quieter (f a) (g a)) : Quieter (x >>= f) (y >>= g) where
  keeps := Machine.composes_grows.within_bind hx.keeps fun a => (hf a).keeps
  cases m := by
    rcases hx.cases m with h | ⟨m', hstop, hsnapshot, hgrows⟩
    · cases hxm : x m with
      | ok a m₁ =>
        rw [hxm] at h
        rw [bind_of_ok h, bind_of_ok hxm]
        exact (hf a).cases m₁
      | error e m₁ =>
        rw [hxm] at h
        rw [bind_of_error h, bind_of_error hxm]
        exact Or.inl rfl
    · refine Or.inr ⟨m', bind_of_error hstop, hsnapshot, ?_⟩
      cases hy : y m.plain with
      | ok a m₁ =>
        rw [hy] at hgrows
        rw [bind_of_ok hy]
        exact hgrows.trans ((hf a).keeps.final m₁)
      | error e m₁ =>
        rw [hy] at hgrows
        rw [bind_of_error hy]
        exact hgrows

/-- A step is logged with the variables or without them. -/
theorem log (scopes : ScopeTable) (action : Action) (location : Location) :
    Quieter (log ⟨scopes, true⟩ action location) (log ⟨scopes, false⟩ action location) where
  keeps := (Machine.transition_grows ⟨scopes, false⟩ fun _ => pure none).within_log action location
  cases m := by
    rw [log_eq, log_eq]
    cases hsnapshot : m.stack.top.snapshot? with
    | some snapshot =>
      refine Or.inl ?_
      show EStateM.Result.ok () (m.plain.logged action location none) =
        .ok () (m.logged action location (some snapshot)).plain
      rw [Machine.plain_logged]
    | none => exact Or.inr ⟨m, rfl, hsnapshot, .logged m.plain action location none⟩

theorem modifyStack (f : CallStack → CallStack) : Quieter (modifyStack f) (modifyStack f) :=
  of_ok (fun _ => rfl) (fun _ => ⟨List.prefix_refl _, List.prefix_refl _⟩) (fun _ => rfl)
    fun _ => rfl

theorem newFrameId : Quieter newFrameId newFrameId :=
  of_ok (fun _ => rfl) (fun _ => ⟨List.prefix_refl _, List.prefix_refl _⟩) (fun _ => rfl)
    fun _ => rfl

theorem print (line : String) : Quieter (print line) (print line) :=
  of_ok (fun _ => rfl) (fun _ => ⟨by simp, List.prefix_refl _⟩) (fun _ => rfl) fun _ => rfl

/-- A value that has no text stops both computations. -/
theorem shown {α : Type} (o : Option α) : Quieter (shown o) (shown o) := by
  refine of_plain ⟨fun h => ?_, fun h => ?_⟩ fun m => ?_
  · rw [shown_eq] at h
    split at h
    · cases h
      exact .refl _
    · cases h
  · rw [shown_eq] at h
    split at h
    · cases h
    · cases h
      exact .refl _
  · rw [shown_eq, shown_eq]
    split
    · rfl
    · exact congrArg (fun e => EStateM.Result.error e m.plain) m.unshown_plain

theorem printValue (v : Option Value) : Quieter (printValue v) (printValue v) := by
  have pure {α : Type} (a : α) : Quieter (Pure.pure a) (Pure.pure a) :=
    of_plain (Machine.composes_grows.within_pure a) fun _ => rfl
  cases v with
  | none => exact pure none
  | some v => exact bind (shown v.render?) fun line => bind (print line) fun _ => pure (some v)

/-- What the basic steps do does not depend on the variables that are logged. -/
theorem congruence (scopes : ScopeTable) (ev₁ ev₂ : Evaluator) :
    Congruence ⟨scopes, true⟩ ⟨scopes, false⟩ ev₁ ev₂ Node.Any fun _ x y => Quieter x y := by
  have keeps := (Machine.transition_grows ⟨scopes, false⟩ ev₂).congruence
  have pure {α : Type} (a : α) : Quieter (Pure.pure a) (Pure.pure a) :=
    of_plain (keeps.pure a) fun _ => rfl
  refine {
    scopes := rfl
    pure := pure
    bind := bind
    fail := fun hnode hraises => of_plain (keeps.fail hnode hraises) fun _ => rfl
    outOfFuel := of_plain keeps.outOfFuel fun _ => rfl
    readVariable := fun hnode => of_plain (keeps.readVariable hnode) fun m => ?_
    log := log scopes
    output := fun _ hvalue => bind (log scopes _ _) fun _ => bind hvalue printValue
    writeVariable := fun v hnode => of_plain (keeps.writeVariable v hnode) fun m => ?_
    checkDepth := fun hnode => of_plain (keeps.checkDepth hnode) fun m => ?_
    inFrame := ?_ }
  · rw [readVariable_eq, readVariable_eq, Machine.stack_plain]
    split
    · rfl
    · rfl
  · cases v with
    | some v => rfl
    | none => rfl
  · rw [checkDepth_eq, checkDepth_eq, Machine.stack_plain]
    split
    · rfl
    · rfl
  · intro location isGlobal name args arguments₁ arguments₂ body₁ body₂ _ hargs hbody
    refine bind newFrameId fun id => bind hargs fun vars => bind (log scopes _ _) fun _ => ?_
    refine bind (modifyStack _) fun _ => bind hbody fun result => ?_
    exact bind (modifyStack _) fun _ => pure result

end Exec.Quieter

/-! ## Verbose runs -/

/-- Every evaluation does the same, verbose or not, unless it stops at a variable that has no
    text. -/
theorem quieter_eval (scopes : ScopeTable) (n : Nat) (node : Node) :
    Quieter (eval ⟨scopes, true⟩ n node) (eval ⟨scopes, false⟩ n node) :=
  related_eval (fun _ => Quieter.congruence scopes _ _) (closed_any scopes) n trivial

theorem Outcome.ofResult_plain (r : EStateM.Result Stop Machine (Option Value)) :
    ofResult (Exec.plain r) = (ofResult r).plain := by
  cases r with
  | ok _ _ => rfl
  | error stop _ => cases stop <;> rfl

theorem start_plain (scopes : ScopeTable) :
    (Context.start ⟨scopes, true⟩).plain = Context.start ⟨scopes, false⟩ := by
  simp [Context.start, Machine.start, Machine.plain]

/-- A verbose run ends like the run that does not log the variables, with the same output, the
    same fault, the same frames and the same steps, but for the texts of the variables that
    are logged with them.  Or else it stops at a step whose variables cannot be logged, because
    a number of the innermost call has too many digits; what it has printed and logged until
    then, the other run prints and logs first. -/
theorem verbose_run (scopes : ScopeTable) (fuel : Nat) :
    ((run ⟨scopes, true⟩ fuel).plain = run ⟨scopes, false⟩ fuel ∧
      (run ⟨scopes, true⟩ fuel).lastStep? = (run ⟨scopes, false⟩ fuel).lastStep?) ∨
    ∃ m, run ⟨scopes, true⟩ fuel =
        ⟨.failed ⟨.numeralTooLong, m.log.back?.map Step.location⟩, m⟩ ∧
      (∃ entry ∈ m.stack.top.vars.entries, entry.2.HasLongNumber) ∧
      m.output.toList <+: (run ⟨scopes, false⟩ fuel).machine.output.toList ∧
      m.plain.log.toList <+: (run ⟨scopes, false⟩ fuel).machine.log.toList := by
  have hbody : Quieter (evalBody (eval ⟨scopes, true⟩ fuel) scopes.global.definition)
      (evalBody (eval ⟨scopes, false⟩ fuel) scopes.global.definition) :=
    related_evalBody (Quieter.congruence scopes _ _) (closed_any _)
      (fun node _ => quieter_eval scopes fuel node) scopes.get?_global
  have hcases := hbody.cases (Context.start ⟨scopes, true⟩)
  rw [start_plain] at hcases
  rw [run_eq, run_eq, Context.runWith, Context.runWith]
  rcases hcases with h | ⟨m, hstop, hsnapshot, hgrows⟩
  · rw [h, Outcome.ofResult_plain, Outcome.lastStep?_plain]
    exact Or.inl ⟨rfl, rfl⟩
  · rw [hstop, Outcome.machine_ofResult]
    exact Or.inr ⟨m, rfl, Frame.snapshot?_eq_none.mp hsnapshot, hgrows.output, hgrows.log⟩

end VectorLang
