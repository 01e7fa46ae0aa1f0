import VectorLang.Proofs.Machine.Transition

/-!
# The discipline of the call stack

An evaluation that succeeds leaves the call stack as it found it, but for the variables of
the globals and of the innermost call.  It takes back no line of the output and no step of
the log.

* `follows_eval`   what every evaluation that succeeds keeps
* `frames_eval`    the same, frame by frame
-/

namespace VectorLang

/-! ## Frames -/

/-- Whether two frames are the same frame, with other variables maybe. -/
structure Frame.SameCall (f f' : Frame) : Prop where
  name : f'.name = f.name
  id : f'.id = f.id
  calledAt : f'.calledAt = f.calledAt

namespace Frame.SameCall

variable {f f₁ f₂ f₃ : Frame}

theorem refl (f : Frame) : f.SameCall f := ⟨rfl, rfl, rfl⟩

theorem trans (h : f₁.SameCall f₂) (h' : f₂.SameCall f₃) : f₁.SameCall f₃ :=
  ⟨h'.name.trans h.name, h'.id.trans h.id, h'.calledAt.trans h.calledAt⟩

end Frame.SameCall

theorem Frame.sameCall_setVariable (f : Frame) (name : String) (v : Value) :
    f.SameCall (f.setVariable name v) := ⟨rfl, rfl, rfl⟩

theorem Frame.sameCall_eraseVariable (f : Frame) (name : String) :
    f.SameCall (f.eraseVariable name) := ⟨rfl, rfl, rfl⟩

/-! ## Stacks -/

/-- Whether a stack has the frames of another one, and only the variables of the globals and
    of the innermost call may differ. -/
structure CallStack.SameCalls (s s' : CallStack) : Prop where
  globals : s.globals.SameCall s'.globals
  top : s.top.SameCall s'.top
  below : s'.below = s.below

namespace CallStack.SameCalls

variable {s s₁ s₂ s₃ : CallStack}

theorem refl (s : CallStack) : s.SameCalls s := ⟨.refl _, .refl _, rfl⟩

theorem trans (h : s₁.SameCalls s₂) (h' : s₂.SameCalls s₃) : s₁.SameCalls s₃ :=
  ⟨h.globals.trans h'.globals, h.top.trans h'.top, h'.below.trans h.below⟩

theorem modifyOwner (s : CallStack) (isGlobal : Bool) {change : Frame → Frame}
    (hchange : ∀ f : Frame, f.SameCall (change f)) :
    s.SameCalls (s.modifyOwner isGlobal change) := by
  cases isGlobal with
  | true => exact ⟨hchange s.globals, .refl s.top, rfl⟩
  | false => exact ⟨.refl s.globals, hchange s.top, rfl⟩

/-- Closing a call uncovers the frame that it was opened on, with its variables. -/
theorem pop_eq {f : Frame} {s' : CallStack} (h : (s.push f).SameCalls s') :
    s'.pop = { s with globals := s'.globals } := by
  -- what the call was opened on is the first of the frames below it
  have hbelow : s'.below = s.top :: s.below := h.below
  rw [CallStack.pop, hbelow]

theorem pop {f : Frame} {s' : CallStack} (h : (s.push f).SameCalls s') :
    s.SameCalls s'.pop := by
  rw [h.pop_eq]
  exact ⟨h.globals, .refl s.top, rfl⟩

end CallStack.SameCalls

/-- The globals come first, and the innermost call comes last. -/
theorem CallStack.frames_eq (s : CallStack) :
    s.frames = s.globals :: (s.below.reverse ++ [s.top]) := by
  rw [frames, List.reverse_cons]

namespace CallStack.SameCalls

variable {s s' : CallStack} {i : Nat} {f f' : Frame}

/-- Two stacks with the same frames are equally deep. -/
theorem length_frames (h : s.SameCalls s') : s'.frames.length = s.frames.length := by
  rw [CallStack.length_frames, CallStack.length_frames, CallStack.depth, CallStack.depth, h.below]

/-- The frames at one place are those of one call. -/
theorem frame (h : s.SameCalls s') (hf : s.frames[i]? = some f)
    (hf' : s'.frames[i]? = some f') : f.SameCall f' := by
  rw [frames_eq] at hf hf'
  rw [h.below] at hf'
  cases i with
  | zero =>
    cases hf
    cases hf'
    exact h.globals
  | succ i =>
    rw [List.getElem?_cons_succ] at hf hf'
    by_cases hi : i < s.below.reverse.length
    · -- between the globals and the innermost call the two stacks are the same
      rw [List.getElem?_append_left hi] at hf hf'
      obtain rfl := Option.some.inj (hf.symm.trans hf')
      exact .refl f
    · rw [List.getElem?_append_right (by omega)] at hf hf'
      obtain ⟨hlt, rfl⟩ := List.getElem?_eq_some_iff.mp hf
      obtain ⟨_, rfl⟩ := List.getElem?_eq_some_iff.mp hf'
      simp only [List.getElem_singleton]
      exact h.top

/-- The frames between the globals and the innermost call are untouched. -/
theorem between (h : s.SameCalls s') (hglobals : i ≠ 0) (htop : i + 1 ≠ s.frames.length) :
    s'.frames[i]? = s.frames[i]? := by
  rw [CallStack.length_frames, CallStack.depth] at htop
  rw [frames_eq, frames_eq, h.below]
  cases i with
  | zero => exact absurd rfl hglobals
  | succ i =>
    rw [List.getElem?_cons_succ, List.getElem?_cons_succ]
    by_cases hi : i < s.below.reverse.length
    · rw [List.getElem?_append_left hi, List.getElem?_append_left hi]
    · -- beyond the innermost call there is nothing
      rw [List.length_reverse] at hi
      have hlen : s.below.reverse.length + 1 ≤ i := by
        rw [List.length_reverse]
        omega
      rw [List.getElem?_eq_none (by simpa using hlen), List.getElem?_eq_none (by simpa using hlen)]

end CallStack.SameCalls

/-! ## Runs -/

/-- Whether a state may be left behind by an evaluation that starts in another one: the
    frames are the same, and what was printed and logged is still there. -/
structure Machine.Follows (m m' : Machine) : Prop where
  stack : m.stack.SameCalls m'.stack
  output : m.output.toList <+: m'.output.toList
  log : m.log.toList <+: m'.log.toList

namespace Machine.Follows

variable {m m₁ m₂ m₃ : Machine}

theorem refl (m : Machine) : m.Follows m :=
  ⟨.refl m.stack, List.prefix_refl _, List.prefix_refl _⟩

theorem trans (h : m₁.Follows m₂) (h' : m₂.Follows m₃) : m₁.Follows m₃ :=
  ⟨h.stack.trans h'.stack, h.output.trans h'.output, h.log.trans h'.log⟩

theorem logged (m : Machine) (action : Action) (location : Location)
    (snapshot : Option (List (String × String))) :
    m.Follows (m.logged action location snapshot) :=
  ⟨.refl m.stack, List.prefix_refl _, by simp [Machine.logged]⟩

/-- A call leaves the frames as they were, because closing it takes its own frame away. -/
theorem closed {f : Frame} {location : Location} {snapshot : Option (List (String × String))}
    (h : m.numbered.Follows m₁) (h' : (m₁.opened f location snapshot).Follows m₂) :
    m.Follows m₂.closed := by
  have hlog := h.trans (.logged m₁ (.call f.name) location snapshot)
  -- the number of the frame is part of neither
  exact ⟨h.stack.trans h'.stack.pop, h.output.trans h'.output, hlog.log.trans h'.log⟩

end Machine.Follows

theorem Machine.composes_follows : Composes Machine.Follows fun _ _ _ => True where
  refl := .refl
  trans := .trans
  after _ _ := trivial

/-- Every basic step leaves the frames, the output and the log in place. -/
theorem Machine.transition_follows (ctx : Context) (ev : Evaluator) :
    Transition ctx ev Node.Any Machine.Follows fun _ _ _ => True where
  toComposes := composes_follows
  logged := .logged
  printed m line := ⟨.refl m.stack, by simp, List.prefix_refl _⟩
  set m isGlobal name v :=
    ⟨.modifyOwner m.stack isGlobal fun f => f.sameCall_setVariable name v, List.prefix_refl _,
      List.prefix_refl _⟩
  erased m isGlobal name :=
    ⟨.modifyOwner m.stack isGlobal fun f => f.sameCall_eraseVariable name, List.prefix_refl _,
      List.prefix_refl _⟩
  called h h' := .closed h h'
  notOpened _ := trivial
  notClosed _ _ := trivial
  raised _ _ := trivial
  outOfFuel _ := trivial
  notLogged _ _ := trivial
  notPrinted _ _ _ := trivial

/-- An evaluation that succeeds leaves the frames, the output and the log in place. -/
theorem follows_eval {ctx : Context} {n : Nat} {node : Node} {v : Option Value}
    {m m' : Machine} (h : eval ctx n node m = .ok v m') : m.Follows m' :=
  (within_eval (fun n => Machine.transition_follows ctx (eval ctx n)) (closed_any _) n trivial).ok h

/-- When a call is closed, the stack is the one that it was opened on, but for the globals. -/
theorem stack_closed {ctx : Context} {n : Nat} {d : Definition Node} {v : Option Value}
    {m m' : Machine} {f : Frame} {location : Location}
    {snapshot : Option (List (String × String))}
    (h : evalBody (eval ctx n) d (m.opened f location snapshot) = .ok v m') :
    m'.closed.stack = { m.stack with globals := m'.stack.globals } := by
  have hbody : Exec.Within Machine.Follows (fun _ _ _ => True) (evalBody (eval ctx n) d) :=
    Machine.composes_follows.within_evalBody fun s _ _ =>
      within_eval (fun n => Machine.transition_follows ctx (eval ctx n)) (closed_any _) n trivial
  exact (hbody.ok h).stack.pop_eq

/-- After an evaluation that succeeds there are as many frames as before, at each place the
    frame of the same call, and its variables are the same unless it is the first or the last
    frame.  The output and the log have only grown. -/
theorem frames_eval {ctx : Context} {n : Nat} {node : Node} {v : Option Value}
    {m m' : Machine} (h : eval ctx n node m = .ok v m') :
    m'.stack.frames.length = m.stack.frames.length ∧
    (∀ (i : Nat) (f f' : Frame), m.stack.frames[i]? = some f → m'.stack.frames[i]? = some f' →
      f'.name = f.name ∧ f'.id = f.id ∧ f'.calledAt = f.calledAt ∧
      (i ≠ 0 → i + 1 ≠ m.stack.frames.length → f'.vars = f.vars)) ∧
    m.output.toList <+: m'.output.toList ∧ m.log.toList <+: m'.log.toList := by
  have hfollows := follows_eval h
  refine ⟨hfollows.stack.length_frames, ?_, hfollows.output, hfollows.log⟩
  intro i f f' hf hf'
  have hcall := hfollows.stack.frame hf hf'
  refine ⟨hcall.name, hcall.id, hcall.calledAt, fun hglobals htop => ?_⟩
  -- neither the globals nor the innermost call: the frame is untouched
  have heq := hfollows.stack.between hglobals htop
  rw [hf, hf'] at heq
  rw [Option.some.inj heq]

/-- A program with a function that sets a global variable. -/
def setterContext : Context :=
  let assign := .assign default true ".G" (some (.int default 5))
  let setter := .ofDefinition ⟨default, false, "F", [], [assign]⟩
  let main := .ofDefinition ⟨default, false, "P", [], []⟩
  ⟨⟨main, [("P", main), ("F", setter)]⟩, false⟩

/-- A state in the body of a function that the program called. -/
def setterStart : Machine :=
  { Machine.start globalScopeName "P" with
    stack := (Machine.start globalScopeName "P").stack.push ⟨"Q", .empty, 2, some default⟩
    frameCount := 3 }

/-- The same state after a call of the function. -/
def setterEnd : Machine :=
  { setterStart with
    log := #[⟨0, 2, default, .call "F", none⟩, ⟨1, 3, default, .node "Assignment", none⟩]
    stack := setterStart.stack.modifyOwner true (Frame.setVariable ".G" (.ints [5]))
    frameCount := 4 }

theorem frames_eval_setter :
    eval setterContext 3 (.call default false "F" []) setterStart =
      .ok (some (.ints [5])) setterEnd ∧
    setterEnd.stack.frames.length = setterStart.stack.frames.length ∧
    setterStart.log.toList <+: setterEnd.log.toList := by
  have heval : eval setterContext 3 (.call default false "F" []) setterStart =
    .ok (some (.ints [5])) setterEnd := by rfl
  obtain ⟨hlength, _, _, hlog⟩ := frames_eval heval
  exact ⟨heval, hlength, hlog⟩

end VectorLang
