import VectorLang.Proofs.Machine.Asking
import VectorLang.Proofs.Machine.Scoping
import VectorLang.Proofs.Machine.Termination

/-!
# The depth of the stack

The frames are counted when a call is evaluated, and its own frame is put on the stack after the
arguments, which may be calls themselves.  As every evaluation that succeeds leaves as many frames
as it found, the count still holds then: there is never more than one frame above the number that
a call may find.

* `bounded_eval`           what an evaluation does to the number of frames
* `evalStep_eq_exceeded`   which node raises the fault of too many frames
* `depth_bounded`          all states of a run
-/

namespace VectorLang

open Exec

/-! ## Evaluations -/

/-- Whether a computation that succeeds leaves the depth of the stack as it was, and one that stops
    does so at a depth that is allowed, if it started at one. -/
def Exec.Bounded {α : Type} (x : Exec α) : Prop :=
  Within (fun m m' => m'.stack.depth = m.stack.depth)
    (fun m _ m' => m.stack.depth ≤ maxDepth + 1 → m'.stack.depth ≤ maxDepth + 1) x

theorem composes_bounded : Composes (fun m m' => m'.stack.depth = m.stack.depth)
    (fun m _ m' => m.stack.depth ≤ maxDepth + 1 → m'.stack.depth ≤ maxDepth + 1) where
  refl _ := rfl
  trans h h' := h'.trans h
  after h h' hm := h' (h ▸ hm)

theorem Exec.Bounded.final {α : Type} {x : Exec α} (h : Bounded x) {m : Machine}
    (hm : m.stack.depth ≤ maxDepth + 1) : (final (x m)).stack.depth ≤ maxDepth + 1 := by
  cases hx : x m with
  | ok a m' =>
    have hdepth : m'.stack.depth = m.stack.depth := h.ok hx
    show m'.stack.depth ≤ _
    omega
  | error e m' => exact h.error hx hm

/-- The frame of a call is the only one that is added. -/
theorem Machine.depth_opened (m : Machine) (f : Frame) (location : Location)
    (snapshot : Option (List (String × String))) :
    (m.opened f location snapshot).stack.depth = m.stack.depth + 1 := rfl

section

variable {ctx : Context} {ev : Evaluator}

theorem bounded_evalBody (hev : ∀ node, Bounded (ev node)) (d : Definition Node) :
    Bounded (evalBody ev d) :=
  composes_bounded.within_evalBody fun s _ _ => hev s

theorem bounded_evalArguments (hev : ∀ node, Bounded (ev node)) (params : List String)
    (args : List Node) : Bounded (evalArguments ev params args) :=
  @Sequential.arguments _ composes_bounded.sequential _ ev args (fun arg _ => hev arg) params

/-- The rule of a node keeps the depth within its bounds, if what it evaluates does. -/
theorem ruleTransition_bounded (hev : ∀ node, Bounded (ev node)) (node : Node) :
    RuleTransition ctx ev node (fun _ _ => True) (fun m m' => m'.stack.depth = m.stack.depth)
      (fun m _ m' => m.stack.depth ≤ maxDepth + 1 → m'.stack.depth ≤ maxDepth + 1) where
  toComposes := composes_bounded
  logged _ _ _ _ := rfl
  printed _ _ := rfl
  numbered _ := rfl
  unshown _ hm := hm
  part _ := hev _
  post _ _ := trivial
  written m v _ _ := by cases v <;> exact CallStack.depth_modifyOwner _ _ _
  raised _ _ hm := hm
  outOfFuel _ _ hm := hm
  closed {_ _ _ _ _ m m₁ m₂ _ _ _} _ _ _ _ hargs hv := by
    have hbody : m₂.stack.depth = m₁.stack.depth + 1 :=
      (bounded_evalBody hev _).ok hv
    have hle : 2 ≤ m.stack.depth := Nat.le_add_left ..
    have hpop : m₂.closed.stack.depth + 1 = m₂.stack.depth := CallStack.depth_pop (by omega)
    omega
  notClosed {_ _ _ _ _ m m₁ m₂ _ _ _} _ hle _ _ hargs he _ := by
    -- the arguments have left the depth at which the frames were counted
    apply (bounded_evalBody hev _).error he
    rw [Machine.depth_opened]
    omega

/-- Every evaluation keeps the depth within its bounds, also if it may be stopped at a place. -/
theorem bounded_of_stopsAt {place : Node × Machine} {stop : Stop} {ev : Nat → Evaluator}
    (hev : StopsAt ctx place stop ev) (n : Nat) (node : Node) : Bounded (ev n node) := by
  induction n generalizing node with
  | zero =>
    rw [hev.zero]
    exact within_throw fun _ hm => hm
  | succ n ih => exact hev.within ((ruleTransition_bounded ih node).within n) fun _ _ hm => hm

theorem bounded_eval (ctx : Context) (n : Nat) (node : Node) : Bounded (eval ctx n node) := by
  have hstops : StopsAt ctx (node, default) .outOfFuel (eval ctx) := stopsAt_eval
  exact bounded_of_stopsAt hstops n node

/-! ## States -/

/-- A call puts its frame on as many frames as it was evaluated with. -/
theorem depth_of_pushes {node : Node} {scope : Scope} {m m' : Machine}
    (h : ctx.Pushes node m scope m') :
    m.stack.depth ≤ maxDepth ∧ m'.stack.depth = m.stack.depth + 1 := by
  cases h with
  | call hdepth hscope hargs hlog =>
    refine ⟨hdepth, ?_⟩
    rw [Machine.depth_opened, (bounded_evalArguments (bounded_eval ctx _) _ _).ok hargs]
    rfl

theorem depth_of_visitsFrom {fuel : Nat} {d : Definition Node} {m m' : Machine}
    (hm : m.stack.depth ≤ maxDepth + 1) (h : ctx.VisitsFrom fuel d m m') :
    m'.stack.depth ≤ maxDepth + 1 := by
  have hreached {node : Node} {m₁ : Machine} (hreach : ctx.ReachesFrom fuel d m node m₁) :
      m₁.stack.depth ≤ maxDepth + 1 :=
    (bounded_evalBody (bounded_of_stopsAt stopsAt_evalStopped fuel) d).error
      (hreach .outOfFuel) hm
  cases h with
  | evaluates hreach => exact hreached hreach
  | leaves n hreach => exact (bounded_eval ctx n _).final (hreached hreach)
  | opens _ hpushes =>
    obtain ⟨hle, hdepth⟩ := depth_of_pushes hpushes
    omega
  | ends => exact (bounded_evalBody (bounded_eval ctx fuel) d).final hm

end

/-! ## The fault -/

/-- A call that finds too many frames is not evaluated, whatever its arguments are. -/
theorem evalStep_call_of_lt {m : Machine} (h : maxDepth < m.stack.depth) (ctx : Context)
    (ev : Evaluator) (n : Nat) (location : Location) (isGlobal : Bool) (name : String)
    (args : List Node) :
    evalStep ctx ev n (.call location isGlobal name args) m =
      .error (.fault ⟨.callStackExceeded, some location⟩) m := by
  show evalCall ctx ev location name args m = _
  have hcheck : checkDepth location m = .error (.fault ⟨.callStackExceeded, some location⟩) m := by
    rw [checkDepth_eq, if_pos h]
  rw [evalCall_eq, bind_of_error hcheck]

/-- If nothing below a node raises a fault, the node raises that of too many frames only if it is
    a call. -/
theorem ruleTransition_exceeded (ctx : Context) (ev : Evaluator) (node : Node) :
    RuleTransition ctx (muted ev) node (fun _ _ => True) (fun _ _ => True)
      (fun _ e _ => ∀ location, e = .fault ⟨.callStackExceeded, location⟩ →
        ∃ l isGlobal name args, node = .call l isGlobal name args) where
  refl _ := trivial
  trans _ _ := trivial
  after _ h := h
  logged _ _ _ _ := trivial
  printed _ _ := trivial
  numbered _ := trivial
  unshown _ _ h := by cases h
  part _ := ⟨fun _ => trivial, fun he _ h => by cases (muted_eq_error he).symm.trans h⟩
  post _ _ := trivial
  written _ _ _ _ := trivial
  raised hraises _ _ h := by
    cases h
    cases hraises
    exact ⟨_, _, _, _, rfl⟩
  outOfFuel _ _ _ h := by cases h
  closed _ _ _ _ _ _ := trivial
  notClosed hnode _ _ _ _ _ _ _ := ⟨_, _, _, _, hnode⟩

/-- The fault of too many frames is raised by a call that finds them, and by nothing else.  It
    changes nothing. -/
theorem evalStep_eq_exceeded {ctx : Context} {ev : Evaluator} {n : Nat} {node : Node}
    {location : Option Location} {m m' : Machine}
    (h : evalStep ctx (muted ev) n node m = .error (.fault ⟨.callStackExceeded, location⟩) m') :
    ∃ l isGlobal name args, location = some l ∧ node = .call l isGlobal name args ∧
      maxDepth < m.stack.depth ∧ m' = m := by
  obtain ⟨l, isGlobal, name, args, rfl⟩ :=
    ((ruleTransition_exceeded ctx ev node).within n).error h location rfl
  rcases evalCall_eq_error h with ⟨hdepth, he, rfl⟩ | ⟨_, he, _⟩ | ⟨_, scope, _, hframe⟩
  · cases he
    exact ⟨l, isGlobal, name, args, rfl, rfl, hdepth, rfl⟩
  · cases he
  · -- after the check the fault could only come from below
    rcases inFrame_eq_error hframe with he | ⟨vars, m₁, _, he | ⟨snapshot, he⟩⟩
    · cases evalArguments_muted_eq_error he
    · rw [log_eq] at he
      split at he <;> cases he
    · cases evalBody_muted_eq_error he

/-! ## Runs -/

/-- In every state of a run there are at least two frames, and at most one more than a call may
    find.  A call that is closed takes its own frame away.  A run ends with the fault of too many
    frames exactly if it comes to a call in a state with that many.  The call is not evaluated,
    whatever its arguments are, and the run ends in the state that it came to the call in. -/
theorem depth_bounded (ctx : Context) (fuel : Nat) :
    maxDepth + 1 = 101 ∧
    (∀ m, ctx.Visits fuel m →
      2 ≤ m.stack.frames.length ∧ m.stack.frames.length ≤ maxDepth + 1) ∧
    (∀ node m scope m₁ n v m₂, ctx.Pushes node m scope m₁ →
      evalBody (eval ctx n) scope.definition m₁ = .ok v m₂ →
      m₂.stack.frames.length = m.stack.frames.length + 1) ∧
    (∀ location m, run ctx fuel = ⟨.failed ⟨.callStackExceeded, location⟩, m⟩ ↔
      m.stack.frames.length = maxDepth + 1 ∧ ∃ l isGlobal name args, location = some l ∧
        ctx.Reaches fuel (.call l isGlobal name args) m) ∧
    ∀ ev n m l isGlobal name args, m.stack.frames.length = maxDepth + 1 →
      evalStep ctx ev n (.call l isGlobal name args) m =
        .error (.fault ⟨.callStackExceeded, some l⟩) m := by
  have hstart : ctx.start.stack.depth ≤ maxDepth + 1 := (by decide : 2 ≤ maxDepth + 1)
  have hvisits {m : Machine} (h : ctx.Visits fuel m) : m.stack.depth ≤ maxDepth + 1 :=
    depth_of_visitsFrom hstart h
  simp only [CallStack.length_frames]
  refine ⟨rfl, fun m h => ⟨Nat.le_add_left .., hvisits h⟩, ?_, ?_, ?_⟩
  · intro node m scope m₁ n v m₂ hpushes hv
    rw [(bounded_evalBody (bounded_eval ctx n) scope.definition).ok hv, (depth_of_pushes hpushes).2]
  · intro location m
    constructor
    · intro h
      obtain ⟨c, m₀, k, hreach, hraised⟩ := exists_reaches h
      obtain ⟨l, isGlobal, name, args, rfl, rfl, hdepth, rfl⟩ := evalStep_eq_exceeded hraised
      have hle := hvisits (.evaluates hreach)
      exact ⟨by omega, l, isGlobal, name, args, rfl, hreach⟩
    · rintro ⟨hdepth, l, isGlobal, name, args, rfl, hreach⟩
      apply run_of_reaches hreach
      intro n
      exact evalStep_call_of_lt (by omega) ctx (eval ctx n) n l isGlobal name args
  · intro ev n m l isGlobal name args hdepth
    exact evalStep_call_of_lt (by omega) ctx ev n l isGlobal name args

/-- A program that calls itself without end is stopped with 101 frames.  A call that comes to its
    end closes the third frame. -/
theorem depth_bounded_recursive :
    (run ⟨recursiveTable, false⟩ 250).ending = .failed ⟨.callStackExceeded, some default⟩ ∧
    (run ⟨recursiveTable, false⟩ 250).machine.stack.frames.length = 101 ∧
    (∃ isGlobal name args, Context.Reaches ⟨recursiveTable, false⟩ 250
      (.call default isGlobal name args) (run ⟨recursiveTable, false⟩ 250).machine) ∧
    (Context.Visits ⟨copyingTable, false⟩ 2 copyingCalled ∧
      2 ≤ copyingCalled.stack.frames.length) ∧
    ∃ m, evalBody (eval ⟨copyingTable, false⟩ 5) copier copyingOpened =
      .ok (some (.ints [1])) m ∧ m.stack.frames.length = 3 := by
  obtain ⟨hmax, _, _, hexceeded, _⟩ := depth_bounded ⟨recursiveTable, false⟩ 250
  obtain ⟨_, hvisits, hcloses, _⟩ := depth_bounded ⟨copyingTable, false⟩ 2
  have hending : (run ⟨recursiveTable, false⟩ 250).ending =
    .failed ⟨.callStackExceeded, some default⟩ := by decide +kernel
  have hrun : run ⟨recursiveTable, false⟩ 250 =
      ⟨.failed ⟨.callStackExceeded, some default⟩, (run ⟨recursiveTable, false⟩ 250).machine⟩ := by
    rw [← hending]
  obtain ⟨hdepth, l, isGlobal, name, args, hl, hreach⟩ := (hexceeded _ _).mp hrun
  cases hl
  have hvisit : Context.Visits ⟨copyingTable, false⟩ 2 copyingCalled :=
    .evaluates reaches_copierCall
  have hbody : evalBody (eval ⟨copyingTable, false⟩ 5) copier copyingOpened =
    .ok (some (.ints [1])) (final (evalBody (eval ⟨copyingTable, false⟩ 5) copier
      copyingOpened)) := by rfl
  exact ⟨hending, hdepth.trans hmax, ⟨isGlobal, name, args, hreach⟩,
    ⟨hvisit, (hvisits _ hvisit).1⟩, _, hbody, hcloses _ _ _ _ _ _ _ pushes_copierCall hbody⟩

end VectorLang
