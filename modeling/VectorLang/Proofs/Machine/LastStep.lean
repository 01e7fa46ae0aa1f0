import Mathlib
import VectorLang.Proofs.Machine.Coherence
import VectorLang.Traceback
import VectorLang.Tree.Parser

/-!
# The last step of a run

A fault is reported with the number of the last step of the whole run, and a traceback shows
for each frame the last step of that frame.  For the innermost frame these are the same step,
except in two cases: the frame has made no step since it was opened, or a call that it made
has logged steps of its own before it was closed.

* `Machine.Coherent.lastStepOf?_eq`   which step is the last one of a frame
* `recent_run`                        how the last step of a run and the innermost frame fit
* `lastStep_cases`                    the same for the steps that a traceback shows
-/

namespace VectorLang

open Exec

/-! ## The last step of the log -/

namespace Machine

variable {m m' : Machine} {s t : Step}

/-- The step that is logged last has the greatest number. -/
theorem Coherent.index_of_back? (h : m.Coherent) (hs : m.log.back? = some s) :
    s ∈ m.log ∧ s.index + 1 = m.log.size := by
  rw [Array.back?_eq_getElem?] at hs
  have hlt := (Array.getElem?_eq_some_iff.mp hs).1
  have hindex := h.placed _ s hs
  exact ⟨Array.mem_of_getElem? hs, by omega⟩

theorem Coherent.index_lt (h : m.Coherent) (hs : s ∈ m.log) : s.index < m.log.size := by
  obtain ⟨k, hk⟩ := Array.mem_iff_getElem?.mp hs
  rw [h.placed k s hk]
  exact (Array.getElem?_eq_some_iff.mp hk).1

/-- Steps are told apart by their numbers. -/
theorem Coherent.eq_of_index (h : m.Coherent) (hs : s ∈ m.log) (ht : t ∈ m.log)
    (hindex : s.index = t.index) : s = t := by
  obtain ⟨j, hj⟩ := Array.mem_iff_getElem?.mp hs
  obtain ⟨k, hk⟩ := Array.mem_iff_getElem?.mp ht
  obtain rfl : j = k := by rw [← h.placed j s hj, ← h.placed k t hk, hindex]
  exact Option.some.inj (hj.symm.trans hk)

/-- The last step of a frame is the one with the greatest number. -/
theorem Coherent.lastStepOf?_eq (h : m.Coherent) (hs : s ∈ m.log)
    (hmax : ∀ t ∈ m.log, t.frame = s.frame → t.index ≤ s.index) :
    m.lastStepOf? s.frame = some s := by
  cases hlast : m.lastStepOf? s.frame with
  | none => exact absurd rfl (lastStepOf?_eq_none.mp hlast s hs)
  | some t =>
    obtain ⟨ht, hframe, hgreatest⟩ := h.greatest hlast
    have hindex : t.index = s.index := Nat.le_antisymm (hmax t ht hframe) (hgreatest s hs rfl)
    rw [h.eq_of_index ht hs hindex]

/-- The steps that come after the log of the state before are new ones. -/
theorem Advances.frame_of_new (h : m.Advances m') (hm : m.Coherent) (hs : s ∈ m'.log)
    (hindex : m.log.size ≤ s.index) : s.frame = m.stack.top.id ∨ m.frameCount ≤ s.frame := by
  rcases h.steps s hs with hold | hnew
  · exact absurd (hm.index_lt hold) (Nat.not_lt.mpr hindex)
  · exact hnew

/-- The last step of a frame and that of the log are the same if their numbers are. -/
theorem Coherent.index_eq_iff (h : m.Coherent) {id : Nat} :
    m.log.back?.map Step.index = (m.lastStepOf? id).map Step.index ↔
      m.lastStepOf? id = m.log.back? := by
  constructor
  · intro hindex
    cases hback : m.log.back? with
    | none =>
      rw [hback] at hindex
      exact Option.map_eq_none_iff.mp hindex.symm
    | some t =>
      rw [hback] at hindex
      obtain ⟨s, hs, heq⟩ := Option.map_eq_some_iff.mp hindex.symm
      have hmem := (h.greatest hs).1
      rw [hs, h.eq_of_index hmem (h.index_of_back? hback).1 heq]
  · intro heq
    rw [heq]

/-- No frame has a greater number than the innermost one. -/
theorem Coherent.le_top_of_frames (h : m.Coherent) {f : Frame} (hf : f ∈ m.stack.frames) :
    f.id ≤ m.stack.top.id := by
  rw [CallStack.frames, List.mem_cons, List.mem_reverse] at hf
  rcases hf with rfl | hf
  · exact Nat.le_of_lt h.globals_lt_top
  · exact h.le_top (f := f.bare) (List.mem_map_of_mem hf)

/-! ## How it fits the innermost frame -/

/-- How the last step of a run is related to the innermost frame. -/
inductive Recent (m : Machine) : Prop where
  /-- It is a step of that frame, or there is no step at all. -/
  | own : m.lastStepOf? m.stack.top.id = m.log.back? → Recent m
  /-- It is the call that opened that frame, which has made no step yet. -/
  | opened {lower : Frame} {lowers : List Frame} {s : Step} : m.stack.below = lower :: lowers →
      m.lastStepOf? m.stack.top.id = none → m.log.back? = some s →
      m.lastStepOf? lower.id = some s → s.action = .call m.stack.top.name →
      m.stack.top.calledAt = some s.location → Recent m
  /-- It is a step that was logged while a call of that frame was open, and the call that the
      frame made is its own last step. -/
  | returned {s t : Step} {name : String} : m.lastStepOf? m.stack.top.id = some s →
      s.action = .call name → m.log.back? = some t → s.index < t.index →
      (∀ u ∈ m.log, s.index < u.index → m.stack.top.id < u.frame) → Recent m

namespace Recent

/-- Only the log and the frames matter. -/
theorem congr (h : m.Recent) (hstack : m.stack.SameCalls m'.stack) (hlog : m'.log = m.log) :
    m'.Recent := by
  have htop := hstack.top
  have hlast := lastStepOf?_congr hlog
  cases h with
  | own heq => exact .own (by rw [hlast, htop.id, hlog, heq])
  | opened hbelow hnone hback hlower hcall hplace =>
    have hnone' : m'.lastStepOf? m'.stack.top.id = none := by rw [hlast, htop.id, hnone]
    rw [← hlog] at hback
    rw [← htop.name] at hcall
    rw [← htop.calledAt] at hplace
    exact .opened (hstack.below.trans hbelow) hnone' hback ((hlast _).trans hlower) hcall hplace
  | returned hs hcall hback hlt hnew =>
    rw [← hlast, ← htop.id] at hs
    rw [← hlog] at hback
    rw [← hlog, ← htop.id] at hnew
    exact .returned hs hcall hback hlt hnew

/-- A step of the innermost frame has just been logged. -/
theorem logged (m : Machine) (action : Action) (location : Location)
    (snapshot : Option (List (String × String))) :
    (m.logged action location snapshot).Recent := by
  refine .own ?_
  exact (lastStepOf?_logged ..).trans ((if_pos rfl).trans Array.back?_push.symm)

end Recent

/-! ### Calls -/

section

variable {m₁ m₂ : Machine} {name : String} {vars : Bindings} {location : Location}
  {snapshot : Option (List (String × String))}

/-- The step that a call is opened with. -/
def callStep (m : Machine) (name : String) (location : Location)
    (snapshot : Option (List (String × String))) : Step :=
  ⟨m.log.size, m.stack.top.id, location, .call name, snapshot⟩

/-- A call has just been opened. -/
theorem recent_opened (h : m.numbered.Advances m₁) (hm : m.Coherent) :
    (m₁.opened ⟨name, vars, m.frameCount, some location⟩ location snapshot).Recent := by
  have hnone : (m₁.logged (.call name) location snapshot).lastStepOf? m.frameCount = none :=
    lastStepOf?_eq_none.mpr (Advances.frame_ne_of_logged h hm)
  exact .opened rfl hnone Array.back?_push ((lastStepOf?_logged ..).trans (if_pos rfl)) rfl rfl

variable (h : m.numbered.Advances m₁)
  (h' : (m₁.opened ⟨name, vars, m.frameCount, some location⟩ location snapshot).Advances m₂)
  (hm : m.Coherent)
include h h' hm

/-- The steps that are logged while a call is open belong to it, or to frames that are made
    later. -/
theorem frame_of_inner {s : Step} (hs : s ∈ m₂.log) (hindex : m₁.log.size < s.index) :
    m₁.stack.top.id < s.frame := by
  have htop := Advances.top_lt_of_numbered h hm
  have hcount : m.frameCount + 1 ≤ m₁.frameCount := h.count
  have hsize : (m₁.opened ⟨name, vars, m.frameCount, some location⟩ location snapshot).log.size =
      m₁.log.size + 1 := Array.size_push ..
  rcases h'.frame_of_new (Advances.coherent_opened h hm) hs (hsize ▸ hindex) with hown | hlater
  · rw [hown]
    exact htop
  · have hlater' : m₁.frameCount ≤ s.frame := hlater
    omega

/-- The call is the last step of the frame that it was opened on. -/
theorem lastStepOf?_inner :
    m₂.lastStepOf? m₁.stack.top.id = some (m₁.callStep name location snapshot) := by
  have hm₂ := h'.coherent (Advances.coherent_opened h hm)
  have hmem : m₁.callStep name location snapshot ∈ m₂.log :=
    Array.mem_toList_iff.mp (h'.log.subset (Array.mem_toList_iff.mpr Array.mem_push_self))
  refine hm₂.lastStepOf?_eq hmem fun t ht hframe => Nat.le_of_not_lt fun hlt => ?_
  exact Nat.ne_of_gt (frame_of_inner h h' hm ht hlt) hframe

/-- A call has just been closed. -/
theorem recent_closed : m₂.closed.Recent := by
  have hm₂ := h'.coherent (Advances.coherent_opened h hm)
  have hlast := lastStepOf?_inner h h' hm
  have hinner : ∀ s ∈ m₂.log, m₁.log.size < s.index → m₁.stack.top.id < s.frame :=
    fun _ hs => frame_of_inner h h' hm hs
  have htop : m₂.closed.stack.top.id = m₁.stack.top.id :=
    (Advances.called h h').stack.top.id.trans h.stack.top.id.symm
  have hmem := (hm₂.greatest hlast).1
  cases hback : m₂.log.back? with
  | none =>
    rw [Array.back?_eq_none_iff] at hback
    rw [hback] at hmem
    exact absurd hmem (Array.not_mem_empty _)
  | some t =>
    obtain ⟨ht, hsize⟩ := hm₂.index_of_back? hback
    have hle := hm₂.index_lt hmem
    by_cases hlt : m₁.log.size < t.index
    · rw [← htop] at hlast hinner
      exact .returned hlast rfl hback hlt hinner
    · -- the call logged nothing
      have hindex : m₁.log.size < m₂.log.size := hle
      obtain rfl := hm₂.eq_of_index hmem ht (show m₁.log.size = t.index by omega)
      rw [← htop] at hlast
      exact .own (hlast.trans hback.symm)

end

/-- Every basic step keeps the last step recent, and so does one that stops. -/
theorem transition_recent (ctx : Context) (ev : Evaluator) :
    Transition ctx ev Node.Any
      (fun m m' => m.Advances m' ∧ (m.Coherent → m.Recent → m'.Recent))
      (fun m _ m' => m.Coherent → m.Recent → m'.Recent) where
  refl m := ⟨(transition_advances ctx ev).refl m, fun _ h => h⟩
  trans h h' := ⟨h.1.trans h'.1, fun hm hr => h'.2 (h.1.coherent hm) (h.2 hm hr)⟩
  after h h' hm hr := h' (h.1.coherent hm) (h.2 hm hr)
  logged m action location snapshot :=
    ⟨.logged m action location snapshot, fun _ _ => .logged m action location snapshot⟩
  printed m line :=
    ⟨(transition_advances ctx ev).printed m line, fun _ h => h.congr (.refl _) rfl⟩
  set m isGlobal name v := by
    have h := (transition_advances ctx ev).set m isGlobal name v
    exact ⟨h, fun _ hr => hr.congr h.stack rfl⟩
  erased m isGlobal name := by
    have h := (transition_advances ctx ev).erased m isGlobal name
    exact ⟨h, fun _ hr => hr.congr h.stack rfl⟩
  called h h' := ⟨.called h.1 h'.1, fun hm _ => recent_closed h.1 h'.1 hm⟩
  notOpened h hm hr := h (hm.congr (.refl _) rfl (Nat.le_succ _)) (hr.congr (.refl _) rfl)
  notClosed h h' hm _ := h' (Advances.coherent_opened h.1 hm) (recent_opened h.1 hm)
  raised _ _ _ hr := hr
  outOfFuel _ _ hr := hr
  notLogged _ _ _ hr := hr
  notPrinted _ _ _ _ hr := hr

end Machine

/-- How the last step of a run that a fault ended fits the innermost frame. -/
theorem recent_run {ctx : Context} {fuel : Nat} {f : Fault}
    (h : (run ctx fuel).ending = .failed f) : (run ctx fuel).machine.Recent :=
  within_run (fun n => Machine.transition_recent ctx (eval ctx n)) (closed_any _) h
    (coherent_start ctx) (.own rfl)

/-! ## Tracebacks -/

/-- The number that a fault is reported with is that of the last step of the run.  The traceback
    shows the same number for its innermost frame if and only if it shows the last step of the
    run there.  Otherwise that frame has made no step yet, and the last step is the call that
    opened it, which is shown for the frame before it; or the frame shows an earlier call,
    and all steps after it were logged for frames that are no longer there. -/
theorem lastStep_cases {ctx : Context} {fuel : Nat} {f : Fault} {m : Machine}
    (h : run ctx fuel = ⟨.failed f, m⟩) :
    ∃ t innermost, Traceback.ofOutcome? (run ctx fuel) = some t ∧
      t.frames.getLast? = some innermost ∧
      t.lastStep = m.log.back?.map Step.index ∧
      (t.lastStep = innermost.step.map Step.index ↔ innermost.step = m.log.back?) ∧
      (innermost.step = m.log.back? ∨
        (∃ lower s, innermost.step = none ∧ t.frames.dropLast.getLast? = some lower ∧
          lower.step = some s ∧ m.log.back? = some s ∧ s.action = .call innermost.name ∧
          innermost.location = some s.location) ∨
        (∃ s u name, innermost.step = some s ∧ s.action = .call name ∧ m.log.back? = some u ∧
          s.index < u.index ∧
          ∀ v ∈ m.log, s.index < v.index → ∀ frame ∈ m.stack.frames, v.frame ≠ frame.id)) := by
  have hm : m.Coherent := by
    have hrun := coherent_run (congrArg Outcome.ending h)
    rwa [h] at hrun
  have hrecent : m.Recent := by
    have hrun := recent_run (congrArg Outcome.ending h)
    rwa [h] at hrun
  -- the innermost frame is the last one
  have hframes : m.stack.frames.map (Traceback.frameOf m) =
      (m.stack.globals :: m.stack.below.reverse).map (Traceback.frameOf m) ++
        [Traceback.frameOf m m.stack.top] := by
    rw [CallStack.frames_eq, ← List.cons_append, List.map_append, List.map_singleton]
  rw [h]
  refine ⟨_, Traceback.frameOf m m.stack.top, rfl, ?_, rfl, hm.index_eq_iff, ?_⟩
  · show (m.stack.frames.map (Traceback.frameOf m)).getLast? = _
    rw [hframes, List.getLast?_concat]
  cases hrecent with
  | own heq => exact Or.inl heq
  | @opened lower lowers s hbelow hnone hback hlower hcall hplace =>
    refine Or.inr (Or.inl ⟨Traceback.frameOf m lower, s, hnone, ?_, hlower, hback, hcall, ?_⟩)
    · show (m.stack.frames.map (Traceback.frameOf m)).dropLast.getLast? = _
      rw [hframes, List.dropLast_concat, hbelow, List.reverse_cons, ← List.cons_append,
        List.map_append, List.map_singleton, List.getLast?_concat]
    · show ((m.lastStepOf? m.stack.top.id).map Step.location).or m.stack.top.calledAt = _
      rw [hnone, hplace]
      rfl
  | @returned s u name hs hcall hback hlt hnew =>
    refine Or.inr (Or.inr ⟨s, u, name, hs, hcall, hback, hlt, fun v hv hlater frame hframe => ?_⟩)
    exact Nat.ne_of_gt (Nat.lt_of_le_of_lt (hm.le_top_of_frames hframe) (hnew v hv hlater))

/-- A function that reads a variable that has no value, before it makes a step. -/
def unsteppedContext : Context :=
  let reader := .ofDefinition ⟨default, false, "F", [], [.var default false "x" none]⟩
  let main := .ofDefinition ⟨default, false, "P", [], [.call default false "F" []]⟩
  ⟨⟨main, [("P", main), ("F", reader)]⟩, false⟩

/-- The state that the program fails in. -/
def unsteppedEnd : Machine where
  output := #[]
  log := #[⟨0, 1, default, .call "F", none⟩]
  stack := unsteppedContext.start.stack.push ⟨"F", .empty, 2, some default⟩
  frameCount := 3

/-- The step that the fault is reported with is shown for the caller. -/
theorem lastStep_cases_unstepped :
    run unsteppedContext 5 = ⟨.failed ⟨.undefinedVariable "x", some default⟩, unsteppedEnd⟩ ∧
    ∃ t innermost lower, Traceback.ofOutcome? (run unsteppedContext 5) = some t ∧
      t.lastStep = some 0 ∧ t.frames.getLast? = some innermost ∧ innermost.step = none ∧
      t.frames.dropLast.getLast? = some lower ∧ lower.step.map Step.index = some 0 := by
  have hrun : run unsteppedContext 5 =
    ⟨.failed ⟨.undefinedVariable "x", some default⟩, unsteppedEnd⟩ := by rfl
  obtain ⟨t, innermost, ht, hlast, hnumber, _, hcases⟩ := lastStep_cases hrun
  obtain rfl : t = ⟨unsteppedEnd.stack.frames.map (Traceback.frameOf unsteppedEnd),
      ⟨.undefinedVariable "x", some default⟩, some 0⟩ := by
    rw [hrun] at ht
    exact (Option.some.inj ht).symm
  cases hlast
  rcases hcases with heq | ⟨lower, s, hnone, hlower, hstep, hback, _⟩ | ⟨s, _, _, hs, _⟩
  · cases heq
  · cases hback
    exact ⟨hrun, _, _, lower, ht, rfl, rfl, hnone, hlower, by rw [hstep]; rfl⟩
  · cases hs

/-- A function that sets a variable. -/
def assigner : Definition Node :=
  let assign (column : Nat) : Location := ⟨"", 3, column, "X <- 1"⟩
  ⟨⟨"", 2, 1, "BEGIN F"⟩, false, "F", [],
    [.assign (assign 1) false "X" (some (.vector (assign 6) [.int (assign 6) 1]))]⟩

/-- A program that adds a text to the value of that function. -/
def misadder : Program :=
  let start : Location := ⟨"", 1, 1, "BEGIN P"⟩
  let sum (column : Nat) : Location := ⟨"", 5, column, "F() + \"A\""⟩
  ⟨start, "P", ⟨start, false, "P", [],
    [.function assigner,
      .output (sum 1) (.binary (sum 5) .add (.vector (sum 1) [.call (sum 1) false "F" []])
        (.vector (sum 7) [.string (sum 7) "A"]))]⟩⟩

/-- The scopes of that program. -/
def misadderTable : ScopeTable where
  global := ⟨[], misadder.block, ["P"], []⟩
  functions := [("P", ⟨[], misadder.block, ["P", "F"], []⟩), ("F", ⟨[], assigner, ["F"], ["X"]⟩)]

/-- The number that a fault is reported with need not be the one that the traceback shows for
    the innermost frame, nor any other one that it shows: here it is that of a step of a function
    that has returned. -/
theorem lastStep_ne_of_returned :
    parse "BEGIN P\nBEGIN F\nX <- 1\nEND\nF() + \"A\"\nEND" "" = .ok misadder ∧
    analyze misadder = .ok misadderTable ∧
    ∃ t innermost, Traceback.ofOutcome? (run ⟨misadderTable, false⟩ 10) = some t ∧
      t.lastStep = some 2 ∧ t.frames.getLast? = some innermost ∧
      innermost.step.map Step.index = some 1 := by
  have hparse : parse "BEGIN P\nBEGIN F\nX <- 1\nEND\nF() + \"A\"\nEND" "" = .ok misadder := by cbv
  have hanalyze : analyze misadder = .ok misadderTable := by rfl
  exact ⟨hparse, hanalyze, _, _, rfl, rfl, rfl, rfl⟩

end VectorLang
