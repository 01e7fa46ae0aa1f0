import Mathlib.Data.List.Chain
import VectorLang.Proofs.Machine.Frames
import VectorLang.Proofs.Machine.Reach
import VectorLang.Proofs.Text.Numeral

/-!
# The log and the call stack

Wherever a run stops, the log tells how the open calls came about: the last step of a frame
that is not the innermost one is the call of the next frame.

Frames are numbered before the arguments of their calls are evaluated, so that between the
two other frames may come and go.  No step is logged for a frame before it is on the stack.

* `coherent_run`         the log of a run that a fault ended fits the stack
* `eq_of_makes`          no two frames of a run have one number
* `traceback_coherent`   what that means for the last steps that a traceback shows
-/

namespace VectorLang

open Exec

/-! ## The last step of a frame -/

namespace Machine

variable {m m' : Machine} {frame : Nat} {s : Step}

theorem lastStepOf?_congr (h : m'.log = m.log) (frame : Nat) :
    m'.lastStepOf? frame = m.lastStepOf? frame := by
  rw [lastStepOf?, lastStepOf?, h]

/-- The step that is logged last is the last one of its frame. -/
theorem lastStepOf?_logged (m : Machine) (action : Action) (location : Location)
    (snapshot : Option (List (String × String))) (frame : Nat) :
    (m.logged action location snapshot).lastStepOf? frame =
      if m.stack.top.id = frame then
        some ⟨m.log.size, m.stack.top.id, location, action, snapshot⟩
      else m.lastStepOf? frame := by
  rw [lastStepOf?, logged, Array.toList_push, List.reverse_append]
  by_cases h : m.stack.top.id = frame
  · simp [h]
  · simp [h, lastStepOf?]

theorem lastStepOf?_eq_none : m.lastStepOf? frame = none ↔ ∀ s ∈ m.log, s.frame ≠ frame := by
  simp [lastStepOf?, Array.mem_toList_iff]

/-- The last step of a frame is in the log, and no step of the frame comes after it. -/
theorem lastStepOf?_eq_some (h : m.lastStepOf? frame = some s) :
    ∃ k : Nat, m.log[k]? = some s ∧ s.frame = frame ∧
      ∀ (j : Nat) (t : Step), k < j → m.log[j]? = some t → t.frame ≠ frame := by
  obtain ⟨hframe, later, earlier, hsplit, hlater⟩ := List.find?_eq_some_iff_append.mp h
  have hlog : m.log.toList = earlier.reverse ++ s :: later.reverse := by
    rw [← List.reverse_reverse m.log.toList, hsplit]
    simp
  refine ⟨earlier.reverse.length, ?_, by simpa using hframe, fun j t hj ht => ?_⟩
  · rw [← Array.getElem?_toList, hlog]
    simp
  · rw [← Array.getElem?_toList, hlog, List.getElem?_append_right (Nat.le_of_lt hj)] at ht
    obtain ⟨i, hi⟩ : ∃ i, j - earlier.reverse.length = i + 1 :=
      ⟨j - earlier.reverse.length - 1, by omega⟩
    rw [hi, List.getElem?_cons_succ] at ht
    simpa using hlater t (List.mem_reverse.mp (List.mem_of_getElem? ht))

end Machine

/-! ## Coherent states -/

/-- A frame without its variables. -/
def Frame.bare (f : Frame) : Frame := { f with vars := .empty }

/-- The frames of the open calls without their variables, the innermost first. -/
def CallStack.calls (s : CallStack) : List Frame :=
  (s.top :: s.below).map Frame.bare

/-- Whether the last step of one frame is the call that opened another one. -/
def Machine.Opened (m : Machine) (upper lower : Frame) : Prop :=
  ∃ s, m.lastStepOf? lower.id = some s ∧ s.action = .call upper.name ∧
    upper.calledAt = some s.location

/-- Whether the last step of one frame comes after that of another one, if both have one. -/
def Machine.StepsAfter (m : Machine) (upper lower : Frame) : Prop :=
  ∀ s t, m.lastStepOf? lower.id = some s → m.lastStepOf? upper.id = some t → s.index < t.index

/-- Whether the log of a state fits its stack. -/
structure Machine.Coherent (m : Machine) : Prop where
  /-- The frame of the globals has the least number. -/
  globals : ∀ f ∈ m.stack.calls, m.stack.globals.id < f.id
  /-- Frames that are further in have greater numbers. -/
  inner : m.stack.calls.Pairwise fun upper lower => lower.id < upper.id
  /-- The numbers of all frames are used up. -/
  used : ∀ f ∈ m.stack.calls, f.id < m.frameCount
  /-- No step is one of the globals or of a frame whose number is free. -/
  steps : ∀ s ∈ m.log, m.stack.globals.id < s.frame ∧ s.frame < m.frameCount
  /-- Every step has the number of its place in the log. -/
  placed : ∀ (k : Nat) (s : Step), m.log[k]? = some s → s.index = k
  opened : m.stack.calls.IsChain m.Opened
  ordered : m.stack.calls.Pairwise m.StepsAfter

namespace Machine.Coherent

variable {m m' : Machine}

/-- Nothing but the calls, the log and the number of frames matters. -/
theorem congr (h : m.Coherent) (hstack : m.stack.SameCalls m'.stack) (hlog : m'.log = m.log)
    (hcount : m.frameCount ≤ m'.frameCount) : m'.Coherent := by
  have htop : m'.stack.top.bare = m.stack.top.bare := by
    simp only [Frame.bare, hstack.top.name, hstack.top.id, hstack.top.calledAt]
  have hcalls : m'.stack.calls = m.stack.calls := by
    simp only [CallStack.calls, List.map_cons, htop, hstack.below]
  have hlast := lastStepOf?_congr hlog
  constructor
  · rw [hcalls, hstack.globals.id]
    exact h.globals
  · rw [hcalls]
    exact h.inner
  · intro f hf
    rw [hcalls] at hf
    exact Nat.lt_of_lt_of_le (h.used f hf) hcount
  · rw [hlog, hstack.globals.id]
    intro s hs
    exact ⟨(h.steps s hs).1, Nat.lt_of_lt_of_le (h.steps s hs).2 hcount⟩
  · rw [hlog]
    exact h.placed
  · rw [hcalls]
    unfold Machine.Opened
    simp only [hlast]
    exact h.opened
  · rw [hcalls]
    unfold Machine.StepsAfter
    simp only [hlast]
    exact h.ordered

/-- The innermost call has the greatest number. -/
theorem le_top (h : m.Coherent) {f : Frame} (hf : f ∈ m.stack.calls) :
    f.id ≤ m.stack.top.id := by
  have hinner := h.inner
  rw [CallStack.calls, List.map_cons, List.pairwise_cons] at hinner
  rw [CallStack.calls, List.map_cons] at hf
  rcases List.mem_cons.mp hf with rfl | hf
  · exact Nat.le_refl _
  · exact Nat.le_of_lt (hinner.1 f hf)

private theorem top_mem (m : Machine) : m.stack.top.bare ∈ m.stack.calls := by
  simp [CallStack.calls]

theorem globals_lt_top (h : m.Coherent) : m.stack.globals.id < m.stack.top.id :=
  h.globals m.stack.top.bare (top_mem m)

theorem top_lt (h : m.Coherent) : m.stack.top.id < m.frameCount :=
  h.used m.stack.top.bare (top_mem m)

theorem logged (h : m.Coherent) (action : Action) (location : Location)
    (snapshot : Option (List (String × String))) :
    (m.logged action location snapshot).Coherent := by
  have hlast : ∀ {upper lower : Frame}, upper ∈ m.stack.calls → lower.id < upper.id →
      (m.logged action location snapshot).lastStepOf? lower.id = m.lastStepOf? lower.id := by
    intro upper lower hupper hlt
    have hle := h.le_top hupper
    rw [lastStepOf?_logged, if_neg (by omega)]
  constructor
  · exact h.globals
  · exact h.inner
  · exact h.used
  · intro s hs
    rcases Array.mem_push.mp hs with hs | rfl
    · exact h.steps s hs
    · exact ⟨h.globals_lt_top, h.top_lt⟩
  · intro k s hs
    rw [Machine.logged, Array.getElem?_push] at hs
    split at hs
    · rename_i hk
      cases hs
      exact hk.symm
    · exact h.placed k s hs
  · show m.stack.calls.IsChain (m.logged action location snapshot).Opened
    rw [List.isChain_iff_getElem]
    intro i hi
    obtain ⟨s, hs, hcall⟩ := List.isChain_iff_getElem.mp h.opened i hi
    have hlt := List.pairwise_iff_getElem.mp h.inner i (i + 1) (by omega) hi (by omega)
    exact ⟨s, (hlast (List.getElem_mem _) hlt).trans hs, hcall⟩
  · refine (h.inner.and h.ordered).imp_of_mem ?_
    rintro upper lower hupper _ ⟨hlt, hafter⟩ s t hs ht
    rw [hlast hupper hlt] at hs
    rw [lastStepOf?_logged] at ht
    split at ht
    · -- the step that was logged comes after all others
      cases ht
      obtain ⟨k, hk, _⟩ := lastStepOf?_eq_some hs
      rw [h.placed k s hk]
      exact (Array.getElem?_eq_some_iff.mp hk).1
    · exact hafter s t hs ht

/-- A frame is put on the stack after its call was logged. -/
theorem pushed (h : m.Coherent) {f : Frame} (hopened : m.Opened f m.stack.top)
    (htop : m.stack.top.id < f.id) (hused : f.id < m.frameCount)
    (hsteps : ∀ s ∈ m.log, s.frame ≠ f.id) :
    Machine.Coherent { m with stack := m.stack.push f } := by
  have hcalls : (m.stack.push f).calls = f.bare :: m.stack.calls := rfl
  constructor
  · show ∀ g ∈ (m.stack.push f).calls, m.stack.globals.id < g.id
    rw [hcalls, List.forall_mem_cons]
    exact ⟨Nat.lt_trans h.globals_lt_top htop, h.globals⟩
  · show (m.stack.push f).calls.Pairwise _
    rw [hcalls, List.pairwise_cons]
    exact ⟨fun g hg => Nat.lt_of_le_of_lt (h.le_top hg) htop, h.inner⟩
  · show ∀ g ∈ (m.stack.push f).calls, g.id < m.frameCount
    rw [hcalls, List.forall_mem_cons]
    exact ⟨hused, h.used⟩
  · exact h.steps
  · exact h.placed
  · show (m.stack.push f).calls.IsChain m.Opened
    exact List.isChain_cons_cons.mpr ⟨hopened, h.opened⟩
  · show (m.stack.push f).calls.Pairwise m.StepsAfter
    rw [hcalls, List.pairwise_cons]
    refine ⟨fun g _ s t _ ht => ?_, h.ordered⟩
    -- the frame has not made a step yet
    rw [show f.bare.id = f.id from rfl, lastStepOf?_eq_none.mpr hsteps] at ht
    cases ht

theorem closed (h : m.Coherent) : m.closed.Coherent := by
  cases hbelow : m.stack.below with
  | nil =>
    have hpop : m.stack.pop = m.stack := by simp [CallStack.pop, hbelow]
    rw [Machine.closed, hpop]
    exact h
  | cons f fs =>
    have hpop : m.stack.pop = { m.stack with top := f, below := fs } := by
      simp [CallStack.pop, hbelow]
    have hcalls : m.closed.stack.calls = m.stack.calls.tail := by
      rw [Machine.closed, hpop, CallStack.calls, CallStack.calls, hbelow]
      rfl
    have hglobals : m.closed.stack.globals = m.stack.globals := by rw [Machine.closed, hpop]
    constructor
    · intro g hg
      rw [hcalls] at hg
      rw [hglobals]
      exact h.globals g (List.mem_of_mem_tail hg)
    · rw [hcalls]
      exact h.inner.tail
    · intro g hg
      rw [hcalls] at hg
      exact h.used g (List.mem_of_mem_tail hg)
    · rw [hglobals]
      exact h.steps
    · exact h.placed
    · rw [hcalls]
      exact h.opened.tail
    · rw [hcalls]
      exact h.ordered.tail

end Machine.Coherent

/-! ## Runs -/

/-- Whether a state may be left behind by an evaluation that starts in another one, in so far
    as the log has to fit the stack: new steps are those of the innermost call, or of frames
    that got their numbers in between. -/
structure Machine.Advances (m m' : Machine) : Prop extends m.Follows m' where
  count : m.frameCount ≤ m'.frameCount
  steps : ∀ s ∈ m'.log, s ∈ m.log ∨ s.frame = m.stack.top.id ∨ m.frameCount ≤ s.frame
  coherent : m.Coherent → m'.Coherent

namespace Machine.Advances

variable {m m₁ m₂ m₃ : Machine}

/-- A step that leaves the log alone. -/
theorem of_follows (h : m₁.Follows m₂) (hlog : m₂.log = m₁.log)
    (hcount : m₁.frameCount ≤ m₂.frameCount) : m₁.Advances m₂ where
  toFollows := h
  count := hcount
  steps _ hs := Or.inl (hlog ▸ hs)
  coherent hm := hm.congr h.stack hlog hcount

theorem trans (h : m₁.Advances m₂) (h' : m₂.Advances m₃) : m₁.Advances m₃ where
  toFollows := h.toFollows.trans h'.toFollows
  count := Nat.le_trans h.count h'.count
  steps s hs := by
    rcases h'.steps s hs with hs | hs | hs
    · exact h.steps s hs
    · exact Or.inr (Or.inl (hs.trans h.stack.top.id))
    · exact Or.inr (Or.inr (Nat.le_trans h.count hs))
  coherent hm := h'.coherent (h.coherent hm)

theorem logged (m : Machine) (action : Action) (location : Location)
    (snapshot : Option (List (String × String))) :
    m.Advances (m.logged action location snapshot) where
  toFollows := .logged m action location snapshot
  count := Nat.le_refl _
  steps s hs := by
    rcases Array.mem_push.mp hs with hs | rfl
    · exact Or.inl hs
    · exact Or.inr (Or.inl rfl)
  coherent hm := hm.logged action location snapshot

section Opened

variable {name : String} {vars : Bindings} {location : Location}
  {snapshot : Option (List (String × String))}

/-- The frame that a call is opened on has a smaller number. -/
theorem top_lt_of_numbered (h : m.numbered.Advances m₁) (hm : m.Coherent) :
    m₁.stack.top.id < m.frameCount := by
  have htop : m₁.stack.top.id = m.stack.top.id := h.stack.top.id
  rw [htop]
  exact hm.top_lt

/-- Up to the step of its call, no step was logged for the number of a frame. -/
theorem frame_ne_of_logged (h : m.numbered.Advances m₁) (hm : m.Coherent) :
    ∀ s ∈ (m₁.logged (.call name) location snapshot).log, s.frame ≠ m.frameCount := by
  intro s hs heq
  rcases Array.mem_push.mp hs with hs | rfl
  · rcases h.steps s hs with hold | hown | hnew
    · exact Nat.lt_irrefl _ (heq ▸ (hm.steps s hold).2)
    · exact Nat.lt_irrefl _ (heq ▸ hown ▸ hm.top_lt)
    · have : m.frameCount + 1 ≤ s.frame := hnew
      omega
  · exact Nat.ne_of_lt (top_lt_of_numbered h hm) heq

/-- A call is opened after its arguments, with the number that its frame got before them. -/
theorem coherent_opened (h : m.numbered.Advances m₁) (hm : m.Coherent) :
    (m₁.opened ⟨name, vars, m.frameCount, some location⟩ location snapshot).Coherent := by
  have hm₁ : m₁.Coherent := h.coherent (hm.congr (.refl _) rfl (Nat.le_succ _))
  have hlt := top_lt_of_numbered h hm
  apply (hm₁.logged (.call name) location snapshot).pushed
  · exact ⟨_, (lastStepOf?_logged ..).trans (if_pos rfl), rfl, rfl⟩
  · exact hlt
  · exact h.count
  · exact frame_ne_of_logged h hm

end Opened

theorem called {name : String} {vars : Bindings} {location : Location}
    {snapshot : Option (List (String × String))} (h : m.numbered.Advances m₁)
    (h' : (m₁.opened ⟨name, vars, m.frameCount, some location⟩ location snapshot).Advances m₂) :
    m.Advances m₂.closed where
  toFollows := .closed h.toFollows h'.toFollows
  count := Nat.le_trans (Nat.le_of_succ_le h.count) h'.count
  steps s hs := by
    rcases h'.steps s hs with hs | hs | hs
    · have hs := (h.trans (logged m₁ (.call name) location snapshot)).steps s hs
      rcases hs with hs | hs | hs
      · exact Or.inl hs
      · exact Or.inr (Or.inl hs)
      · exact Or.inr (Or.inr (Nat.le_of_succ_le hs))
    · exact Or.inr (Or.inr (Nat.le_of_eq hs.symm))
    · exact Or.inr (Or.inr (Nat.le_trans (Nat.le_of_succ_le h.count) hs))
  coherent hm := (h'.coherent (coherent_opened h hm)).closed

end Machine.Advances

/-- Every basic step keeps a state coherent, and leaves one if it stops. -/
theorem Machine.transition_advances (ctx : Context) (ev : Evaluator) :
    Transition ctx ev Node.Any Machine.Advances fun m _ m' => m.Coherent → m'.Coherent where
  refl m := .of_follows (.refl m) rfl (Nat.le_refl _)
  trans := .trans
  logged := .logged
  printed m line := .of_follows ((transition_follows ctx ev).printed m line) rfl (Nat.le_refl _)
  set m isGlobal name v :=
    .of_follows ((transition_follows ctx ev).set m isGlobal name v) rfl (Nat.le_refl _)
  erased m isGlobal name :=
    .of_follows ((transition_follows ctx ev).erased m isGlobal name) rfl (Nat.le_refl _)
  called h h' := .called h h'
  after h hm₂ hm := hm₂ (h.coherent hm)
  notOpened h hm := h (hm.congr (.refl _) rfl (Nat.le_succ _))
  notClosed h hm₁ hm := hm₁ (Advances.coherent_opened h hm)
  raised _ _ hm := hm
  outOfFuel _ hm := hm
  notLogged _ _ hm := hm
  notPrinted _ _ _ hm := hm

theorem coherent_start (ctx : Context) : ctx.start.Coherent where
  globals f hf := by
    obtain rfl := List.mem_singleton.mp hf
    exact Nat.lt_succ_self 0
  inner := List.pairwise_singleton _ _
  used f hf := by
    obtain rfl := List.mem_singleton.mp hf
    exact Nat.lt_succ_self 1
  steps s hs := absurd hs (Array.not_mem_empty s)
  placed _ _ hs := by cases hs
  opened := .singleton _
  ordered := List.pairwise_singleton _ _

/-- The log of a run that a fault ended fits the stack. -/
theorem coherent_run {ctx : Context} {fuel : Nat} {f : Fault}
    (h : (run ctx fuel).ending = .failed f) : (run ctx fuel).machine.Coherent :=
  within_run (fun n => Machine.transition_advances ctx (eval ctx n)) (closed_any _) h
    (coherent_start ctx)

/-- The log of a state that a run comes to fits the stack. -/
theorem coherent_of_reaches {ctx : Context} {fuel : Nat} {node : Node} {m : Machine}
    (h : ctx.Reaches fuel node m) : m.Coherent :=
  within_reaches (fun ev => Machine.transition_advances ctx ev) (closed_any _) .outOfFuel
    (fun _ hm => hm) h (coherent_start ctx)

/-! ## Frames of a run -/

/-- What a frame is made for. -/
inductive FrameOrigin where
  /-- The global variables. -/
  | globals
  /-- The program itself. -/
  | program
  /-- A call that is evaluated in a state. -/
  | call (node : Node) (m : Machine)

/-- The frames that a run makes, with their numbers. -/
inductive Context.Makes (ctx : Context) (fuel : Nat) : FrameOrigin → Nat → Prop where
  | globals : Makes ctx fuel .globals ctx.start.stack.globals.id
  | program : Makes ctx fuel .program ctx.start.stack.top.id
  | call {node : Node} {m m' : Machine} {id : Nat} : ctx.Reaches fuel node m → Opens ctx node m →
      newFrameId m = .ok id m' → Makes ctx fuel (.call node m) id

/-- The frames that a run starts with have used up their numbers. -/
theorem two_le_of_reaches {ctx : Context} {fuel : Nat} {node : Node} {m : Machine}
    (h : ctx.Reaches fuel node m) : 2 ≤ m.frameCount :=
  within_reaches (fun ev => transition_frameCount ctx ev) (closed_any _) .outOfFuel
    (fun _ => Nat.le_refl _) h

/-- No two frames of a run have one number. -/
theorem eq_of_makes {ctx : Context} {fuel : Nat} {o o' : FrameOrigin} {id : Nat}
    (h : ctx.Makes fuel o id) (h' : ctx.Makes fuel o' id) : o = o' := by
  -- the number of a call is at least 2
  have hcall {node : Node} {m m' : Machine} (hreach : ctx.Reaches fuel node m)
      (hid : newFrameId m = .ok id m') : 2 ≤ id := by
    cases hid
    exact two_le_of_reaches hreach
  cases h with
  | globals =>
    cases h' with
    | globals => rfl
    | call hreach _ hid => exact absurd (hcall hreach hid) (Nat.not_succ_le_zero 1)
  | program =>
    cases h' with
    | program => rfl
    | call hreach _ hid => exact absurd (hcall hreach hid) (Nat.not_succ_le_self 1)
  | call hreach hopens hid =>
    cases h' with
    | globals => exact absurd (hcall hreach hid) (Nat.not_succ_le_zero 1)
    | program => exact absurd (hcall hreach hid) (Nat.not_succ_le_self 1)
    | call hreach' hopens' hid' =>
      cases hid
      have hcount := (EStateM.Result.ok.inj hid').1
      cases eq_of_reaches (p := (_, _)) (q := (_, _)) hreach hreach' hopens hopens' hcount.symm
      rfl

/-- The names of frames tell them apart as their numbers do. -/
theorem Frame.idText_inj {id id' : Nat} (h : Frame.idText id = Frame.idText id') : id = id' := by
  have hchars := congrArg String.toList h
  simp only [idText, String.toList_append, String.toList_ofList] at hchars
  exact Numeral.padded_repr_inj (List.append_cancel_left hchars)

/-! ## Tracebacks -/

section

variable {m : Machine} {i j : Nat} {lower upper : Frame}

/-- Above the globals lie the open calls, the innermost last. -/
private theorem getElem?_calls {f : Frame} (hf : m.stack.frames[i + 1]? = some f) :
    m.stack.calls.reverse[i]? = some f.bare := by
  rw [CallStack.frames, List.getElem?_cons_succ] at hf
  rw [CallStack.calls, ← List.map_reverse, List.getElem?_map, hf]
  rfl

/-- The last step of a frame is the call of the next one. -/
theorem Machine.Coherent.opened_next (h : m.Coherent)
    (hlower : m.stack.frames[i + 1]? = some lower) (hupper : m.stack.frames[i + 2]? = some upper) :
    m.Opened upper lower := by
  obtain ⟨hi, hli⟩ := List.getElem?_eq_some_iff.mp (getElem?_calls hlower)
  obtain ⟨hj, hlj⟩ := List.getElem?_eq_some_iff.mp (getElem?_calls hupper)
  have hopened := List.isChain_iff_getElem.mp (List.isChain_reverse.mpr h.opened) i hj
  rw [hli, hlj] at hopened
  exact hopened

/-- The last step of a frame comes after those of the frames below it. -/
theorem Machine.Coherent.stepsAfter (h : m.Coherent) (hij : i < j)
    (hlower : m.stack.frames[i + 1]? = some lower) (hupper : m.stack.frames[j + 1]? = some upper) :
    m.StepsAfter upper lower := by
  obtain ⟨hi, hli⟩ := List.getElem?_eq_some_iff.mp (getElem?_calls hlower)
  obtain ⟨hj, hlj⟩ := List.getElem?_eq_some_iff.mp (getElem?_calls hupper)
  have hafter := List.pairwise_iff_getElem.mp (List.pairwise_reverse.mpr h.ordered) i j hi hj hij
  rw [hli, hlj] at hafter
  exact hafter

/-- The last step of a frame has the greatest number. -/
theorem Machine.Coherent.greatest (h : m.Coherent) {id : Nat} {s : Step}
    (hs : m.lastStepOf? id = some s) :
    s ∈ m.log ∧ s.frame = id ∧ ∀ t ∈ m.log, t.frame = id → t.index ≤ s.index := by
  obtain ⟨k, hk, hframe, hlater⟩ := Machine.lastStepOf?_eq_some hs
  refine ⟨Array.mem_of_getElem? hk, hframe, fun t ht htframe => ?_⟩
  obtain ⟨j, hj⟩ := Array.mem_iff_getElem?.mp ht
  rw [h.placed k s hk, h.placed j t hj]
  exact Nat.le_of_not_lt fun hlt => hlater j t hlt hj htframe

end

/-- In a run that a fault ended, the globals have made no step, the last step of every frame
    between them and the innermost call is the call of the next frame, at the place where that
    frame says it was called, and the last steps come one after the other.  All frames of
    the run have different names, because a number that a frame got is not given away again.
    A step has the number of its place in the log, and the last step of a frame is the one
    with the greatest number. -/
theorem traceback_coherent {ctx : Context} {fuel : Nat} {f : Fault} {m : Machine}
    (h : run ctx fuel = ⟨.failed f, m⟩) :
    (∀ g, m.stack.frames[0]? = some g → m.lastStepOf? g.id = none) ∧
    (∀ (i : Nat) (lower upper : Frame), i ≠ 0 → m.stack.frames[i]? = some lower →
      m.stack.frames[i + 1]? = some upper →
      ∃ s, m.lastStepOf? lower.id = some s ∧ s.action = .call upper.name ∧
        upper.calledAt = some s.location) ∧
    (∀ (i j : Nat) (lower upper : Frame) (s t : Step), i < j →
      m.stack.frames[i]? = some lower → m.stack.frames[j]? = some upper →
      m.lastStepOf? lower.id = some s → m.lastStepOf? upper.id = some t → s.index < t.index) ∧
    (∀ (o o' : FrameOrigin) (id id' : Nat), ctx.Makes fuel o id → ctx.Makes fuel o' id' →
      Frame.idText id = Frame.idText id' → o = o') ∧
    (∀ (n : Nat) (node : Node) (m : Machine),
      m.frameCount ≤ (final (eval ctx n node m)).frameCount ∧
      (Opens ctx node m → n ≠ 0 → m.frameCount < (final (eval ctx n node m)).frameCount)) ∧
    (∀ (k : Nat) (s : Step), m.log[k]? = some s → s.index = k) ∧
    (∀ (id : Nat) (s : Step), m.lastStepOf? id = some s → s ∈ m.log ∧ s.frame = id ∧
      ∀ t ∈ m.log, t.frame = id → t.index ≤ s.index) := by
  have hm : m.Coherent := by
    have hrun := coherent_run (f := f) (congrArg Outcome.ending h)
    rwa [h] at hrun
  -- the globals come first
  have hglobals : ∀ g, m.stack.frames[0]? = some g → m.lastStepOf? g.id = none := by
    intro g hg
    obtain rfl := Option.some.inj hg
    rw [Machine.lastStepOf?_eq_none]
    intro s hs
    exact Nat.ne_of_gt (hm.steps s hs).1
  refine ⟨hglobals, ?_, ?_, ?_, count_eval ctx, hm.placed, fun _ _ hs => hm.greatest hs⟩
  · intro i lower upper hi hlower hupper
    obtain ⟨i, rfl⟩ := Nat.exists_eq_succ_of_ne_zero hi
    exact hm.opened_next hlower hupper
  · intro i j lower upper s t hij hlower hupper hs ht
    obtain ⟨j, rfl⟩ : ∃ j', j = j' + 1 := ⟨j - 1, by omega⟩
    cases i with
    | zero =>
      rw [hglobals lower hlower] at hs
      cases hs
    | succ i => exact hm.stepsAfter (Nat.lt_of_succ_lt_succ hij) hlower hupper s t hs ht
  · intro o o' id id' hmakes hmakes' htext
    obtain rfl := Frame.idText_inj htext
    exact eq_of_makes hmakes hmakes'

/-- A program that calls a function, which prints the value of another one, which fails. -/
def nestedContext : Context :=
  let printVariable := .output default (.var default false "x" none)
  let printCall := .output default (.call default false "G" [])
  let inner := .ofDefinition ⟨default, false, "G", [], [printVariable]⟩
  let outer := .ofDefinition ⟨default, false, "F", [], [printCall]⟩
  let main := .ofDefinition ⟨default, false, "P", [], [.call default false "F" []]⟩
  ⟨⟨main, [("P", main), ("F", outer), ("G", inner)]⟩, false⟩

/-- The state that the program fails in. -/
def nestedEnd : Machine where
  output := #[]
  log := #[⟨0, 1, default, .call "F", none⟩, ⟨1, 2, default, .node "OutputExpression", none⟩,
    ⟨2, 2, default, .call "G", none⟩, ⟨3, 3, default, .node "OutputExpression", none⟩]
  stack := (nestedContext.start.stack.push ⟨"F", .empty, 2, some default⟩).push
    ⟨"G", .empty, 3, some default⟩
  frameCount := 4

theorem traceback_coherent_nested :
    run nestedContext 5 = ⟨.failed ⟨.undefinedVariable "x", some default⟩, nestedEnd⟩ ∧
    ∃ s, nestedEnd.lastStepOf? 2 = some s ∧ s.action = .call "G" ∧
      some default = some s.location := by
  have hrun : run nestedContext 5 =
    ⟨.failed ⟨.undefinedVariable "x", some default⟩, nestedEnd⟩ := by rfl
  obtain ⟨_, hnext, _⟩ := traceback_coherent hrun
  exact ⟨hrun, hnext 2 ⟨"F", .empty, 2, some default⟩ ⟨"G", .empty, 3, some default⟩ (by decide)
    rfl rfl⟩

end VectorLang
