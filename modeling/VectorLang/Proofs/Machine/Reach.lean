import VectorLang.Proofs.Machine.Transition

/-!
# What a run comes to

A run comes to a node in a state if it evaluates the node there.  That is seen from outside:
where the evaluation of the node in that state is stopped, for whatever reason, the run stops
there for that reason (`Context.Reaches`).

* `mem_of_reaches`   a run comes to no nodes but those below its functions
* `within_reaches`   what every basic step preserves holds where a run comes to
* `count_eval`       the numbers of frames are used up for good
* `eq_of_reaches`    no two calls of a run give their frames the same number
-/

namespace VectorLang

open Exec

/-! ## Stopping at a place -/

open Classical in
/-- Evaluation that stops where a node is to be evaluated in a state. -/
noncomputable def evalStopped (ctx : Context) (place : Node × Machine) (stop : Stop) :
    Nat → Evaluator
  | 0 => fun _ => throw .outOfFuel
  | n + 1 => fun node m =>
    if (node, m) = place then .error stop m
    else evalStep ctx (evalStopped ctx place stop n) n node m

section

variable {ctx : Context} {place : Node × Machine} {stop : Stop} {n : Nat} {node : Node}
  {m : Machine}

theorem evalStopped_self : evalStopped ctx (node, m) stop (n + 1) node m = .error stop m := by
  simp [evalStopped]

theorem evalStopped_of_ne (h : (node, m) ≠ place) :
    evalStopped ctx place stop (n + 1) node m =
      evalStep ctx (evalStopped ctx place stop n) n node m := by
  simp [evalStopped, h]

/-- Whether evaluators, one for each amount of fuel, take the rules of all nodes, but that they
    may stop at a place. -/
structure StopsAt (ctx : Context) (place : Node × Machine) (stop : Stop) (ev : Nat → Evaluator) :
    Prop where
  zero (node : Node) : ev 0 node = throw .outOfFuel
  succ (n : Nat) (node : Node) (m : Machine) :
    ev (n + 1) node m = evalStep ctx (ev n) n node m ∨
      (node, m) = place ∧ ev (n + 1) node m = .error stop m

theorem stopsAt_eval : StopsAt ctx place stop (eval ctx) where
  zero _ := rfl
  succ _ _ _ := Or.inl rfl

theorem stopsAt_evalStopped : StopsAt ctx place stop (evalStopped ctx place stop) where
  zero _ := rfl
  succ n node m := by
    by_cases h : (node, m) = place
    · rw [← h]
      exact Or.inr ⟨rfl, evalStopped_self⟩
    · exact Or.inl (evalStopped_of_ne h)

/-- What stays within relations by the rule of a node does so if it may be stopped there. -/
theorem StopsAt.within {ev : Nat → Evaluator} {R : Machine → Machine → Prop}
    {F : Machine → Stop → Machine → Prop} (h : StopsAt ctx place stop ev)
    (hstep : Within R F (evalStep ctx (ev n) n node))
    (hstop : ∀ m, (node, m) = place → F m stop m) : Within R F (ev (n + 1) node) := by
  constructor
  · intro m m' v hm
    rcases h.succ n node m with heq | ⟨_, heq⟩
    · exact hstep.ok (heq ▸ hm)
    · rw [heq] at hm
      cases hm
  · intro m m' e hm
    rcases h.succ n node m with heq | ⟨hplace, heq⟩
    · exact hstep.error (heq ▸ hm)
    · rw [heq] at hm
      cases hm
      exact hstop m hplace

end

namespace Context

/-- The body of the program, evaluated from the start of a run. -/
def runWith (ctx : Context) (ev : Evaluator) : EStateM.Result Stop Machine (Option Value) :=
  evalBody ev ctx.scopes.global.definition ctx.start

/-- Whether a run evaluates a node in a state. -/
def Reaches (ctx : Context) (fuel : Nat) (node : Node) (m : Machine) : Prop :=
  ∀ stop, ctx.runWith (evalStopped ctx (node, m) stop fuel) = .error stop m

end Context

/-- The state that a computation ends or stops in. -/
def Exec.final {α : Type} : EStateM.Result Stop Machine α → Machine
  | .ok _ m => m
  | .error _ m => m

/-- How an evaluation of the body of a program ends its run. -/
def Outcome.ofResult : EStateM.Result Stop Machine (Option Value) → Outcome
  | .ok _ m => ⟨.finished, m⟩
  | .error (.fault f) m => ⟨.failed f, m⟩
  | .error .outOfFuel m => ⟨.outOfFuel, m⟩

theorem Outcome.machine_ofResult (r : EStateM.Result Stop Machine (Option Value)) :
    (ofResult r).machine = final r := by
  cases r with
  | ok _ _ => rfl
  | error stop _ => cases stop <;> rfl

theorem run_eq (ctx : Context) (fuel : Nat) :
    run ctx fuel = .ofResult (ctx.runWith (eval ctx fuel)) := rfl

/-! ## Nodes -/

/-- Equal computations are related, whatever the nodes are. -/
theorem congruence_eq (ctx : Context) (ev₁ ev₂ : Evaluator) (N : Node → Prop) :
    Congruence ctx ctx ev₁ ev₂ N fun _ x y => x = y where
  scopes := rfl
  pure _ := rfl
  bind hx hf := by
    rw [hx]
    exact bind_congr hf
  fail _ _ := rfl
  outOfFuel := rfl
  readVariable _ := rfl
  log _ _ := rfl
  output _ hvalue := by rw [evalOutput, evalOutput, hvalue]
  writeVariable _ _ := rfl
  checkDepth _ := rfl
  inFrame _ hargs hbody := by rw [hargs, hbody]

/-- Evaluation is not stopped at a node that it does not come to. -/
theorem evalStopped_eq {ctx : Context} {N : Node → Prop} (hN : Closed ctx.scopes N)
    {place : Node × Machine} (hplace : ¬ N place.1) (stop : Stop) (n : Nat) {node : Node}
    (hnode : N node) : evalStopped ctx place stop n node = eval ctx n node := by
  induction n generalizing node with
  | zero => rfl
  | succ n ih =>
    funext m
    have hne : (node, m) ≠ place := by
      rintro rfl
      exact hplace hnode
    rw [evalStopped_of_ne hne]
    have hstep := related_evalStep (congruence_eq ctx (evalStopped ctx place stop n) (eval ctx n) N)
      hN (fun _ hnode => ih hnode) n hnode
    exact congrFun hstep m

/-- A run comes to nodes of every set that holds the statements of all functions and the parts
    of its nodes. -/
theorem mem_of_reaches {ctx : Context} {N : Node → Prop} (hN : Closed ctx.scopes N) {fuel : Nat}
    {node : Node} {m : Machine} (h : ctx.Reaches fuel node m) : N node := by
  apply Classical.byContradiction
  intro hnode
  have hplace : ¬ N (node, m).1 := hnode
  have hrun : ∀ stop, ctx.runWith (evalStopped ctx (node, m) stop fuel) =
      ctx.runWith (eval ctx fuel) := by
    intro stop
    have hbody := related_evalBody (congruence_eq ctx _ (eval ctx fuel) N) hN
      (fun _ hnode' => evalStopped_eq hN hplace stop fuel hnode') ctx.scopes.get?_global
    exact congrFun hbody ctx.start
  -- one run cannot stop for two reasons
  have hstop := (h .outOfFuel).symm.trans ((hrun _).trans ((hrun _).symm.trans
    (h (.fault ⟨.predicateAsValue, none⟩))))
  cases hstop

/-- An evaluation stays within relations that the basic steps preserve, also if it is stopped
    at a place. -/
theorem within_evalStopped {ctx : Context} {N : Node → Prop} {R : Machine → Machine → Prop}
    {F : Machine → Stop → Machine → Prop} (h : ∀ ev, Transition ctx ev N R F)
    (hN : Closed ctx.scopes N) {place : Node × Machine} {stop : Stop} (hstop : ∀ m, F m stop m)
    (n : Nat) {node : Node} (hnode : N node) : Within R F (evalStopped ctx place stop n node) := by
  induction n generalizing node with
  | zero => exact within_throw (h fun _ => throw .outOfFuel).outOfFuel
  | succ n ih =>
    have hstep : Within R F (evalStep ctx (evalStopped ctx place stop n) n node) :=
      related_evalStep (h _).congruence hN (fun _ hnode => ih hnode) n hnode
    exact stopsAt_evalStopped.within hstep fun m _ => hstop m

/-- A state that a run comes to is one that `F` relates to the start. -/
theorem within_reaches {ctx : Context} {N : Node → Prop} {R : Machine → Machine → Prop}
    {F : Machine → Stop → Machine → Prop} (h : ∀ ev, Transition ctx ev N R F)
    (hN : Closed ctx.scopes N) (stop : Stop) (hstop : ∀ m, F m stop m) {fuel : Nat} {node : Node}
    {m : Machine} (hreach : ctx.Reaches fuel node m) : F ctx.start stop m := by
  have hbody : Within R F (evalBody (evalStopped ctx (node, m) stop fuel)
      ctx.scopes.global.definition) :=
    related_evalBody (h _).congruence hN
      (fun _ hnode => within_evalStopped h hN hstop fuel hnode) ctx.scopes.get?_global
  exact hbody.error (hreach stop)

/-! ## Numbers of frames -/

/-- Whether a node that is evaluated in a state is given a frame: it is a call of a function
    that has a scope, and not too many calls are open. -/
inductive Opens (ctx : Context) : Node → Machine → Prop where
  | call {location : Location} {isGlobal : Bool} {name : String} {args : List Node}
      {scope : Scope} {m : Machine} :
      m.stack.depth ≤ maxDepth → ctx.scopes.get? name = some scope →
      Opens ctx (.call location isGlobal name args) m

/-- Whether a computation takes back no number of a frame. -/
def Exec.Counts {α : Type} (x : Exec α) : Prop :=
  Within (fun m m' => m.frameCount ≤ m'.frameCount) (fun m _ m' => m.frameCount ≤ m'.frameCount) x

theorem Exec.Counts.le_final {α : Type} {x : Exec α} (h : Counts x) (m : Machine) :
    m.frameCount ≤ (final (x m)).frameCount := by
  cases hx : x m with
  | ok a m' => exact h.ok hx
  | error e m' => exact h.error hx

theorem composes_frameCount : Composes (fun m m' => m.frameCount ≤ m'.frameCount)
    (fun m _ m' => m.frameCount ≤ m'.frameCount) where
  refl _ := Nat.le_refl _
  trans h h' := Nat.le_trans h h'
  after h h' := Nat.le_trans h h'

theorem Exec.Counts.bind {α β : Type} {x : Exec α} {f : α → Exec β} (hx : Counts x)
    (hf : ∀ a, Counts (f a)) : Counts (x >>= f) :=
  composes_frameCount.within_bind hx hf

/-- No basic step takes back the number of a frame. -/
theorem transition_frameCount (ctx : Context) (ev : Evaluator) :
    Transition ctx ev Node.Any (fun m m' => m.frameCount ≤ m'.frameCount)
      (fun m _ m' => m.frameCount ≤ m'.frameCount) where
  toComposes := composes_frameCount
  logged _ _ _ _ := Nat.le_refl _
  printed _ _ := Nat.le_refl _
  set _ _ _ _ := Nat.le_refl _
  erased _ _ _ := Nat.le_refl _
  called h h' := Nat.le_trans (Nat.le_of_succ_le h) h'
  notOpened h := Nat.le_of_succ_le h
  notClosed h h' := Nat.le_trans (Nat.le_of_succ_le h) h'
  raised _ _ := Nat.le_refl _
  outOfFuel _ := Nat.le_refl _
  notLogged _ _ := Nat.le_refl _
  notPrinted _ _ _ := Nat.le_refl _

theorem counts_newFrameId : Counts newFrameId where
  ok h := by
    cases h
    exact Nat.le_succ _
  error h := by cases h

theorem counts_modifyStack (f : CallStack → CallStack) : Counts (modifyStack f) where
  ok h := by
    cases h
    exact Nat.le_refl _
  error h := by cases h

theorem counts_evalStopped (ctx : Context) (place : Node × Machine) (stop : Stop) (n : Nat)
    (node : Node) : Counts (evalStopped ctx place stop n node) :=
  within_evalStopped (fun _ => transition_frameCount ctx _) (closed_any _)
    (fun _ => Nat.le_refl _) n trivial

/-! ### Two places -/

/-- Whether two computations do the same, but that one of them may stop at its place while
    the other one goes on and gives the number `k` away. -/
structure Parts (p q : Node × Machine) (s t : Stop) (k : Nat) {α : Type} (x y : Exec α) :
    Prop where
  left : Counts x
  right : Counts y
  cases (m : Machine) : x m = y m ∨ (x m = .error s p.2 ∧ k < (final (y m)).frameCount) ∨
    (y m = .error t q.2 ∧ k < (final (x m)).frameCount)

namespace Parts

variable {p q : Node × Machine} {s t : Stop} {k : Nat} {α β : Type}

theorem refl {x : Exec α} (h : Counts x) : Parts p q s t k x x :=
  ⟨h, h, fun _ => Or.inl rfl⟩

theorem symm {x y : Exec α} (h : Parts p q s t k x y) : Parts q p t s k y x where
  left := h.right
  right := h.left
  cases m := by
    rcases h.cases m with h | h | h
    · exact Or.inl h.symm
    · exact Or.inr (Or.inr h)
    · exact Or.inr (Or.inl h)

/-- A number that was given away is not taken back by what follows. -/
private theorem lt_final_bind {x : Exec α} {f : α → Exec β} {m : Machine}
    (hf : ∀ a, Counts (f a)) (h : k < (final (x m)).frameCount) :
    k < (final ((x >>= f) m)).frameCount := by
  cases hx : x m with
  | ok a m' =>
    rw [hx] at h
    rw [bind_of_ok hx]
    exact Nat.lt_of_lt_of_le h ((hf a).le_final m')
  | error e m' =>
    rw [hx] at h
    rw [bind_of_error hx]
    exact h

theorem bind {x y : Exec α} {f g : α → Exec β} (hx : Parts p q s t k x y)
    (hf : ∀ a, Parts p q s t k (f a) (g a)) : Parts p q s t k (x >>= f) (y >>= g) where
  left := hx.left.bind fun a => (hf a).left
  right := hx.right.bind fun a => (hf a).right
  cases m := by
    rcases hx.cases m with h | ⟨h, hk⟩ | ⟨h, hk⟩
    · cases hy : y m with
      | ok a m' =>
        rw [bind_of_ok (h.trans hy), bind_of_ok hy]
        exact (hf a).cases m'
      | error e m' =>
        rw [bind_of_error (h.trans hy), bind_of_error hy]
        exact Or.inl rfl
    · exact Or.inr (Or.inl ⟨bind_of_error h, lt_final_bind (fun a => (hf a).right) hk⟩)
    · exact Or.inr (Or.inr ⟨bind_of_error h, lt_final_bind (fun a => (hf a).left) hk⟩)

/-- What the basic steps do does not depend on the place. -/
theorem congruence (ctx : Context) (ev₁ ev₂ : Evaluator) :
    Congruence ctx ctx ev₁ ev₂ Node.Any fun _ x y => Parts p q s t k x y := by
  have counts := (transition_frameCount ctx ev₁).congruence
  refine {
    scopes := rfl
    pure := fun a => refl (counts.pure a)
    bind := bind
    fail := fun hnode hraises => refl (counts.fail hnode hraises)
    outOfFuel := refl counts.outOfFuel
    readVariable := fun hnode => refl (counts.readVariable hnode)
    log := fun action location => refl (counts.log action location)
    writeVariable := fun v hnode => refl (counts.writeVariable v hnode)
    checkDepth := fun hnode => refl (counts.checkDepth hnode)
    output := ?_
    inFrame := ?_ }
  · intro location value hnode hvalue
    -- what comes after the value is the same
    have hprint (v : Option Value) : Counts (evalOutput (fun _ => pure v) value) :=
      (transition_frameCount ctx fun _ => pure v).within_output hnode (counts.pure v)
    exact bind (refl (counts.log _ _)) fun _ => bind hvalue fun v => refl (hprint v)
  · intro location isGlobal name args a₁ a₂ b₁ b₂ hnode hargs hbody
    refine bind (refl counts_newFrameId) fun id => bind hargs fun vars => ?_
    refine bind (refl (counts.log _ _)) fun _ => bind (refl (counts_modifyStack _)) fun _ => ?_
    exact bind hbody fun v => bind (refl (counts_modifyStack _)) fun _ => refl (counts.pure v)

end Parts

/-- A call that is given a frame uses up its number. -/
theorem lt_final_of_opens {ctx : Context} {ev : Evaluator} (hev : ∀ node, Counts (ev node))
    {node : Node} {m : Machine} (h : Opens ctx node m) (n : Nat) :
    m.frameCount < (final (evalStep ctx ev n node m)).frameCount := by
  obtain @⟨location, isGlobal, name, args, scope, _, hdepth, hscope⟩ := h
  have counts := (transition_frameCount ctx ev).congruence
  have hnode : Node.Any (.call location isGlobal name args) := trivial
  have hargs : Counts (evalArguments ev scope.params args) :=
    related_evalArguments counts (closed_any _) (fun node _ => hev node) hnode _
  have hbody : Counts (evalBody ev scope.definition) :=
    related_evalBody counts (closed_any _) (fun node _ => hev node) hscope
  -- what is done after the frame has its number
  have hrest : Counts (evalArguments ev scope.params args >>= fun vars =>
      log ctx (.call name) location >>= fun _ =>
        modifyStack (·.push ⟨name, vars, m.frameCount, some location⟩) >>= fun _ =>
          evalBody ev scope.definition >>= fun result =>
            modifyStack CallStack.pop >>= fun _ => pure result) := by
    refine Counts.bind hargs fun vars => Counts.bind (counts.log _ _) fun _ => ?_
    refine Counts.bind (counts_modifyStack _) fun _ => Counts.bind hbody fun v => ?_
    exact Counts.bind (counts_modifyStack _) fun _ => counts.pure v
  have hcheck : checkDepth location m = .ok () m := by
    rw [checkDepth_eq, if_neg (Nat.not_lt.mpr hdepth)]
  show m.frameCount < (final (evalCall ctx ev location name args m)).frameCount
  rw [evalCall_eq, bind_of_ok hcheck, hscope]
  exact hrest.le_final m.numbered

/-- The numbers of frames are used up for good: no evaluation takes one back, and that of a call
    with a frame takes the next one. -/
theorem count_eval (ctx : Context) (n : Nat) (node : Node) (m : Machine) :
    m.frameCount ≤ (final (eval ctx n node m)).frameCount ∧
      (Opens ctx node m → n ≠ 0 → m.frameCount < (final (eval ctx n node m)).frameCount) := by
  have hcounts (n : Nat) (node : Node) : Counts (eval ctx n node) :=
    within_eval (fun n => transition_frameCount ctx (eval ctx n)) (closed_any _) n trivial
  refine ⟨(hcounts n node).le_final m, fun hopens hn => ?_⟩
  obtain ⟨n, rfl⟩ := Nat.exists_eq_succ_of_ne_zero hn
  exact lt_final_of_opens (hcounts n) hopens n

/-- Evaluations that are stopped at different calls with frames of one number part where they
    come to one of them. -/
theorem parts_evalStopped {ctx : Context} {p q : Node × Machine} (hne : p ≠ q)
    (hp : Opens ctx p.1 p.2) (hq : Opens ctx q.1 q.2) (hcount : p.2.frameCount = q.2.frameCount)
    (s t : Stop) (n : Nat) (node : Node) :
    Parts p q s t p.2.frameCount (evalStopped ctx p s n node) (evalStopped ctx q t n node) := by
  induction n generalizing node with
  | zero => exact Parts.refl (counts_evalStopped ctx p s 0 node)
  | succ n ih =>
    have hnode : Node.Any node := trivial
    have hstep := related_evalStep
      (Parts.congruence ctx (evalStopped ctx p s n) (evalStopped ctx q t n)) (closed_any _)
      (fun node _ => ih node) n hnode
    refine ⟨counts_evalStopped .., counts_evalStopped .., fun m => ?_⟩
    by_cases hmp : (node, m) = p
    · -- the one evaluation stops here, and the other one goes on with a frame
      subst hmp
      rw [evalStopped_self, evalStopped_of_ne hne]
      exact Or.inr (Or.inl ⟨rfl, lt_final_of_opens (counts_evalStopped ctx q t n) hp n⟩)
    · by_cases hmq : (node, m) = q
      · subst hmq
        rw [evalStopped_self, evalStopped_of_ne hmp, hcount]
        exact Or.inr (Or.inr ⟨rfl, lt_final_of_opens (counts_evalStopped ctx p s n) hq n⟩)
      · rw [evalStopped_of_ne hmp, evalStopped_of_ne hmq]
        exact hstep.cases m

/-- No two calls of a run give their frames the same number. -/
theorem eq_of_reaches {ctx : Context} {fuel : Nat} {p q : Node × Machine}
    (hp : ctx.Reaches fuel p.1 p.2) (hq : ctx.Reaches fuel q.1 q.2) (hop : Opens ctx p.1 p.2)
    (hoq : Opens ctx q.1 q.2) (hcount : p.2.frameCount = q.2.frameCount) : p = q := by
  apply Classical.byContradiction
  intro hne
  obtain ⟨s, t, hst⟩ : ∃ s t : Stop, s ≠ t := ⟨.outOfFuel, .fault default, by intro h; cases h⟩
  have hbody : Parts p q s t p.2.frameCount
      (evalBody (evalStopped ctx p s fuel) ctx.scopes.global.definition)
      (evalBody (evalStopped ctx q t fuel) ctx.scopes.global.definition) :=
    related_evalBody (Parts.congruence ctx _ _) (closed_any _)
      (fun node _ => parts_evalStopped hne hop hoq hcount s t fuel node) ctx.scopes.get?_global
  have hleft := hp s
  have hright := hq t
  unfold Context.runWith at hleft hright
  rcases hbody.cases ctx.start with h | ⟨_, h⟩ | ⟨_, h⟩
  · exact hst (EStateM.Result.error.inj (hleft.symm.trans (h.trans hright))).1
  · rw [hright] at h
    exact absurd h (by simp [final, hcount])
  · rw [hleft] at h
    exact absurd h (by simp [final])

end VectorLang
