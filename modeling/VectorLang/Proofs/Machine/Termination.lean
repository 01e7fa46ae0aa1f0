import Mathlib
import VectorLang.Proofs.Machine.Frames
import VectorLang.Proofs.Machine.Fuel
import VectorLang.Proofs.Scope.Calls

/-!
# Programs without loops come to an end

A call evaluates the body of any function of the table, so that what is evaluated does not get
smaller with every step.  But a call is evaluated only if not too many frames are there, and
what is evaluated in its frame finds one frame more.  So the frames that are left decrease with
every call, and between two calls the size of the tree does.

That the frames were counted before the arguments of the call, and its own frame is put on
the stack after them, makes no difference: evaluating the arguments leaves the depth of the
stack as it was.

* `ScopeTable.need`    fuel that is enough for an evaluation
* `halts_eval`         evaluations end with that fuel
* `run_terminates`     runs end, whatever the functions are that call each other
-/

namespace VectorLang

open Exec

/-! ## Sizes of trees -/

namespace Node

mutual

/-- The number of nodes of a tree. -/
def size : Node → Nat
  | int .. | string .. => 1
  | vector _ elements => sizeOfList elements + 1
  | var _ _ _ subscript => sizeOfOption subscript + 1
  | unary _ _ operand => operand.size + 1
  | binary _ _ left right => left.size + right.size + 1
  | call _ _ _ args => sizeOfList args + 1
  | predicate ⟨_, _, left, right⟩ => left.size + right.size + 1
  | output _ value => value.size + 1
  | assign _ _ _ value => sizeOfOption value + 1
  | conditional _ ⟨_, _, left, right⟩ thenBody elseBody =>
    left.size + right.size + sizeOfList thenBody + sizeOfList elseBody + 1
  | loop _ _ ⟨_, _, left, right⟩ body => left.size + right.size + sizeOfList body + 1
  | function ⟨_, _, _, _, body⟩ => sizeOfList body + 1
  | program _ _ ⟨_, _, _, _, body⟩ => sizeOfList body + 1

/-- The number of nodes of a row of trees. -/
def sizeOfList : List Node → Nat
  | [] => 0
  | node :: nodes => node.size + sizeOfList nodes

/-- The number of nodes of a tree that may be left out. -/
def sizeOfOption : Option Node → Nat
  | none => 0
  | some node => node.size

end

theorem sizeOfList_eq (nodes : List Node) : sizeOfList nodes = (nodes.map size).sum := by
  induction nodes with
  | nil => rfl
  | cons node nodes ih => rw [sizeOfList, ih, List.map_cons, List.sum_cons]

theorem sizeOfOption_eq (node? : Option Node) :
    sizeOfOption node? = (node?.toList.map size).sum := by
  cases node? <;> simp [sizeOfOption]

/-- A tree is its root and the trees below it. -/
theorem size_eq (n : Node) : n.size = (n.children.map size).sum + 1 := by
  cases n <;> simp [size, children, sizeOfList_eq, sizeOfOption_eq, Nat.add_assoc]

theorem size_pos (n : Node) : 0 < n.size := by
  rw [size_eq]
  omega

theorem size_lt_of_mem_children {n c : Node} (h : c ∈ n.children) : c.size < n.size := by
  have hle : c.size ≤ (n.children.map size).sum := List.le_sum_of_mem (List.mem_map_of_mem h)
  rw [size_eq n]
  omega

end Node

/-! ## Trees without loops -/

/-- Whether a node is a loop. -/
def Node.isLoop : Node → Bool
  | loop .. => true
  | _ => false

/-- Whether there is no loop in a tree. -/
def Node.LoopFree (n : Node) : Prop := ∀ m, n.Contains m → m.isLoop = false

theorem Node.LoopFree.child {n c : Node} (h : n.LoopFree) (hc : c ∈ n.children) : c.LoopFree :=
  fun m hm => h m (.step hc hm)

theorem Node.loopFree_iff {n : Node} :
    n.LoopFree ↔ n.isLoop = false ∧ ∀ c ∈ n.children, c.LoopFree :=
  forall_contains_iff

/-- Whether there is no loop in a program. -/
def Program.LoopFree (p : Program) : Prop := (Node.function p.block).LoopFree

namespace ScopeTable

/-- Whether there is no loop in the functions of a table. -/
def LoopFree (table : ScopeTable) : Prop :=
  ∀ name scope, table.get? name = some scope → (Node.function scope.definition).LoopFree

/-- The number of nodes of all functions of a table. -/
def size (table : ScopeTable) : Nat :=
  (table.toList.map fun entry => (Node.function entry.2.definition).size).sum

/-- Fuel that is enough to evaluate a node without loops at a depth of the stack: for each call
    that may still be opened as much as for the largest function, and for the node itself as
    many as it has nodes. -/
def need (table : ScopeTable) (depth : Nat) (node : Node) : Nat :=
  (maxDepth + 1 - depth) * table.size + node.size

/-- A function of a table is not larger than the table. -/
theorem size_le {table : ScopeTable} {name : String} {scope : Scope}
    (h : table.get? name = some scope) : (Node.function scope.definition).size ≤ table.size := by
  obtain ⟨entry, hentry, rfl⟩ : ∃ entry ∈ table.toList, entry.2 = scope := by
    obtain ⟨before, after, hsplit, _⟩ := List.lookup_eq_some_iff.mp h
    exact ⟨(name, scope), by rw [hsplit]; simp, rfl⟩
  exact List.le_sum_of_mem (List.mem_map_of_mem hentry)

variable {table : ScopeTable} {depth : Nat} {node : Node}

theorem need_pos : 0 < table.need depth node := by
  have := node.size_pos
  unfold need
  omega

theorem need_part {c : Node} (hc : c ∈ node.parts) :
    table.need depth c < table.need depth node := by
  have := Node.size_lt_of_mem_children (Node.mem_children_of_mem_parts hc)
  unfold need
  omega

/-- A call has more fuel than the body of a function needs in the frame of the call. -/
theorem need_body {name : String} {scope : Scope} (hscope : table.get? name = some scope)
    {s : Node} (hs : s ∈ scope.definition.body) (hdepth : depth ≤ maxDepth) :
    table.need (depth + 1) s < table.need depth node := by
  have hsize := size_le hscope
  have hlt : s.size < (Node.function scope.definition).size := Node.size_lt_of_mem_children hs
  obtain ⟨left, hleft⟩ : ∃ left, maxDepth + 1 - depth = left + 1 := ⟨maxDepth - depth, by omega⟩
  have hnext : maxDepth + 1 - (depth + 1) = left := by omega
  have hnode := node.size_pos
  unfold need
  rw [hleft, hnext, Nat.succ_mul]
  omega

end ScopeTable

/-- A program without loops has only functions without loops. -/
theorem Program.LoopFree.table {p : Program} (hp : p.LoopFree) {table : ScopeTable}
    (h : analyze p = .ok table) : table.LoopFree := by
  intro name scope hscope m hm
  cases hm with
  | refl => rfl
  | step hs hm => exact hp m ((Program.contains_of_get? h hscope hs).trans hm)

/-! ## Evaluations -/

/-- Whether an evaluation that succeeds leaves the depth of the stack as it was, and one that
    does not succeed has not run out of fuel if it started at a certain depth. -/
def Exec.Halts (depth : Nat) {α : Type} (x : Exec α) : Prop :=
  Within (fun m m' => m'.stack.depth = m.stack.depth)
    (fun m e _ => m.stack.depth = depth → e ≠ .outOfFuel) x

theorem composes_halts (depth : Nat) :
    Composes (fun m m' => m'.stack.depth = m.stack.depth)
      (fun m e _ => m.stack.depth = depth → e ≠ .outOfFuel) where
  refl _ := rfl
  trans h h' := h'.trans h
  after h h' hdepth := h' (h.trans hdepth)

/-- The rule of a node that is no loop ends, if what is evaluated below it ends and so do the
    functions that it calls, one frame deeper. -/
theorem ruleTransition_halts {ctx : Context} {n depth : Nat} {node : Node}
    (hloop : node.isLoop = false) (hparts : ∀ c ∈ node.parts, Halts depth (eval ctx n c))
    (hbody : ∀ name scope, ctx.scopes.get? name = some scope → depth ≤ maxDepth →
      Halts (depth + 1) (evalBody (eval ctx n) scope.definition)) :
    RuleTransition ctx (eval ctx n) node (fun _ _ => True)
      (fun m m' => m'.stack.depth = m.stack.depth)
      (fun m e _ => m.stack.depth = depth → e ≠ .outOfFuel) where
  toComposes := composes_halts depth
  logged _ _ _ _ := rfl
  printed _ _ := rfl
  numbered _ := rfl
  unshown _ _ hstop := by cases hstop
  part hc := hparts _ hc
  post _ _ := trivial
  written m v _ _ := by cases v <;> exact CallStack.depth_modifyOwner _ _ _
  raised _ _ _ hstop := by cases hstop
  outOfFuel _ heq := by
    rw [heq] at hloop
    cases hloop
  closed _ _ _ _ hargs hv := by
    unfold CallStack.depth at hargs ⊢
    rw [stack_closed hv, hargs]
  notClosed _ hle hscope _ hargs he hdepth := by
    -- the arguments have left the depth at which the frames were counted
    subst hdepth
    apply (hbody _ _ hscope hle).error he
    rw [← hargs]
    rfl

/-- An evaluation without loops ends if it has the fuel that it needs. -/
theorem halts_eval {scopes : ScopeTable} (h : scopes.LoopFree) (verbose : Bool) {n depth : Nat}
    {node : Node} (hnode : node.LoopFree) (hn : scopes.need depth node ≤ n) :
    Halts depth (eval ⟨scopes, verbose⟩ n node) := by
  induction n generalizing node depth with
  | zero =>
    have hpos : 0 < scopes.need depth node := ScopeTable.need_pos
    omega
  | succ n ih =>
    have hparts : ∀ c ∈ node.parts, Halts depth (eval ⟨scopes, verbose⟩ n c) := by
      intro c hc
      have hlt : scopes.need depth c < scopes.need depth node := ScopeTable.need_part hc
      exact ih (hnode.child (Node.mem_children_of_mem_parts hc)) (by omega)
    -- the body of a function that is called runs in one frame more
    have hbody : ∀ name scope, scopes.get? name = some scope → depth ≤ maxDepth →
        Halts (depth + 1) (evalBody (eval ⟨scopes, verbose⟩ n) scope.definition) := by
      intro name scope hscope hdepth
      apply (composes_halts (depth + 1)).within_evalBody
      intro s hs _
      have hlt : scopes.need (depth + 1) s < scopes.need depth node :=
        ScopeTable.need_body hscope hs hdepth
      exact ih ((h _ _ hscope).child hs) (by omega)
    exact (ruleTransition_halts (hnode node (.refl node)) hparts hbody).within n

/-! ## What an evaluation depends on -/

theorem CallStack.depth_pop {s : CallStack} (h : 2 < s.depth) : s.pop.depth + 1 = s.depth := by
  unfold depth pop at *
  cases hbelow : s.below with
  | nil => simp [hbelow] at h
  | cons f fs => simp

/-- Whether two computations do the same at a depth of the stack, and leave it at that depth if
    they succeed. -/
def Exec.SameAt (depth : Nat) {α : Type} (x y : Exec α) : Prop :=
  ∀ m, m.stack.depth = depth →
    x m = y m ∧ ∀ a m', y m = .ok a m' → m'.stack.depth = depth

namespace Exec.SameAt

variable {depth : Nat} {α β : Type}

theorem refl {F : Machine → Stop → Machine → Prop} {x : Exec α}
    (h : Within Machine.Follows F x) : SameAt depth x x := by
  intro m hm
  refine ⟨rfl, fun a m' ha => ?_⟩
  rw [← hm, CallStack.depth, CallStack.depth, (h.ok ha).stack.below]

theorem bind {x y : Exec α} {f g : α → Exec β} (hx : SameAt depth x y)
    (hf : ∀ a, SameAt depth (f a) (g a)) : SameAt depth (x >>= f) (y >>= g) := by
  intro m hm
  obtain ⟨heq, hdepth⟩ := hx m hm
  cases hy : y m with
  | ok a m' =>
    rw [bind_of_ok (heq.trans hy), bind_of_ok hy]
    exact hf a m' (hdepth a m' hy)
  | error e m' =>
    rw [bind_of_error (heq.trans hy), bind_of_error hy]
    exact ⟨rfl, fun a m' ha => by cases ha⟩

theorem sequential : Sequential fun _ x y => SameAt depth x y where
  pure a := refl (Machine.composes_follows.within_pure a)
  bind hx hf := bind hx hf

/-- What is done in a frame of its own is done one frame deeper. -/
theorem frame {x y : Exec α} (h : SameAt (depth + 1) x y) (f : Frame) :
    SameAt depth
      (modifyStack (·.push f) >>= fun _ => x >>= fun a => modifyStack CallStack.pop >>= fun _ =>
        Pure.pure a)
      (modifyStack (·.push f) >>= fun _ => y >>= fun a => modifyStack CallStack.pop >>= fun _ =>
        Pure.pure a) := by
  intro m hm
  have hpush : modifyStack (·.push f) m = .ok () { m with stack := m.stack.push f } := rfl
  obtain ⟨heq, hdepth⟩ := h { m with stack := m.stack.push f } (by rw [← hm]; rfl)
  rw [bind_of_ok hpush, bind_of_ok hpush]
  cases hy : y { m with stack := m.stack.push f } with
  | error e m' =>
    rw [bind_of_error (heq.trans hy), bind_of_error hy]
    exact ⟨rfl, fun a m' ha => by cases ha⟩
  | ok a m' =>
    rw [bind_of_ok (heq.trans hy), bind_of_ok hy]
    refine ⟨rfl, fun b m'' hb => ?_⟩
    cases hb
    have hm' := hdepth a m' hy
    have hle : 2 ≤ m.stack.depth := Nat.le_add_left ..
    have hpop : m'.stack.pop.depth + 1 = m'.stack.depth := CallStack.depth_pop (by omega)
    show m'.stack.pop.depth = depth
    omega

end Exec.SameAt

/-- The measure that decreases from an evaluation to those that it needs: the frames that are
    left, and then the size of the tree. -/
def Node.measure (node : Node) (m : Machine) : Nat × Nat :=
  (maxDepth + 1 - m.stack.depth, node.size)

/-- The rules of a node that is no loop do the same, if what is evaluated below it does the same
    and so do the functions that it calls, one frame deeper. -/
theorem ruleCongruence_sameAt {ctx : Context} {ev : Evaluator} {n depth : Nat} {node : Node}
    (hloop : node.isLoop = false)
    (hparts : ∀ c ∈ node.parts, SameAt depth (ev c) (eval ctx n c))
    (hbody : ∀ name scope, ctx.scopes.get? name = some scope → depth ≤ maxDepth →
      SameAt (depth + 1) (evalBody ev scope.definition)
        (evalBody (eval ctx n) scope.definition)) :
    RuleCongruence ctx ctx ev (eval ctx n) n n node (fun _ _ => True)
      fun _ x y => SameAt depth x y := by
  have follows := (Machine.transition_follows ctx (eval ctx n)).congruence
  have any (c : Node) : Node.Any c := trivial
  have hnumber : SameAt depth newFrameId newFrameId := by
    intro m hm
    refine ⟨rfl, fun id m' hid => ?_⟩
    cases hid
    exact hm
  refine {
    toSequential := SameAt.sequential
    part := fun hc hf => (hparts _ hc).bind fun v => hf v trivial
    fail := fun hraises _ => SameAt.refl (follows.fail (any node) hraises)
    readVariable := fun {location isGlobal name subscript} _ =>
      SameAt.refl (follows.readVariable (any (.var location isGlobal name subscript)))
    log := fun action location => SameAt.refl (follows.log action location)
    output := fun {location value} _ hvalue => ?_
    writeVariable := fun {location isGlobal name value} v _ _ =>
      SameAt.refl (follows.writeVariable v (any (.assign location isGlobal name value)))
    call := fun {location isGlobal name args} _ hargs => ?_
    loop := fun heq _ _ => ?_ }
  · -- what comes after the value is the same
    have hprint (v : Option Value) : Within Machine.Follows (fun _ _ _ => True)
        (evalOutput (fun _ => pure v) value) :=
      Machine.composes_follows.within_evalOutput (follows.pure v)
        (Machine.transition_follows ctx ev).printed fun _ _ => trivial
    apply (SameAt.refl (follows.log _ _)).bind
    intro _
    exact hvalue.bind fun v => SameAt.refl (hprint v)
  · rw [evalCall_eq, evalCall_eq]
    by_cases hle : depth ≤ maxDepth
    · have hany := any (.call location isGlobal name args)
      apply (SameAt.refl (follows.checkDepth hany)).bind
      intro _
      cases hscope : ctx.scopes.get? name with
      | none => exact SameAt.refl (follows.fail hany fun _ => .undefinedFunction hscope)
      | some scope =>
        apply hnumber.bind
        intro id
        apply (hargs scope.params).bind
        intro vars
        apply (SameAt.refl (follows.log _ _)).bind
        intro _
        exact (hbody name scope hscope hle).frame _
    · -- too many calls are open, for both
      intro m hm
      have hcheck : checkDepth location m =
          .error (.fault ⟨.callStackExceeded, some location⟩) m := by
        rw [checkDepth_eq, if_pos (by omega)]
      rw [bind_of_error hcheck, bind_of_error hcheck]
      exact ⟨rfl, fun a m' ha => by cases ha⟩
  · rw [heq] at hloop
    cases hloop

/-- Without loops, evaluating a node depends on no evaluations but those of a smaller measure. -/
theorem evalStep_congr_of_smaller {scopes : ScopeTable} (h : scopes.LoopFree) {verbose : Bool}
    {n : Nat} {ev : Evaluator} {node : Node} {m : Machine} (hnode : node.LoopFree)
    (hev : ∀ c m', c.LoopFree → Prod.Lex (· < ·) (· < ·) (c.measure m') (node.measure m) →
      ev c m' = eval ⟨scopes, verbose⟩ n c m') :
    evalStep ⟨scopes, verbose⟩ ev n node m = eval ⟨scopes, verbose⟩ (n + 1) node m := by
  generalize hdepth : m.stack.depth = depth
  have hsame {depth' : Nat} {c : Node} (hc : c.LoopFree)
      (hlt : ∀ m', m'.stack.depth = depth' →
        Prod.Lex (· < ·) (· < ·) (c.measure m') (node.measure m)) :
      SameAt depth' (ev c) (eval ⟨scopes, verbose⟩ n c) := by
    have hfollows : Within Machine.Follows (fun _ _ _ => True) (eval ⟨scopes, verbose⟩ n c) :=
      within_eval (fun n => Machine.transition_follows _ (eval _ n)) (closed_any _) n trivial
    intro m' hm'
    rw [hev c m' hc (hlt m' hm')]
    exact SameAt.refl hfollows m' hm'
  -- a part of the node is smaller, and runs with as many frames
  have hparts : ∀ c ∈ node.parts, SameAt depth (ev c) (eval ⟨scopes, verbose⟩ n c) := by
    intro c hc
    have hchild := Node.mem_children_of_mem_parts hc
    apply hsame (hnode.child hchild)
    intro m' hm'
    unfold Node.measure
    rw [hm', hdepth]
    exact Prod.Lex.right _ (Node.size_lt_of_mem_children hchild)
  -- the body of a function may be larger, but there is one frame less for it
  have hbody : ∀ name scope, scopes.get? name = some scope → depth ≤ maxDepth →
      SameAt (depth + 1) (evalBody ev scope.definition)
        (evalBody (eval ⟨scopes, verbose⟩ n) scope.definition) := by
    intro name scope hscope hle
    apply SameAt.sequential.statements
    intro s hs
    apply hsame ((h name scope hscope).child (List.mem_filter.mp hs).1)
    intro m' hm'
    unfold Node.measure
    rw [hm', hdepth]
    exact Prod.Lex.left _ _ (by omega)
  exact ((ruleCongruence_sameAt (hnode node (.refl node)) hparts hbody).related m hdepth).1

/-! ## Runs -/

/-- In a table of functions without loops every run ends, if it has fuel for as many calls of the
    whole table as may be open at once. -/
theorem run_ne_outOfFuel {scopes : ScopeTable} (h : scopes.LoopFree) (verbose : Bool) {fuel : Nat}
    (hfuel : maxDepth * scopes.size ≤ fuel) : (run ⟨scopes, verbose⟩ fuel).ending ≠ .outOfFuel := by
  have hbody : Halts 2 (evalBody (eval ⟨scopes, verbose⟩ fuel) scopes.global.definition) := by
    apply (composes_halts 2).within_evalBody
    intro s hs _
    -- one frame less would leave as much fuel as the largest function needs
    have hlt : scopes.need 2 s < scopes.need 1 (.int default 0) :=
      ScopeTable.need_body scopes.get?_global hs (by decide)
    have hneed : scopes.need 1 (.int default 0) = maxDepth * scopes.size + 1 := rfl
    exact halts_eval h verbose ((h _ _ scopes.get?_global).child hs) (by omega)
  intro hending
  rw [run_eq] at hending
  cases hresult : Context.runWith ⟨scopes, verbose⟩ (eval ⟨scopes, verbose⟩ fuel) with
  | ok v m =>
    rw [hresult] at hending
    cases hending
  | error e m =>
    rw [hresult] at hending
    cases e with
    | fault f => cases hending
    | outOfFuel => exact hbody.error hresult rfl rfl

/-- Without loops, evaluating a node depends only on evaluations with fewer frames left, or with
    as many frames left and a smaller tree.  Each evaluation ends, with a value or with a fault:
    it takes no more fuel than these two numbers tell, and more fuel changes nothing.  So every
    run ends, whatever the functions are that call each other.  The functions of a program
    without loops that passes the check have no loops. -/
theorem run_terminates :
    (∀ (scopes : ScopeTable) verbose, scopes.LoopFree →
      (∀ n ev node m, node.LoopFree →
        (∀ c m', c.LoopFree → Prod.Lex (· < ·) (· < ·) (c.measure m') (node.measure m) →
          ev c m' = eval ⟨scopes, verbose⟩ n c m') →
        evalStep ⟨scopes, verbose⟩ ev n node m = eval ⟨scopes, verbose⟩ (n + 1) node m) ∧
      (∀ node m n, node.LoopFree → scopes.need m.stack.depth node ≤ n →
        (eval ⟨scopes, verbose⟩ n node).Ends m ∧
        eval ⟨scopes, verbose⟩ n node m =
          eval ⟨scopes, verbose⟩ (scopes.need m.stack.depth node) node m) ∧
      ∀ fuel, maxDepth * scopes.size ≤ fuel →
        (run ⟨scopes, verbose⟩ fuel).ending ≠ .outOfFuel ∧
        run ⟨scopes, verbose⟩ fuel = run ⟨scopes, verbose⟩ (maxDepth * scopes.size)) ∧
    ∀ p table, p.LoopFree → analyze p = .ok table → table.LoopFree := by
  constructor
  · intro scopes verbose h
    have hends {node : Node} {m : Machine} {n : Nat} (hnode : node.LoopFree)
        (hn : scopes.need m.stack.depth node ≤ n) : (eval ⟨scopes, verbose⟩ n node).Ends m := by
      intro m' hm
      exact (halts_eval h verbose hnode hn).error hm rfl rfl
    refine ⟨fun n ev node m hnode hev => evalStep_congr_of_smaller h hnode hev, ?_, ?_⟩
    · intro node m n hnode hn
      exact ⟨hends hnode hn, refines_eval _ hn node m (hends hnode (Nat.le_refl _))⟩
    · intro fuel hfuel
      exact ⟨run_ne_outOfFuel h verbose hfuel,
        run_of_le hfuel (run_ne_outOfFuel h verbose (Nat.le_refl _))⟩
  · intro p table hp h
    exact hp.table h

/-- A program that calls itself. -/
def recursiveProgram : Program :=
  ⟨default, "P", ⟨default, false, "P", [], [.output default (.call default false "P" [])]⟩⟩

/-- The scopes of that program. -/
def recursiveTable : ScopeTable where
  global := ⟨[], recursiveProgram.block, ["P"], []⟩
  functions := [("P", .ofDefinition recursiveProgram.block)]

theorem run_terminates_recursive :
    analyze recursiveProgram = .ok recursiveTable ∧
    (run ⟨recursiveTable, false⟩ 3).ending = .outOfFuel ∧
    (run ⟨recursiveTable, false⟩ (maxDepth * recursiveTable.size)).ending ≠ .outOfFuel := by
  have hanalyze : analyze recursiveProgram = .ok recursiveTable := by rfl
  have hprogram : recursiveProgram.LoopFree := by
    have hcall : (Node.call default false "P" []).LoopFree :=
      Node.loopFree_iff.mpr ⟨rfl, by simp [Node.children]⟩
    have houtput : (Node.output default (.call default false "P" [])).LoopFree :=
      Node.loopFree_iff.mpr ⟨rfl, by simpa [Node.children] using hcall⟩
    exact Node.loopFree_iff.mpr
      ⟨rfl, by simpa [Node.children, recursiveProgram] using houtput⟩
  obtain ⟨hruns, htables⟩ := run_terminates
  obtain ⟨_, _, hrun⟩ := hruns recursiveTable false (htables _ _ hprogram hanalyze)
  exact ⟨hanalyze, by rfl, (hrun _ (Nat.le_refl _)).1⟩

end VectorLang
