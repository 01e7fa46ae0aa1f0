import VectorLang.Proofs.Machine.Reach

/-!
# More fuel

Fuel bounds how deep an evaluation goes and how often a loop is run.  It does nothing else: an
evaluation that ends, with a value or with a fault, ends in the same way with more fuel.

* `Exec.Refines`   the relation between the evaluations with less fuel and with more
* `refines_eval`   every evaluation
* `run_of_le`      the run of a program
-/

namespace VectorLang

namespace Exec

/-- Whether a computation has fuel enough in a state. -/
def Ends {α : Type} (x : Exec α) (m : Machine) : Prop :=
  ∀ m', x m ≠ .error .outOfFuel m'

/-- Whether a computation does what another one does wherever that one has fuel enough. -/
def Refines {α : Type} (x y : Exec α) : Prop :=
  ∀ m, x.Ends m → y m = x m

namespace Refines

variable {α β : Type}

theorem refl (x : Exec α) : Refines x x := fun _ _ => rfl

/-- What succeeds goes on to do so. -/
theorem ok {x y : Exec α} {m m' : Machine} {a : α} (h : Refines x y) (hx : x m = .ok a m') :
    y m = .ok a m' := by
  have hends : x.Ends m := by
    intro m'' hm
    cases hx.symm.trans hm
  exact (h m hends).trans hx

theorem bind {x y : Exec α} {f g : α → Exec β} (hx : Refines x y) (hf : ∀ a, Refines (f a) (g a)) :
    Refines (x >>= f) (y >>= g) := by
  intro m hends
  -- if the first part ran out of fuel, so would the whole
  have hxm : x.Ends m := by
    intro m' hm
    exact hends m' (bind_of_error hm)
  cases hm : x m with
  | ok a m' =>
    rw [bind_of_ok ((hx m hxm).trans hm), bind_of_ok hm]
    apply hf a m'
    intro m'' hm''
    apply hends m''
    rw [bind_of_ok hm, hm'']
  | error e m' => rw [bind_of_error ((hx m hxm).trans hm), bind_of_error hm]

theorem sequential : Sequential fun _ x y => Refines x y where
  pure a := refl (Pure.pure a)
  bind hx hf := bind hx hf

/-- A loop that ends is over before its fuel is used up. -/
theorem repeatWhile {test test' : Exec Bool} {body body' : Exec Unit} (htest : Refines test test')
    (hbody : Refines body body') {n n' : Nat} (h : n ≤ n') :
    Refines (repeatWhile test body n) (repeatWhile test' body' n') := by
  induction n generalizing n' with
  | zero => exact fun m hends => absurd rfl (hends m)
  | succ n ih =>
    obtain ⟨k, rfl⟩ : ∃ k, n' = k + 1 := ⟨n' - 1, by omega⟩
    unfold Exec.repeatWhile
    apply bind htest
    intro b
    cases b with
    | false => exact refl _
    | true => exact bind hbody fun _ => ih (by omega)

/-- The rule of every node keeps evaluations the same that end. -/
theorem rule {ctx : Context} {ev ev' : Evaluator} {n n' : Nat} (h : n ≤ n')
    (hev : ∀ node, Refines (ev node) (ev' node)) (node : Node) :
    RuleCongruence ctx ctx ev ev' n n' node (fun _ _ => True) fun _ x y => Refines x y where
  toSequential := sequential
  part _ hf := bind (hev _) fun v => hf v trivial
  fail _ _ := refl _
  readVariable _ := refl _
  log _ _ := refl _
  output _ hvalue := bind (refl _) fun _ => bind hvalue fun _ => refl _
  writeVariable _ _ _ := refl _
  call {location _ name _} _ hargs := by
    rw [evalCall_eq, evalCall_eq]
    apply bind (refl _)
    intro _
    cases ctx.scopes.get? name with
    | none => exact refl _
    | some scope =>
      have hbody : Refines (evalBody ev scope.definition) (evalBody ev' scope.definition) :=
        sequential.statements fun s _ => hev s
      apply bind (refl _) fun id => bind (hargs scope.params) fun vars => ?_
      apply bind (refl _) fun _ => bind (refl _) fun _ => ?_
      exact bind hbody fun _ => refl _
  loop _ htest hbody := repeatWhile htest hbody h

end Refines

end Exec

open Exec

/-- Every evaluation that ends does the same with more fuel. -/
theorem refines_eval (ctx : Context) {n n' : Nat} (h : n ≤ n') (node : Node) :
    Refines (eval ctx n node) (eval ctx n' node) := by
  induction n generalizing n' node with
  | zero => exact fun m hends => absurd rfl (hends m)
  | succ n ih =>
    obtain ⟨k, rfl⟩ : ∃ k, n' = k + 1 := ⟨n' - 1, by omega⟩
    have hle : n ≤ k := by omega
    exact (Refines.rule hle (fun node => ih hle node) node).related

/-- A run that ends is the same with more fuel. -/
theorem run_of_le {ctx : Context} {fuel fuel' : Nat} (h : fuel ≤ fuel')
    (hends : (run ctx fuel).ending ≠ .outOfFuel) : run ctx fuel' = run ctx fuel := by
  have hbody : Refines (evalBody (eval ctx fuel) ctx.scopes.global.definition)
      (evalBody (eval ctx fuel') ctx.scopes.global.definition) :=
    Refines.sequential.statements fun s _ => refines_eval ctx h s
  rw [run_eq, run_eq]
  congr 1
  apply hbody ctx.start
  intro m hm
  apply hends
  rw [run_eq, Context.runWith, hm]
  rfl

end VectorLang
