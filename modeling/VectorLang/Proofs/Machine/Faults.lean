import VectorLang.Proofs.Machine.Transition
import VectorLang.Proofs.Text.Numeral

/-!
# Where faults come from

A fault that ends a run was raised by the rule of a node that the run came to, or there is a
number that has too many digits to be shown: one of the value that was to be printed, or one
of the variables that were to be logged.

* `explained_of_failed`      the fault that ended a run
* `Value.render?_eq_none`    which values cannot be shown
-/

namespace VectorLang

/-! ## What cannot be shown -/

/-- Whether a value holds a number that has too many digits to be shown. -/
def Value.HasLongNumber (v : Value) : Prop :=
  ∃ elements, v = .ints elements ∧ ∃ z ∈ elements, Numeral.maxDigits < z.natAbs.repr.length

theorem Value.render?_eq_none {v : Value} : v.render? = none ↔ v.HasLongNumber := by
  cases v with
  | ints elements =>
    rw [render?, Option.map_eq_none_iff, mapM_eq_none_iff]
    constructor
    · rintro ⟨z, hz, hwrite⟩
      exact ⟨elements, rfl, z, hz, Numeral.write?_eq_none.mp hwrite⟩
    · rintro ⟨_, heq, z, hz, hlong⟩
      cases heq
      exact ⟨z, hz, Numeral.write?_eq_none.mpr hlong⟩
  | text s =>
    constructor
    · intro h
      cases h
    · rintro ⟨_, heq, _⟩
      cases heq

theorem Frame.snapshot?_eq_none {f : Frame} :
    f.snapshot? = none ↔ ∃ entry ∈ f.vars.entries, entry.2.HasLongNumber := by
  rw [snapshot?, mapM_eq_none_iff]
  simp only [Value.snapshot?, Option.map_eq_none_iff, Value.render?_eq_none]

/-! ## Faults -/

/-- Where a fault comes from, in the state that it is raised in. -/
inductive Fault.Explained (ctx : Context) (N : Node → Prop) (m : Machine) : Fault → Prop where
  /-- The rule of a node fails. -/
  | raised {node : Node} {cause : FaultCause} {location : Location} :
      N node → node.Raises ctx.scopes m cause location → Explained ctx N m ⟨cause, some location⟩
  /-- A variable of the innermost call cannot be logged. -/
  | notLogged {entry : String × Value} :
      ctx.verbose = true → entry ∈ m.stack.top.vars.entries → entry.2.HasLongNumber →
      Explained ctx N m ⟨.numeralTooLong, m.log.back?.map Step.location⟩
  /-- The value of an expression cannot be printed. -/
  | notPrinted {location : Location} {value : Node} {n : Nat} {m₀ : Machine} {v : Value} :
      N (.output location value) → eval ctx n value m₀ = .ok (some v) m → v.HasLongNumber →
      Explained ctx N m ⟨.numeralTooLong, m.log.back?.map Step.location⟩

/-- The basic steps raise no faults but these. -/
theorem transition_explained (ctx : Context) (N : Node → Prop) (n : Nat) :
    Transition ctx (eval ctx n) N (fun _ _ => True)
      fun _ e m => ∀ f, e = .fault f → f.Explained ctx N m where
  refl _ := trivial
  trans _ _ := trivial
  logged _ _ _ _ := trivial
  printed _ _ := trivial
  set _ _ _ _ := trivial
  erased _ _ _ := trivial
  called _ _ := trivial
  after _ h := h
  notOpened h := h
  notClosed _ h := h
  raised hnode hraises f hf := by
    cases hf
    exact .raised hnode hraises
  outOfFuel _ f hf := by cases hf
  notLogged hverbose hsnapshot f hf := by
    cases hf
    obtain ⟨entry, hentry, hlong⟩ := Frame.snapshot?_eq_none.mp hsnapshot
    exact .notLogged hverbose hentry hlong
  notPrinted hnode hvalue hrender f hf := by
    cases hf
    exact .notPrinted hnode hvalue (Value.render?_eq_none.mp hrender)

/-- The fault that ended a run comes from one of the nodes that it evaluates. -/
theorem explained_of_failed {ctx : Context} {N : Node → Prop} (hN : Closed ctx.scopes N)
    {fuel : Nat} {f : Fault} {m : Machine} (h : run ctx fuel = ⟨.failed f, m⟩) :
    f.Explained ctx N m := by
  have hrun := within_run (transition_explained ctx N) hN (congrArg Outcome.ending h) f rfl
  rwa [h] at hrun

end VectorLang
