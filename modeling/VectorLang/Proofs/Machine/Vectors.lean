import Mathlib
import VectorLang.Proofs.Machine.Evaluates
import VectorLang.Proofs.Machine.Scoping
import VectorLang.Proofs.Value.Elements

/-!
# Vectors within vectors

The elements of a vector are evaluated in order, and a vector within a vector is evaluated where it
stands.  So its elements could as well stand there themselves: the same nodes are evaluated in the
same states, and joining their values in groups gives what joining all of them does.

* `evaluates_flatten_iff`   a vector within a vector
* `vector_flattens`         what it comes to, and the length of a vector
-/

namespace VectorLang

section

variable {ctx : Context} {m m' : Machine} {v : Option Value}

/-- The elements of a vector may stand in the place of the vector. -/
theorem evaluates_flatten_iff {location location' inner : Location} {xs ys zs : List Node}
    (hys : ys ≠ []) :
    ctx.Evaluates (.vector location (xs ++ .vector inner ys :: zs)) m v m' ↔
      ctx.Evaluates (.vector location' (xs ++ ys ++ zs)) m v m' := by
  constructor
  · intro h
    obtain ⟨_, w, hvalues, hw, rfl⟩ := evaluates_vector_iff.mp h
    obtain ⟨us, _, m₁, hus, hrest, rfl⟩ := evaluatesAll_append_iff.mp hvalues
    obtain ⟨u, ws, m₂, hinner, hws, rfl⟩ := evaluatesAll_cons_iff.mp hrest
    -- the inner vector has the values of its own elements, joined
    obtain ⟨vs, u', hvs, hu, hsame⟩ := evaluates_vector_iff.mp hinner
    obtain rfl : u = u' := Option.some.inj hsame
    have hne : vs ≠ [] := (Value.join?_eq_some_iff.mp hu).1
    have hfront : ctx.EvaluatesAll (xs ++ ys) m (us ++ vs) m₂ :=
      evaluatesAll_append_iff.mpr ⟨us, vs, m₁, hus, hvs, rfl⟩
    have hall : ctx.EvaluatesAll (xs ++ ys ++ zs) m (us ++ vs ++ ws) m' :=
      evaluatesAll_append_iff.mpr ⟨us ++ vs, ws, m₂, hfront, hws, rfl⟩
    have hjoin := (Value.join?_append_iff hne).mpr ⟨u, hu, hw⟩
    exact evaluates_vector_iff.mpr ⟨_, w, hall, hjoin, rfl⟩
  · intro h
    obtain ⟨_, w, hvalues, hw, rfl⟩ := evaluates_vector_iff.mp h
    obtain ⟨_, ws, m₂, hfront, hws, rfl⟩ := evaluatesAll_append_iff.mp hvalues
    obtain ⟨us, vs, m₁, hus, hvs, rfl⟩ := evaluatesAll_append_iff.mp hfront
    -- there is an element in the group, so it has a value
    have hne : vs ≠ [] := by
      cases hvs with
      | nil => exact absurd rfl hys
      | cons _ _ => exact List.cons_ne_nil _ _
    obtain ⟨u, hu, hw⟩ := (Value.join?_append_iff hne).mp hw
    have hinner : ctx.Evaluates (.vector inner ys) m₁ (some u) m₂ :=
      evaluates_vector_iff.mpr ⟨vs, u, hvs, hu, rfl⟩
    have hrest : ctx.EvaluatesAll (.vector inner ys :: zs) m₁ (u :: ws) m' := .cons hinner hws
    have hall : ctx.EvaluatesAll (xs ++ .vector inner ys :: zs) m (us ++ u :: ws) m' :=
      evaluatesAll_append_iff.mpr ⟨us, u :: ws, m₁, hus, hrest, rfl⟩
    exact evaluates_vector_iff.mpr ⟨_, w, hall, hw, rfl⟩

end

/-- A vector that holds another one with elements can be evaluated if and only if the vector can in
    which these elements stand in its place, and then both have the same value and lead to the same
    state.  The length of a vector that can be evaluated is that of the values of its elements
    together. -/
theorem vector_flattens (ctx : Context) :
    (∀ location location' inner xs ys zs m, ys ≠ [] →
      ((∃ v m', ctx.Evaluates (.vector location (xs ++ .vector inner ys :: zs)) m v m') ↔
        ∃ v m', ctx.Evaluates (.vector location' (xs ++ ys ++ zs)) m v m') ∧
      ∀ v m₁ w m₂, ctx.Evaluates (.vector location (xs ++ .vector inner ys :: zs)) m v m₁ →
        ctx.Evaluates (.vector location' (xs ++ ys ++ zs)) m w m₂ → v = w ∧ m₁ = m₂) ∧
    ∀ location location' elements m v m', ctx.Evaluates (.vector location elements) m v m' →
      ∃ values w, ctx.EvaluatesAll elements m values m' ∧ v = some w ∧
        w.length = (values.map Value.length).sum ∧
        ctx.Evaluates (.unary location' .length (.vector location elements)) m
          (some (.ints [((values.map Value.length).sum : Nat)])) m' := by
  refine ⟨fun location location' inner xs ys zs m hys => ⟨?_, ?_⟩, ?_⟩
  · exact exists₂_congr fun v m' => evaluates_flatten_iff hys
  · intro v m₁ w m₂ hnested hflat
    exact ((evaluates_flatten_iff hys).mp hnested).unique hflat
  · intro location location' elements m v m' h
    obtain ⟨values, w, hvalues, hw, rfl⟩ := evaluates_vector_iff.mp h
    have hlength := Value.length_join? hw
    refine ⟨values, w, hvalues, rfl, hlength, ?_⟩
    exact evaluates_length_iff.mpr ⟨w, h, by rw [hlength]⟩

/-- A vector with another one in it, both of which have calls among their elements. -/
def nestedCalls : Node :=
  .vector copierCall.location ([copierCall] ++
    .vector copierCall.location [.int copierCall.location 2, copierCall] ::
      [.int copierCall.location 3])

/-- The vector in which the elements of the inner vector stand in its place. -/
def flatCalls : Node :=
  .vector copierCall.location ([copierCall] ++ [.int copierCall.location 2, copierCall] ++
    [.int copierCall.location 3])

theorem vector_flattens_calls :
    [Node.int copierCall.location 2, copierCall] ≠ [] ∧
    ∃ m, Context.Evaluates ⟨copyingTable, false⟩ nestedCalls copyingCalled
        (some (.ints [1, 2, 1, 3])) m ∧
      Context.Evaluates ⟨copyingTable, false⟩ flatCalls copyingCalled
        (some (.ints [1, 2, 1, 3])) m ∧
      Context.Evaluates ⟨copyingTable, false⟩ (.unary copierCall.location .length nestedCalls)
        copyingCalled (some (.ints [4])) m := by
  have hne : [Node.int copierCall.location 2, copierCall] ≠ [] := List.cons_ne_nil _ _
  obtain ⟨m, hnested⟩ : ∃ m, Context.Evaluates ⟨copyingTable, false⟩ nestedCalls copyingCalled
      (some (.ints [1, 2, 1, 3])) m := ⟨_, 8, rfl⟩
  obtain ⟨hflat, hlength⟩ := vector_flattens ⟨copyingTable, false⟩
  obtain ⟨hends, hsame⟩ := hflat copierCall.location copierCall.location copierCall.location
    [copierCall] _ [.int copierCall.location 3] copyingCalled hne
  obtain ⟨v, m', hv⟩ := hends.mp ⟨_, m, hnested⟩
  obtain ⟨rfl, rfl⟩ := hsame _ _ _ _ hnested hv
  obtain ⟨values, w, -, hw, hsum, hlength⟩ :=
    hlength copierCall.location copierCall.location _ _ _ _ hnested
  obtain rfl := Option.some.inj hw
  rw [← hsum] at hlength
  exact ⟨hne, m, hnested, hv, hlength⟩

end VectorLang
