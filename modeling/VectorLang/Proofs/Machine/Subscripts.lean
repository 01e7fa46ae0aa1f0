import Mathlib
import VectorLang.Proofs.Machine.Evaluates
import VectorLang.Proofs.Machine.Scoping
import VectorLang.Proofs.Value.Elements

/-!
# Subscripts

What a variable has under a subscript depends on its value and on that of the subscript only: it is
what stands at the places that the subscript gives.  So the laws of subscripts are those of picking
elements from a row.

* `evaluates_select_iff`   a variable with a subscript
* `subscript_gathers`      when it has a value, which one, and subscripts of subscripts
-/

namespace VectorLang

section

variable {ctx : Context} {isGlobal : Bool} {name : String} {subscript : Node} {m m₁ : Machine}
  {v : Value} {places : List Int}

/-- A variable with a subscript comes to what stands at the places. -/
theorem evaluates_select_iff (hv : (m.stack.owner isGlobal).vars.get? name = some v)
    (hplaces : ctx.Evaluates subscript m (some (.ints places)) m₁) {location : Location}
    {w : Option Value} {m' : Machine} :
    ctx.Evaluates (.var location isGlobal name (some subscript)) m w m' ↔
      ∃ u, v.select? places = some u ∧ w = some u ∧ m' = m₁ := by
  rw [evaluates_subscript_iff]
  constructor
  · rintro ⟨v', places', u, hv', hplaces', hu, rfl⟩
    -- neither the variable nor the subscript has two values
    obtain rfl := Option.some.inj (hv.symm.trans hv')
    obtain ⟨hsame, rfl⟩ := hplaces.unique hplaces'
    cases hsame
    exact ⟨u, hu, rfl, rfl⟩
  · rintro ⟨u, hu, rfl, rfl⟩
    exact ⟨v, places, u, hv, hplaces, hu, rfl⟩

/-- A row of numbers is evaluated without a change. -/
theorem evaluatesAll_numbers (ctx : Context) (locations : Int → Location) (is : List Int)
    (m : Machine) :
    ctx.EvaluatesAll (is.map fun i => .int (locations i) i) m (is.map fun i => .ints [i]) m := by
  induction is with
  | nil => exact .nil m
  | cons i is ih => exact .cons ⟨1, rfl⟩ ih

/-- Numbers that are written out are a vector of them. -/
theorem evaluates_numbers {is : List Int} (his : is ≠ []) (ctx : Context) (location : Location)
    (locations : Int → Location) (m : Machine) :
    ctx.Evaluates (.vector location (is.map fun i => .int (locations i) i)) m
      (some (.ints is)) m := by
  have hjoin : Value.join? (is.map fun i => .ints [i]) = some (.ints is) := by
    rw [Value.join?_eq_some_iff]
    refine ⟨by simpa using his, by simp [Value.typeName], ?_⟩
    rw [List.flatMap_map, Value.elements, List.map_eq_flatMap]
    rfl
  exact evaluates_vector_iff.mpr ⟨_, _, evaluatesAll_numbers ctx locations is m, hjoin, rfl⟩

end

/-- Whether somewhere a variable with the value `v` has the value `w` under a subscript that gives
    some places. -/
def Context.Subscripts (ctx : Context) (v : Value) (places : List Int) (w : Value) : Prop :=
  ∃ location isGlobal name subscript m m', (m.stack.owner isGlobal).vars.get? name = some v ∧
    ctx.Evaluates subscript m (some (.ints places)) m' ∧
    ctx.Evaluates (.var location isGlobal name (some subscript)) m (some w) m'

theorem select?_of_subscripts {ctx : Context} {v w : Value} {places : List Int}
    (h : ctx.Subscripts v places w) : v.select? places = some w := by
  obtain ⟨location, isGlobal, name, subscript, m, m', hv, hplaces, hw⟩ := h
  obtain ⟨u, hu, hsame, -⟩ := (evaluates_select_iff hv hplaces).mp hw
  rw [hu, hsame]

/-- A variable has a value under a subscript that gives some numbers if and only if all of these are
    places of its value, and then it has what stands there.  So under the row of all its places it
    has its whole value; this row can be written out unless the value has no elements.  Where a
    value is subscripted by `places`, and what comes of it, in a variable, by `more`, the value
    subscripted by that part of `places` that `more` gives comes to the same. -/
theorem subscript_gathers (ctx : Context) :
    (∀ location isGlobal name subscript m m₁ v places,
      (m.stack.owner isGlobal).vars.get? name = some v →
      ctx.Evaluates subscript m (some (.ints places)) m₁ →
      ((∃ w m', ctx.Evaluates (.var location isGlobal name (some subscript)) m w m') ↔
        ∀ i ∈ places, 1 ≤ i ∧ i ≤ v.length) ∧
      ∀ w m', ctx.Evaluates (.var location isGlobal name (some subscript)) m w m' →
        m' = m₁ ∧ ∃ u, w = some u ∧ v.Gathers places u) ∧
    (∀ location isGlobal name m v, (m.stack.owner isGlobal).vars.get? name = some v →
      (∀ subscript m₁, ctx.Evaluates subscript m (some (.ints v.places)) m₁ →
        ctx.Evaluates (.var location isGlobal name (some subscript)) m (some v) m₁) ∧
      ∀ inner (locations : Int → Location), v.length ≠ 0 →
        ctx.Evaluates (.var location isGlobal name
          (some (.vector inner (v.places.map fun i => .int (locations i) i)))) m (some v) m) ∧
    ∀ v places w more u, ctx.Subscripts v places w → ctx.Subscripts w more u →
      ∀ location isGlobal name inner isGlobal' name' subscript m m₁,
        (m.stack.owner isGlobal).vars.get? name = some v →
        (m.stack.owner isGlobal').vars.get? name' = some (.ints places) →
        ctx.Evaluates subscript m (some (.ints more)) m₁ →
        ctx.Evaluates (.var location isGlobal name
          (some (.var inner isGlobal' name' (some subscript)))) m (some u) m₁ := by
  refine ⟨?_, ?_, ?_⟩
  · intro location isGlobal name subscript m m₁ v places hv hplaces
    simp only [evaluates_select_iff hv hplaces]
    rw [← Value.select?_isSome_iff, Option.isSome_iff_exists]
    constructor
    · constructor
      · rintro ⟨w, m', u, hu, -, -⟩
        exact ⟨u, hu⟩
      · rintro ⟨u, hu⟩
        exact ⟨some u, m₁, u, hu, rfl, rfl⟩
    · rintro w m' ⟨u, hu, rfl, rfl⟩
      exact ⟨rfl, u, rfl, Value.gathers_of_select? hu⟩
  · intro location isGlobal name m v hv
    have hwhole {subscript : Node} {m₁ : Machine}
        (hplaces : ctx.Evaluates subscript m (some (.ints v.places)) m₁) :
        ctx.Evaluates (.var location isGlobal name (some subscript)) m (some v) m₁ :=
      (evaluates_select_iff hv hplaces).mpr ⟨v, v.select?_places, rfl, rfl⟩
    refine ⟨fun subscript m₁ => hwhole, fun inner locations hlength => hwhole ?_⟩
    have hne : v.places ≠ [] := by
      simpa [Value.places] using hlength
    exact evaluates_numbers hne ctx inner locations m
  · intro v places w more u hw hu location isGlobal name inner isGlobal' name' subscript m m₁
      hv hplaces hmore
    obtain ⟨is, his, hselect⟩ :=
      (Value.select?_select? (select?_of_subscripts hw)).mp (select?_of_subscripts hu)
    -- `is` is the part of the inner variable, whose value is the row `places`
    have hpicked : (Value.ints places).select? more = some (.ints is) := by
      rw [Value.select?, his, Option.map_some]
    have hinner : ctx.Evaluates (.var inner isGlobal' name' (some subscript)) m
        (some (.ints is)) m₁ :=
      (evaluates_select_iff hplaces hmore).mpr ⟨_, hpicked, rfl, rfl⟩
    exact (evaluates_select_iff hv hinner).mpr ⟨u, hselect, rfl, rfl⟩

/-- The value of a local variable. -/
def readLocal (name : String) : Node := .var copierCall.location false name none

/-- A local variable under a subscript. -/
def readPart (name : String) (subscript : Node) : Node :=
  .var copierCall.location false name (some subscript)

/-- A state with a text, a row of places in it, and a row of places in that row. -/
def subscriptable : Machine :=
  ((copyingOpened.written false "A" (some (.text "abc"))).written false "S"
    (some (.ints [3, 1]))).written false "T" (some (.ints [2, 2, 1]))

theorem subscript_gathers_text :
    (∃ m, Context.Evaluates ⟨copyingTable, false⟩
        (.assign copierCall.location false "B" (some (readPart "A" (readLocal "S")))) subscriptable
        (some (.text "ca")) m ∧
      Context.Evaluates ⟨copyingTable, false⟩ (readPart "B" (readLocal "T")) m
        (some (.text "aac")) m) ∧
    Context.Evaluates ⟨copyingTable, false⟩ (readPart "A" (readPart "S" (readLocal "T")))
      subscriptable (some (.text "aac")) subscriptable ∧
    Context.Evaluates ⟨copyingTable, false⟩
      (readPart "A" (.vector copierCall.location
        ([1, 2, 3].map fun i => .int copierCall.location i))) subscriptable
      (some (.text "abc")) subscriptable ∧
    ¬ ∃ v m, Context.Evaluates ⟨copyingTable, false⟩
      (readPart "A" (.int copierCall.location (-1))) subscriptable v m := by
  obtain ⟨hplaces, hwhole, hcomposed⟩ := subscript_gathers ⟨copyingTable, false⟩
  -- the text, its part at the places, and the part of that at the others
  have hA : (subscriptable.stack.owner false).vars.get? "A" = some (.text "abc") := by rfl
  have hS : (subscriptable.stack.owner false).vars.get? "S" = some (.ints [3, 1]) := by rfl
  have hT : Context.Evaluates ⟨copyingTable, false⟩ (readLocal "T") subscriptable
      (some (.ints [2, 2, 1])) subscriptable := ⟨1, rfl⟩
  obtain ⟨m, hassign, hB, hT', hpart⟩ : ∃ m, Context.Evaluates ⟨copyingTable, false⟩
        (.assign copierCall.location false "B" (some (readPart "A" (readLocal "S")))) subscriptable
        (some (.text "ca")) m ∧
      (m.stack.owner false).vars.get? "B" = some (.text "ca") ∧
      Context.Evaluates ⟨copyingTable, false⟩ (readLocal "T") m (some (.ints [2, 2, 1])) m ∧
      Context.Evaluates ⟨copyingTable, false⟩ (readPart "B" (readLocal "T")) m
        (some (.text "aac")) m :=
    ⟨_, ⟨4, rfl⟩, rfl, ⟨1, rfl⟩, 3, rfl⟩
  have hfirst : Context.Subscripts ⟨copyingTable, false⟩ (.text "abc") [3, 1] (.text "ca") :=
    ⟨copierCall.location, false, "A", readLocal "S", subscriptable, subscriptable, hA, ⟨1, rfl⟩,
      3, rfl⟩
  have hsecond : Context.Subscripts ⟨copyingTable, false⟩ (.text "ca") [2, 2, 1] (.text "aac") :=
    ⟨copierCall.location, false, "B", readLocal "T", m, m, hB, hT', hpart⟩
  have hne : (Value.text "abc").length ≠ 0 := by decide
  have hminus : Context.Evaluates ⟨copyingTable, false⟩ (.int copierCall.location (-1))
      subscriptable (some (.ints [-1])) subscriptable := ⟨1, rfl⟩
  refine ⟨⟨m, hassign, hpart⟩, ?_, ?_, fun hends => ?_⟩
  · exact hcomposed _ _ _ _ _ hfirst hsecond _ _ _ _ _ _ _ _ _ hA hS hT
  · exact (hwhole _ _ _ _ _ hA).2 copierCall.location (fun _ => copierCall.location) hne
  · have hpos := (hplaces _ _ _ _ _ _ _ _ hA hminus).1.mp hends (-1) (List.mem_singleton.mpr rfl)
    omega

end VectorLang
