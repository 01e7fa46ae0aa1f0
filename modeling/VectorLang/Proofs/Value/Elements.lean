import Mathlib
import VectorLang.Proofs.Value.Proper

/-!
# The elements of a value

A vector is a row of numbers and a text is a row of characters, and a value is told by its type
together with its row.  So both kinds of values are joined, and subscripted, in one way: joined
values have the elements of all of them, and a subscript picks the elements at its places.

* `join?_eq_some_iff`     the elements of joined values
* `join?_append_iff`      values that are joined in groups
* `select?_eq_some_iff`   the elements that a subscript picks
* `select?_isSome_iff`    which subscripts do
* `select?_places`        all places in order
* `select?_select?`       a subscript after another one
-/

namespace VectorLang

namespace Value

/-- An element of a value. -/
inductive Element where
  /-- A number of a vector. -/
  | number (i : Int)
  /-- A character of a text. -/
  | character (c : Char)
deriving DecidableEq

/-- The elements of a value in order. -/
def elements : Value → List Element
  | ints xs => xs.map .number
  | text s => s.toList.map .character

theorem number_injective : Function.Injective Element.number :=
  fun _ _ => Element.number.inj

theorem character_injective : Function.Injective Element.character :=
  fun _ _ => Element.character.inj

@[simp] theorem length_elements (v : Value) : v.elements.length = v.length := by
  cases v with
  | ints xs => exact List.length_map _
  | text s => rw [elements, List.length_map, String.length_toList, length]

variable {v w u : Value}

/-- Two values of one type are two vectors or two texts. -/
theorem cases_of_typeName (h : v.typeName = w.typeName) :
    (∃ xs ys, v = ints xs ∧ w = ints ys) ∨ ∃ s t, v = text s ∧ w = text t := by
  have hne : "INT" ≠ "STR" := by decide
  cases v with
  | ints xs =>
    cases w with
    | ints ys => exact Or.inl ⟨xs, ys, rfl, rfl⟩
    | text t => exact absurd h hne
  | text s =>
    cases w with
    | ints ys => exact absurd h.symm hne
    | text t => exact Or.inr ⟨s, t, rfl, rfl⟩

theorem eq_of_elements (htype : v.typeName = w.typeName) (h : v.elements = w.elements) : v = w := by
  rcases cases_of_typeName htype with ⟨xs, ys, rfl, rfl⟩ | ⟨s, t, rfl, rfl⟩
  · rw [number_injective.list_map h]
  · rw [String.toList_inj.mp (character_injective.list_map h)]

/-! ## Joining -/

/-- Two values of one type joined. -/
def append? : Value → Value → Option Value
  | ints xs, ints ys => some (ints (xs ++ ys))
  | text s, text t => some (text (s ++ t))
  | _, _ => none

theorem append?_eq_some (h : v.append? w = some u) :
    v.typeName = u.typeName ∧ w.typeName = u.typeName ∧
      v.elements ++ w.elements = u.elements := by
  cases v with
  | ints xs =>
    cases w with
    | ints ys =>
      cases h
      exact ⟨rfl, rfl, by simp [elements]⟩
    | text t => cases h
  | text s =>
    cases w with
    | ints ys => cases h
    | text t =>
      cases h
      exact ⟨rfl, rfl, by simp [elements]⟩

theorem exists_append? (h : v.typeName = w.typeName) : ∃ u, v.append? w = some u := by
  rcases cases_of_typeName h with ⟨xs, ys, rfl, rfl⟩ | ⟨s, t, rfl, rfl⟩
  · exact ⟨_, rfl⟩
  · exact ⟨_, rfl⟩

theorem append?_eq_some_iff :
    v.append? w = some u ↔
      v.typeName = u.typeName ∧ w.typeName = u.typeName ∧
        v.elements ++ w.elements = u.elements := by
  constructor
  · exact append?_eq_some
  · rintro ⟨hv, hw, h⟩
    obtain ⟨u', hu'⟩ := exists_append? (hv.trans hw.symm)
    obtain ⟨hv', -, h'⟩ := append?_eq_some hu'
    rw [hu', eq_of_elements (hv'.symm.trans hv) (h'.symm.trans h)]

theorem join?_singleton (v : Value) : join? [v] = some v := by
  cases v with
  | ints xs => simp [join?, intsOf?]
  | text s => simp [join?, textOf?]

/-- The first of several values is joined to the others. -/
theorem join?_cons_cons (v w : Value) (values : List Value) :
    join? (v :: w :: values) = (join? (w :: values)).bind v.append? := by
  cases v with
  | ints xs =>
    cases w with
    | ints ys =>
      simp only [join?, intsOf?, Option.map_map, Option.bind_map]
      cases intsOf? values <;> rfl
    | text t =>
      simp only [join?, intsOf?, textOf?, Option.map_map, Option.bind_map]
      cases textOf? values <;> rfl
  | text s =>
    cases w with
    | ints ys =>
      simp only [join?, intsOf?, textOf?, Option.map_map, Option.bind_map]
      cases intsOf? values <;> rfl
    | text t =>
      simp only [join?, textOf?, Option.map_map, Option.bind_map]
      cases textOf? values <;> rfl

/-- Values of one type have their elements together in one value. -/
theorem exists_flatMap_elements {values : List Value} (h : ∀ u ∈ values, u.typeName = w.typeName) :
    ∃ v : Value, v.typeName = w.typeName ∧ values.flatMap elements = v.elements := by
  induction values with
  | nil =>
    cases w with
    | ints ys => exact ⟨ints [], rfl, rfl⟩
    | text t => exact ⟨text "", rfl, rfl⟩
  | cons first values ih =>
    obtain ⟨hfirst, hvalues⟩ := List.forall_mem_cons.mp h
    obtain ⟨v, hv, hrow⟩ := ih hvalues
    obtain ⟨u, hu⟩ := exists_append? (hfirst.trans hv.symm)
    obtain ⟨htype, -, hjoined⟩ := append?_eq_some hu
    refine ⟨u, htype.symm.trans hfirst, ?_⟩
    rw [List.flatMap_cons, hrow, hjoined]

/-- Values are joined if there is one and they have one type; the result has the elements of
    all of them. -/
theorem join?_eq_some_iff {values : List Value} :
    join? values = some w ↔
      values ≠ [] ∧ (∀ v ∈ values, v.typeName = w.typeName) ∧
        values.flatMap elements = w.elements := by
  induction values generalizing w with
  | nil => simp [join?]
  | cons v values ih =>
    cases values with
    | nil =>
      rw [join?_singleton, Option.some.injEq]
      constructor
      · rintro rfl
        simp
      · rintro ⟨-, htype, hrow⟩
        rw [List.flatMap_singleton] at hrow
        exact eq_of_elements (htype v List.mem_cons_self) hrow
    | cons v' values =>
      rw [join?_cons_cons, Option.bind_eq_some_iff]
      constructor
      · rintro ⟨u, hu, hw⟩
        obtain ⟨-, htypes, hrow⟩ := ih.mp hu
        obtain ⟨hv, hu, hjoined⟩ := append?_eq_some hw
        refine ⟨List.cons_ne_nil v _, List.forall_mem_cons.mpr ⟨hv, fun x hx => ?_⟩, ?_⟩
        · exact (htypes x hx).trans hu
        · rw [List.flatMap_cons, hrow, hjoined]
      · rintro ⟨-, htypes, hrow⟩
        obtain ⟨hv, htypes⟩ := List.forall_mem_cons.mp htypes
        -- the values after the first are of one type, so there is a value that has their elements
        obtain ⟨u, hu, hrest⟩ := exists_flatMap_elements htypes
        refine ⟨u, ih.mpr ⟨List.cons_ne_nil v' _, fun x hx => ?_, hrest⟩, ?_⟩
        · exact (htypes x hx).trans hu.symm
        · rw [List.flatMap_cons, hrest] at hrow
          exact append?_eq_some_iff.mpr ⟨hv, hu, hrow⟩

/-- Values may be joined in groups: those of one group first, and then what comes of it with the
    values around it. -/
theorem join?_append_iff {us vs ws : List Value} (hvs : vs ≠ []) :
    join? (us ++ vs ++ ws) = some w ↔
      ∃ v, join? vs = some v ∧ join? (us ++ v :: ws) = some w := by
  simp only [join?_eq_some_iff, List.flatMap_append, List.flatMap_cons, List.mem_append,
    List.mem_cons]
  constructor
  · rintro ⟨-, htypes, hrow⟩
    -- the type of the whole is that of the group, which makes a value of its own
    obtain ⟨v, hv, hgroup⟩ := exists_flatMap_elements fun u hu => htypes u (.inl (.inr hu))
    refine ⟨v, ⟨hvs, fun u hu => ?_, hgroup⟩, by simp, ?_, ?_⟩
    · exact (htypes u (.inl (.inr hu))).trans hv.symm
    · rintro u (hu | rfl | hu)
      · exact htypes u (.inl (.inl hu))
      · exact hv
      · exact htypes u (.inr hu)
    · rw [← hgroup, ← List.append_assoc, hrow]
  · rintro ⟨v, ⟨-, hgroup, hv⟩, -, htypes, hrow⟩
    refine ⟨by simp [hvs], ?_, ?_⟩
    · rintro u ((hu | hu) | hu)
      · exact htypes u (.inl hu)
      · exact (hgroup u hu).trans (htypes v (.inr (.inl rfl)))
      · exact htypes u (.inr (.inr hu))
    · rw [hv, List.append_assoc, hrow]

/-- Joined values are as long as all of them together. -/
theorem length_join? {values : List Value} (h : join? values = some w) :
    w.length = (values.map length).sum := by
  obtain ⟨-, -, hrow⟩ := join?_eq_some_iff.mp h
  rw [← length_elements, ← hrow, List.length_flatMap]
  simp only [length_elements]

/-! ## Subscripts -/

section

variable {α β : Type}

/-- The element of a row at a place, counted from 1. -/
def placed? (row : List α) (i : Int) : Option α :=
  if 1 ≤ i then row[i.toNat - 1]? else none

theorem placed?_map (f : α → β) (row : List α) (i : Int) :
    placed? (row.map f) i = (placed? row i).map f := by
  rw [placed?, placed?, List.getElem?_map]
  split <;> rfl

theorem placed?_isSome_iff {row : List α} {i : Int} :
    (placed? row i).isSome ↔ 1 ≤ i ∧ i ≤ row.length := by
  rw [placed?]
  split
  · rw [isSome_getElem?]
    omega
  · simp_all

/-- Picking from a row is to look at each place. -/
theorem gather?_eq (row : List α) (places : List Int) :
    gather? row places = places.mapM (placed? row) := by
  simp only [gather?, List.getElem?_toArray]
  rfl

theorem gather?_isSome_iff {row : List α} {places : List Int} :
    (gather? row places).isSome ↔ ∀ i ∈ places, 1 ≤ i ∧ i ≤ row.length := by
  simp only [← placed?_isSome_iff, ← Option.ne_none_iff_isSome, ne_eq, gather?_eq,
    mapM_eq_none_iff, not_exists, not_and]

theorem gather?_map {f : α → β} (hf : Function.Injective f) {row picked : List α}
    {places : List Int} :
    gather? (row.map f) places = some (picked.map f) ↔ gather? row places = some picked := by
  -- both rows of results are images under `f`, which is taken off at the end
  have hplaced : placed? (row.map f) = Option.map f ∘ placed? row :=
    funext fun i => placed?_map f row i
  have hsome : some ∘ f = Option.map f ∘ some := rfl
  rw [gather?_eq, gather?_eq, mapM_eq_some_iff, mapM_eq_some_iff, hplaced, List.map_map, hsome,
    ← List.map_map, ← List.map_map]
  exact (Option.map_injective hf).list_map.eq_iff

/-- An element of what is picked is the element at one of the places. -/
theorem placed?_of_gather? {row picked : List α} {places : List Int}
    (h : gather? row places = some picked) (i : Int) :
    placed? picked i = (placed? places i).bind (placed? row) := by
  rw [gather?_eq, mapM_eq_some_iff] at h
  rw [placed?, placed?]
  split
  · -- what `h` says of the whole rows, at this place
    have hi := congrArg (fun l => l[i.toNat - 1]?) h
    simp only [List.getElem?_map] at hi
    cases hplace : places[i.toNat - 1]? with
    | none =>
      rw [hplace, Option.map_none, eq_comm, Option.map_eq_none_iff] at hi
      rw [hi, Option.bind_none]
    | some j =>
      rw [hplace, Option.map_some] at hi
      obtain ⟨a, ha, hj⟩ := Option.map_eq_some_iff.mp hi.symm
      rw [ha, Option.bind_some, ← hj]
  · rfl

/-- To pick from what was picked is to pick at the places that are picked from the places. -/
theorem gather?_gather? {row picked : List α} {places : List Int}
    (h : gather? row places = some picked) (more : List Int) :
    gather? picked more = (gather? places more).bind (gather? row) := by
  have hplaced : placed? picked = fun i => (placed? places i).bind (placed? row) :=
    funext (placed?_of_gather? h)
  have hrow : gather? row = fun places => places.mapM (placed? row) := funext (gather?_eq row)
  rw [gather?_eq, gather?_eq, hplaced, hrow, mapM_bind]

end

/-- A subscript gives a value of the same type, with the elements at its places. -/
theorem select?_eq_some_iff {places : List Int} :
    v.select? places = some w ↔
      w.typeName = v.typeName ∧ gather? v.elements places = some w.elements := by
  constructor
  · intro h
    cases v with
    | ints xs =>
      obtain ⟨picked, hpicked, rfl⟩ := Option.map_eq_some_iff.mp h
      exact ⟨rfl, (gather?_map number_injective).mpr hpicked⟩
    | text s =>
      obtain ⟨picked, hpicked, rfl⟩ := Option.map_eq_some_iff.mp h
      refine ⟨rfl, ?_⟩
      rw [Function.comp_apply, elements, elements, String.toList_ofList]
      exact (gather?_map character_injective).mpr hpicked
  · rintro ⟨htype, h⟩
    rcases cases_of_typeName htype.symm with ⟨xs, ys, rfl, rfl⟩ | ⟨s, t, rfl, rfl⟩
    · exact congrArg (Option.map ints) ((gather?_map number_injective).mp h)
    · rw [select?, (gather?_map character_injective).mp h]
      simp

/-- A subscript picks something if all its places are places of the value. -/
theorem select?_isSome_iff {places : List Int} :
    (v.select? places).isSome ↔ ∀ i ∈ places, 1 ≤ i ∧ i ≤ v.length := by
  cases v with
  | ints xs =>
    rw [select?, Option.isSome_map]
    exact gather?_isSome_iff
  | text s =>
    rw [select?, Option.isSome_map, gather?_isSome_iff, String.length_toList]
    rfl

/-- Whether a value is what stands at some places of another one: it has the type of that one, an
    element for each place, and that element stands there. -/
structure Gathers (v : Value) (places : List Int) (w : Value) : Prop where
  typeName : w.typeName = v.typeName
  length : w.length = places.length
  elements : ∀ (k : Nat) (i : Int), places[k]? = some i →
    1 ≤ i ∧ i ≤ v.length ∧ w.elements[k]? = v.elements[(i - 1).toNat]?

theorem gathers_of_select? {places : List Int} (h : v.select? places = some w) :
    v.Gathers places w := by
  obtain ⟨htype, hrow⟩ := select?_eq_some_iff.mp h
  have hplaces : ∀ i ∈ places, 1 ≤ i ∧ i ≤ v.length :=
    select?_isSome_iff.mp (Option.isSome_of_eq_some h)
  refine ⟨htype, ?_, fun k i hi => ?_⟩
  · rw [← length_elements, length_gather? hrow]
  · rw [gather?_eq, mapM_eq_some_iff] at hrow
    obtain ⟨hpos, hle⟩ := hplaces i (List.mem_of_getElem? hi)
    have hk := congrArg (fun l => l[k]?) hrow
    have hplace : (i - 1).toNat = i.toNat - 1 := by omega
    simp only [List.getElem?_map, hi, Option.map_some, placed?, if_pos hpos] at hk
    obtain ⟨a, ha, hplaced⟩ := Option.map_eq_some_iff.mp hk.symm
    exact ⟨hpos, hle, by rw [ha, hplace, hplaced]⟩

/-- The places of a value in order. -/
def places (v : Value) : List Int :=
  (List.range' 1 v.length).map Int.ofNat

/-- All places in order pick the whole value. -/
theorem select?_places (v : Value) : v.select? v.places = some v := by
  rw [select?_eq_some_iff, gather?_eq, mapM_eq_some_iff]
  refine ⟨rfl, List.ext_getElem (by simp [places]) fun k hk hk' => ?_⟩
  have hlt : k < v.elements.length := by simpa using hk'
  have hplace : (1 + 1 * k) - 1 = k := by omega
  simp only [places, List.getElem_map, List.getElem_range', Int.ofNat_eq_natCast]
  rw [placed?, if_pos (by omega), Int.toNat_natCast, hplace, List.getElem?_eq_getElem hlt]

/-- A subscript after another one picks what the places do that it picks from those of the
    other. -/
theorem select?_select? {places more : List Int} (h : v.select? places = some w) :
    w.select? more = some u ↔
      ∃ inner, gather? places more = some inner ∧ v.select? inner = some u := by
  obtain ⟨htype, hrow⟩ := select?_eq_some_iff.mp h
  simp only [select?_eq_some_iff, gather?_gather? hrow, Option.bind_eq_some_iff, htype]
  constructor
  · rintro ⟨hu, inner, hinner, hpicked⟩
    exact ⟨inner, hinner, hu, hpicked⟩
  · rintro ⟨inner, hinner, hu, hpicked⟩
    exact ⟨hu, inner, hinner, hpicked⟩

end Value

end VectorLang
