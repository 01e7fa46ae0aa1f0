import VectorLang.Value

/-!
# Bindings

The variables of a frame with their values, in the order in which they were first bound.
A new value keeps the place of the old one; a name that was removed is bound anew at the
end.

* `get?_set`     what is bound after a name was given a value
* `get?_erase`   what is bound after a name was removed
-/

namespace VectorLang

/-- Names with their values. -/
structure Bindings where
  /-- The names with their values, in order. -/
  entries : List (String × Value)
deriving DecidableEq, Inhabited

namespace Bindings

/-- No names. -/
def empty : Bindings := ⟨[]⟩

/-- The value of a name. -/
def get? (b : Bindings) (name : String) : Option Value :=
  b.entries.lookup name

/-- The entries after a name was given a value. -/
def setEntries (name : String) (v : Value) : List (String × Value) → List (String × Value)
  | [] => [(name, v)]
  | (n, w) :: entries =>
    if name = n then (n, v) :: entries else (n, w) :: setEntries name v entries

/-- Gives a name a value. -/
def set (b : Bindings) (name : String) (v : Value) : Bindings :=
  ⟨setEntries name v b.entries⟩

/-- Removes a name. -/
def erase (b : Bindings) (name : String) : Bindings :=
  ⟨b.entries.filter fun (n, _) => n != name⟩

@[simp] theorem get?_empty (name : String) : empty.get? name = none := rfl

theorem get?_set (b : Bindings) (name other : String) (v : Value) :
    (b.set name v).get? other = if other = name then some v else b.get? other := by
  obtain ⟨entries⟩ := b
  simp only [get?, set]
  induction entries with
  | nil =>
    by_cases h : other = name
    · simp [setEntries, h]
    · have hb : (other == name) = false := by simpa using h
      simp [setEntries, List.lookup_cons, h, hb]
  | cons entry entries ih =>
    obtain ⟨n, w⟩ := entry
    by_cases hn : name = n
    · subst hn
      by_cases h : other = name
      · simp [setEntries, h]
      · have hb : (other == name) = false := by simpa using h
        simp [setEntries, List.lookup_cons, h, hb]
    · by_cases h : other = n
      · have hne : ¬ n = name := fun h' => hn h'.symm
        simp [setEntries, hn, h, hne]
      · have hb : (other == n) = false := by simpa using h
        simpa [setEntries, List.lookup_cons, hn, hb] using ih

theorem get?_erase (b : Bindings) (name other : String) :
    (b.erase name).get? other = if other = name then none else b.get? other := by
  obtain ⟨entries⟩ := b
  simp only [get?, erase]
  induction entries with
  | nil => simp
  | cons entry entries ih =>
    obtain ⟨n, w⟩ := entry
    by_cases hn : n = name
    · subst hn
      by_cases h : other = n
      · simpa [h] using ih
      · have hb : (other == n) = false := by simpa using h
        simpa [List.lookup_cons, h, hb] using ih
    · by_cases h : other = n
      · subst h
        simp [hn]
      · have hb : (other == n) = false := by simpa using h
        simpa [List.lookup_cons, hn, hb] using ih

end Bindings

end VectorLang
