import VectorLang.Proofs.Grammar.Rules

/-!
# What can be completed

Every symbol of the grammar derives some row.  So a row that derives the first part of a rule can
be completed to one that derives the whole rule, however far the reading of the rule has come.

* `productive_symbol`   every symbol derives a row
-/

namespace VectorLang

open Ebnf Grammar

/-- Whether an expression derives some row. -/
def Productive (r : Ebnf Nonterminal) : Prop :=
  ∃ w, Derives restricted r w

section

variable {a b r : Ebnf Nonterminal} {w : List Kind}

@[simp] theorem productive_token (k : Kind) : Productive (.token k) := ⟨[k], .token k⟩

@[simp] theorem productive_many : Productive (.many r) := ⟨[], .manyNil⟩

@[simp] theorem productive_opt : Productive (.opt r) := ⟨[], .optNone⟩

@[simp] theorem productive_append : Productive (a ++ b) ↔ Productive a ∧ Productive b := by
  constructor
  · rintro ⟨w, h⟩
    obtain ⟨u, v, -, hu, hv⟩ := Derives.append_iff.mp h
    exact ⟨⟨u, hu⟩, ⟨v, hv⟩⟩
  · rintro ⟨⟨u, hu⟩, ⟨v, hv⟩⟩
    exact ⟨u ++ v, hu.append hv⟩

@[simp] theorem productive_or : Productive (a ||| b) ↔ Productive a ∨ Productive b := by
  constructor
  · rintro ⟨w, h⟩
    exact (Derives.or_iff.mp h).imp (⟨w, ·⟩) (⟨w, ·⟩)
  · rintro (⟨w, h⟩ | ⟨w, h⟩)
    · exact ⟨w, h.inl⟩
    · exact ⟨w, h.inr⟩

private theorem productive_of_rule {s : Nonterminal} (h : Productive (restricted s)) :
    Productive (.symbol s) :=
  h.imp fun _ => .symbol

/-! ## Symbols -/

/-- An element alone is an expression, if it does not start with a parenthesis. -/
theorem Derives.expression_of_element (h : Derives restricted (.symbol .element) w)
    (hw : w.head? ≠ some .lparen) : Derives restricted (.symbol .expression) w := by
  have hvector : Derives restricted (.symbol .vector) w :=
    .symbol ((h.append .manyNil).congr (List.append_nil w))
  have hfactor : Derives restricted (.symbol .factor) w := .symbol (.inr (.guarded hvector hw))
  have hterm : Derives restricted (.symbol .term) w :=
    .symbol ((hfactor.append .manyNil).congr (List.append_nil w))
  exact .symbol ((hterm.append .manyNil).congr (List.append_nil w))

/-- Every symbol derives a row. -/
@[simp] theorem productive_symbol (s : Nonterminal) : Productive (.symbol s) := by
  -- the parts of an expression first, from the smallest one on, and then the statements
  have hint : Derives restricted (.symbol .element) [.int] :=
    .symbol (.inl (.inl (.inl (.inl (.token .int)))))
  have helement : Productive (.symbol .element) := ⟨_, hint⟩
  have hvector : Productive (.symbol .vector) :=
    productive_of_rule (by simp [restricted, documented, helement])
  have hexpression : Productive (.symbol .expression) := ⟨_, hint.expression_of_element (by decide)⟩
  have hfactor : Productive (.symbol .factor) :=
    productive_of_rule (by simp [restricted, hvector])
  have hcomparison : Productive (.symbol .comparison) :=
    productive_of_rule (by simp [restricted, documented, relation, hexpression])
  have hstatement (functions : Bool) : Productive (.symbol (.statement functions)) := by
    refine productive_of_rule ?_
    cases functions <;> simp [restricted, documented, hexpression]
  have hstatements (functions : Bool) : Productive (.symbol (.statements functions)) :=
    productive_of_rule (by simp [restricted, documented, hstatement])
  cases s with
  | element => exact helement
  | vector => exact hvector
  | expression => exact hexpression
  | factor => exact hfactor
  | comparison => exact hcomparison
  | statement functions => exact hstatement functions
  | statements functions => exact hstatements functions
  | _ => exact productive_of_rule (by simp [restricted, documented, *])

/-- Three expressions one after the other, however they are put together. -/
theorem Derives.assoc {c : Ebnf Nonterminal} (h : Derives restricted (a ++ (b ++ c)) w) :
    Derives restricted (a ++ b ++ c) w := by
  obtain ⟨u, v, rfl, hu, hv⟩ := Derives.append_iff.mp h
  obtain ⟨v, x, rfl, hv, hx⟩ := Derives.append_iff.mp hv
  exact ((hu.append hv).append hx).congr (List.append_assoc u v x)

/-- An expression that may be left out is left out. -/
theorem Derives.skip (h : Derives restricted b w) : Derives restricted (.opt a ++ b) w :=
  Derives.append (u := []) .optNone h

/-- An expression that may be left out is not left out. -/
theorem Derives.take (h : Derives restricted (a ++ b) w) :
    Derives restricted (.opt a ++ b) w := by
  obtain ⟨u, v, rfl, hu, hv⟩ := Derives.append_iff.mp h
  exact .append (.optSome hu) hv

/-- A repetition starts with an item. -/
theorem Derives.repeated (h : Derives restricted (a ++ .many a) w) :
    Derives restricted (.many a) w := by
  obtain ⟨u, v, rfl, hu, hv⟩ := Derives.append_iff.mp h
  exact .manyCons hu hv

end

end VectorLang
