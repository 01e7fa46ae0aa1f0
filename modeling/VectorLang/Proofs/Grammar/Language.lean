import Mathlib
import VectorLang.Proofs.Grammar.Derived
import VectorLang.Proofs.Grammar.Readable
import VectorLang.Proofs.Reading.Text

/-!
# The language of the parser

Which texts are programs, in terms of the grammars.

* `parse_isOk_iff_exact`        the parser accepts the language of the exact grammar
* `parse_isOk_iff_restricted`   on admissible tokens it accepts those that the documented
    grammar derives without a factor that is a vector and starts with a parenthesis
-/

namespace VectorLang

open Ebnf Grammar

/-- The parser accepts a text if its tokens are admissible and derived by the grammar in
    which a factor that starts with a parenthesis ends where that parenthesis is closed. -/
theorem parse_isOk_iff_exact (text file : String) :
    (∃ p, parse text file = .ok p) ↔
      ∃ ts, tokenize text = .ok ts ∧ Admissible ts ∧
        Derives exact (symbol Nonterminal.program) (ts.map Token.kind) := by
  constructor
  · rintro ⟨p, hp⟩
    obtain ⟨ts, htext, hr⟩ := parse_eq_ok_iff.mp hp
    exact ⟨ts, htext, hr.admissible, hr.derives⟩
  · rintro ⟨ts, htext, hts, h⟩
    obtain ⟨p, hr⟩ := reads_of_derives h.restricted_of_exact hts
    exact ⟨p, parse_eq_ok_iff.mpr ⟨ts, htext, hr⟩⟩

/-- The parser accepts no more than the documented grammar derives, and of that just what is
    derived without a factor that is a vector and starts with a parenthesis. -/
theorem parse_isOk_iff_restricted {text : String} {ts : List Token} (file : String)
    (htext : tokenize text = .ok ts) (hts : Admissible ts) :
    ((∃ p, parse text file = .ok p) →
      Derives documented (symbol Nonterminal.program) (ts.map Token.kind)) ∧
    ((∃ p, parse text file = .ok p) ↔
      Derives restricted (symbol Nonterminal.program) (ts.map Token.kind)) := by
  have hiff : (∃ p, parse text file = .ok p) ↔
      Derives restricted (symbol Nonterminal.program) (ts.map Token.kind) := by
    constructor
    · rintro ⟨p, hp⟩
      obtain ⟨ts', htext', hr⟩ := parse_eq_ok_iff.mp hp
      obtain rfl : ts' = ts := Except.ok.inj (htext'.symm.trans htext)
      exact hr.derives.restricted_of_exact
    · intro h
      obtain ⟨p, hr⟩ := reads_of_derives h hts
      exact ⟨p, parse_eq_ok_iff.mpr ⟨ts, htext, hr⟩⟩
  exact ⟨fun h => (hiff.mp h).documented_of_restricted, hiff⟩

/-! ## A vector that starts with a parenthesis -/

private theorem expression_of_vector {w : List Kind}
    (h : Derives documented (symbol Nonterminal.vector) w) :
    Derives documented (symbol Nonterminal.expression) w := by
  have hfactor : Derives documented (symbol Nonterminal.factor) w := .symbol (.inr h)
  have hterm : Derives documented (symbol Nonterminal.term) w :=
    .symbol ((hfactor.append .manyNil).congr (List.append_nil w))
  exact .symbol ((hterm.append .manyNil).congr (List.append_nil w))

private theorem element_int : Derives documented (symbol Nonterminal.element) [.int] :=
  .symbol (.inl (.inl (.inl (.inl (.token .int)))))

/-- The expression `(1) 2`. -/
private theorem derives_paren_int :
    Derives documented (symbol Nonterminal.expression) [.lparen, .int, .rparen, .int] := by
  have hint : Derives documented (symbol Nonterminal.expression) [.int] :=
    expression_of_vector (.symbol (element_int.append .manyNil))
  have hfactor : Derives documented (symbol Nonterminal.factor) [.lparen, .int, .rparen] :=
    .symbol (.inl (.inr ((Derives.cons .lparen hint).append (.token .rparen))))
  have helement : Derives documented (symbol Nonterminal.element) [.lparen, .int, .rparen] :=
    .symbol (.inr hfactor)
  exact expression_of_vector (.symbol (helement.append (.manyCons element_int .manyNil)))

/-- The tokens of a program whose statement is `(1) 2`. -/
def parenVector : List Token :=
  [⟨.kwBegin, "BEGIN", 1, 1⟩, ⟨.ident, "P", 1, 7⟩, ⟨.newline, "\n", 1, 8⟩,
    ⟨.lparen, "(", 2, 1⟩, ⟨.int, "1", 2, 2⟩, ⟨.rparen, ")", 2, 3⟩, ⟨.int, "2", 2, 5⟩,
    ⟨.newline, "\n", 2, 6⟩, ⟨.kwEnd, "END", 3, 1⟩, ⟨.eof, "", 3, 4⟩]

/-- The documented grammar derives a vector that starts with a parenthesis as a statement,
    and the parser rejects it. -/
theorem documented_vector_rejected :
    tokenize "BEGIN P\n(1) 2\nEND" = .ok parenVector ∧ Admissible parenVector ∧
      Derives documented (symbol Nonterminal.program) (parenVector.map Token.kind) ∧
      ¬ Derives restricted (symbol Nonterminal.program) (parenVector.map Token.kind) ∧
      ¬ ∃ p, parse "BEGIN P\n(1) 2\nEND" "<string>" = .ok p := by
  have htext : tokenize "BEGIN P\n(1) 2\nEND" = .ok parenVector := by cbv
  have hts : Admissible parenVector := ⟨by decide, by decide⟩
  have hrejected : ¬ ∃ p, parse "BEGIN P\n(1) 2\nEND" "<string>" = .ok p := by
    rintro ⟨p, hp⟩
    -- the parser is run on the text
    have hnone : (parse "BEGIN P\n(1) 2\nEND" "<string>").toOption.isNone = true := by cbv
    rw [hp] at hnone
    cases hnone
  refine ⟨htext, hts, ?_, ?_, hrejected⟩
  -- a program of one statement, with no newline at its end
  · have hstatement : Derives documented (symbol (.statement true)) _ :=
      .symbol (.inr derives_paren_int)
    have hstatements : Derives documented (symbol (.statements true)) _ :=
      .symbol ((hstatement.append (.token .newline)).append .manyNil)
    exact .symbol (Derives.append (Derives.append (Derives.append (Derives.append (Derives.append
      (Derives.cons .kwBegin (.token .ident)) (.token .newline)) hstatements) (.token .kwEnd))
      .optNone) (.token .eof))
  · exact fun h => hrejected ((parse_isOk_iff_restricted "<string>" htext hts).2.mpr h)

end VectorLang
