import VectorLang.Proofs.Grammar.Ebnf

/-!
# The grammar of the language

`documented` is the grammar as it is written down beside the parser.  In it a vector may
start with anything, so a factor in parentheses can be the first element of a longer
vector.  The parser ends a factor that starts with a parenthesis where that parenthesis
is closed.  Two grammars say so:

* `restricted` is the documented one, except that the vector that a factor is does not
  start with a parenthesis;
* `exact` splits the elements into those that start a factor and the others.

* `Derives.restricted_of_exact`        the exact grammar derives the least
* `Derives.documented_of_restricted`   the documented one derives the most
-/

namespace VectorLang

/-- The symbols of the grammar. -/
inductive Nonterminal where
  | program
  | function
  /-- The statements of a block; `functions` tells whether functions may stand in it. -/
  | statements (functions : Bool)
  | statement (functions : Bool)
  | loop
  | conditional
  | comparison
  | assignment
  | expression
  | term
  | factor
  | vector
  | element
  | reference
  | call

namespace Grammar

open Ebnf Kind Nonterminal

/-- One or more, with commas between them. -/
def commaSeparated (item : Ebnf Nonterminal) : Ebnf Nonterminal :=
  item ++ many (token comma ++ item)

/-- One of the kinds that compare. -/
def relation : Ebnf Nonterminal :=
  token lt ||| token lte ||| token eq ||| token neq ||| token gt ||| token gte

/-- The grammar as documented. -/
def documented : Grammar Nonterminal
  | .program =>
    token kwBegin ++ token ident ++ token newline ++ symbol (.statements true) ++ token kwEnd ++
      opt (token newline) ++ token eof
  | .function =>
    token kwBegin ++ token ident ++
      opt (token lparen ++ commaSeparated (token ident) ++ token rparen) ++
      token newline ++ symbol (.statements true) ++ token kwEnd
  | .statements functions =>
    (symbol (.statement functions) ++ token newline) ++
      many (symbol (.statement functions) ++ token newline)
  | .statement true =>
    symbol .function ||| symbol .loop ||| symbol .conditional ||| symbol .assignment |||
      symbol .expression
  | .statement false =>
    symbol .loop ||| symbol .conditional ||| symbol .assignment ||| symbol .expression
  | .loop =>
    (token kwWhile ||| token kwUntil) ++ symbol .comparison ++ token newline ++
      symbol (.statements false) ++ token kwEnd
  | .conditional =>
    token kwIf ++ symbol .comparison ++ token newline ++ symbol (.statements false) ++
      opt (token kwElse ++ token newline ++ symbol (.statements false)) ++ token kwEnd
  | .comparison => symbol .expression ++ relation ++ symbol .expression
  | .assignment => token ident ++ token Kind.assign ++ opt (symbol .expression)
  | .expression => symbol .term ++ many ((token plus ||| token minus) ++ symbol .term)
  | .term => symbol .factor ++ many ((token star ||| token slash) ++ symbol .factor)
  | .factor =>
    (token tilde ++ symbol .vector) ||| (token hash ++ symbol .vector) |||
      (token lparen ++ symbol .expression ++ token rparen) ||| symbol .vector
  | .vector => symbol .element ++ many (symbol .element)
  | .element =>
    token int ||| token string ||| symbol .call ||| symbol .reference ||| symbol .factor
  | .reference => token ident ++ opt (token lbracket ++ symbol .expression ++ token rbracket)
  | .call =>
    token ident ++ token lparen ++ opt (commaSeparated (symbol .expression)) ++ token rparen

/-- The documented grammar, where a factor that is a vector does not start with a
    parenthesis. -/
def restricted : Grammar Nonterminal
  | .factor =>
    (token tilde ++ symbol .vector) ||| (token hash ++ symbol .vector) |||
      (token lparen ++ symbol .expression ++ token rparen) ||| guarded lparen (symbol .vector)
  | s => documented s

/-- The elements that a factor can start with, if it is a vector. -/
def atom : Ebnf Nonterminal :=
  token int ||| token string ||| symbol .call ||| symbol .reference

/-- The grammar in which a factor that starts with a parenthesis ends where that
    parenthesis is closed. -/
def exact : Grammar Nonterminal
  | .factor =>
    (token tilde ++ symbol .vector) ||| (token hash ++ symbol .vector) |||
      (token lparen ++ symbol .expression ++ token rparen) ||| (atom ++ many (symbol .element))
  | .element =>
    atom ||| (token tilde ++ symbol .vector) ||| (token hash ++ symbol .vector) |||
      (token lparen ++ symbol .expression ++ token rparen)
  | s => documented s

end Grammar

/-! ## How the grammars compare -/

section Inclusion

open Ebnf Grammar

/-- An atom does not start with a parenthesis. -/
theorem head_of_atom {w v : List Kind} (h : Derives restricted atom w) :
    (w ++ v).head? ≠ some .lparen := by
  simp only [atom, Derives.or_iff, Derives.token_iff, Derives.symbol_iff] at h
  rcases h with ((rfl | rfl) | hcall) | href
  · simp
  · simp
  · simp only [restricted, documented, Derives.append_iff, Derives.token_iff] at hcall
    obtain ⟨_, _, rfl, ⟨_, _, rfl, ⟨_, _, rfl, rfl, rfl⟩, _⟩, _⟩ := hcall
    simp
  · simp only [restricted, documented, Derives.append_iff, Derives.token_iff] at href
    obtain ⟨_, _, rfl, rfl, _⟩ := href
    simp

/-- An atom is an element. -/
private theorem element_of_atom {w : List Kind} (h : Derives restricted atom w) :
    Derives restricted (.symbol .element) w := by
  refine .symbol ?_
  simp only [atom, Derives.or_iff] at h
  simp only [restricted, documented, Derives.or_iff]
  exact Or.inl h

/-- Where a factor in parentheses ends with them, no factor is a vector that starts with a
    parenthesis. -/
theorem Derives.restricted_of_exact {r : Ebnf Nonterminal} {w : List Kind}
    (h : Derives exact r w) : Derives restricted r w := by
  refine h.mono fun s w h => ?_
  cases s with
  | factor =>
    refine .symbol ?_
    rcases Derives.or_iff.mp h with h | h
    · exact .inl h
    · obtain ⟨u, v, rfl, hu, hv⟩ := Derives.append_iff.mp h
      exact .inr (.guarded (.symbol (.append (element_of_atom hu) hv)) (head_of_atom hu))
  | element =>
    -- an element that is no atom is a factor
    simp only [exact, Derives.or_iff] at h
    rcases h with ((hatom | htilde) | hhash) | hparen
    · exact element_of_atom hatom
    · exact .symbol (.inr (.symbol (.inl (.inl (.inl htilde)))))
    · exact .symbol (.inr (.symbol (.inl (.inl (.inr hhash)))))
    · exact .symbol (.inr (.symbol (.inl (.inr hparen))))
  | _ => exact .symbol h

/-- The documented grammar derives what the restricted one does. -/
theorem Derives.documented_of_restricted {r : Ebnf Nonterminal} {w : List Kind}
    (h : Derives restricted r w) : Derives documented r w := by
  refine h.mono fun s w h => ?_
  cases s with
  | factor =>
    refine .symbol ?_
    rcases Derives.or_iff.mp h with h | h
    · exact .inl h
    · cases h with
      | guarded hvector _ => exact .inr hvector
  | _ => exact .symbol h

end Inclusion

end VectorLang
