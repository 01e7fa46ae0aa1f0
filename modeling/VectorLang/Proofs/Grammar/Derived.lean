import VectorLang.Proofs.Grammar.Rules
import VectorLang.Proofs.Reading.Phrase

/-!
# What is read is derived

The kinds of the tokens of a program are derived by the grammar in which a factor that
starts with a parenthesis ends where that parenthesis is closed.

* `Reads.derives`          phrases of an expression
* `ReadsClause.derives`    statements
* `ReadsProgram.derives`   programs
-/

namespace VectorLang

open Ebnf Grammar

/-! ## Rows of kinds -/

namespace Derives

section Rules

variable {g : Grammar Nonterminal} {k : Kind} {w : List Kind}

theorem of_sumOp {op : Arithmetic} (h : sumOp? k = some op) :
    Derives g (.token .plus ||| .token .minus) [k] := by
  cases k with
  | plus => exact inl (token .plus)
  | minus => exact inr (token .minus)
  | _ => exact nomatch h

theorem of_productOp {op : Arithmetic} (h : productOp? k = some op) :
    Derives g (.token .star ||| .token .slash) [k] := by
  cases k with
  | star => exact inl (token .star)
  | slash => exact inr (token .slash)
  | _ => exact nomatch h

theorem of_unaryOp {op : UnaryOp} {a : Ebnf Nonterminal} (h : unaryOp? k = some op)
    (hw : Derives g a w) :
    Derives g ((.token .tilde ++ a) ||| (.token .hash ++ a)) (k :: w) := by
  cases k with
  | tilde => exact inl (cons .tilde hw)
  | hash => exact inr (cons .hash hw)
  | _ => exact nomatch h

theorem of_relational (h : relational.contains k = true) : Derives g relation [k] := by
  cases k with
  | lt => exact inl (inl (inl (inl (inl (token .lt)))))
  | lte => exact inl (inl (inl (inl (inr (token .lte)))))
  | eq => exact inl (inl (inl (inr (token .eq))))
  | neq => exact inl (inl (inr (token .neq)))
  | gt => exact inl (inr (token .gt))
  | gte => exact inr (token .gte)
  | _ => exact nomatch h

/-- A repetition that is not empty has a first item. -/
private theorem many_ne_nil {a : Ebnf Nonterminal} (h : Derives g (.many a) w) (hw : w ≠ []) :
    Derives g (a ++ .many a) w := by
  cases h with
  | manyNil => exact absurd rfl hw
  | manyCons hu hv => exact append hu hv

end Rules

end Derives

/-- The kinds of token that no atom starts with but other elements do. -/
def Kind.opensFactor (k : Kind) : Bool :=
  k = .tilde || k = .hash || k = .lparen

/-- A vector starts with an atom, or with an operator or a parenthesis. -/
private theorem atom_of_vector {w : List Kind} (h : Derives exact (.symbol .vector) w)
    (hw : ∀ k ∈ w.head?, k.opensFactor = false) :
    Derives exact (atom ++ .many (.symbol .element)) w := by
  obtain ⟨u, v, rfl, hu, hv⟩ := Derives.append_iff.mp (Derives.symbol_iff.mp h)
  refine Derives.append ?_ hv
  have hu := Derives.symbol_iff.mp hu
  simp only [exact, Derives.or_iff, Derives.append_iff, Derives.token_iff] at hu
  -- of the four kinds of elements only an atom starts otherwise
  rcases hu with ((hatom | ⟨_, _, rfl, rfl, _⟩) | ⟨_, _, rfl, rfl, _⟩) |
    ⟨_, _, rfl, ⟨_, _, rfl, rfl, _⟩, _⟩
  · exact hatom
  · cases hw .tilde rfl
  · cases hw .hash rfl
  · cases hw .lparen rfl

/-! ## Expressions -/

/-- What derives the tokens of a phrase. -/
def Phrase.rule : Phrase → Ebnf Nonterminal
  | expression _ => .symbol .expression
  | sums .. => .many ((.token .plus ||| .token .minus) ++ .symbol .term)
  | term _ => .symbol .term
  | products .. => .many ((.token .star ||| .token .slash) ++ .symbol .factor)
  | factor _ => .symbol .factor
  | vector _ => .symbol .vector
  | elements _ => .many (.symbol .element)
  | atom _ => Grammar.atom
  | call _ => .symbol .call
  | arguments _ => commaSeparated (.symbol .expression)

/-- An element in parentheses. -/
private theorem paren_derives {w : List Kind} (h : Derives exact (.symbol .expression) w) :
    Derives exact (.token .lparen ++ .symbol .expression ++ .token .rparen)
      (.lparen :: (w ++ [.rparen])) :=
  Derives.append (Derives.cons .lparen h) (Derives.token .rparen)

private theorem call_derives {w : List Kind}
    (h : Derives exact (.opt (commaSeparated (.symbol .expression))) w) :
    Derives exact (.symbol .call) (.ident :: .lparen :: (w ++ [.rparen])) :=
  .symbol (Derives.append
    (Derives.append (Derives.cons .ident (.token .lparen)) h) (.token .rparen))

/-- What is read as a phrase of an expression is derived. -/
theorem Reads.derives {src : Source} {phrase : Phrase} {w : List Token}
    (h : Reads src phrase w) : Derives exact phrase.rule (w.map Token.kind) := by
  induction h with
  | expression _ _ ihu ihv | term _ _ ihu ihv =>
    rw [List.map_append]
    exact .symbol (.append ihu ihv)
  | sumsNil | productsNil | elementsNil => exact .manyNil
  | sumsCons hop _ _ ihu ihv =>
    exact (Derives.manyCons (.append (.of_sumOp hop) ihu) ihv).congr (by simp)
  | productsCons hop _ _ ihu ihv =>
    exact (Derives.manyCons (.append (.of_productOp hop) ihu) ihv).congr (by simp)
  | unary hop _ ih => exact .symbol (.inl (.inl (.of_unaryOp hop ih)))
  | paren ho _ hc ih =>
    rw [List.map_cons, List.map_append, ho, List.map_singleton, hc]
    exact .symbol (.inl (.inr (paren_derives ih)))
  | @bare e t w hop hk _ ih =>
    -- a factor that starts with neither an operator nor a parenthesis is an atom with elements
    refine .symbol (.inr (atom_of_vector ih ?_))
    intro k hk'
    cases hk'
    cases hkind : t.kind <;> simp_all [unaryOp?, Kind.opensFactor]
  | vector _ ih => exact .symbol (Derives.many_ne_nil ih (by simp))
  | elementsAtom _ _ ihu ihv =>
    rw [List.map_append]
    exact .manyCons (.symbol (.inl (.inl (.inl ihu)))) ihv
  | elementsName ht _ _ ih =>
    -- a name that no bracket follows is a reference without a subscript
    have href : Derives exact (.symbol .reference) [.ident] :=
      .symbol (.cons .ident .optNone)
    rw [List.map_cons, ht]
    exact .manyCons (u := [.ident]) (.symbol (.inl (.inl (.inl (.inr href))))) ih
  | elementsParen ho _ hc _ ihu ihv =>
    exact (Derives.manyCons (.symbol (.inr (paren_derives ihu))) ihv).congr
      (by simp [ho, hc])
  | @elementsUnary _ op t w hop _ ih =>
    have helement : Derives exact (.symbol .element) (t.kind :: w.map Token.kind) := by
      refine .symbol ?_
      rcases Derives.or_iff.mp (Derives.of_unaryOp hop ih) with h | h
      · exact .inl (.inl (.inr h))
      · exact .inl (.inr h)
    exact (Derives.manyCons helement .manyNil).congr (by simp)
  | int ht _ =>
    rw [List.map_singleton, ht]
    exact .inl (.inl (.inl (.token .int)))
  | string ht =>
    rw [List.map_singleton, ht]
    exact .inl (.inl (.inr (.token .string)))
  | subscript ht ho _ hc ih =>
    have h := Derives.append (Derives.cons .lbracket ih) (.token .rbracket)
    exact .inr (.symbol ((Derives.cons .ident (.optSome h)).congr (by simp [ht, ho, hc])))
  | callAtom _ ih => exact .inl (.inr ih)
  | callNone ht ho hc =>
    exact (call_derives .optNone).congr (by simp [ht, ho, hc])
  | callSome ht ho _ hc ih =>
    exact (call_derives (.optSome ih)).congr (by simp [ht, ho, hc])
  | argumentsOne _ ih =>
    exact (Derives.append ih .manyNil).congr (List.append_nil _)
  | argumentsMore _ hk _ ihu ihv =>
    -- the other arguments start with one, which is now the second
    obtain ⟨v, v', heq, hv, hv'⟩ := Derives.append_iff.mp ihv
    exact (Derives.append ihu (.manyCons (.cons .comma hv) hv')).congr (by simp [heq, hk])

/-! ## Statements -/

/-- What derives the tokens of a clause. -/
def Clause.rule : Clause → Ebnf Nonterminal
  | statement functions _ => .symbol (.statement functions)
  | statements functions _ => .symbol (.statements functions)

/-- The statements that may stand in every block. -/
theorem statement_derives {g : Grammar Nonterminal} {functions : Bool} {s : Nonterminal}
    {w : List Kind} (hs : s = .loop ∨ s = .conditional ∨ s = .assignment ∨ s = .expression)
    (h : Derives g (.symbol s) w)
    (hg : g (.statement functions) = documented (.statement functions) := by rfl) :
    Derives g (.symbol (.statement functions)) w := by
  refine .symbol ?_
  rw [hg]
  cases functions with
  | true =>
    rcases hs with rfl | rfl | rfl | rfl
    · exact .inl (.inl (.inl (.inr h)))
    · exact .inl (.inl (.inr h))
    · exact .inl (.inr h)
    · exact .inr h
  | false =>
    rcases hs with rfl | rfl | rfl | rfl
    · exact .inl (.inl (.inl h))
    · exact .inl (.inl (.inr h))
    · exact .inl (.inr h)
    · exact .inr h

theorem ReadsComparison.derives {src : Source} {test : Comparison Node} {w : List Token}
    (h : ReadsComparison src test w) :
    Derives exact (.symbol .comparison) (w.map Token.kind) := by
  cases h with
  | mk hleft hop hright =>
    have h := Derives.append (Derives.append hleft.derives (.of_relational hop)) hright.derives
    exact .symbol (h.congr (by simp))

theorem ReadsParameters.derives {params : List String} {w : List Token}
    (h : ReadsParameters params w) :
    Derives exact (commaSeparated (.token .ident)) (w.map Token.kind) := by
  induction h with
  | one ht _ => exact (Derives.append (.token .ident) .manyNil).congr (by simp [ht])
  | more ht _ hc _ ih =>
    obtain ⟨v, v', heq, hv, hv'⟩ := Derives.append_iff.mp ih
    have h := Derives.append (.token .ident) (.manyCons (.cons .comma hv) hv')
    exact h.congr (by simp [ht, hc, heq])

theorem ReadsHeader.derives {params : List String} {w : List Token}
    (h : ReadsHeader params w) :
    Derives exact (.opt (.token .lparen ++ commaSeparated (.token .ident) ++ .token .rparen))
      (w.map Token.kind) := by
  cases h with
  | none => exact .optNone
  | some ho hparams hc =>
    have h := Derives.append (Derives.cons .lparen hparams.derives) (.token .rparen)
    exact .optSome (h.congr (by simp [ho, hc]))

/-- What is read as a clause is derived. -/
theorem ReadsClause.derives {src : Source} {clause : Clause} {w : List Token}
    (h : ReadsClause src clause w) : Derives exact clause.rule (w.map Token.kind) := by
  induction h with
  | function hk hi hu hnl _ hc ih =>
    -- the rule from left to right: the head, the end of its line, the body, the key word
    have h := Derives.append (Derives.cons .kwBegin (.token .ident)) hu.derives
    have h := Derives.append (Derives.append (Derives.append h (.token .newline)) ih)
      (.token .kwEnd)
    have hf : Derives exact (.symbol .function) _ := .symbol h
    exact .symbol (.inl (.inl (.inl (.inl (hf.congr (by simp [hk, hi, hnl, hc]))))))
  | @loop _ _ _ kw _ _ _ _ hk hu hnl _ hc ih =>
    have hkw : Derives exact (.token .kwWhile ||| .token .kwUntil) [kw.kind] := by
      rcases hk with hk | hk <;> rw [hk]
      · exact .inl (.token .kwWhile)
      · exact .inr (.token .kwUntil)
    have h := Derives.append (Derives.append hkw hu.derives) (.token .newline)
    have h := Derives.append (Derives.append h ih) (.token .kwEnd)
    have hl : Derives exact (.symbol .loop) _ := .symbol h
    exact statement_derives (.inl rfl) (hl.congr (by simp [hnl, hc]))
  | ifThen hk hu hnl _ hc ih =>
    have h := Derives.append (Derives.cons .kwIf hu.derives) (.token .newline)
    have hi : Derives exact (.symbol .conditional) _ :=
      .symbol (Derives.append (Derives.append (Derives.append h ih) .optNone) (.token .kwEnd))
    exact statement_derives (.inr (.inl rfl)) (hi.congr (by simp [hk, hnl, hc]))
  | ifThenElse hk hu hnl _ he hnl' _ hc ihv ihw =>
    have h := Derives.append (Derives.cons .kwIf hu.derives) (.token .newline)
    have helse := Derives.append (Derives.cons .kwElse (.token .newline)) ihw
    have hi : Derives exact (.symbol .conditional) _ :=
      .symbol (Derives.append (Derives.append (Derives.append h ihv) (.optSome helse))
        (.token .kwEnd))
    exact statement_derives (.inr (.inl rfl)) (hi.congr (by simp [hk, hnl, he, hnl', hc]))
  | assign ht ha he =>
    have h := Derives.append (Derives.cons .ident (.token .assign)) (.optSome he.derives)
    have hs : Derives exact (.symbol .assignment) _ := .symbol h
    exact statement_derives (.inr (.inr (.inl rfl))) (hs.congr (by simp [ht, ha]))
  | erase ht ha =>
    have hs : Derives exact (.symbol .assignment) _ :=
      .symbol (Derives.append (Derives.cons .ident (.token .assign)) .optNone)
    exact statement_derives (.inr (.inr (.inl rfl))) (hs.congr (by simp [ht, ha]))
  -- the grammar has no rule for a lone call: it is derived as an expression
  | callOutput he => exact statement_derives (.inr (.inr (.inr rfl))) he.expression_of_call.derives
  | output he _ => exact statement_derives (.inr (.inr (.inr rfl))) he.derives
  | one _ hnl ih =>
    have h := Derives.append ih (.token .newline)
    exact .symbol ((h.append .manyNil).congr (by simp [hnl]))
  | more _ hnl _ ihu ihv =>
    obtain ⟨v, v', heq, hv, hv'⟩ := Derives.append_iff.mp (Derives.symbol_iff.mp ihv)
    have h := Derives.append (Derives.append ihu (.token .newline)) (.manyCons hv hv')
    exact .symbol (h.congr (by simp [hnl, heq]))

/-- What is read as a program is derived. -/
theorem ReadsProgram.derives {src : Source} {p : Program} {w : List Token}
    (h : ReadsProgram src p w) : Derives exact (.symbol .program) (w.map Token.kind) := by
  cases h with
  | @mk _ _ _ _ _ _ _ rest hk hi hnl hv hc hrest hlength heof =>
    have hrest : Derives exact (.opt (.token .newline)) (rest.map Token.kind) := by
      -- there is at most one newline
      match rest, hlength with
      | [], _ => exact .optNone
      | [t], _ => exact .optSome (Derives.token_iff.mpr (by simpa using hrest))
    have h := Derives.append (Derives.append (Derives.cons .kwBegin (.token .ident))
      (.token .newline)) hv.derives
    have h := Derives.append (Derives.append h (.token .kwEnd)) hrest
    have hp : Derives exact (.symbol .program) _ := .symbol (Derives.append h (.token .eof))
    exact hp.congr (by simp [hk, hi, hnl, hc, heof])

end VectorLang
