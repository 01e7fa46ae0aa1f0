import VectorLang.Proofs.Printing.Print
import VectorLang.Proofs.Text.Numeral

/-!
# Printed lexemes can be spelt

What is printed of a program that was read has only lexemes that tokens can have: its names
and strings are those of tokens that were read, its numerals are canonical, and everything
else has one spelling.

* `Reads.spelt`          the lexemes of expressions are valid
* `ReadsProgram.spelt`   the lexemes of programs are valid
-/

namespace VectorLang

/-- Whether all lexemes of a row are valid. -/
def Spelt (ls : List Lexeme) : Prop :=
  ∀ l ∈ ls, l.Valid

@[simp] theorem spelt_nil : Spelt [] := by
  simp [Spelt]

@[simp] theorem spelt_cons {l : Lexeme} {ls : List Lexeme} :
    Spelt (l :: ls) ↔ l.Valid ∧ Spelt ls :=
  List.forall_mem_cons

@[simp] theorem spelt_append {ls ms : List Lexeme} : Spelt (ls ++ ms) ↔ Spelt ls ∧ Spelt ms :=
  List.forall_mem_append

/-- The lexeme of a kind with a spelling is valid. -/
theorem Kind.valid_lexeme {k : Kind} (h : k.spelling ≠ []) : k.lexeme.Valid := by
  cases k <;> first
    | exact String.toList_ofList
    | exact absurd rfl h

@[simp] theorem spelt_enclosed {needed : Bool} {ls : List Lexeme} :
    Spelt (enclosed needed ls) ↔ Spelt ls := by
  cases needed with
  | false => rfl
  | true =>
    have hopening : Kind.lparen.lexeme.Valid := Kind.valid_lexeme (by decide)
    have hclosing : Kind.rparen.lexeme.Valid := Kind.valid_lexeme (by decide)
    simp [enclosed, hopening, hclosing]

theorem Arithmetic.valid_lexeme (op : Arithmetic) : op.kind.lexeme.Valid :=
  Kind.valid_lexeme (by cases op <;> decide)

theorem UnaryOp.valid_lexeme (op : UnaryOp) : op.kind.lexeme.Valid :=
  Kind.valid_lexeme (by cases op <;> decide)

theorem Relation.valid_lexeme (r : Relation) : r.kind.lexeme.Valid :=
  Kind.valid_lexeme (by cases r <;> decide)

/-- The name that a token carries can be spelt. -/
theorem valid_ofName {t : Token} (h : t.lexeme.Valid) (ht : t.kind = .ident) :
    (Lexeme.ofName t.text).Valid := by
  have hlexeme : t.lexeme = Lexeme.ofName t.text := by
    rw [Token.lexeme, ht]
    rfl
  exact hlexeme ▸ h

/-- The canonical text of a number can be spelt. -/
theorem valid_text (z : Int) : Lexeme.Valid ⟨.int, Numeral.text z⟩ :=
  Numeral.isNumeral_text z

/-! ## Expressions -/

/-- Whether the lexemes that a phrase is printed as are valid. -/
def Phrase.Spelt : Phrase → Prop
  | expression e | term e | factor e | vector e | atom e | call e => VectorLang.Spelt e.print
  | sums left e | products left e => VectorLang.Spelt left.print → VectorLang.Spelt e.print
  | elements es => VectorLang.Spelt (Node.printElements es)
  | arguments es => VectorLang.Spelt (Node.printArguments es)

/-- The lexemes of an expression that was read are valid. -/
theorem Reads.spelt {src : Source} {phrase : Phrase} {w : List Token} (h : Reads src phrase w)
    (hw : ∀ t ∈ w, t.lexeme.Valid) : phrase.Spelt := by
  induction h with
  | expression _ _ ihu ihv | term _ _ ihu ihv =>
    obtain ⟨hu, hv⟩ := List.forall_mem_append.mp hw
    exact ihv hv (ihu hu)
  | sumsNil | productsNil => exact id
  | @sumsCons _ _ _ op _ _ _ _ _ _ ihu ihv | @productsCons _ _ _ op _ _ _ _ _ _ ihu ihv =>
    obtain ⟨_, hrest⟩ := List.forall_mem_cons.mp hw
    obtain ⟨hu, hv⟩ := List.forall_mem_append.mp hrest
    have hright := ihu hu
    -- the left operand was printed before, and is part of what is printed now
    intro hleft
    apply ihv hv
    simp only [Node.print, spelt_append, spelt_cons, spelt_enclosed]
    exact ⟨hleft, op.valid_lexeme, hright⟩
  | @unary _ op _ _ _ _ ih =>
    have hoperand := ih (List.forall_mem_cons.mp hw).2
    simp only [Phrase.Spelt, Node.print, spelt_cons]
    exact ⟨op.valid_lexeme, hoperand⟩
  | paren _ _ _ ih =>
    obtain ⟨_, hrest⟩ := List.forall_mem_cons.mp hw
    exact ih (List.forall_mem_append.mp hrest).1
  | bare _ _ _ ih => exact ih hw
  | vector _ ih => exact ih hw
  | elementsNil => exact spelt_nil
  | elementsAtom _ _ ihu ihv =>
    obtain ⟨hu, hv⟩ := List.forall_mem_append.mp hw
    simp only [Phrase.Spelt, Node.printElements, spelt_append, spelt_enclosed]
    exact ⟨ihu hu, ihv hv⟩
  | elementsName ht _ _ ih =>
    obtain ⟨hname, hrest⟩ := List.forall_mem_cons.mp hw
    simp only [Phrase.Spelt, Node.printElements, Node.print, Node.printSubscript, spelt_append,
      spelt_enclosed, spelt_cons]
    exact ⟨⟨valid_ofName hname ht, spelt_nil⟩, ih hrest⟩
  | elementsParen _ _ _ _ ihu ihv =>
    obtain ⟨_, hrest⟩ := List.forall_mem_cons.mp hw
    obtain ⟨hu, hv⟩ := List.forall_mem_append.mp hrest
    simp only [Phrase.Spelt, Node.printElements, spelt_append, spelt_enclosed]
    exact ⟨ihu hu, ihv (List.forall_mem_cons.mp hv).2⟩
  | @elementsUnary _ op _ _ _ _ ih =>
    have hoperand := ih (List.forall_mem_cons.mp hw).2
    simp only [Phrase.Spelt, Node.printElements, Node.print, spelt_append, spelt_enclosed,
      spelt_cons]
    exact ⟨⟨op.valid_lexeme, hoperand⟩, spelt_nil⟩
  | int => exact spelt_cons.mpr ⟨valid_text _, spelt_nil⟩
  | @string t ht =>
    have hlexeme : t.lexeme = ⟨.string, t.text⟩ := by rw [Token.lexeme, ht]
    exact spelt_cons.mpr ⟨hlexeme ▸ hw t List.mem_cons_self, spelt_nil⟩
  | subscript ht _ _ _ ih =>
    obtain ⟨hname, hrest⟩ := List.forall_mem_cons.mp hw
    obtain ⟨_, hrest⟩ := List.forall_mem_cons.mp hrest
    have he := ih (List.forall_mem_append.mp hrest).1
    simp only [Phrase.Spelt, Node.print, Node.printSubscript, spelt_cons, spelt_append]
    exact ⟨valid_ofName hname ht, Kind.valid_lexeme (by decide), he,
      Kind.valid_lexeme (by decide), spelt_nil⟩
  | callAtom _ ih => exact ih hw
  | callNone ht _ _ =>
    have hname := valid_ofName (hw _ List.mem_cons_self) ht
    simp only [Phrase.Spelt, Node.print, Node.printArguments, spelt_cons, spelt_enclosed]
    exact ⟨hname, spelt_nil⟩
  | callSome ht _ _ _ ih =>
    obtain ⟨hname, hrest⟩ := List.forall_mem_cons.mp hw
    obtain ⟨_, hrest⟩ := List.forall_mem_cons.mp hrest
    have hes := ih (List.forall_mem_append.mp hrest).1
    simp only [Phrase.Spelt, Node.print, spelt_cons, spelt_enclosed]
    exact ⟨valid_ofName hname ht, hes⟩
  | argumentsOne _ ih => exact ih hw
  | @argumentsMore e es _ _ _ _ _ _ ihu ihv =>
    obtain ⟨hu, hrest⟩ := List.forall_mem_append.mp hw
    have he := ihu hu
    have hes := ihv (List.forall_mem_cons.mp hrest).2
    -- a comma is printed only before another argument
    cases es with
    | nil => exact he
    | cons e' es =>
      simp only [Phrase.Spelt, Node.printArguments, spelt_append, spelt_cons]
      exact ⟨he, Kind.valid_lexeme (by decide), hes⟩

/-! ## Statements -/

private theorem spelt_comparison {src : Source} {test : Comparison Node} {w : List Token}
    (h : ReadsComparison src test w) (hw : ∀ t ∈ w, t.lexeme.Valid) :
    Spelt (Node.printComparison test) := by
  cases h with
  | @mk left _ _ _ _ _ hleft _ hright =>
    simp only [List.forall_mem_cons, List.forall_mem_append] at hw
    obtain ⟨ht, hu, _, hv⟩ := hw
    have hleftSpelt : Spelt left.print := hleft.spelt (List.forall_mem_cons.mpr ⟨ht, hu⟩)
    simp only [Node.printComparison, spelt_append, spelt_cons]
    exact ⟨hleftSpelt, Relation.valid_lexeme _, hright.spelt hv⟩

private theorem spelt_parameters {params : List String} {w : List Token}
    (h : ReadsParameters params w) (hw : ∀ t ∈ w, t.lexeme.Valid) :
    Spelt ((params.map Lexeme.ofName).intersperse Kind.comma.lexeme) := by
  induction h with
  | one ht _ => exact spelt_cons.mpr ⟨valid_ofName (hw _ List.mem_cons_self) ht, spelt_nil⟩
  | more ht _ _ hmore ih =>
    obtain ⟨hname, hrest⟩ := List.forall_mem_cons.mp hw
    have hothers := ih (List.forall_mem_cons.mp hrest).2
    -- there is at least one more parameter
    cases hmore with
    | one | more =>
      exact spelt_cons.mpr ⟨valid_ofName hname ht,
        spelt_cons.mpr ⟨Kind.valid_lexeme (by decide), hothers⟩⟩

private theorem spelt_header {params : List String} {w : List Token} (h : ReadsHeader params w)
    (hw : ∀ t ∈ w, t.lexeme.Valid) : Spelt (Node.printParams params) := by
  cases h with
  | none => exact spelt_nil
  | some _ hparams _ =>
    obtain ⟨_, hrest⟩ := List.forall_mem_cons.mp hw
    have hspelt := spelt_parameters hparams (List.forall_mem_append.mp hrest).1
    unfold Node.printParams
    split
    · exact spelt_nil
    · exact spelt_enclosed.mpr hspelt

/-- Whether the lexemes that a clause is printed as are valid. -/
def Clause.Spelt : Clause → Prop
  | statement _ n => VectorLang.Spelt n.print
  | statements _ ns => VectorLang.Spelt (Node.printBody ns)

/-- The lexemes of statements that were read are valid. -/
theorem ReadsClause.spelt {src : Source} {clause : Clause} {w : List Token}
    (h : ReadsClause src clause w) (hw : ∀ t ∈ w, t.lexeme.Valid) : clause.Spelt := by
  have hnewline : Kind.newline.lexeme.Valid := Kind.valid_lexeme (by decide)
  have hend : Kind.kwEnd.lexeme.Valid := Kind.valid_lexeme (by decide)
  have hif : Kind.kwIf.lexeme.Valid := Kind.valid_lexeme (by decide)
  induction h with
  | function _ hname hheader _ _ _ ih =>
    simp only [List.forall_mem_cons, List.forall_mem_append] at hw
    obtain ⟨_, hvalid, hu, _, hv, _⟩ := hw
    simp only [Clause.Spelt, Node.print, Node.printDefinition, spelt_cons, spelt_append]
    exact ⟨Kind.valid_lexeme (by decide), valid_ofName hvalid hname, spelt_header hheader hu,
      hnewline, ih hv, hend, spelt_nil⟩
  | loop _ htest _ _ _ ih =>
    simp only [List.forall_mem_cons, List.forall_mem_append] at hw
    obtain ⟨_, hu, _, hv, _⟩ := hw
    simp only [Clause.Spelt, Node.print, spelt_cons, spelt_append]
    refine ⟨?_, spelt_comparison htest hu, hnewline, ih hv, hend, spelt_nil⟩
    split <;> exact Kind.valid_lexeme (by decide)
  | ifThen _ htest _ _ _ ih =>
    simp only [List.forall_mem_cons, List.forall_mem_append] at hw
    obtain ⟨_, hu, _, hv, _⟩ := hw
    simp only [Clause.Spelt, Node.print, spelt_cons, spelt_append]
    exact ⟨hif, spelt_comparison htest hu, hnewline, ih hv, spelt_nil, hend, spelt_nil⟩
  | ifThenElse _ htest _ _ _ _ _ _ ihthen ihelse =>
    simp only [List.forall_mem_cons, List.forall_mem_append] at hw
    obtain ⟨_, hu, _, hv, _, _, hx, _⟩ := hw
    simp only [Clause.Spelt, Node.print, spelt_cons, spelt_append]
    refine ⟨hif, spelt_comparison htest hu, hnewline, ihthen hv, ?_, hend, spelt_nil⟩
    split
    · exact spelt_nil
    · simp only [spelt_cons]
      exact ⟨Kind.valid_lexeme (by decide), hnewline, ihelse hx⟩
  | assign ht _ he =>
    simp only [List.forall_mem_cons] at hw
    obtain ⟨hname, _, hrest⟩ := hw
    simp only [Clause.Spelt, Node.print, Node.printOption, spelt_cons]
    exact ⟨valid_ofName hname ht, Kind.valid_lexeme (by decide), he.spelt hrest⟩
  | erase ht _ =>
    have hname := valid_ofName (hw _ List.mem_cons_self) ht
    simp only [Clause.Spelt, Node.print, Node.printOption, spelt_cons]
    exact ⟨hname, Kind.valid_lexeme (by decide), spelt_nil⟩
  | callOutput hcall =>
    simp only [Clause.Spelt, Node.print, spelt_enclosed]
    exact hcall.spelt hw
  | output he _ =>
    simp only [Clause.Spelt, Node.print, spelt_enclosed]
    exact he.spelt hw
  | one _ _ ih =>
    simp only [Clause.Spelt, Node.printBody, spelt_append, spelt_cons]
    exact ⟨ih (List.forall_mem_append.mp hw).1, hnewline, spelt_nil⟩
  | more _ _ _ ihu ihv =>
    simp only [List.forall_mem_append, List.forall_mem_cons] at hw
    obtain ⟨hu, _, hv⟩ := hw
    simp only [Clause.Spelt, Node.printBody, spelt_append, spelt_cons]
    exact ⟨ihu hu, hnewline, ihv hv⟩

/-- The lexemes of a program are valid, if those that it was read from are, up to the end of
    the text. -/
theorem ReadsProgram.spelt {src : Source} {p : Program} {w : List Token}
    (h : ReadsProgram src p w) (hw : ∀ t ∈ w.dropLast, t.lexeme.Valid) : Spelt p.print := by
  cases h with
  | @mk body kw name newline closing eof w rest _ hname _ hbody _ _ _ _ =>
    rw [dropLast_program] at hw
    simp only [List.forall_mem_cons, List.forall_mem_append] at hw
    obtain ⟨_, hnameValid, _, hbodyValid, _⟩ := hw
    have hspelt : Spelt (Node.printBody body) := hbody.spelt hbodyValid
    simp only [Program.print, spelt_cons, spelt_append]
    exact ⟨Kind.valid_lexeme (by decide), valid_ofName hnameValid hname,
      Kind.valid_lexeme (by decide), hspelt, Kind.valid_lexeme (by decide), spelt_nil⟩

end VectorLang
