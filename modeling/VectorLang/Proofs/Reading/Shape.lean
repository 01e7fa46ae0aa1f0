import Mathlib
import VectorLang.Proofs.Reading.Text
import VectorLang.Proofs.Token.Spelling
import VectorLang.Proofs.Tree.Shape

/-!
# The shape of what is read

The trees that texts are read as have the shape of programs.

* `Reads.isExpression`        what the phrases of an expression are read as
* `ReadsClause.isStatement`   what the clauses of a program are read as
* `wellFormed_of_parse`       what whole texts are read as
-/

namespace VectorLang

/-! ## Expressions -/

/-- Whether the trees of a phrase are expressions. -/
def Phrase.AreExpressions : Phrase → Prop
  | expression e | term e | factor e | vector e | atom e | call e => e.IsExpression
  | sums left e | products left e => left.IsExpression → e.IsExpression
  | elements es | arguments es => ∀ e ∈ es, e.IsExpression

/-- The phrases of an expression are read as expressions. -/
theorem Reads.isExpression {src : Source} {phrase : Phrase} {w : List Token}
    (h : Reads src phrase w) : phrase.AreExpressions := by
  induction h with
  | expression _ _ ihterm ihsums => exact ihsums ihterm
  | term _ _ ihfactor ihproducts => exact ihproducts ihfactor
  | sumsNil => exact id
  | productsNil => exact id
  | sumsCons _ _ _ ihright ih => exact fun hleft => ih (.binary hleft ihright)
  | productsCons _ _ _ ihright ih => exact fun hleft => ih (.binary hleft ihright)
  | unary _ _ ih => exact .unary ih
  | paren _ _ _ ih => exact ih
  | bare _ _ _ ih => exact ih
  | vector _ ih => exact .vector ih
  | elementsNil => exact fun e he => absurd he List.not_mem_nil
  | elementsAtom _ _ ihatom ih => exact List.forall_mem_cons.mpr ⟨ihatom, ih⟩
  | elementsName _ _ _ ih =>
    refine List.forall_mem_cons.mpr ⟨.var fun e he => ?_, ih⟩
    cases he
  | elementsParen _ _ _ _ ihexpression ih => exact List.forall_mem_cons.mpr ⟨ihexpression, ih⟩
  | elementsUnary _ _ ih =>
    intro e he
    obtain rfl := List.mem_singleton.mp he
    exact .unary ih
  | int _ _ => exact .int
  | string _ => exact .string
  | subscript _ _ _ _ ih =>
    refine .var fun e he => ?_
    cases he
    exact ih
  | callAtom _ ih => exact ih
  | callNone _ _ _ => exact .call fun e he => absurd he List.not_mem_nil
  | callSome _ _ _ _ ih => exact .call ih
  | argumentsOne _ ih =>
    intro e he
    obtain rfl := List.mem_singleton.mp he
    exact ih
  | argumentsMore _ _ _ ihexpression ih => exact List.forall_mem_cons.mpr ⟨ihexpression, ih⟩

theorem ReadsComparison.isExpression {src : Source} {test : Comparison Node} {w : List Token}
    (h : ReadsComparison src test w) : test.left.IsExpression ∧ test.right.IsExpression := by
  cases h with
  | mk hleft _ hright => exact ⟨hleft.isExpression, hright.isExpression⟩

/-! ## Statements -/

/-- No function of a text has the name of the global scope. -/
theorem ne_globalScopeName {t : Token} (ht : t.lexeme.Valid) (hkind : t.kind = .ident) :
    t.text ≠ globalScopeName := by
  intro heq
  rw [Lexeme.Valid, Token.kind_lexeme, hkind, Token.text_lexeme, heq] at ht
  exact absurd ht.1 (by decide)

/-- No parameter of a text has the name of a global variable. -/
theorem ReadsHeader.isGlobalName {params : List String} {w : List Token}
    (h : ReadsHeader params w) : ∀ x ∈ params, isGlobalName x = false := by
  cases h with
  | none => exact fun x hx => absurd hx List.not_mem_nil
  | some _ hparams _ =>
    induction hparams with
    | one _ hname => exact fun x hx => List.mem_singleton.mp hx ▸ hname
    | more _ hname _ _ ih => exact List.forall_mem_cons.mpr ⟨hname, ih⟩

/-- Whether the trees of a clause are statements. -/
def Clause.AreStatements : Clause → Prop
  | statement functions n => n.IsStatement functions
  | statements functions ns => ∀ n ∈ ns, n.IsStatement functions

/-- The clauses of a program are read as statements. -/
theorem ReadsClause.isStatement {src : Source} {clause : Clause} {w : List Token}
    (h : ReadsClause src clause w) (hw : ∀ t ∈ w, t.lexeme.Valid) : clause.AreStatements := by
  induction h with
  | function _ hname hheader _ _ _ ih =>
    simp only [List.forall_mem_cons, List.forall_mem_append] at hw
    obtain ⟨_, hvalid, _, _, hbody, _⟩ := hw
    exact .function (ne_globalScopeName hvalid hname) hheader.isGlobalName (ih hbody)
  | loop _ htest _ _ _ ih =>
    simp only [List.forall_mem_cons, List.forall_mem_append] at hw
    obtain ⟨_, _, _, hbody, _⟩ := hw
    exact .loop htest.isExpression.1 htest.isExpression.2 (ih hbody)
  | ifThen _ htest _ _ _ ih =>
    simp only [List.forall_mem_cons, List.forall_mem_append] at hw
    obtain ⟨_, _, _, hthen, _⟩ := hw
    exact .conditional htest.isExpression.1 htest.isExpression.2 (ih hthen)
      fun s hs => absurd hs List.not_mem_nil
  | ifThenElse _ htest _ _ _ _ _ _ ihthen ihelse =>
    simp only [List.forall_mem_cons, List.forall_mem_append] at hw
    obtain ⟨_, _, _, hthen, _, _, helse, _⟩ := hw
    exact .conditional htest.isExpression.1 htest.isExpression.2 (ihthen hthen) (ihelse helse)
  | assign _ _ hvalue =>
    refine .assign fun e he => ?_
    cases he
    exact hvalue.isExpression
  | erase _ _ =>
    refine .assign fun e he => ?_
    cases he
  | callOutput hcall => exact .output hcall.isExpression
  | output hvalue _ => exact .output hvalue.isExpression
  | one _ _ ih =>
    intro n hn
    obtain rfl := List.mem_singleton.mp hn
    exact ih fun t ht => hw t (List.mem_append_left _ ht)
  | more _ _ _ ihone ih =>
    simp only [List.forall_mem_cons, List.forall_mem_append] at hw
    obtain ⟨hone, _, hmore⟩ := hw
    exact List.forall_mem_cons.mpr ⟨ihone hone, ih hmore⟩

/-! ## Programs -/

/-- A text is read as a program of the shape that programs have. -/
theorem wellFormed_of_parse {text file : String} {p : Program} (h : parse text file = .ok p) :
    p.WellFormed := by
  obtain ⟨ts, htokens, hreads⟩ := parse_eq_ok_iff.mp h
  have hvalid := valid_of_tokenize htokens
  cases hreads with
  | mk _ hname _ hbody _ _ _ _ =>
    rw [dropLast_program] at hvalid
    simp only [List.forall_mem_cons, List.forall_mem_append] at hvalid
    obtain ⟨_, hnameValid, _, hbodyValid, _⟩ := hvalid
    exact ⟨rfl, rfl, rfl, ne_globalScopeName hnameValid hname, hbody.isStatement hbodyValid⟩

/-- The program that sets a global variable and divides it by zero. -/
def divider : Program :=
  let start : Location := ⟨"", 1, 1, "BEGIN P"⟩
  let set (column : Nat) : Location := ⟨"", 2, column, ".G <- 1"⟩
  let divide (column : Nat) : Location := ⟨"", 3, column, "X <- .G / 0"⟩
  ⟨start, "P", ⟨start, false, "P", [],
    [.assign (set 1) true ".G" (some (.vector (set 7) [.int (set 7) 1])),
      .assign (divide 1) false "X" (some (.binary (divide 9) .div
        (.vector (divide 6) [.var (divide 6) true ".G" none])
        (.vector (divide 11) [.int (divide 11) 0])))]⟩⟩

theorem parse_divider :
    parse "BEGIN P\n.G <- 1\nX <- .G / 0\nEND" "" = .ok divider := by cbv

end VectorLang
