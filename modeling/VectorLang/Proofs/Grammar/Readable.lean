import VectorLang.Proofs.Grammar.Admissible
import VectorLang.Proofs.Grammar.Rules

/-!
# What is derived can be read

Every row that the restricted grammar derives is read as some program.  A grammar is
ambiguous where the reading is not: a name before a parenthesis may end an element or
start a call, and the elements after an operator may belong to its operand or not.  What
makes the readings of the parts fit together is that an element can be put before every
row of elements (`Precedes`), whatever becomes of the tokens at the border.

* `Readable`           what the rows of a symbol are read as
* `readable_of_rule`   the readings are closed under the rules of the restricted grammar
* `reads_of_derives`   every admissible row that is derived is read
-/

namespace VectorLang

open Ebnf Grammar

variable {src : Source} {u v w : List Token}

/-- Whether a row of tokens can be put before every row of elements, where it adds at least
    one. -/
def Precedes (src : Source) (w : List Token) : Prop :=
  ∀ ⦃es : List Node⦄ ⦃v : List Token⦄, Reads src (.elements es) v →
    ∃ es', es' ≠ [] ∧ Reads src (.elements es') (w ++ v)

/-! ## Elements -/

/-- A row that has elements has tokens, and is a vector. -/
private theorem Reads.vector_of_elements {es : List Node} (h : Reads src (.elements es) w)
    (hes : es ≠ []) : ∃ e t v, w = t :: v ∧ Reads src (.vector e) w := by
  cases es with
  | nil => exact absurd rfl hes
  | cons e es =>
    cases w with
    | nil => exact nomatch h.eq_nil
    | cons t v => exact ⟨_, t, v, rfl, .vector h⟩

/-- A row that can be put before elements is a vector of its own. -/
private theorem Precedes.vector (h : Precedes src w) :
    ∃ es t v, es ≠ [] ∧ w = t :: v ∧ Reads src (.elements es) w := by
  obtain ⟨es, hes, hr⟩ := h .elementsNil
  rw [List.append_nil] at hr
  obtain ⟨_, t, v, rfl, _⟩ := hr.vector_of_elements hes
  exact ⟨es, t, v, hes, rfl, hr⟩

private theorem precedes_of_atom {e : Node} (h : Reads src (.atom e) w) : Precedes src w :=
  fun _ _ hv => ⟨_, List.cons_ne_nil _ _, .elementsAtom h hv⟩

private theorem precedes_of_paren {e : Node} {opening closing : Token}
    (ho : opening.kind = .lparen) (h : Reads src (.expression e) w)
    (hc : closing.kind = .rparen) : Precedes src (opening :: (w ++ [closing])) := by
  intro es v hv
  refine ⟨e :: es, List.cons_ne_nil _ _, ?_⟩
  rw [List.cons_append, List.append_assoc]
  exact .elementsParen ho h hc hv

/-- The operand of an operator takes in all elements after it. -/
private theorem precedes_of_unary {op : UnaryOp} {t : Token} (hop : unaryOp? t.kind = some op)
    (h : Precedes src w) : Precedes src (t :: w) := by
  intro es v hv
  -- the operand and the elements after it are one vector
  obtain ⟨es', hes', hr⟩ := h hv
  obtain ⟨e, _, _, _, hvector⟩ := hr.vector_of_elements hes'
  exact ⟨_, List.cons_ne_nil _ _, .elementsUnary hop hvector⟩

/-- A row of elements that starts with a parenthesis starts with an expression in
    parentheses. -/
private theorem Reads.elements_of_paren {es : List Node} {opening : Token}
    (h : Reads src (.elements es) (opening :: w)) (ho : opening.kind = .lparen) :
    ∃ e es' closing u v, w = u ++ closing :: v ∧ Reads src (.expression e) u ∧
      closing.kind = .rparen ∧ Reads src (.elements es') v := by
  generalize hw : opening :: w = tokens at h
  cases h with
  | elementsNil => exact nomatch hw
  | elementsAtom ha _ =>
    obtain ⟨t, v, rfl, ht, _⟩ := ha.atom_cases
    obtain ⟨rfl, _⟩ := List.cons.inj hw
    rcases ht with ht | ht | ht <;> exact nomatch ho.symm.trans ht
  | elementsName ht _ _ =>
    cases hw
    exact nomatch ho.symm.trans ht
  | elementsParen _ hu hc hv =>
    cases hw
    exact ⟨_, _, _, _, _, rfl, hu, hc, hv⟩
  | elementsUnary hop _ =>
    cases hw
    rw [ho] at hop
    exact nomatch hop

/-- A name is a variable, unless the next element is in parentheses: then the two are a
    call. -/
private theorem precedes_of_name {t : Token} (ht : t.kind = .ident) : Precedes src [t] := by
  intro es v hv
  -- the token at the border decides, and it belongs to the elements that follow
  by_cases hp : ∃ next ∈ v.head?, next.kind = .lparen
  · obtain ⟨opening, hopening, ho⟩ := hp
    cases v with
    | nil => exact nomatch hopening
    | cons opening' v =>
      obtain rfl : opening' = opening := Option.some.inj hopening
      obtain ⟨e, es', closing, x, y, rfl, he, hc, hes⟩ := hv.elements_of_paren ho
      -- the expression in the parentheses becomes the argument
      have hcall := Reads.callSome ht ho (.argumentsOne he) hc
      have helements := Reads.elementsAtom (.callAtom hcall) hes
      exact ⟨_, List.cons_ne_nil _ _, by simpa using helements⟩
  · exact ⟨_, List.cons_ne_nil _ _, .elementsName ht hv fun next hnext hk => hp ⟨next, hnext, hk⟩⟩

/-- One row after the other, before elements. -/
private theorem Precedes.rows (hu : Precedes src u) (hv : Rows (Precedes src) v) :
    Precedes src (u ++ v) := by
  induction hv generalizing u with
  | nil => rwa [List.append_nil]
  | cons hv _ ih =>
    intro es w hw
    obtain ⟨es', _, hr⟩ := ih hv hw
    rw [List.append_assoc]
    exact hu hr

/-! ## Rules -/

/-- What the rows of a symbol are read as. -/
def Readable (src : Source) : Nonterminal → List Token → Prop
  | .program, w => ∃ p, ReadsProgram src p w
  | .function, w => ∃ n, ReadsClause src (.statement true n) w
  | .statements functions, w => ∃ ns, ReadsClause src (.statements functions ns) w
  | .statement functions, w => ∃ n, ReadsClause src (.statement functions n) w
  | .loop, w | .conditional, w | .assignment, w =>
    ∀ functions, ∃ n, ReadsClause src (.statement functions n) w
  | .comparison, w => ∃ test, ReadsComparison src test w
  | .expression, w => ∃ e, Reads src (.expression e) w
  | .term, w => ∃ e, Reads src (.term e) w
  | .factor, w => (∃ e, Reads src (.factor e) w) ∧ Precedes src w
  | .vector, w | .element, w | .reference, w | .call, w => Precedes src w

/-- A vector that does not start with a parenthesis is a factor. -/
private theorem Precedes.factor (h : Precedes src w)
    (hw : (w.map Token.kind).head? ≠ some .lparen) : ∃ e, Reads src (.factor e) w := by
  obtain ⟨es, t, v, hes, rfl, hr⟩ := h.vector
  obtain ⟨e, _, _, _, hvector⟩ := hr.vector_of_elements hes
  have ht : t.kind ≠ .lparen := fun hk => hw (congrArg some hk)
  cases hop : unaryOp? t.kind with
  | none => exact ⟨e, .bare hop ht hvector⟩
  | some op =>
    -- the operator takes in the whole row, so the row is a factor as it is
    generalize htokens : t :: v = tokens at hr
    cases hr with
    | elementsNil => exact nomatch htokens
    | elementsAtom ha _ =>
      obtain ⟨t', v', rfl, ht', _⟩ := ha.atom_cases
      obtain ⟨rfl, _⟩ := List.cons.inj htokens
      rcases ht' with hk | hk | hk <;> (rw [hk] at hop; exact nomatch hop)
    | elementsName hk _ _ =>
      cases htokens
      rw [hk] at hop
      exact nomatch hop
    | elementsParen hk _ _ _ =>
      cases htokens
      exact absurd hk ht
    | elementsUnary hop hoperand =>
      cases htokens
      exact ⟨_, .unary hop hoperand⟩

private theorem readable_unary {op : UnaryOp} {t : Token} (hop : unaryOp? t.kind = some op)
    (h : Precedes src w) : Readable src .factor (t :: w) := by
  obtain ⟨es, _, _, hes, _, hr⟩ := h.vector
  obtain ⟨e, _, _, _, hvector⟩ := hr.vector_of_elements hes
  exact ⟨⟨_, .unary hop hvector⟩, precedes_of_unary hop h⟩

private theorem readable_factor (h : (restricted .factor).Covers (Readable src) w) :
    Readable src .factor w := by
  -- one case for each alternative of the rule
  rcases h with ((h | h) | h) | ⟨h, hw⟩
  · obtain ⟨_, _, rfl, ⟨t, rfl, ht⟩, hvector⟩ := h
    have hop : unaryOp? t.kind = some .negation := by rw [ht]; rfl
    exact readable_unary hop hvector
  · obtain ⟨_, _, rfl, ⟨t, rfl, ht⟩, hvector⟩ := h
    have hop : unaryOp? t.kind = some .length := by rw [ht]; rfl
    exact readable_unary hop hvector
  · obtain ⟨_, _, rfl, ⟨_, v, rfl, ⟨opening, rfl, ho⟩, e, he⟩, ⟨closing, rfl, hc⟩⟩ := h
    exact ⟨⟨e, .paren ho he hc⟩, precedes_of_paren ho he hc⟩
  · exact ⟨h.factor hw, h⟩

private theorem readable_element (hw : Admissible w)
    (h : (restricted .element).Covers (Readable src) w) : Readable src .element w := by
  -- a numeral can be read because it is short enough
  rcases h with (((h | h) | h) | h) | h
  · obtain ⟨t, rfl, ht⟩ := h
    have hdigits := hw.numerals t List.mem_cons_self ht
    exact precedes_of_atom (.int ht (by rw [Numeral.read, if_pos hdigits]))
  · obtain ⟨t, rfl, ht⟩ := h
    exact precedes_of_atom (.string ht)
  · exact h
  · exact h
  · exact h.2

private theorem readable_reference (h : (restricted .reference).Covers (Readable src) w) :
    Readable src .reference w := by
  obtain ⟨_, _, rfl, ⟨t, rfl, ht⟩, rfl | h⟩ := h
  · exact precedes_of_name ht
  · obtain ⟨_, _, rfl, ⟨_, v, rfl, ⟨opening, rfl, ho⟩, e, he⟩, ⟨closing, rfl, hc⟩⟩ := h
    exact precedes_of_atom (.subscript ht ho he hc)

/-- Expressions with commas between them are arguments. -/
private theorem arguments_of_rows {e : Node} (hu : Reads src (.expression e) u)
    (hv : Rows ((token .comma ++ symbol Nonterminal.expression).Covers (Readable src)) v) :
    ∃ es, Reads src (.arguments es) (u ++ v) := by
  -- by induction on the rows after the first argument, each of a comma and an argument
  induction hv generalizing e u with
  | nil => exact ⟨[e], by simpa using Reads.argumentsOne hu⟩
  | cons h _ ih =>
    obtain ⟨_, v, rfl, ⟨comma, rfl, hk⟩, e', he'⟩ := h
    obtain ⟨es, hes⟩ := ih he'
    exact ⟨e :: es, by simpa using Reads.argumentsMore hu hk hes⟩

private theorem readable_call (h : (restricted .call).Covers (Readable src) w) :
    Readable src .call w := by
  obtain ⟨_, _, rfl, ⟨_, _, rfl, ⟨_, _, rfl, ⟨t, rfl, ht⟩, ⟨opening, rfl, ho⟩⟩, h⟩,
    ⟨closing, rfl, hc⟩⟩ := h
  rcases h with rfl | ⟨u, v, rfl, ⟨e, hu⟩, hv⟩
  · exact precedes_of_atom (.callAtom (.callNone ht ho hc))
  · obtain ⟨es, hes⟩ := arguments_of_rows hu hv
    exact precedes_of_atom (.callAtom (.callSome ht ho hes hc))

/-- Factors with operators between them are what follows the first factor of a term. -/
private theorem products_of_rows (left : Node)
    (h : Rows (((token .star ||| token .slash) ++ symbol Nonterminal.factor).Covers (Readable src)) w) :
    ∃ e, Reads src (.products left e) w := by
  induction h generalizing left with
  | nil => exact ⟨left, .productsNil⟩
  | cons h _ ih =>
    obtain ⟨x, u, rfl, hx, ⟨right, hright⟩, _⟩ := h
    obtain ⟨t, op, rfl, hop⟩ : ∃ (t : Token) (op : Arithmetic), x = [t] ∧
        productOp? t.kind = some op := by
      rcases hx with ⟨t, rfl, ht⟩ | ⟨t, rfl, ht⟩
      · exact ⟨t, .mul, rfl, by rw [ht]; rfl⟩
      · exact ⟨t, .div, rfl, by rw [ht]; rfl⟩
    -- the operation so far is the left operand of the next one
    obtain ⟨e, he⟩ := ih (.binary (src.locate t) op left right)
    exact ⟨e, .productsCons hop hright he⟩

/-- Terms with operators between them are what follows the first term of an expression. -/
private theorem sums_of_rows (left : Node)
    (h : Rows (((token .plus ||| token .minus) ++ symbol Nonterminal.term).Covers (Readable src)) w) :
    ∃ e, Reads src (.sums left e) w := by
  induction h generalizing left with
  | nil => exact ⟨left, .sumsNil⟩
  | cons h _ ih =>
    obtain ⟨x, u, rfl, hx, right, hright⟩ := h
    obtain ⟨t, op, rfl, hop⟩ : ∃ (t : Token) (op : Arithmetic), x = [t] ∧
        sumOp? t.kind = some op := by
      rcases hx with ⟨t, rfl, ht⟩ | ⟨t, rfl, ht⟩
      · exact ⟨t, .add, rfl, by rw [ht]; rfl⟩
      · exact ⟨t, .sub, rfl, by rw [ht]; rfl⟩
    obtain ⟨e, he⟩ := ih (.binary (src.locate t) op left right)
    exact ⟨e, .sumsCons hop hright he⟩

private theorem readable_term (h : (restricted .term).Covers (Readable src) w) :
    Readable src .term w := by
  obtain ⟨u, v, rfl, ⟨⟨left, hleft⟩, _⟩, hv⟩ := h
  obtain ⟨e, he⟩ := products_of_rows left hv
  exact ⟨e, .term hleft he⟩

private theorem readable_expression (h : (restricted .expression).Covers (Readable src) w) :
    Readable src .expression w := by
  obtain ⟨u, v, rfl, ⟨left, hleft⟩, hv⟩ := h
  obtain ⟨e, he⟩ := sums_of_rows left hv
  exact ⟨e, .expression hleft he⟩

private theorem readable_comparison (h : (restricted .comparison).Covers (Readable src) w) :
    Readable src .comparison w := by
  obtain ⟨_, v, rfl, ⟨u, x, rfl, ⟨left, hleft⟩, hx⟩, right, hright⟩ := h
  obtain ⟨op, rfl, hop⟩ : ∃ op : Token, x = [op] ∧ relational.contains op.kind = true := by
    rcases hx with ((((h | h) | h) | h) | h) | h <;>
      (obtain ⟨op, rfl, hop⟩ := h; exact ⟨op, rfl, by rw [hop]; rfl⟩)
  obtain ⟨t, u, rfl, _⟩ := hleft.start rfl
  exact ⟨_, by simpa using ReadsComparison.mk hleft hop hright⟩

private theorem readable_assignment (h : (restricted .assignment).Covers (Readable src) w) :
    Readable src .assignment w := by
  intro functions
  obtain ⟨_, _, rfl, ⟨_, _, rfl, ⟨t, rfl, ht⟩, ⟨arrow, rfl, ha⟩⟩, rfl | ⟨e, he⟩⟩ := h
  · exact ⟨_, .erase ht ha⟩
  · exact ⟨_, .assign ht ha he⟩

/-- An expression is a statement that prints its value. -/
private theorem statement_of_expression {e : Node} (functions : Bool)
    (h : Reads src (.expression e) w) :
    ∃ n, ReadsClause src (.statement functions n) w := by
  obtain ⟨t, v, rfl, _⟩ := h.start rfl
  -- a call and nothing else is read as the call
  by_cases hcall : t.kind = .ident ∧ e.isLoneCall = true
  · obtain ⟨c, _, hc⟩ := h.call_of_isLoneCall hcall.1 hcall.2
    exact ⟨_, .callOutput hc⟩
  · refine ⟨_, .output h fun ht => ?_⟩
    exact Bool.eq_false_iff.mpr fun he => hcall ⟨ht, he⟩

private theorem readable_statement {functions : Bool}
    (h : (restricted (.statement functions)).Covers (Readable src) w) :
    Readable src (.statement functions) w := by
  cases functions with
  | true =>
    rcases h with (((h | h) | h) | h) | ⟨e, he⟩
    · exact h
    · exact h true
    · exact h true
    · exact h true
    · exact statement_of_expression true he
  | false =>
    rcases h with ((h | h) | h) | ⟨e, he⟩
    · exact h false
    · exact h false
    · exact h false
    · exact statement_of_expression false he

/-- Statements at the ends of lines are a block. -/
private theorem statements_of_rows {functions : Bool} {n : Node} {newline : Token}
    (hu : ReadsClause src (.statement functions n) u) (hnl : newline.kind = .newline)
    (hv : Rows ((symbol (Nonterminal.statement functions) ++ token .newline).Covers (Readable src)) v) :
    ∃ ns, ReadsClause src (.statements functions ns) (u ++ newline :: v) := by
  -- the first line is apart because the rule of the grammar asks for it
  induction hv generalizing n u newline with
  | nil => exact ⟨[n], .one hu hnl⟩
  | cons h _ ih =>
    obtain ⟨_, _, rfl, ⟨n', hn'⟩, ⟨newline', rfl, hnl'⟩⟩ := h
    obtain ⟨ns, hns⟩ := ih hn' hnl'
    exact ⟨n :: ns, by simpa using ReadsClause.more hu hnl hns⟩

private theorem readable_statements {functions : Bool}
    (h : (restricted (.statements functions)).Covers (Readable src) w) :
    Readable src (.statements functions) w := by
  obtain ⟨_, v, rfl, ⟨u, _, rfl, ⟨n, hn⟩, ⟨newline, rfl, hnl⟩⟩, hv⟩ := h
  obtain ⟨ns, hns⟩ := statements_of_rows hn hnl hv
  exact ⟨ns, by simpa using hns⟩

private theorem readable_loop (h : (restricted .loop).Covers (Readable src) w) :
    Readable src .loop w := by
  intro functions
  obtain ⟨_, _, rfl, ⟨_, v, rfl, ⟨_, _, rfl, ⟨x, u, rfl, hx, test, htest⟩, ⟨newline, rfl, hnl⟩⟩,
    body, hbody⟩, ⟨closing, rfl, hc⟩⟩ := h
  obtain ⟨kw, rfl, hk⟩ : ∃ kw : Token, x = [kw] ∧
      (kw.kind = .kwWhile ∨ kw.kind = .kwUntil) := by
    rcases hx with ⟨kw, rfl, hk⟩ | ⟨kw, rfl, hk⟩
    · exact ⟨kw, rfl, Or.inl hk⟩
    · exact ⟨kw, rfl, Or.inr hk⟩
  -- a loop has the same shape whatever may stand around it
  have h : ReadsClause src (.statement functions _) _ := .loop hk htest hnl hbody hc
  exact ⟨_, by simpa using h⟩

private theorem readable_conditional (h : (restricted .conditional).Covers (Readable src) w) :
    Readable src .conditional w := by
  intro functions
  obtain ⟨_, _, rfl, ⟨_, x, rfl, ⟨_, v, rfl, ⟨_, _, rfl, ⟨_, u, rfl, ⟨kw, rfl, hk⟩, test, htest⟩,
    ⟨newline, rfl, hnl⟩⟩, thenBody, hthen⟩, hx⟩, ⟨closing, rfl, hc⟩⟩ := h
  rcases hx with rfl | ⟨_, y, rfl, ⟨_, _, rfl, ⟨kwElse, rfl, he⟩, ⟨newline', rfl, hnl'⟩⟩, elseBody,
    helse⟩
  · have h : ReadsClause src (.statement functions _) _ := .ifThen hk htest hnl hthen hc
    exact ⟨_, by simpa using h⟩
  · have h : ReadsClause src (.statement functions _) _ :=
      .ifThenElse hk htest hnl hthen he hnl' helse hc
    exact ⟨_, by simpa using h⟩

/-- Names with commas between them are parameters, if no name is dotted. -/
private theorem parameters_of_rows {t : Token} (ht : t.kind = .ident)
    (hv : Rows ((token .comma ++ token .ident).Covers (Readable src)) v)
    (hg : ∀ t' ∈ parameterRow (t :: v), isGlobalName t'.text = false) :
    ∃ params, ReadsParameters params (t :: v) := by
  induction hv generalizing t with
  | nil =>
    rw [parameterRow, if_pos ht] at hg
    exact ⟨_, .one ht (hg t List.mem_cons_self)⟩
  | cons h _ ih =>
    obtain ⟨_, _, rfl, ⟨comma, rfl, hk⟩, ⟨t', rfl, ht'⟩⟩ := h
    simp only [List.cons_append, List.nil_append] at hg ⊢
    rw [parameterRow, if_pos ht, if_pos hk, List.forall_mem_cons] at hg
    obtain ⟨params, hparams⟩ := ih ht' hg.2
    exact ⟨_, .more ht hg.1 hk hparams⟩

private theorem header_of_covers {name : Token} (hi : name.kind = .ident)
    (h : (opt (token .lparen ++ commaSeparated (token .ident) ++ token .rparen)).Covers
      (Readable src) u)
    (hg : ∀ t ∈ headerParameters (name :: (u ++ v)), isGlobalName t.text = false) :
    ∃ params, ReadsHeader params u := by
  rcases h with rfl | ⟨_, _, rfl, ⟨_, _, rfl, ⟨opening, rfl, ho⟩, ⟨_, w, rfl, ⟨t, rfl, ht⟩, hw⟩⟩,
    ⟨closing, rfl, hc⟩⟩
  · exact ⟨[], .none⟩
  -- the names between the parentheses are the parameters that no dot is allowed in
  · simp only [List.cons_append, List.nil_append, List.append_assoc] at hg
    rw [headerParameters, if_pos ⟨hi, ho⟩] at hg
    have hrow : ∀ t' ∈ parameterRow (t :: w), isGlobalName t'.text = false :=
      fun t' ht' => hg t' (mem_parameterRow_append (closing :: v) ht')
    obtain ⟨params, hparams⟩ := parameters_of_rows ht hw hrow
    exact ⟨params, by simpa using ReadsHeader.some ho hparams hc⟩

private theorem readable_function (hw : Admissible w)
    (h : (restricted .function).Covers (Readable src) w) : Readable src .function w := by
  obtain ⟨_, _, rfl, ⟨_, v, rfl, ⟨_, _, rfl, ⟨_, u, rfl, ⟨_, _, rfl, ⟨kw, rfl, hk⟩,
    ⟨name, rfl, hi⟩⟩, hu⟩, ⟨newline, rfl, hnl⟩⟩, body, hbody⟩, ⟨closing, rfl, hc⟩⟩ := h
  have hparams := hw.parameters
  simp only [List.cons_append, List.nil_append, List.append_assoc] at hparams
  rw [formalParameters, if_pos hk] at hparams
  obtain ⟨params, hu⟩ := header_of_covers hi hu
    fun t ht => hparams t (List.mem_append_left _ ht)
  exact ⟨_, by simpa using ReadsClause.function hk hi hu hnl hbody hc⟩

private theorem readable_program (h : (restricted .program).Covers (Readable src) w) :
    Readable src .program w := by
  obtain ⟨_, _, rfl, ⟨_, rest, rfl, ⟨_, _, rfl, ⟨_, v, rfl, ⟨_, _, rfl, ⟨_, _, rfl,
    ⟨kw, rfl, hk⟩, ⟨name, rfl, hi⟩⟩, ⟨newline, rfl, hnl⟩⟩, body, hbody⟩, ⟨closing, rfl, hc⟩⟩,
    hrest⟩, ⟨eof, rfl, heof⟩⟩ := h
  -- the line end before the end of the text is optional
  obtain ⟨hrest, hlength⟩ : (∀ t ∈ rest, t.kind = .newline) ∧ rest.length ≤ 1 := by
    rcases hrest with rfl | ⟨t, rfl, ht⟩
    · simp
    · simpa using ht
  exact ⟨_, by simpa using ReadsProgram.mk hk hi hnl hbody hc hrest hlength heof⟩

/-- On admissible rows the readings are closed under the rules of the restricted grammar. -/
theorem readable_of_rule (s : Nonterminal) (w : List Token) (hw : Admissible w)
    (h : (restricted s).Covers (Readable src) w) : Readable src s w := by
  cases s with
  | program => exact readable_program h
  | function => exact readable_function hw h
  | statements functions => exact readable_statements h
  | statement functions => exact readable_statement h
  | loop => exact readable_loop h
  | conditional => exact readable_conditional h
  | comparison => exact readable_comparison h
  | assignment => exact readable_assignment h
  | expression => exact readable_expression h
  | term => exact readable_term h
  | factor => exact readable_factor h
  | vector =>
    obtain ⟨u, v, rfl, hu, hv⟩ := h
    exact Precedes.rows hu hv
  | element => exact readable_element hw h
  | reference => exact readable_reference h
  | call => exact readable_call h

/-- Every admissible row that the restricted grammar derives is read as a program. -/
theorem reads_of_derives {ts : List Token}
    (h : Derives restricted (symbol Nonterminal.program) (ts.map Token.kind))
    (hts : Admissible ts) : ∃ p, ReadsProgram src p ts :=
  h.covers (X := Readable src) (fun _ _ => Admissible.of_append) readable_of_rule rfl hts

end VectorLang
