import VectorLang.Proofs.Reading.Phrase
import VectorLang.Proofs.Reading.Step

/-!
# What is read is accepted by the parser

A function of the parser that stands before the tokens of a phrase uses up just these and
returns the trees that they are read as, if the token after them cannot continue the
phrase and the levels of nesting suffice (`Accepts`).  Eight levels for each token do.

* `accepts`        expressions
* `acceptsClause`  statements
* `program_of_reads`  programs
-/

namespace VectorLang

/-! ## What may follow -/

/-- Whether a token of this kind ends a row of elements. -/
def Kind.endsVector (k : Kind) : Bool :=
  !elementStart.contains k && k != .lbracket

/-- Whether a token of this kind ends a term. -/
def Kind.endsTerm (k : Kind) : Bool :=
  k.endsVector && (productOp? k).isNone

/-- Whether a token of this kind ends an expression. -/
def Kind.endsExpression (k : Kind) : Bool :=
  k.endsTerm && (sumOp? k).isNone

private theorem endsVector_of_productOp {k : Kind} {op : Arithmetic}
    (h : productOp? k = some op) : k.endsVector = true := by
  cases k <;> first | rfl | exact nomatch h

private theorem endsTerm_of_sumOp {k : Kind} {op : Arithmetic} (h : sumOp? k = some op) :
    k.endsTerm = true := by
  cases k <;> first | rfl | exact nomatch h

theorem Kind.endsVector_of_endsTerm {k : Kind} (h : k.endsTerm = true) : k.endsVector = true :=
  (Bool.and_eq_true_iff.mp h).1

theorem Kind.endsTerm_of_endsExpression {k : Kind} (h : k.endsExpression = true) :
    k.endsTerm = true :=
  (Bool.and_eq_true_iff.mp h).1

theorem Kind.productOp_of_endsTerm {k : Kind} (h : k.endsTerm = true) : productOp? k = none :=
  Option.isNone_iff_eq_none.mp (Bool.and_eq_true_iff.mp h).2

theorem Kind.sumOp_of_endsExpression {k : Kind} (h : k.endsExpression = true) :
    sumOp? k = none :=
  Option.isNone_iff_eq_none.mp (Bool.and_eq_true_iff.mp h).2

theorem Kind.elementStart_of_endsVector {k : Kind} (h : k.endsVector = true) :
    elementStart.contains k = false := by
  cases k <;> first | rfl | exact nomatch h

section Follow

variable {src : Source} {l l' : Lookahead} {left e : Node} {es : List Node} {w : List Token}

/-- What follows a term of an expression ends the term. -/
private theorem endsTerm_of_sums (h : Reads src (.sums left e) w) (hw : l.Reach w l')
    (hend : l'.current.kind.endsExpression = true) : l.current.kind.endsTerm = true := by
  cases h with
  | sumsNil =>
    obtain rfl := Lookahead.reach_nil.mp hw
    exact Kind.endsTerm_of_endsExpression hend
  | sumsCons hop _ _ =>
    rw [hw.current]
    exact endsTerm_of_sumOp hop

/-- What follows a factor of a term ends the factor. -/
private theorem endsVector_of_products (h : Reads src (.products left e) w) (hw : l.Reach w l')
    (hend : l'.current.kind.endsTerm = true) : l.current.kind.endsVector = true := by
  cases h with
  | productsNil =>
    obtain rfl := Lookahead.reach_nil.mp hw
    exact Kind.endsVector_of_endsTerm hend
  | productsCons hop _ _ =>
    rw [hw.current]
    exact endsVector_of_productOp hop

/-- What follows an element starts the next one or ends the row. -/
private theorem ne_lbracket_of_elements (h : Reads src (.elements es) w) (hw : l.Reach w l')
    (hend : l'.current.kind.endsVector = true) : l.current.kind ≠ .lbracket := by
  intro hk
  cases w with
  | nil =>
    obtain rfl := Lookahead.reach_nil.mp hw
    rw [hk] at hend
    exact nomatch hend
  | cons t w =>
    have hstart := h.kind_of_elements t rfl
    rw [← hw.current, hk] at hstart
    exact nomatch hstart

end Follow

/-! ## Expressions -/

open VectorLang.Parser in
/-- That the parser accepts a phrase: with enough levels of nesting, before a token that
    ends the phrase, it uses up the tokens of the phrase and returns its trees. -/
def Accepts (src : Source) : Phrase → List Token → Prop
  | .expression e, w => ∀ ⦃n l l'⦄, 8 * w.length + 6 ≤ n → l.Reach w l' →
    l'.current.kind.endsExpression = true → expression src n l = .ok e l'
  | .sums left e, w => ∀ ⦃n l l'⦄, 8 * w.length + 1 ≤ n → l.Reach w l' →
    l'.current.kind.endsExpression = true → sumTail src n left l = .ok e l'
  | .term e, w => ∀ ⦃n l l'⦄, 8 * w.length + 5 ≤ n → l.Reach w l' →
    l'.current.kind.endsTerm = true → term src n l = .ok e l'
  | .products left e, w => ∀ ⦃n l l'⦄, 8 * w.length + 1 ≤ n → l.Reach w l' →
    l'.current.kind.endsTerm = true → productTail src n left l = .ok e l'
  | .factor e, w => ∀ ⦃n l l'⦄, 8 * w.length + 4 ≤ n → l.Reach w l' →
    l'.current.kind.endsVector = true → factor src n l = .ok e l'
  | .vector e, w => ∀ ⦃n l l'⦄, 8 * w.length + 3 ≤ n → l.Reach w l' →
    l'.current.kind.endsVector = true → vector src n l = .ok e l'
  | .elements es, w => ∀ ⦃n l l'⦄, 8 * w.length + 3 ≤ n → l.Reach w l' →
    l'.current.kind.endsVector = true → elements src n l = .ok es l'
  | .atom e, w => ∀ ⦃n l l'⦄, 8 * w.length + 2 ≤ n → l.Reach w l' → element src n l = .ok e l'
  | .call e, w => ∀ ⦃n l l'⦄, 8 * w.length + 1 ≤ n → l.Reach w l' → call src n l = .ok e l'
  | .arguments es, w => ∀ ⦃n l l'⦄, 8 * w.length + 7 ≤ n → l.Reach w l' →
    l'.current.kind = .rparen → arguments src n l = .ok es l'

namespace Parser

variable {src : Source}

/-- With at least one level of nesting there is one to spend. -/
private theorem exists_succ {k n : Nat} (h : k + 1 ≤ n) : ∃ m, n = m + 1 :=
  ⟨n - 1, by omega⟩

/-- Between two parentheses an expression is a factor. -/
private theorem factor_of_paren {e : Node} {n : Nat} {l l' : Lookahead}
    {opening closing : Token} {w : List Token} (hn : 8 * w.length + 7 ≤ n)
    (ho : opening.kind = .lparen) (he : Accepts src (.expression e) w)
    (hc : closing.kind = .rparen) (hw : l.Reach (opening :: (w ++ [closing])) l') :
    factor src n l = .ok e l' := by
  obtain ⟨n, rfl⟩ := exists_succ hn
  obtain ⟨m, hm, hw⟩ := Lookahead.reach_cons.mp hw
  obtain ⟨m', hw, hm'⟩ := Lookahead.reach_append.mp hw
  have hk : m'.current.kind = .rparen := by rw [hm'.current, hc]
  -- the second of the three ways to read a factor: after the opening parenthesis (`m`) and
  -- before the closing one (`m'`)
  refine factor_eq_ok.mpr (Or.inr (Or.inl ⟨m, m', ?_, advance_of_reach hm, ?_, hk, ?_⟩))
  · rw [hm.current, ho]
  · exact he (by omega) hw (by rw [hk]; rfl)
  · exact advance_of_reach hm'

/-- An operator before a vector is a factor. -/
private theorem factor_of_unary {operand : Node} {op : UnaryOp} {n : Nat} {l l' : Lookahead}
    {t : Token} {w : List Token} (hn : 8 * w.length + 4 ≤ n) (hop : unaryOp? t.kind = some op)
    (hv : Accepts src (.vector operand) w) (hw : l.Reach (t :: w) l')
    (hend : l'.current.kind.endsVector = true) :
    factor src n l = .ok (.unary (src.locate t) op operand) l' := by
  obtain ⟨n, rfl⟩ := exists_succ hn
  obtain rfl := hw.current
  obtain ⟨m, hm, hw⟩ := Lookahead.reach_cons.mp hw
  refine factor_eq_ok.mpr (Or.inl ⟨op, m, operand, hop, advance_of_reach hm, ?_, rfl⟩)
  exact hv (by omega) hw hend

/-- A row of elements is accepted if its first one is and the others are. -/
private theorem elements_of_cons {e : Node} {es : List Node} {n : Nat} {l m l' : Lookahead}
    (hstart : elementStart.contains l.current.kind = true)
    (he : element src n l = .ok e m) (hes : elements src n m = .ok es l') :
    elements src (n + 1) l = .ok (e :: es) l' :=
  elements_eq_ok.mpr (Or.inr ⟨hstart, e, m, es, he, hes, rfl⟩)

/-- An element that is a factor. -/
private theorem element_of_factor' {e : Node} {n : Nat} {l l' : Lookahead}
    (hk : l.current.kind = .tilde ∨ l.current.kind = .hash ∨ l.current.kind = .lparen)
    (hn : 1 ≤ n) (h : ∀ m, n = m + 1 → factor src m l = .ok e l') :
    element src n l = .ok e l' := by
  obtain ⟨n, rfl⟩ := exists_succ hn
  exact (element_of_factor hk).mpr (h n rfl)

/-- A name that no parenthesis or bracket follows is a variable. -/
private theorem element_of_name {n : Nat} {t : Token} {l m : Lookahead} (hn : 2 ≤ n)
    (ht : t.kind = .ident) (hm : l.Reach [t] m) (hp : m.current.kind ≠ .lparen)
    (hb : m.current.kind ≠ .lbracket) :
    element src n l = .ok (.var (src.locate t) (isGlobalName t.text) t.text none) m := by
  obtain ⟨n, rfl⟩ : ∃ k, n = k + 2 := ⟨n - 2, by omega⟩
  obtain rfl := hm.current
  -- no parenthesis makes it a call, and no bracket gives it a subscript
  refine (element_of_ident ht).mpr ⟨m.current, l, peek_of_reach hm, Or.inr ⟨hp, ?_⟩⟩
  exact reference_eq_ok.mpr ⟨ht, m, advance_of_reach hm, Or.inr ⟨hb, rfl, rfl⟩⟩

private theorem element_of_subscript {e : Node} {n : Nat} {t opening closing : Token}
    {w : List Token} {l l' : Lookahead} (hn : 8 * w.length + 8 ≤ n) (ht : t.kind = .ident)
    (ho : opening.kind = .lbracket) (he : Accepts src (.expression e) w)
    (hc : closing.kind = .rbracket) (hw : l.Reach (t :: opening :: (w ++ [closing])) l') :
    element src n l =
      .ok (.var (src.locate t) (isGlobalName t.text) t.text (some e)) l' := by
  obtain ⟨n, rfl⟩ : ∃ k, n = k + 2 := ⟨n - 2, by omega⟩
  obtain rfl := hw.current
  obtain ⟨m, hm, hw⟩ := Lookahead.reach_cons.mp hw
  obtain ⟨m₁, hm₁, hw⟩ := Lookahead.reach_cons.mp hw
  obtain ⟨m₂, hw, hm₂⟩ := Lookahead.reach_append.mp hw
  have hk : m.current.kind = .lbracket := by rw [hm₁.current, ho]
  have hk₂ : m₂.current.kind = .rbracket := by rw [hm₂.current, hc]
  -- a bracket follows the name, so that it is no call
  refine (element_of_ident ht).mpr ⟨m.current, l, peek_of_reach hm, Or.inr ⟨?_, ?_⟩⟩
  · rw [hk]
    decide
  · refine reference_eq_ok.mpr ⟨ht, m, advance_of_reach hm, Or.inl ⟨hk, m₁, e, m₂, ?_⟩⟩
    exact ⟨advance_of_reach hm₁, he (by omega) hw (by rw [hk₂]; rfl), hk₂,
      advance_of_reach hm₂, rfl⟩

/-- A call is an element whatever follows it. -/
private theorem element_of_call {e : Node} {n : Nat} {w : List Token} {l l' : Lookahead}
    (hn : 8 * w.length + 2 ≤ n) (h : Reads src (.call e) w) (hc : Accepts src (.call e) w)
    (hw : l.Reach w l') : element src n l = .ok e l' := by
  obtain ⟨n, rfl⟩ := exists_succ hn
  have hcall : call src n l = .ok e l' := hc (by omega) hw
  obtain ⟨t, opening, args, v, rfl, ht, ho, _⟩ := h.call_cases
  obtain rfl := hw.current
  obtain ⟨m, hm, hw⟩ := Lookahead.reach_cons.mp hw
  -- the parenthesis after the name is what the parser looks ahead for
  refine (element_of_ident ht).mpr ⟨m.current, l, peek_of_reach hm, Or.inl ⟨?_, hcall⟩⟩
  rw [hw.current, ho]

private theorem call_of_none {n : Nat} {t opening closing : Token} {l l' : Lookahead}
    (hn : 1 ≤ n) (ht : t.kind = .ident) (ho : opening.kind = .lparen)
    (hc : closing.kind = .rparen) (hw : l.Reach [t, opening, closing] l') :
    call src n l = .ok (.call (src.locate t) (isGlobalName t.text) t.text []) l' := by
  obtain ⟨n, rfl⟩ := exists_succ hn
  obtain rfl := hw.current
  obtain ⟨m, hm, hw⟩ := Lookahead.reach_cons.mp hw
  obtain ⟨m₁, hm₁, hw⟩ := Lookahead.reach_cons.mp hw
  have hk₁ : m₁.current.kind = .rparen := by rw [hw.current, hc]
  refine call_eq_ok.mpr ⟨ht, m, advance_of_reach hm, by rw [hm₁.current, ho], m₁,
    advance_of_reach hm₁, [], m₁, Or.inl ⟨hk₁, rfl, rfl⟩, hk₁, advance_of_reach hw, rfl⟩

private theorem call_of_some {es : List Node} {n : Nat} {t opening closing : Token}
    {w : List Token} {l l' : Lookahead} (hn : 8 * w.length + 8 ≤ n) (ht : t.kind = .ident)
    (ho : opening.kind = .lparen) (h : Reads src (.arguments es) w)
    (ha : Accepts src (.arguments es) w) (hc : closing.kind = .rparen)
    (hw : l.Reach (t :: opening :: (w ++ [closing])) l') :
    call src n l = .ok (.call (src.locate t) (isGlobalName t.text) t.text es) l' := by
  obtain ⟨n, rfl⟩ := exists_succ hn
  obtain rfl := hw.current
  obtain ⟨m, hm, hw⟩ := Lookahead.reach_cons.mp hw
  obtain ⟨m₁, hm₁, hw⟩ := Lookahead.reach_cons.mp hw
  obtain ⟨m₂, hw, hm₂⟩ := Lookahead.reach_append.mp hw
  have hk₂ : m₂.current.kind = .rparen := by rw [hm₂.current, hc]
  -- the first argument starts like an element
  have hk₁ : m₁.current.kind ≠ .rparen := by
    obtain ⟨t, v, rfl, hstart⟩ := h.start rfl
    intro hk
    rw [← hw.current, hk] at hstart
    exact nomatch hstart
  refine call_eq_ok.mpr ⟨ht, m, advance_of_reach hm, by rw [hm₁.current, ho], m₁,
    advance_of_reach hm₁, es, m₂, Or.inr ⟨hk₁, ?_⟩, hk₂, advance_of_reach hm₂, rfl⟩
  exact ha (by omega) hw hk₂

/-- What is read as a phrase of an expression is accepted as such. -/
theorem accepts {phrase : Phrase} {w : List Token} (h : Reads src phrase w) :
    Accepts src phrase w := by
  -- by induction on how the phrase is read; every rule spends one level of nesting, or two, and
  -- the bound leaves enough for its parts
  induction h with
  | @expression left e u v hu hv ihu ihv =>
    intro n l l' hn hw hend
    rw [List.length_append] at hn
    obtain ⟨n, rfl⟩ := exists_succ hn
    obtain ⟨m, hm, hw⟩ := Lookahead.reach_append.mp hw
    have hterm : term src n l = .ok left m :=
      ihu (by omega) hm (endsTerm_of_sums hv hw hend)
    exact expression_eq_ok.mpr ⟨left, m, hterm, ihv (by omega) hw hend⟩
  | sumsNil =>
    intro n l l' hn hw hend
    obtain ⟨n, rfl⟩ := exists_succ hn
    obtain rfl := Lookahead.reach_nil.mp hw
    exact sumTail_eq_ok.mpr (Or.inl ⟨Kind.sumOp_of_endsExpression hend, rfl, rfl⟩)
  | @sumsCons left right e op t u v hop hu hv ihu ihv =>
    intro n l l' hn hw hend
    rw [List.length_cons, List.length_append] at hn
    obtain ⟨n, rfl⟩ := exists_succ hn
    obtain rfl := hw.current
    obtain ⟨m, hm, hw⟩ := Lookahead.reach_cons.mp hw
    obtain ⟨m', hm', hw⟩ := Lookahead.reach_append.mp hw
    have hterm : term src n m = .ok right m' :=
      ihu (by omega) hm' (endsTerm_of_sums hv hw hend)
    exact sumTail_eq_ok.mpr (Or.inr ⟨op, m, right, m', hop, advance_of_reach hm, hterm,
      ihv (by omega) hw hend⟩)
  | @term left e u v hu hv ihu ihv =>
    intro n l l' hn hw hend
    rw [List.length_append] at hn
    obtain ⟨n, rfl⟩ := exists_succ hn
    obtain ⟨m, hm, hw⟩ := Lookahead.reach_append.mp hw
    have hfactor : factor src n l = .ok left m :=
      ihu (by omega) hm (endsVector_of_products hv hw hend)
    exact term_eq_ok.mpr ⟨left, m, hfactor, ihv (by omega) hw hend⟩
  | productsNil =>
    intro n l l' hn hw hend
    obtain ⟨n, rfl⟩ := exists_succ hn
    obtain rfl := Lookahead.reach_nil.mp hw
    exact productTail_eq_ok.mpr (Or.inl ⟨Kind.productOp_of_endsTerm hend, rfl, rfl⟩)
  | @productsCons left right e op t u v hop hu hv ihu ihv =>
    intro n l l' hn hw hend
    rw [List.length_cons, List.length_append] at hn
    obtain ⟨n, rfl⟩ := exists_succ hn
    obtain rfl := hw.current
    obtain ⟨m, hm, hw⟩ := Lookahead.reach_cons.mp hw
    obtain ⟨m', hm', hw⟩ := Lookahead.reach_append.mp hw
    have hfactor : factor src n m = .ok right m' :=
      ihu (by omega) hm' (endsVector_of_products hv hw hend)
    exact productTail_eq_ok.mpr (Or.inr ⟨op, m, right, m', hop, advance_of_reach hm, hfactor,
      ihv (by omega) hw hend⟩)
  | unary hop _ ih =>
    intro n l l' hn hw hend
    rw [List.length_cons] at hn
    exact factor_of_unary (by omega) hop ih hw hend
  | paren ho _ hc ih =>
    intro n l l' hn hw _
    rw [List.length_cons, List.length_append] at hn
    exact factor_of_paren (by omega) ho ih hc hw
  | bare hop hk _ ih =>
    intro n l l' hn hw hend
    obtain ⟨n, rfl⟩ := exists_succ hn
    rw [← hw.current] at hop hk
    exact factor_eq_ok.mpr (Or.inr (Or.inr ⟨hop, hk, ih (by omega) hw hend⟩))
  | vector hes ih =>
    intro n l l' hn hw hend
    obtain ⟨n, rfl⟩ := exists_succ hn
    -- a vector is read like a row of elements that is not empty
    rcases elements_eq_ok.mp (ih hn hw hend) with ⟨_, h, _⟩ | ⟨_, first, m, others, hf, ho, heq⟩
    · exact nomatch h
    · rw [← heq, ← hw.current]
      exact vector_eq_ok.mpr ⟨first, m, others, hf, ho, rfl⟩
  | elementsNil =>
    intro n l l' hn hw hend
    obtain ⟨n, rfl⟩ := exists_succ hn
    obtain rfl := Lookahead.reach_nil.mp hw
    exact elements_eq_ok.mpr (Or.inl ⟨Kind.elementStart_of_endsVector hend, rfl, rfl⟩)
  | @elementsAtom e es u v hu hv ihu ihv =>
    intro n l l' hn hw hend
    obtain ⟨t, u, rfl, _, _⟩ := hu.atom_cases
    rw [List.length_append, List.length_cons] at hn
    obtain ⟨n, rfl⟩ := exists_succ hn
    have hstart := (Reads.elementsAtom hu hv).kind_of_elements t rfl
    rw [← hw.current] at hstart
    obtain ⟨m, hm, hw⟩ := Lookahead.reach_append.mp hw
    exact elements_of_cons hstart (ihu (by rw [List.length_cons]; omega) hm)
      (ihv (by omega) hw hend)
  | @elementsName es t v ht hv hnext ih =>
    intro n l l' hn hw hend
    rw [List.length_cons] at hn
    obtain ⟨n, rfl⟩ := exists_succ hn
    obtain ⟨m, hm, hw⟩ := Lookahead.reach_cons.mp hw
    -- what follows the name is the next element or what ends the row
    have hp : m.current.kind ≠ .lparen := by
      cases v with
      | nil =>
        obtain rfl := Lookahead.reach_nil.mp hw
        intro hk
        rw [hk] at hend
        exact nomatch hend
      | cons t' v => exact hw.current ▸ hnext t' rfl
    have hb := ne_lbracket_of_elements hv hw hend
    refine elements_of_cons ?_ (element_of_name (by omega) ht hm hp hb) (ih (by omega) hw hend)
    rw [hm.current, ht]
    rfl
  | @elementsParen e es opening closing u v ho hu hc hv ihu ihv =>
    intro n l l' hn hw hend
    rw [List.length_cons, List.length_append, List.length_cons] at hn
    obtain ⟨n, rfl⟩ := exists_succ hn
    -- the parentheses belong to the first element and `v` to the others
    rw [List.append_cons, ← List.cons_append] at hw
    obtain ⟨m, hm, hw⟩ := Lookahead.reach_append.mp hw
    have hk : l.current.kind = .lparen := by rw [hm.current, ho]
    refine elements_of_cons (by rw [hk]; rfl) ?_ (ihv (by omega) hw hend)
    refine element_of_factor' (Or.inr (Or.inr hk)) (by omega) fun n' hn' => ?_
    exact factor_of_paren (by omega) ho ihu hc hm
  | @elementsUnary operand op t w hop hw ih =>
    intro n l l' hn hw hend
    rw [List.length_cons] at hn
    obtain ⟨n, rfl⟩ : ∃ k, n = k + 2 := ⟨n - 2, by omega⟩
    -- the operand takes all elements that follow, so that the row ends after it
    have hcur := hw.current
    have hstop := Kind.elementStart_of_endsVector hend
    refine elements_of_cons (by rw [hcur]; exact elementStart_of_unaryOp hop) ?_
      (elements_eq_ok.mpr (Or.inl ⟨hstop, rfl, rfl⟩))
    refine element_of_factor' ?_ (by omega) fun n' hn' => ?_
    · rw [hcur]
      cases hk : t.kind <;> simp_all [unaryOp?]
    · exact factor_of_unary (by omega) hop ih hw hend
  | int ht hread =>
    intro n l l' hn hw
    obtain ⟨n, rfl⟩ := exists_succ hn
    obtain rfl := hw.current
    exact (element_of_int ht).mpr ⟨advance_of_reach hw, _, hread, rfl⟩
  | string ht =>
    intro n l l' hn hw
    obtain ⟨n, rfl⟩ := exists_succ hn
    obtain rfl := hw.current
    exact (element_of_string ht).mpr ⟨advance_of_reach hw, rfl⟩
  | subscript ht ho _ hc ih =>
    intro n l l' hn hw
    simp only [List.length_cons, List.length_append] at hn
    exact element_of_subscript (by omega) ht ho ih hc hw
  | callAtom hcall ih =>
    intro n l l' hn hw
    exact element_of_call hn hcall ih hw
  | callNone ht ho hc =>
    intro n l l' hn hw
    exact call_of_none (by omega) ht ho hc hw
  | callSome ht ho hargs hc ih =>
    intro n l l' hn hw
    simp only [List.length_cons, List.length_append] at hn
    exact call_of_some (by omega) ht ho hargs ih hc hw
  | argumentsOne _ ih =>
    intro n l l' hn hw hend
    obtain ⟨n, rfl⟩ := exists_succ hn
    refine arguments_eq_ok.mpr ⟨_, l', ih (by omega) hw (by rw [hend]; rfl), Or.inr ⟨?_, rfl, rfl⟩⟩
    rw [hend]
    decide
  | @argumentsMore e es comma u v hu hk hv ihu ihv =>
    intro n l l' hn hw hend
    rw [List.length_append, List.length_cons] at hn
    obtain ⟨n, rfl⟩ := exists_succ hn
    obtain ⟨m, hm, hw⟩ := Lookahead.reach_append.mp hw
    obtain ⟨m', hm', hw⟩ := Lookahead.reach_cons.mp hw
    have hkm : m.current.kind = .comma := by rw [hm'.current, hk]
    have he : expression src n l = .ok e m := ihu (by omega) hm (by rw [hkm]; rfl)
    exact arguments_eq_ok.mpr ⟨e, m, he, Or.inl ⟨hkm, m', es, advance_of_reach hm',
      ihv (by omega) hw hend, rfl⟩⟩

/-! ## Statements -/

/-- That the parser accepts a clause: a statement before the end of a line, a block before
    the keyword that ends it. -/
def AcceptsClause (src : Source) : Clause → List Token → Prop
  | .statement functions e, w => ∀ ⦃n l l'⦄, 8 * w.length + 7 ≤ n → l.Reach w l' →
    l'.current.kind = .newline → statement src functions n l = .ok e l'
  | .statements functions ns, w => ∀ ⦃n l l'⦄, 8 * w.length + 1 ≤ n → l.Reach w l' →
    [Kind.kwEnd, .kwElse].contains l'.current.kind = true →
    statements src functions n l = .ok ns l'

/-- A block ends at a keyword that no statement starts with. -/
private theorem head_of_clause {clause : Clause} {w : List Token}
    (h : ReadsClause src clause w) :
    ∃ t v, w = t :: v ∧ [Kind.kwEnd, .kwElse].contains t.kind = false := by
  -- by induction, because a block starts like its first statement
  induction h with
  | function hk _ _ _ _ _ | ifThen hk _ _ _ _ | ifThenElse hk _ _ _ _ _ _ _ =>
    exact ⟨_, _, rfl, by rw [hk]; rfl⟩
  | loop hk _ _ _ _ =>
    refine ⟨_, _, rfl, ?_⟩
    rcases hk with hk | hk <;> rw [hk] <;> rfl
  | assign hk _ _ | erase hk _ => exact ⟨_, _, rfl, by rw [hk]; rfl⟩
  | @callOutput _ _ t _ h | @output _ _ t _ h _ =>
    have ht := h.inExpression t List.mem_cons_self
    refine ⟨_, _, rfl, ?_⟩
    cases hk : t.kind <;> first | rfl | (rw [hk] at ht; exact nomatch ht)
  | one _ _ ih | more _ _ _ ih _ =>
    obtain ⟨t, v, rfl, ht⟩ := ih
    exact ⟨t, _, rfl, ht⟩

private theorem parameters_of_reads {params : List String} {w : List Token}
    (h : ReadsParameters params w) : ∀ {n : Nat} {l l' : Lookahead}, w.length ≤ n →
    l.Reach w l' → l'.current.kind = .rparen → parameters n l = .ok params l' := by
  induction h with
  | one ht hg =>
    intro n l l' hn hw hend
    obtain ⟨n, rfl⟩ := exists_succ hn
    obtain rfl := hw.current
    refine parameters_eq_ok.mpr ⟨ht, l', advance_of_reach hw, hg, Or.inr ⟨?_, rfl, rfl⟩⟩
    rw [hend]
    decide
  | more ht hg hc _ ih =>
    intro n l l' hn hw hend
    rw [List.length_cons, List.length_cons] at hn
    obtain ⟨n, rfl⟩ := exists_succ hn
    obtain rfl := hw.current
    obtain ⟨m, hm, hw⟩ := Lookahead.reach_cons.mp hw
    obtain rfl := hw.current
    obtain ⟨m', hm', hw⟩ := Lookahead.reach_cons.mp hw
    refine parameters_eq_ok.mpr ⟨ht, m, advance_of_reach hm, hg, Or.inl ⟨hc, m', ?_⟩⟩
    exact ⟨_, advance_of_reach hm', ih (by omega) hw hend, rfl⟩

private theorem comparison_of_reads {test : Comparison Node} {w : List Token} {n : Nat}
    {l l' : Lookahead} (h : ReadsComparison src test w) (hn : 8 * w.length + 6 ≤ n)
    (hw : l.Reach w l') (hend : l'.current.kind = .newline) :
    comparison src n l = .ok test l' := by
  cases h with
  | @mk left right t op u v hleft hop hright =>
    rw [List.length_cons, List.length_append, List.length_cons] at hn
    obtain rfl := hw.current
    rw [← List.cons_append] at hw
    obtain ⟨m, hu, hw⟩ := Lookahead.reach_append.mp hw
    obtain rfl := hw.current
    obtain ⟨m', hm', hv⟩ := Lookahead.reach_cons.mp hw
    -- both sides are expressions: a relation ends the left one, the line the right one
    refine comparison_eq_ok.mpr ⟨left, m, ?_, hop, m', advance_of_reach hm', right, ?_, rfl⟩
    · refine accepts hleft (by rw [List.length_cons]; omega) hu ?_
      cases hk : m.current.kind <;> first | rfl | (rw [hk] at hop; exact nomatch hop)
    · exact accepts hright (by omega) hv (by rw [hend]; rfl)

/-- The parameters of a function with their parentheses, if there are any. -/
private theorem header_of_reads {params : List String} {w : List Token} {n : Nat}
    {l l' : Lookahead} (h : ReadsHeader params w) (hn : w.length ≤ n) (hw : l.Reach w l')
    (hend : l'.current.kind = .newline) :
    (l.current.kind = .lparen ∧ ∃ m m', advance l = .ok () m ∧
      parameters n m = .ok params m' ∧ m'.current.kind = .rparen ∧ advance m' = .ok () l') ∨
    (l.current.kind ≠ .lparen ∧ params = [] ∧ l' = l) := by
  cases h with
  | none =>
    obtain rfl := Lookahead.reach_nil.mp hw
    exact Or.inr ⟨by rw [hend]; decide, rfl, rfl⟩
  | some ho hparams hc =>
    rw [List.length_cons, List.length_append] at hn
    obtain rfl := hw.current
    obtain ⟨m, hm, hw⟩ := Lookahead.reach_cons.mp hw
    obtain ⟨m', hw, hm'⟩ := Lookahead.reach_append.mp hw
    have hk : m'.current.kind = .rparen := by rw [hm'.current, hc]
    exact Or.inl ⟨ho, m, m', advance_of_reach hm, parameters_of_reads hparams (by omega) hw hk,
      hk, advance_of_reach hm'⟩

private theorem accept_function {params : List String} {body : List Node} {n : Nat}
    {kw name newline closing : Token} {u v : List Token} {l l' : Lookahead}
    (hn : 8 * v.length + u.length + 3 ≤ n) (hk : kw.kind = .kwBegin) (hi : name.kind = .ident)
    (hu : ReadsHeader params u) (hnl : newline.kind = .newline)
    (hv : AcceptsClause src (.statements true body) v) (hc : closing.kind = .kwEnd)
    (hw : l.Reach (kw :: name :: (u ++ newline :: (v ++ [closing]))) l') :
    statement src true n l = .ok
      (.function ⟨src.locate kw, isGlobalName name.text, name.text, params, body⟩) l' := by
  obtain ⟨n, rfl⟩ : ∃ k, n = k + 2 := ⟨n - 2, by omega⟩
  obtain rfl := hw.current
  obtain ⟨m, hm, hw⟩ := Lookahead.reach_cons.mp hw
  obtain rfl := hw.current
  obtain ⟨m₁, hm₁, hw⟩ := Lookahead.reach_cons.mp hw
  obtain ⟨m₂, hm₂, hw⟩ := Lookahead.reach_append.mp hw
  obtain rfl := hw.current
  obtain ⟨m₃, hm₃, hw⟩ := Lookahead.reach_cons.mp hw
  obtain ⟨m₄, hm₄, hw⟩ := Lookahead.reach_append.mp hw
  obtain rfl := hw.current
  -- `m₁` is after the name, `m₂` after the parameters, `m₃` in the next line, `m₄` after the body
  refine (statement_of_begin hk).mpr (Or.inl ⟨rfl, function_eq_ok.mpr ?_⟩)
  refine ⟨hk, m, advance_of_reach hm, hi, m₁, advance_of_reach hm₁, params, m₂,
    header_of_reads hu (by omega) hm₂ hnl, hnl, m₃, advance_of_reach hm₃, body, m₄, ?_, hc,
    advance_of_reach hw, rfl⟩
  exact hv (by omega) hm₄ (by rw [hc]; rfl)

private theorem accept_loop {functions : Bool} {test : Comparison Node} {body : List Node}
    {n : Nat} {kw newline closing : Token} {u v : List Token} {l l' : Lookahead}
    (hn : 8 * u.length + 8 * v.length + 8 ≤ n) (hk : kw.kind = .kwWhile ∨ kw.kind = .kwUntil)
    (hu : ReadsComparison src test u) (hnl : newline.kind = .newline)
    (hv : AcceptsClause src (.statements false body) v) (hc : closing.kind = .kwEnd)
    (hw : l.Reach (kw :: (u ++ newline :: (v ++ [closing]))) l') :
    statement src functions n l =
      .ok (.loop (src.locate kw) (kw.kind = .kwWhile) test body) l' := by
  obtain ⟨n, rfl⟩ : ∃ k, n = k + 2 := ⟨n - 2, by omega⟩
  obtain rfl := hw.current
  obtain ⟨m, hm, hw⟩ := Lookahead.reach_cons.mp hw
  obtain ⟨m₁, hm₁, hw⟩ := Lookahead.reach_append.mp hw
  obtain rfl := hw.current
  obtain ⟨m₂, hm₂, hw⟩ := Lookahead.reach_cons.mp hw
  obtain ⟨m₃, hm₃, hw⟩ := Lookahead.reach_append.mp hw
  obtain rfl := hw.current
  -- `m₁` is after the test, `m₂` in the next line, `m₃` after the body
  refine (statement_of_loop hk).mpr (loop_eq_ok.mpr ?_)
  refine ⟨by simpa using hk, m, advance_of_reach hm, test, m₁,
    comparison_of_reads hu (by omega) hm₁ hnl, hnl, m₂, advance_of_reach hm₂, body, m₃, ?_, hc,
    advance_of_reach hw, rfl⟩
  exact hv (by omega) hm₃ (by rw [hc]; rfl)

private theorem accept_ifThen {functions : Bool} {test : Comparison Node} {body : List Node}
    {n : Nat} {kw newline closing : Token} {u v : List Token} {l l' : Lookahead}
    (hn : 8 * u.length + 8 * v.length + 8 ≤ n) (hk : kw.kind = .kwIf)
    (hu : ReadsComparison src test u) (hnl : newline.kind = .newline)
    (hv : AcceptsClause src (.statements false body) v) (hc : closing.kind = .kwEnd)
    (hw : l.Reach (kw :: (u ++ newline :: (v ++ [closing]))) l') :
    statement src functions n l = .ok (.conditional (src.locate kw) test body []) l' := by
  obtain ⟨n, rfl⟩ : ∃ k, n = k + 2 := ⟨n - 2, by omega⟩
  obtain rfl := hw.current
  obtain ⟨m, hm, hw⟩ := Lookahead.reach_cons.mp hw
  obtain ⟨m₁, hm₁, hw⟩ := Lookahead.reach_append.mp hw
  obtain rfl := hw.current
  obtain ⟨m₂, hm₂, hw⟩ := Lookahead.reach_cons.mp hw
  obtain ⟨m₃, hm₃, hw⟩ := Lookahead.reach_append.mp hw
  obtain rfl := hw.current
  refine (statement_of_if hk).mpr (conditional_eq_ok.mpr ?_)
  -- no key word starts another branch after the body (`m₃`)
  refine ⟨hk, m, advance_of_reach hm, test, m₁, comparison_of_reads hu (by omega) hm₁ hnl, hnl,
    m₂, advance_of_reach hm₂, body, m₃, ?_, [], m₃, Or.inr ⟨by rw [hc]; decide, rfl, rfl⟩, hc,
    advance_of_reach hw, rfl⟩
  exact hv (by omega) hm₃ (by rw [hc]; rfl)

private theorem accept_ifThenElse {functions : Bool} {test : Comparison Node}
    {thenBody elseBody : List Node} {n : Nat} {kw newline kwElse newline' closing : Token}
    {u v w : List Token} {l l' : Lookahead}
    (hn : 8 * u.length + 8 * v.length + 8 * w.length + 8 ≤ n) (hk : kw.kind = .kwIf)
    (hu : ReadsComparison src test u) (hnl : newline.kind = .newline)
    (hv : AcceptsClause src (.statements false thenBody) v) (he : kwElse.kind = .kwElse)
    (hnl' : newline'.kind = .newline) (hw : AcceptsClause src (.statements false elseBody) w)
    (hc : closing.kind = .kwEnd)
    (hr : l.Reach (kw :: (u ++ newline :: (v ++ kwElse :: newline' :: (w ++ [closing])))) l') :
    statement src functions n l =
      .ok (.conditional (src.locate kw) test thenBody elseBody) l' := by
  obtain ⟨n, rfl⟩ : ∃ k, n = k + 2 := ⟨n - 2, by omega⟩
  obtain rfl := hr.current
  obtain ⟨m, hm, hr⟩ := Lookahead.reach_cons.mp hr
  obtain ⟨m₁, hm₁, hr⟩ := Lookahead.reach_append.mp hr
  obtain rfl := hr.current
  obtain ⟨m₂, hm₂, hr⟩ := Lookahead.reach_cons.mp hr
  obtain ⟨m₃, hm₃, hr⟩ := Lookahead.reach_append.mp hr
  obtain rfl := hr.current
  obtain ⟨m₄, hm₄, hr⟩ := Lookahead.reach_cons.mp hr
  obtain rfl := hr.current
  obtain ⟨m₅, hm₅, hr⟩ := Lookahead.reach_cons.mp hr
  obtain ⟨m₆, hm₆, hr⟩ := Lookahead.reach_append.mp hr
  obtain rfl := hr.current
  refine (statement_of_if hk).mpr (conditional_eq_ok.mpr ?_)
  -- the key word after the first branch (`m₃`) starts the other one, which ends at `m₆`
  refine ⟨hk, m, advance_of_reach hm, test, m₁, comparison_of_reads hu (by omega) hm₁ hnl, hnl,
    m₂, advance_of_reach hm₂, thenBody, m₃, ?_, elseBody, m₆,
    Or.inl ⟨he, m₄, m₅, advance_of_reach hm₄, hnl', advance_of_reach hm₅, ?_⟩, hc,
    advance_of_reach hr, rfl⟩
  · exact hv (by omega) hm₃ (by rw [he]; rfl)
  · exact hw (by omega) hm₆ (by rw [hc]; rfl)

private theorem accept_assign {functions : Bool} {e : Node} {n : Nat} {t arrow : Token}
    {w : List Token} {l l' : Lookahead} (hn : 8 * w.length + 7 ≤ n) (ht : t.kind = .ident)
    (ha : arrow.kind = .assign) (he : Reads src (.expression e) w)
    (hw : l.Reach (t :: arrow :: w) l') (hend : l'.current.kind = .newline) :
    statement src functions n l =
      .ok (.assign (src.locate t) (isGlobalName t.text) t.text (some e)) l' := by
  obtain ⟨n, rfl⟩ := exists_succ hn
  obtain rfl := hw.current
  obtain ⟨m, hm, hw⟩ := Lookahead.reach_cons.mp hw
  obtain rfl := hw.current
  obtain ⟨m', hm', hw⟩ := Lookahead.reach_cons.mp hw
  refine (statement_of_ident ht).mpr ⟨m.current, l, peek_of_reach hm, Or.inl ⟨ha, ?_⟩⟩
  refine assignment_eq_ok.mpr ⟨ht, m, advance_of_reach hm, ha, m', advance_of_reach hm',
    Or.inr ⟨?_, e, accepts he (by omega) hw (by rw [hend]; rfl), rfl⟩⟩
  -- the line does not end where an expression starts
  obtain ⟨t, v, rfl, hstart⟩ := he.start rfl
  intro hk
  rw [← hw.current, hk] at hstart
  exact nomatch hstart

private theorem accept_erase {functions : Bool} {n : Nat} {t arrow : Token} {l l' : Lookahead}
    (hn : 1 ≤ n) (ht : t.kind = .ident) (ha : arrow.kind = .assign)
    (hw : l.Reach [t, arrow] l') (hend : l'.current.kind = .newline) :
    statement src functions n l =
      .ok (.assign (src.locate t) (isGlobalName t.text) t.text none) l' := by
  obtain ⟨n, rfl⟩ := exists_succ hn
  obtain rfl := hw.current
  obtain ⟨m, hm, hw⟩ := Lookahead.reach_cons.mp hw
  obtain rfl := hw.current
  refine (statement_of_ident ht).mpr ⟨m.current, l, peek_of_reach hm, Or.inl ⟨ha, ?_⟩⟩
  -- the line ends after the arrow
  exact assignment_eq_ok.mpr ⟨ht, m, advance_of_reach hm, ha, l', advance_of_reach hw,
    Or.inl ⟨hend, rfl, rfl⟩⟩

/-- A statement that is nothing but a call. -/
private theorem accept_callOutput {functions : Bool} {e : Node} {n : Nat} {t : Token}
    {w : List Token} {l l' : Lookahead} (hn : 8 * (t :: w).length + 2 ≤ n)
    (he : Reads src (.call e) (t :: w)) (hw : l.Reach (t :: w) l')
    (hend : l'.current.kind = .newline) :
    statement src functions n l = .ok (.output (src.locate t) e) l' := by
  obtain ⟨n, rfl⟩ := exists_succ hn
  have hcall : call src n l = .ok e l' := accepts he (by omega) hw
  obtain rfl := hw.current
  obtain ⟨t, opening, args, v, heq, ht, ho, _⟩ := he.call_cases
  obtain ⟨rfl, rfl⟩ := List.cons.inj heq
  obtain ⟨m, hm, hw⟩ := Lookahead.reach_cons.mp hw
  -- the name is followed by a parenthesis, and the call by the end of the line
  refine (statement_of_ident ht).mpr ⟨m.current, l, peek_of_reach hm, Or.inr (Or.inl ⟨?_, ?_⟩)⟩
  · rw [hw.current, ho]
  · exact callOutput_eq_ok.mpr ⟨e, l', hcall, Or.inl ⟨hend, rfl, rfl⟩⟩

/-- An expression that starts with a call and goes on after it. -/
private theorem callOutput_of_reads {e : Node} {n : Nat} {t next : Token} {w : List Token}
    {l l' : Lookahead} (hn : 8 * (t :: w).length + 6 ≤ n)
    (he : Reads src (.expression e) (t :: w)) (ht : t.kind = .ident)
    (hnext : next ∈ w.head?) (hp : next.kind = .lparen) (hlone : e.isLoneCall = false)
    (hw : l.Reach (t :: w) l') (hend : l'.current.kind = .newline) :
    callOutput src n l = .ok (.output (src.locate t) e) l' := by
  obtain ⟨c, others, product, u, v, x, y, heq, hc, hothers, hproduct, hsum⟩ :=
    he.expression_of_call_start ht hnext hp
  obtain ⟨t', opening, args, u', rfl, _, _, hloc⟩ := hc.call_cases
  obtain rfl : t = t' := (List.cons.inj heq).1
  rw [heq] at hn hw
  simp only [List.length_append] at hn
  obtain rfl := hw.current
  obtain ⟨m, hm, hw⟩ := Lookahead.reach_append.mp hw
  have hstop : l'.current.kind.endsExpression = true := by rw [hend]; rfl
  refine callOutput_eq_ok.mpr ⟨c, m, accepts hc (by omega) hm, Or.inr ⟨?_, others, ?_⟩⟩
  · -- something follows the call, or else it would be alone
    intro hk
    cases hvxy : v ++ (x ++ y) with
    | nil =>
      obtain ⟨rfl, rfl, rfl⟩ : v = [] ∧ x = [] ∧ y = [] := by simpa using hvxy
      obtain rfl := hothers.eq_nil
      obtain rfl := hproduct.eq_of_products_nil
      obtain rfl := hsum.eq_of_sums_nil
      rw [hloc] at hlone
      exact nomatch hlone
    | cons t v' =>
      rw [hvxy] at hw
      have hmem : t ∈ v ++ (x ++ y) := by rw [hvxy]; exact List.mem_cons_self
      have hin : t.kind.inExpression = true := by
        simp only [List.mem_append] at hmem
        rcases hmem with h | h | h
        · exact hothers.inExpression t h
        · exact hproduct.inExpression t h
        · exact hsum.inExpression t h
      rw [← hw.current, hk] at hin
      exact nomatch hin
  -- the other elements, the rest of the term and the rest of the sum
  · obtain ⟨m₁, hm₁, hw⟩ := Lookahead.reach_append.mp hw
    obtain ⟨m₂, hm₂, hw⟩ := Lookahead.reach_append.mp hw
    have hterm := endsTerm_of_sums hsum hw hstop
    refine ⟨m₁, product, m₂, e, ?_, ?_, ?_, rfl⟩
    · exact accepts hothers (by omega) hm₁ (endsVector_of_products hproduct hm₂ hterm)
    · rw [show c.location = src.locate l.current by rw [hloc]; rfl]
      exact accepts hproduct (by omega) hm₂ hterm
    · exact accepts hsum (by omega) hw hstop

/-- The statement that starts with an expression prints it. -/
private theorem output_of_reads {e : Node} {n : Nat} {t : Token} {w : List Token}
    {l l' : Lookahead} (hn : 8 * (t :: w).length + 6 ≤ n)
    (he : Reads src (.expression e) (t :: w)) (hw : l.Reach (t :: w) l')
    (hend : l'.current.kind = .newline) :
    output src n l = .ok (.output (src.locate t) e) l' := by
  obtain rfl := hw.current
  exact output_eq_ok.mpr ⟨e, accepts he hn hw (by rw [hend]; rfl), rfl⟩

private theorem accept_output {functions : Bool} {e : Node} {n : Nat} {t : Token}
    {w : List Token} {l l' : Lookahead} (hn : 8 * (t :: w).length + 7 ≤ n)
    (he : Reads src (.expression e) (t :: w)) (hlone : t.kind = .ident → e.isLoneCall = false)
    (hw : l.Reach (t :: w) l') (hend : l'.current.kind = .newline) :
    statement src functions n l = .ok (.output (src.locate t) e) l' := by
  obtain ⟨n, rfl⟩ := exists_succ hn
  obtain rfl := hw.current
  have hout : output src n l = .ok (.output (src.locate l.current) e) l' :=
    output_of_reads (by omega) he hw hend
  obtain ⟨t, v, heq, hstart⟩ := he.start rfl
  obtain ⟨rfl, rfl⟩ := List.cons.inj heq
  by_cases ht : l.current.kind = .ident
  · obtain ⟨m, hm, hw'⟩ := Lookahead.reach_cons.mp hw
    refine (statement_of_ident ht).mpr ⟨m.current, l, peek_of_reach hm, ?_⟩
    by_cases hp : m.current.kind = .lparen
    · -- the parenthesis belongs to the expression, which starts with a call
      refine Or.inr (Or.inl ⟨hp, ?_⟩)
      cases w with
      | nil =>
        obtain rfl := Lookahead.reach_nil.mp hw'
        exact nomatch hend.symm.trans hp
      | cons next w =>
        obtain rfl := hw'.current
        exact callOutput_of_reads (by omega) he ht rfl hp (hlone ht) hw hend
    -- an arrow is no part of an expression
    · refine Or.inr (Or.inr ⟨?_, hp, hout⟩)
      intro hk
      cases w with
      | nil =>
        obtain rfl := Lookahead.reach_nil.mp hw'
        exact nomatch hend.symm.trans hk
      | cons next w =>
        have hin := he.inExpression next (by simp)
        rw [← hw'.current, hk] at hin
        exact nomatch hin
  -- what an expression starts with, apart from names, starts no other statement
  · refine (statement_of_other ?_).mpr hout
    cases hk : l.current.kind <;> simp_all [elementStart]

/-- What is read as a clause is accepted as such. -/
theorem acceptsClause {clause : Clause} {w : List Token} (h : ReadsClause src clause w) :
    AcceptsClause src clause w := by
  induction h with
  | function hk hi hu hnl _ hc ih =>
    intro n l l' hn hw _
    simp only [List.length_cons, List.length_append] at hn
    exact accept_function (by omega) hk hi hu hnl ih hc hw
  | loop hk hu hnl _ hc ih =>
    intro n l l' hn hw _
    simp only [List.length_cons, List.length_append] at hn
    exact accept_loop (by omega) hk hu hnl ih hc hw
  | ifThen hk hu hnl _ hc ih =>
    intro n l l' hn hw _
    simp only [List.length_cons, List.length_append] at hn
    exact accept_ifThen (by omega) hk hu hnl ih hc hw
  | ifThenElse hk hu hnl _ he hnl' _ hc ihv ihw =>
    intro n l l' hn hw _
    simp only [List.length_cons, List.length_append] at hn
    exact accept_ifThenElse (by omega) hk hu hnl ihv he hnl' ihw hc hw
  | assign ht ha he =>
    intro n l l' hn hw hend
    simp only [List.length_cons] at hn
    exact accept_assign (by omega) ht ha he hw hend
  | erase ht ha =>
    intro n l l' hn hw hend
    exact accept_erase (by omega) ht ha hw hend
  | callOutput he =>
    intro n l l' hn hw hend
    exact accept_callOutput (by omega) he hw hend
  | output he hlone =>
    intro n l l' hn hw hend
    exact accept_output hn he hlone hw hend
  | @one functions e newline w he hnl ih =>
    intro n l l' hn hw hend
    rw [List.length_append, List.length_singleton] at hn
    obtain ⟨n, rfl⟩ := exists_succ hn
    obtain ⟨m, hm, hw⟩ := Lookahead.reach_append.mp hw
    obtain rfl := hw.current
    exact statements_eq_ok.mpr ⟨e, m, l', ih (by omega) hm hnl, hnl, advance_of_reach hw,
      Or.inl ⟨hend, rfl, rfl⟩⟩
  | @more functions e es newline u v _ hnl hv ihu ihv =>
    intro n l l' hn hw hend
    rw [List.length_append, List.length_cons] at hn
    obtain ⟨n, rfl⟩ := exists_succ hn
    obtain ⟨m, hm, hw⟩ := Lookahead.reach_append.mp hw
    obtain rfl := hw.current
    obtain ⟨m', hm', hw⟩ := Lookahead.reach_cons.mp hw
    -- the next line starts a statement, and no key word that ends the block
    refine statements_eq_ok.mpr ⟨e, m, m', ihu (by omega) hm hnl, hnl, advance_of_reach hm',
      Or.inr ⟨?_, es, ihv (by omega) hw hend, rfl⟩⟩
    obtain ⟨t, v, rfl, ht⟩ := head_of_clause hv
    rw [hw.current]
    exact ht

/-- What is read as a program is accepted as such. -/
theorem program_of_reads {p : Program} {w : List Token} {n : Nat} {l : Lookahead}
    (h : ReadsProgram src p w) (hl : l.tokens = w) (hfault : l.fault = none)
    (hn : 8 * w.length ≤ n) : ∃ l', program src n l = .ok p l' := by
  cases h with
  | @mk body kw name newline closing eof v rest hk hi hnl hv hc hrest hlength heof =>
    simp only [List.length_cons, List.length_append] at hn
    -- the parser stops at the end of the text
    have hw : l.Reach (kw :: name :: newline :: (v ++ closing :: rest))
        ⟨l.asked + (kw :: name :: newline :: (v ++ closing :: rest)).length, eof, [],
          l.fault⟩ := by
      refine ⟨?_, rfl, rfl⟩
      rw [hl]
      simp [Lookahead.tokens]
    generalize hdone : Lookahead.mk _ eof [] l.fault = done at hw
    have heof' : done.current.kind = .eof := by rw [← hdone]; exact heof
    obtain ⟨l', hlast⟩ : ∃ l', advance done = .ok () l' := by
      rw [← hdone, hfault]
      exact ⟨_, rfl⟩
    obtain rfl := hw.current
    obtain ⟨m, hm, hw⟩ := Lookahead.reach_cons.mp hw
    obtain rfl := hw.current
    obtain ⟨m₁, hm₁, hw⟩ := Lookahead.reach_cons.mp hw
    obtain rfl := hw.current
    obtain ⟨m₂, hm₂, hw⟩ := Lookahead.reach_cons.mp hw
    obtain ⟨m₃, hm₃, hw⟩ := Lookahead.reach_append.mp hw
    obtain rfl := hw.current
    obtain ⟨m₄, hm₄, hw⟩ := Lookahead.reach_cons.mp hw
    refine ⟨l', program_eq_ok.mpr ⟨hk, m, advance_of_reach hm, hi, m₁, advance_of_reach hm₁, hnl,
      m₂, advance_of_reach hm₂, body, m₃, acceptsClause hv (by omega) hm₃ (by rw [hc]; rfl), hc,
      m₄, advance_of_reach hm₄, done, ?_, heof', hlast, rfl⟩⟩
    -- the line end after the last key word may be left out
    cases rest with
    | nil =>
      obtain rfl := Lookahead.reach_nil.mp hw
      exact Or.inr ⟨by rw [heof']; decide, rfl⟩
    | cons t rest =>
      obtain rfl : rest = [] := List.length_eq_zero_iff.mp (by simpa using hlength)
      obtain rfl := hw.current
      exact Or.inl ⟨hrest _ List.mem_cons_self, advance_of_reach hw⟩

end Parser

end VectorLang
