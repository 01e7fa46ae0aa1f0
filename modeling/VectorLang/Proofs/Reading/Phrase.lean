import VectorLang.Tree.Parser

/-!
# How tokens are read as trees

`Reads src phrase w` says that the row of tokens `w` is read as the trees that the phrase
carries.  It is a grammar with attributes: it has a rule for each way to read a phrase,
says nothing about what stands after the phrase, and recurses on nothing but the phrase.

The rules of a row of elements keep it unambiguous.  A name before a parenthesis is the
start of a call, and an operator takes all elements that follow it.

* `Reads.kind_of_elements`   a row of elements starts like an element
* `Reads.eq_nil`             the empty row has no elements
-/

namespace VectorLang

/-- Whether a node is a vector whose only element is a call.  A statement that consists of
    nothing but a call is read as the call and not as such a vector. -/
def Node.isLoneCall : Node → Bool
  | .vector _ [.call ..] => true
  | _ => false

/-- How tightly an operator binds its operands. -/
def Arithmetic.strength : Arithmetic → Nat
  | add | sub => 1
  | mul | div => 2

/-- How tightly the parts of a node are bound.  Only operators between two operands bind
    less than anything else. -/
def Node.strength : Node → Nat
  | .binary _ op _ _ => op.strength
  | _ => 3

theorem Node.strength_of_isLoneCall {e : Node} (h : e.isLoneCall = true) : e.strength = 3 := by
  cases e with
  | vector => rfl
  | _ => exact nomatch h

/-- A phrase of an expression, with the trees that it is read as. -/
inductive Phrase where
  | expression (e : Node)
  /-- What follows a term of an expression: `left` is read so far, and `e` in all. -/
  | sums (left e : Node)
  | term (e : Node)
  /-- What follows a factor of a term. -/
  | products (left e : Node)
  | factor (e : Node)
  | vector (e : Node)
  /-- A row of elements, which may be empty. -/
  | elements (es : List Node)
  /-- An element whose last token is known without the one after it. -/
  | atom (e : Node)
  | call (e : Node)
  /-- One or more arguments. -/
  | arguments (es : List Node)

/-- Whether a phrase may have no tokens. -/
def Phrase.isTail : Phrase → Bool
  | sums .. | products .. | elements .. => true
  | _ => false

/-- The kinds of token that expressions are made of. -/
def Kind.inExpression : Kind → Bool
  | lparen | rparen | lbracket | rbracket | comma | plus | minus | tilde | star | slash | hash
  | ident | int | string => true
  | _ => false

theorem inExpression_of_sumOp {k : Kind} {op : Arithmetic} (h : sumOp? k = some op) :
    k.inExpression = true := by
  cases k <;> first | rfl | exact nomatch h

theorem inExpression_of_productOp {k : Kind} {op : Arithmetic} (h : productOp? k = some op) :
    k.inExpression = true := by
  cases k <;> first | rfl | exact nomatch h

theorem strength_of_sumOp {k : Kind} {op : Arithmetic} (h : sumOp? k = some op) :
    op.strength = 1 := by
  cases k <;> cases h <;> rfl

theorem strength_of_productOp {k : Kind} {op : Arithmetic} (h : productOp? k = some op) :
    op.strength = 2 := by
  cases k <;> cases h <;> rfl

theorem elementStart_of_unaryOp {k : Kind} {op : UnaryOp} (h : unaryOp? k = some op) :
    elementStart.contains k = true := by
  cases k <;> first | rfl | exact nomatch h

theorem inExpression_of_elementStart {k : Kind} (h : elementStart.contains k = true) :
    k.inExpression = true := by
  cases k <;> first | rfl | exact nomatch h

/-- The tokens that a phrase of an expression is read from. -/
inductive Reads (src : Source) : Phrase → List Token → Prop where
  | expression {left e : Node} {u v : List Token} :
      Reads src (.term left) u → Reads src (.sums left e) v →
      Reads src (.expression e) (u ++ v)
  | sumsNil {e : Node} : Reads src (.sums e e) []
  | sumsCons {left right e : Node} {op : Arithmetic} {t : Token} {u v : List Token} :
      sumOp? t.kind = some op → Reads src (.term right) u →
      Reads src (.sums (.binary (src.locate t) op left right) e) v →
      Reads src (.sums left e) (t :: (u ++ v))
  | term {left e : Node} {u v : List Token} :
      Reads src (.factor left) u → Reads src (.products left e) v →
      Reads src (.term e) (u ++ v)
  | productsNil {e : Node} : Reads src (.products e e) []
  | productsCons {left right e : Node} {op : Arithmetic} {t : Token} {u v : List Token} :
      productOp? t.kind = some op → Reads src (.factor right) u →
      Reads src (.products (.binary (src.locate t) op left right) e) v →
      Reads src (.products left e) (t :: (u ++ v))
  | unary {operand : Node} {op : UnaryOp} {t : Token} {w : List Token} :
      unaryOp? t.kind = some op → Reads src (.vector operand) w →
      Reads src (.factor (.unary (src.locate t) op operand)) (t :: w)
  | paren {e : Node} {opening closing : Token} {w : List Token} :
      opening.kind = .lparen → Reads src (.expression e) w → closing.kind = .rparen →
      Reads src (.factor e) (opening :: (w ++ [closing]))
  | bare {e : Node} {t : Token} {w : List Token} :
      unaryOp? t.kind = none → t.kind ≠ .lparen → Reads src (.vector e) (t :: w) →
      Reads src (.factor e) (t :: w)
  | vector {e : Node} {es : List Node} {t : Token} {w : List Token} :
      Reads src (.elements (e :: es)) (t :: w) →
      Reads src (.vector (.vector (src.locate t) (e :: es))) (t :: w)
  | elementsNil : Reads src (.elements []) []
  | elementsAtom {e : Node} {es : List Node} {u v : List Token} :
      Reads src (.atom e) u → Reads src (.elements es) v →
      Reads src (.elements (e :: es)) (u ++ v)
  | elementsName {es : List Node} {t : Token} {v : List Token} :
      t.kind = .ident → Reads src (.elements es) v →
      (∀ next ∈ v.head?, next.kind ≠ .lparen) →
      Reads src (.elements (.var (src.locate t) (isGlobalName t.text) t.text none :: es)) (t :: v)
  | elementsParen {e : Node} {es : List Node} {opening closing : Token} {u v : List Token} :
      opening.kind = .lparen → Reads src (.expression e) u → closing.kind = .rparen →
      Reads src (.elements es) v →
      Reads src (.elements (e :: es)) (opening :: (u ++ closing :: v))
  | elementsUnary {operand : Node} {op : UnaryOp} {t : Token} {w : List Token} :
      unaryOp? t.kind = some op → Reads src (.vector operand) w →
      Reads src (.elements [.unary (src.locate t) op operand]) (t :: w)
  | int {t : Token} {value : Int} :
      t.kind = .int → Numeral.read t.text.toList = .ok value →
      Reads src (.atom (.int (src.locate t) value)) [t]
  | string {t : Token} :
      t.kind = .string → Reads src (.atom (.string (src.locate t) t.text)) [t]
  | subscript {e : Node} {t opening closing : Token} {w : List Token} :
      t.kind = .ident → opening.kind = .lbracket → Reads src (.expression e) w →
      closing.kind = .rbracket →
      Reads src (.atom (.var (src.locate t) (isGlobalName t.text) t.text (some e)))
        (t :: opening :: (w ++ [closing]))
  | callAtom {e : Node} {w : List Token} : Reads src (.call e) w → Reads src (.atom e) w
  | callNone {t opening closing : Token} :
      t.kind = .ident → opening.kind = .lparen → closing.kind = .rparen →
      Reads src (.call (.call (src.locate t) (isGlobalName t.text) t.text []))
        [t, opening, closing]
  | callSome {es : List Node} {t opening closing : Token} {w : List Token} :
      t.kind = .ident → opening.kind = .lparen → Reads src (.arguments es) w →
      closing.kind = .rparen →
      Reads src (.call (.call (src.locate t) (isGlobalName t.text) t.text es))
        (t :: opening :: (w ++ [closing]))
  | argumentsOne {e : Node} {w : List Token} :
      Reads src (.expression e) w → Reads src (.arguments [e]) w
  | argumentsMore {e : Node} {es : List Node} {comma : Token} {u v : List Token} :
      Reads src (.expression e) u → comma.kind = .comma → Reads src (.arguments es) v →
      Reads src (.arguments (e :: es)) (u ++ comma :: v)

namespace Reads

variable {src : Source} {e : Node} {es : List Node} {w : List Token}

/-- A call starts with a name and a parenthesis, and is read as a call at the name. -/
theorem call_cases (h : Reads src (.call e) w) :
    ∃ t opening args v, w = t :: opening :: v ∧ t.kind = .ident ∧ opening.kind = .lparen ∧
      e = .call (src.locate t) (isGlobalName t.text) t.text args := by
  cases h with
  | callNone ht ho _ => exact ⟨_, _, _, _, rfl, ht, ho, rfl⟩
  | callSome ht ho _ _ => exact ⟨_, _, _, _, rfl, ht, ho, rfl⟩

/-- An atom starts with a name, a numeral or a string, and stands where that token does. -/
theorem atom_cases (h : Reads src (.atom e) w) :
    ∃ t v, w = t :: v ∧ (t.kind = .int ∨ t.kind = .string ∨ t.kind = .ident) ∧
      e.location = src.locate t := by
  cases h with
  | int ht _ => exact ⟨_, _, rfl, Or.inl ht, rfl⟩
  | string ht => exact ⟨_, _, rfl, Or.inr (Or.inl ht), rfl⟩
  | subscript ht _ _ _ => exact ⟨_, _, rfl, Or.inr (Or.inr ht), rfl⟩
  | callAtom hc =>
    obtain ⟨t, _, _, v, rfl, ht, _, rfl⟩ := hc.call_cases
    exact ⟨t, _, rfl, Or.inr (Or.inr ht), rfl⟩

/-- A row of elements starts like an element. -/
theorem kind_of_elements (h : Reads src (.elements es) w) :
    ∀ t ∈ w.head?, elementStart.contains t.kind = true := by
  cases h with
  | elementsNil => simp
  | elementsAtom ha _ =>
    obtain ⟨t, v, rfl, ht, _⟩ := ha.atom_cases
    rcases ht with ht | ht | ht <;> simp [ht, elementStart]
  | elementsName ht _ _ => simp [ht, elementStart]
  | elementsParen ho _ _ _ => simp [ho, elementStart]
  | elementsUnary hop _ => simpa using elementStart_of_unaryOp hop

/-- The empty row has no elements. -/
theorem eq_nil (h : Reads src (.elements es) []) : es = [] := by
  generalize hw : ([] : List Token) = w at h
  cases h with
  | elementsNil => rfl
  | elementsAtom ha _ =>
    obtain ⟨t, v, rfl, _, _⟩ := ha.atom_cases
    simp at hw
  | elementsName | elementsParen | elementsUnary => simp at hw

/-- Rows that are not empty have elements. -/
theorem elements_eq_nil (h : Reads src (.elements []) w) : w = [] := by
  cases h
  rfl

theorem eq_of_sums_nil {left : Node} (h : Reads src (.sums left e) []) : e = left := by
  cases h
  rfl

theorem eq_of_products_nil {left : Node} (h : Reads src (.products left e) []) : e = left := by
  cases h
  rfl

/-- A phrase that is no tail starts like an element. -/
theorem start {phrase : Phrase} (h : Reads src phrase w) (hp : phrase.isTail = false) :
    ∃ t v, w = t :: v ∧ elementStart.contains t.kind = true := by
  induction h with
  | expression _ _ ih _ | term _ _ ih _ =>
    obtain ⟨t, v, rfl, ht⟩ := ih rfl
    exact ⟨t, _, rfl, ht⟩
  | argumentsMore _ _ _ ih _ =>
    obtain ⟨t, v, rfl, ht⟩ := ih rfl
    exact ⟨t, _, rfl, ht⟩
  | bare _ _ _ ih => exact ih rfl
  | callAtom _ ih => exact ih rfl
  | argumentsOne _ ih => exact ih rfl
  | vector hes => exact ⟨_, _, rfl, hes.kind_of_elements _ rfl⟩
  | unary hop _ => exact ⟨_, _, rfl, elementStart_of_unaryOp hop⟩
  | paren ho _ _ => exact ⟨_, _, rfl, by rw [ho]; rfl⟩
  | int ht _ => exact ⟨_, _, rfl, by rw [ht]; rfl⟩
  | string ht => exact ⟨_, _, rfl, by rw [ht]; rfl⟩
  | subscript ht _ _ _ => exact ⟨_, _, rfl, by rw [ht]; rfl⟩
  | callNone ht _ _ => exact ⟨_, _, rfl, by rw [ht]; rfl⟩
  | callSome ht _ _ _ => exact ⟨_, _, rfl, by rw [ht]; rfl⟩
  | sumsNil | sumsCons | productsNil | productsCons => exact nomatch hp
  | elementsNil | elementsAtom | elementsName | elementsParen | elementsUnary =>
    exact nomatch hp

theorem ne_nil {phrase : Phrase} (h : Reads src phrase w) (hp : phrase.isTail = false) :
    w ≠ [] := by
  obtain ⟨t, v, rfl, _⟩ := h.start hp
  exact List.cons_ne_nil t v

/-- All tokens of a phrase are of kinds that expressions are made of. -/
theorem inExpression {phrase : Phrase} (h : Reads src phrase w) :
    ∀ t ∈ w, t.kind.inExpression = true := by
  induction h with
  | sumsCons hop _ _ ihu ihv =>
    simp only [List.forall_mem_cons, List.forall_mem_append]
    exact ⟨inExpression_of_sumOp hop, ihu, ihv⟩
  | productsCons hop _ _ ihu ihv =>
    simp only [List.forall_mem_cons, List.forall_mem_append]
    exact ⟨inExpression_of_productOp hop, ihu, ihv⟩
  | unary hop _ ih | elementsUnary hop _ ih =>
    simp only [List.forall_mem_cons]
    exact ⟨inExpression_of_elementStart (elementStart_of_unaryOp hop), ih⟩
  -- the other rules name the kinds of their own tokens
  | _ => simp_all [Kind.inExpression, or_imp, forall_and]

/-- A sum of one term is that term; every other one is an operation that binds less. -/
theorem sums_cases {left : Node} (h : Reads src (.sums left e) w) :
    (w = [] ∧ e = left) ∨ e.strength = 1 := by
  -- induction, because the operands read so far grow from rule to rule
  generalize hp : Phrase.sums left e = phrase at h
  induction h generalizing left with
  | sumsNil =>
    cases hp
    exact Or.inl ⟨rfl, rfl⟩
  | sumsCons hop _ _ _ ih =>
    cases hp
    rcases ih rfl with ⟨_, rfl⟩ | hstrength
    · exact Or.inr (strength_of_sumOp hop)
    · exact Or.inr hstrength
  | _ => exact nomatch hp

/-- A product of one factor is that factor; every other one is an operation that binds
    less. -/
theorem products_cases {left : Node} (h : Reads src (.products left e) w) :
    (w = [] ∧ e = left) ∨ e.strength = 2 := by
  generalize hp : Phrase.products left e = phrase at h
  induction h generalizing left with
  | productsNil =>
    cases hp
    exact Or.inl ⟨rfl, rfl⟩
  | productsCons hop _ _ _ ih =>
    cases hp
    rcases ih rfl with ⟨_, rfl⟩ | hstrength
    · exact Or.inr (strength_of_productOp hop)
    · exact Or.inr hstrength
  | _ => exact nomatch hp

/-- An expression that binds as much as a product is a term. -/
theorem term_of_expression (h : Reads src (.expression e) w) (he : 2 ≤ e.strength) :
    Reads src (.term e) w := by
  cases h with
  | expression ht hs =>
    obtain ⟨rfl, rfl⟩ := hs.sums_cases.resolve_right (by omega)
    rw [List.append_nil]
    exact ht

/-- An expression that binds more than any operation is a factor. -/
theorem factor_of_expression (h : Reads src (.expression e) w) (he : 3 ≤ e.strength) :
    Reads src (.factor e) w := by
  cases h.term_of_expression (Nat.le_of_succ_le he) with
  | term hf hp =>
    obtain ⟨rfl, rfl⟩ := hp.products_cases.resolve_right (by omega)
    rw [List.append_nil]
    exact hf

/-- An expression that starts with a name and is nothing but a call in a vector is read from
    the tokens of that call. -/
theorem call_of_isLoneCall {t : Token} (h : Reads src (.expression e) (t :: w))
    (ht : t.kind = .ident) (he : e.isLoneCall = true) :
    ∃ c, e = .vector (src.locate t) [c] ∧ Reads src (.call c) (t :: w) := by
  -- a vector is no operation, so that the expression is one factor
  have hf := h.factor_of_expression (Nat.le_of_eq (Node.strength_of_isLoneCall he).symm)
  generalize hw : t :: w = tokens at hf
  cases hf with
  | unary hop _ =>
    cases hw
    rw [ht] at hop
    exact nomatch hop
  | paren ho _ _ =>
    cases hw
    exact nomatch ht.symm.trans ho
  | bare _ _ hv =>
    cases hw
    cases hv with
    | @vector c es _ _ hes =>
      cases es with
      | cons c' es => cases c <;> exact nomatch he
      | nil =>
        refine ⟨c, rfl, ?_⟩
        generalize hw : t :: w = tokens at hes
        cases hes with
        | elementsAtom ha hv =>
          -- the call is the only element, and no atom but a call is a call
          obtain rfl := hv.elements_eq_nil
          rw [List.append_nil] at hw ⊢
          subst hw
          cases ha with
          | callAtom hc => exact hc
          | int | string | subscript => exact nomatch he
        | elementsName _ _ _ => exact nomatch he
        | elementsParen ho _ _ _ =>
          cases hw
          exact nomatch ht.symm.trans ho
        | elementsUnary _ _ => exact nomatch he

/-- A call is an expression: a vector with nothing else in it. -/
theorem expression_of_call {t : Token} (h : Reads src (.call e) (t :: w)) :
    Reads src (.expression (.vector (src.locate t) [e])) (t :: w) := by
  have helements : Reads src (.elements [e]) (t :: w) := by
    simpa using Reads.elementsAtom (.callAtom h) .elementsNil
  obtain ⟨t', opening, _, v, heq, ht, _, _⟩ := h.call_cases
  obtain ⟨rfl, _⟩ := List.cons.inj heq
  have hfactor := Reads.bare (by rw [ht]; rfl) (by rw [ht]; decide) (.vector helements)
  simpa using Reads.expression (.term hfactor .productsNil) .sumsNil

/-- The second token of a row is the second one of its first part, unless the part is a
    single token. -/
private theorem head_of_append {t next : Token} {u v w : List Token}
    (h : u ++ v = t :: w) (hu : u ≠ []) (hnext : next ∈ w.head?)
    (hv : next ∉ v.head?) : ∃ u', u = t :: u' ∧ w = u' ++ v ∧ next ∈ u'.head? := by
  cases u with
  | nil => exact absurd rfl hu
  | cons t' u' =>
    obtain ⟨rfl, rfl⟩ := List.cons.inj h
    cases u' with
    | nil => exact absurd hnext hv
    | cons _ _ => exact ⟨_, rfl, rfl, hnext⟩

private theorem head_of_sums {left : Node} (h : Reads src (.sums left e) w) :
    ∀ t ∈ w.head?, t.kind ≠ .lparen := by
  cases h with
  | sumsNil => simp
  | sumsCons hop _ _ =>
    intro t ht hk
    cases ht
    rw [hk] at hop
    exact nomatch hop

private theorem head_of_products {left : Node} (h : Reads src (.products left e) w) :
    ∀ t ∈ w.head?, t.kind ≠ .lparen := by
  cases h with
  | productsNil => simp
  | productsCons hop _ _ =>
    intro t ht hk
    cases ht
    rw [hk] at hop
    exact nomatch hop

/-- A row of elements whose first tokens are a name and a parenthesis starts with a call. -/
private theorem elements_of_call_start {t next : Token} (h : Reads src (.elements es) (t :: w))
    (ht : t.kind = .ident) (hnext : next ∈ w.head?) (hp : next.kind = .lparen) :
    ∃ c others u v, es = c :: others ∧ t :: w = u ++ v ∧ Reads src (.call c) u ∧
      Reads src (.elements others) v := by
  generalize hw : t :: w = tokens at h
  cases h with
  | elementsNil => exact nomatch hw
  | elementsAtom ha hv =>
    cases ha with
    | callAtom hc => exact ⟨_, _, _, _, rfl, rfl, hc, hv⟩
    | int hk _ | string hk =>
      cases hw
      exact nomatch ht.symm.trans hk
    | subscript _ ho _ _ =>
      cases hw
      cases hnext
      exact nomatch hp.symm.trans ho
  | elementsName _ _ hne =>
    cases hw
    exact absurd hp (hne next hnext)
  | elementsParen ho _ _ _ =>
    cases hw
    exact nomatch ht.symm.trans ho
  | elementsUnary hop _ =>
    cases hw
    rw [ht] at hop
    exact nomatch hop

/-- An expression whose first tokens are a name and a parenthesis starts with a call. -/
theorem expression_of_call_start {t next : Token} (h : Reads src (.expression e) (t :: w))
    (ht : t.kind = .ident) (hnext : next ∈ w.head?) (hp : next.kind = .lparen) :
    ∃ c others product u v x y, t :: w = u ++ (v ++ (x ++ y)) ∧ Reads src (.call c) u ∧
      Reads src (.elements others) v ∧
      Reads src (.products (.vector (src.locate t) (c :: others)) product) x ∧
      Reads src (.sums product e) y := by
  generalize hw : t :: w = tokens at h
  cases h with
  | @expression product _ u y hterm hsums =>
    obtain ⟨u, rfl, rfl, hu⟩ := head_of_append hw.symm (hterm.ne_nil rfl) hnext
      fun h => hsums.head_of_sums next h hp
    generalize hw' : t :: u = tokens' at hterm
    cases hterm with
    | @term left _ u x hfactor hproducts =>
      obtain ⟨u, rfl, rfl, hu'⟩ := head_of_append hw'.symm (hfactor.ne_nil rfl) hu
        fun h => hproducts.head_of_products next h hp
      cases hfactor with
      | unary hop _ =>
        rw [ht] at hop
        exact nomatch hop
      | paren ho _ _ => exact nomatch ht.symm.trans ho
      | bare _ _ hv =>
        cases hv with
        | vector hes =>
          obtain ⟨c, others, v, v', heq, hw, hc, hothers⟩ :=
            hes.elements_of_call_start ht hu' hp
          obtain ⟨rfl, rfl⟩ := List.cons.inj heq
          refine ⟨_, _, product, v, v', x, y, ?_, hc, hothers, hproducts, hsums⟩
          rw [hw, List.append_assoc, List.append_assoc]

end Reads

/-! ## Statements -/

/-- The tokens of a comparison. -/
inductive ReadsComparison (src : Source) : Comparison Node → List Token → Prop where
  | mk {left right : Node} {t op : Token} {u v : List Token} :
      Reads src (.expression left) (t :: u) → relational.contains op.kind = true →
      Reads src (.expression right) v →
      ReadsComparison src ⟨src.locate t, relationOf op.kind, left, right⟩ (t :: (u ++ op :: v))

/-- The tokens of one or more parameters. -/
inductive ReadsParameters : List String → List Token → Prop where
  | one {t : Token} :
      t.kind = .ident → isGlobalName t.text = false → ReadsParameters [t.text] [t]
  | more {t comma : Token} {params : List String} {w : List Token} :
      t.kind = .ident → isGlobalName t.text = false → comma.kind = .comma →
      ReadsParameters params w → ReadsParameters (t.text :: params) (t :: comma :: w)

/-- The tokens of the parameters of a function, with the parentheses around them. -/
inductive ReadsHeader : List String → List Token → Prop where
  | none : ReadsHeader [] []
  | some {params : List String} {opening closing : Token} {w : List Token} :
      opening.kind = .lparen → ReadsParameters params w → closing.kind = .rparen →
      ReadsHeader params (opening :: (w ++ [closing]))

/-- A statement or a block of statements, with the trees that it is read as.  `functions`
    tells whether functions may stand in it. -/
inductive Clause where
  | statement (functions : Bool) (n : Node)
  | statements (functions : Bool) (ns : List Node)

/-- The tokens that a clause is read from. -/
inductive ReadsClause (src : Source) : Clause → List Token → Prop where
  | function {params : List String} {body : List Node} {kw name newline closing : Token}
      {u v : List Token} :
      kw.kind = .kwBegin → name.kind = .ident → ReadsHeader params u →
      newline.kind = .newline → ReadsClause src (.statements true body) v →
      closing.kind = .kwEnd →
      ReadsClause src
        (.statement true
          (.function ⟨src.locate kw, isGlobalName name.text, name.text, params, body⟩))
        (kw :: name :: (u ++ newline :: (v ++ [closing])))
  | loop {functions : Bool} {test : Comparison Node} {body : List Node}
      {kw newline closing : Token} {u v : List Token} :
      kw.kind = .kwWhile ∨ kw.kind = .kwUntil → ReadsComparison src test u →
      newline.kind = .newline → ReadsClause src (.statements false body) v →
      closing.kind = .kwEnd →
      ReadsClause src
        (.statement functions (.loop (src.locate kw) (kw.kind = .kwWhile) test body))
        (kw :: (u ++ newline :: (v ++ [closing])))
  | ifThen {functions : Bool} {test : Comparison Node} {thenBody : List Node}
      {kw newline closing : Token} {u v : List Token} :
      kw.kind = .kwIf → ReadsComparison src test u → newline.kind = .newline →
      ReadsClause src (.statements false thenBody) v → closing.kind = .kwEnd →
      ReadsClause src (.statement functions (.conditional (src.locate kw) test thenBody []))
        (kw :: (u ++ newline :: (v ++ [closing])))
  | ifThenElse {functions : Bool} {test : Comparison Node} {thenBody elseBody : List Node}
      {kw newline kwElse newline' closing : Token} {u v w : List Token} :
      kw.kind = .kwIf → ReadsComparison src test u → newline.kind = .newline →
      ReadsClause src (.statements false thenBody) v → kwElse.kind = .kwElse →
      newline'.kind = .newline → ReadsClause src (.statements false elseBody) w →
      closing.kind = .kwEnd →
      ReadsClause src (.statement functions (.conditional (src.locate kw) test thenBody elseBody))
        (kw :: (u ++ newline :: (v ++ kwElse :: newline' :: (w ++ [closing]))))
  | assign {functions : Bool} {e : Node} {t arrow : Token} {w : List Token} :
      t.kind = .ident → arrow.kind = .assign → Reads src (.expression e) w →
      ReadsClause src
        (.statement functions (.assign (src.locate t) (isGlobalName t.text) t.text (some e)))
        (t :: arrow :: w)
  | erase {functions : Bool} {t arrow : Token} :
      t.kind = .ident → arrow.kind = .assign →
      ReadsClause src
        (.statement functions (.assign (src.locate t) (isGlobalName t.text) t.text none))
        [t, arrow]
  | callOutput {functions : Bool} {e : Node} {t : Token} {w : List Token} :
      Reads src (.call e) (t :: w) →
      ReadsClause src (.statement functions (.output (src.locate t) e)) (t :: w)
  | output {functions : Bool} {e : Node} {t : Token} {w : List Token} :
      Reads src (.expression e) (t :: w) → (t.kind = .ident → e.isLoneCall = false) →
      ReadsClause src (.statement functions (.output (src.locate t) e)) (t :: w)
  | one {functions : Bool} {n : Node} {newline : Token} {w : List Token} :
      ReadsClause src (.statement functions n) w → newline.kind = .newline →
      ReadsClause src (.statements functions [n]) (w ++ [newline])
  | more {functions : Bool} {n : Node} {ns : List Node} {newline : Token} {u v : List Token} :
      ReadsClause src (.statement functions n) u → newline.kind = .newline →
      ReadsClause src (.statements functions ns) v →
      ReadsClause src (.statements functions (n :: ns)) (u ++ newline :: v)

/-- The tokens of a program, up to the end of the text. -/
inductive ReadsProgram (src : Source) : Program → List Token → Prop where
  | mk {body : List Node} {kw name newline closing eof : Token} {w rest : List Token} :
      kw.kind = .kwBegin → name.kind = .ident → newline.kind = .newline →
      ReadsClause src (.statements true body) w → closing.kind = .kwEnd →
      (∀ t ∈ rest, t.kind = .newline) → rest.length ≤ 1 → eof.kind = .eof →
      ReadsProgram src
        ⟨src.locate kw, name.text, ⟨src.locate kw, false, name.text, [], body⟩⟩
        (kw :: name :: newline :: (w ++ closing :: (rest ++ [eof])))

/-- The tokens of a program before the end of the text. -/
theorem dropLast_program (kw name newline closing eof : Token) (w rest : List Token) :
    (kw :: name :: newline :: (w ++ closing :: (rest ++ [eof]))).dropLast =
      kw :: name :: newline :: (w ++ closing :: rest) := by
  have hlast : kw :: name :: newline :: (w ++ closing :: (rest ++ [eof])) =
      (kw :: name :: newline :: (w ++ closing :: rest)) ++ [eof] := by simp
  rw [hlast, List.dropLast_concat]

end VectorLang
