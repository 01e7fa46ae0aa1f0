import VectorLang.Proofs.Printing.Print
import VectorLang.Proofs.Text.Numeral

/-!
# Printed expressions are read again

An expression that was read from tokens is printed as lexemes that are read as the same
expression.  The proof follows how the expression was read.  What carries it is that every
operand is printed as a phrase of the rule that its place asks for: a term after a sum
operator, a factor after a product operator, elements after a unary one.

* `Reads.rereads`   the phrases of an expression are read again from what they are
    printed as
-/

namespace VectorLang

/-! ## Lexemes as tokens -/

/-- A source that says nothing about places. -/
def Source.blank : Source := ⟨"", #[]⟩

/-- A token with the lexeme, at no place. -/
def Lexeme.token (l : Lexeme) : Token := ⟨l.kind, l.text, 0, 0⟩

@[simp] theorem Lexeme.kind_token (l : Lexeme) : l.token.kind = l.kind := rfl

@[simp] theorem Lexeme.text_token (l : Lexeme) : l.token.text = l.text := rfl

theorem Kind.kind_token (k : Kind) : k.lexeme.token.kind = k := rfl

theorem Lexeme.kind_token_ofName (name : String) : (ofName name).token.kind = .ident := rfl

/-- Whether lexemes are read as the phrase. -/
def ReadsLexemes (phrase : Phrase) (ls : List Lexeme) : Prop :=
  Reads Source.blank phrase (ls.map Lexeme.token)

/-! ## Operators -/

theorem sumOp?_kind {op : Arithmetic} (h : op.strength = 1) : sumOp? op.kind = some op := by
  cases op <;> first | rfl | exact nomatch h

theorem productOp?_kind {op : Arithmetic} (h : op.strength = 2) :
    productOp? op.kind = some op := by
  cases op <;> first | rfl | exact nomatch h

theorem unaryOp?_kind (op : UnaryOp) : unaryOp? op.kind = some op := by
  cases op <;> rfl

theorem Arithmetic.strength_eq (op : Arithmetic) : op.strength = 1 ∨ op.strength = 2 := by
  cases op <;> simp [strength]

theorem Node.one_le_strength (e : Node) : 1 ≤ e.strength := by
  cases e with
  | binary _ op _ _ => rcases op.strength_eq with h | h <;> simp only [strength, h] <;> omega
  | _ => simp [strength]

theorem Node.strength_unlocated (e : Node) : e.unlocated.strength = e.strength := by
  cases e <;> rfl

namespace Reads

variable {src : Source} {e left right : Node} {op : Arithmetic} {t : Token} {u v w : List Token}

/-- One more term after a sum. -/
private theorem sums_snoc (h : Reads src (.sums left e) w) (hop : sumOp? t.kind = some op)
    (hright : Reads src (.term right) v) :
    Reads src (.sums left (.binary (src.locate t) op e right)) (w ++ t :: v) := by
  generalize hp : Phrase.sums left e = phrase at h
  induction h generalizing left with
  | sumsNil =>
    cases hp
    have := Reads.sumsCons hop hright (.sumsNil (e := .binary (src.locate t) op e right))
    rwa [List.append_nil] at this
  | sumsCons hop' hterm _ _ ih =>
    cases hp
    rw [List.cons_append, List.append_assoc]
    exact .sumsCons hop' hterm (ih rfl)
  | _ => exact nomatch hp

/-- One more factor after a product. -/
private theorem products_snoc (h : Reads src (.products left e) w)
    (hop : productOp? t.kind = some op) (hright : Reads src (.factor right) v) :
    Reads src (.products left (.binary (src.locate t) op e right)) (w ++ t :: v) := by
  generalize hp : Phrase.products left e = phrase at h
  induction h generalizing left with
  | productsNil =>
    cases hp
    have := Reads.productsCons hop hright (.productsNil (e := .binary (src.locate t) op e right))
    rwa [List.append_nil] at this
  | productsCons hop' hfactor _ _ ih =>
    cases hp
    rw [List.cons_append, List.append_assoc]
    exact .productsCons hop' hfactor (ih rfl)
  | _ => exact nomatch hp

/-- An expression, a sum operator and a term are an expression. -/
theorem expression_snoc (h : Reads src (.expression left) u) (hop : sumOp? t.kind = some op)
    (hright : Reads src (.term right) v) :
    Reads src (.expression (.binary (src.locate t) op left right)) (u ++ t :: v) := by
  cases h with
  | expression hterm hsums =>
    rw [List.append_assoc]
    exact .expression hterm (hsums.sums_snoc hop hright)

/-- A term, a product operator and a factor are a term. -/
theorem term_snoc (h : Reads src (.term left) u) (hop : productOp? t.kind = some op)
    (hright : Reads src (.factor right) v) :
    Reads src (.term (.binary (src.locate t) op left right)) (u ++ t :: v) := by
  cases h with
  | term hfactor hproducts =>
    rw [List.append_assoc]
    exact .term hfactor (hproducts.products_snoc hop hright)

theorem term_of_factor (h : Reads src (.factor e) w) : Reads src (.term e) w := by
  have := Reads.term h .productsNil
  rwa [List.append_nil] at this

theorem expression_of_term (h : Reads src (.term e) w) : Reads src (.expression e) w := by
  have := Reads.expression h .sumsNil
  rwa [List.append_nil] at this

theorem expression_of_factor (h : Reads src (.factor e) w) : Reads src (.expression e) w :=
  h.term_of_factor.expression_of_term

end Reads

/-! ## Parentheses -/

section Enclosed

variable {e left right : Node} {ls : List Lexeme}

/-- An expression in parentheses is a factor. -/
theorem factor_of_enclosed (h : ReadsLexemes (.expression e) ls) :
    ReadsLexemes (.factor e) (enclosed true ls) := by
  show Reads Source.blank (.factor e) (Lexeme.token _ :: (ls ++ [_]).map Lexeme.token)
  rw [List.map_append]
  exact .paren (Kind.kind_token .lparen) h (Kind.kind_token .rparen)

/-- An expression is a term once it has the parentheses that it needs to be one. -/
theorem term_enclosed (h : ReadsLexemes (.expression e) ls) :
    ReadsLexemes (.term e) (enclosed (e.strength < 2) ls) := by
  by_cases hs : e.strength < 2
  · rw [decide_eq_true hs]
    exact (factor_of_enclosed h).term_of_factor
  · rw [decide_eq_false hs]
    exact h.term_of_expression (Nat.not_lt.mp hs)

/-- An expression is a factor once it has the parentheses that it needs to be one. -/
theorem factor_enclosed (h : ReadsLexemes (.expression e) ls) :
    ReadsLexemes (.factor e) (enclosed (e.strength < 3) ls) := by
  by_cases hs : e.strength < 3
  · rw [decide_eq_true hs]
    exact factor_of_enclosed h
  · rw [decide_eq_false hs]
    exact h.factor_of_expression (Nat.not_lt.mp hs)

/-- An operation is read again if its operands are. -/
theorem rereads_binary {op : Arithmetic} (loc : Location)
    (hleft : ReadsLexemes (.expression left.unlocated) left.print)
    (hright : ReadsLexemes (.expression right.unlocated) right.print) :
    ReadsLexemes (.expression (Node.binary loc op left right).unlocated)
      (Node.binary loc op left right).print := by
  have hterm := term_enclosed hright
  have hfactor := factor_enclosed hright
  have hleftTerm := term_enclosed hleft
  rw [Node.strength_unlocated] at hterm hfactor hleftTerm
  unfold ReadsLexemes
  simp only [Node.print, Node.unlocated, List.map_append, List.map_cons]
  rcases op.strength_eq with hop | hop
  · -- a sum: the left operand is an expression as it stands, the right one becomes a term
    have hnone : decide (left.strength < op.strength) = false := by
      have := left.one_le_strength
      exact decide_eq_false (by omega)
    have hsome : decide (right.strength ≤ op.strength) = decide (right.strength < 2) := by
      rw [hop]
      exact decide_eq_decide.mpr (by omega)
    have hkind : sumOp? op.kind.lexeme.token.kind = some op := sumOp?_kind hop
    rw [hnone, hsome]
    exact hleft.expression_snoc hkind hterm
  · -- a product: the left operand becomes a term, the right one a factor
    have hsome : decide (right.strength ≤ op.strength) = decide (right.strength < 3) := by
      rw [hop]
      exact decide_eq_decide.mpr (by omega)
    have hkind : productOp? op.kind.lexeme.token.kind = some op := productOp?_kind hop
    -- an operand of a product needs parentheses unless it binds as a product does, or more
    rw [hop] at hsome ⊢
    rw [hsome]
    exact (hleftTerm.term_snoc hkind hfactor).expression_of_term

end Enclosed

/-! ## Elements -/

/-- The first token of an atom. -/
def Kind.startsAtom (k : Kind) : Bool :=
  k = .ident || k = .int || k = .string

/-- An element that never needs parentheses is printed from its first token on. -/
theorem print_of_isBare {e : Node} (h : e.isBare false = true) :
    ∃ l ls, e.print = l :: ls ∧ l.kind.startsAtom = true := by
  cases e with
  | int | string | var | call => exact ⟨_, _, rfl, rfl⟩
  | _ => exact nomatch h

theorem isBare_of_false {e : Node} (h : e.isBare false = true) (last : Bool) :
    e.isBare last = true := by
  cases e <;> first | rfl | exact nomatch h

namespace Reads

variable {src : Source} {e : Node} {es : List Node} {t : Token} {w : List Token}

/-- An atom never needs parentheses. -/
theorem isBare_of_atom (h : Reads src (.atom e) w) : e.isBare false = true := by
  cases h with
  | callAtom hcall =>
    obtain ⟨_, _, _, _, _, _, _, rfl⟩ := hcall.call_cases
    rfl
  | int | string | subscript => rfl

/-- The first element of a row needs no parentheses if the row does not start with one, nor
    with an operator. -/
theorem isBare_of_elements (h : Reads src (.elements (e :: es)) (t :: w))
    (hop : unaryOp? t.kind = none) (hne : t.kind ≠ .lparen) : e.isBare false = true := by
  generalize hw : t :: w = tokens at h
  cases h with
  | elementsAtom hatom _ => exact hatom.isBare_of_atom
  | elementsName => rfl
  | elementsParen ho _ _ _ =>
    cases hw
    exact absurd ho hne
  | elementsUnary hop' _ =>
    cases hw
    exact nomatch hop.symm.trans hop'

/-- What is read as an expression, apart from single elements, is none of the elements that
    never need parentheses. -/
theorem isBare_of_expression {phrase : Phrase} (h : Reads src phrase w) :
    match phrase with
    | .expression e | .term e | .factor e | .vector e => e.isBare false = false
    | .sums left e | .products left e => left.isBare false = false → e.isBare false = false
    | _ => True := by
  -- what a tail adds is an operation, and without a tail the vector or the operator is left
  induction h with
  | expression _ _ ihu ihv | term _ _ ihu ihv => exact ihv ihu
  | sumsCons _ _ _ _ ih | productsCons _ _ _ _ ih => exact fun _ => ih rfl
  | sumsNil | productsNil => exact id
  | paren _ _ _ ih => exact ih
  | bare _ _ _ ih => exact ih
  | unary | vector => rfl
  | _ => trivial

/-- Elements are printed without a parenthesis in front if they are read from tokens without
    one. -/
theorem head_printElements (h : Reads src (.elements es) w)
    (hw : ∀ t ∈ w.head?, t.kind ≠ .lparen) :
    ∀ l ∈ (Node.printElements es).head?, l.kind ≠ .lparen := by
  cases h with
  | elementsNil => simp [Node.printElements]
  | @elementsAtom e es _ _ hatom _ =>
    obtain ⟨l, ls, hprint, hl⟩ := print_of_isBare hatom.isBare_of_atom
    simp only [Node.printElements, isBare_of_false hatom.isBare_of_atom, enclosed, hprint]
    intro l' hl' hk
    cases hl'
    rw [hk] at hl
    exact nomatch hl
  | elementsName =>
    simp only [Node.printElements, Node.isBare, enclosed, Node.print]
    intro l' hl' hk
    cases hl'
    exact nomatch hk
  | elementsParen ho _ _ _ => exact absurd ho (hw _ rfl)
  | @elementsUnary _ op _ _ _ _ =>
    simp only [Node.printElements, Node.isBare, enclosed, Node.print]
    intro l' hl' hk
    cases hl'
    cases op <;> exact nomatch hk

/-- The operand of an operator is a vector. -/
theorem vector_of_unary {loc : Location} {op op' : UnaryOp} {operand : Node}
    (h : Reads src (.factor (.unary loc op operand)) (t :: w)) (ht : unaryOp? t.kind = some op') :
    Reads src (.vector operand) w := by
  generalize hw : t :: w = tokens at h
  cases h with
  | unary _ hv =>
    cases hw
    exact hv
  | paren ho _ _ =>
    cases hw
    rw [ho] at ht
    exact nomatch ht
  | bare hop _ _ =>
    cases hw
    exact nomatch hop.symm.trans ht

/-- Arguments are one or more. -/
theorem arguments_ne_nil (h : Reads src (.arguments es) w) : ∃ e es', es = e :: es' := by
  cases h with
  | argumentsOne | argumentsMore => exact ⟨_, _, rfl⟩

end Reads

/-! ## Expressions -/

section Rereads

variable {e operand : Node} {es : List Node} {ls : List Lexeme}

/-- A row of elements that starts with one is a vector. -/
theorem ReadsLexemes.vector (h : ReadsLexemes (.elements (e :: es)) ls) :
    ReadsLexemes (.vector (.vector default (e :: es))) ls := by
  cases ls with
  | nil => exact nomatch h.eq_nil
  | cons l ls => exact Reads.vector h

/-- A vector that starts with an atom is an expression. -/
theorem expression_of_vector_start {l : Lexeme} (h : ReadsLexemes (.vector e) (l :: ls))
    (hl : l.kind.startsAtom = true) : ReadsLexemes (.expression e) (l :: ls) := by
  have hop : unaryOp? l.token.kind = none := by
    rw [Lexeme.kind_token]
    revert hl
    cases l.kind <;> first | exact fun _ => rfl | exact (nomatch ·)
  have hne : l.token.kind ≠ .lparen := by
    intro hk
    rw [Lexeme.kind_token] at hk
    rw [hk] at hl
    exact nomatch hl
  exact (Reads.bare hop hne h).expression_of_factor

/-- An operator before a vector is a factor. -/
theorem rereads_unary {op : UnaryOp} (loc : Location)
    (h : ReadsLexemes (.vector operand.unlocated) operand.print) :
    ReadsLexemes (.factor (Node.unary loc op operand).unlocated)
      (Node.unary loc op operand).print := by
  have hop : unaryOp? op.kind.lexeme.token.kind = some op := unaryOp?_kind op
  simp only [Node.unlocated, Node.print]
  exact Reads.unary hop h

/-- An expression is an element once it has the parentheses that it needs in its place. -/
theorem rereads_elements_cons (he : ReadsLexemes (.expression e.unlocated) e.print)
    (hbare : e.isBare false = false)
    (hes : ReadsLexemes (.elements (Node.unlocatedList es)) (Node.printElements es)) :
    ReadsLexemes (.elements (Node.unlocatedList (e :: es))) (Node.printElements (e :: es)) := by
  simp only [Node.unlocatedList, Node.printElements]
  -- an expression in parentheses may lose them only where it is an operator in the last place
  cases hlast : e.isBare es.isEmpty with
  | false =>
    unfold ReadsLexemes
    simp only [enclosed, Bool.not_false, if_true, List.cons_append, List.append_assoc,
      List.nil_append, List.map_cons, List.map_append]
    exact .elementsParen (Kind.kind_token .lparen) he (Kind.kind_token .rparen) hes
  | true =>
    -- only an operator in the last place stands there without parentheses
    cases e with
    | unary loc op operand =>
      obtain rfl : es = [] := List.isEmpty_iff.mp hlast
      have hop : unaryOp? op.kind.lexeme.token.kind = some op := unaryOp?_kind op
      simp only [Node.unlocated, Node.print] at he ⊢
      have hfactor := he.factor_of_expression (Nat.le_refl 3)
      have hvector := hfactor.vector_of_unary hop
      show Reads Source.blank _ ((op.kind.lexeme :: (operand.print ++ [])).map Lexeme.token)
      rw [List.append_nil]
      exact .elementsUnary hop hvector
    | int | string | var | call => exact nomatch hbare
    | _ => exact nomatch hlast

theorem reads_int {l : Lexeme} {z : Int} (hl : l.kind = .int)
    (h : Numeral.read l.text.toList = .ok z) : ReadsLexemes (.atom (.int default z)) [l] :=
  Reads.int (t := l.token) hl h

/-- Whether a phrase is read again from what it is printed as. -/
def Phrase.Rereads : Phrase → Prop
  | expression e | term e | factor e => ReadsLexemes (.expression e.unlocated) e.print
  | sums left e | products left e => ReadsLexemes (.expression left.unlocated) left.print →
      ReadsLexemes (.expression e.unlocated) e.print
  | vector e => ReadsLexemes (.vector e.unlocated) e.print
  | elements es => ReadsLexemes (.elements (Node.unlocatedList es)) (Node.printElements es)
  | atom e => ReadsLexemes (.atom e.unlocated) e.print
  | call e => ReadsLexemes (.call e.unlocated) e.print
  | arguments es => ReadsLexemes (.arguments (Node.unlocatedList es)) (Node.printArguments es)

end Rereads

/-- What was read from tokens is read again from what it is printed as. -/
theorem Reads.rereads {src : Source} {phrase : Phrase} {w : List Token}
    (h : Reads src phrase w) (hw : ∀ t ∈ w, t.lexeme.Valid) : phrase.Rereads := by
  induction h with
  | expression _ _ ihu ihv | term _ _ ihu ihv =>
    obtain ⟨hu, hv⟩ := List.forall_mem_append.mp hw
    exact ihv hv (ihu hu)
  | sumsNil | productsNil => exact id
  | sumsCons _ _ _ ihu ihv | productsCons _ _ _ ihu ihv =>
    obtain ⟨_, hrest⟩ := List.forall_mem_cons.mp hw
    obtain ⟨hu, hv⟩ := List.forall_mem_append.mp hrest
    exact fun hleft => ihv hv (rereads_binary _ hleft (ihu hu))
  | unary _ _ ih =>
    obtain ⟨_, hoperand⟩ := List.forall_mem_cons.mp hw
    exact (rereads_unary _ (ih hoperand)).expression_of_factor
  | paren _ _ _ ih =>
    obtain ⟨_, hrest⟩ := List.forall_mem_cons.mp hw
    exact ih (List.forall_mem_append.mp hrest).1
  | bare hop hne hv ih =>
    have hvector := ih hw
    cases hv with
    | vector hes =>
      -- the vector starts with an atom, and so does what it is printed as
      have hbare := hes.isBare_of_elements hop hne
      obtain ⟨l, ls, hprint, hl⟩ := print_of_isBare hbare
      simp only [Phrase.Rereads, Node.print, Node.printElements, isBare_of_false hbare, hprint]
        at hvector ⊢
      exact expression_of_vector_start hvector hl
  | vector _ ih => exact ReadsLexemes.vector (ih hw)
  | elementsNil => exact Reads.elementsNil
  | elementsAtom hatom _ ihu ihv =>
    obtain ⟨hu, hv⟩ := List.forall_mem_append.mp hw
    have helements := Reads.elementsAtom (ihu hu) (ihv hv)
    rw [← List.map_append] at helements
    simp only [Phrase.Rereads, Node.printElements, isBare_of_false hatom.isBare_of_atom]
    exact helements
  | elementsName _ hv hne ih =>
    obtain ⟨_, hrest⟩ := List.forall_mem_cons.mp hw
    -- parentheses that are printed after a name would make it a call
    have hhead := hv.head_printElements hne
    refine Reads.elementsName (Lexeme.kind_token_ofName _) (ih hrest) ?_
    intro next hnext
    simp only [List.head?_map, Option.mem_def, Option.map_eq_some_iff] at hnext
    obtain ⟨l, hl, rfl⟩ := hnext
    exact hhead l hl
  | elementsParen _ he _ _ ihu ihv =>
    obtain ⟨_, hrest⟩ := List.forall_mem_cons.mp hw
    obtain ⟨hu, hv⟩ := List.forall_mem_append.mp hrest
    exact rereads_elements_cons (ihu hu) he.isBare_of_expression
      (ihv (List.forall_mem_cons.mp hv).2)
  | elementsUnary _ _ ih =>
    obtain ⟨_, hoperand⟩ := List.forall_mem_cons.mp hw
    exact rereads_elements_cons (rereads_unary _ (ih hoperand)).expression_of_factor rfl
      .elementsNil
  | @int t _ ht hread =>
    -- the canonical text of the value has no more digits than the one that was read
    have hnumeral : isNumeral t.text.toList = true := by
      have hvalid := hw t List.mem_cons_self
      rw [Lexeme.Valid, Token.kind_lexeme, ht] at hvalid
      exact hvalid
    exact reads_int rfl (Numeral.read_text hnumeral hread)
  | @string t _ => exact Reads.string (t := (⟨.string, t.text⟩ : Lexeme).token) rfl
  | subscript _ _ _ _ ih =>
    obtain ⟨_, hrest⟩ := List.forall_mem_cons.mp hw
    obtain ⟨_, hrest⟩ := List.forall_mem_cons.mp hrest
    have he := ih (List.forall_mem_append.mp hrest).1
    simp only [Phrase.Rereads, Node.unlocated, Node.unlocatedOption, Node.print,
      Node.printSubscript, ReadsLexemes, List.map_cons, List.map_append]
    exact .subscript (Lexeme.kind_token_ofName _) (Kind.kind_token .lbracket) he
      (Kind.kind_token .rbracket)
  | callAtom _ ih => exact Reads.callAtom (ih hw)
  | callNone =>
    exact Reads.callNone (Lexeme.kind_token_ofName _) (Kind.kind_token .lparen)
      (Kind.kind_token .rparen)
  | callSome _ _ _ _ ih =>
    obtain ⟨_, hrest⟩ := List.forall_mem_cons.mp hw
    obtain ⟨_, hrest⟩ := List.forall_mem_cons.mp hrest
    have hes := ih (List.forall_mem_append.mp hrest).1
    simp only [Phrase.Rereads, Node.unlocated, Node.print, enclosed, if_true, ReadsLexemes,
      List.map_cons, List.map_append]
    exact .callSome (Lexeme.kind_token_ofName _) (Kind.kind_token .lparen) hes
      (Kind.kind_token .rparen)
  | argumentsOne _ ih => exact Reads.argumentsOne (ih hw)
  | argumentsMore _ _ hes ihu ihv =>
    obtain ⟨hu, hrest⟩ := List.forall_mem_append.mp hw
    obtain ⟨_, hv⟩ := List.forall_mem_cons.mp hrest
    have hmore := ihv hv
    -- more arguments follow, so that the comma is printed
    obtain ⟨_, _, rfl⟩ := hes.arguments_ne_nil
    simp only [Phrase.Rereads, Node.unlocatedList, Node.printArguments, ReadsLexemes,
      List.map_append, List.map_cons]
    exact .argumentsMore (ihu hu) (Kind.kind_token .comma) hmore

end VectorLang
