import VectorLang.Proofs.Reading.Phrase
import VectorLang.Proofs.Reading.Step

/-!
# What the parser accepts

Every function of the parser that succeeds has used up a row of tokens that is read as
the tree it returns.  The functions call one another, so this is shown of all of them at
once, by induction on the levels of nesting (`Faithful`), with one lemma for each.

An element alone does not tell how it is read: that a name is a variable, and where the
operand of an operator ends, depends on the token after it.  `Heads` says of an element
that it can be put before the elements that follow it.

* `faithful`           expressions
* `faithfulBlock`      statements
* `reads_of_program`   programs
-/

namespace VectorLang

/-- Whether the tokens between two places of a stream are read as a phrase. -/
def Spans (src : Source) (l l' : Lookahead) (phrase : Phrase) : Prop :=
  ∃ w, l.Reach w l' ∧ Reads src phrase w

/-- Whether the tokens between two places, put before a row of elements that starts at the
    second place, are read as that row with the element `e` before it. -/
def Heads (src : Source) (l l' : Lookahead) (e : Node) : Prop :=
  ∃ w, l.Reach w l' ∧ w ≠ [] ∧ ∀ es v, Reads src (.elements es) v →
    (∀ t ∈ v.head?, l'.current = t) → Reads src (.elements (e :: es)) (w ++ v)

namespace Parser

variable {src : Source} {n : Nat} {l l' : Lookahead}

theorem ne_eof_of_sumOp {k : Kind} {op : Arithmetic} (h : sumOp? k = some op) :
    k ≠ .eof := by
  rintro rfl
  exact nomatch h

theorem ne_eof_of_productOp {k : Kind} {op : Arithmetic} (h : productOp? k = some op) :
    k ≠ .eof := by
  rintro rfl
  exact nomatch h

theorem ne_eof_of_unaryOp {k : Kind} {op : UnaryOp} (h : unaryOp? k = some op) :
    k ≠ .eof := by
  rintro rfl
  exact nomatch h

/-- A token of a kind other than the end of the text is used up by a step. -/
private theorem reach_of_kind {k : Kind} (hl : l.Closed) (hk : l.current.kind = k)
    (h : advance l = .ok () l') (hne : k ≠ .eof := by decide) : l.Reach [l.current] l' :=
  reach_of_advance hl (hk ▸ hne) h

/-! ## Expressions -/

/-- What the functions for expressions use up, with `n` levels of nesting, is read as what
    they return. -/
structure Faithful (src : Source) (n : Nat) : Prop where
  expression {l l' : Lookahead} {e : Node} : l.Closed →
    Parser.expression src n l = .ok e l' → Spans src l l' (.expression e)
  sums {l l' : Lookahead} {left e : Node} : l.Closed →
    sumTail src n left l = .ok e l' → Spans src l l' (.sums left e)
  term {l l' : Lookahead} {e : Node} : l.Closed →
    Parser.term src n l = .ok e l' → Spans src l l' (.term e)
  products {l l' : Lookahead} {left e : Node} : l.Closed →
    productTail src n left l = .ok e l' → Spans src l l' (.products left e)
  factor {l l' : Lookahead} {e : Node} : l.Closed →
    Parser.factor src n l = .ok e l' → Spans src l l' (.factor e)
  /-- A factor that is no vector is an element. -/
  headFactor {l l' : Lookahead} {e : Node} : l.Closed →
    l.current.kind = .tilde ∨ l.current.kind = .hash ∨ l.current.kind = .lparen →
    Parser.factor src n l = .ok e l' → Heads src l l' e
  /-- Vectors take all elements that there are. -/
  vector {l l' : Lookahead} {e : Node} : l.Closed → Parser.vector src n l = .ok e l' →
    Spans src l l' (.vector e) ∧ elementStart.contains l'.current.kind = false
  elements {l l' : Lookahead} {es : List Node} : l.Closed →
    Parser.elements src n l = .ok es l' →
    Spans src l l' (.elements es) ∧ elementStart.contains l'.current.kind = false
  element {l l' : Lookahead} {e : Node} : l.Closed →
    Parser.element src n l = .ok e l' → Heads src l l' e
  reference {l l' m : Lookahead} {e : Node} : l.Closed → l.Reach [l.current] m →
    m.current.kind ≠ .lparen → Parser.reference src n l = .ok e l' → Heads src l l' e
  call {l l' : Lookahead} {e : Node} : l.Closed →
    Parser.call src n l = .ok e l' → Spans src l l' (.call e)
  arguments {l l' : Lookahead} {es : List Node} : l.Closed →
    Parser.arguments src n l = .ok es l' → Spans src l l' (.arguments es)

/-- An atom is an element whatever follows it. -/
private theorem heads_of_atom {e : Node} (h : Spans src l l' (.atom e)) : Heads src l l' e := by
  obtain ⟨w, hw, hr⟩ := h
  obtain ⟨t, v, rfl, _, _⟩ := hr.atom_cases
  exact ⟨t :: v, hw, List.cons_ne_nil t v, fun es v hes _ => .elementsAtom hr hes⟩

/-- An operator with its operand is an element if no element follows it. -/
private theorem heads_of_unary {m : Lookahead} {op : UnaryOp} {operand : Node}
    (hop : unaryOp? l.current.kind = some op) (hm : l.Reach [l.current] m)
    (h : Spans src m l' (.vector operand))
    (hstop : elementStart.contains l'.current.kind = false) :
    Heads src l l' (.unary (src.locate l.current) op operand) := by
  obtain ⟨w, hw, hr⟩ := h
  refine ⟨l.current :: w, hm.cons hw, List.cons_ne_nil _ _, fun es v hes hstart => ?_⟩
  -- an element after the operand would have been taken by it
  cases v with
  | nil =>
    rw [hes.eq_nil, List.append_nil]
    exact .elementsUnary hop hr
  | cons t v =>
    have hkind := hes.kind_of_elements t rfl
    rw [← hstart t rfl, hstop] at hkind
    exact nomatch hkind

private theorem expression_succ (ih : Faithful src n) {e : Node} (hl : l.Closed)
    (h : expression src (n + 1) l = .ok e l') : Spans src l l' (.expression e) := by
  obtain ⟨left, m, hterm, htail⟩ := expression_eq_ok.mp h
  obtain ⟨u, hu, hru⟩ := ih.term hl hterm
  obtain ⟨v, hv, hrv⟩ := ih.sums (hl.of_reach hu) htail
  exact ⟨u ++ v, hu.append hv, .expression hru hrv⟩

private theorem sums_succ (ih : Faithful src n) {left e : Node} (hl : l.Closed)
    (h : sumTail src (n + 1) left l = .ok e l') : Spans src l l' (.sums left e) := by
  -- no operator, or an operator, a term and what follows that
  rcases sumTail_eq_ok.mp h with ⟨_, rfl, rfl⟩ | ⟨op, m, right, m', hop, hadv, hterm, htail⟩
  · exact ⟨[], Lookahead.reach_nil.mpr rfl, .sumsNil⟩
  · have hm := reach_of_advance hl (ne_eof_of_sumOp hop) hadv
    obtain ⟨u, hu, hru⟩ := ih.term (hl.of_reach hm) hterm
    obtain ⟨v, hv, hrv⟩ := ih.sums ((hl.of_reach hm).of_reach hu) htail
    exact ⟨_, hm.cons (hu.append hv), .sumsCons hop hru hrv⟩

private theorem term_succ (ih : Faithful src n) {e : Node} (hl : l.Closed)
    (h : term src (n + 1) l = .ok e l') : Spans src l l' (.term e) := by
  obtain ⟨left, m, hfactor, htail⟩ := term_eq_ok.mp h
  obtain ⟨u, hu, hru⟩ := ih.factor hl hfactor
  obtain ⟨v, hv, hrv⟩ := ih.products (hl.of_reach hu) htail
  exact ⟨u ++ v, hu.append hv, .term hru hrv⟩

private theorem products_succ (ih : Faithful src n) {left e : Node} (hl : l.Closed)
    (h : productTail src (n + 1) left l = .ok e l') : Spans src l l' (.products left e) := by
  rcases productTail_eq_ok.mp h with
    ⟨_, rfl, rfl⟩ | ⟨op, m, right, m', hop, hadv, hfactor, htail⟩
  · exact ⟨[], Lookahead.reach_nil.mpr rfl, .productsNil⟩
  · have hm := reach_of_advance hl (ne_eof_of_productOp hop) hadv
    obtain ⟨u, hu, hru⟩ := ih.factor (hl.of_reach hm) hfactor
    obtain ⟨v, hv, hrv⟩ := ih.products ((hl.of_reach hm).of_reach hu) htail
    exact ⟨_, hm.cons (hu.append hv), .productsCons hop hru hrv⟩

/-- Between two parentheses stands an expression. -/
private theorem paren_succ (ih : Faithful src n) {m m' : Lookahead} {e : Node} (hl : l.Closed)
    (hk : l.current.kind = .lparen) (hm : advance l = .ok () m)
    (he : expression src n m = .ok e m') (hc : m'.current.kind = .rparen)
    (hadv : advance m' = .ok () l') :
    ∃ w, l.Reach (l.current :: (w ++ [m'.current])) l' ∧ Reads src (.expression e) w := by
  have hm := reach_of_kind hl hk hm
  obtain ⟨w, hw, hr⟩ := ih.expression (hl.of_reach hm) he
  have hl' := reach_of_kind ((hl.of_reach hm).of_reach hw) hc hadv
  exact ⟨w, hm.cons (hw.append hl'), hr⟩

private theorem factor_succ (ih : Faithful src n) {e : Node} (hl : l.Closed)
    (h : factor src (n + 1) l = .ok e l') : Spans src l l' (.factor e) := by
  rcases factor_eq_ok.mp h with
    ⟨op, m, operand, hop, hadv, hvec, rfl⟩ | ⟨m, m', hk, hm, he, hc, hadv⟩ | ⟨hop, hk, hvec⟩
  -- an operator before a vector
  · have hm := reach_of_advance hl (ne_eof_of_unaryOp hop) hadv
    obtain ⟨⟨w, hw, hr⟩, _⟩ := ih.vector (hl.of_reach hm) hvec
    exact ⟨_, hm.cons hw, .unary hop hr⟩
  -- an expression in parentheses
  · obtain ⟨w, hw, hr⟩ := paren_succ ih hl hk hm he hc hadv
    exact ⟨_, hw, .paren hk hr hc⟩
  -- a vector, which starts with what the factor does
  · obtain ⟨⟨w, hw, hr⟩, _⟩ := ih.vector hl hvec
    cases hr with
    | @vector e es t w hes =>
      rw [hw.current] at hop hk
      exact ⟨t :: w, hw, .bare hop hk (.vector hes)⟩

private theorem headFactor_succ (ih : Faithful src n) {e : Node} (hl : l.Closed)
    (hstart : l.current.kind = .tilde ∨ l.current.kind = .hash ∨ l.current.kind = .lparen)
    (h : factor src (n + 1) l = .ok e l') : Heads src l l' e := by
  rcases factor_eq_ok.mp h with
    ⟨op, m, operand, hop, hadv, hvec, rfl⟩ | ⟨m, m', hk, hm, he, hc, hadv⟩ | ⟨hop, hk, _⟩
  · have hm := reach_of_advance hl (ne_eof_of_unaryOp hop) hadv
    obtain ⟨hw, hstop⟩ := ih.vector (hl.of_reach hm) hvec
    exact heads_of_unary hop hm hw hstop
  · obtain ⟨w, hw, hr⟩ := paren_succ ih hl hk hm he hc hadv
    refine ⟨_, hw, List.cons_ne_nil _ _, fun es v hes _ => ?_⟩
    simpa using Reads.elementsParen hk hr hc hes
  -- a vector starts with neither an operator nor a parenthesis here
  · rcases hstart with hs | hs | hs
    · rw [hs] at hop
      exact nomatch hop
    · rw [hs] at hop
      exact nomatch hop
    · exact absurd hs hk

private theorem elements_succ (ih : Faithful src n) {es : List Node} (hl : l.Closed)
    (h : elements src (n + 1) l = .ok es l') :
    Spans src l l' (.elements es) ∧ elementStart.contains l'.current.kind = false := by
  rcases elements_eq_ok.mp h with ⟨hk, rfl, rfl⟩ | ⟨_, first, m, others, hfirst, hothers, rfl⟩
  · exact ⟨⟨[], Lookahead.reach_nil.mpr rfl, .elementsNil⟩, hk⟩
  -- the first element is put before the others, now that they are known
  · obtain ⟨u, hu, _, hheads⟩ := ih.element hl hfirst
    obtain ⟨⟨v, hv, hr⟩, hstop⟩ := ih.elements (hl.of_reach hu) hothers
    exact ⟨⟨u ++ v, hu.append hv, hheads others v hr hv.head⟩, hstop⟩

private theorem vector_succ (ih : Faithful src n) {e : Node} (hl : l.Closed)
    (h : vector src (n + 1) l = .ok e l') :
    Spans src l l' (.vector e) ∧ elementStart.contains l'.current.kind = false := by
  obtain ⟨first, m, others, hfirst, hothers, rfl⟩ := vector_eq_ok.mp h
  obtain ⟨u, hu, hne, hheads⟩ := ih.element hl hfirst
  obtain ⟨⟨v, hv, hr⟩, hstop⟩ := ih.elements (hl.of_reach hu) hothers
  have hes := hheads others v hr hv.head
  cases u with
  | nil => exact absurd rfl hne
  | cons t u =>
    rw [hu.current]
    exact ⟨⟨t :: (u ++ v), hu.append hv, .vector hes⟩, hstop⟩

private theorem element_succ (ih : Faithful src n) {e : Node} (hl : l.Closed)
    (h : element src (n + 1) l = .ok e l') : Heads src l l' e := by
  by_cases hstring : l.current.kind = .string
  · obtain ⟨hadv, rfl⟩ := (element_of_string hstring).mp h
    exact heads_of_atom ⟨_, reach_of_kind hl hstring hadv, .string hstring⟩
  by_cases hint : l.current.kind = .int
  · obtain ⟨hadv, value, hread, rfl⟩ := (element_of_int hint).mp h
    exact heads_of_atom ⟨_, reach_of_kind hl hint hadv, .int hint hread⟩
  by_cases hident : l.current.kind = .ident
  -- the token after a name tells a call from a variable
  · obtain ⟨next, m, hpeek, hnext⟩ := (element_of_ident hident).mp h
    obtain ⟨rfl, m', hm', rfl⟩ := reach_of_peek hl (hident ▸ by decide) hpeek
    rcases hnext with ⟨_, hcall⟩ | ⟨hk, href⟩
    · obtain ⟨w, hw, hr⟩ := ih.call hl hcall
      exact heads_of_atom ⟨w, hw, .callAtom hr⟩
    · exact ih.reference hl hm' hk href
  by_cases hfactor : l.current.kind = .tilde ∨ l.current.kind = .hash ∨ l.current.kind = .lparen
  · exact ih.headFactor hl hfactor ((element_of_factor hfactor).mp h)
  -- no element starts with any other token
  · refine absurd h (element_ne_ok ?_)
    cases hk : l.current.kind <;> simp_all [elementStart]

private theorem reference_succ (ih : Faithful src n) {m : Lookahead} {e : Node} (hl : l.Closed)
    (hm : l.Reach [l.current] m) (hne : m.current.kind ≠ .lparen)
    (h : reference src (n + 1) l = .ok e l') : Heads src l l' e := by
  obtain ⟨hk, m', hadv, hrest⟩ := reference_eq_ok.mp h
  -- both ways to look at the token after the name lead to the same place
  have heq : m' = m := by
    rw [advance_of_reach hm] at hadv
    cases hadv
    rfl
  subst heq
  rcases hrest with ⟨ho, m₁, subscript, m₂, h₁, he, hc, h₂, rfl⟩ | ⟨_, rfl, rfl⟩
  · have hm₁ := reach_of_kind (hl.of_reach hm) ho h₁
    obtain ⟨w, hw, hr⟩ := ih.expression ((hl.of_reach hm).of_reach hm₁) he
    have hm₂ := reach_of_kind (((hl.of_reach hm).of_reach hm₁).of_reach hw) hc h₂
    exact heads_of_atom ⟨_, hm.cons (hm₁.cons (hw.append hm₂)), .subscript hk ho hr hc⟩
  -- the token after the name is the first one of the elements that follow
  · refine ⟨[l.current], hm, List.cons_ne_nil _ _, fun es v hes hstart => ?_⟩
    exact .elementsName hk hes fun next hnext => hstart next hnext ▸ hne

private theorem call_succ (ih : Faithful src n) {e : Node} (hl : l.Closed)
    (h : call src (n + 1) l = .ok e l') : Spans src l l' (.call e) := by
  obtain ⟨hk, m, hadv, ho, m₁, h₁, args, m₂, hargs, hc, h₂, rfl⟩ := call_eq_ok.mp h
  have hm := reach_of_kind hl hk hadv
  have hm₁ := reach_of_kind (hl.of_reach hm) ho h₁
  have hl₁ := (hl.of_reach hm).of_reach hm₁
  -- no arguments, or some
  rcases hargs with ⟨_, rfl, rfl⟩ | ⟨_, hargs⟩
  · have hm₂ := reach_of_kind hl₁ hc h₂
    exact ⟨_, hm.cons (hm₁.cons hm₂), .callNone hk ho hc⟩
  · obtain ⟨w, hw, hr⟩ := ih.arguments hl₁ hargs
    have hm₂ := reach_of_kind (hl₁.of_reach hw) hc h₂
    exact ⟨_, hm.cons (hm₁.cons (hw.append hm₂)), .callSome hk ho hr hc⟩

private theorem arguments_succ (ih : Faithful src n) {es : List Node} (hl : l.Closed)
    (h : arguments src (n + 1) l = .ok es l') : Spans src l l' (.arguments es) := by
  obtain ⟨first, m, hfirst, hrest⟩ := arguments_eq_ok.mp h
  obtain ⟨u, hu, hru⟩ := ih.expression hl hfirst
  rcases hrest with ⟨hk, m', others, hadv, hothers, rfl⟩ | ⟨_, rfl, rfl⟩
  · have hm' := reach_of_kind (hl.of_reach hu) hk hadv
    obtain ⟨v, hv, hrv⟩ := ih.arguments ((hl.of_reach hu).of_reach hm') hothers
    exact ⟨_, hu.append (hm'.cons hv), .argumentsMore hru hk hrv⟩
  · exact ⟨u, hu, .argumentsOne hru⟩

/-- Without a level of nesting nothing succeeds. -/
private theorem faithful_zero : Faithful src 0 where
  expression _ h := absurd (by rwa [Parser.expression] at h) throw_ne_ok
  sums _ h := absurd (by rwa [sumTail] at h) throw_ne_ok
  term _ h := absurd (by rwa [Parser.term] at h) throw_ne_ok
  products _ h := absurd (by rwa [productTail] at h) throw_ne_ok
  factor _ h := absurd (by rwa [Parser.factor] at h) throw_ne_ok
  headFactor _ _ h := absurd (by rwa [Parser.factor] at h) throw_ne_ok
  vector _ h := absurd (by rwa [Parser.vector] at h) throw_ne_ok
  elements _ h := absurd (by rwa [Parser.elements] at h) throw_ne_ok
  element _ h := absurd (by rwa [Parser.element] at h) throw_ne_ok
  reference _ _ _ h := absurd (by rwa [Parser.reference] at h) throw_ne_ok
  call _ h := absurd (by rwa [Parser.call] at h) throw_ne_ok
  arguments _ h := absurd (by rwa [Parser.arguments] at h) throw_ne_ok

/-- The functions for expressions are faithful at every level of nesting. -/
theorem faithful (src : Source) : ∀ n, Faithful src n
  | 0 => faithful_zero
  | n + 1 =>
    have ih := faithful src n
    { expression := expression_succ ih
      sums := sums_succ ih
      term := term_succ ih
      products := products_succ ih
      factor := factor_succ ih
      headFactor := headFactor_succ ih
      vector := vector_succ ih
      elements := elements_succ ih
      element := element_succ ih
      reference := reference_succ ih
      call := call_succ ih
      arguments := arguments_succ ih }

/-! ## Statements -/

private theorem reads_of_comparison {test : Comparison Node} (hl : l.Closed)
    (h : comparison src n l = .ok test l') :
    ∃ w, l.Reach w l' ∧ ReadsComparison src test w := by
  obtain ⟨left, m, hleft, hk, m', hadv, right, hright, rfl⟩ := comparison_eq_ok.mp h
  obtain ⟨u, hu, hru⟩ := (faithful src n).expression hl hleft
  have hne : m.current.kind ≠ .eof := by
    intro heof
    rw [heof] at hk
    exact nomatch hk
  have hm := reach_of_advance (hl.of_reach hu) hne hadv
  obtain ⟨v, hv, hrv⟩ := (faithful src n).expression ((hl.of_reach hu).of_reach hm) hright
  cases u with
  | nil => exact absurd rfl (hru.ne_nil rfl)
  | cons t u =>
    rw [hu.current]
    exact ⟨_, hu.append (hm.cons hv), .mk hru hk hrv⟩

private theorem reads_of_parameters {params : List String} (hl : l.Closed)
    (h : parameters n l = .ok params l') : ∃ w, l.Reach w l' ∧ ReadsParameters params w := by
  induction n generalizing l params with
  | zero => exact absurd (by rwa [parameters] at h) throw_ne_ok
  | succ n ih =>
    obtain ⟨hk, m, hadv, hg, hrest⟩ := parameters_eq_ok.mp h
    have hm := reach_of_kind hl hk hadv
    -- a comma and more parameters, or the last one
    rcases hrest with ⟨hc, m', others, hadv', hothers, rfl⟩ | ⟨_, rfl, rfl⟩
    · have hm' := reach_of_kind (hl.of_reach hm) hc hadv'
      obtain ⟨w, hw, hr⟩ := ih ((hl.of_reach hm).of_reach hm') hothers
      exact ⟨_, hm.cons (hm'.cons hw), .more hk hg hc hr⟩
    · exact ⟨_, hm, .one hk hg⟩

/-- Whether the tokens between two places of a stream are read as a clause. -/
private def SpansClause (src : Source) (l l' : Lookahead) (clause : Clause) : Prop :=
  ∃ w, l.Reach w l' ∧ ReadsClause src clause w

private theorem clause_of_assignment {functions : Bool} {e : Node} (hl : l.Closed)
    (h : assignment src n l = .ok e l') : SpansClause src l l' (.statement functions e) := by
  obtain ⟨hk, m, hadv, ha, m', hadv', hrest⟩ := assignment_eq_ok.mp h
  have hm := reach_of_kind hl hk hadv
  have hm' := reach_of_kind (hl.of_reach hm) ha hadv'
  rcases hrest with ⟨_, rfl, rfl⟩ | ⟨_, v, hv, rfl⟩
  · exact ⟨_, hm.cons hm', .erase hk ha⟩
  · obtain ⟨w, hw, hr⟩ := (faithful src n).expression ((hl.of_reach hm).of_reach hm') hv
    exact ⟨_, hm.cons (hm'.cons hw), .assign hk ha hr⟩

/-- An expression that does not start with a call is printed as it is. -/
private theorem clause_of_output {functions : Bool} {e : Node} (hl : l.Closed)
    (hname : l.current.kind = .ident → ∀ m, l.Reach [l.current] m → m.current.kind ≠ .lparen)
    (h : output src n l = .ok e l') : SpansClause src l l' (.statement functions e) := by
  obtain ⟨value, hvalue, rfl⟩ := output_eq_ok.mp h
  obtain ⟨w, hw, hr⟩ := (faithful src n).expression hl hvalue
  cases w with
  | nil => exact absurd rfl (hr.ne_nil rfl)
  | cons t w =>
    obtain rfl := hw.current
    refine ⟨l.current :: w, hw, .output hr fun hk => ?_⟩
    -- a call would have a parenthesis after the name
    refine Bool.eq_false_iff.mpr fun hlone => ?_
    obtain ⟨c, _, hc⟩ := hr.call_of_isLoneCall hk hlone
    obtain ⟨t, opening, _, v, heq, _, ho, _⟩ := hc.call_cases
    obtain ⟨_, rfl⟩ := List.cons.inj heq
    obtain ⟨m, hm, hm'⟩ := Lookahead.reach_cons.mp hw
    exact hname hk m hm (hm'.current ▸ ho)

/-- An expression that starts with a call is printed as the call if the line ends there, and
    as a vector otherwise. -/
private theorem clause_of_callOutput {functions : Bool} {e : Node} (hl : l.Closed)
    (h : callOutput src n l = .ok e l') (hend : l'.current.kind = .newline) :
    SpansClause src l l' (.statement functions e) := by
  obtain ⟨first, m, hfirst, hrest⟩ := callOutput_eq_ok.mp h
  obtain ⟨u, hu, hru⟩ := (faithful src n).call hl hfirst
  obtain ⟨t, opening, args, v, rfl, ht, ho, hloc⟩ := hru.call_cases
  obtain rfl := hu.current
  rcases hrest with ⟨_, rfl, rfl⟩ | ⟨hne, others, m₁, product, m₂, sum, hothers, hp, hs, rfl⟩
  · exact ⟨_, hu, .callOutput hru⟩
  have hl := hl.of_reach hu
  obtain ⟨⟨w, hw, hrw⟩, _⟩ := (faithful src n).elements hl hothers
  obtain ⟨x, hx, hrx⟩ := (faithful src n).products (hl.of_reach hw) hp
  obtain ⟨y, hy, hry⟩ := (faithful src n).sums ((hl.of_reach hw).of_reach hx) hs
  -- the call is the first element of a vector, which stands where the call does
  have hvec : Reads src (.vector (.vector first.location (first :: others)))
      (l.current :: opening :: (v ++ w)) := by
    rw [show first.location = src.locate l.current by rw [hloc]; rfl]
    exact .vector (.elementsAtom (.callAtom hru) hrw)
  have hfactor := Reads.bare (by rw [ht]; rfl) (by rw [ht]; decide) hvec
  have hexpr := Reads.expression (.term hfactor hrx) hry
  refine ⟨_, hu.append (hw.append (hx.append hy)), ?_⟩
  simp only [List.cons_append, List.append_assoc] at hexpr ⊢
  refine .output hexpr fun _ => Bool.eq_false_iff.mpr fun hlone => ?_
  -- were the call alone, the line would end after it
  have hstrength := Node.strength_of_isLoneCall hlone
  obtain ⟨rfl, rfl⟩ := hry.sums_cases.resolve_right (by omega)
  obtain ⟨rfl, rfl⟩ := hrx.products_cases.resolve_right (by omega)
  cases others with
  | cons e es => cases first <;> exact nomatch hlone
  | nil =>
    obtain rfl := hrw.elements_eq_nil
    obtain rfl := Lookahead.reach_nil.mp hw
    obtain rfl := Lookahead.reach_nil.mp hx
    obtain rfl := Lookahead.reach_nil.mp hy
    exact hne hend

/-- What the functions for statements use up, with `n` levels of nesting, is read as what
    they return. -/
structure FaithfulBlock (src : Source) (n : Nat) : Prop where
  /-- Whether a call at the end of a line is a vector depends on the line ending there. -/
  statement {l l' : Lookahead} {functions : Bool} {e : Node} : l.Closed →
    Parser.statement src functions n l = .ok e l' → l'.current.kind = .newline →
    SpansClause src l l' (.statement functions e)
  statements {l l' : Lookahead} {functions : Bool} {ns : List Node} : l.Closed →
    Parser.statements src functions n l = .ok ns l' →
    SpansClause src l l' (.statements functions ns)
  function {l l' : Lookahead} {e : Node} : l.Closed →
    Parser.function src n l = .ok e l' → SpansClause src l l' (.statement true e)
  loop {l l' : Lookahead} {functions : Bool} {e : Node} : l.Closed →
    Parser.loop src n l = .ok e l' → SpansClause src l l' (.statement functions e)
  conditional {l l' : Lookahead} {functions : Bool} {e : Node} : l.Closed →
    Parser.conditional src n l = .ok e l' → SpansClause src l l' (.statement functions e)

private theorem statement_succ (ih : FaithfulBlock src n) {functions : Bool} {e : Node}
    (hl : l.Closed) (h : statement src functions (n + 1) l = .ok e l')
    (hend : l'.current.kind = .newline) : SpansClause src l l' (.statement functions e) := by
  -- the first token tells which statement it is, as in the parser
  by_cases hbegin : l.current.kind = .kwBegin
  · rcases (statement_of_begin hbegin).mp h with ⟨rfl, hf⟩ | ⟨_, ho⟩
    · exact ih.function hl hf
    -- in a body without functions the key word is left to the rule for expressions
    · exact clause_of_output hl (fun hk => nomatch hk.symm.trans hbegin) ho
  by_cases hloop : l.current.kind = .kwWhile ∨ l.current.kind = .kwUntil
  · exact ih.loop hl ((statement_of_loop hloop).mp h)
  by_cases hif : l.current.kind = .kwIf
  · exact ih.conditional hl ((statement_of_if hif).mp h)
  by_cases hident : l.current.kind = .ident
  · obtain ⟨next, m, hpeek, hrest⟩ := (statement_of_ident hident).mp h
    obtain ⟨rfl, m', hm', rfl⟩ := reach_of_peek hl (hident ▸ by decide) hpeek
    rcases hrest with ⟨_, ha⟩ | ⟨_, hc⟩ | ⟨_, hne, ho⟩
    · exact clause_of_assignment hl ha
    · exact clause_of_callOutput hl hc hend
    -- the token after the name is the one that the parser looked at
    · refine clause_of_output hl (fun _ m'' hm'' => ?_) ho
      rw [← List.head_eq_of_cons_eq (hm'.next.symm.trans hm''.next)]
      exact hne
  · refine clause_of_output hl (fun hk => absurd hk hident) ((statement_of_other ?_).mp h)
    cases hk : l.current.kind <;> simp_all

private theorem statements_succ (ih : FaithfulBlock src n) {functions : Bool} {ns : List Node}
    (hl : l.Closed) (h : statements src functions (n + 1) l = .ok ns l') :
    SpansClause src l l' (.statements functions ns) := by
  obtain ⟨first, m, m', hfirst, hk, hadv, hrest⟩ := statements_eq_ok.mp h
  obtain ⟨u, hu, hru⟩ := ih.statement hl hfirst hk
  have hm' := reach_of_kind (hl.of_reach hu) hk hadv
  rcases hrest with ⟨_, rfl, rfl⟩ | ⟨_, others, hothers, rfl⟩
  · exact ⟨_, hu.append hm', .one hru hk⟩
  · obtain ⟨v, hv, hrv⟩ := ih.statements ((hl.of_reach hu).of_reach hm') hothers
    exact ⟨_, hu.append (hm'.cons hv), .more hru hk hrv⟩

private theorem function_succ (ih : FaithfulBlock src n) {e : Node} (hl : l.Closed)
    (h : function src (n + 1) l = .ok e l') : SpansClause src l l' (.statement true e) := by
  obtain ⟨hk, m, hadv, hn, m₁, h₁, params, m₂, hparams, hnl, m₅, h₅, body, m₆, hbody, hend,
    h₆, rfl⟩ := function_eq_ok.mp h
  have hm := reach_of_kind hl hk hadv
  have hm₁ := reach_of_kind (hl.of_reach hm) hn h₁
  have hl₁ := (hl.of_reach hm).of_reach hm₁
  -- the parameters, with parentheses around them, or nothing
  obtain ⟨u, hu, hru⟩ : ∃ u, m₁.Reach u m₂ ∧ ReadsHeader params u := by
    rcases hparams with ⟨ho, m₃, m₄, h₃, hps, hc, h₄⟩ | ⟨_, rfl, rfl⟩
    · have hm₃ := reach_of_kind hl₁ ho h₃
      obtain ⟨w, hw, hr⟩ := reads_of_parameters (hl₁.of_reach hm₃) hps
      have hm₄ := reach_of_kind ((hl₁.of_reach hm₃).of_reach hw) hc h₄
      exact ⟨_, hm₃.cons (hw.append hm₄), .some ho hr hc⟩
    · exact ⟨[], Lookahead.reach_nil.mpr rfl, .none⟩
  have hl₂ := hl₁.of_reach hu
  have hm₅ := reach_of_kind hl₂ hnl h₅
  obtain ⟨v, hv, hrv⟩ := ih.statements (hl₂.of_reach hm₅) hbody
  have hm₆ := reach_of_kind ((hl₂.of_reach hm₅).of_reach hv) hend h₆
  exact ⟨_, hm.cons (hm₁.cons (hu.append (hm₅.cons (hv.append hm₆)))),
    .function hk hn hru hnl hrv hend⟩

private theorem loop_succ (ih : FaithfulBlock src n) {functions : Bool} {e : Node}
    (hl : l.Closed) (h : loop src (n + 1) l = .ok e l') :
    SpansClause src l l' (.statement functions e) := by
  obtain ⟨hk, m, hadv, test, m₁, htest, hnl, m₂, h₂, body, m₃, hbody, hend, h₃, rfl⟩ :=
    loop_eq_ok.mp h
  have hk' : l.current.kind = .kwWhile ∨ l.current.kind = .kwUntil := by simpa using hk
  have hm := reach_of_advance hl (by rcases hk' with hk' | hk' <;> rw [hk'] <;> decide) hadv
  obtain ⟨u, hu, hru⟩ := reads_of_comparison (hl.of_reach hm) htest
  have hl₁ := (hl.of_reach hm).of_reach hu
  have hm₂ := reach_of_kind hl₁ hnl h₂
  obtain ⟨v, hv, hrv⟩ := ih.statements (hl₁.of_reach hm₂) hbody
  have hm₃ := reach_of_kind ((hl₁.of_reach hm₂).of_reach hv) hend h₃
  exact ⟨_, hm.cons (hu.append (hm₂.cons (hv.append hm₃))), .loop hk' hru hnl hrv hend⟩

private theorem conditional_succ (ih : FaithfulBlock src n) {functions : Bool} {e : Node}
    (hl : l.Closed) (h : conditional src (n + 1) l = .ok e l') :
    SpansClause src l l' (.statement functions e) := by
  obtain ⟨hk, m, hadv, test, m₁, htest, hnl, m₂, h₂, thenBody, m₃, hthen, elseBody, m₄, helse,
    hend, h₄, rfl⟩ := conditional_eq_ok.mp h
  have hm := reach_of_kind hl hk hadv
  obtain ⟨u, hu, hru⟩ := reads_of_comparison (hl.of_reach hm) htest
  have hl₁ := (hl.of_reach hm).of_reach hu
  have hm₂ := reach_of_kind hl₁ hnl h₂
  obtain ⟨v, hv, hrv⟩ := ih.statements (hl₁.of_reach hm₂) hthen
  have hl₃ := (hl₁.of_reach hm₂).of_reach hv
  -- another branch, or the end of the conditional
  rcases helse with ⟨hk₃, m₅, m₆, h₅, hnl', h₆, helse⟩ | ⟨_, rfl, rfl⟩
  · have hm₅ := reach_of_kind hl₃ hk₃ h₅
    have hm₆ := reach_of_kind (hl₃.of_reach hm₅) hnl' h₆
    have hl₆ := (hl₃.of_reach hm₅).of_reach hm₆
    obtain ⟨w, hw, hrw⟩ := ih.statements hl₆ helse
    have hm₄ := reach_of_kind (hl₆.of_reach hw) hend h₄
    exact ⟨_, hm.cons (hu.append (hm₂.cons (hv.append (hm₅.cons (hm₆.cons (hw.append hm₄)))))),
      .ifThenElse hk hru hnl hrv hk₃ hnl' hrw hend⟩
  · have hm₄ := reach_of_kind hl₃ hend h₄
    exact ⟨_, hm.cons (hu.append (hm₂.cons (hv.append hm₄))), .ifThen hk hru hnl hrv hend⟩

/-- The functions for statements are faithful at every level of nesting. -/
theorem faithfulBlock (src : Source) : ∀ n, FaithfulBlock src n
  | 0 =>
    { statement := fun _ h _ => absurd (by rwa [Parser.statement] at h) throw_ne_ok
      statements := fun _ h => absurd (by rwa [Parser.statements] at h) throw_ne_ok
      function := fun _ h => absurd (by rwa [Parser.function] at h) throw_ne_ok
      loop := fun _ h => absurd (by rwa [Parser.loop] at h) throw_ne_ok
      conditional := fun _ h => absurd (by rwa [Parser.conditional] at h) throw_ne_ok }
  | n + 1 =>
    have ih := faithfulBlock src n
    { statement := statement_succ ih
      statements := statements_succ ih
      function := function_succ ih
      loop := loop_succ ih
      conditional := conditional_succ ih }

/-- The tokens of a program are read up to the end of the text. -/
theorem reads_of_program {p : Program} (hl : l.Closed) (h : program src n l = .ok p l') :
    ∃ w m eof, l.Reach w m ∧ m.current = eof ∧ eof.kind = .eof ∧
      ReadsProgram src p (w ++ [eof]) := by
  obtain ⟨hk, m, hadv, hn, m₁, h₁, hnl, m₂, h₂, body, m₃, hbody, hend, m₄, h₄, m₅, htail, heof,
    _, rfl⟩ := program_eq_ok.mp h
  have hm := reach_of_kind hl hk hadv
  have hm₁ := reach_of_kind (hl.of_reach hm) hn h₁
  have hl₁ := (hl.of_reach hm).of_reach hm₁
  have hm₂ := reach_of_kind hl₁ hnl h₂
  have hl₂ := hl₁.of_reach hm₂
  obtain ⟨w, hw, hrw⟩ := (faithfulBlock src n).statements hl₂ hbody
  have hl₃ := hl₂.of_reach hw
  have hm₄ := reach_of_kind hl₃ hend h₄
  -- the line end after the last key word may be left out
  obtain ⟨rest, hrest, hkinds, hlength⟩ :
      ∃ rest, m₄.Reach rest m₅ ∧ (∀ t ∈ rest, t.kind = .newline) ∧ rest.length ≤ 1 := by
    rcases htail with ⟨hk₄, h₅⟩ | ⟨_, rfl⟩
    · exact ⟨_, reach_of_kind (hl₃.of_reach hm₄) hk₄ h₅, by simpa using hk₄, Nat.le_refl 1⟩
    · exact ⟨[], Lookahead.reach_nil.mpr rfl, by simp, Nat.zero_le 1⟩
  refine ⟨_, m₅, m₅.current,
    hm.cons (hm₁.cons (hm₂.cons (hw.append (hm₄.cons hrest)))), rfl, heof, ?_⟩
  simpa using ReadsProgram.mk hk hn hnl hrw hend hkinds hlength heof

end Parser

end VectorLang
