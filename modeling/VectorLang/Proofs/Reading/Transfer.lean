import VectorLang.Proofs.Reading.Phrase
import VectorLang.Proofs.Token.Lexeme
import VectorLang.Proofs.Tree.Unlocated

/-!
# Places do not matter for reading

Which trees tokens are read as depends on their lexemes alone, except for the locations in
the trees.

* `Reads.transfer`          for the phrases of expressions
* `ReadsClause.transfer`    for statements
* `ReadsProgram.transfer`   for whole programs
-/

namespace VectorLang

/-- Whether the tokens are read as the phrase, up to the locations of its trees. -/
def Phrase.ReadFrom (src : Source) (w : List Token) : Phrase → Prop
  | expression e => ∃ e', e'.unlocated = e.unlocated ∧ Reads src (.expression e') w
  | sums left e => ∀ left', left'.unlocated = left.unlocated →
      ∃ e', e'.unlocated = e.unlocated ∧ Reads src (.sums left' e') w
  | term e => ∃ e', e'.unlocated = e.unlocated ∧ Reads src (.term e') w
  | products left e => ∀ left', left'.unlocated = left.unlocated →
      ∃ e', e'.unlocated = e.unlocated ∧ Reads src (.products left' e') w
  | factor e => ∃ e', e'.unlocated = e.unlocated ∧ Reads src (.factor e') w
  | vector e => ∃ e', e'.unlocated = e.unlocated ∧ Reads src (.vector e') w
  | elements es =>
      ∃ es', Node.unlocatedList es' = Node.unlocatedList es ∧ Reads src (.elements es') w
  | atom e => ∃ e', e'.unlocated = e.unlocated ∧ Reads src (.atom e') w
  | call e => ∃ e', e'.unlocated = e.unlocated ∧ Reads src (.call e') w
  | arguments es =>
      ∃ es', Node.unlocatedList es' = Node.unlocatedList es ∧ Reads src (.arguments es') w

/-! ## Rows with the same lexemes -/

private theorem eq_nil_of_lexemes {w : List Token}
    (h : w.map Token.lexeme = ([] : List Token).map Token.lexeme) : w = [] := by
  simpa using h

private theorem eq_cons_of_lexemes {t : Token} {v w : List Token}
    (h : w.map Token.lexeme = (t :: v).map Token.lexeme) :
    ∃ t' v', w = t' :: v' ∧ t'.kind = t.kind ∧ t'.text = t.text ∧
      v'.map Token.lexeme = v.map Token.lexeme := by
  obtain ⟨t', v', rfl, ht, hv⟩ := List.map_eq_cons_iff.mp h
  exact ⟨t', v', rfl, congrArg Lexeme.kind ht, congrArg Lexeme.text ht, hv⟩

private theorem eq_append_of_lexemes {u v w : List Token}
    (h : w.map Token.lexeme = (u ++ v).map Token.lexeme) :
    ∃ u' v', w = u' ++ v' ∧ u'.map Token.lexeme = u.map Token.lexeme ∧
      v'.map Token.lexeme = v.map Token.lexeme := by
  rw [List.map_append] at h
  exact List.map_eq_append_iff.mp h

private theorem eq_snoc_of_lexemes {t : Token} {u w : List Token}
    (h : w.map Token.lexeme = (u ++ [t]).map Token.lexeme) :
    ∃ u' t', w = u' ++ [t'] ∧ u'.map Token.lexeme = u.map Token.lexeme ∧ t'.kind = t.kind := by
  obtain ⟨u', v', rfl, hu, hv⟩ := eq_append_of_lexemes h
  obtain ⟨t', v'', rfl, hkind, _, hv'⟩ := eq_cons_of_lexemes hv
  obtain rfl := eq_nil_of_lexemes hv'
  exact ⟨u', t', rfl, hu, hkind⟩

private theorem head_ne_of_lexemes {k : Kind} {v w : List Token}
    (h : w.map Token.lexeme = v.map Token.lexeme) (hv : ∀ t ∈ v.head?, t.kind ≠ k) :
    ∀ t ∈ w.head?, t.kind ≠ k := by
  cases v with
  | nil =>
    obtain rfl := eq_nil_of_lexemes h
    exact hv
  | cons t v =>
    obtain ⟨t', v', rfl, hkind, _, _⟩ := eq_cons_of_lexemes h
    intro next hnext
    cases hnext
    rw [hkind]
    exact hv t rfl

/-! ## Expressions -/

/-- A row of trees is as long as any row that is equal to it up to locations. -/
private theorem eq_cons_of_unlocatedList {e : Node} {es ns : List Node}
    (h : Node.unlocatedList ns = Node.unlocatedList (e :: es)) :
    ∃ n ns', ns = n :: ns' := by
  cases ns with
  | nil => exact nomatch h
  | cons n ns => exact ⟨n, ns, rfl⟩

/-- Rows with the same lexemes are read as the same trees, up to locations. -/
theorem Reads.transfer {src : Source} (src' : Source) {phrase : Phrase} {w : List Token}
    (h : Reads src phrase w) {w' : List Token}
    (hw : w'.map Token.lexeme = w.map Token.lexeme) : phrase.ReadFrom src' w' := by
  induction h generalizing w' with
  | expression _ _ ihu ihv =>
    obtain ⟨u', v', rfl, hu, hv⟩ := eq_append_of_lexemes hw
    obtain ⟨left', hleft, hru⟩ := ihu hu
    obtain ⟨e', he, hrv⟩ := ihv hv left' hleft
    exact ⟨e', he, .expression hru hrv⟩
  | sumsNil =>
    obtain rfl := eq_nil_of_lexemes hw
    exact fun left' hleft => ⟨left', hleft, .sumsNil⟩
  | @sumsCons left right e op t _ _ hop _ _ ihu ihv =>
    obtain ⟨t', w'', rfl, hkind, _, hw'⟩ := eq_cons_of_lexemes hw
    obtain ⟨u', v', rfl, hu, hv⟩ := eq_append_of_lexemes hw'
    obtain ⟨right', hright, hru⟩ := ihu hu
    intro left' hleft
    -- what is read so far is the operation on the two operands
    have hbinary : (Node.binary (src'.locate t') op left' right').unlocated =
        (Node.binary (src.locate t) op left right).unlocated := by
      simp only [Node.unlocated, hleft, hright]
    obtain ⟨e', he, hrv⟩ := ihv hv _ hbinary
    rw [← hkind] at hop
    exact ⟨e', he, .sumsCons hop hru hrv⟩
  | term _ _ ihu ihv =>
    obtain ⟨u', v', rfl, hu, hv⟩ := eq_append_of_lexemes hw
    obtain ⟨left', hleft, hru⟩ := ihu hu
    obtain ⟨e', he, hrv⟩ := ihv hv left' hleft
    exact ⟨e', he, .term hru hrv⟩
  | productsNil =>
    obtain rfl := eq_nil_of_lexemes hw
    exact fun left' hleft => ⟨left', hleft, .productsNil⟩
  | @productsCons left right e op t _ _ hop _ _ ihu ihv =>
    obtain ⟨t', w'', rfl, hkind, _, hw'⟩ := eq_cons_of_lexemes hw
    obtain ⟨u', v', rfl, hu, hv⟩ := eq_append_of_lexemes hw'
    obtain ⟨right', hright, hru⟩ := ihu hu
    intro left' hleft
    have hbinary : (Node.binary (src'.locate t') op left' right').unlocated =
        (Node.binary (src.locate t) op left right).unlocated := by
      simp only [Node.unlocated, hleft, hright]
    obtain ⟨e', he, hrv⟩ := ihv hv _ hbinary
    rw [← hkind] at hop
    exact ⟨e', he, .productsCons hop hru hrv⟩
  | unary hop _ ih =>
    obtain ⟨t', v', rfl, hkind, _, hv⟩ := eq_cons_of_lexemes hw
    obtain ⟨e', he, hr⟩ := ih hv
    rw [← hkind] at hop
    exact ⟨_, by simp only [Node.unlocated, he], .unary hop hr⟩
  | paren ho _ hc ih =>
    obtain ⟨opening', w'', rfl, hopening, _, hw'⟩ := eq_cons_of_lexemes hw
    obtain ⟨u', closing', rfl, hu, hclosing⟩ := eq_snoc_of_lexemes hw'
    obtain ⟨e', he, hr⟩ := ih hu
    exact ⟨e', he, .paren (hopening.trans ho) hr (hclosing.trans hc)⟩
  | bare hop hne _ ih =>
    -- what the first token is decides that the vector stands without a sign
    obtain ⟨e', he, hr⟩ := ih hw
    obtain ⟨t', v', rfl, hkind, _, _⟩ := eq_cons_of_lexemes hw
    rw [← hkind] at hop hne
    exact ⟨e', he, .bare hop hne hr⟩
  | vector _ ih =>
    obtain ⟨es', hes, hr⟩ := ih hw
    obtain ⟨t', v', rfl, _, _, _⟩ := eq_cons_of_lexemes hw
    obtain ⟨e', es'', rfl⟩ := eq_cons_of_unlocatedList hes
    exact ⟨_, by simp only [Node.unlocated, hes], .vector hr⟩
  | elementsNil =>
    obtain rfl := eq_nil_of_lexemes hw
    exact ⟨[], rfl, .elementsNil⟩
  | elementsAtom _ _ ihu ihv =>
    obtain ⟨u', v', rfl, hu, hv⟩ := eq_append_of_lexemes hw
    obtain ⟨e', he, hru⟩ := ihu hu
    obtain ⟨es', hes, hrv⟩ := ihv hv
    exact ⟨e' :: es', by simp only [Node.unlocatedList, he, hes], .elementsAtom hru hrv⟩
  | elementsName ht _ hne ih =>
    obtain ⟨t', v', rfl, hkind, htext, hv⟩ := eq_cons_of_lexemes hw
    obtain ⟨es', hes, hr⟩ := ih hv
    refine ⟨_, ?_, .elementsName (hkind.trans ht) hr (head_ne_of_lexemes hv hne)⟩
    simp only [Node.unlocatedList, Node.unlocated, htext, hes]
  | elementsParen ho _ hc _ ihu ihv =>
    obtain ⟨opening', w'', rfl, hopening, _, hw'⟩ := eq_cons_of_lexemes hw
    obtain ⟨u', v', rfl, hu, hv⟩ := eq_append_of_lexemes hw'
    obtain ⟨closing', v'', rfl, hclosing, _, hv'⟩ := eq_cons_of_lexemes hv
    obtain ⟨e', he, hru⟩ := ihu hu
    obtain ⟨es', hes, hrv⟩ := ihv hv'
    refine ⟨e' :: es', by simp only [Node.unlocatedList, he, hes], ?_⟩
    exact .elementsParen (hopening.trans ho) hru (hclosing.trans hc) hrv
  | elementsUnary hop _ ih =>
    obtain ⟨t', v', rfl, hkind, _, hv⟩ := eq_cons_of_lexemes hw
    obtain ⟨e', he, hr⟩ := ih hv
    rw [← hkind] at hop
    refine ⟨_, ?_, .elementsUnary hop hr⟩
    simp only [Node.unlocatedList, Node.unlocated, he]
  | int ht hread =>
    obtain ⟨t', v', rfl, hkind, htext, hv⟩ := eq_cons_of_lexemes hw
    obtain rfl := eq_nil_of_lexemes hv
    rw [← htext] at hread
    refine ⟨_, ?_, .int (hkind.trans ht) hread⟩
    rfl
  | string ht =>
    obtain ⟨t', v', rfl, hkind, htext, hv⟩ := eq_cons_of_lexemes hw
    obtain rfl := eq_nil_of_lexemes hv
    exact ⟨_, by simp only [Node.unlocated, htext], .string (hkind.trans ht)⟩
  | subscript ht ho _ hc ih =>
    obtain ⟨t', w'', rfl, hkind, htext, hw'⟩ := eq_cons_of_lexemes hw
    obtain ⟨opening', w''', rfl, hopening, _, hw''⟩ := eq_cons_of_lexemes hw'
    obtain ⟨u', closing', rfl, hu, hclosing⟩ := eq_snoc_of_lexemes hw''
    obtain ⟨e', he, hr⟩ := ih hu
    refine ⟨_, ?_, .subscript (hkind.trans ht) (hopening.trans ho) hr (hclosing.trans hc)⟩
    simp only [Node.unlocated, Node.unlocatedOption, htext, he]
  | callAtom _ ih =>
    obtain ⟨e', he, hr⟩ := ih hw
    exact ⟨e', he, .callAtom hr⟩
  | callNone ht ho hc =>
    obtain ⟨t', w'', rfl, hkind, htext, hw'⟩ := eq_cons_of_lexemes hw
    obtain ⟨opening', w''', rfl, hopening, _, hw''⟩ := eq_cons_of_lexemes hw'
    obtain ⟨closing', v'', rfl, hclosing, _, hv'⟩ := eq_cons_of_lexemes hw''
    obtain rfl := eq_nil_of_lexemes hv'
    refine ⟨_, ?_, .callNone (hkind.trans ht) (hopening.trans ho) (hclosing.trans hc)⟩
    simp only [Node.unlocated, htext]
  | callSome ht ho _ hc ih =>
    obtain ⟨t', w'', rfl, hkind, htext, hw'⟩ := eq_cons_of_lexemes hw
    obtain ⟨opening', w''', rfl, hopening, _, hw''⟩ := eq_cons_of_lexemes hw'
    obtain ⟨u', closing', rfl, hu, hclosing⟩ := eq_snoc_of_lexemes hw''
    obtain ⟨es', hes, hr⟩ := ih hu
    refine ⟨_, ?_, .callSome (hkind.trans ht) (hopening.trans ho) hr (hclosing.trans hc)⟩
    simp only [Node.unlocated, htext, hes]
  | argumentsOne _ ih =>
    obtain ⟨e', he, hr⟩ := ih hw
    exact ⟨[e'], by simp only [Node.unlocatedList, he], .argumentsOne hr⟩
  | argumentsMore _ hc _ ihu ihv =>
    obtain ⟨u', w'', rfl, hu, hw'⟩ := eq_append_of_lexemes hw
    obtain ⟨comma', v', rfl, hcomma, _, hv⟩ := eq_cons_of_lexemes hw'
    obtain ⟨e', he, hru⟩ := ihu hu
    obtain ⟨es', hes, hrv⟩ := ihv hv
    refine ⟨e' :: es', by simp only [Node.unlocatedList, he, hes], ?_⟩
    exact .argumentsMore hru (hcomma.trans hc) hrv

/-! ## Statements -/

/-- Whether the tokens are read as the clause, up to the locations of its trees. -/
def Clause.ReadFrom (src : Source) (w : List Token) : Clause → Prop
  | statement functions n =>
      ∃ n', n'.unlocated = n.unlocated ∧ ReadsClause src (.statement functions n') w
  | statements functions ns =>
      ∃ ns', Node.unlocatedList ns' = Node.unlocatedList ns ∧
        ReadsClause src (.statements functions ns') w

/-- Whether a node is nothing but a call in a vector is seen without its locations. -/
theorem Node.isLoneCall_unlocated (n : Node) : n.unlocated.isLoneCall = n.isLoneCall := by
  cases n with
  | vector loc es =>
    cases es with
    | nil => rfl
    | cons e es =>
      cases es with
      | nil => cases e <;> rfl
      | cons _ _ => cases e <;> rfl
  | _ => rfl

private theorem transfer_comparison {src : Source} (src' : Source) {test : Comparison Node}
    {w w' : List Token} (h : ReadsComparison src test w)
    (hw : w'.map Token.lexeme = w.map Token.lexeme) :
    ∃ test', Node.unlocatedComparison test' = Node.unlocatedComparison test ∧
      ReadsComparison src' test' w' := by
  cases h with
  | mk hleft hop hright =>
    obtain ⟨u', w'', rfl, hu, hw'⟩ := eq_append_of_lexemes (u := _ :: _) hw
    obtain ⟨op', v', rfl, hkind, _, hv⟩ := eq_cons_of_lexemes hw'
    obtain ⟨left', hleft', hrleft⟩ := hleft.transfer src' hu
    obtain ⟨right', hright', hrright⟩ := hright.transfer src' hv
    obtain ⟨t', u'', rfl, _, _, _⟩ := eq_cons_of_lexemes hu
    rw [← hkind] at hop
    refine ⟨_, ?_, .mk hrleft hop hrright⟩
    simp only [Node.unlocatedComparison, hleft', hright', hkind]

private theorem transfer_parameters {params : List String} {w w' : List Token}
    (h : ReadsParameters params w) (hw : w'.map Token.lexeme = w.map Token.lexeme) :
    ReadsParameters params w' := by
  induction h generalizing w' with
  | one ht hlocal =>
    obtain ⟨t', v', rfl, hkind, htext, hv⟩ := eq_cons_of_lexemes hw
    obtain rfl := eq_nil_of_lexemes hv
    rw [← htext] at hlocal ⊢
    exact .one (hkind.trans ht) hlocal
  | more ht hlocal hc _ ih =>
    obtain ⟨t', w'', rfl, hkind, htext, hw'⟩ := eq_cons_of_lexemes hw
    obtain ⟨comma', v', rfl, hcomma, _, hv⟩ := eq_cons_of_lexemes hw'
    rw [← htext] at hlocal ⊢
    exact .more (hkind.trans ht) hlocal (hcomma.trans hc) (ih hv)

private theorem transfer_header {params : List String} {w w' : List Token}
    (h : ReadsHeader params w) (hw : w'.map Token.lexeme = w.map Token.lexeme) :
    ReadsHeader params w' := by
  cases h with
  | none =>
    obtain rfl := eq_nil_of_lexemes hw
    exact .none
  | some ho hparams hc =>
    obtain ⟨opening', w'', rfl, hopening, _, hw'⟩ := eq_cons_of_lexemes hw
    obtain ⟨u', closing', rfl, hu, hclosing⟩ := eq_snoc_of_lexemes hw'
    exact .some (hopening.trans ho) (transfer_parameters hparams hu) (hclosing.trans hc)

/-- Rows with the same lexemes are read as the same statements, up to locations. -/
theorem ReadsClause.transfer {src : Source} (src' : Source) {clause : Clause} {w : List Token}
    (h : ReadsClause src clause w) {w' : List Token}
    (hw : w'.map Token.lexeme = w.map Token.lexeme) : clause.ReadFrom src' w' := by
  induction h generalizing w' with
  | function hkw hname hheader hnl _ hend ih =>
    obtain ⟨kw', w₁, rfl, hkw', _, hw₁⟩ := eq_cons_of_lexemes hw
    obtain ⟨name', w₂, rfl, hname', htext, hw₂⟩ := eq_cons_of_lexemes hw₁
    obtain ⟨u', w₃, rfl, hu, hw₃⟩ := eq_append_of_lexemes hw₂
    obtain ⟨newline', w₄, rfl, hnl', _, hw₄⟩ := eq_cons_of_lexemes hw₃
    obtain ⟨v', closing', rfl, hv, hclosing⟩ := eq_snoc_of_lexemes hw₄
    obtain ⟨body', hbody, hr⟩ := ih hv
    refine ⟨_, ?_, .function (hkw'.trans hkw) (hname'.trans hname)
      (transfer_header hheader hu) (hnl'.trans hnl) hr (hclosing.trans hend)⟩
    simp only [Node.unlocated, Node.unlocatedDefinition, htext, hbody]
  | loop hkw htest hnl _ hend ih =>
    obtain ⟨kw', w₁, rfl, hkw', _, hw₁⟩ := eq_cons_of_lexemes hw
    obtain ⟨u', w₂, rfl, hu, hw₂⟩ := eq_append_of_lexemes hw₁
    obtain ⟨newline', w₃, rfl, hnl', _, hw₃⟩ := eq_cons_of_lexemes hw₂
    obtain ⟨v', closing', rfl, hv, hclosing⟩ := eq_snoc_of_lexemes hw₃
    obtain ⟨test', htest', hrtest⟩ := transfer_comparison src' htest hu
    obtain ⟨body', hbody, hr⟩ := ih hv
    rw [← hkw'] at hkw
    refine ⟨_, ?_, .loop hkw hrtest (hnl'.trans hnl) hr (hclosing.trans hend)⟩
    simp only [Node.unlocated, hkw', htest', hbody]
  | ifThen hkw htest hnl _ hend ih =>
    obtain ⟨kw', w₁, rfl, hkw', _, hw₁⟩ := eq_cons_of_lexemes hw
    obtain ⟨u', w₂, rfl, hu, hw₂⟩ := eq_append_of_lexemes hw₁
    obtain ⟨newline', w₃, rfl, hnl', _, hw₃⟩ := eq_cons_of_lexemes hw₂
    obtain ⟨v', closing', rfl, hv, hclosing⟩ := eq_snoc_of_lexemes hw₃
    obtain ⟨test', htest', hrtest⟩ := transfer_comparison src' htest hu
    obtain ⟨thenBody', hthen, hr⟩ := ih hv
    refine ⟨_, ?_, .ifThen (hkw'.trans hkw) hrtest (hnl'.trans hnl) hr
      (hclosing.trans hend)⟩
    simp only [Node.unlocated, htest', hthen]
  | ifThenElse hkw htest hnl _ helse hnl₂ _ hend ihthen ihelse =>
    obtain ⟨kw', w₁, rfl, hkw', _, hw₁⟩ := eq_cons_of_lexemes hw
    obtain ⟨u', w₂, rfl, hu, hw₂⟩ := eq_append_of_lexemes hw₁
    obtain ⟨newline', w₃, rfl, hnl', _, hw₃⟩ := eq_cons_of_lexemes hw₂
    obtain ⟨v', w₄, rfl, hv, hw₄⟩ := eq_append_of_lexemes hw₃
    obtain ⟨kwElse', w₅, rfl, helse', _, hw₅⟩ := eq_cons_of_lexemes hw₄
    obtain ⟨newline₂', w₆, rfl, hnl₂', _, hw₆⟩ := eq_cons_of_lexemes hw₅
    obtain ⟨x', closing', rfl, hx, hclosing⟩ := eq_snoc_of_lexemes hw₆
    obtain ⟨test', htest', hrtest⟩ := transfer_comparison src' htest hu
    obtain ⟨thenBody', hthen, hrthen⟩ := ihthen hv
    obtain ⟨elseBody', helseBody, hrelse⟩ := ihelse hx
    refine ⟨_, ?_, .ifThenElse (hkw'.trans hkw) hrtest (hnl'.trans hnl) hrthen
      (helse'.trans helse) (hnl₂'.trans hnl₂) hrelse (hclosing.trans hend)⟩
    simp only [Node.unlocated, htest', hthen, helseBody]
  | assign ht harrow he =>
    obtain ⟨t', w₁, rfl, hkind, htext, hw₁⟩ := eq_cons_of_lexemes hw
    obtain ⟨arrow', v', rfl, harrow', _, hv⟩ := eq_cons_of_lexemes hw₁
    obtain ⟨e', he', hr⟩ := he.transfer src' hv
    refine ⟨_, ?_, .assign (hkind.trans ht) (harrow'.trans harrow) hr⟩
    simp only [Node.unlocated, Node.unlocatedOption, htext, he']
  | erase ht harrow =>
    obtain ⟨t', w₁, rfl, hkind, htext, hw₁⟩ := eq_cons_of_lexemes hw
    obtain ⟨arrow', v', rfl, harrow', _, hv⟩ := eq_cons_of_lexemes hw₁
    obtain rfl := eq_nil_of_lexemes hv
    refine ⟨_, ?_, .erase (hkind.trans ht) (harrow'.trans harrow)⟩
    simp only [Node.unlocated, Node.unlocatedOption, htext]
  | callOutput hcall =>
    obtain ⟨e', he, hr⟩ := hcall.transfer src' hw
    obtain ⟨t', v', rfl, _, _, _⟩ := eq_cons_of_lexemes hw
    exact ⟨_, by simp only [Node.unlocated, he], .callOutput hr⟩
  | output hexpression hlone =>
    obtain ⟨e', he, hr⟩ := hexpression.transfer src' hw
    obtain ⟨t', v', rfl, hkind, _, _⟩ := eq_cons_of_lexemes hw
    -- neither the kind of a token nor the shape of a tree depends on locations
    rw [← Node.isLoneCall_unlocated, ← he, Node.isLoneCall_unlocated, ← hkind] at hlone
    exact ⟨_, by simp only [Node.unlocated, he], .output hr hlone⟩
  | one _ hnl ih =>
    obtain ⟨u', newline', rfl, hu, hnl'⟩ := eq_snoc_of_lexemes hw
    obtain ⟨n', hn, hr⟩ := ih hu
    exact ⟨[n'], by simp only [Node.unlocatedList, hn], .one hr (hnl'.trans hnl)⟩
  | more _ hnl _ ihu ihv =>
    obtain ⟨u', w₁, rfl, hu, hw₁⟩ := eq_append_of_lexemes hw
    obtain ⟨newline', v', rfl, hnl', _, hv⟩ := eq_cons_of_lexemes hw₁
    obtain ⟨n', hn, hru⟩ := ihu hu
    obtain ⟨ns', hns, hrv⟩ := ihv hv
    refine ⟨n' :: ns', by simp only [Node.unlocatedList, hn, hns], ?_⟩
    exact .more hru (hnl'.trans hnl) hrv

/-- Rows with the same lexemes are read as the same program, up to locations. -/
theorem ReadsProgram.transfer {src : Source} (src' : Source) {p : Program} {w w' : List Token}
    (h : ReadsProgram src p w) (hw : w'.map Token.lexeme = w.map Token.lexeme) :
    ∃ p', p'.unlocated = p.unlocated ∧ ReadsProgram src' p' w' := by
  cases h with
  | mk hkw hname hnl hbody hend hrest hlength heof =>
    obtain ⟨kw', w₁, rfl, hkw', _, hw₁⟩ := eq_cons_of_lexemes hw
    obtain ⟨name', w₂, rfl, hname', htext, hw₂⟩ := eq_cons_of_lexemes hw₁
    obtain ⟨newline', w₃, rfl, hnl', _, hw₃⟩ := eq_cons_of_lexemes hw₂
    obtain ⟨v', w₄, rfl, hv, hw₄⟩ := eq_append_of_lexemes hw₃
    obtain ⟨closing', w₅, rfl, hclosing, _, hw₅⟩ := eq_cons_of_lexemes hw₄
    obtain ⟨rest', eof', rfl, hrest', heof'⟩ := eq_snoc_of_lexemes hw₅
    obtain ⟨body', hbody', hr⟩ := hbody.transfer src' hv
    -- the newlines before the end of the text are as many, and of the same kind
    have hnewlines : ∀ t ∈ rest', t.kind = .newline := by
      intro t ht
      have hmem : t.lexeme ∈ rest'.map Token.lexeme := List.mem_map_of_mem ht
      rw [hrest'] at hmem
      obtain ⟨t₀, ht₀, heq⟩ := List.mem_map.mp hmem
      exact (congrArg Lexeme.kind heq).symm.trans (hrest t₀ ht₀)
    have hlength' : rest'.length ≤ 1 := by
      have := congrArg List.length hrest'
      simp only [List.length_map] at this
      omega
    refine ⟨_, ?_, .mk (hkw'.trans hkw) (hname'.trans hname) (hnl'.trans hnl) hr
      (hclosing.trans hend) hnewlines hlength' (heof'.trans heof)⟩
    simp only [Program.unlocated, Node.unlocatedDefinition, htext, hbody']

end VectorLang
