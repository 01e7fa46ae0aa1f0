import VectorLang.Proofs.Reading.Phrase

/-!
# What no grammar says

The kinds of its tokens do not tell whether a text is a program.  Its numerals must be
short enough to be read, and its parameters must not have dotted names.

* `Admissible.of_append`       the parts of an admissible row are admissible
* `ReadsProgram.admissible`    what is read as a program is admissible
-/

namespace VectorLang

/-- The parameters of a function from the first of them on. -/
def parameterRow : List Token → List Token
  | [] => []
  | [param] => if param.kind = .ident then [param] else []
  | param :: comma :: ts =>
    if param.kind = .ident then
      param :: (if comma.kind = .comma then parameterRow ts else [])
    else []

/-- The parameters of a function whose name is the first token. -/
def headerParameters : List Token → List Token
  | name :: paren :: ts => if name.kind = .ident ∧ paren.kind = .lparen then parameterRow ts else []
  | _ => []

/-- The parameters of all functions in a row of tokens: the names in the parentheses
    after `BEGIN` and a name. -/
def formalParameters : List Token → List Token
  | [] => []
  | t :: ts => (if t.kind = .kwBegin then headerParameters ts else []) ++ formalParameters ts

/-- Whether the numerals of a row of tokens can be read and none of its parameters has a
    dotted name. -/
structure Admissible (ts : List Token) : Prop where
  /-- No numeral has too many digits. -/
  numerals : ∀ t ∈ ts, t.kind = .int →
    (Numeral.digits t.text.toList).length ≤ Numeral.maxDigits
  /-- No parameter has a dotted name. -/
  parameters : ∀ t ∈ formalParameters ts, isGlobalName t.text = false

/-! ## Parts of a row -/

theorem mem_parameterRow_append {t : Token} {u : List Token} (v : List Token)
    (h : t ∈ parameterRow u) : t ∈ parameterRow (u ++ v) := by
  fun_induction parameterRow u with
  | case1 => exact nomatch h
  | case2 param hk =>
    cases v with
    | nil => rwa [List.append_nil, parameterRow, if_pos hk]
    | cons c v =>
      rw [List.singleton_append, parameterRow, if_pos hk]
      exact List.mem_cons.mpr (Or.inl (List.mem_singleton.mp h))
  | case3 => exact nomatch h
  | case4 param comma ts hk ih =>
    rw [List.cons_append, List.cons_append, parameterRow, if_pos hk]
    rcases List.mem_cons.mp h with rfl | h
    · exact List.mem_cons_self
    · refine List.mem_cons_of_mem _ ?_
      split at h
      · rw [if_pos ‹_›]
        exact ih h
      · exact nomatch h
  | case5 => exact nomatch h

theorem mem_headerParameters_append {t : Token} {u : List Token} (v : List Token)
    (h : t ∈ headerParameters u) : t ∈ headerParameters (u ++ v) := by
  match u, h with
  | name :: paren :: ts, h =>
    simp only [headerParameters, List.cons_append] at h ⊢
    split at h
    · rw [if_pos ‹_›]
      exact mem_parameterRow_append v h
    · exact nomatch h

theorem mem_formalParameters_left {t : Token} {u : List Token} (v : List Token)
    (h : t ∈ formalParameters u) : t ∈ formalParameters (u ++ v) := by
  induction u with
  | nil => exact nomatch h
  | cons t' u ih =>
    simp only [formalParameters, List.cons_append, List.mem_append] at h ⊢
    -- a function that starts here, or one that starts later
    rcases h with h | h
    · split at h
      · rw [if_pos ‹_›]
        exact Or.inl (mem_headerParameters_append v h)
      · exact nomatch h
    · exact Or.inr (ih h)

theorem mem_formalParameters_right {t : Token} (u : List Token) {v : List Token}
    (h : t ∈ formalParameters v) : t ∈ formalParameters (u ++ v) := by
  induction u with
  | nil => exact h
  | cons t' u ih => exact List.mem_append_right _ ih

/-- The parts of an admissible row are admissible. -/
theorem Admissible.of_append {u v : List Token} (h : Admissible (u ++ v)) :
    Admissible u ∧ Admissible v :=
  ⟨⟨fun t ht => h.numerals t (List.mem_append_left v ht),
      fun t ht => h.parameters t (mem_formalParameters_left v ht)⟩,
    ⟨fun t ht => h.numerals t (List.mem_append_right u ht),
      fun t ht => h.parameters t (mem_formalParameters_right u ht)⟩⟩

/-! ## What is read -/

/-- Tokens that do not start a function have no parameters. -/
private theorem formalParameters_append {u v : List Token} (h : ∀ t ∈ u, t.kind ≠ .kwBegin) :
    formalParameters (u ++ v) = formalParameters v := by
  induction u with
  | nil => rfl
  | cons t u ih =>
    rw [List.forall_mem_cons] at h
    rw [List.cons_append, formalParameters, if_neg h.1, ih h.2, List.nil_append]

/-- Nor has a token of a kind that is known, if that starts no function. -/
private theorem formalParameters_cons {t : Token} {ts : List Token} {k : Kind}
    (ht : t.kind = k) (hk : k ≠ .kwBegin := by decide) :
    formalParameters (t :: ts) = formalParameters ts := by
  have hne : t.kind ≠ .kwBegin := ht ▸ hk
  rw [formalParameters, if_neg hne, List.nil_append]

private theorem ne_kwBegin {t : Token} (h : t.kind.inExpression = true) : t.kind ≠ .kwBegin := by
  intro hk
  rw [hk] at h
  exact nomatch h

/-- What is read as a phrase of an expression has no parameters. -/
theorem Reads.formalParameters_append {src : Source} {phrase : Phrase} {u v : List Token}
    (h : Reads src phrase u) : formalParameters (u ++ v) = formalParameters v :=
  VectorLang.formalParameters_append fun t ht => ne_kwBegin (h.inExpression t ht)

/-- The numerals of a phrase that is read are short enough. -/
theorem Reads.numerals {src : Source} {phrase : Phrase} {w : List Token}
    (h : Reads src phrase w) : ∀ t ∈ w, t.kind = .int →
      (Numeral.digits t.text.toList).length ≤ Numeral.maxDigits := by
  induction h with
  | int _ hread =>
    intro t ht _
    obtain rfl := List.mem_singleton.mp ht
    rw [Numeral.read] at hread
    split at hread
    · assumption
    · exact nomatch hread
  | sumsCons hop _ _ ihu ihv =>
    simp only [List.forall_mem_cons, List.forall_mem_append]
    exact ⟨fun hk => (by rw [hk] at hop; cases hop), ihu, ihv⟩
  | productsCons hop _ _ ihu ihv =>
    simp only [List.forall_mem_cons, List.forall_mem_append]
    exact ⟨fun hk => (by rw [hk] at hop; cases hop), ihu, ihv⟩
  | unary hop _ ih | elementsUnary hop _ ih =>
    simp only [List.forall_mem_cons]
    exact ⟨fun hk => (by rw [hk] at hop; cases hop), ih⟩
  | _ => simp_all [or_imp, forall_and]

theorem ReadsComparison.numerals {src : Source} {test : Comparison Node} {w : List Token}
    (h : ReadsComparison src test w) : ∀ t ∈ w, t.kind = .int →
      (Numeral.digits t.text.toList).length ≤ Numeral.maxDigits := by
  cases h with
  | mk hleft hop hright =>
    rw [← List.cons_append]
    -- between the two sides stands a relation, which is no numeral
    refine List.forall_mem_append.mpr ⟨hleft.numerals, List.forall_mem_cons.mpr ⟨?_, ?_⟩⟩
    · intro hk
      rw [hk] at hop
      exact nomatch hop
    · exact hright.numerals

private theorem ReadsComparison.formalParameters_append {src : Source} {test : Comparison Node}
    {u v : List Token} (h : ReadsComparison src test u) :
    formalParameters (u ++ v) = formalParameters v := by
  cases h with
  | @mk _ _ _ op _ _ hleft hop hright =>
    have hkind : op.kind ≠ .kwBegin := by
      intro hk
      rw [hk] at hop
      exact nomatch hop
    rw [← List.cons_append, List.append_assoc, hleft.formalParameters_append, List.cons_append,
      formalParameters_cons rfl hkind, hright.formalParameters_append]

private theorem ReadsParameters.kinds {params : List String} {w : List Token}
    (h : ReadsParameters params w) : ∀ t ∈ w, t.kind = .ident ∨ t.kind = .comma := by
  induction h with
  | one ht _ => simp [ht]
  | more ht _ hc _ ih => simpa [ht, hc] using ih

private theorem ReadsHeader.kinds {params : List String} {w : List Token}
    (h : ReadsHeader params w) : ∀ t ∈ w, t.kind ≠ .kwBegin ∧ t.kind ≠ .int := by
  cases h with
  | none => simp
  | some ho hparams hc =>
    simp only [List.forall_mem_cons, List.forall_mem_append]
    refine ⟨by rw [ho]; decide, fun t ht => ?_, by simp [hc]⟩
    rcases hparams.kinds t ht with hk | hk <;> rw [hk] <;> decide

/-- The parameters that are read have no dotted names. -/
private theorem ReadsParameters.undotted {params : List String} {w v : List Token}
    {closing : Token} (h : ReadsParameters params w) (hc : closing.kind = .rparen) :
    ∀ t ∈ parameterRow (w ++ closing :: v), isGlobalName t.text = false := by
  induction h with
  | one ht hg =>
    rw [List.singleton_append, parameterRow, if_pos ht, if_neg (by rw [hc]; decide)]
    simpa using hg
  | more ht hg hk _ ih =>
    rw [List.cons_append, List.cons_append, parameterRow, if_pos ht, if_pos hk]
    exact List.forall_mem_cons.mpr ⟨hg, ih⟩

private theorem ReadsHeader.undotted {params : List String} {w v : List Token}
    {name newline : Token} (h : ReadsHeader params w) (hnl : newline.kind = .newline) :
    ∀ t ∈ headerParameters (name :: (w ++ newline :: v)), isGlobalName t.text = false := by
  cases h with
  | none =>
    rw [List.nil_append, headerParameters, if_neg (by simp [hnl])]
    exact fun t ht => nomatch ht
  | some ho hparams hc =>
    rw [List.cons_append, headerParameters, List.append_assoc]
    split
    · exact hparams.undotted hc
    · exact fun t ht => nomatch ht

/-- The numerals of a clause that is read are short enough. -/
theorem ReadsClause.numerals {src : Source} {clause : Clause} {w : List Token}
    (h : ReadsClause src clause w) : ∀ t ∈ w, t.kind = .int →
      (Numeral.digits t.text.toList).length ≤ Numeral.maxDigits := by
  induction h with
  | function hk hi hu hnl _ hc ih =>
    simp only [List.forall_mem_cons, List.forall_mem_append]
    simp only [hk, hi, hnl, hc, reduceCtorEq, false_implies, true_and]
    exact ⟨fun t ht hint => absurd hint (hu.kinds t ht).2, ih, by simp⟩
  | @loop _ _ _ kw _ _ _ _ hk hu hnl _ hc ih =>
    simp only [List.forall_mem_cons, List.forall_mem_append]
    simp only [hnl, hc, reduceCtorEq, false_implies, true_and]
    refine ⟨fun hint => ?_, hu.numerals, ih, by simp⟩
    rcases hk with hk | hk <;> exact nomatch hk.symm.trans hint
  | ifThen hk hu hnl _ hc ih =>
    simp only [List.forall_mem_cons, List.forall_mem_append]
    simp only [hk, hnl, hc, reduceCtorEq, false_implies, true_and]
    exact ⟨hu.numerals, ih, by simp⟩
  | ifThenElse hk hu hnl _ he hnl' _ hc ihv ihw =>
    simp only [List.forall_mem_cons, List.forall_mem_append]
    simp only [hk, hnl, he, hnl', hc, reduceCtorEq, false_implies, true_and]
    exact ⟨hu.numerals, ihv, ihw, by simp⟩
  | assign ht ha he =>
    simp only [List.forall_mem_cons, ht, ha, reduceCtorEq, false_implies, true_and]
    exact he.numerals
  | erase ht ha => simp [ht, ha]
  | callOutput he => exact he.numerals
  | output he _ => exact he.numerals
  | one _ hnl ih =>
    simp only [List.forall_mem_append]
    exact ⟨ih, by simp [hnl]⟩
  | more _ hnl _ ihu ihv =>
    simp only [List.forall_mem_append, List.forall_mem_cons, hnl]
    exact ⟨ihu, by simp, ihv⟩

/-- A clause that is read adds no parameters with dotted names to those after it. -/
theorem ReadsClause.undotted {src : Source} {clause : Clause} {w : List Token}
    (h : ReadsClause src clause w) : ∀ v, ∀ t ∈ formalParameters (w ++ v),
      isGlobalName t.text = false ∨ t ∈ formalParameters v := by
  induction h with
  | @function params body kw name newline closing u v hk hi hu hnl _ hc ih =>
    intro rest t ht
    simp only [List.cons_append, List.nil_append, List.append_assoc] at ht
    rw [formalParameters, if_pos hk, List.mem_append] at ht
    -- a parameter of this function, or of one in its body, or of a later one
    rcases ht with ht | ht
    · exact Or.inl (hu.undotted hnl t ht)
    · rw [formalParameters_cons hi,
        VectorLang.formalParameters_append fun t ht => (hu.kinds t ht).1,
        formalParameters_cons hnl] at ht
      have h := ih _ t ht
      rwa [formalParameters_cons hc] at h
  | @loop _ _ _ kw _ _ _ _ hk hu hnl _ hc ih =>
    intro rest t ht
    have hkw : kw.kind ≠ .kwBegin := by rcases hk with hk | hk <;> rw [hk] <;> decide
    simp only [List.cons_append, List.nil_append, List.append_assoc] at ht
    rw [formalParameters_cons rfl hkw, hu.formalParameters_append,
      formalParameters_cons hnl] at ht
    have h := ih _ t ht
    rwa [formalParameters_cons hc] at h
  | ifThen hk hu hnl _ hc ih =>
    intro rest t ht
    simp only [List.cons_append, List.nil_append, List.append_assoc] at ht
    rw [formalParameters_cons hk, hu.formalParameters_append,
      formalParameters_cons hnl] at ht
    have h := ih _ t ht
    rwa [formalParameters_cons hc] at h
  | ifThenElse hk hu hnl _ he hnl' _ hc ihv ihw =>
    intro rest t ht
    simp only [List.cons_append, List.nil_append, List.append_assoc] at ht
    rw [formalParameters_cons hk, hu.formalParameters_append,
      formalParameters_cons hnl] at ht
    -- the parameters of the first branch, and then those of the other one
    rcases ihv _ t ht with h | h
    · exact Or.inl h
    · rw [formalParameters_cons he,
        formalParameters_cons hnl'] at h
      have h := ihw _ t h
      rwa [formalParameters_cons hc] at h
  | assign ht ha he =>
    intro rest t hmem
    rw [List.cons_append, List.cons_append, formalParameters_cons ht,
      formalParameters_cons ha, he.formalParameters_append] at hmem
    exact Or.inr hmem
  | erase ht ha =>
    intro rest t hmem
    rw [List.cons_append, List.singleton_append, formalParameters_cons ht,
      formalParameters_cons ha] at hmem
    exact Or.inr hmem
  | callOutput he =>
    intro rest t hmem
    exact Or.inr (by rwa [he.formalParameters_append] at hmem)
  | output he _ =>
    intro rest t hmem
    exact Or.inr (by rwa [he.formalParameters_append] at hmem)
  | one _ hnl ih =>
    intro rest t hmem
    rw [List.append_assoc] at hmem
    have h := ih _ t hmem
    rwa [List.singleton_append, formalParameters_cons hnl] at h
  | more _ hnl _ ihu ihv =>
    intro rest t hmem
    rw [List.append_assoc] at hmem
    -- the parameters of the first line, and then those of the others
    rcases ihu _ t hmem with h | h
    · exact Or.inl h
    · rw [List.cons_append, formalParameters_cons hnl] at h
      exact ihv rest t h

/-- What is read as a program is admissible. -/
theorem ReadsProgram.admissible {src : Source} {p : Program} {w : List Token}
    (h : ReadsProgram src p w) : Admissible w := by
  cases h with
  | @mk _ kw name newline closing eof v rest hk hi hnl hv hc hrest hlength heof =>
    constructor
    · simp only [List.forall_mem_cons, List.forall_mem_append]
      simp only [hk, hi, hnl, hc, reduceCtorEq, false_implies, true_and]
      refine ⟨hv.numerals, fun t ht hint => ?_, by simp [heof]⟩
      exact nomatch (hrest t ht).symm.trans hint
    · intro t ht
      rw [formalParameters, if_pos hk, List.mem_append] at ht
      rcases ht with ht | ht
      -- the program itself has no parameters
      · exact ReadsHeader.none.undotted hnl t ht
      · rw [formalParameters_cons hi,
          formalParameters_cons hnl] at ht
        refine (hv.undotted _ t ht).resolve_right fun h => ?_
        rw [formalParameters_cons hc,
          VectorLang.formalParameters_append (fun t ht => by rw [hrest t ht]; decide),
          formalParameters_cons heof] at h
        exact nomatch h

end VectorLang
