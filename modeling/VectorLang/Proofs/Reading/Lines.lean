import VectorLang.Proofs.Reading.Phrase

/-!
# Lines of programs

No program starts with a newline, and no two newlines follow each other in one.  So every
newline of a program is one that the scanner does not pass over.

* `ReadsProgram.separated`   the newlines of a program are separated
-/

namespace VectorLang

/-- Whether no newline comes first or after another one, where `last` is the kind of the
    token before the row. -/
def Separated : Option Kind → List Kind → Prop
  | _, [] => True
  | last, k :: ks => (k = .newline → last ≠ none ∧ last ≠ some .newline) ∧ Separated (some k) ks

theorem Separated.of_append {last : Option Kind} {ks ks' : List Kind}
    (h : Separated last (ks ++ ks')) : Separated last ks := by
  induction ks generalizing last with
  | nil => trivial
  | cons k ks ih => exact ⟨h.1, ih h.2⟩

/-- Whether a row can stand in a line: it may follow anything, and what may follow a token
    other than a newline may follow the row. -/
def IsLine (ks : List Kind) : Prop :=
  ∀ last rest, (∀ k, k ≠ .newline → Separated (some k) rest) → Separated last (ks ++ rest)

/-- Whether a row consists of whole lines: it may follow anything, and what may follow a
    newline may follow the row. -/
def IsBlock (ks : List Kind) : Prop :=
  ∀ last rest, Separated (some .newline) rest → Separated last (ks ++ rest)

namespace IsLine

variable {k : Kind} {u v : List Kind}

theorem single (hk : k ≠ .newline) : IsLine [k] := by
  intro last rest hrest
  exact ⟨fun h => absurd h hk, hrest k hk⟩

theorem append (hu : IsLine u) (hv : IsLine v) : IsLine (u ++ v) := by
  intro last rest hrest
  rw [List.append_assoc]
  exact hu last _ fun k _ => hv (some k) rest hrest

theorem cons (hk : k ≠ .newline) (hv : IsLine v) : IsLine (k :: v) :=
  (single hk).append hv

/-- A token of a kind that is known. -/
theorem token {t : Token} (ht : t.kind = k) (hk : k ≠ .newline := by decide) :
    IsLine [t.kind] :=
  single (ht ▸ hk)

/-- A token of a kind that is known, and more of its line. -/
theorem token_cons {t : Token} (ht : t.kind = k) (hv : IsLine v)
    (hk : k ≠ .newline := by decide) : IsLine (t.kind :: v) :=
  cons (ht ▸ hk) hv

/-- A row of tokens other than newlines can stand in a line. -/
theorem of_forall (hne : u ≠ []) (hu : ∀ k ∈ u, k ≠ .newline) : IsLine u := by
  induction u with
  | nil => exact absurd rfl hne
  | cons k u ih =>
    obtain ⟨hk, hrest⟩ := List.forall_mem_cons.mp hu
    cases u with
    | nil => exact single hk
    | cons k' u => exact cons hk (ih (List.cons_ne_nil k' u) hrest)

/-- A line, its end and a row in the next line. -/
theorem newline (hu : IsLine u) (hv : IsLine v) : IsLine (u ++ .newline :: v) := by
  intro last rest hrest
  rw [List.append_assoc]
  refine hu last _ fun k hk => ⟨fun _ => ⟨by simp, by simpa using hk⟩, ?_⟩
  exact hv (some .newline) rest hrest

end IsLine

namespace IsBlock

variable {u v : List Kind}

/-- A line and its end. -/
theorem one (hu : IsLine u) : IsBlock (u ++ [.newline]) := by
  intro last rest hrest
  rw [List.append_assoc]
  exact hu last _ fun k hk => ⟨fun _ => ⟨by simp, by simpa using hk⟩, hrest⟩

/-- A line, its end and more lines. -/
theorem more (hu : IsLine u) (hv : IsBlock v) : IsBlock (u ++ .newline :: v) := by
  intro last rest hrest
  rw [List.append_assoc]
  refine hu last _ fun k hk => ⟨fun _ => ⟨by simp, by simpa using hk⟩, ?_⟩
  exact hv (some .newline) rest hrest

/-- Whole lines and a row in the next line. -/
theorem append_line (hu : IsBlock u) (hv : IsLine v) : IsLine (u ++ v) := by
  intro last rest hrest
  rw [List.append_assoc]
  exact hu last _ (hv (some .newline) rest hrest)

end IsBlock

/-! ## Programs -/

private theorem ne_newline_of_inExpression {k : Kind} (h : k.inExpression = true) :
    k ≠ .newline := by
  rintro rfl
  exact nomatch h

/-- An expression stands in a line. -/
theorem Reads.isLine {src : Source} {phrase : Phrase} {w : List Token}
    (h : Reads src phrase w) (hp : phrase.isTail = false) : IsLine (w.map Token.kind) := by
  have hne : w.map Token.kind ≠ [] := by simpa using h.ne_nil hp
  refine IsLine.of_forall hne fun k hk => ?_
  obtain ⟨t, ht, rfl⟩ := List.mem_map.mp hk
  exact ne_newline_of_inExpression (h.inExpression t ht)

private theorem isLine_of_comparison {src : Source} {test : Comparison Node} {w : List Token}
    (h : ReadsComparison src test w) : IsLine (w.map Token.kind) := by
  cases h with
  | @mk _ _ t op u v hleft hop hright =>
    have hkind : op.kind ≠ .newline := by
      intro hk
      rw [hk] at hop
      exact nomatch hop
    have hsplit : t :: (u ++ op :: v) = (t :: u) ++ op :: v := rfl
    rw [hsplit, List.map_append]
    exact (hleft.isLine rfl).append (.cons hkind (hright.isLine rfl))

private theorem isLine_of_parameters {params : List String} {w : List Token}
    (h : ReadsParameters params w) : IsLine (w.map Token.kind) := by
  induction h with
  | one ht _ => exact .token ht
  | more ht _ hc _ ih => exact .token_cons ht (.token_cons hc ih)

/-- A name and the parameters after it stand in a line. -/
private theorem isLine_of_header {params : List String} {name : Token} {w : List Token}
    (hname : name.kind = .ident) (h : ReadsHeader params w) :
    IsLine ((name :: w).map Token.kind) := by
  have hline : IsLine [name.kind] := .token hname
  cases h with
  | none => exact hline
  | some ho hparams hc =>
    simp only [List.map_cons, List.map_append]
    have hclosing := IsLine.token hc
    exact hline.append (.cons (by rw [ho]; decide)
      ((isLine_of_parameters hparams).append hclosing))

/-- Whether the tokens of a clause are whole lines, or can stand at the end of one. -/
def Clause.Separated (ks : List Kind) : Clause → Prop
  | statement .. => IsLine ks
  | statements .. => IsBlock ks

/-- Statements stand in lines of their own. -/
theorem ReadsClause.separated {src : Source} {clause : Clause} {w : List Token}
    (h : ReadsClause src clause w) : clause.Separated (w.map Token.kind) := by
  induction h with
  | function hkw hname hheader hnl _ hend ih =>
    simp only [List.map_cons, List.map_append, hnl]
    have hclosing := IsLine.token hend
    have hheader' := isLine_of_header hname hheader
    exact .token_cons hkw (hheader'.newline (ih.append_line hclosing))
  | loop hkw htest hnl _ hend ih =>
    simp only [List.map_cons, List.map_append, hnl]
    have hclosing := IsLine.token hend
    have htest' := isLine_of_comparison htest
    have hbody := htest'.newline (ih.append_line hclosing)
    rcases hkw with hkw | hkw
    · exact .token_cons hkw hbody
    · exact .token_cons hkw hbody
  | ifThen hkw htest hnl _ hend ih =>
    simp only [List.map_cons, List.map_append, hnl]
    have hclosing := IsLine.token hend
    have htest' := isLine_of_comparison htest
    exact .token_cons hkw (htest'.newline (ih.append_line hclosing))
  | ifThenElse hkw htest hnl _ helse hnl' _ hend ihthen ihelse =>
    -- from the last line of the statement to its first
    simp only [List.map_cons, List.map_append, hnl, hnl']
    have hclosing := IsLine.token hend
    have hkwElse := IsLine.token helse
    have htest' := isLine_of_comparison htest
    have helse' := hkwElse.newline (ihelse.append_line hclosing)
    exact .token_cons hkw (htest'.newline (ihthen.append_line helse'))
  | assign ht harrow he =>
    exact .token_cons ht (.token_cons harrow (he.isLine rfl))
  | erase ht harrow => exact .token_cons ht (.token harrow)
  | callOutput hcall => exact hcall.isLine rfl
  | output he _ => exact he.isLine rfl
  | one _ hnl ih =>
    simp only [List.map_append, List.map_cons, List.map_nil, hnl]
    exact IsBlock.one ih
  | more _ hnl _ ihu ihv =>
    simp only [List.map_append, List.map_cons, hnl]
    exact IsBlock.more ihu ihv

/-- No program starts with a newline, and no two newlines follow each other in one. -/
theorem ReadsProgram.separated {src : Source} {p : Program} {w : List Token}
    (h : ReadsProgram src p w) : Separated none (w.map Token.kind) := by
  cases h with
  | @mk body kw name newline closing eof w rest hkw hname hnl hbody hend hrest hlength heof =>
    have hheader : IsLine [kw.kind, name.kind] :=
      .token_cons hkw (.token hname)
    have hclosing : IsLine [closing.kind] := .token hend
    have heof' : IsLine [eof.kind] := .token heof
    -- at most one newline stands before the end of the text
    have htail : IsLine (closing.kind :: (rest ++ [eof]).map Token.kind) := by
      match rest, hlength with
      | [], _ => exact hclosing.append heof'
      | [t], _ =>
        have ht : t.kind = .newline := hrest t List.mem_cons_self
        simp only [List.cons_append, List.nil_append, List.map_cons, List.map_nil, ht]
        exact hclosing.newline heof'
    have hline := hheader.newline (IsBlock.append_line hbody.separated htail)
    have hseparated := hline none [] fun _ _ => trivial
    simpa [hnl] using hseparated

end VectorLang
