import VectorLang.Proofs.Printing.Expression
import VectorLang.Proofs.Printing.Spelling
import VectorLang.Proofs.Reading.Transfer

/-!
# Printed statements are read again

Statements and programs that were read from tokens are printed as lexemes that are read as
the same statements and programs.

* `ReadsClause.rereads`    for statements and blocks of statements
* `ReadsProgram.rereads`   for whole programs
-/

namespace VectorLang

theorem relationOf_kind (r : Relation) : relationOf r.kind = r := by
  cases r <;> rfl

theorem relational_kind (r : Relation) : relational.contains r.kind = true := by
  cases r <;> rfl

/-- What is read is not printed as nothing. -/
private theorem print_ne_nil {e : Node} {ls : List Lexeme}
    (h : ReadsLexemes (.expression e) ls) : ∃ l ls', ls = l :: ls' := by
  cases ls with
  | nil => exact absurd rfl (h.ne_nil rfl)
  | cons l ls => exact ⟨l, ls, rfl⟩

private theorem rereads_comparison {src : Source} {test : Comparison Node} {w : List Token}
    (h : ReadsComparison src test w) (hw : ∀ t ∈ w, t.lexeme.Valid) :
    ReadsComparison Source.blank (Node.unlocatedComparison test)
      ((Node.printComparison test).map Lexeme.token) := by
  cases h with
  | @mk left right t op u v hleft hop hright =>
    simp only [List.forall_mem_cons, List.forall_mem_append] at hw
    obtain ⟨ht, hu, _, hv⟩ := hw
    have hleft' : ReadsLexemes (.expression left.unlocated) left.print :=
      hleft.rereads (List.forall_mem_cons.mpr ⟨ht, hu⟩)
    have hright' : ReadsLexemes (.expression right.unlocated) right.print := hright.rereads hv
    simp only [Node.unlocatedComparison, Node.printComparison, List.map_append, List.map_cons]
    generalize relationOf op.kind = r
    obtain ⟨l, ls, hprint⟩ := print_ne_nil hleft'
    rw [hprint] at hleft' ⊢
    have hrelational : relational.contains r.kind.lexeme.token.kind = true := relational_kind r
    have hcomparison := ReadsComparison.mk hleft' hrelational hright'
    rw [Kind.kind_token, relationOf_kind] at hcomparison
    exact hcomparison

private theorem rereads_parameters {params : List String} {w : List Token}
    (h : ReadsParameters params w) :
    ReadsParameters params
      (((params.map Lexeme.ofName).intersperse Kind.comma.lexeme).map Lexeme.token) := by
  induction h with
  | one ht hlocal => exact .one (Lexeme.kind_token_ofName _) hlocal
  | more ht hlocal hc hmore ih =>
    have hname := Lexeme.kind_token_ofName
    -- there is at least one more parameter
    cases hmore with
    | one | more => exact .more (hname _) hlocal (Kind.kind_token .comma) ih

private theorem rereads_header {params : List String} {w : List Token}
    (h : ReadsHeader params w) :
    ReadsHeader params ((Node.printParams params).map Lexeme.token) := by
  cases h with
  | none => exact .none
  | some _ hparams _ =>
    have hr := rereads_parameters hparams
    have hne : params.isEmpty = false := by
      cases hparams <;> rfl
    simp only [Node.printParams, hne, enclosed, Bool.false_eq_true, if_false, if_true,
      List.map_cons, List.map_append]
    exact .some (Kind.kind_token .lparen) hr (Kind.kind_token .rparen)

/-- Whether a clause is read again from what it is printed as. -/
def Clause.Rereads : Clause → Prop
  | statement functions n =>
      ReadsClause Source.blank (.statement functions n.unlocated) (n.print.map Lexeme.token)
  | statements functions ns =>
      ReadsClause Source.blank (.statements functions (Node.unlocatedList ns))
        ((Node.printBody ns).map Lexeme.token)

/-- A block of statements is not empty. -/
private theorem isEmpty_of_statements {src : Source} {functions : Bool} {ns : List Node}
    {w : List Token} (h : ReadsClause src (.statements functions ns) w) :
    ns.isEmpty = false := by
  cases h <;> rfl

/-- Statements that were read from tokens are read again from what they are printed as. -/
theorem ReadsClause.rereads {src : Source} {clause : Clause} {w : List Token}
    (h : ReadsClause src clause w) (hw : ∀ t ∈ w, t.lexeme.Valid) : clause.Rereads := by
  have hkind := Kind.kind_token
  have hname := Lexeme.kind_token_ofName
  induction h with
  | function _ _ hheader _ _ _ ih =>
    simp only [List.forall_mem_cons, List.forall_mem_append] at hw
    obtain ⟨_, _, _, _, hv, _⟩ := hw
    simp only [Clause.Rereads, Node.unlocated, Node.unlocatedDefinition, Node.print,
      Node.printDefinition, List.map_cons, List.map_append]
    exact .function (hkind .kwBegin) (hname _) (rereads_header hheader) (hkind .newline)
      (ih hv) (hkind .kwEnd)
  | @loop _ _ _ kw _ _ _ _ hkw htest _ _ _ ih =>
    simp only [List.forall_mem_cons, List.forall_mem_append] at hw
    obtain ⟨_, hu, _, hv, _⟩ := hw
    have htest' := rereads_comparison htest hu
    simp only [Clause.Rereads, Node.unlocated, Node.print, List.map_cons, List.map_append]
    rcases hkw with hkw | hkw
    · rw [hkw]
      exact .loop (.inl (hkind .kwWhile)) htest' (hkind .newline) (ih hv) (hkind .kwEnd)
    · rw [hkw]
      exact .loop (.inr (hkind .kwUntil)) htest' (hkind .newline) (ih hv) (hkind .kwEnd)
  | ifThen _ htest _ _ _ ih =>
    simp only [List.forall_mem_cons, List.forall_mem_append] at hw
    obtain ⟨_, hu, _, hv, _⟩ := hw
    simp only [Clause.Rereads, Node.unlocated, Node.unlocatedList, Node.print, List.isEmpty_nil,
      if_true, List.nil_append, List.map_cons, List.map_append]
    exact .ifThen (hkind .kwIf) (rereads_comparison htest hu) (hkind .newline) (ih hv)
      (hkind .kwEnd)
  | ifThenElse _ htest _ _ _ _ helse _ ihthen ihelse =>
    simp only [List.forall_mem_cons, List.forall_mem_append] at hw
    obtain ⟨_, hu, _, hv, _, _, hx, _⟩ := hw
    have hsome := isEmpty_of_statements helse
    simp only [Clause.Rereads, Node.unlocated, Node.print, hsome, Bool.false_eq_true, if_false,
      List.cons_append, List.map_cons, List.map_append]
    exact .ifThenElse (hkind .kwIf) (rereads_comparison htest hu) (hkind .newline) (ihthen hv)
      (hkind .kwElse) (hkind .newline) (ihelse hx) (hkind .kwEnd)
  | assign _ _ he =>
    simp only [List.forall_mem_cons] at hw
    obtain ⟨_, _, hrest⟩ := hw
    exact ReadsClause.assign (hname _) (hkind .assign) (he.rereads hrest)
  | erase => exact ReadsClause.erase (hname _) (hkind .assign)
  | @callOutput _ e t w hcall =>
    have hcall' : ReadsLexemes (.call e.unlocated) e.print := hcall.rereads hw
    have hlone : e.isLoneCall = false := by
      obtain ⟨_, _, _, _, _, _, _, rfl⟩ := hcall.call_cases
      rfl
    simp only [Clause.Rereads, Node.unlocated, Node.print, hlone, enclosed, Bool.false_eq_true,
      if_false]
    cases hprint : e.print with
    | nil => exact absurd (congrArg (List.map Lexeme.token) hprint) (hcall'.ne_nil rfl)
    | cons l ls =>
      rw [hprint] at hcall'
      exact .callOutput hcall'
  | @output _ e _ _ he _ =>
    have he' : ReadsLexemes (.expression e.unlocated) e.print := he.rereads hw
    simp only [Clause.Rereads, Node.unlocated, Node.print]
    cases hlone : e.isLoneCall with
    | true =>
      -- the parenthesis keeps the call from being read as the statement
      have henclosed := (factor_of_enclosed he').expression_of_factor
      refine .output henclosed fun hident => ?_
      cases hident
    | false =>
      obtain ⟨l, ls, hprint⟩ := print_ne_nil he'
      rw [hprint] at he' ⊢
      exact .output he' fun _ => e.isLoneCall_unlocated.trans hlone
  | one _ _ ih =>
    have hstatement := ih (List.forall_mem_append.mp hw).1
    simp only [Clause.Rereads, Node.unlocatedList, Node.printBody, List.map_append]
    exact .one hstatement (hkind .newline)
  | more _ _ _ ihu ihv =>
    simp only [List.forall_mem_append, List.forall_mem_cons] at hw
    obtain ⟨hu, _, hv⟩ := hw
    simp only [Clause.Rereads, Node.unlocatedList, Node.printBody, List.map_append, List.map_cons]
    exact .more (ihu hu) (hkind .newline) (ihv hv)

/-- A program that was read from tokens is read again from what it is printed as, up to the
    end of the text. -/
theorem ReadsProgram.rereads {src : Source} {p : Program} {w : List Token}
    (h : ReadsProgram src p w) (hw : ∀ t ∈ w.dropLast, t.lexeme.Valid) {eof : Token}
    (heof : eof.kind = .eof) :
    ReadsProgram Source.blank p.unlocated (p.print.map Lexeme.token ++ [eof]) := by
  have hkind := Kind.kind_token
  cases h with
  | @mk body kw name newline closing last w rest _ _ _ hbody _ _ _ _ =>
    rw [dropLast_program] at hw
    simp only [List.forall_mem_cons, List.forall_mem_append] at hw
    obtain ⟨_, _, _, hbodyValid, _⟩ := hw
    have hbody' := hbody.rereads hbodyValid
    simp only [Program.unlocated, Node.unlocatedDefinition, Program.print, List.map_cons,
      List.map_append, List.cons_append, List.append_assoc]
    -- nothing is printed between the last key word and the end of the text
    have hnone : ∀ t ∈ ([] : List Token), t.kind = .newline := List.forall_mem_nil _
    have hprogram := ReadsProgram.mk (hkind .kwBegin) (Lexeme.kind_token_ofName name.text)
      (hkind .newline) hbody' (hkind .kwEnd) hnone (Nat.zero_le 1) heof
    exact hprogram

end VectorLang
