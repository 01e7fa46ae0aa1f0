import Mathlib
import VectorLang.Proofs.Machine.Rename
import VectorLang.Proofs.Printing.RoundTrip
import VectorLang.Proofs.Reading.Layout

/-!
# Layout

Where the tokens of a text stand does not matter: not to the parser, nor to the check of the
names, nor to the run.  Two texts with the same lexemes fail at the same token, or they are
programs that differ in their locations alone, and such programs have the same scopes, print
the same lines and end the same way.

* `analyze_alike`        the check of the names
* `run_alike`            the run
* `layout_independent`   both, and the parser before them
* `parse_longNumeral`    the one error of the parser that names no token
-/

namespace VectorLang

/-! ## Programs that differ in their locations -/

/-- A table of scopes without its locations. -/
def ScopeTable.unlocated (table : ScopeTable) : ScopeTable :=
  table.rename .unlocate

/-- A run that has ended, without the locations of its steps, its frames and its fault.  What
    it printed and the cause of the fault are left as they are. -/
def Outcome.unlocated (o : Outcome) : Outcome :=
  o.rename .unlocate

theorem SemanticError.rename_unlocate (e : SemanticError) : e.rename .unlocate = e := by
  cases e <;> rfl

theorem FaultCause.rename_unlocate (cause : FaultCause) : cause.rename .unlocate = cause := by
  cases cause <;> rfl

/-- The cause of a fault says nothing about its place. -/
theorem Outcome.cause_unlocated (o : Outcome) :
    o.unlocated.fault?.map Fault.cause = o.fault?.map Fault.cause := by
  obtain ⟨ending, m⟩ := o
  cases ending with
  | failed f => exact congrArg some f.cause.rename_unlocate
  | finished => rfl
  | outOfFuel => rfl

/-- Programs that are equal up to their locations have the same scopes, or the same error. -/
theorem analyze_alike {p₁ p₂ : Program} (h : p₁.unlocated = p₂.unlocated) :
    (∃ e, analyze p₁ = .error e ∧ analyze p₂ = .error e) ∨
      ∃ t₁ t₂, analyze p₁ = .ok t₁ ∧ analyze p₂ = .ok t₂ ∧ t₁.unlocated = t₂.unlocated := by
  have h₁ := analyze_rename Renaming.faithful_unlocate p₁
  have h₂ := analyze_rename Renaming.faithful_unlocate p₂
  rw [Program.rename_unlocate, h, ← Program.rename_unlocate, h₂] at h₁
  cases ha₁ : analyze p₁ with
  | ok t₁ =>
    cases ha₂ : analyze p₂ with
    | ok t₂ =>
      rw [ha₁, ha₂] at h₁
      exact Or.inr ⟨t₁, t₂, rfl, rfl, (Except.ok.inj h₁).symm⟩
    | error e₂ =>
      rw [ha₁, ha₂] at h₁
      cases h₁
  | error e₁ =>
    cases ha₂ : analyze p₂ with
    | ok t₂ =>
      rw [ha₁, ha₂] at h₁
      cases h₁
    | error e₂ =>
      rw [ha₁, ha₂] at h₁
      have heq := Except.error.inj h₁
      rw [SemanticError.rename_unlocate, SemanticError.rename_unlocate] at heq
      exact Or.inl ⟨e₁, rfl, by rw [heq]⟩

/-- Programs with the same scopes run in the same way. -/
theorem run_alike {t₁ t₂ : ScopeTable} (h : t₁.unlocated = t₂.unlocated) (verbose : Bool)
    (fuel : Nat) : (run ⟨t₁, verbose⟩ fuel).unlocated = (run ⟨t₂, verbose⟩ fuel).unlocated := by
  have hctx : Context.rename .unlocate ⟨t₁, verbose⟩ = Context.rename .unlocate ⟨t₂, verbose⟩ :=
    congrArg (Context.mk · verbose) h
  have h₁ := run_rename Renaming.faithful_unlocate ⟨t₁, verbose⟩ fuel
  have h₂ := run_rename Renaming.faithful_unlocate ⟨t₂, verbose⟩ fuel
  exact h₁.symm.trans ((congrArg (run · fuel) hctx).trans h₂)

/-! ## Texts -/

/-- Two texts with the same lexemes either are both no programs, because of tokens of one
    index or of numerals that are equally long, or they are programs that are equal up to their
    locations.  Then their names are in order, with the same scopes, or the same is wrong with
    them; and the runs print the same lines and end in the same way, with whatever fuel. -/
theorem layout_independent {text₁ text₂ : String} {ts us : List Token}
    (h₁ : tokenize text₁ = .ok ts) (h₂ : tokenize text₂ = .ok us)
    (hlexemes : ts.map Token.lexeme = us.map Token.lexeme) (file₁ file₂ : String) :
    (∃ e₁ e₂, parse text₁ file₁ = .error e₁ ∧ parse text₂ file₂ = .error e₂ ∧
        e₁.Alike ts us e₂) ∨
      ∃ p₁ p₂, parse text₁ file₁ = .ok p₁ ∧ parse text₂ file₂ = .ok p₂ ∧
        p₁.unlocated = p₂.unlocated ∧
        ((∃ e, analyze p₁ = .error e ∧ analyze p₂ = .error e) ∨
          ∃ t₁ t₂, analyze p₁ = .ok t₁ ∧ analyze p₂ = .ok t₂ ∧ t₁.unlocated = t₂.unlocated ∧
            ∀ verbose fuel,
              (run ⟨t₁, verbose⟩ fuel).unlocated = (run ⟨t₂, verbose⟩ fuel).unlocated ∧
              (run ⟨t₁, verbose⟩ fuel).machine.output = (run ⟨t₂, verbose⟩ fuel).machine.output ∧
              (run ⟨t₁, verbose⟩ fuel).fault?.map Fault.cause =
                (run ⟨t₂, verbose⟩ fuel).fault?.map Fault.cause) := by
  rcases parse_alike h₁ h₂ hlexemes file₁ file₂ with ⟨p₁, p₂, hp₁, hp₂, hp⟩ | herror
  · refine Or.inr ⟨p₁, p₂, hp₁, hp₂, hp, ?_⟩
    rcases analyze_alike hp with herror | ⟨t₁, t₂, ht₁, ht₂, ht⟩
    · exact Or.inl herror
    · refine Or.inr ⟨t₁, t₂, ht₁, ht₂, ht, fun verbose fuel => ?_⟩
      have hrun := run_alike ht verbose fuel
      refine ⟨hrun, congrArg (fun o => o.machine.output) hrun, ?_⟩
      rw [← Outcome.cause_unlocated, hrun, Outcome.cause_unlocated]
  · exact Or.inl herror

/-- A comment, blanks and newlines between the tokens change nothing but locations. -/
theorem layout_independent_comment :
    ∃ p₁ p₂ : Program, parse "BEGIN P\n\"A\"\nEND" "one" = .ok p₁ ∧
      parse "\nBEGIN /* P */ P \n\n  \"A\"\nEND " "two" = .ok p₂ ∧ p₁ ≠ p₂ ∧
      p₁.unlocated = p₂.unlocated := by
  have h₁ : tokenize "BEGIN P\n\"A\"\nEND" = .ok [⟨.kwBegin, "BEGIN", 1, 1⟩, ⟨.ident, "P", 1, 7⟩,
    ⟨.newline, "\n", 1, 8⟩, ⟨.string, "A", 2, 1⟩, ⟨.newline, "\n", 2, 4⟩,
    ⟨.kwEnd, "END", 3, 1⟩, ⟨.eof, "", 3, 4⟩] := by cbv
  have h₂ : tokenize "\nBEGIN /* P */ P \n\n  \"A\"\nEND " = .ok [⟨.kwBegin, "BEGIN", 2, 1⟩,
    ⟨.ident, "P", 2, 15⟩, ⟨.newline, "\n", 2, 17⟩, ⟨.string, "A", 4, 3⟩, ⟨.newline, "\n", 4, 6⟩,
    ⟨.kwEnd, "END", 5, 1⟩, ⟨.eof, "", 5, 5⟩] := by cbv
  -- the two programs start at different lines
  have hline₁ : (parse "BEGIN P\n\"A\"\nEND" "one").toOption.map (·.location.line) = some 1 := by
    cbv
  have hline₂ : (parse "\nBEGIN /* P */ P \n\n  \"A\"\nEND " "two").toOption.map
      (·.location.line) = some 2 := by cbv
  rcases layout_independent h₁ h₂ rfl "one" "two" with
    ⟨e₁, e₂, he₁, -, -⟩ | ⟨p₁, p₂, hp₁, hp₂, hp, -⟩
  · rw [he₁] at hline₁
    cases hline₁
  · refine ⟨p₁, p₂, hp₁, hp₂, ?_, hp⟩
    rintro rfl
    rw [hp₁] at hline₁
    rw [hp₂] at hline₂
    cases hline₁.symm.trans hline₂

/-! ## Numerals that are too long -/

/-- The token that an error names, if it names one. -/
def ParseError.token? : ParseError → Option Token
  | unexpected _ t | globalParameter t => some t
  | _ => none

namespace Parser

variable {src : Source} {n digits : Nat} {l m : Lookahead}

/-- An expression that starts with a numeral that is too long. -/
theorem expression_of_longNumeral (hk : l.current.kind = .int)
    (hread : Numeral.read l.current.text.toList = .error digits) (hm : advance l = .ok () m) :
    expression src (n + 5) l = .error (.numeralTooLong digits) m := by
  have helement : element src (n + 1) l = .error (.numeralTooLong digits) m := by
    rw [element, current_bind, hk]
    refine (bind_of_ok hm).trans ?_
    rw [hread]
    rfl
  have hvector : vector src (n + 2) l = .error (.numeralTooLong digits) m := by
    rw [vector, current_bind]
    exact bind_of_error helement
  have hfactor : factor src (n + 3) l = .error (.numeralTooLong digits) m := by
    rw [factor, current_bind, hk]
    exact hvector
  have hterm : term src (n + 4) l = .error (.numeralTooLong digits) m := by
    rw [term]
    exact bind_of_error hfactor
  rw [expression]
  exact bind_of_error hterm

/-- Statements that start with a numeral that is too long. -/
theorem statements_of_longNumeral {functions : Bool} (hk : l.current.kind = .int)
    (hread : Numeral.read l.current.text.toList = .error digits) (hm : advance l = .ok () m) :
    statements src functions (n + 7) l = .error (.numeralTooLong digits) m := by
  have houtput : output src (n + 5) l = .error (.numeralTooLong digits) m := by
    rw [output, current_bind]
    exact bind_of_error (expression_of_longNumeral hk hread hm)
  have hstatement : statement src functions (n + 6) l = .error (.numeralTooLong digits) m := by
    rw [statement, currentKind_bind, hk]
    exact houtput
  rw [statements]
  exact bind_of_error hstatement

/-- A token of the right kind is used up if another one follows it. -/
theorem consume_bind_of_rest {α : Type} {f : Token → Parser α} {kind : Kind} {asked : Nat}
    {t t' : Token} {rest : List Token} {fault : Option LexError} (hk : t.kind = kind) :
    (consume kind >>= f) ⟨asked, t, t' :: rest, fault⟩ = f t ⟨asked + 1, t', rest, fault⟩ :=
  bind_of_ok (consume_eq_ok.mpr ⟨rfl, hk, rfl⟩)

end Parser

/-- The lexemes of a program whose first statement starts with a numeral. -/
def numeralFirst (name : String) (numeral : List Char) (ls : List Lexeme) : List Lexeme :=
  Kind.kwBegin.lexeme :: Lexeme.ofName name :: Kind.newline.lexeme ::
    ⟨.int, String.ofList numeral⟩ :: ls

/-- A text is no program if its first statement starts with a numeral that is too long, and
    the error names no token. -/
theorem parse_of_longNumeral {text : String} {ts : List Token} {name : String}
    {numeral : List Char} {l : Lexeme} {ls : List Lexeme} {digits : Nat} (file : String)
    (htext : tokenize text = .ok ts)
    (hts : ts.map Token.lexeme = numeralFirst name numeral (l :: ls))
    (hread : Numeral.read numeral = .error digits) :
    parse text file = .error (.numeralTooLong digits) := by
  obtain ⟨keyword, ts, rfl, hkeyword, hts⟩ := List.map_eq_cons_iff.mp hts
  obtain ⟨name', ts, rfl, hname, hts⟩ := List.map_eq_cons_iff.mp hts
  obtain ⟨newline, ts, rfl, hnewline, hts⟩ := List.map_eq_cons_iff.mp hts
  obtain ⟨t, ts, rfl, ht, hts⟩ := List.map_eq_cons_iff.mp hts
  obtain ⟨t', rest, rfl, -, -⟩ := List.map_eq_cons_iff.mp hts
  have hread' : Numeral.read t.text.toList = .error digits := by
    have htext : t.text = String.ofList numeral := congrArg Lexeme.text ht
    rw [htext, String.toList_ofList, hread]
  have hkeyword : keyword.kind = .kwBegin := congrArg Lexeme.kind hkeyword
  have hname : name'.kind = .ident := congrArg Lexeme.kind hname
  have hnewline : newline.kind = .newline := congrArg Lexeme.kind hnewline
  -- three tokens are used up, and the statements start at the numeral
  generalize hsrc : Source.ofText file text = src
  have hbody (n : Nat) : Parser.statements src true (n + 7) ⟨4, t, t' :: rest, none⟩ =
      .error (.numeralTooLong digits) ⟨5, t', rest, none⟩ :=
    Parser.statements_of_longNumeral (congrArg Lexeme.kind ht) hread' rfl
  have hprogram (n : Nat) : Parser.program src (n + 7)
      ⟨1, keyword, name' :: newline :: t :: t' :: rest, none⟩ =
      .error (.numeralTooLong digits) ⟨5, t', rest, none⟩ := by
    rw [Parser.program, Parser.consume_bind_of_rest hkeyword, Parser.consume_bind_of_rest hname,
      Parser.consume_bind_of_rest hnewline]
    exact bind_of_error (hbody n)
  rw [parse, tokenize_eq_ok_iff.mp htext, hsrc]
  simp only [parseStream, Lookahead.ofStream]
  rw [Parser.fuelFor, hprogram]

/-- The text of a program whose only statement is a numeral. -/
def numeralText (numeral : List Char) : String :=
  String.ofList ("BEGIN P\n".toList ++ (numeral ++ "\nEND".toList))

/-- Every numeral can be tokenized, but one that is too long cannot be read. -/
theorem parse_numeralText {numeral : List Char} {digits : Nat} (h : isNumeral numeral = true)
    (hread : Numeral.read numeral = .error digits) (file : String) :
    (∃ ts, tokenize (numeralText numeral) = .ok ts) ∧
      parse (numeralText numeral) file = .error (.numeralTooLong digits) := by
  have hlayout : layout (numeralFirst "P" numeral [Kind.newline.lexeme, Kind.kwEnd.lexeme]) =
      "BEGIN P\n".toList ++ (numeral ++ "\nEND".toList) := by
    simp [numeralFirst, layout, separator, Lexeme.spelling, Kind.lexeme, Lexeme.ofName,
      Kind.spelling]
  have hspelt : Spelt (numeralFirst "P" numeral [Kind.newline.lexeme, Kind.kwEnd.lexeme]) := by
    have hnumeral : Lexeme.Valid ⟨.int, String.ofList numeral⟩ := by
      simpa only [Lexeme.Valid, String.toList_ofList] using h
    simp only [numeralFirst, spelt_cons, spelt_nil, and_true]
    exact ⟨rfl, ⟨rfl, rfl⟩, rfl, hnumeral, rfl, rfl⟩
  obtain ⟨ts, eof, htext, hts, -⟩ := tokenize_layout hspelt
    (by simp [numeralFirst, Separated, Kind.lexeme, Lexeme.ofName])
  rw [hlayout] at htext
  have hlexemes : (ts ++ [eof]).map Token.lexeme =
      numeralFirst "P" numeral (Kind.newline.lexeme :: [Kind.kwEnd.lexeme, eof.lexeme]) := by
    rw [List.map_append, hts]
    rfl
  exact ⟨⟨_, htext⟩, parse_of_longNumeral file htext hlexemes hread⟩

private theorem isNumeral_replicate (n : Nat) :
    isNumeral (List.replicate (n + 1) '1') = true := by
  simp [isNumeral, List.replicate_succ, Numeral.digits, Char.isDigit]

private theorem read_replicate {n : Nat} (h : Numeral.maxDigits ≤ n) :
    Numeral.read (List.replicate (n + 1) '1') = .error (n + 1) := by
  have hdigits : Numeral.digits (List.replicate (n + 1) '1') = List.replicate (n + 1) '1' := rfl
  rw [Numeral.read, hdigits, List.length_replicate, if_neg (Nat.not_le.mpr (Nat.lt_succ_of_le h))]

/-- A text with a numeral of 4301 digits is tokenized, but is no program, and the error names
    no token. -/
theorem parse_longNumeral :
    (∃ ts, tokenize (numeralText (List.replicate 4301 '1')) = .ok ts) ∧
      ∃ e, parse (numeralText (List.replicate 4301 '1')) "<string>" = .error e ∧
        e = .numeralTooLong 4301 ∧ e.token? = none := by
  obtain ⟨htokens, hparse⟩ := parse_numeralText (isNumeral_replicate 4300)
    (read_replicate (Nat.le_refl _)) "<string>"
  exact ⟨htokens, _, hparse, rfl, rfl⟩

end VectorLang
