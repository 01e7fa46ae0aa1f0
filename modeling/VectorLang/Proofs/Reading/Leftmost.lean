import Mathlib
import VectorLang.Proofs.Reading.Completion
import VectorLang.Proofs.Reading.Viable

/-!
# The leftmost fault

The parser reports the first token that no program goes on with.  The tokens before it are the
first ones of some program, and with it there is none, whatever comes after it.

Where the tokens end because the next one cannot be read, this is what is reported, if the tokens
up to there begin a program.  If they do not, not even by their kinds, one of them is reported.

* `unexpected_leftmost`       the tokens before the one that is reported begin a program, and with
  it they do not
* `lexical_of_begins`         the place where no token can be read
* `unexpected_of_not_begins`  the tokens before such a place
* `leftmost_fault`            all of these
-/

namespace VectorLang

open Ebnf Grammar

/-! ## Errors of a text -/

/-- A stream without tokens has a fault. -/
private theorem ofStream_eq_error {s : TokenStream} {e : LexError}
    (h : Lookahead.ofStream s = .error e) : s = ⟨[], some e⟩ := by
  obtain ⟨tokens, fault⟩ := s
  cases tokens with
  | cons t ts => cases h
  | nil =>
    cases fault with
    | none => cases h
    | some e' =>
      cases h
      rfl

/-- Either the first token of a text cannot be read, or the error tells something about its
    tokens. -/
theorem parse_error_cases {text file : String} {e : ParseError}
    (h : parse text file = .error e) :
    (∃ e', TokenStream.ofText text = ⟨[], some e'⟩ ∧ e = .lexical e') ∨
      ∃ l m n, l.tokens = (TokenStream.ofText text).tokens ∧
        l.fault = (TokenStream.ofText text).fault ∧
        ∀ src d,
          Parser.Blames .body (symbol .program) False (Parser.program src (d + n)) l e m := by
  have hterm := TokenStream.terminated_ofText text
  unfold parse parseStream at h
  split at h
  · rename_i e' hstream
    cases h
    exact Or.inl ⟨e', ofStream_eq_error hstream, rfl⟩
  · rename_i l hl
    obtain ⟨htokens, hfault, hclosed⟩ := lookahead_of_terminated hterm hl
    split at h
    · cases h
    · rename_i m hprogram
      cases h
      refine Or.inr ⟨l, m, Parser.fuelFor (TokenStream.ofText text).tokens.length, htokens, hfault,
        fun src d => Parser.blames_program hclosed ?_ hprogram⟩
      simp only [Lookahead.size, htokens, Parser.fuelFor]
      omega

/-- The bound on nesting is never reached. -/
theorem parse_ne_outOfFuel (text file : String) : parse text file ≠ .error .outOfFuel := by
  intro h
  rcases parse_error_cases h with ⟨e, -, he⟩ | ⟨l, m, n, -, -, hblames⟩
  · cases he
  · cases hblames (Source.ofText file text) 0

/-! ## Tokens that are not gone on with -/

/-- What the parser rejects, with any source and however many levels of nesting, begins no
    program. -/
theorem not_prefix_of_rejects {w ts : List Token} {n : Nat}
    (h : ∀ src d, Parser.Rejects (Parser.program src (d + n)) w) (hts : Accepted ts) :
    ¬ w.map Token.kind <+: ts.map Token.kind := by
  obtain ⟨text, file, p, htext, hp⟩ := hts
  obtain ⟨ts', htext', hreads⟩ := parse_eq_ok_iff.mp hp
  obtain rfl : ts = ts' := Except.ok.inj (htext.symm.trans htext')
  obtain ⟨t, rest, rfl, hclosed⟩ := closed_of_tokenize htext
  intro hbegins
  -- with enough levels for its own tokens, the parser reads the program
  obtain ⟨l', hok⟩ := Parser.program_of_reads (n := 8 * (t :: rest).length + n)
    (l := ⟨1, t, rest, none⟩) hreads rfl rfl (Nat.le_add_right _ _)
  exact h _ _ _ p l' hclosed hbegins hok

theorem Accepted.admissible {ts : List Token} (h : Accepted ts) : Admissible ts := by
  obtain ⟨text, file, p, htext, hp⟩ := h
  obtain ⟨ts', htext', hreads⟩ := parse_eq_ok_iff.mp hp
  obtain rfl : ts = ts' := Except.ok.inj (htext.symm.trans htext')
  exact hreads.admissible

/-- Tokens with the lexemes of the first ones of a program are in order. -/
theorem Accepted.clean_of_begins {w ts : List Token} (h : Accepted ts)
    (hbegins : w.map Token.lexeme <+: ts.map Token.lexeme) : Clean .body w := by
  obtain ⟨rest, hrest⟩ := hbegins
  obtain ⟨u, v, rfl, hu, -⟩ := List.append_eq_map_iff.mp hrest
  exact (clean_append.mp (admissible_iff_clean.mp h.admissible)).1.of_lexemes hu

/-! ## The token that is reported -/

/-- The end of the text is not among tokens that others come after. -/
private theorem ne_eof_of_append {s : TokenStream} (h : s.Terminated) {w rest : List Token}
    (hs : s.tokens = w ++ rest) (hrest : s.fault = none → rest ≠ []) :
    ∀ t ∈ w, t.kind ≠ .eof := by
  intro t ht heof
  obtain ⟨u, v, rfl⟩ := List.append_of_mem ht
  obtain ⟨hfault, hnil⟩ := h.eq_of_append heof (by rw [hs, List.append_assoc]; rfl)
  exact hrest hfault (List.append_eq_nil_iff.mp hnil).2

/-- The tokens before the one that is reported begin a program, and with it they do not. -/
theorem unexpected_leftmost {text file : String} {expected : List Kind} {t : Token}
    (h : parse text file = .error (.unexpected expected t)) :
    ∃ before after, (TokenStream.ofText text).tokens = before ++ t :: after ∧
      (∃ ts, Accepted ts ∧ before <+: ts) ∧
      ∀ ts, Accepted ts → ¬ (before ++ [t]).map Token.kind <+: ts.map Token.kind := by
  rcases parse_error_cases h with ⟨e, -, he⟩ | ⟨l, m, n, htokens, -, hblames⟩
  · cases he
  · cases hblames (Source.ofText file text) 0 with
    | @unexpected _ w v _ hw _ hclean hder _ =>
      have hsplit := htokens.symm.trans hw.tokens
      have hne := ne_eof_of_append (TokenStream.terminated_ofText text) hsplit fun _ =>
        List.cons_ne_nil _ _
      obtain ⟨ts, hts, hbegins, -⟩ := accepted_of_derives hsplit hne hclean hder
      refine ⟨w, m.rest, hsplit, ⟨ts, hts, hbegins⟩, fun ts => ?_⟩
      exact not_prefix_of_rejects fun src d => (hblames src d).rejects hw

/-! ## Tokens that cannot be read -/

/-- A text with a place where no token can be read is no program. -/
private theorem exists_error_of_fault {text : String} {e : LexError} (file : String)
    (hfault : (TokenStream.ofText text).fault = some e) : ∃ err, parse text file = .error err := by
  cases hp : parse text file with
  | error err => exact ⟨err, rfl⟩
  | ok p =>
    obtain ⟨ts, htext, -⟩ := parse_eq_ok_iff.mp hp
    rw [tokenize_eq_ok_iff.mp htext] at hfault
    cases hfault

/-- Where the tokens before the first place where none can be read begin a program, that place is
    reported. -/
theorem lexical_of_begins {text file : String} {e : LexError} {ts : List Token}
    (hfault : (TokenStream.ofText text).fault = some e) (hts : Accepted ts)
    (hbegins : (TokenStream.ofText text).tokens.map Token.lexeme <+: ts.map Token.lexeme) :
    parse text file = .error (.lexical e) := by
  obtain ⟨err, herr⟩ := exists_error_of_fault file hfault
  have hclean := hts.clean_of_begins hbegins
  have hkinds : (TokenStream.ofText text).tokens.map Token.kind <+: ts.map Token.kind := by
    have h := hbegins.map Lexeme.kind
    rwa [List.map_map, List.map_map] at h
  rcases parse_error_cases herr with ⟨e', hstream, rfl⟩ | ⟨l, m, n, htokens, hl, hblames⟩
  · rw [hstream] at hfault
    rw [herr, Option.some.inj hfault]
  · rw [← htokens] at hclean hkinds
    cases hblames (Source.ofText file text) 0 with
    | unexpected hw =>
      have hnot := not_prefix_of_rejects (fun src d => (hblames src d).rejects hw) hts
      exact absurd ((hw.begins.map Token.kind).trans hkinds) hnot
    | lexical he =>
      rw [hl, hfault] at he
      rw [herr, Option.some.inj he]
    | numeralTooLong ht hint hlong =>
      exact absurd (hclean.numerals _ ht hint) (Nat.not_le.mpr hlong)
    | globalParameter ht hdotted =>
      rw [hclean.parameters _ ht] at hdotted
      cases hdotted

/-- Where they do not, not even by their kinds, and no numeral is too long, one of them is
    reported: it does not fit, or it is a parameter with a dotted name. -/
theorem unexpected_of_not_begins {text file : String} {e : LexError}
    (hfault : (TokenStream.ofText text).fault = some e)
    (hnot : ∀ ts, Accepted ts →
      ¬ (TokenStream.ofText text).tokens.map Token.kind <+: ts.map Token.kind)
    (hnumerals : ∀ t ∈ (TokenStream.ofText text).tokens, t.kind = .int →
      (Numeral.digits t.text.toList).length ≤ Numeral.maxDigits) :
    ∃ t ∈ (TokenStream.ofText text).tokens,
      (∃ expected, parse text file = .error (.unexpected expected t)) ∨
        parse text file = .error (.globalParameter t) ∧
          t ∈ formalParameters (TokenStream.ofText text).tokens ∧ isGlobalName t.text = true := by
  -- rows that the grammar derives are those of the kinds of programs
  have hderives (v : List Kind) : ¬ Derives restricted (.symbol .program)
      ((TokenStream.ofText text).tokens.map Token.kind ++ v) := by
    intro hder
    have hall : (TokenStream.ofText text).tokens = [] ++ (TokenStream.ofText text).tokens := rfl
    obtain ⟨ts, hts, -, hkinds⟩ := accepted_of_derives hall (by simp) (clean_nil _) hder
    exact hnot ts hts ⟨v, hkinds.symm⟩
  obtain ⟨err, herr⟩ := exists_error_of_fault file hfault
  rcases parse_error_cases herr with ⟨e', hstream, -⟩ | ⟨l, m, n, htokens, -, hblames⟩
  · obtain ⟨v, hv⟩ := productive_symbol .program
    rw [hstream] at hderives
    exact absurd hv (hderives v)
  · rw [← htokens] at hderives hnumerals ⊢
    cases hblames (Source.ofText file text) 0 with
    | unexpected hw =>
      refine ⟨m.current, ?_, Or.inl ⟨_, herr⟩⟩
      rw [hw.tokens]
      exact List.mem_append_right _ List.mem_cons_self
    | lexical _ hder => exact absurd hder (hderives _)
    | numeralTooLong ht hint hlong =>
      exact absurd (hnumerals _ ht hint) (Nat.not_le.mpr hlong)
    | globalParameter ht hdotted =>
      refine ⟨_, (Spot.mem_parameters ht).1, Or.inr ⟨herr, ?_, hdotted⟩⟩
      rw [formalParameters_eq]
      exact ht

/-- Where a token is reported, the tokens before it are the first ones of some program, and no
    program starts with tokens of these kinds and of its kind.  Where the tokens end because the
    next one cannot be read, this is reported if programs start with them.  If none does, not even
    with tokens of these kinds, and no numeral is too long, one of the tokens is reported, as one
    that does not fit unless it is a parameter with a dotted name. -/
theorem leftmost_fault (text file : String) :
    (∀ expected t, parse text file = .error (.unexpected expected t) →
      ∃ before after, (TokenStream.ofText text).tokens = before ++ t :: after ∧
        (∃ ts, Accepted ts ∧ before <+: ts) ∧
        ∀ ts, Accepted ts → ¬ (before ++ [t]).map Token.kind <+: ts.map Token.kind) ∧
    ∀ e, (TokenStream.ofText text).fault = some e →
      (∀ ts, Accepted ts →
        (TokenStream.ofText text).tokens.map Token.lexeme <+: ts.map Token.lexeme →
        parse text file = .error (.lexical e)) ∧
      ((∀ ts, Accepted ts →
          ¬ (TokenStream.ofText text).tokens.map Token.kind <+: ts.map Token.kind) →
        (∀ t ∈ (TokenStream.ofText text).tokens, t.kind = .int →
          (Numeral.digits t.text.toList).length ≤ Numeral.maxDigits) →
        ∃ t ∈ (TokenStream.ofText text).tokens,
          (∃ expected, parse text file = .error (.unexpected expected t)) ∨
            parse text file = .error (.globalParameter t) ∧
              t ∈ formalParameters (TokenStream.ofText text).tokens ∧
              isGlobalName t.text = true) := by
  refine ⟨fun expected t h => unexpected_leftmost h, fun e hfault => ⟨?_, ?_⟩⟩
  · intro ts hts hbegins
    exact lexical_of_begins hfault hts hbegins
  · intro hnot hnumerals
    exact unexpected_of_not_begins hfault hnot hnumerals

/-- A token that does not fit, a character that begins none after tokens that fit, and one after
    tokens that do not. -/
theorem leftmost_fault_stray :
    (∃ before after, (TokenStream.ofText "BEGIN P\n1 +\nEND").tokens =
        before ++ (⟨.newline, "\n", 2, 4⟩ : Token) :: after ∧
      (∃ ts, Accepted ts ∧ before <+: ts) ∧
      ∀ ts, Accepted ts →
        ¬ (before ++ [(⟨.newline, "\n", 2, 4⟩ : Token)]).map Token.kind <+: ts.map Token.kind) ∧
    parse "BEGIN P\n1 $" "" = .error (.lexical ⟨.unexpected '$', 2, 3⟩) ∧
    ∃ t ∈ (TokenStream.ofText "BEGIN BEGIN $").tokens,
      (∃ expected, parse "BEGIN BEGIN $" "" = .error (.unexpected expected t)) ∨
        parse "BEGIN BEGIN $" "" = .error (.globalParameter t) ∧
          t ∈ formalParameters (TokenStream.ofText "BEGIN BEGIN $").tokens ∧
          isGlobalName t.text = true := by
  refine ⟨?_, ?_, ?_⟩
  · have herror : parse "BEGIN P\n1 +\nEND" "" =
        .error (.unexpected elementStart ⟨.newline, "\n", 2, 4⟩) := by cbv
    exact (leftmost_fault "BEGIN P\n1 +\nEND" "").1 _ _ herror
  · have hfault : (TokenStream.ofText "BEGIN P\n1 $").fault = some ⟨.unexpected '$', 2, 3⟩ := by cbv
    have htokens : (TokenStream.ofText "BEGIN P\n1 $").tokens =
        [⟨.kwBegin, "BEGIN", 1, 1⟩, ⟨.ident, "P", 1, 7⟩, ⟨.newline, "\n", 1, 8⟩,
          ⟨.int, "1", 2, 1⟩] := by cbv
    -- a program that starts with the tokens before the stray character
    have hprogram : ∃ p, parse "BEGIN P\n1\nEND" "" = .ok p := by
      apply Exists.intro
      cbv
    have haccepted : Accepted [⟨.kwBegin, "BEGIN", 1, 1⟩, ⟨.ident, "P", 1, 7⟩,
        ⟨.newline, "\n", 1, 8⟩, ⟨.int, "1", 2, 1⟩, ⟨.newline, "\n", 2, 2⟩, ⟨.kwEnd, "END", 3, 1⟩,
        ⟨.eof, "", 3, 4⟩] := by
      obtain ⟨p, hp⟩ := hprogram
      exact ⟨"BEGIN P\n1\nEND", "", p, by cbv, hp⟩
    refine ((leftmost_fault "BEGIN P\n1 $" "").2 _ hfault).1 _ haccepted ?_
    rw [htokens]
    exact ⟨_, rfl⟩
  · have hfault : (TokenStream.ofText "BEGIN BEGIN $").fault = some ⟨.unexpected '$', 1, 13⟩ := by
      cbv
    have htokens : (TokenStream.ofText "BEGIN BEGIN $").tokens =
        [⟨.kwBegin, "BEGIN", 1, 1⟩, ⟨.kwBegin, "BEGIN", 1, 7⟩] := by cbv
    have herror : parse "BEGIN BEGIN $" "" =
        .error (.unexpected [.ident] ⟨.kwBegin, "BEGIN", 1, 7⟩) := by cbv
    -- the second token is the one that is reported, and no program starts with both
    obtain ⟨before, after, hsplit, -, hnone⟩ := (leftmost_fault "BEGIN BEGIN $" "").1 _ _ herror
    have hbefore : before = [⟨.kwBegin, "BEGIN", 1, 1⟩] ∧ after = [] := by
      rw [htokens] at hsplit
      simpa [List.cons_eq_append_iff] using hsplit
    refine ((leftmost_fault "BEGIN BEGIN $" "").2 _ hfault).2 ?_ ?_
    · rw [hsplit, hbefore.1, hbefore.2]
      rw [hbefore.1] at hnone
      exact hnone
    · rw [htokens]
      simp
end VectorLang
