import Mathlib
import VectorLang.Proofs.Token.Gap
import VectorLang.Proofs.Token.Lexeme
import VectorLang.Proofs.Token.Stream

/-!
# What the tokens of a text leave out

A text that can be read is tiled by its tokens and by the gaps between them: nothing of it is lost,
each token stands at the place that it names, and none ends before it has to.

* `Position.IsAfter.advanceBy`  the line and the column of a place, told by the text before it
* `lexeme_tiles`                one lexeme
* `scan_token_tiles`            one token with the gap before it
* `tokenize_tiles`              all tokens of a text
-/

namespace VectorLang

/-! ## Places -/

/-- The line of the place after a text, from 1. -/
def lineAfter (before : List Char) : Nat :=
  1 + before.count '\n'

/-- The column of the place after a text, from 1: the characters after its last newline are
    counted. -/
def columnAfter (before : List Char) : Nat :=
  1 + (before.reverse.takeWhile (· != '\n')).length

/-- Whether a position is that of the place after a text. -/
structure Position.IsAfter (before : List Char) (p : Position) : Prop where
  line : p.line = lineAfter before
  column : p.column = columnAfter before

theorem Position.isAfter_start : start.IsAfter [] := ⟨rfl, rfl⟩

theorem Position.IsAfter.advance {before : List Char} {p : Position} (h : p.IsAfter before)
    (c : Char) : (p.advance c).IsAfter (before ++ [c]) := by
  by_cases hc : c = '\n'
  · subst hc
    constructor
    · show p.line + 1 = _
      simp [h.line, lineAfter, Nat.add_assoc]
    · show 1 = _
      simp [columnAfter]
  · have hadvance : p.advance c = ⟨p.offset + 1, p.line, p.column + 1⟩ := if_neg hc
    rw [hadvance]
    constructor
    · simp [h.line, lineAfter, hc]
    · simp [h.column, columnAfter, hc, Nat.add_assoc]

/-- Walking over a text leads to the place after it. -/
theorem Position.IsAfter.advanceBy {before : List Char} {p : Position} (h : p.IsAfter before)
    (cs : List Char) : (p.advanceBy cs).IsAfter (before ++ cs) := by
  induction cs generalizing before p with
  | nil =>
    rw [List.append_nil]
    exact h
  | cons c cs ih =>
    have htail := ih (h.advance c)
    rwa [List.append_assoc] at htail

/-! ## Ends of lexemes -/

theorem Kind.continuedBy_ofWord (word : List Char) : (ofWord word).continuedBy = isNameChar := by
  have hmem := ofWord_mem word
  simp only [keywords, List.mem_cons, List.not_mem_nil, or_false] at hmem
  rcases hmem with h | h | h | h | h | h | h <;> rw [h] <;> rfl

/-- What is left after all characters of a class starts with none of them. -/
private theorem startsWith_dropWhile (q : Char → Bool) (cs : List Char) :
    startsWith q (cs.dropWhile q) = false := by
  induction cs with
  | nil => rfl
  | cons c cs ih =>
    by_cases hc : q c = true
    · rw [List.dropWhile_cons_of_pos hc]
      exact ih
    · rw [List.dropWhile_cons_of_neg hc]
      simpa [startsWith] using hc

private theorem startsWith_never (cs : List Char) : startsWith (fun _ => false) cs = false := by
  cases cs <;> rfl

/-- A symbol is not continued by what follows it, if the text starts neither a numeral nor a
    comment. -/
private theorem ends_of_ofSymbol? {c : Char} {cs : List Char} {k : Kind}
    (h : Kind.ofSymbol? (c :: cs) = some k)
    (hnumeral : ¬ (c = '-' ∧ startsWith Char.isDigit cs = true))
    (hcomment : ∀ cs', c :: cs ≠ '/' :: '*' :: cs') :
    startsWith k.continuedBy ((c :: cs).drop k.spelling.length) = false := by
  unfold Kind.ofSymbol? at h
  split at h
  case h_11 rest heq =>
    cases h
    cases heq
    exact Bool.eq_false_iff.mpr fun hdigit => hnumeral ⟨rfl, hdigit⟩
  case h_14 rest heq =>
    cases h
    cases heq
    rcases cs with _ | ⟨d, rest⟩
    · rfl
    · refine Bool.eq_false_iff.mpr fun hstar => hcomment rest ?_
      rw [beq_iff_eq.mp hstar]
  case h_16 rest hminus hequal hgreater heq =>
    cases h
    cases heq
    rcases cs with _ | ⟨d, rest⟩
    · rfl
    · -- a symbol of two characters would have been read instead
      show (d == '-' || d == '=' || d == '>') = false
      simp only [Bool.or_eq_false_iff, beq_eq_false_iff_ne]
      refine ⟨⟨?_, ?_⟩, ?_⟩
      · rintro rfl
        exact hminus rest rfl
      · rintro rfl
        exact hequal rest rfl
      · rintro rfl
        exact hgreater rest rfl
  case h_17 rest hequal heq =>
    cases h
    cases heq
    rcases cs with _ | ⟨d, rest⟩
    · rfl
    · refine Bool.eq_false_iff.mpr fun heq => hequal rest ?_
      rw [beq_iff_eq.mp heq]
  all_goals
    cases h
    try exact startsWith_never _

/-- All lexemes but strings are spelt as they are. -/
private theorem spelling_ofList {k : Kind} (hk : k ≠ .string) (cs : List Char) :
    Lexeme.spelling ⟨k, String.ofList cs⟩ = cs := by
  rw [Lexeme.spelling, if_neg hk, String.toList_ofList]

/-- A token is spelt by the characters that it takes up, stands where they start, and is not
    continued by what follows. -/
theorem lexeme_tiles {p : Position} {cs : List Char} {t : Token}
    (h : (lexeme p cs).outcome = .ok t) (ht : t.kind ≠ .eof)
    (hcomment : ∀ cs', cs ≠ '/' :: '*' :: cs') :
    cs = t.lexeme.spelling ++ (lexeme p cs).cursor.rest ∧
      (lexeme p cs).cursor.position = p.advanceBy t.lexeme.spelling ∧
      (t.line = p.line ∧ t.column = p.column) ∧
      startsWith t.kind.continuedBy (lexeme p cs).cursor.rest = false := by
  revert h
  fun_cases lexeme p cs with
  | case1 =>
    intro h
    cases h
    exact absurd rfl ht
  | case2 cs =>
    intro h
    cases h
    rw [Token.lexeme, spelling_ofList (by simp)]
    exact ⟨rfl, rfl, ⟨rfl, rfl⟩, startsWith_never cs⟩
  | case3 c cs _ _ numeral =>
    intro h
    cases h
    rw [Token.lexeme, spelling_ofList (by simp)]
    refine ⟨?_, rfl, ⟨rfl, rfl⟩, startsWith_dropWhile _ cs⟩
    show c :: cs = c :: (cs.takeWhile Char.isDigit ++ cs.dropWhile Char.isDigit)
    rw [List.takeWhile_append_dropWhile]
  | case4 =>
    intro h
    cases h
  | case5 cs body quote rest hrest =>
    intro h
    cases h
    have hspelling : Lexeme.spelling ⟨.string, String.ofList body⟩ = '"' :: (body ++ ['"']) := by
      rw [Lexeme.spelling, if_pos rfl, String.toList_ofList]
    -- what stops the string is a quote
    have hquote : quote = '"' := by
      have hhead := startsWith_dropWhile (· != '"') cs
      rw [hrest] at hhead
      simpa [startsWith] using hhead
    subst hquote
    rw [Token.lexeme, hspelling]
    refine ⟨?_, rfl, ⟨rfl, rfl⟩, startsWith_never rest⟩
    show '"' :: cs = '"' :: (body ++ ['"'] ++ rest)
    rw [List.append_assoc, List.singleton_append, ← hrest, List.takeWhile_append_dropWhile]
  | case6 c cs _ _ _ _ word =>
    intro h
    cases h
    have hstring : Kind.ofWord word ≠ .string := by
      intro hk
      exact absurd (hk ▸ Kind.ofWord_mem word) (by decide)
    rw [Token.lexeme, spelling_ofList hstring]
    refine ⟨?_, rfl, ⟨rfl, rfl⟩, ?_⟩
    · show c :: cs = c :: (cs.takeWhile isNameChar ++ cs.dropWhile isNameChar)
      rw [List.takeWhile_append_dropWhile]
    · show startsWith (Kind.ofWord word).continuedBy _ = false
      rw [Kind.continuedBy_ofWord]
      exact startsWith_dropWhile _ cs
  | case7 c cs _ hnumeral _ _ kind hk =>
    intro h
    cases h
    have hstring : kind ≠ .string := by
      rintro rfl
      exact absurd (Kind.spelling_of_ofSymbol? hk).2 (by decide)
    rw [Token.lexeme, spelling_ofList hstring]
    refine ⟨(Kind.spelling_of_ofSymbol? hk).1.symm, rfl, ⟨rfl, rfl⟩, ?_⟩
    apply ends_of_ofSymbol? hk _ hcomment
    rintro ⟨rfl, hdigit⟩
    simp [hdigit] at hnumeral
  | case8 =>
    intro h
    cases h

/-! ## Pieces -/

/-- A token, other than the end of the text, with the gap before it. -/
structure Piece where
  /-- What the scanner passes over before the token. -/
  gap : List Char
  /-- The token. -/
  token : Token

/-- The text of a row of pieces. -/
def written (pieces : List Piece) : List Char :=
  pieces.flatMap fun p => p.gap ++ p.token.lexeme.spelling

theorem written_cons (p : Piece) (pieces : List Piece) :
    written (p :: pieces) = p.gap ++ p.token.lexeme.spelling ++ written pieces := rfl

/-- The kind of the last token of a row of pieces; `last` where there is none. -/
def lastKind (last : Option Kind) (pieces : List Piece) : Option Kind :=
  pieces.foldl (fun _ p => some p.token.kind) last

theorem lastKind_concat (last : Option Kind) (pieces : List Piece) (p : Piece) :
    lastKind last (pieces ++ [p]) = some p.token.kind := by
  rw [lastKind, List.foldl_concat]

/-- Whether a piece fits between the text `before`, whose last token is of kind `last`, and the
    text `rest`. -/
structure Piece.Fits (last : Option Kind) (before : List Char) (p : Piece) (rest : List Char) :
    Prop where
  /-- Newlines belong to the gap only at the start of the text and after a newline. -/
  gap : IsGap (last = none || last = some .newline) p.gap
  valid : p.token.lexeme.Valid
  /-- There it is no token itself. -/
  newline : p.token.kind = .newline → last ≠ none ∧ last ≠ some .newline
  line : p.token.line = lineAfter (before ++ p.gap)
  column : p.token.column = columnAfter (before ++ p.gap)
  /-- The token is not cut short. -/
  ends : startsWith p.token.kind.continuedBy rest = false

/-- Whether pieces, with a gap after them, fit one after the other after a text. -/
structure Tiling (last : Option Kind) (before : List Char) (pieces : List Piece)
    (gap : List Char) : Prop where
  fits {ps qs : List Piece} {p : Piece} : pieces = ps ++ p :: qs →
    p.Fits (lastKind last ps) (before ++ written ps) (written qs ++ gap)
  gap : IsGap (lastKind last pieces = none || lastKind last pieces = some .newline) gap

theorem Tiling.nil {last : Option Kind} {before gap : List Char}
    (h : IsGap (last = none || last = some .newline) gap) : Tiling last before [] gap where
  fits hsplit := by simp at hsplit
  gap := h

/-- A piece before the others. -/
theorem Tiling.cons {last : Option Kind} {before gap : List Char} {p : Piece}
    {pieces : List Piece} (hp : p.Fits last before (written pieces ++ gap))
    (h : Tiling (some p.token.kind) (before ++ (p.gap ++ p.token.lexeme.spelling)) pieces gap) :
    Tiling last before (p :: pieces) gap where
  fits {ps qs q} hsplit := by
    cases ps with
    | nil =>
      obtain ⟨rfl, rfl⟩ := List.cons.inj hsplit
      rwa [← List.append_nil before] at hp
    | cons p' ps =>
      obtain ⟨rfl, htail⟩ := List.cons.inj hsplit
      have hq := h.fits htail
      rwa [List.append_assoc] at hq
  gap := h.gap

/-- No newline token follows another. -/
theorem Tiling.isChain {last : Option Kind} {before gap : List Char} {pieces : List Piece}
    (h : Tiling last before pieces gap) :
    pieces.IsChain fun p q => p.token.kind = .newline → q.token.kind ≠ .newline := by
  rw [List.isChain_iff_forall_rel_of_append_cons_cons]
  rintro p q ps qs rfl hp hq
  have hsplit : ps ++ p :: q :: qs = ps ++ [p] ++ q :: qs := by simp
  have hlast := ((h.fits hsplit).newline hq).2
  rw [lastKind_concat, hp] at hlast
  exact hlast rfl

/-! ## Scans -/

section

variable {last : Option Kind} {cursor : Cursor} {t : Token} {before : List Char}

/-- A scan reads a token with the gap before it. -/
theorem scan_token_tiles (hp : cursor.position.IsAfter before)
    (h : (scan last cursor).outcome = .ok t) (ht : t.kind ≠ .eof) :
    ∃ g, cursor.rest = g ++ t.lexeme.spelling ++ (scan last cursor).cursor.rest ∧
      Piece.Fits last before ⟨g, t⟩ (scan last cursor).cursor.rest ∧
      (scan last cursor).cursor.position.IsAfter (before ++ (g ++ t.lexeme.spelling)) := by
  unfold scan at h ⊢
  split
  · rename_i stop hgap
    rw [hgap] at h
    obtain ⟨g, hg, hrest, hstop⟩ := gap_of_skipGap hgap
    obtain ⟨hcomment, hnewline, -⟩ := startsLexeme_of_skipGap hgap
    obtain ⟨hspelling, hnext, ⟨hline, hcolumn⟩, hends⟩ := lexeme_tiles h ht hcomment
    have hvalid := valid_of_lexeme h ht
    have hafter := hp.advanceBy g
    rw [← hstop] at hafter
    refine ⟨g, ?_, ⟨hg, hvalid, ?_, ?_, ?_, hends⟩, ?_⟩
    · rw [hrest, List.append_assoc, ← hspelling]
    · -- where newlines are passed over, the scanner has not stopped at one
      intro hk
      by_cases hquiet : (last = none || last = some .newline : Bool) = true
      · rw [hvalid.spelling_of_newline hk] at hspelling
        exact absurd hspelling (hnewline hquiet _)
      · simpa using hquiet
    · rw [hline, hafter.line]
    · rw [hcolumn, hafter.column]
    · rw [hnext, ← List.append_assoc]
      exact hafter.advanceBy _
  · rename_i opening stop hgap
    rw [hgap] at h
    cases h

/-- The last scan reads the end of the text, after the last gap. -/
theorem scan_eof_tiles (hp : cursor.position.IsAfter before)
    (h : (scan last cursor).outcome = .ok t) (ht : t.kind = .eof) :
    IsGap (last = none || last = some .newline) cursor.rest ∧
      t = ⟨.eof, "", lineAfter (before ++ cursor.rest), columnAfter (before ++ cursor.rest)⟩ := by
  unfold scan at h
  split at h
  · rename_i stop hgap
    obtain ⟨g, hg, hrest, hstop⟩ := gap_of_skipGap hgap
    have hnil := lexeme_of_eof h ht
    rw [hnil] at h hrest
    rw [List.append_nil] at hrest
    have hafter := hp.advanceBy g
    rw [← hstop, ← hrest] at hafter
    cases h
    rw [← hafter.line, ← hafter.column, hrest]
    exact ⟨hg, rfl⟩
  · cases h

end

/-! ## Texts -/

/-- The tokens of a stream without a fault tile the text. -/
theorem tiles_scanAll {last : Option Kind} {cursor : Cursor} {before : List Char}
    (hp : cursor.position.IsAfter before) (h : (TokenStream.scanAll last cursor).fault = none) :
    ∃ pieces gap, Tiling last before pieces gap ∧ cursor.rest = written pieces ++ gap ∧
      (TokenStream.scanAll last cursor).tokens = pieces.map Piece.token ++
        [⟨.eof, "", lineAfter (before ++ cursor.rest), columnAfter (before ++ cursor.rest)⟩] := by
  fun_induction TokenStream.scanAll last cursor generalizing before with
  | case1 => cases h
  | case2 last cursor t hscan ht =>
    obtain ⟨hgap, htoken⟩ := scan_eof_tiles hp hscan ht
    exact ⟨[], cursor.rest, .nil hgap, rfl, by rw [htoken]; rfl⟩
  | case3 =>
    rename_i last cursor t hscan ht _ ih
    obtain ⟨g, hrest, hfits, hafter⟩ := scan_token_tiles hp hscan ht
    obtain ⟨pieces, gap, htiling, hwritten, htokens⟩ := ih hafter h
    have hcursor : cursor.rest = g ++ t.lexeme.spelling ++ (written pieces ++ gap) := by
      rw [hrest, hwritten]
    rw [hwritten] at hfits
    refine ⟨⟨g, t⟩ :: pieces, gap, .cons hfits htiling, ?_, ?_⟩
    · rw [hcursor, written_cons, List.append_assoc _ (written pieces)]
    · rw [htokens, hcursor, hwritten, List.append_assoc before]
      rfl

/-- A text that can be read is made up of its tokens and of the gaps between them, with the end of
    the text as the last token.  No newline token comes first or follows another. -/
theorem tokenize_tiles {text : String} {ts : List Token} (h : tokenize text = .ok ts) :
    ∃ pieces gap, Tiling none [] pieces gap ∧ text.toList = written pieces ++ gap ∧
      ts = pieces.map Piece.token ++
        [⟨.eof, "", lineAfter text.toList, columnAfter text.toList⟩] ∧
      (∀ p ∈ pieces, p.token.kind ≠ .eof) ∧
      (∀ t ∈ ts.head?, t.kind ≠ .newline) ∧
      ts.IsChain fun t t' => t.kind = .newline → t'.kind ≠ .newline := by
  have hstream := tokenize_eq_ok_iff.mp h
  have hstart : (Cursor.ofText text).position.IsAfter [] := Position.isAfter_start
  obtain ⟨pieces, gap, htiling, htext, htokens⟩ :=
    tiles_scanAll hstart (congrArg TokenStream.fault hstream)
  have hts : ts = _ := (congrArg TokenStream.tokens hstream).symm.trans htokens
  refine ⟨pieces, gap, htiling, htext, hts, ?_, ?_, ?_⟩
  · intro p hp
    obtain ⟨ps, qs, hsplit⟩ := List.append_of_mem hp
    have hvalid := (htiling.fits hsplit).valid
    intro heof
    rw [Lexeme.Valid, Token.kind_lexeme, heof] at hvalid
    exact hvalid
  · rw [hts]
    intro t ht hnewline
    cases pieces with
    | nil =>
      cases ht
      cases hnewline
    | cons p pieces =>
      cases ht
      have hsplit : p :: pieces = [] ++ p :: pieces := rfl
      exact ((htiling.fits hsplit).newline hnewline).1 rfl
  · rw [hts, List.isChain_append, List.isChain_map]
    refine ⟨htiling.isChain, .singleton _, ?_⟩
    intro t _ t' ht' _ hnewline
    cases ht'
    cases hnewline

/-- A text with a newline and a comment before its first token, a string of two lines, and an empty
    line. -/
def linesText : String := "\n/**/A<-\"x\ny\"\n \n//-5"

/-- The tokens of that text. -/
def linesTokens : List Token :=
  [⟨.ident, "A", 2, 5⟩, ⟨.assign, "<-", 2, 6⟩, ⟨.string, "x\ny", 2, 8⟩, ⟨.newline, "\n", 3, 3⟩,
    ⟨.slash, "/", 5, 1⟩, ⟨.slash, "/", 5, 2⟩, ⟨.int, "-5", 5, 3⟩, ⟨.eof, "", 5, 5⟩]

theorem tokenize_tiles_lines :
    tokenize linesText = .ok linesTokens ∧
    ∃ pieces gap, Tiling none [] pieces gap ∧ linesText.toList = written pieces ++ gap ∧
      pieces.map Piece.token = linesTokens.dropLast := by
  have htokens : tokenize linesText = .ok linesTokens := by cbv
  obtain ⟨pieces, gap, htiling, htext, hts, -⟩ := tokenize_tiles htokens
  refine ⟨htokens, pieces, gap, htiling, htext, ?_⟩
  rw [hts, List.dropLast_concat]

end VectorLang
