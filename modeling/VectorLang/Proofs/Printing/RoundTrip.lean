import Mathlib
import VectorLang.Proofs.Printing.Statement
import VectorLang.Proofs.Reading.Lines
import VectorLang.Proofs.Reading.Text
import VectorLang.Proofs.Token.Spelling

/-!
# Printing and reading a program

The text of a program that was read from a text is read as the same program, up to its
locations.

* `tokenize_layout`    the text of lexemes is read as tokens with these lexemes
* `parse_render`       the text of a program is read as the program
-/

namespace VectorLang

/-! ## Layout -/

/-- The text of lexemes starts with the spelling of the first one. -/
private theorem layout_cons (l : Lexeme) (ls : List Lexeme) :
    ∃ rest, layout (l :: ls) = l.spelling ++ rest := by
  cases ls with
  | nil => exact ⟨[], by rw [layout, List.append_nil]⟩
  | cons l' ls => exact ⟨_, by rw [layout]⟩

/-- What stands between two lexemes is a gap. -/
private theorem isGap_separator (l l' : Lexeme) : IsGap false (separator l l') := by
  unfold separator
  split
  · exact .nil
  · exact .blank rfl .nil

/-- A lexeme is closed by what stands after it. -/
private theorem closes_separator {l l' : Lexeme} (ls : List Lexeme) (hl' : l'.Valid)
    (hl : l.kind ≠ .newline) : closes (separator l l' ++ layout (l' :: ls)) = true := by
  by_cases hk : l'.kind = .newline
  -- the end of the line closes it, or a space does
  · obtain ⟨rest, hrest⟩ := layout_cons l' ls
    rw [hrest, hl'.spelling_of_newline hk]
    simp [separator, hk, closes, startsWith]
  · simp [separator, hl, hk, closes, startsWith]

/-- The text of valid lexemes spells them, if their newlines are separated. -/
theorem spells_layout {ls : List Lexeme} {last : Option Kind} {g : List Char}
    (hls : Spelt ls) (hlines : Separated last (ls.map Lexeme.kind)) (hg : IsGap false g) :
    Spells last ls (g ++ layout ls) := by
  induction ls generalizing last g with
  | nil =>
    rw [layout, List.append_nil]
    exact .nil hg
  | cons l ls ih =>
    obtain ⟨hl, hrest⟩ := spelt_cons.mp hls
    obtain ⟨hnewline, hlines⟩ := hlines
    -- nothing follows the last lexeme, so that it needs nothing to close it
    cases ls with
    | nil =>
      have hspells := Spells.cons hg hl hnewline (Or.inr rfl) (.nil .nil)
      rwa [List.append_nil] at hspells
    | cons l' ls =>
      have htail := ih hrest hlines (isGap_separator l l')
      rw [layout]
      refine Spells.cons hg hl hnewline ?_ htail
      by_cases hk : l.kind = .newline
      · exact Or.inl hk
      · exact Or.inr (closes_separator ls (spelt_cons.mp hrest).1 hk)

/-- The text of valid lexemes is read as tokens with these lexemes, and the end of the
    text. -/
theorem tokenize_layout {ls : List Lexeme} (hls : Spelt ls)
    (hlines : Separated none (ls.map Lexeme.kind)) :
    ∃ ts eof, tokenize (String.ofList (layout ls)) = .ok (ts ++ [eof]) ∧
      ts.map Token.lexeme = ls ∧ eof.kind = .eof := by
  have hspells : Spells none ls (layout ls) := spells_layout hls hlines .nil
  obtain ⟨ts, eof, hscan, hts, heof⟩ := scanAll_of_spells hspells Position.start
  refine ⟨ts, eof, tokenize_eq_ok_iff.mpr ?_, hts, heof⟩
  rw [TokenStream.ofText, Cursor.ofText, String.toList_ofList]
  exact hscan

/-! ## Programs -/

private theorem map_lexeme_token (ls : List Lexeme) :
    (ls.map Lexeme.token).map Token.lexeme = ls := by
  rw [List.map_map]
  exact List.map_id ls

/-- What a program is printed as keeps its newlines apart. -/
private theorem separated_print {p : Program} {src : Source} {eof : Token}
    (h : ReadsProgram src p.unlocated (p.print.map Lexeme.token ++ [eof])) :
    Separated none (p.print.map Lexeme.kind) := by
  have hlines := h.separated
  rw [List.map_append, List.map_map] at hlines
  exact hlines.of_append

/-- The text of a program that was read is read as the program, up to its locations. -/
theorem parse_render {text file : String} {p : Program} (h : parse text file = .ok p)
    (file' : String) :
    ∃ q, parse p.render file' = .ok q ∧ q.unlocated = p.unlocated := by
  obtain ⟨ts, htext, hreads⟩ := parse_eq_ok_iff.mp h
  have hvalid := valid_of_tokenize htext
  have hrereads : ∀ eof : Token, eof.kind = .eof →
      ReadsProgram Source.blank p.unlocated (p.print.map Lexeme.token ++ [eof]) :=
    fun eof heof => hreads.rereads hvalid heof
  -- whether newlines are apart does not depend on the end of the text
  have hlines := separated_print (hrereads ⟨.eof, "", 0, 0⟩ rfl)
  obtain ⟨ts', eof, htext', hts', heof⟩ := tokenize_layout (hreads.spelt hvalid) hlines
  -- the tokens of the text differ from those that are read again in their places only
  have hlexemes : (ts' ++ [eof]).map Token.lexeme =
      (p.print.map Lexeme.token ++ [eof]).map Token.lexeme := by
    rw [List.map_append, List.map_append, map_lexeme_token, hts']
  -- so they are read as the same program
  obtain ⟨q, hq, hreads'⟩ :=
    (hrereads eof heof).transfer (Source.ofText file' p.render) hlexemes
  refine ⟨q, parse_eq_ok_iff.mpr ⟨_, htext', hreads'⟩, ?_⟩
  rw [hq, p.unlocated_unlocated]

/-- The program that the text `((F()))` is the only statement of. -/
def callInParentheses : Program :=
  let line : Location := ⟨"", 1, 1, "BEGIN P"⟩
  let call : Location := ⟨"", 2, 3, "((F()))"⟩
  ⟨line, "P", ⟨line, false, "P", [],
    [.output ⟨"", 2, 1, "((F()))"⟩ (.vector call [.call call false "F" []])]⟩⟩

/-- Of two pairs of parentheses around a call, the one that it needs is printed. -/
theorem parse_render_call :
    parse "BEGIN P\n((F()))\nEND" "" = .ok callInParentheses ∧
      callInParentheses.render = "BEGIN P\n( F ( ) )\nEND" ∧
      ∃ q, parse "BEGIN P\n( F ( ) )\nEND" "" = .ok q ∧
        q.unlocated = callInParentheses.unlocated := by
  have hparse : parse "BEGIN P\n((F()))\nEND" "" = .ok callInParentheses := by cbv
  have hrender : callInParentheses.render = "BEGIN P\n( F ( ) )\nEND" := by cbv
  refine ⟨hparse, hrender, ?_⟩
  rw [← hrender]
  exact parse_render hparse ""

end VectorLang
