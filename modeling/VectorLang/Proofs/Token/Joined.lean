import Mathlib.Data.List.Chain
import VectorLang.Proofs.Token.Spelling

/-!
# Lexemes with separators between them

Lexemes that are written down one after the other, with a blank or a comment between each two of
them at least, are read back as they were written, whatever the separators are.

* `closes_of_isSeparator`  a separator closes the lexeme before it
* `tokenize_joined`        the lexemes that are read back
-/

namespace VectorLang

/-- Whether a text separates two lexemes of a line: blanks and comments, and not nothing. -/
def IsSeparator (g : List Char) : Prop :=
  g ≠ [] ∧ IsGap false g

/-- The text of lexemes with separators between them, one for each two that are neighbours. -/
def joined : List Lexeme → List (List Char) → List Char
  | [], _ => []
  | [l], _ => l.spelling
  | l :: ls, [] => l.spelling ++ joined ls []
  | l :: ls, g :: gs => l.spelling ++ (g ++ joined ls gs)

/-- A separator starts with a blank, or with the slash that opens a comment.  Neither continues a
    lexeme. -/
theorem closes_of_isSeparator {g : List Char} (hg : IsSeparator g) (cs : List Char) :
    closes (g ++ cs) = true := by
  obtain ⟨hne, hgap⟩ := hg
  cases hgap with
  | nil => exact absurd rfl hne
  | @blank c g hc _ =>
    simp only [isLayout, Bool.or_eq_true, decide_eq_true_eq] at hc
    rcases hc with (rfl | rfl) | rfl <;> rfl
  | newline h => cases h
  | comment hc _ =>
    obtain ⟨body, _, rfl⟩ := hc
    rfl

/-- Valid lexemes with separators between them are spelt by their text, if the first of them is no
    newline where newlines are passed over and no newline follows another one. -/
theorem spells_joined {ls : List Lexeme} {gaps : List (List Char)} {last : Option Kind}
    {g : List Char} (hvalid : ∀ l ∈ ls, l.Valid)
    (hfirst : ∀ l ∈ ls.head?, l.kind = .newline → last ≠ none ∧ last ≠ some .newline)
    (hadjacent : ls.IsChain fun l l' => l.kind = .newline → l'.kind ≠ .newline)
    (hlength : gaps.length = ls.length - 1) (hgaps : ∀ gap ∈ gaps, IsSeparator gap)
    (hg : IsGap false g) : Spells last ls (g ++ joined ls gaps) := by
  induction ls generalizing gaps last g with
  | nil =>
    rw [joined, List.append_nil]
    exact .nil hg
  | cons l ls ih =>
    have hl := hvalid l List.mem_cons_self
    have hnewline := hfirst l rfl
    cases ls with
    | nil =>
      have hspells := Spells.cons hg hl hnewline (Or.inr rfl) (.nil .nil)
      rwa [List.append_nil] at hspells
    | cons l' ls =>
      cases gaps with
      | nil => cases hlength
      | cons gap gaps =>
        obtain ⟨hgap, hgaps⟩ := List.forall_mem_cons.mp hgaps
        obtain ⟨hapart, hadjacent⟩ := List.isChain_cons_cons.mp hadjacent
        -- a newline may follow unless the lexeme before it is one
        have hnext : ∀ l₁ ∈ (l' :: ls).head?, l₁.kind = .newline →
            some l.kind ≠ none ∧ some l.kind ≠ some .newline := by
          rintro l₁ hl₁ hk
          obtain rfl : l' = l₁ := Option.some.inj hl₁
          exact ⟨by simp, fun h => hapart (Option.some.inj h) hk⟩
        have htail := ih (fun l hl => hvalid l (List.mem_cons_of_mem _ hl)) hnext hadjacent
          (Nat.succ.inj hlength) hgaps hgap.2
        exact .cons hg hl hnewline (Or.inr (closes_of_isSeparator hgap _)) htail

/-- Valid lexemes, the first of them no newline and no two newlines neighbours, are read back from
    their text, whatever separators stand between them, and then comes the end of the text. -/
theorem tokenize_joined {ls : List Lexeme} {gaps : List (List Char)}
    (hvalid : ∀ l ∈ ls, l.Valid) (hfirst : ∀ l ∈ ls.head?, l.kind ≠ .newline)
    (hadjacent : ls.IsChain fun l l' => l.kind = .newline → l'.kind ≠ .newline)
    (hlength : gaps.length = ls.length - 1) (hgaps : ∀ gap ∈ gaps, IsSeparator gap) :
    ∃ ts eof, tokenize (String.ofList (joined ls gaps)) = .ok (ts ++ [eof]) ∧
      ts.map Token.lexeme = ls ∧ eof.kind = .eof := by
  have hspells : Spells none ls ([] ++ joined ls gaps) :=
    spells_joined hvalid (fun l hl hk => absurd hk (hfirst l hl)) hadjacent hlength hgaps .nil
  obtain ⟨ts, eof, hscan, hts, heof⟩ := scanAll_of_spells hspells Position.start
  refine ⟨ts, eof, tokenize_eq_ok_iff.mpr ?_, hts, heof⟩
  rw [TokenStream.ofText, Cursor.ofText, String.toList_ofList]
  exact hscan

/-- A slash, a star, the end of the line and a negative number. -/
def starryLexemes : List Lexeme :=
  [⟨.slash, "/"⟩, ⟨.star, "*"⟩, ⟨.newline, "\n"⟩, ⟨.int, "-5"⟩]

/-- Separators for them: a comment of three stars, a blank, and a comment of two lines. -/
def starryGaps : List (List Char) :=
  ["/***/".toList, [' '], "/*\n-*/".toList]

theorem isSeparator_of_mem_starryGaps {g : List Char} (hg : g ∈ starryGaps) : IsSeparator g := by
  have hcomment (body : List Char) (hbody : ¬ ['*', '/'] <:+: body) :
      IsSeparator ('/' :: '*' :: (body ++ ['*', '/'])) := by
    refine ⟨by simp, ?_⟩
    have hgap : IsGap false _ := .comment ⟨body, hbody, rfl⟩ .nil
    rwa [List.append_nil] at hgap
  simp only [starryGaps, List.mem_cons, List.not_mem_nil, or_false] at hg
  rcases hg with rfl | rfl | rfl
  · exact hcomment ['*'] (by decide)
  · exact ⟨by simp, .blank rfl .nil⟩
  · exact hcomment ['\n', '-'] (by decide)

/-- A comment after a slash or before a star is no part of either. -/
theorem tokenize_joined_starry :
    String.ofList (joined starryLexemes starryGaps) = "//***/* \n/*\n-*/-5" ∧
    ∃ ts eof, tokenize "//***/* \n/*\n-*/-5" = .ok (ts ++ [eof]) ∧
      ts.map Token.lexeme = starryLexemes ∧ eof.kind = .eof := by
  have htext : String.ofList (joined starryLexemes starryGaps) = "//***/* \n/*\n-*/-5" := by rfl
  have hvalid : ∀ l ∈ starryLexemes, l.Valid := by
    simp only [starryLexemes, List.forall_mem_cons]
    exact ⟨rfl, rfl, rfl, rfl, List.forall_mem_nil _⟩
  refine ⟨htext, ?_⟩
  rw [← htext]
  exact tokenize_joined hvalid (by decide) (by decide) rfl fun _ hg =>
    isSeparator_of_mem_starryGaps hg

end VectorLang
