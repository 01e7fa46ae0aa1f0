import VectorLang.Proofs.Token.Gap
import VectorLang.Proofs.Token.Lexeme
import VectorLang.Proofs.Token.Stream

/-!
# Texts that spell lexemes

`Spells last ls cs` says that a text `cs` is made of the spellings of the lexemes `ls` with
gaps of blanks and comments between them, and that nothing runs together: each lexeme is
closed by what follows, and a newline stands only where the scanner does not pass over it.
Such a text is read back as these lexemes.

* `valid_of_mem_scanAll`   the tokens of every stream have valid lexemes
* `scanAll_of_spells`      a text that spells lexemes is read as tokens with these lexemes
-/

namespace VectorLang

open TokenStream

/-! ## Tokens of a stream -/

theorem valid_of_scan {last : Option Kind} {cursor : Cursor} {t : Token}
    (h : (scan last cursor).outcome = .ok t) (ht : t.kind ≠ .eof) : t.lexeme.Valid := by
  unfold scan at h
  split at h
  · exact valid_of_lexeme h ht
  · exact nomatch h

/-- The tokens of every stream have valid lexemes, except for the end of the text. -/
theorem valid_of_mem_scanAll {last : Option Kind} {cursor : Cursor} {t : Token}
    (h : t ∈ (scanAll last cursor).tokens) (ht : t.kind ≠ .eof) : t.lexeme.Valid := by
  fun_induction scanAll last cursor with
  | case1 => cases h
  | case2 last cursor t' hscan heof =>
    obtain rfl := List.mem_singleton.mp h
    exact absurd heof ht
  | case3 last cursor t' hscan heof s ih =>
    rcases List.mem_cons.mp h with rfl | h
    · exact valid_of_scan hscan ht
    · exact ih h

/-- The tokens of a text have valid lexemes, up to the end of the text. -/
theorem valid_of_tokenize {text : String} {ts : List Token} (h : tokenize text = .ok ts) :
    ∀ t ∈ ts.dropLast, t.lexeme.Valid := by
  have hstream := tokenize_eq_ok_iff.mp h
  have hterm := terminated_ofText text
  rw [hstream] at hterm
  cases hterm with
  | @text init eof hinit _ =>
    rw [List.dropLast_concat]
    intro t ht
    have hmem : t ∈ (scanAll none (Cursor.ofText text)).tokens := by
      show t ∈ (ofText text).tokens
      rw [hstream]
      exact List.mem_append_left [eof] ht
    exact valid_of_mem_scanAll hmem (hinit t ht)

/-! ## Gaps -/

/-- A gap ends before a lexeme. -/
theorem skipGap_spelling {l : Lexeme} {rest : List Char} {quiet : Bool} (p : Position)
    (hl : l.Valid) (hquiet : l.kind = .newline → quiet = false)
    (hrest : startsWith l.kind.continuedBy rest = false) :
    skipGap quiet none p (l.spelling ++ rest) = .upTo ⟨p, l.spelling ++ rest⟩ := by
  obtain ⟨c, cs, hspelling, hlayout, hnewline, hslash⟩ := Lexeme.head_spelling hl
  -- the first character of the lexeme is no blank, and opens no comment
  rw [hspelling, List.cons_append, skipGap, if_neg]
  · simp only [hlayout, Bool.false_or, Bool.and_eq_true, decide_eq_true_eq]
    rintro ⟨hq, hc⟩
    cases hq.symm.trans (hquiet (hnewline.mp hc))
  · -- a star after a slash would continue it
    rintro cs' rfl hstar
    obtain ⟨rfl, hkind⟩ := hslash rfl
    rw [List.nil_append] at hstar
    rw [hkind, hstar] at hrest
    cases hrest

/-- After a gap the scanner reads the lexeme that follows, if that is not continued. -/
theorem scan_spelling {last : Option Kind} {l : Lexeme} {lines : Bool} {g rest : List Char}
    (p : Position) (hg : IsGap lines g)
    (hlines : lines = true → (last = none || last = some .newline : Bool) = true) (hl : l.Valid)
    (hnewline : l.kind = .newline → last ≠ none ∧ last ≠ some .newline)
    (hrest : startsWith l.kind.continuedBy rest = false) :
    scan last ⟨p, g ++ (l.spelling ++ rest)⟩ =
      .token l.kind l.text.toList (p.advanceBy g) l.spelling rest := by
  -- a newline is passed over at the start of the text and after another one
  have hquiet : l.kind = .newline → (last = none || last = some .newline : Bool) = false := by
    intro hk
    simp [hnewline hk]
  simp only [scan]
  rw [skipGap_append hg hlines, skipGap_spelling (p.advanceBy g) hl hquiet hrest]
  exact lexeme_spelling (p.advanceBy g) hl hrest

/-! ## Spelt texts -/

/-- Whether a text spells the given lexemes, where `last` is the kind of the one before
    them. -/
inductive Spells : Option Kind → List Lexeme → List Char → Prop where
  | nil {last : Option Kind} {g : List Char} : IsGap false g → Spells last [] g
  | cons {last : Option Kind} {l : Lexeme} {ls : List Lexeme} {g rest : List Char} :
      IsGap false g → l.Valid → (l.kind = .newline → last ≠ none ∧ last ≠ some .newline) →
      (l.kind = .newline ∨ closes rest = true) → Spells (some l.kind) ls rest →
      Spells last (l :: ls) (g ++ (l.spelling ++ rest))

/-- After a gap at the end of the text the scanner reads the end of the text. -/
theorem scan_gap {last : Option Kind} {lines : Bool} {g : List Char} (p : Position)
    (hg : IsGap lines g)
    (hlines : lines = true → (last = none || last = some .newline : Bool) = true) :
    scan last ⟨p, g⟩ = .token .eof [] (p.advanceBy g) [] [] := by
  have h : skipGap (last = none || last = some .newline) none p (g ++ []) = _ :=
    skipGap_append hg hlines p []
  rw [List.append_nil] at h
  simp only [scan]
  rw [h]
  rfl

/-- A text that spells lexemes is read as tokens with these lexemes, and the end of the
    text. -/
theorem scanAll_of_spells {last : Option Kind} {ls : List Lexeme} {cs : List Char}
    (h : Spells last ls cs) (p : Position) :
    ∃ ts eof, scanAll last ⟨p, cs⟩ = ⟨ts ++ [eof], none⟩ ∧ ts.map Token.lexeme = ls ∧
      eof.kind = .eof := by
  induction h generalizing p with
  | @nil last g hg =>
    have hscan : scan last ⟨p, g⟩ = _ := scan_gap p hg (by simp)
    exact ⟨[], _, scanAll_of_eof (by rw [hscan]; rfl) rfl, rfl, rfl⟩
  | @cons last l ls g rest hg hl hnewline hrest _ ih =>
    have hscan := scan_spelling p hg (by simp) hl hnewline (startsWith_continuedBy hrest)
    have hkind : l.kind ≠ .eof := by
      intro hk
      rw [Lexeme.Valid, hk] at hl
      exact hl
    obtain ⟨ts, eof, hs, hts, heof⟩ := ih ((p.advanceBy g).advanceBy l.spelling)
    -- the first token, and then those of the rest of the text
    have houtcome : (scan last ⟨p, g ++ (l.spelling ++ rest)⟩).outcome =
        .ok ⟨l.kind, l.text, (p.advanceBy g).line, (p.advanceBy g).column⟩ := by
      rw [hscan, Scanned.token, String.ofList_toList]
    have hall := scanAll_of_token houtcome hkind
    rw [hscan] at hall
    refine ⟨⟨l.kind, l.text, (p.advanceBy g).line, (p.advanceBy g).column⟩ :: ts, eof, ?_, ?_, heof⟩
    · simp only [hall, Scanned.token, hs]
      rfl
    · rw [List.map_cons, hts]
      rfl

end VectorLang
