import VectorLang.Token.Scan

/-!
# Gaps between tokens

A gap is made up of blanks, of comments and, where newlines separate nothing, of newlines.  The
scanner passes over exactly these texts.

* `skipGap_append`          a gap is passed over, whatever follows it
* `gap_of_skipGap`          what is passed over is a gap
* `startsLexeme_of_skipGap` what comes after it starts no further gap
* `unclosed_of_skipGap`     where a comment is not closed, a gap stands before it
-/

namespace VectorLang

/-- Whether a text is a comment, with the marks that open and close it.  The first mark that
    could close it does. -/
def IsComment (cs : List Char) : Prop :=
  ∃ body, ¬ ['*', '/'] <:+: body ∧ cs = '/' :: '*' :: (body ++ ['*', '/'])

/-- Whether a text is a gap.  Newlines belong to it only if `lines` is true. -/
inductive IsGap (lines : Bool) : List Char → Prop where
  | nil : IsGap lines []
  | blank {c : Char} {g : List Char} : isLayout c = true → IsGap lines g → IsGap lines (c :: g)
  | newline {g : List Char} : lines = true → IsGap lines g → IsGap lines ('\n' :: g)
  | comment {c g : List Char} : IsComment c → IsGap lines g → IsGap lines (c ++ g)

/-! ## Gaps are passed over -/

/-- The rest of a comment is passed over up to the mark that closes it. -/
theorem skipGap_body {body : List Char} (hbody : ¬ ['*', '/'] <:+: body) (quiet : Bool)
    (opening p : Position) (cs : List Char) :
    skipGap quiet (some opening) p (body ++ '*' :: '/' :: cs) =
      skipGap quiet none (p.advanceBy (body ++ ['*', '/'])) cs := by
  induction body generalizing p with
  | nil => rfl
  | cons c body ih =>
    have htail : ¬ ['*', '/'] <:+: body := fun h => hbody (List.infix_cons h)
    rw [List.cons_append, skipGap, ih htail]
    · rfl
    · -- a star is followed by no slash: the body holds no such mark, nor does it end in half of one
      rintro rest rfl hrest
      cases body with
      | nil => cases hrest
      | cons d body =>
        obtain ⟨rfl, _⟩ := List.cons.inj hrest
        exact hbody ⟨[], body, rfl⟩

/-- A gap is passed over, whatever follows it. -/
theorem skipGap_append {lines quiet : Bool} {g : List Char} (hg : IsGap lines g)
    (hlines : lines = true → quiet = true) (p : Position) (cs : List Char) :
    skipGap quiet none p (g ++ cs) = skipGap quiet none (p.advanceBy g) cs := by
  induction hg generalizing p with
  | nil => rfl
  | @blank c g hc _ ih =>
    rw [List.cons_append, skipGap, if_pos (by simp [hc]), ih]
    · rfl
    · -- a blank opens no comment
      rintro cs rfl
      exact nomatch hc
  | @newline g hnewline _ ih =>
    rw [List.cons_append, skipGap, if_pos (by simp [hlines hnewline]), ih]
    · rfl
    · rintro cs hc
      exact absurd hc (by decide)
  | @comment c g hc _ ih =>
    obtain ⟨body, hbody, rfl⟩ := hc
    have hsplit : '/' :: '*' :: (body ++ ['*', '/']) ++ g ++ cs =
        '/' :: '*' :: (body ++ '*' :: '/' :: (g ++ cs)) := by simp
    rw [hsplit, skipGap, skipGap_body hbody, ih,
      Position.advanceBy_append p ('/' :: '*' :: (body ++ ['*', '/']))]
    rfl

/-! ## What is passed over is a gap -/

/-- Whether a text is the rest of a gap, which may begin in a comment. -/
def IsGapRest (lines : Bool) (comment : Option Position) (g : List Char) : Prop :=
  match comment with
  | none => IsGap lines g
  | some _ => ∃ body g', ¬ ['*', '/'] <:+: body ∧ IsGap lines g' ∧ g = body ++ '*' :: '/' :: g'

/-- A character goes on with a comment unless it is the first one of the mark that closes it. -/
private theorem not_infix_cons {c : Char} {body : List Char} (hbody : ¬ ['*', '/'] <:+: body)
    (hc : ∀ cs, c = '*' → body = '/' :: cs → False) : ¬ ['*', '/'] <:+: c :: body := by
  intro hinfix
  rcases List.infix_cons_iff.mp hinfix with ⟨rest, hrest⟩ | hinfix
  · obtain ⟨rfl, rfl⟩ := List.cons.inj hrest
    exact hc rest rfl rfl
  · exact hbody hinfix

namespace IsGapRest

variable {lines : Bool} {opening : Position} {c : Char} {g : List Char}

/-- The mark that opens a comment, with the rest of a gap that begins in it. -/
theorem opened (h : IsGapRest lines (some opening) g) : IsGap lines ('/' :: '*' :: g) := by
  obtain ⟨body, g', hbody, hg', rfl⟩ := h
  simpa using IsGap.comment ⟨body, hbody, rfl⟩ hg'

theorem closed (h : IsGap lines g) : IsGapRest lines (some opening) ('*' :: '/' :: g) :=
  ⟨[], g, by simp, h, rfl⟩

/-- A character outside of comments. -/
theorem passed (h : IsGap lines g) (hc : (isLayout c || (lines && c = '\n')) = true) :
    IsGap lines (c :: g) := by
  rw [Bool.or_eq_true, Bool.and_eq_true, decide_eq_true_eq] at hc
  rcases hc with hblank | ⟨hlines, rfl⟩
  · exact .blank hblank h
  · exact .newline hlines h

/-- A character of a comment, which is not the first one of the mark that closes it. -/
theorem inside (h : IsGapRest lines (some opening) g)
    (hc : ∀ cs, c = '*' → g = '/' :: cs → False) : IsGapRest lines (some opening) (c :: g) := by
  obtain ⟨body, g', hbody, hg', rfl⟩ := h
  refine ⟨c :: body, g', ?_, hg', rfl⟩
  apply not_infix_cons hbody
  rintro rest rfl rfl
  exact hc _ rfl rfl

end IsGapRest

/-- What is passed over is a gap, or the rest of one. -/
theorem gapRest_of_skipGap {quiet : Bool} {comment : Option Position} {p : Position}
    {cs : List Char} {stop : Cursor} (h : skipGap quiet comment p cs = .upTo stop) :
    ∃ g, IsGapRest quiet comment g ∧ cs = g ++ stop.rest ∧ stop.position = p.advanceBy g := by
  fun_induction skipGap quiet comment p cs with
  | case1 =>
    cases h
    exact ⟨[], .nil, rfl, rfl⟩
  | case2 => cases h
  | case3 p cs ih =>
    obtain ⟨g, hg, hcs, hstop⟩ := ih h
    exact ⟨'/' :: '*' :: g, hg.opened, by rw [hcs]; rfl, hstop⟩
  | case4 p c cs hcomment hc ih =>
    obtain ⟨g, hg, hcs, hstop⟩ := ih h
    exact ⟨c :: g, .passed hg hc, by rw [hcs]; rfl, hstop⟩
  | case5 =>
    cases h
    exact ⟨[], .nil, rfl, rfl⟩
  | case6 opening p cs ih =>
    obtain ⟨g, hg, hcs, hstop⟩ := ih h
    exact ⟨'*' :: '/' :: g, .closed hg, by rw [hcs]; rfl, hstop⟩
  | case7 opening p c cs hc ih =>
    obtain ⟨g, hg, hcs, hstop⟩ := ih h
    refine ⟨c :: g, hg.inside ?_, by rw [hcs]; rfl, hstop⟩
    rintro rest rfl rfl
    exact hc (rest ++ stop.rest) rfl (by rw [hcs]; rfl)

/-- What is passed over is a gap. -/
theorem gap_of_skipGap {quiet : Bool} {p : Position} {cs : List Char} {stop : Cursor}
    (h : skipGap quiet none p cs = .upTo stop) :
    ∃ g, IsGap quiet g ∧ cs = g ++ stop.rest ∧ stop.position = p.advanceBy g :=
  gapRest_of_skipGap h

/-- After a gap there is no comment, no newline that belongs to the gap, and no blank. -/
theorem startsLexeme_of_skipGap {quiet : Bool} {comment : Option Position} {p : Position}
    {cs : List Char} {stop : Cursor} (h : skipGap quiet comment p cs = .upTo stop) :
    (∀ cs, stop.rest ≠ '/' :: '*' :: cs) ∧ (quiet = true → ∀ cs, stop.rest ≠ '\n' :: cs) ∧
      startsWith isLayout stop.rest = false := by
  fun_induction skipGap quiet comment p cs with
  | case1 =>
    cases h
    simp [startsWith]
  | case2 => cases h
  | case5 p c cs hcomment hc =>
    cases h
    refine ⟨?_, ?_, ?_⟩
    · rintro cs' hcs
      obtain ⟨rfl, rfl⟩ := List.cons.inj hcs
      exact hcomment cs' rfl rfl
    · rintro hquiet cs' hcs
      obtain ⟨rfl, rfl⟩ := List.cons.inj hcs
      simp [hquiet] at hc
    · rw [Bool.or_eq_true, not_or, Bool.not_eq_true] at hc
      exact hc.1
  | case3 p cs ih => exact ih h
  | case4 p c cs _ _ ih => exact ih h
  | case6 opening p cs ih => exact ih h
  | case7 opening p c cs _ ih => exact ih h

/-! ## Comments that are not closed -/

/-- The rest of a comment that is not closed is passed over to the end of the text. -/
theorem skipGap_of_unclosed {cs : List Char} (hcs : ¬ ['*', '/'] <:+: cs) (quiet : Bool)
    (opening p : Position) :
    skipGap quiet (some opening) p cs = .unclosed opening ⟨p.advanceBy cs, []⟩ := by
  induction cs generalizing p with
  | nil => rfl
  | cons c cs ih =>
    have htail : ¬ ['*', '/'] <:+: cs := fun h => hcs (List.infix_cons h)
    rw [skipGap, ih htail]
    · rfl
    · rintro rest rfl rfl
      exact hcs ⟨[], rest, rfl⟩

/-- A comment that is not closed has been opened before the text, or it is opened after a gap. -/
private theorem unclosed_cases {quiet : Bool} {comment : Option Position} {p opening : Position}
    {cs : List Char} {stop : Cursor} (h : skipGap quiet comment p cs = .unclosed opening stop) :
    (comment = some opening ∧ ¬ ['*', '/'] <:+: cs) ∨
      ∃ g body, IsGapRest quiet comment g ∧ ¬ ['*', '/'] <:+: body ∧
        cs = g ++ '/' :: '*' :: body ∧ opening = p.advanceBy g := by
  fun_induction skipGap quiet comment p cs with
  | case1 => cases h
  | case2 =>
    cases h
    exact Or.inl ⟨rfl, by simp⟩
  | case3 p cs ih =>
    right
    rcases ih h with ⟨hopening, hcs⟩ | ⟨g, body, hg, hbody, hcs, hopening⟩
    · exact ⟨[], cs, .nil, hcs, rfl, (Option.some.inj hopening).symm⟩
    · exact ⟨'/' :: '*' :: g, body, hg.opened, hbody, by rw [hcs]; rfl, hopening⟩
  | case4 p c cs hcomment hc ih =>
    right
    rcases ih h with ⟨hopening, -⟩ | ⟨g, body, hg, hbody, hcs, hopening⟩
    · cases hopening
    · exact ⟨c :: g, body, .passed hg hc, hbody, by rw [hcs]; rfl, hopening⟩
  | case5 => cases h
  | case6 opening' p cs ih =>
    right
    rcases ih h with ⟨hopening, -⟩ | ⟨g, body, hg, hbody, hcs, hopening⟩
    · cases hopening
    · exact ⟨'*' :: '/' :: g, body, .closed hg, hbody, by rw [hcs]; rfl, hopening⟩
  | case7 opening' p c cs hc ih =>
    rcases ih h with ⟨hopening, hcs⟩ | ⟨g, body, hg, hbody, hcs, hopening⟩
    · exact Or.inl ⟨hopening, not_infix_cons hcs hc⟩
    · refine Or.inr ⟨c :: g, body, hg.inside ?_, hbody, by rw [hcs]; rfl, hopening⟩
      rintro rest rfl rfl
      exact hc (rest ++ '/' :: '*' :: body) rfl (by rw [hcs]; rfl)

/-- A comment that is not closed is opened after a gap. -/
theorem unclosed_of_skipGap {quiet : Bool} {p opening : Position} {cs : List Char} {stop : Cursor}
    (h : skipGap quiet none p cs = .unclosed opening stop) :
    ∃ g body, IsGap quiet g ∧ ¬ ['*', '/'] <:+: body ∧ cs = g ++ '/' :: '*' :: body ∧
      opening = p.advanceBy g := by
  rcases unclosed_cases h with ⟨hnone, -⟩ | hgap
  · cases hnone
  · exact hgap

end VectorLang
