import VectorLang.Proofs.Reading.Complete
import VectorLang.Proofs.Reading.Sound
import VectorLang.Proofs.Token.Stream

/-!
# How texts are read as programs

The two directions of the parser, put together for a whole text.

* `parse_eq_ok_iff`   the programs that the parser finds in a text are those that its tokens
    are read as
-/

namespace VectorLang

/-- The first token of a stream is what the parser starts at. -/
theorem lookahead_of_terminated {s : TokenStream} (h : s.Terminated) {l : Lookahead}
    (hl : Lookahead.ofStream s = .ok l) :
    l.tokens = s.tokens ∧ l.fault = s.fault ∧ l.Closed := by
  have hlast := h.getLast
  obtain ⟨tokens, fault⟩ := s
  cases tokens with
  | nil =>
    cases fault with
    | none =>
      obtain ⟨_, ht, _⟩ := hlast rfl
      exact nomatch ht
    | some e => exact nomatch hl
  | cons t ts =>
    cases hl
    exact ⟨rfl, rfl, hlast⟩

/-- A text is a program if its tokens are read as one, up to the end of the text. -/
theorem parse_eq_ok_iff {text file : String} {p : Program} :
    parse text file = .ok p ↔
      ∃ ts, tokenize text = .ok ts ∧ ReadsProgram (Source.ofText file text) p ts := by
  have hterm := TokenStream.terminated_ofText text
  simp only [tokenize_eq_ok_iff]
  unfold parse parseStream
  constructor
  · intro h
    split at h
    · cases h
    · rename_i l hl
      obtain ⟨htokens, hfault, hclosed⟩ := lookahead_of_terminated hterm hl
      split at h
      · rename_i l' hp
        cases h
        obtain ⟨w, m, eof, hw, rfl, heof, hr⟩ := Parser.reads_of_program hclosed hp
        -- the parser stops at the end of the text, which is the last token
        have hsplit := htokens.symm.trans hw.tokens
        obtain ⟨hnone, hrest⟩ := hterm.eq_of_append heof hsplit
        refine ⟨w ++ [m.current], ?_, hr⟩
        rw [Lookahead.tokens, hrest] at hsplit
        rw [← hsplit, ← hnone]
      · cases h
  · rintro ⟨ts, hs, hr⟩
    rw [hs]
    cases ts with
    | nil => cases hr
    | cons t ts =>
      obtain ⟨l', hp⟩ := Parser.program_of_reads (n := Parser.fuelFor (t :: ts).length)
        (l := ⟨1, t, ts, none⟩) hr rfl rfl (by simp only [Parser.fuelFor]; omega)
      simp only [Lookahead.ofStream]
      rw [hp]

end VectorLang
