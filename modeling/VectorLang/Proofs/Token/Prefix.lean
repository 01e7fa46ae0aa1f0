import VectorLang.Proofs.Token.Spelling
import VectorLang.Proofs.Token.Tiling

/-!
# Texts that start with the same tokens

The first tokens of a text come from a first part of it.  They are read again, at the same places,
when that part is followed by something else that closes the last one of them.

* `scanAll_begins`   the first tokens of a stream come from a prefix of the text
-/

namespace VectorLang

open TokenStream

/-- The kind of the last token of a row; `last` where there is none. -/
def kindAfter (last : Option Kind) (ts : List Token) : Option Kind :=
  ts.foldl (fun _ t => some t.kind) last

/-- What a text does not start with, its first part does not either. -/
theorem startsWith_of_begins {q : Char → Bool} {cs rest : List Char} (hbegins : cs <+: rest)
    (hrest : startsWith q rest = false) : startsWith q cs = false := by
  cases cs with
  | nil => rfl
  | cons c cs =>
    obtain ⟨x, rfl⟩ := hbegins
    exact hrest

/-- What a text does not continue, the texts with the same first character do not either. -/
theorem startsWith_append {k : Kind} {cs rest tail : List Char} (hbegins : cs <+: rest)
    (hrest : startsWith k.continuedBy rest = false) (htail : closes tail = true) :
    startsWith k.continuedBy (cs ++ tail) = false := by
  cases cs with
  | nil => exact startsWith_continuedBy (Or.inr htail)
  | cons c cs =>
    have hbegin : startsWith k.continuedBy (c :: cs) = false := startsWith_of_begins hbegins hrest
    exact hbegin

/-- A token is read again where something else comes after it that does not continue it. -/
theorem scan_token_again {last : Option Kind} {cursor : Cursor} {t : Token} {before : List Char}
    (hp : cursor.position.IsAfter before) (h : (scan last cursor).outcome = .ok t)
    (ht : t.kind ≠ .eof) :
    ∃ g, cursor.rest = g ++ (t.lexeme.spelling ++ (scan last cursor).cursor.rest) ∧
      Piece.Fits last before ⟨g, t⟩ (scan last cursor).cursor.rest ∧
      (scan last cursor).cursor.position =
        (cursor.position.advanceBy g).advanceBy t.lexeme.spelling ∧
      ∀ rest, startsWith t.kind.continuedBy rest = false →
        scan last ⟨cursor.position, g ++ (t.lexeme.spelling ++ rest)⟩ =
          ⟨.ok t, ⟨(cursor.position.advanceBy g).advanceBy t.lexeme.spelling, rest⟩⟩ := by
  obtain ⟨g, hrest, hfits, -⟩ := scan_token_tiles hp h ht
  rw [List.append_assoc] at hrest
  have hread {rest : List Char} (hends : startsWith t.kind.continuedBy rest = false) :
      scan last ⟨cursor.position, g ++ (t.lexeme.spelling ++ rest)⟩ =
        .token t.kind t.text.toList (cursor.position.advanceBy g) t.lexeme.spelling rest :=
    scan_spelling cursor.position hfits.gap id hfits.valid hfits.newline hends
  -- the token is the one that was read before
  have hold := hread hfits.ends
  rw [← hrest] at hold
  have houtcome := h
  rw [show scan last cursor = _ from hold] at houtcome
  refine ⟨g, hrest, hfits, congrArg (fun s => s.cursor.position) hold, fun rest hends => ?_⟩
  rw [hread hends]
  exact congrArg (Scanned.mk · _) houtcome

/-- The first tokens of a stream come from a prefix of the text, and from every text that goes on
    after that prefix with something that closes the last one. -/
theorem scanAll_begins {last : Option Kind} {cursor : Cursor} {before : List Char}
    {w rest : List Token} (hp : cursor.position.IsAfter before)
    (h : (scanAll last cursor).tokens = w ++ rest) (hw : ∀ t ∈ w, t.kind ≠ .eof) :
    ∃ cs p, cs <+: cursor.rest ∧ ∀ tail, closes tail = true →
      scanAll last ⟨cursor.position, cs ++ tail⟩ =
        ⟨w ++ (scanAll (kindAfter last w) ⟨p, tail⟩).tokens,
          (scanAll (kindAfter last w) ⟨p, tail⟩).fault⟩ := by
  induction w generalizing last cursor before with
  | nil => exact ⟨[], cursor.position, ⟨cursor.rest, rfl⟩, fun tail _ => rfl⟩
  | cons t w ih =>
    obtain ⟨ht, htail⟩ := List.forall_mem_cons.mp hw
    obtain ⟨hscan, -, hothers⟩ := scan_of_tokens h
    obtain ⟨g, hrest, hfits, hposition, hagain⟩ := scan_token_again hp hscan ht
    have hafter := (hp.advanceBy g).advanceBy t.lexeme.spelling
    rw [← hposition] at hafter
    obtain ⟨cs, p, hbegins, hcs⟩ := ih hafter (hothers ht) htail
    refine ⟨g ++ (t.lexeme.spelling ++ cs), p, ?_, fun tail htail => ?_⟩
    · rw [hrest]
      exact (List.prefix_append_right_inj _).mpr ((List.prefix_append_right_inj _).mpr hbegins)
    · have hnew := hagain _ (startsWith_append hbegins hfits.ends htail)
      have hall := hcs tail htail
      rw [hposition] at hall
      rw [List.append_assoc, List.append_assoc, scanAll_of_token (by rw [hnew]) ht, hnew]
      simp only [hall]
      rfl

end VectorLang
