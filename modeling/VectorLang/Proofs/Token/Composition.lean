import VectorLang.Proofs.Token.Fault

/-!
# Texts one below the other

The tokens of a text that starts on a new line are those of the text alone, further down.  What
stands above it decides only whether the newline between the two is a token, and a text that can
be read leaves nothing open that could run on into the next line.

* `scanAll_lowered`       the same text at two places in one column
* `scanAll_append`        a text that something follows
* `scanAll_newline`       the newline between two texts
* `tokenize_append_lines` two texts, one below the other
-/

namespace VectorLang

open TokenStream

/-! ## The same text further down -/

/-- A token, `n` lines further down. -/
def Token.lowered (n : Nat) (t : Token) : Token := { t with line := t.line + n }

@[simp] theorem Token.kind_lowered (n : Nat) (t : Token) : (t.lowered n).kind = t.kind := rfl

/-- An error, `n` lines further down. -/
def LexError.lowered (n : Nat) (e : LexError) : LexError := { e with line := e.line + n }

/-- A stream, `n` lines further down. -/
def TokenStream.lowered (n : Nat) (s : TokenStream) : TokenStream :=
  ⟨s.tokens.map (Token.lowered n), s.fault.map (LexError.lowered n)⟩

/-- Whether a position is `n` lines below another one, in the same column. -/
structure Position.IsBelow (n : Nat) (p q : Position) : Prop where
  line : q.line = p.line + n
  column : q.column = p.column

namespace Position.IsBelow

variable {n : Nat} {p q : Position}

theorem advance (h : IsBelow n p q) (c : Char) : IsBelow n (p.advance c) (q.advance c) := by
  by_cases hc : c = '\n'
  · rw [Position.advance, Position.advance, if_pos hc, if_pos hc]
    exact ⟨by simp only [h.line]; omega, rfl⟩
  · rw [Position.advance, Position.advance, if_neg hc, if_neg hc]
    exact ⟨h.line, congrArg (· + 1) h.column⟩

theorem advanceBy (h : IsBelow n p q) (cs : List Char) :
    IsBelow n (p.advanceBy cs) (q.advanceBy cs) := by
  induction cs generalizing p q with
  | nil => exact h
  | cons c cs ih => exact ih (h.advance c)

end Position.IsBelow

/-- A token is read again from the same text further down, and the scanner is as far below. -/
theorem scan_lowered {n : Nat} {last : Option Kind} {cursor : Cursor} {before : List Char}
    {q : Position} {t : Token} (hp : cursor.position.IsAfter before)
    (hq : cursor.position.IsBelow n q) (h : (scan last cursor).outcome = .ok t)
    (ht : t.kind ≠ .eof) :
    ∃ q', (scan last cursor).cursor.position.IsBelow n q' ∧
      scan last ⟨q, cursor.rest⟩ =
        ⟨.ok (t.lowered n), ⟨q', (scan last cursor).cursor.rest⟩⟩ := by
  obtain ⟨g, hrest, hfits, hposition, -⟩ := scan_token_again hp h ht
  have hafter := hp.advanceBy g
  have hbelow := hq.advanceBy g
  refine ⟨(q.advanceBy g).advanceBy t.lexeme.spelling, ?_, ?_⟩
  · rw [hposition]
    exact hbelow.advanceBy t.lexeme.spelling
  · have hread : scan last ⟨q, g ++ (t.lexeme.spelling ++ (scan last cursor).cursor.rest)⟩ = _ :=
      scan_spelling q hfits.gap id hfits.valid hfits.newline hfits.ends
    have htoken : (⟨t.kind, String.ofList t.text.toList, (q.advanceBy g).line,
        (q.advanceBy g).column⟩ : Token) = t.lowered n := by
      rw [String.ofList_toList, hbelow.line, hbelow.column, hafter.line, hafter.column,
        ← hfits.line, ← hfits.column]
      rfl
    rw [hrest, hread, ← htoken]
    rfl

/-- What is read does not depend on the line that the text starts on. -/
theorem scanAll_lowered {n : Nat} {last : Option Kind} {cursor : Cursor} {before : List Char}
    {q : Position} (hp : cursor.position.IsAfter before) (hq : cursor.position.IsBelow n q) :
    scanAll last ⟨q, cursor.rest⟩ = (scanAll last cursor).lowered n := by
  fun_induction scanAll last cursor generalizing q before with
  | case1 last cursor e hscan =>
    obtain ⟨g, rest, hrest, hg, hline, hcolumn, hstands⟩ := stands_of_scan hscan
    have hbelow := hq.advanceBy g
    have hfault := scan_of_stands q hg hstands
    rw [hrest, scanAll_of_error hfault, hbelow.line, hbelow.column, ← hline, ← hcolumn]
    rfl
  | case2 last cursor t hscan ht =>
    obtain ⟨hgap, rfl⟩ := scan_eof_tiles hp hscan ht
    have hafter := hp.advanceBy cursor.rest
    have hbelow := hq.advanceBy cursor.rest
    have heof : scan last ⟨q, cursor.rest⟩ = _ := scan_gap q hgap id
    rw [scanAll_of_eof (congrArg Scanned.outcome heof) rfl, hbelow.line, hbelow.column,
      hafter.line, hafter.column]
    rfl
  | case3 =>
    rename_i last cursor t hscan ht _ ih
    obtain ⟨g, -, -, hafter⟩ := scan_token_tiles hp hscan ht
    obtain ⟨q', hbelow, hread⟩ := scan_lowered hp hq hscan ht
    rw [scanAll_of_token (congrArg Scanned.outcome hread) ht, hread]
    simp only [Token.kind_lowered, ih hafter hbelow]
    rfl

/-! ## A text with another one after it -/

/-- A stream depends on its first scan only. -/
theorem scanAll_congr {last last' : Option Kind} {cursor cursor' : Cursor}
    (h : scan last cursor = scan last' cursor') : scanAll last cursor = scanAll last' cursor' := by
  cases hscan : (scan last cursor).outcome with
  | error e =>
    have hscan' : (scan last' cursor').outcome = .error e := h ▸ hscan
    rw [scanAll_of_error hscan, scanAll_of_error hscan']
  | ok t =>
    have hscan' : (scan last' cursor').outcome = .ok t := h ▸ hscan
    by_cases ht : t.kind = .eof
    · rw [scanAll_of_eof hscan ht, scanAll_of_eof hscan' ht]
    · rw [scanAll_of_token hscan ht, scanAll_of_token hscan' ht, h]

/-- A gap at the start of a text gives no tokens. -/
theorem scanAll_gap {last : Option Kind} {g : List Char}
    (hg : IsGap (last = none || last = some .newline) g) (p : Position) (cs : List Char) :
    scanAll last ⟨p, g ++ cs⟩ = scanAll last ⟨p.advanceBy g, cs⟩ := by
  apply scanAll_congr
  simp only [scan]
  rw [skipGap_append hg id]

/-- The tokens of a text come first in every text that goes on with something that closes the last
    one.  The others are those of what it goes on with. -/
theorem scanAll_append {last : Option Kind} {p : Position} {before cs tail : List Char}
    {ts : List Token} {eof : Token} (hp : p.IsAfter before)
    (h : scanAll last ⟨p, cs⟩ = ⟨ts ++ [eof], none⟩) (heof : eof.kind = .eof)
    (htail : closes tail = true) :
    scanAll last ⟨p, cs ++ tail⟩ =
      ⟨ts ++ (scanAll (kindAfter last ts) ⟨p.advanceBy cs, tail⟩).tokens,
        (scanAll (kindAfter last ts) ⟨p.advanceBy cs, tail⟩).fault⟩ := by
  induction ts generalizing last p before cs with
  | nil =>
    -- there is nothing but a gap
    obtain ⟨hscan, -⟩ := scan_of_tokens (congrArg TokenStream.tokens h)
    obtain ⟨hgap, -⟩ := scan_eof_tiles hp hscan heof
    exact scanAll_gap hgap p tail
  | cons t ts ih =>
    obtain ⟨hscan, hlast, -⟩ := scan_of_tokens (congrArg TokenStream.tokens h)
    have ht : t.kind ≠ .eof := fun ht => by simpa using hlast ht
    obtain ⟨g, hrest, hfits, hposition, hagain⟩ := scan_token_again hp hscan ht
    have hafter := (hp.advanceBy g).advanceBy t.lexeme.spelling
    rw [scanAll_of_token hscan ht] at h
    generalize (scan last ⟨p, cs⟩).cursor = cursor at h hrest hfits hposition
    obtain ⟨q, cs'⟩ := cursor
    simp only at hrest hfits hposition
    subst hrest hposition
    injection h with htokens hfault
    have htext : scanAll (some t.kind) ⟨_, cs'⟩ = ⟨ts ++ [eof], none⟩ :=
      congrArg₂ TokenStream.mk (List.cons.inj htokens).2 hfault
    have hnew := hagain _ (startsWith_append (List.prefix_refl cs') hfits.ends htail)
    simp only [List.append_assoc, Position.advanceBy_append]
    rw [scanAll_of_token (by rw [hnew]) ht, hnew]
    simp only [ih hafter htext]
    rfl

/-! ## The newline between two texts -/

/-- The token of a newline that comes after some tokens, the last of which is of kind `last`.  There
    is none at the start of a text and after another newline. -/
def newlineAfter (last : Option Kind) (line column : Nat) : List Token :=
  if last = none ∨ last = some .newline then [] else [⟨.newline, "\n", line, column⟩]

/-- What comes after a newline is read as a text of its own. -/
theorem scanAll_newline (last : Option Kind) (p : Position) (cs : List Char) :
    scanAll last ⟨p, '\n' :: cs⟩ =
      ⟨newlineAfter last p.line p.column ++ (scanAll none ⟨p.advance '\n', cs⟩).tokens,
        (scanAll none ⟨p.advance '\n', cs⟩).fault⟩ := by
  -- newlines are passed over at the start of a text and after another newline
  have hquiet : scanAll (some .newline) ⟨p.advance '\n', cs⟩ = scanAll none ⟨p.advance '\n', cs⟩ :=
    scanAll_congr rfl
  by_cases hlast : last = none ∨ last = some .newline
  · have hgap : IsGap (last = none || last = some .newline) ['\n'] :=
      .newline (by simpa using hlast) .nil
    have hskip : scanAll last ⟨p, '\n' :: cs⟩ = scanAll last ⟨p.advance '\n', cs⟩ :=
      scanAll_gap hgap p cs
    rw [newlineAfter, if_pos hlast, hskip]
    rcases hlast with rfl | rfl
    · rfl
    · exact hquiet
  · obtain ⟨hnone, hnewline⟩ := not_or.mp hlast
    have hread : scan last ⟨p, [] ++ (Lexeme.spelling ⟨.newline, "\n"⟩ ++ cs)⟩ = _ :=
      scan_spelling p (.nil : IsGap false []) (by simp) rfl (fun _ => ⟨hnone, hnewline⟩)
        (startsWith_continuedBy (Or.inl rfl))
    have hread' : scan last ⟨p, '\n' :: cs⟩ =
        ⟨.ok ⟨.newline, "\n", p.line, p.column⟩, ⟨p.advance '\n', cs⟩⟩ := hread
    rw [newlineAfter, if_neg hlast, scanAll_of_token (congrArg Scanned.outcome hread') (by simp),
      hread']
    simp only [hquiet]
    rfl

/-! ## Texts -/

/-- The kind after the tokens of a text is that of the last one. -/
theorem kindAfter_none (ts : List Token) : kindAfter none ts = ts.getLast?.map Token.kind := by
  induction ts using List.reverseRecOn with
  | nil => rfl
  | append_singleton ts t =>
    rw [kindAfter, List.foldl_concat, List.getLast?_concat, Option.map_some]

/-- The place below a text is the start of a text, further down. -/
theorem isBelow_start {cs : List Char} {p : Position} (h : p.IsAfter cs) :
    Position.start.IsBelow (1 + cs.count '\n') (p.advance '\n') := by
  have hbelow := h.advance '\n'
  refine ⟨?_, ?_⟩
  · rw [hbelow.line, lineAfter, List.count_append]
    simp only [Position.start, List.count_singleton_self]
    omega
  · rw [hbelow.column]
    simp [columnAfter, Position.start]

/-- A text that can be read, and another one below it, are read one after the other: first come the
    tokens of the upper text up to its end, with a newline at that place unless there are none or
    the last of them is one; then what is read of the lower text, whether all of it can be read or
    not, with the same columns and as many lines further down as the upper text takes up. -/
theorem tokenize_append_lines {a : String} {ts : List Token} (h : tokenize a = .ok ts)
    (b : String) :
    ∃ init, ts = init ++ [⟨.eof, "", lineAfter a.toList, columnAfter a.toList⟩] ∧
      (∀ t ∈ init, t.kind ≠ .eof) ∧
      let upper := init ++ newlineAfter (init.getLast?.map Token.kind) (lineAfter a.toList)
        (columnAfter a.toList)
      let below := 1 + a.toList.count '\n'
      TokenStream.ofText (a ++ "\n" ++ b) =
        ⟨upper ++ (TokenStream.ofText b).tokens.map (Token.lowered below),
          (TokenStream.ofText b).fault.map (LexError.lowered below)⟩ ∧
      (∀ us, tokenize b = .ok us →
        tokenize (a ++ "\n" ++ b) = .ok (upper ++ us.map (Token.lowered below))) ∧
      ∀ e, tokenize b = .error e → tokenize (a ++ "\n" ++ b) = .error (e.lowered below) := by
  obtain ⟨pieces, -, -, -, rfl, hpieces, -⟩ := tokenize_tiles h
  refine ⟨pieces.map Piece.token, rfl, List.forall_mem_map.mpr hpieces, ?_⟩
  intro upper below
  have hafter := Position.isAfter_start.advanceBy a.toList
  rw [List.nil_append] at hafter
  have hupper : scanAll none ⟨Position.start, a.toList ++ '\n' :: b.toList⟩ = _ :=
    scanAll_append Position.isAfter_start (tokenize_eq_ok_iff.mp h) rfl rfl
  have hstart : (Cursor.ofText b).position.IsAfter [] := Position.isAfter_start
  have hlower : scanAll none ⟨(Position.start.advanceBy a.toList).advance '\n', b.toList⟩ =
      (ofText b).lowered below :=
    scanAll_lowered hstart (isBelow_start hafter)
  rw [scanAll_newline, hlower, kindAfter_none, hafter.line, hafter.column] at hupper
  have htext : (a ++ "\n" ++ b).toList = a.toList ++ '\n' :: b.toList := by simp
  have hstream : ofText (a ++ "\n" ++ b) = ⟨upper ++ (ofText b).tokens.map (Token.lowered below),
      (ofText b).fault.map (LexError.lowered below)⟩ := by
    rw [ofText, Cursor.ofText, htext, List.append_assoc]
    exact hupper
  refine ⟨hstream, fun us hus => ?_, fun e he => ?_⟩
  · rw [tokenize_eq_ok_iff, hstream, tokenize_eq_ok_iff.mp hus]
    rfl
  · rw [tokenize_eq_error_iff, hstream, tokenize_eq_error_iff.mp he]
    rfl

/-- A text of two lines that ends in a symbol, and below it a minus sign that does not become part
    of the symbol, with a string that is not closed. -/
theorem tokenize_append_lines_arrow :
    tokenize "A/*\n*/<" = .ok [⟨.ident, "A", 1, 1⟩, ⟨.lt, "<", 2, 3⟩, ⟨.eof, "", 2, 4⟩] ∧
    TokenStream.ofText "A/*\n*/<\n-\n\"" =
      ⟨[⟨.ident, "A", 1, 1⟩, ⟨.lt, "<", 2, 3⟩, ⟨.newline, "\n", 2, 4⟩, ⟨.minus, "-", 3, 1⟩,
        ⟨.newline, "\n", 3, 2⟩], some ⟨.openString, 4, 1⟩⟩ ∧
    tokenize "A/*\n*/<\n-\n\"" = .error ⟨.openString, 4, 1⟩ := by
  have hupper : tokenize "A/*\n*/<" =
    .ok [⟨.ident, "A", 1, 1⟩, ⟨.lt, "<", 2, 3⟩, ⟨.eof, "", 2, 4⟩] := by cbv
  have hlower : tokenize "-\n\"" = .error ⟨.openString, 2, 1⟩ := by cbv
  have htokens : (TokenStream.ofText "-\n\"").tokens =
    [⟨.minus, "-", 1, 1⟩, ⟨.newline, "\n", 1, 2⟩] := by cbv
  obtain ⟨init, hinit, -, hstream, -, herror⟩ := tokenize_append_lines hupper "-\n\""
  obtain rfl : [⟨.ident, "A", 1, 1⟩, ⟨.lt, "<", 2, 3⟩] = init := by
    simpa using congrArg List.dropLast hinit
  refine ⟨hupper, ?_, herror _ hlower⟩
  rw [htokens, tokenize_eq_error_iff.mp hlower] at hstream
  exact hstream

end VectorLang
