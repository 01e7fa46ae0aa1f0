import VectorLang.Proofs.Token.Prefix

/-!
# Where scanning stops

A text that cannot be read has a first place where no token starts.  What stands there tells why:
a character that starts no token, a dot that no letter follows, or a string or a comment that is
never closed.  The text up to that place can be read, with the same tokens, and a text that the
scanner reads up to such a place cannot be read.

* `stands_of_scan`     what stands where a scan fails
* `scan_of_stands`     a scan fails where it comes to such a place
* `fault_pinpointed`   whole texts
-/

namespace VectorLang

open TokenStream

/-! ## Places in a text -/

/-- The column of a place in the same line is larger by the characters between. -/
theorem columnAfter_append {u v : List Char} (hv : '\n' ∉ v) :
    columnAfter (u ++ v) = columnAfter u + v.length := by
  have hall : ∀ c ∈ v.reverse, (c != '\n') = true := by
    intro c hc
    rw [bne_iff_ne]
    rintro rfl
    exact hv (List.mem_reverse.mp hc)
  rw [columnAfter, columnAfter, List.reverse_append, List.takeWhile_append_of_pos hall]
  simp only [List.length_append, List.length_reverse]
  omega

/-- Two places of one text are told apart by their lines and columns. -/
private theorem eq_of_append {u v : List Char} (hline : lineAfter (u ++ v) = lineAfter u)
    (hcolumn : columnAfter (u ++ v) = columnAfter u) : u ++ v = u := by
  have hv : '\n' ∉ v := by
    simp only [lineAfter, List.count_append] at hline
    exact List.count_eq_zero.mp (by omega)
  rw [columnAfter_append hv] at hcolumn
  rw [List.eq_nil_of_length_eq_zero (l := v) (by omega), List.append_nil]

/-- A place of a text is told by its line and column. -/
theorem eq_of_place {u v cs : List Char} (hu : u <+: cs) (hv : v <+: cs)
    (hline : lineAfter u = lineAfter v) (hcolumn : columnAfter u = columnAfter v) : u = v := by
  rcases List.prefix_or_prefix_of_prefix hu hv with ⟨w, rfl⟩ | ⟨w, rfl⟩
  · exact (eq_of_append hline.symm hcolumn.symm).symm
  · exact eq_of_append hline hcolumn

/-! ## What stands at a fault -/

/-- Whether no token starts with a character, whatever comes after it. -/
def StartsNone (c : Char) : Prop :=
  ∀ l : Lexeme, l.Valid → l.spelling.head? ≠ some c

/-- Why no token starts where a text is left.  Blanks are passed over. -/
inductive LexCause.Stands : LexCause → List Char → Prop where
  | character {c : Char} {cs : List Char} :
      isLayout c = false → StartsNone c → Stands (.unexpected c) (c :: cs)
  | dot {cs : List Char} :
      startsWith Char.isUpper cs = false → Stands (.unexpected '.') ('.' :: cs)
  | openString {cs : List Char} : '"' ∉ cs → Stands .openString ('"' :: cs)
  | openComment {cs : List Char} :
      ¬ ['*', '/'] <:+: cs → Stands .openComment ('/' :: '*' :: cs)

/-- The character that is reported is the first one there. -/
theorem LexCause.Stands.head? {e : LexError} {cs : List Char} (h : e.cause.Stands cs) :
    cs.head? = some e.character := by
  obtain ⟨cause, line, column⟩ := e
  cases h <;> rfl

/-- Each of these lexemes is valid, so that its first character starts a token. -/
private theorem head_ne_of_startsNone {c : Char} (h : StartsNone c) :
    c ≠ '\n' ∧ c ≠ '"' ∧ c ≠ '.' ∧ c ≠ '/' := by
  refine ⟨?_, ?_, ?_, ?_⟩
  · rintro rfl
    exact h ⟨.newline, "\n"⟩ rfl rfl
  · rintro rfl
    exact h ⟨.string, ""⟩ (by simp [Lexeme.Valid]) rfl
  · rintro rfl
    exact h ⟨.ident, ".A"⟩ ⟨rfl, rfl⟩ rfl
  · rintro rfl
    exact h ⟨.slash, "/"⟩ rfl rfl

/-! ## Where a scan fails -/

/-- The characters that symbols start with. -/
private def symbolHeads : List Char :=
  ['(', ')', '[', ']', ',', '+', '-', '~', '*', '/', '#', '<', '>', '=']

/-- Whether a text starts with a symbol is told by its first character. -/
private theorem ofSymbol?_eq_none {c : Char} {cs : List Char} :
    Kind.ofSymbol? (c :: cs) = none ↔ c ∉ symbolHeads := by
  constructor
  · intro h hmem
    unfold Kind.ofSymbol? at h
    split at h
    case h_19 =>
      simp only [symbolHeads, List.mem_cons, List.not_mem_nil, or_false] at hmem
      simp_all
    all_goals cases h
  · intro hmem
    unfold Kind.ofSymbol?
    split
    case h_19 => rfl
    all_goals
      rename_i heq
      cases heq
      exact absurd (by decide) hmem

/-- A character, other than a dot, that nothing is read from starts no token. -/
private theorem startsNone_of_lexeme {c : Char} {cs : List Char} (hnewline : c ≠ '\n')
    (hdigit : c.isDigit = false) (hquote : c ≠ '"') (hupper : c.isUpper = false) (hdot : c ≠ '.')
    (hsymbol : Kind.ofSymbol? (c :: cs) = none) : StartsNone c := by
  intro l hl hhead
  have hnone := ofSymbol?_eq_none.mp hsymbol
  obtain ⟨d, ds, hspelling, -⟩ := Lexeme.head_spelling hl
  rw [hspelling] at hhead
  obtain rfl := Option.some.inj hhead
  -- the lexeme would be read from its spelling
  have hends : startsWith l.kind.continuedBy [] = false := rfl
  have hread := lexeme_spelling Position.start hl hends
  have hminus : d ≠ '-' := by
    rintro rfl
    exact hnone (by decide)
  rw [hspelling, List.append_nil, lexeme, if_neg hnewline, if_neg (by simp [hdigit, hminus]),
    if_neg hquote, if_neg (by simp [hupper, hdot]), ofSymbol?_eq_none.mpr hnone] at hread
  cases hread

/-- Where no token is read from a text that starts with no blank, it is told why. -/
theorem lexeme_error {p : Position} {cs : List Char} {e : LexError}
    (h : (lexeme p cs).outcome = .error e) (hlayout : startsWith isLayout cs = false) :
    e.line = p.line ∧ e.column = p.column ∧ e.cause.Stands cs := by
  revert h
  fun_cases lexeme p cs with
  | case4 cs hnil =>
    intro h
    cases h
    refine ⟨rfl, rfl, .openString fun hmem => ?_⟩
    simpa using List.dropWhile_eq_nil_iff.mp hnil _ hmem
  | case8 c cs hnewline hnumeral hquote hword hsymbol =>
    intro h
    cases h
    refine ⟨rfl, rfl, ?_⟩
    simp only [Bool.or_eq_true, not_or, Bool.not_eq_true, Bool.and_eq_true, decide_eq_true_eq,
      not_and] at hnumeral hword
    by_cases hdot : c = '.'
    · subst hdot
      exact .dot (hword.2 rfl)
    · exact .character hlayout
        (startsNone_of_lexeme hnewline hnumeral.1 hquote hword.1 hdot hsymbol)
  | _ =>
    intro h
    cases h

/-- Where a scan fails, a gap is passed over, and the error tells why no token starts after it. -/
theorem stands_of_scan {last : Option Kind} {cursor : Cursor} {e : LexError}
    (h : (scan last cursor).outcome = .error e) :
    ∃ g rest, cursor.rest = g ++ rest ∧ IsGap (last = none || last = some .newline) g ∧
      e.line = (cursor.position.advanceBy g).line ∧
      e.column = (cursor.position.advanceBy g).column ∧ e.cause.Stands rest := by
  unfold scan at h
  split at h
  · rename_i stop hgap
    obtain ⟨g, hg, hrest, hstop⟩ := gap_of_skipGap hgap
    obtain ⟨-, -, hlayout⟩ := startsLexeme_of_skipGap hgap
    obtain ⟨hline, hcolumn, hstands⟩ := lexeme_error h hlayout
    exact ⟨g, stop.rest, hrest, hg, by rw [hline, hstop], by rw [hcolumn, hstop], hstands⟩
  · rename_i opening stop hgap
    cases h
    obtain ⟨g, body, hg, hbody, hrest, hopening⟩ := unclosed_of_skipGap hgap
    exact ⟨g, _, hrest, hg, by rw [hopening], by rw [hopening], .openComment hbody⟩

/-! ## Scans that fail -/

/-- A gap ends at a character that belongs to none. -/
private theorem skipGap_stop {c : Char} {cs : List Char} (quiet : Bool) (p : Position)
    (hlayout : isLayout c = false) (hnewline : c ≠ '\n') (hslash : c ≠ '/') :
    skipGap quiet none p (c :: cs) = .upTo ⟨p, c :: cs⟩ := by
  rw [skipGap, if_neg (by simp [hlayout, hnewline])]
  rintro rest rfl
  exact absurd rfl hslash

/-- Nothing is read from a text whose first character starts no token. -/
private theorem lexeme_of_startsNone {c : Char} (hlayout : isLayout c = false) (h : StartsNone c)
    (p : Position) (cs : List Char) :
    (lexeme p (c :: cs)).outcome = .error ⟨.unexpected c, p.line, p.column⟩ := by
  obtain ⟨-, hquote, hdot, hslash⟩ := head_ne_of_startsNone h
  have hcomment : ∀ cs', c :: cs ≠ '/' :: '*' :: cs' := by
    rintro cs' heq
    exact hslash (List.cons.inj heq).1
  cases hread : (lexeme p (c :: cs)).outcome with
  | ok t =>
    -- its lexeme would start with the character
    exfalso
    by_cases ht : t.kind = .eof
    · cases lexeme_of_eof hread ht
    · have hvalid := valid_of_lexeme hread ht
      obtain ⟨htiles, -⟩ := lexeme_tiles hread ht hcomment
      obtain ⟨d, ds, hspelling, -⟩ := Lexeme.head_spelling hvalid
      rw [hspelling] at htiles
      obtain ⟨rfl, -⟩ := List.cons.inj htiles
      exact h t.lexeme hvalid (by rw [hspelling]; rfl)
  | error e =>
    obtain ⟨cause, line, column⟩ := e
    obtain ⟨rfl, rfl, hstands⟩ := lexeme_error hread hlayout
    cases hstands with
    | character => rfl
    | dot => exact absurd rfl hdot
    | openString => exact absurd rfl hquote
    | openComment => exact absurd rfl hslash

/-- A scan that comes to such a place fails there. -/
theorem scan_of_stands {last : Option Kind} {g rest : List Char} {cause : LexCause} (p : Position)
    (hg : IsGap (last = none || last = some .newline) g) (h : cause.Stands rest) :
    (scan last ⟨p, g ++ rest⟩).outcome =
      .error ⟨cause, (p.advanceBy g).line, (p.advanceBy g).column⟩ := by
  simp only [scan]
  rw [skipGap_append hg id]
  cases h with
  | character hlayout hc =>
    obtain ⟨hnewline, -, -, hslash⟩ := head_ne_of_startsNone hc
    rw [skipGap_stop _ _ hlayout hnewline hslash]
    exact lexeme_of_startsNone hlayout hc _ _
  | dot hupper =>
    rw [skipGap_stop _ _ (by decide) (by decide) (by decide)]
    simp only [lexeme]
    rw [if_neg (by decide), if_neg (by simp), if_neg (by decide), if_neg (by simp [hupper])]
    rfl
  | @openString cs hquote =>
    rw [skipGap_stop _ _ (by decide) (by decide) (by decide)]
    have hdrop : cs.dropWhile (· != '"') = [] := by
      rw [List.dropWhile_eq_nil_iff]
      rintro c hc
      rw [bne_iff_ne]
      rintro rfl
      exact hquote hc
    simp only [lexeme]
    rw [if_neg (by decide), if_neg (by simp), if_pos trivial, hdrop]
    rfl
  | openComment hbody =>
    rw [skipGap, skipGap_of_unclosed hbody]
    rfl

/-! ## Streams -/

/-- A stream with a fault, cut there: the text before the fault gives the same tokens, and ends at
    that place. -/
theorem scanAll_cut {last : Option Kind} {cursor : Cursor} {before : List Char} {e : LexError}
    (hp : cursor.position.IsAfter before) (h : (scanAll last cursor).fault = some e) :
    ∃ cs rest, cursor.rest = cs ++ rest ∧ e.line = lineAfter (before ++ cs) ∧
      e.column = columnAfter (before ++ cs) ∧ e.cause.Stands rest ∧
      scanAll last ⟨cursor.position, cs⟩ =
        ⟨(scanAll last cursor).tokens ++ [⟨.eof, "", e.line, e.column⟩], none⟩ := by
  fun_induction scanAll last cursor generalizing before with
  | case1 last cursor e' hscan =>
    obtain rfl := Option.some.inj h
    obtain ⟨g, rest, hrest, hg, hline, hcolumn, hstands⟩ := stands_of_scan hscan
    have hafter := hp.advanceBy g
    refine ⟨g, rest, hrest, by rw [hline, hafter.line], by rw [hcolumn, hafter.column], hstands, ?_⟩
    have heof : scan last ⟨cursor.position, g⟩ = _ := scan_gap cursor.position hg id
    rw [hline, hcolumn]
    exact scanAll_of_eof (by rw [heof]; rfl) rfl
  | case2 => cases h
  | case3 =>
    rename_i last cursor t hscan ht _ ih
    obtain ⟨g, hrest, hfits, hposition, hagain⟩ := scan_token_again hp hscan ht
    have hafter := (hp.advanceBy g).advanceBy t.lexeme.spelling
    rw [← hposition] at hafter
    obtain ⟨cs, rest, hcs, hline, hcolumn, hstands, hall⟩ := ih hafter h
    -- what the text goes on with is a first part of what it went on with, or nothing
    have hends := hfits.ends
    rw [hcs] at hends
    have hnew := hagain cs (startsWith_of_begins (List.prefix_append cs rest) hends)
    refine ⟨g ++ (t.lexeme.spelling ++ cs), rest, ?_, ?_, ?_, hstands, ?_⟩
    · rw [hrest, hcs]
      simp only [List.append_assoc]
    · rw [hline]
      simp only [List.append_assoc]
    · rw [hcolumn]
      simp only [List.append_assoc]
    · rw [scanAll_of_token (by rw [hnew]) ht, hnew, ← hposition]
      simp only [hall]
      rfl

/-- Where a token is read from a text and from a first part of it, the scanner comes to the same
    place in both. -/
private theorem scan_both {last : Option Kind} {p : Position} {before cs rest : List Char}
    {t : Token} (hp : p.IsAfter before) (h : (scan last ⟨p, cs⟩).outcome = .ok t)
    (h' : (scan last ⟨p, cs ++ rest⟩).outcome = .ok t) (ht : t.kind ≠ .eof) :
    ∃ u q cs', cs = u ++ cs' ∧ q.IsAfter (before ++ u) ∧ (scan last ⟨p, cs⟩).cursor = ⟨q, cs'⟩ ∧
      (scan last ⟨p, cs ++ rest⟩).cursor = ⟨q, cs' ++ rest⟩ := by
  obtain ⟨g, hrest, hfits, hposition, -⟩ := scan_token_again hp h ht
  obtain ⟨g', hrest', hfits', hposition', -⟩ := scan_token_again hp h' ht
  generalize (scan last ⟨p, cs⟩).cursor = cursor at *
  generalize (scan last ⟨p, cs ++ rest⟩).cursor = cursor' at *
  obtain ⟨q, cs₁⟩ := cursor
  obtain ⟨q', cs₂⟩ := cursor'
  simp only at hrest hrest' hposition hposition'
  -- the token stands at one place, so that the same gap is passed over
  have hg' : before ++ g' <+: before ++ (cs ++ rest) := ⟨_, by rw [hrest', List.append_assoc]⟩
  have hg : before ++ g <+: before ++ (cs ++ rest) :=
    ⟨_, by rw [hrest, List.append_assoc, List.append_assoc]⟩
  have hsame : before ++ g' = before ++ g :=
    eq_of_place hg' hg (by rw [← hfits'.line, ← hfits.line])
      (by rw [← hfits'.column, ← hfits.column])
  obtain rfl := List.append_cancel_left hsame
  subst hrest hposition hposition'
  simp only [List.append_assoc, List.append_cancel_left_eq] at hrest'
  refine ⟨g' ++ t.lexeme.spelling, _, cs₁, (List.append_assoc _ _ _).symm, ?_, rfl, by rw [hrest']⟩
  rw [← List.append_assoc]
  exact (hp.advanceBy g').advanceBy t.lexeme.spelling

/-- A stream whose tokens lead to a place where no token starts ends in a fault there. -/
theorem scanAll_reaches {last : Option Kind} {p : Position} {before cs rest : List Char}
    {ts : List Token} {eof : Token} {cause : LexCause} (hp : p.IsAfter before)
    (hcs : scanAll last ⟨p, cs⟩ = ⟨ts ++ [eof], none⟩)
    (hts : ts <+: (scanAll last ⟨p, cs ++ rest⟩).tokens) (h : cause.Stands rest) :
    (scanAll last ⟨p, cs ++ rest⟩).fault =
      some ⟨cause, lineAfter (before ++ cs), columnAfter (before ++ cs)⟩ := by
  have heof : eof.kind = .eof := by
    have hterm := terminated_scanAll last ⟨p, cs⟩
    rw [hcs] at hterm
    obtain ⟨t, ht, hkind⟩ := hterm.getLast rfl
    rw [List.getLast?_concat, Option.mem_some] at ht
    rwa [ht]
  induction ts generalizing last p before cs with
  | nil =>
    -- the text before the place is a gap
    obtain ⟨hscan, -⟩ := scan_of_tokens (congrArg TokenStream.tokens hcs)
    obtain ⟨hgap, -⟩ := scan_eof_tiles hp hscan heof
    have hafter := hp.advanceBy cs
    rw [scanAll_of_error (scan_of_stands p hgap h), hafter.line, hafter.column]
  | cons t ts ih =>
    obtain ⟨others, hothers⟩ := hts
    obtain ⟨hscan, hlast, -⟩ := scan_of_tokens (congrArg TokenStream.tokens hcs)
    obtain ⟨hscan', -, htail⟩ := scan_of_tokens hothers.symm
    have ht : t.kind ≠ .eof := fun ht => by simpa using hlast ht
    obtain ⟨u, q, cs', rfl, hafter, hcursor, hcursor'⟩ := scan_both hp hscan hscan' ht
    rw [scanAll_of_token hscan ht, hcursor] at hcs
    rw [scanAll_of_token hscan' ht, hcursor']
    rw [hcursor'] at htail
    injection hcs with htokens hfault
    have hcs' : scanAll (some t.kind) ⟨q, cs'⟩ = ⟨ts ++ [eof], none⟩ :=
      congrArg₂ TokenStream.mk (List.cons.inj htokens).2 hfault
    rw [ih hafter hcs' ⟨others, (htail ht).symm⟩, List.append_assoc]

/-! ## Texts -/

/-- An error of the scanner tells the first place of the text where no token starts: the text up
    to that place is read as the tokens before the error, and what stands there tells why.
    Conversely a text cannot be read whose tokens lead to such a place. -/
theorem fault_pinpointed (text : String) :
    (∀ e, tokenize text = .error e → ∃ k,
      text.toList[k]? = some e.character ∧
      e.line = lineAfter (text.toList.take k) ∧ e.column = columnAfter (text.toList.take k) ∧
      tokenize (String.ofList (text.toList.take k)) =
        .ok ((TokenStream.ofText text).tokens ++ [⟨.eof, "", e.line, e.column⟩]) ∧
      e.cause.Stands (text.toList.drop k)) ∧
    ∀ k ts eof cause, tokenize (String.ofList (text.toList.take k)) = .ok (ts ++ [eof]) →
      ts <+: (TokenStream.ofText text).tokens → LexCause.Stands cause (text.toList.drop k) →
      tokenize text =
        .error ⟨cause, lineAfter (text.toList.take k), columnAfter (text.toList.take k)⟩ := by
  constructor
  · intro e h
    obtain ⟨cs, rest, htext, hline, hcolumn, hstands, hall⟩ :=
      scanAll_cut Position.isAfter_start (tokenize_eq_error_iff.mp h)
    have hcut : text.toList = cs ++ rest := htext
    refine ⟨cs.length, ?_, ?_, ?_, ?_, ?_⟩
    · rw [hcut, List.getElem?_append_right (Nat.le_refl _), Nat.sub_self, ← List.head?_eq_getElem?,
        hstands.head?]
    · rw [hcut, List.take_left]
      exact hline
    · rw [hcut, List.take_left]
      exact hcolumn
    · rw [hcut, List.take_left, tokenize_eq_ok_iff, ofText, Cursor.ofText, String.toList_ofList]
      exact hall
    · rw [hcut, List.drop_left]
      exact hstands
  · intro k ts eof cause hcs hts h
    rw [tokenize_eq_ok_iff, ofText, Cursor.ofText, String.toList_ofList] at hcs
    have hsplit : Cursor.ofText text =
        ⟨Position.start, text.toList.take k ++ text.toList.drop k⟩ := by
      rw [List.take_append_drop]
      rfl
    rw [ofText, hsplit] at hts
    rw [tokenize_eq_error_iff, ofText, hsplit]
    exact scanAll_reaches Position.isAfter_start hcs hts h

/-- A fault in a text whose last two characters would close a comment, were they not part of the
    mark that opens it. -/
theorem fault_pinpointed_comment :
    tokenize "A//*/" = .error ⟨.openComment, 1, 3⟩ ∧ ∃ k,
      "A//*/".toList[k]? = some '/' ∧
      tokenize (String.ofList ("A//*/".toList.take k)) =
        .ok [⟨.ident, "A", 1, 1⟩, ⟨.slash, "/", 1, 2⟩, ⟨.eof, "", 1, 3⟩] := by
  have h : tokenize "A//*/" = .error ⟨.openComment, 1, 3⟩ :=
    (fault_pinpointed "A//*/").2 2 [⟨.ident, "A", 1, 1⟩, ⟨.slash, "/", 1, 2⟩] ⟨.eof, "", 1, 3⟩
      .openComment (by cbv) ⟨[], by cbv⟩ (.openComment (by decide))
  obtain ⟨k, hcharacter, -, -, hcut, -⟩ := (fault_pinpointed "A//*/").1 _ h
  exact ⟨h, k, hcharacter, by rw [hcut]; cbv⟩

/-- The two characters for which it does not suffice to ask whether a token starts with them: a
    dot that no letter follows is refused although there are names that start with a dot, and no
    token starts with a blank although a text with blanks can be read. -/
theorem fault_at_dot :
    tokenize ". X" = .error ⟨.unexpected '.', 1, 1⟩ ∧
    (∀ k, ". X".toList[k]? = some '.' →
      (∀ c cs, ". X".toList.drop k = c :: cs → ¬ StartsNone c) ∧
      (∀ cs, ". X".toList.drop k ≠ '"' :: cs) ∧ ∀ cs, ". X".toList.drop k ≠ '/' :: '*' :: cs) ∧
    tokenize "A" = .ok [⟨.ident, "A", 1, 1⟩, ⟨.eof, "", 1, 2⟩] ∧
    "A B".toList.drop 1 = [' ', 'B'] ∧ StartsNone ' ' ∧
    tokenize "A B" = .ok [⟨.ident, "A", 1, 1⟩, ⟨.ident, "B", 1, 3⟩, ⟨.eof, "", 1, 4⟩] := by
  refine ⟨by cbv, ?_, by cbv, by decide, ?_, by cbv⟩
  · intro k hk
    -- the dot is the first character
    have hdrop : ". X".toList.drop k = ['.', ' ', 'X'] := by
      rcases k with _ | _ | _ | k
      · rfl
      all_goals simp at hk
    rw [hdrop]
    refine ⟨?_, by simp, by simp⟩
    rintro c cs heq hnone
    obtain ⟨rfl, -⟩ := List.cons.inj heq
    exact hnone ⟨.ident, ".X"⟩ ⟨rfl, rfl⟩ rfl
  · intro l hl hhead
    obtain ⟨c, cs, hspelling, hlayout, -⟩ := Lexeme.head_spelling hl
    rw [hspelling] at hhead
    obtain rfl := Option.some.inj hhead
    cases hlayout

end VectorLang
