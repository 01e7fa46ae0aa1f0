import VectorLang.Token.Stream

/-!
# Lexemes

A lexeme is what is left of a token when its place is forgotten.  It has one spelling, and
the lexemes that tokens can have are those that are read back from it.

* `valid_of_lexeme`     every token that is read has a valid lexeme
* `lexeme_spelling`     a valid lexeme is read from its spelling, if what follows does not
    continue it
-/

namespace VectorLang

/-- A token without its place. -/
structure Lexeme where
  /-- The kind of the token. -/
  kind : Kind
  /-- The text that it carries. -/
  text : String
deriving DecidableEq

/-- The lexeme of a token. -/
def Token.lexeme (t : Token) : Lexeme := ⟨t.kind, t.text⟩

@[simp] theorem Token.kind_lexeme (t : Token) : t.lexeme.kind = t.kind := rfl

@[simp] theorem Token.text_lexeme (t : Token) : t.lexeme.text = t.text := rfl

/-- Whether a text is a name or a key word: upper-case letters, digits and underscores after
    a letter, with a dot before them or without. -/
def isWord : List Char → Bool
  | '.' :: c :: cs => c.isUpper && cs.all isNameChar
  | c :: cs => c.isUpper && cs.all isNameChar
  | [] => false

/-- Whether a text is a row of digits, with a minus sign before them or without. -/
def isNumeral (cs : List Char) : Bool :=
  !(Numeral.digits cs).isEmpty && (Numeral.digits cs).all Char.isDigit

/-- Whether a kind is that of a symbol. -/
def Kind.isSymbol (k : Kind) : Bool :=
  ofSymbol? k.spelling == some k

namespace Lexeme

/-- The characters that a lexeme is written with. -/
def spelling (l : Lexeme) : List Char :=
  if l.kind = .string then '"' :: (l.text.toList ++ ['"']) else l.text.toList

/-- Whether some token has the lexeme. -/
def Valid (l : Lexeme) : Prop :=
  match l.kind with
  | .int => isNumeral l.text.toList = true
  | .ident => isWord l.text.toList = true ∧ Kind.ofWord l.text.toList = .ident
  | .string => '"' ∉ l.text.toList
  | .eof => False
  | k => l.text.toList = k.spelling

end Lexeme

/-! ## Characters -/

private theorem ne_of_isUpper {c d : Char} (h : c.isUpper = true) (hd : d.isUpper = false) :
    c ≠ d := by
  rintro rfl
  exact nomatch h.symm.trans hd

private theorem isDigit_of_isUpper {c : Char} (h : c.isUpper = true) : c.isDigit = false := by
  have hletter : 'A'.val ≤ c.val := (of_decide_eq_true h).1
  simp only [Char.isDigit, Bool.and_eq_false_iff, decide_eq_false_iff_not]
  exact Or.inr fun hle => absurd (UInt32.le_trans hletter hle) (by decide)

private theorem ne_of_isDigit {c d : Char} (h : c.isDigit = true) (hd : d.isDigit = false) :
    c ≠ d := by
  rintro rfl
  exact nomatch h.symm.trans hd

/-! ## Reading a lexeme -/

/-- The characters that make something longer of a token of a kind, if they follow it: more digits,
    a longer word, a numeral with a sign, a comment, or a symbol of two characters. -/
def Kind.continuedBy : Kind → Char → Bool
  | int | minus => Char.isDigit
  | ident | kwBegin | kwEnd | kwIf | kwElse | kwWhile | kwUntil => isNameChar
  | slash => fun c => c == '*'
  | lt => fun c => c == '-' || c == '=' || c == '>'
  | gt => fun c => c == '='
  | _ => fun _ => false

/-- Whether a text continues no lexeme: it is empty, or starts with a blank, the end of a
    line or a slash. -/
def closes (rest : List Char) : Bool :=
  rest.isEmpty || startsWith [' ', '\t', '\r', '\n', '/'].contains rest

/-- A class of characters that continue some lexeme holds none that closes it. -/
private theorem startsWith_of_closes {q : Char → Bool} {rest : List Char}
    (h : closes rest = true) (hq : [' ', '\t', '\r', '\n', '/'].all (fun d => !q d) = true) :
    startsWith q rest = false := by
  cases rest with
  | nil => rfl
  | cons c rest =>
    have hc : c ∈ [' ', '\t', '\r', '\n', '/'] := by simpa [closes, startsWith] using h
    have hne := List.all_eq_true.mp hq c hc
    rw [Bool.not_eq_true'] at hne
    exact hne

/-- What closes a lexeme continues none, and nothing continues a newline. -/
theorem startsWith_continuedBy {k : Kind} {rest : List Char}
    (h : k = .newline ∨ closes rest = true) : startsWith k.continuedBy rest = false := by
  rcases h with rfl | h
  · cases rest <;> rfl
  · exact startsWith_of_closes h (by cases k <;> decide)

/-- A row of characters of a class is taken up to the first character outside of it. -/
private theorem span_of_startsWith {q : Char → Bool} {cs rest : List Char}
    (hcs : cs.all q = true) (hrest : startsWith q rest = false) :
    (cs ++ rest).takeWhile q = cs ∧ (cs ++ rest).dropWhile q = rest := by
  have hall : ∀ c ∈ cs, q c = true := List.all_eq_true.mp hcs
  rw [List.takeWhile_append_of_pos hall, List.dropWhile_append_of_pos hall]
  cases rest with
  | nil => simp
  | cons c rest =>
    have hc : ¬ q c = true := by simpa [startsWith] using hrest
    rw [List.takeWhile_cons_of_neg hc, List.dropWhile_cons_of_neg hc, List.append_nil]
    exact ⟨rfl, rfl⟩

private theorem lexeme_numeral {cs rest : List Char} (p : Position) (h : isNumeral cs = true)
    (hrest : startsWith Char.isDigit rest = false) :
    lexeme p (cs ++ rest) = .token .int cs p cs rest := by
  simp only [isNumeral, Bool.and_eq_true, Bool.not_eq_true', List.isEmpty_eq_false_iff] at h
  obtain ⟨hne, hall⟩ := h
  cases cs with
  | nil => exact absurd rfl hne
  | cons c ds =>
    -- a minus sign is part of a numeral if a digit follows it
    by_cases hc : c = '-'
    · subst hc
      obtain ⟨htake, hdrop⟩ := span_of_startsWith (q := Char.isDigit) hall hrest
      simp only [Numeral.digits] at hne htake hdrop
      cases ds with
      | nil => exact absurd rfl hne
      | cons d ds =>
        have hd : d.isDigit = true := (List.all_eq_true.mp hall) d List.mem_cons_self
        rw [List.cons_append, lexeme, if_neg (by decide), if_pos (by simp [startsWith, hd]),
          htake, hdrop]
    · have hdigits : Numeral.digits (c :: ds) = c :: ds := by
        unfold Numeral.digits
        split
        · exact absurd (List.cons.inj ‹_›).1 hc
        · rfl
      rw [hdigits, List.all_cons, Bool.and_eq_true] at hall
      obtain ⟨htake, hdrop⟩ := span_of_startsWith hall.2 hrest
      rw [List.cons_append, lexeme, if_neg (ne_of_isDigit hall.1 (by decide)),
        if_pos (by simp [hall.1]), htake, hdrop]

private theorem lexeme_word {cs rest : List Char} (p : Position) (h : isWord cs = true)
    (hrest : startsWith isNameChar rest = false) :
    lexeme p (cs ++ rest) = .token (Kind.ofWord cs) cs p cs rest := by
  unfold isWord at h
  split at h
  -- after the dot the first letter counts as one of the characters of the name
  · rename_i c cs
    rw [Bool.and_eq_true] at h
    obtain ⟨hc, hall⟩ := h
    have hname : (c :: cs).all isNameChar = true := by simp [isNameChar, hc, hall]
    obtain ⟨htake, hdrop⟩ := span_of_startsWith hname hrest
    rw [List.cons_append] at htake hdrop
    simp only [List.cons_append, lexeme, if_neg (show ('.' : Char) ≠ '\n' by decide),
      if_neg (show ('.' : Char) ≠ '"' by decide)]
    rw [if_neg (by simp), if_pos (by simp [startsWith, hc]), htake, hdrop]
  · rename_i c cs _
    rw [Bool.and_eq_true] at h
    obtain ⟨hc, hall⟩ := h
    obtain ⟨htake, hdrop⟩ := span_of_startsWith hall hrest
    rw [List.cons_append, lexeme, if_neg (ne_of_isUpper hc (by decide)),
      if_neg (by simp [isDigit_of_isUpper hc, ne_of_isUpper hc]),
      if_neg (ne_of_isUpper hc (by decide)), if_pos (by simp [hc]), htake, hdrop]
  · exact nomatch h

private theorem lexeme_string {cs rest : List Char} (p : Position) (h : '"' ∉ cs) :
    lexeme p ('"' :: (cs ++ '"' :: rest)) = .token .string cs p ('"' :: (cs ++ ['"'])) rest := by
  have hall : cs.all (· != '"') = true := by
    rw [List.all_eq_true]
    intro c hc
    rw [bne_iff_ne]
    rintro rfl
    exact h hc
  -- the characters are taken up to the closing quote
  have hquote : startsWith (· != '"') ('"' :: rest) = false := rfl
  obtain ⟨htake, hdrop⟩ := span_of_startsWith hall hquote
  simp only [lexeme]
  rw [if_neg (by decide), if_neg (by simp), if_pos trivial, htake, hdrop]
  rfl

/-- A symbol is read as such where what follows makes no longer one of it. -/
private theorem ofSymbol?_append {k : Kind} {rest : List Char} (hk : k.isSymbol = true)
    (hrest : startsWith k.continuedBy rest = false) :
    Kind.ofSymbol? (k.spelling ++ rest) = some k := by
  cases rest with
  | nil =>
    rw [List.append_nil]
    exact beq_iff_eq.mp hk
  | cons c rest =>
    cases k with
    | lt =>
      simp only [startsWith, Kind.continuedBy, Bool.or_eq_false_iff, beq_eq_false_iff_ne] at hrest
      obtain ⟨⟨hminus, hequal⟩, hgreater⟩ := hrest
      simp only [Kind.spelling, List.cons_append, List.nil_append]
      unfold Kind.ofSymbol?
      split <;> simp_all
    | gt =>
      simp only [startsWith, Kind.continuedBy, beq_eq_false_iff_ne] at hrest
      simp only [Kind.spelling, List.cons_append, List.nil_append]
      unfold Kind.ofSymbol?
      split <;> simp_all
    | _ => first | rfl | exact nomatch hk

private theorem lexeme_symbol {k : Kind} {rest : List Char} (p : Position)
    (hk : k.isSymbol = true) (hrest : startsWith k.continuedBy rest = false) :
    lexeme p (k.spelling ++ rest) = .token k k.spelling p k.spelling rest := by
  have hsymbol := ofSymbol?_append hk hrest
  -- a symbol is none of what is tried before it; only a minus sign could start a numeral
  have hdigit : k = .minus → startsWith Char.isDigit rest = false := by
    rintro rfl
    exact hrest
  cases k <;> first
    | exact absurd hk (by decide)
    | (simp only [Kind.spelling, List.cons_append, List.nil_append] at hsymbol ⊢
       rw [lexeme, if_neg (by decide), if_neg (by simp [hdigit]), if_neg (by decide),
         if_neg (by simp), hsymbol]
       rfl)

private theorem lexeme_keyword {k : Kind} {rest : List Char} (p : Position)
    (hk : Kind.keywords.contains k = true) (hrest : startsWith isNameChar rest = false) :
    lexeme p (k.spelling ++ rest) = .token k k.spelling p k.spelling rest := by
  have hword : isWord k.spelling = true ∧ Kind.ofWord k.spelling = k := by
    cases k <;> first
      | exact ⟨rfl, rfl⟩
      | exact absurd hk (by decide)
  have h := lexeme_word p hword.1 hrest
  rwa [hword.2] at h

/-- A valid lexeme of a kind with one spelling is spelt so. -/
private theorem Lexeme.spelling_of_fixed {l : Lexeme} (hl : l.Valid)
    (hk : l.kind.isSymbol = true ∨ Kind.keywords.contains l.kind = true) :
    l.spelling = l.kind.spelling ∧ l.text.toList = l.kind.spelling := by
  obtain ⟨kind, text⟩ := l
  cases kind <;> first
    | exact ⟨hl, hl⟩
    | exact absurd hk (by simp only; decide)

/-- A newline is spelt as the end of a line. -/
theorem Lexeme.Valid.spelling_of_newline {l : Lexeme} (hl : l.Valid) (hk : l.kind = .newline) :
    l.spelling = ['\n'] := by
  obtain ⟨kind, text⟩ := l
  obtain rfl : kind = .newline := hk
  exact hl

/-- A valid lexeme is read from its spelling, if what follows does not continue it. -/
theorem lexeme_spelling {l : Lexeme} {rest : List Char} (p : Position) (hl : l.Valid)
    (hrest : startsWith l.kind.continuedBy rest = false) :
    lexeme p (l.spelling ++ rest) = .token l.kind l.text.toList p l.spelling rest := by
  by_cases hnewline : l.kind = .newline
  · obtain ⟨kind, text⟩ := l
    obtain rfl : kind = .newline := hnewline
    have htext : text.toList = ['\n'] := hl
    simp only [Lexeme.spelling, htext]
    rfl
  by_cases hsymbol : l.kind.isSymbol = true
  · obtain ⟨hspelling, htext⟩ := Lexeme.spelling_of_fixed hl (Or.inl hsymbol)
    rw [hspelling, htext]
    exact lexeme_symbol p hsymbol hrest
  by_cases hkeyword : Kind.keywords.contains l.kind = true
  · obtain ⟨hspelling, htext⟩ := Lexeme.spelling_of_fixed hl (Or.inr hkeyword)
    rw [hspelling, htext]
    have hname : startsWith isNameChar rest = false := by
      cases hkind : l.kind <;> rw [hkind] at hkeyword hrest <;> first
        | exact hrest
        | exact absurd hkeyword (by decide)
    exact lexeme_keyword p hkeyword hname
  obtain ⟨kind, text⟩ := l
  cases kind with
  | int => exact lexeme_numeral p hl hrest
  | ident =>
    have h := lexeme_word p hl.1 hrest
    rwa [hl.2] at h
  | string =>
    have h : lexeme p ('"' :: (text.toList ++ '"' :: rest)) = _ := lexeme_string p hl
    simpa [Lexeme.spelling] using h
  | eof => exact hl.elim
  | newline => exact absurd rfl hnewline
  | kwBegin | kwEnd | kwIf | kwElse | kwWhile | kwUntil => exact absurd rfl hkeyword
  | _ => exact absurd rfl hsymbol

/-- A character of a class without blanks, ends of lines and slashes starts no gap. -/
private theorem starts_no_gap {q : Char → Bool} {c : Char} (hc : q c = true)
    (hq : [' ', '\t', '\r', '\n', '/'].all (fun d => !q d) = true) :
    isLayout c = false ∧ c ≠ '\n' ∧ c ≠ '/' := by
  have hne : ∀ d ∈ [' ', '\t', '\r', '\n', '/'], c ≠ d := by
    rintro d hd rfl
    have := List.all_eq_true.mp hq c hd
    rw [hc] at this
    exact nomatch this
  simp only [List.forall_mem_cons] at hne
  obtain ⟨hspace, htab, hreturn, hnewline, hslash, _⟩ := hne
  exact ⟨by simp [isLayout, hspace, htab, hreturn], hnewline, hslash⟩

/-- The first character of a numeral is a digit or a minus sign. -/
private theorem head_of_isNumeral {cs : List Char} (h : isNumeral cs = true) :
    ∃ c ds, cs = c :: ds ∧ (c.isDigit || c == '-') = true := by
  simp only [isNumeral, Bool.and_eq_true, Bool.not_eq_true', List.isEmpty_eq_false_iff] at h
  obtain ⟨hne, hall⟩ := h
  -- with a sign in front or without
  unfold Numeral.digits at hne hall
  split at hne
  · exact ⟨'-', _, rfl, rfl⟩
  · cases cs with
    | nil => exact absurd rfl hne
    | cons c ds =>
      simp only [List.all_cons, Bool.and_eq_true] at hall
      exact ⟨c, ds, rfl, by simp [hall.1]⟩

/-- The first character of a word is a letter or a dot. -/
private theorem head_of_isWord {cs : List Char} (h : isWord cs = true) :
    ∃ c ds, cs = c :: ds ∧ (c.isUpper || c == '.') = true := by
  unfold isWord at h
  split at h
  · exact ⟨'.', _, rfl, rfl⟩
  · exact ⟨_, _, rfl, by simp [(Bool.and_eq_true_iff.mp h).1]⟩
  · exact nomatch h

/-- A lexeme starts with no blank; only a newline starts with the end of a line, and only
    the symbol that is a slash starts with one. -/
theorem Lexeme.head_spelling {l : Lexeme} (hl : l.Valid) :
    ∃ c cs, l.spelling = c :: cs ∧ isLayout c = false ∧ (c = '\n' ↔ l.kind = .newline) ∧
      (c = '/' → cs = [] ∧ l.kind = .slash) := by
  obtain ⟨kind, text⟩ := l
  cases kind with
  | int =>
    obtain ⟨c, ds, htext, hc⟩ := head_of_isNumeral hl
    obtain ⟨hlayout, hnewline, hslash⟩ :=
      starts_no_gap (q := fun c => c.isDigit || c == '-') hc (by decide)
    exact ⟨c, ds, htext, hlayout, by simp [hnewline], fun h => absurd h hslash⟩
  | ident =>
    obtain ⟨c, ds, htext, hc⟩ := head_of_isWord hl.1
    obtain ⟨hlayout, hnewline, hslash⟩ :=
      starts_no_gap (q := fun c => c.isUpper || c == '.') hc (by decide)
    exact ⟨c, ds, htext, hlayout, by simp [hnewline], fun h => absurd h hslash⟩
  | string => exact ⟨'"', _, rfl, rfl, by simp, fun h => absurd h (by decide)⟩
  | eof => exact hl.elim
  | _ =>
    have htext : text.toList = _ := hl
    exact ⟨_, _, htext, rfl, by simp, by simp⟩

/-! ## Tokens that are read -/

private theorem isNumeral_take {c : Char} {cs : List Char}
    (h : (c.isDigit || (c = '-' && startsWith Char.isDigit cs)) = true) :
    isNumeral (c :: cs.takeWhile Char.isDigit) = true := by
  simp only [Bool.or_eq_true, Bool.and_eq_true, decide_eq_true_eq] at h
  rcases h with hc | ⟨rfl, hcs⟩
  · have hdigits : Numeral.digits (c :: cs.takeWhile Char.isDigit) =
        c :: cs.takeWhile Char.isDigit := by
      unfold Numeral.digits
      split
      · exact absurd (List.cons.inj ‹_›).1 (ne_of_isDigit hc (by decide))
      · rfl
    simp [isNumeral, hdigits, hc]
  · cases cs with
    | nil => exact nomatch hcs
    | cons d ds =>
      have hd : d.isDigit = true := hcs
      simp [isNumeral, Numeral.digits, hd]

private theorem isWord_take {c : Char} {cs : List Char}
    (h : (c.isUpper || (c = '.' && startsWith Char.isUpper cs)) = true) :
    isWord (c :: cs.takeWhile isNameChar) = true := by
  simp only [Bool.or_eq_true, Bool.and_eq_true, decide_eq_true_eq] at h
  rcases h with hc | ⟨rfl, hcs⟩
  · unfold isWord
    split
    · exact absurd (List.cons.inj ‹_›).1 (ne_of_isUpper hc (by decide))
    · rename_i heq
      obtain ⟨rfl, rfl⟩ := List.cons.inj heq
      simp [hc]
    · exact nomatch ‹c :: _ = []›
  · cases cs with
    | nil => exact nomatch hcs
    | cons d ds =>
      have hd : d.isUpper = true := hcs
      have hname : isNameChar d = true := by simp [isNameChar, hd]
      simp [isWord, hname, hd]

/-- The kind of a word is that of a key word that is spelt so, or it is that of a name. -/
private theorem valid_ofWord {cs : List Char} (h : isWord cs = true) :
    Lexeme.Valid ⟨Kind.ofWord cs, String.ofList cs⟩ := by
  cases hfind : Kind.keywords.find? (·.spelling == cs) with
  | none =>
    have hident : Kind.ofWord cs = .ident := by rw [Kind.ofWord, hfind]; rfl
    rw [hident]
    exact ⟨by simpa using h, by simpa using hident⟩
  | some k =>
    have hkind : Kind.ofWord cs = k := by rw [Kind.ofWord, hfind]; rfl
    have hmem := List.mem_of_find?_eq_some hfind
    have hcs : k.spelling = cs := by simpa using List.find?_some hfind
    rw [hkind, ← hcs]
    simp only [Kind.keywords, List.mem_cons, List.not_mem_nil, or_false] at hmem
    rcases hmem with rfl | rfl | rfl | rfl | rfl | rfl <;> rfl

private theorem valid_ofSymbol? {cs : List Char} {k : Kind} (h : Kind.ofSymbol? cs = some k) :
    Lexeme.Valid ⟨k, String.ofList k.spelling⟩ := by
  unfold Kind.ofSymbol? at h
  split at h <;> cases h <;> rfl

/-- Every token that is read has a valid lexeme, unless it is the end of the text. -/
theorem valid_of_lexeme {p : Position} {cs : List Char} {t : Token}
    (h : (lexeme p cs).outcome = .ok t) (ht : t.kind ≠ .eof) : t.lexeme.Valid := by
  revert h
  fun_cases lexeme p cs with
  | case1 =>
    intro h
    cases h
    exact absurd rfl ht
  | case2 =>
    intro h
    cases h
    exact (rfl : (String.ofList ['\n']).toList = Kind.newline.spelling)
  | case3 c cs hnewline hnumeral numeral =>
    intro h
    cases h
    have hvalid : isNumeral numeral = true := isNumeral_take hnumeral
    rwa [← String.toList_ofList (l := numeral)] at hvalid
  | case4 =>
    intro h
    cases h
  | case5 cs body =>
    intro h
    cases h
    have hall : body.all (· != '"') = true := List.all_takeWhile
    have hvalid : '"' ∉ body := fun hmem => by simpa using List.all_eq_true.mp hall _ hmem
    rwa [← String.toList_ofList (l := body)] at hvalid
  | case6 c cs _ _ _ hword word =>
    intro h
    cases h
    exact valid_ofWord (isWord_take hword)
  | case7 c cs _ _ _ _ kind hk =>
    intro h
    cases h
    exact valid_ofSymbol? hk
  | case8 =>
    intro h
    cases h

end VectorLang
