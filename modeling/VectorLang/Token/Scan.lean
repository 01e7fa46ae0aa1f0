import VectorLang.Text.Position
import VectorLang.Text.Quoted
import VectorLang.Token

/-!
# Scanning one token

A token is read in two steps.  `skipGap` passes over what stands before it: blanks,
comments, and the newlines that separate nothing.  `lexeme` then reads the token that the
rest of the text starts with.

Newlines separate statements.  One that follows another newline token, or that no token
stands before, belongs to the gap.

* `length_lexeme_lt`   a token other than the end of the text takes at least one character
* `length_scan_lt`     the same with the gap before it
-/

namespace VectorLang

/-- The part of a text that is still to be read, and the place where it starts. -/
structure Cursor where
  /-- Where the rest starts. -/
  position : Position
  /-- What is still to be read. -/
  rest : List Char
deriving DecidableEq, Inhabited

namespace Cursor

/-- The cursor before a whole text. -/
def ofText (text : String) : Cursor := ⟨Position.start, text.toList⟩

end Cursor

/-- Why no token can be read. -/
inductive LexCause where
  /-- No token starts with this character. -/
  | unexpected (c : Char)
  /-- A comment is not closed. -/
  | openComment
  /-- A string is not closed. -/
  | openString
deriving DecidableEq, Inhabited

/-- A place in the text where no token can be read. -/
structure LexError where
  /-- What is wrong there. -/
  cause : LexCause
  /-- The line of the first character that belongs to no token. -/
  line : Nat
  /-- The column of that character. -/
  column : Nat
deriving DecidableEq, Inhabited

namespace LexError

/-- The character that stands at the place of the error. -/
def character (e : LexError) : Char :=
  match e.cause with
  | .unexpected c => c
  | .openComment => '/'
  | .openString => '"'

/-- The text of the error. -/
def message (e : LexError) : String :=
  let what :=
    match e.cause with
    | .unexpected c => "Unexpected char " ++ Text.quoted (String.singleton c)
    | .openComment => "Unterminated comment"
    | .openString => "Unterminated string literal"
  what ++ " at line " ++ e.line.repr ++ " column " ++ e.column.repr

end LexError

/-! ## Gaps -/

/-- The end of a gap. -/
inductive Gap where
  /-- The next token, or the end of the text, is at `stop`. -/
  | upTo (stop : Cursor)
  /-- The comment that starts at `opening` is not closed; `stop` is the end of the text. -/
  | unclosed (opening : Position) (stop : Cursor)
deriving DecidableEq

/-- A blank between two tokens of a line. -/
def isLayout (c : Char) : Bool :=
  c = ' ' || c = '\t' || c = '\r'

/-- Passes over a gap.  `quiet` tells that newlines belong to it, and `comment` is the
    start of the comment in which the text begins, if it begins in one. -/
def skipGap (quiet : Bool) : (comment : Option Position) → Position → List Char → Gap
  | none, p, [] => .upTo ⟨p, []⟩
  | some opening, p, [] => .unclosed opening ⟨p, []⟩
  | none, p, '/' :: '*' :: cs => skipGap quiet (some p) ((p.advance '/').advance '*') cs
  | none, p, c :: cs =>
    if isLayout c || (quiet && c = '\n') then skipGap quiet none (p.advance c) cs
    else .upTo ⟨p, c :: cs⟩
  | some _, p, '*' :: '/' :: cs => skipGap quiet none ((p.advance '*').advance '/') cs
  | some opening, p, c :: cs => skipGap quiet (some opening) (p.advance c) cs

/-! ## Lexemes -/

/-- What scanning gives: a token or a fault, and the place where the next scan starts. -/
structure Scanned where
  /-- The token, or why there is none. -/
  outcome : Except LexError Token
  /-- Where the next scan starts. -/
  cursor : Cursor

namespace Scanned

/-- The token at `p` that takes up the characters `taken` and carries `text`. -/
def token (kind : Kind) (text : List Char) (p : Position) (taken rest : List Char) : Scanned :=
  ⟨.ok ⟨kind, String.ofList text, p.line, p.column⟩, ⟨p.advanceBy taken, rest⟩⟩

/-- A fault at `p`, after which the next scan starts at `cursor`. -/
def fault (cause : LexCause) (p : Position) (cursor : Cursor) : Scanned :=
  ⟨.error ⟨cause, p.line, p.column⟩, cursor⟩

end Scanned

/-- A character that may stand in a name after its first one. -/
def isNameChar (c : Char) : Bool :=
  c.isUpper || c.isDigit || c = '_'

/-- Whether a text starts with a character of the class `p`. -/
def startsWith (p : Char → Bool) : List Char → Bool
  | [] => false
  | c :: _ => p c

/-- Reads the token that the text at `p` starts with.  A numeral may start with a minus
    sign, a name with a dot.  After a character that starts no token the next scan stops at
    the same character; after a string that is not closed it is at the end of the text. -/
def lexeme (p : Position) : List Char → Scanned
  | [] => .token .eof [] p [] []
  | c :: cs =>
    if c = '\n' then .token .newline [c] p [c] cs
    else if c.isDigit || (c = '-' && startsWith Char.isDigit cs) then
      let numeral := c :: cs.takeWhile Char.isDigit
      .token .int numeral p numeral (cs.dropWhile Char.isDigit)
    else if c = '"' then
      let body := cs.takeWhile (· != '"')
      match cs.dropWhile (· != '"') with
      | [] => .fault .openString p ⟨p.advanceBy (c :: cs), []⟩
      | quote :: rest => .token .string body p (c :: body ++ [quote]) rest
    else if c.isUpper || (c = '.' && startsWith Char.isUpper cs) then
      let word := c :: cs.takeWhile isNameChar
      .token (Kind.ofWord word) word p word (cs.dropWhile isNameChar)
    else
      match Kind.ofSymbol? (c :: cs) with
      | some kind =>
        .token kind kind.spelling p kind.spelling ((c :: cs).drop kind.spelling.length)
      | none => .fault (.unexpected c) p ⟨p, c :: cs⟩

/-- Scans the next token.  `last` is the kind of the token before it, if there is one. -/
def scan (last : Option Kind) (cursor : Cursor) : Scanned :=
  match skipGap (last = none || last = some .newline) none cursor.position cursor.rest with
  | .upTo stop => lexeme stop.position stop.rest
  | .unclosed opening stop => .fault .openComment opening stop

/-! ## Progress -/

private theorem length_dropWhile_le (p : Char → Bool) (cs : List Char) :
    (cs.dropWhile p).length ≤ cs.length :=
  (List.dropWhile_suffix p).length_le

/-- A gap never ends before it starts. -/
theorem length_skipGap_le {quiet : Bool} {comment : Option Position} {p : Position}
    {cs : List Char} {stop : Cursor} (h : skipGap quiet comment p cs = .upTo stop) :
    stop.rest.length ≤ cs.length := by
  fun_induction skipGap quiet comment p cs with
  | case1 => cases h; exact Nat.le_refl _
  | case2 => exact nomatch h
  | case3 p cs ih =>
    have := ih h
    simp only [List.length_cons]
    omega
  | case4 p c cs _ _ ih =>
    have := ih h
    simp only [List.length_cons]
    omega
  | case5 => cases h; exact Nat.le_refl _
  | case6 _ p cs ih =>
    have := ih h
    simp only [List.length_cons]
    omega
  | case7 opening p c cs _ ih =>
    have := ih h
    simp only [List.length_cons]
    omega

/-- A token other than the end of the text takes at least one character. -/
theorem length_lexeme_lt {p : Position} {cs : List Char} {t : Token}
    (h : (lexeme p cs).outcome = .ok t) (ht : t.kind ≠ .eof) :
    (lexeme p cs).cursor.rest.length < cs.length := by
  have hdrop := length_dropWhile_le
  revert h
  fun_cases lexeme p cs with
  | case1 =>
    intro h
    cases h
    exact absurd rfl ht
  | case2 => simp [Scanned.token]
  | case3 c cs =>
    have := hdrop Char.isDigit cs
    simp only [Scanned.token, List.length_cons]
    omega
  | case4 => exact fun h => nomatch h
  | case5 cs _ quote rest hrest =>
    have := hdrop (· != '"') cs
    rw [hrest, List.length_cons] at this
    simp only [Scanned.token, List.length_cons]
    omega
  | case6 c cs =>
    have := hdrop isNameChar cs
    simp only [Scanned.token, List.length_cons]
    omega
  | case7 c cs _ _ _ _ kind hk =>
    have hpos := (Kind.spelling_of_ofSymbol? hk).2
    simp only [Scanned.token, List.length_drop, List.length_cons]
    omega
  | case8 => exact fun h => nomatch h

/-- A token other than the end of the text takes at least one character, whatever gap
    stands before it. -/
theorem length_scan_lt {last : Option Kind} {cursor : Cursor} {t : Token}
    (h : (scan last cursor).outcome = .ok t) (ht : t.kind ≠ .eof) :
    (scan last cursor).cursor.rest.length < cursor.rest.length := by
  unfold scan at h ⊢
  split
  · rename_i stop hgap
    rw [hgap] at h
    exact Nat.lt_of_lt_of_le (length_lexeme_lt h ht) (length_skipGap_le hgap)
  · rename_i opening stop hgap
    rw [hgap] at h
    exact nomatch h

end VectorLang
