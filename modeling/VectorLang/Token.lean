/-!
# Tokens

A source text is read as a row of tokens.  A token has a kind, the text that it carries,
and the line and column of its first character.  Kinds of punctuation, operators and key
words have one spelling each (`Kind.spelling`); names, numerals and strings carry their
text.
-/

namespace VectorLang

/-- The kind of a token. -/
inductive Kind where
  | kwBegin
  | kwEnd
  | kwIf
  | kwElse
  | kwWhile
  | kwUntil
  | lparen
  | rparen
  | lbracket
  | rbracket
  | comma
  | plus
  | minus
  | tilde
  | star
  | slash
  | hash
  | lt
  | gt
  | eq
  | assign
  | lte
  | neq
  | gte
  | ident
  | int
  | string
  | newline
  | eof
deriving DecidableEq, Inhabited

namespace Kind

/-- The name of a kind in messages. -/
def name : Kind → String
  | kwBegin => "BEGIN"
  | kwEnd => "END"
  | kwIf => "IF"
  | kwElse => "ELSE"
  | kwWhile => "WHILE"
  | kwUntil => "UNTIL"
  | lparen => "LPAREN"
  | rparen => "RPAREN"
  | lbracket => "LBRACKET"
  | rbracket => "RBRACKET"
  | comma => "COMMA"
  | plus => "PLUS"
  | minus => "MINUS"
  | tilde => "TILDE"
  | star => "STAR"
  | slash => "SLASH"
  | hash => "HASH"
  | lt => "LT"
  | gt => "GT"
  | eq => "EQ"
  | assign => "ASSIGN"
  | lte => "LTE"
  | neq => "NEQ"
  | gte => "GTE"
  | ident => "IDENT"
  | int => "INT"
  | string => "STRING"
  | newline => "NEWLINE"
  | eof => "EOF"

/-- The one spelling of a kind; empty for names, numerals and strings, whose spelling is
    the token's own, and for the end of the text. -/
def spelling : Kind → List Char
  | kwBegin => ['B', 'E', 'G', 'I', 'N']
  | kwEnd => ['E', 'N', 'D']
  | kwIf => ['I', 'F']
  | kwElse => ['E', 'L', 'S', 'E']
  | kwWhile => ['W', 'H', 'I', 'L', 'E']
  | kwUntil => ['U', 'N', 'T', 'I', 'L']
  | lparen => ['(']
  | rparen => [')']
  | lbracket => ['[']
  | rbracket => [']']
  | comma => [',']
  | plus => ['+']
  | minus => ['-']
  | tilde => ['~']
  | star => ['*']
  | slash => ['/']
  | hash => ['#']
  | lt => ['<']
  | gt => ['>']
  | eq => ['=']
  | assign => ['<', '-']
  | lte => ['<', '=']
  | neq => ['<', '>']
  | gte => ['>', '=']
  | newline => ['\n']
  | ident | int | string | eof => []

/-- The kinds that are spelt like names. -/
def keywords : List Kind :=
  [kwBegin, kwEnd, kwIf, kwElse, kwWhile, kwUntil]

/-- The kind of a word: a key word where it is spelt like one, and a name otherwise. -/
def ofWord (word : List Char) : Kind :=
  (keywords.find? (·.spelling == word)).getD ident

/-- The kind of the symbol that a text starts with.  Where one symbol starts another, the
    longer one is taken. -/
def ofSymbol? : List Char → Option Kind
  | '<' :: '-' :: _ => some assign
  | '<' :: '=' :: _ => some lte
  | '<' :: '>' :: _ => some neq
  | '>' :: '=' :: _ => some gte
  | '(' :: _ => some lparen
  | ')' :: _ => some rparen
  | '[' :: _ => some lbracket
  | ']' :: _ => some rbracket
  | ',' :: _ => some comma
  | '+' :: _ => some plus
  | '-' :: _ => some minus
  | '~' :: _ => some tilde
  | '*' :: _ => some star
  | '/' :: _ => some slash
  | '#' :: _ => some hash
  | '<' :: _ => some lt
  | '>' :: _ => some gt
  | '=' :: _ => some eq
  | _ => none

/-- Every symbol that a text can start with is a prefix of it, and not an empty one. -/
theorem spelling_of_ofSymbol? {cs : List Char} {k : Kind} (h : ofSymbol? cs = some k) :
    k.spelling ++ cs.drop k.spelling.length = cs ∧ 0 < k.spelling.length := by
  unfold ofSymbol? at h
  split at h <;> cases h <;> exact ⟨rfl, by decide⟩

end Kind

/-- A token and the place of its first character. -/
structure Token where
  /-- What kind of token this is. -/
  kind : Kind
  /-- The text that the token carries; a string is carried without its quotes. -/
  text : String
  /-- The line of the first character, from 1. -/
  line : Nat
  /-- The column of the first character, from 1. -/
  column : Nat
deriving DecidableEq, Inhabited

end VectorLang
