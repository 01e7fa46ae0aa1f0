import VectorLang.Text.Lines
import VectorLang.Text.Numeral
import VectorLang.Token.Stream
import VectorLang.Tree

/-!
# From tokens to trees

The grammar, where `*` repeats and `?` makes optional:

    program    : BEGIN IDENT NEWLINE statements END NEWLINE? EOF
    function   : BEGIN IDENT (LPAREN IDENT (COMMA IDENT)* RPAREN)? NEWLINE statements END
    statements : (statement NEWLINE)+
    statement  : function | loop | conditional | assignment | expression
    loop       : (WHILE | UNTIL) comparison NEWLINE statements END
    conditional: IF comparison NEWLINE statements (ELSE NEWLINE statements)? END
    comparison : expression (LT | LTE | EQ | NEQ | GT | GTE) expression
    assignment : IDENT ASSIGN expression?
    expression : term ((PLUS | MINUS) term)*
    term       : factor ((STAR | SLASH) factor)*
    factor     : TILDE vector | HASH vector | LPAREN expression RPAREN | vector
    vector     : element element*
    element    : INT | STRING | call | reference | factor
    reference  : IDENT (LBRACKET expression RBRACKET)?
    call       : IDENT LPAREN (expression (COMMA expression)*)? RPAREN

The bodies of loops and conditionals hold no function, and a parameter is no dotted name.
A factor that starts with a parenthesis ends where that parenthesis is closed.

There is a function for each rule.  It reads the tokens one by one, with one token of
lookahead, and takes as many as it can.  An error is reported at the first token that
does not fit, and a place where no token can be read is an error as soon as the token
there is asked for.

The functions recurse on a number that bounds how deep they nest.  Every level takes a
token or goes down one rule of the grammar, so a bound that is linear in the number of
tokens is never reached (`fuelFor`).
-/

namespace VectorLang

/-! ## Sources -/

/-- What locations are made of: the name of the source file and its lines, without the
    blanks at their ends. -/
structure Source where
  /-- The name of the file. -/
  file : String
  /-- The lines. -/
  lines : Array String

namespace Source

/-- The source that a text is. -/
def ofText (file text : String) : Source :=
  ⟨file, ((Text.lines text.toList).map (String.ofList ∘ Text.strip)).toArray⟩

/-- The location of a token.  Its source line is empty where there is no line of that
    number. -/
def locate (src : Source) (t : Token) : Location :=
  ⟨src.file, t.line, t.column, src.lines.getD (t.line - 1) ""⟩

end Source

/-! ## Errors -/

/-- Why a text is not a program. -/
inductive ParseError where
  /-- A token that was asked for cannot be read. -/
  | lexical (e : LexError)
  /-- The token is of none of the kinds that may stand there. -/
  | unexpected (expected : List Kind) (got : Token)
  /-- A parameter has a dotted name. -/
  | globalParameter (param : Token)
  /-- A numeral has too many digits. -/
  | numeralTooLong (digits : Nat)
  /-- The bound on nesting was reached. -/
  | outOfFuel
deriving DecidableEq, Inhabited

namespace ParseError

/-- The text of the error. -/
def message : ParseError → String
  | lexical e => e.message
  | unexpected expected got =>
    "Syntax error: expected token \"" ++ String.intercalate " or " (expected.map Kind.name) ++
      "\" but got \"" ++ got.kind.name ++ "\" at line " ++ got.line.repr ++ ", column " ++
      got.column.repr
  | globalParameter param =>
    "Unexpected global function parameter at line " ++ param.line.repr ++ ", column " ++
      param.column.repr
  | numeralTooLong digits =>
    "Exceeds the limit (" ++ Numeral.maxDigits.repr ++
      " digits) for integer string conversion: value has " ++ digits.repr ++
      " digits; use sys.set_int_max_str_digits() to increase the limit"
  | outOfFuel => "The program nests too deep"

end ParseError

/-! ## Lookahead -/

/-- The tokens that are not used up yet. -/
structure Lookahead where
  /-- How many tokens have been asked for. -/
  asked : Nat
  /-- The first token that is not used up. -/
  current : Token
  /-- The tokens after it. -/
  rest : List Token
  /-- Why there are no tokens after those. -/
  fault : Option LexError
deriving Inhabited

namespace Lookahead

/-- Asks for the first token of a stream. -/
def ofStream (s : TokenStream) : Except LexError Lookahead :=
  match s.tokens, s.fault with
  | t :: ts, fault => .ok ⟨1, t, ts, fault⟩
  | [], some e => .error e
  | [], none => .ok ⟨1, ⟨.eof, "", 1, 1⟩, [], none⟩

end Lookahead

/-- A step of reading a program: it uses tokens up and gives a result or an error. -/
abbrev Parser (α : Type) := EStateM ParseError Lookahead α

namespace Parser

/-- The first token that is not used up. -/
def current : Parser Token := return (← get).current

/-- The kind of the first token that is not used up. -/
def currentKind : Parser Kind := return (← get).current.kind

/-- The token after that.  The end of the text repeats. -/
def peek : Parser Token := fun look =>
  match look.rest, look.fault with
  | t :: _, _ => .ok t look
  | [], some e => .error (.lexical e) look
  | [], none => .ok look.current look

/-- Uses the current token up.  The end of the text repeats. -/
def advance : Parser Unit := fun look =>
  match look.rest, look.fault with
  | t :: ts, fault => .ok () ⟨look.asked + 1, t, ts, fault⟩
  | [], some e => .error (.lexical e) { look with asked := look.asked + 1 }
  | [], none => .ok () { look with asked := look.asked + 1 }

/-- Uses up a token that must be of one of the given kinds. -/
def consumeAny (kinds : List Kind) : Parser Token := do
  let t ← current
  if kinds.contains t.kind then
    advance
    return t
  else
    throw (.unexpected kinds t)

/-- Uses up a token that must be of the given kind. -/
def consume (kind : Kind) : Parser Token :=
  consumeAny [kind]

/-- Uses up the current token if it is of the given kind, and tells whether it was. -/
def accept (kind : Kind) : Parser Bool := do
  if (← currentKind) = kind then
    advance
    return true
  else
    return false

end Parser

/-! ## Token classes -/

/-- The kinds of token that an element can start with. -/
def elementStart : List Kind :=
  [.string, .int, .ident, .tilde, .hash, .lparen]

/-- The kinds of token that compare. -/
def relational : List Kind :=
  [.lte, .lt, .eq, .neq, .gt, .gte]

/-- The relation that a token stands for. -/
def relationOf : Kind → Relation
  | .lte => .lte
  | .lt => .lt
  | .neq => .neq
  | .gt => .gt
  | .gte => .gte
  | _ => .eq

/-- The operator between two terms that a token stands for. -/
def sumOp? : Kind → Option Arithmetic
  | .plus => some .add
  | .minus => some .sub
  | _ => none

/-- The operator between two factors that a token stands for. -/
def productOp? : Kind → Option Arithmetic
  | .star => some .mul
  | .slash => some .div
  | _ => none

/-- The operator before a vector that a token stands for. -/
def unaryOp? : Kind → Option UnaryOp
  | .tilde => some .negation
  | .hash => some .length
  | _ => none

/-! ## Expressions -/

namespace Parser

mutual

/-- Reads an expression. -/
def expression (src : Source) : Nat → Parser Node
  | 0 => throw .outOfFuel
  | n + 1 => do
    let first ← term src n
    sumTail src n first

/-- Reads what follows the first term of an expression. -/
def sumTail (src : Source) : Nat → Node → Parser Node
  | 0, _ => throw .outOfFuel
  | n + 1, left => do
    let t ← current
    match sumOp? t.kind with
    | none => return left
    | some op =>
      advance
      let right ← term src n
      sumTail src n (.binary (src.locate t) op left right)

/-- Reads a term. -/
def term (src : Source) : Nat → Parser Node
  | 0 => throw .outOfFuel
  | n + 1 => do
    let first ← factor src n
    productTail src n first

/-- Reads what follows the first factor of a term. -/
def productTail (src : Source) : Nat → Node → Parser Node
  | 0, _ => throw .outOfFuel
  | n + 1, left => do
    let t ← current
    match productOp? t.kind with
    | none => return left
    | some op =>
      advance
      let right ← factor src n
      productTail src n (.binary (src.locate t) op left right)

/-- Reads a factor. -/
def factor (src : Source) : Nat → Parser Node
  | 0 => throw .outOfFuel
  | n + 1 => do
    let t ← current
    match unaryOp? t.kind with
    | some op =>
      advance
      let operand ← vector src n
      return .unary (src.locate t) op operand
    | none =>
      if t.kind = .lparen then
        advance
        let inner ← expression src n
        let _ ← consume .rparen
        return inner
      else
        vector src n

/-- Reads a vector. -/
def vector (src : Source) : Nat → Parser Node
  | 0 => throw .outOfFuel
  | n + 1 => do
    let t ← current
    let first ← element src n
    let others ← elements src n
    return .vector (src.locate t) (first :: others)

/-- Reads as many elements as there are. -/
def elements (src : Source) : Nat → Parser (List Node)
  | 0 => throw .outOfFuel
  | n + 1 => do
    if elementStart.contains (← currentKind) then
      let first ← element src n
      let others ← elements src n
      return first :: others
    else
      return []

/-- Reads an element of a vector. -/
def element (src : Source) : Nat → Parser Node
  | 0 => throw .outOfFuel
  | n + 1 => do
    let t ← current
    match t.kind with
    | .string =>
      advance
      return .string (src.locate t) t.text
    | .int =>
      advance
      match Numeral.read t.text.toList with
      | .ok value => return .int (src.locate t) value
      | .error digits => throw (.numeralTooLong digits)
    | .ident =>
      if (← peek).kind = .lparen then call src n else reference src n
    | .tilde | .hash | .lparen => factor src n
    | _ => throw (.unexpected elementStart t)

/-- Reads a variable and its subscript, if it has one. -/
def reference (src : Source) : Nat → Parser Node
  | 0 => throw .outOfFuel
  | n + 1 => do
    let name ← consume .ident
    if ← accept .lbracket then
      let subscript ← expression src n
      let _ ← consume .rbracket
      return .var (src.locate name) (isGlobalName name.text) name.text (some subscript)
    else
      return .var (src.locate name) (isGlobalName name.text) name.text none

/-- Reads a function call. -/
def call (src : Source) : Nat → Parser Node
  | 0 => throw .outOfFuel
  | n + 1 => do
    let name ← consume .ident
    let _ ← consume .lparen
    let args ← if (← currentKind) = .rparen then pure [] else arguments src n
    let _ ← consume .rparen
    return .call (src.locate name) (isGlobalName name.text) name.text args

/-- Reads one or more arguments of a call. -/
def arguments (src : Source) : Nat → Parser (List Node)
  | 0 => throw .outOfFuel
  | n + 1 => do
    let first ← expression src n
    if ← accept .comma then
      let others ← arguments src n
      return first :: others
    else
      return [first]

end

/-! ## Statements -/

/-- Reads a comparison. -/
def comparison (src : Source) (n : Nat) : Parser (Comparison Node) := do
  let t ← current
  let left ← expression src n
  let op ← consumeAny relational
  let right ← expression src n
  return ⟨src.locate t, relationOf op.kind, left, right⟩

/-- Reads an assignment.  Where the line ends after the arrow, the variable is removed. -/
def assignment (src : Source) (n : Nat) : Parser Node := do
  let name ← consume .ident
  let _ ← consume .assign
  let value ← if (← currentKind) = .newline then pure none else some <$> expression src n
  return .assign (src.locate name) (isGlobalName name.text) name.text value

/-- Reads an expression that starts with a function call, and prints its value.  Where the
    line ends after the call, what is printed is the call itself; otherwise the call is the
    first element of a vector. -/
def callOutput (src : Source) (n : Nat) : Parser Node := do
  let t ← current
  let first ← call src n
  if (← currentKind) = .newline then
    return .output (src.locate t) first
  else
    let others ← elements src n
    let product ← productTail src n (.vector first.location (first :: others))
    let sum ← sumTail src n product
    return .output (src.locate t) sum

/-- Reads an expression, and prints its value. -/
def output (src : Source) (n : Nat) : Parser Node := do
  let t ← current
  let value ← expression src n
  return .output (src.locate t) value

/-- Reads one or more parameters of a function. -/
def parameters : Nat → Parser (List String)
  | 0 => throw .outOfFuel
  | n + 1 => do
    let param ← consume .ident
    if isGlobalName param.text then throw (.globalParameter param)
    if ← accept .comma then
      let others ← parameters n
      return param.text :: others
    else
      return [param.text]

mutual

/-- Reads one or more statements, up to the end of the block they stand in.  `functions`
    tells whether functions may stand among them. -/
def statements (src : Source) (functions : Bool) : Nat → Parser (List Node)
  | 0 => throw .outOfFuel
  | n + 1 => do
    let first ← statement src functions n
    let _ ← consume .newline
    if [Kind.kwEnd, Kind.kwElse].contains (← currentKind) then
      return [first]
    else
      let others ← statements src functions n
      return first :: others

/-- Reads a statement. -/
def statement (src : Source) (functions : Bool) : Nat → Parser Node
  | 0 => throw .outOfFuel
  | n + 1 => do
    match ← currentKind with
    | .kwBegin => if functions then function src n else output src n
    | .kwWhile | .kwUntil => loop src n
    | .kwIf => conditional src n
    | .ident =>
      match (← peek).kind with
      | .assign => assignment src n
      | .lparen => callOutput src n
      | _ => output src n
    | _ => output src n

/-- Reads the definition of a function. -/
def function (src : Source) : Nat → Parser Node
  | 0 => throw .outOfFuel
  | n + 1 => do
    let keyword ← consume .kwBegin
    let name ← consume .ident
    let params ←
      if ← accept .lparen then do
        let params ← parameters n
        let _ ← consume .rparen
        pure params
      else pure []
    let _ ← consume .newline
    let body ← statements src true n
    let _ ← consume .kwEnd
    return .function ⟨src.locate keyword, isGlobalName name.text, name.text, params, body⟩

/-- Reads a loop. -/
def loop (src : Source) : Nat → Parser Node
  | 0 => throw .outOfFuel
  | n + 1 => do
    let keyword ← consumeAny [.kwWhile, .kwUntil]
    let test ← comparison src n
    let _ ← consume .newline
    let body ← statements src false n
    let _ ← consume .kwEnd
    return .loop (src.locate keyword) (keyword.kind = .kwWhile) test body

/-- Reads a conditional. -/
def conditional (src : Source) : Nat → Parser Node
  | 0 => throw .outOfFuel
  | n + 1 => do
    let keyword ← consume .kwIf
    let test ← comparison src n
    let _ ← consume .newline
    let thenBody ← statements src false n
    let elseBody ←
      if ← accept .kwElse then do
        let _ ← consume .newline
        statements src false n
      else pure []
    let _ ← consume .kwEnd
    return .conditional (src.locate keyword) test thenBody elseBody

end

/-! ## Programs -/

/-- Reads a program, up to the end of the text. -/
def program (src : Source) (n : Nat) : Parser Program := do
  let keyword ← consume .kwBegin
  let name ← consume .ident
  let _ ← consume .newline
  let body ← statements src true n
  let _ ← consume .kwEnd
  let _ ← accept .newline
  let _ ← consume .eof
  return ⟨src.locate keyword, name.text, ⟨src.locate keyword, false, name.text, [], body⟩⟩

/-- A bound on nesting that no stream of this many tokens reaches. -/
def fuelFor (tokens : Nat) : Nat :=
  8 * tokens + 8

end Parser

/-- Reads the program that a stream of tokens holds. -/
def parseStream (src : Source) (s : TokenStream) : Except ParseError Program :=
  match Lookahead.ofStream s with
  | .error e => .error (.lexical e)
  | .ok look =>
    match Parser.program src (Parser.fuelFor s.tokens.length) look with
    | .ok p _ => .ok p
    | .error e _ => .error e

/-- Reads the program that a text holds. -/
def parse (text file : String) : Except ParseError Program :=
  parseStream (Source.ofText file text) (TokenStream.ofText text)

end VectorLang
