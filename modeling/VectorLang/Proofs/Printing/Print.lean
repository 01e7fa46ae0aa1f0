import VectorLang.Proofs.Reading.Phrase
import VectorLang.Proofs.Token.Lexeme
import VectorLang.Proofs.Tree.Unlocated
import VectorLang.Text.Numeral

/-!
# Printing programs

A program is printed with one statement in a line, one space between two lexemes of a line,
and no more parentheses than it needs to be read as the same tree.

Where parentheses stand:

* around an operand whose operator binds less than the one it belongs to, and around a
  right operand whose operator binds as much as that one;
* around an element of a vector that is neither an atom nor an operator in the last place,
  because an operator takes all elements that follow it;
* around a vector of nothing but a call that is a statement, because without them the
  statement is read as the call.

* `Program.print`    the lexemes of a program
* `Program.render`   its text
-/

namespace VectorLang

/-! ## Lexemes -/

/-- The lexeme of a kind that has one spelling. -/
def Kind.lexeme (k : Kind) : Lexeme :=
  ⟨k, String.ofList k.spelling⟩

/-- The symbol of an operator between two operands. -/
def Arithmetic.kind : Arithmetic → Kind
  | add => .plus
  | sub => .minus
  | mul => .star
  | div => .slash

/-- The symbol of an operator before an operand. -/
def UnaryOp.kind : UnaryOp → Kind
  | negation => .tilde
  | length => .hash

/-- The symbol of a relation. -/
def Relation.kind : Relation → Kind
  | lte => .lte
  | lt => .lt
  | eq => .eq
  | neq => .neq
  | gt => .gt
  | gte => .gte

/-- The lexemes of a name. -/
def Lexeme.ofName (name : String) : Lexeme := ⟨.ident, name⟩

/-- Lexemes with parentheses around them, where these are needed. -/
def enclosed (needed : Bool) (ls : List Lexeme) : List Lexeme :=
  if needed then Kind.lparen.lexeme :: (ls ++ [Kind.rparen.lexeme]) else ls

/-! ## Where parentheses stand -/

/-- Whether an element of a vector stands there without parentheses.  `last` tells whether
    it is the last one. -/
def Node.isBare (last : Bool) : Node → Bool
  | .int .. | .string .. | .var .. | .call .. => true
  | .unary .. => last
  | _ => false

/-! ## Lexemes of nodes -/

namespace Node

/-- The lexemes of the parameters of a function, with the parentheses around them; nothing
    if there are none. -/
def printParams (params : List String) : List Lexeme :=
  if params.isEmpty then []
  else enclosed true ((params.map Lexeme.ofName).intersperse Kind.comma.lexeme)

mutual

/-- The lexemes of a node. -/
def print : Node → List Lexeme
  | int _ value => [⟨.int, Numeral.text value⟩]
  | string _ value => [⟨.string, value⟩]
  | vector _ elements => printElements elements
  | var _ _ name subscript => Lexeme.ofName name :: printSubscript subscript
  | unary _ op operand => op.kind.lexeme :: print operand
  | binary _ op left right =>
    enclosed (left.strength < op.strength) (print left) ++
      op.kind.lexeme :: enclosed (right.strength ≤ op.strength) (print right)
  | call _ _ name args => Lexeme.ofName name :: enclosed true (printArguments args)
  | predicate test => printComparison test
  | output _ value => enclosed value.isLoneCall (print value)
  | assign _ _ name value => Lexeme.ofName name :: Kind.assign.lexeme :: printOption value
  | conditional _ test thenBody elseBody =>
    Kind.kwIf.lexeme :: (printComparison test ++ Kind.newline.lexeme ::
      (printBody thenBody ++
        ((if elseBody.isEmpty then []
          else Kind.kwElse.lexeme :: Kind.newline.lexeme :: printBody elseBody) ++
        [Kind.kwEnd.lexeme])))
  | loop _ whileTrue test body =>
    (if whileTrue then Kind.kwWhile else Kind.kwUntil).lexeme ::
      (printComparison test ++ Kind.newline.lexeme :: (printBody body ++ [Kind.kwEnd.lexeme]))
  | function d => printDefinition d
  | program _ _ block => printDefinition block

/-- The lexemes of the elements of a vector. -/
def printElements : List Node → List Lexeme
  | [] => []
  | e :: es => enclosed (!e.isBare es.isEmpty) (print e) ++ printElements es

/-- The lexemes of the arguments of a call. -/
def printArguments : List Node → List Lexeme
  | [] => []
  | [e] => print e
  | e :: e' :: es => print e ++ Kind.comma.lexeme :: printArguments (e' :: es)

/-- The lexemes of statements, each with the end of its line. -/
def printBody : List Node → List Lexeme
  | [] => []
  | n :: ns => print n ++ Kind.newline.lexeme :: printBody ns

/-- The lexemes of a subscript, with the brackets around it. -/
def printSubscript : Option Node → List Lexeme
  | none => []
  | some e => Kind.lbracket.lexeme :: (print e ++ [Kind.rbracket.lexeme])

/-- The lexemes of a node that may be left out. -/
def printOption : Option Node → List Lexeme
  | none => []
  | some e => print e

/-- The lexemes of a comparison. -/
def printComparison : Comparison Node → List Lexeme
  | ⟨_, relation, left, right⟩ => print left ++ relation.kind.lexeme :: print right

/-- The lexemes of a definition. -/
def printDefinition : Definition Node → List Lexeme
  | ⟨_, _, name, params, body⟩ =>
    Kind.kwBegin.lexeme :: Lexeme.ofName name :: (printParams params ++ Kind.newline.lexeme ::
      (printBody body ++ [Kind.kwEnd.lexeme]))

end

end Node

/-! ## Layout -/

/-- What stands between two lexemes: a space, unless one of them is the end of a line. -/
def separator (l l' : Lexeme) : List Char :=
  if l.kind = .newline || l'.kind = .newline then [] else [' ']

/-- The text of lexemes. -/
def layout : List Lexeme → List Char
  | [] => []
  | [l] => l.spelling
  | l :: l' :: ls => l.spelling ++ (separator l l' ++ layout (l' :: ls))

namespace Program

/-- The lexemes of a program. -/
def print (p : Program) : List Lexeme :=
  Kind.kwBegin.lexeme :: Lexeme.ofName p.name :: Kind.newline.lexeme ::
    (Node.printBody p.block.body ++ [Kind.kwEnd.lexeme])

/-- The text of a program. -/
def render (p : Program) : String :=
  String.ofList (layout p.print)

end Program

end VectorLang
