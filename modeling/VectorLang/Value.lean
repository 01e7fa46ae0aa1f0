import VectorLang.Text.Numeral
import VectorLang.Tree

/-!
# Values

A value is a vector of integers or a text.  Both are rows of elements: integers in the
one, characters in the other.  Integers have no bound.

Arithmetic works element by element, and a vector of one element is taken as often as the
other one needs (`broadcast`).  Two vectors of integers stand in a relation if they have
the same length and all pairs of elements do; two texts are compared by their code
points.
-/

namespace VectorLang

/-- What an expression evaluates to. -/
inductive Value where
  /-- A vector of integers. -/
  | ints (elements : List Int)
  /-- A text. -/
  | text (s : String)
deriving DecidableEq, Inhabited

namespace Value

/-- The name of the type of a value. -/
def typeName : Value → String
  | ints _ => "INT"
  | text _ => "STR"

/-- The number of elements. -/
def length : Value → Nat
  | ints elements => elements.length
  | text s => s.length

/-- The text of a value: the integers with blanks between them, or the text itself.  There
    is none if one of the integers has too many digits. -/
def render? : Value → Option String
  | ints elements => (elements.mapM Numeral.write?).map (String.intercalate " ")
  | text s => some s

end Value

/-! ## Arithmetic -/

/-- The pairs of elements that an operator on two vectors works on: those at the same
    place, where a vector of one element has it at every place.  There are none if the
    lengths do not fit. -/
def broadcast (xs ys : List Int) : Option (List (Int × Int)) :=
  if xs.length = ys.length then some (xs.zip ys)
  else
    match xs, ys with
    | [x], ys => some (ys.map fun y => (x, y))
    | xs, [y] => some (xs.map fun x => (x, y))
    | _, _ => none

namespace Arithmetic

/-- The result for two integers.  Division drops the fraction, and there is no result for
    a divisor of zero. -/
def result? (op : Arithmetic) (x y : Int) : Option Int :=
  match op with
  | add => some (x + y)
  | sub => some (x - y)
  | mul => some (x * y)
  | div => if y = 0 then none else some (x.tdiv y)

end Arithmetic

/-! ## Comparison -/

namespace Relation

/-- Whether two elements of a linear order stand in a relation. -/
def holds {α : Type} [DecidableEq α] [LT α] [DecidableLT α] (r : Relation) (x y : α) : Bool :=
  match r with
  | lte => !decide (y < x)
  | lt => decide (x < y)
  | eq => decide (x = y)
  | neq => !decide (x = y)
  | gt => decide (y < x)
  | gte => !decide (x < y)

end Relation

/-! ## Vectors -/

namespace Value

/-- The integers of a row of values, if all of them are vectors of integers. -/
def intsOf? : List Value → Option (List Int)
  | [] => some []
  | ints elements :: values => (intsOf? values).map (elements ++ ·)
  | text _ :: _ => none

/-- The text of a row of values, if all of them are texts. -/
def textOf? : List Value → Option String
  | [] => some ""
  | text s :: values => (textOf? values).map (s ++ ·)
  | ints _ :: _ => none

/-- The values of a row joined to one.  There is none if their types differ, or if there is
    nothing to join. -/
def join? : List Value → Option Value
  | [] => none
  | ints elements :: values => (intsOf? (ints elements :: values)).map ints
  | text s :: values => (textOf? (text s :: values)).map text

/-- The elements at the given places, counted from 1, if all of these are places of the
    row. -/
def gather? {α : Type} (elements : List α) (places : List Int) : Option (List α) :=
  let table := elements.toArray
  places.mapM fun i => if 1 ≤ i then table[i.toNat - 1]? else none

/-- The part of a value at the given places. -/
def select? (v : Value) (places : List Int) : Option Value :=
  match v with
  | ints elements => (gather? elements places).map ints
  | text s => (gather? s.toList places).map (text ∘ String.ofList)

end Value

end VectorLang
