import VectorLang.Text.Numeral
import VectorLang.Tree

/-!
# Faults

Why a run stops before its end.  A fault has a cause, and the location of the node that
could not be evaluated.  The cause determines the text of the fault and the name of the
rule that was broken.
-/

namespace VectorLang

/-- What went wrong. -/
inductive FaultCause where
  /-- A variable of the function has no value. -/
  | undefinedVariable (name : String)
  /-- A global variable has no value. -/
  | uninitializedGlobal (name : String)
  /-- A subscript is no vector of integers; `shown` is its text. -/
  | invalidSubscript (shown : String)
  /-- A subscript is no place of the value. -/
  | subscriptOutOfRange
  /-- An element of a vector has no value. -/
  | undefinedElement
  /-- The elements of a vector do not have one type. -/
  | mixedElements
  /-- What is to be negated is no vector of integers. -/
  | negationOfOther
  /-- What is to be counted has no value. -/
  | lengthOfUndefined
  /-- An operand of an arithmetic operator is no vector of integers. -/
  | arithmeticOnOther (op : Arithmetic)
  /-- The operands of an arithmetic operator do not fit in length. -/
  | unequalOperands (op : Arithmetic)
  /-- A divisor is zero. -/
  | divisionByZero
  /-- The sides of a comparison are no values of one type. -/
  | incomparable (r : Relation)
  /-- The sides of a comparison differ in length. -/
  | unequalSides (r : Relation)
  /-- Too many calls are open. -/
  | callStackExceeded
  /-- A function is called that has no scope. -/
  | undefinedFunction (name : String)
  /-- A comparison stands where a value is needed. -/
  | predicateAsValue
  /-- A node stands where it cannot be evaluated. -/
  | unsupportedNode (label : String)
  /-- An integer that is to be shown has too many digits. -/
  | numeralTooLong
deriving DecidableEq, Inhabited

namespace FaultCause

/-- The text of a fault. -/
def message : FaultCause → String
  | undefinedVariable name => "Undefined variable \"" ++ name ++ "\""
  | uninitializedGlobal name => "Uninitialized global variable \"" ++ name ++ "\""
  | invalidSubscript shown => "Invalid subscript expression \"" ++ shown ++ "\""
  | subscriptOutOfRange => "Subscript out of range"
  | undefinedElement => "Vector error, vector elements cannot be undefined"
  | mixedElements => "Vector error, vector elements must be of the same type"
  | negationOfOther => "Type mismatch, operator \"~\" is only applicable to a vector of integers"
  | lengthOfUndefined => "Type mismatch, operator \"#\" is only applicable to a vector"
  | arithmeticOnOther op =>
    "Type mismatch, operator \"" ++ op.name ++ "\" can only be applied to vectors of integers"
  | unequalOperands _ | unequalSides _ => "Incompatible vector lengths"
  | divisionByZero => "Division by zero"
  | incomparable r =>
    "Type mismatch, operator \"" ++ r.name ++
      "\" can only be computed on vectors of the same type"
  | callStackExceeded => "Maximum call stack exceeded"
  | undefinedFunction name => "Undefined function \"" ++ name ++ "\""
  | predicateAsValue => "Predicate cannot be used as a value"
  | unsupportedNode label => "Unsupported node " ++ label
  | numeralTooLong =>
    "Internal interpreter error: Exceeds the limit (" ++ Numeral.maxDigits.repr ++
      " digits) for integer string conversion; use sys.set_int_max_str_digits()" ++
      " to increase the limit"

/-- The rule that was broken, if it has a name. -/
def rule? : FaultCause → Option String
  | undefinedVariable _ | uninitializedGlobal _ => some "VAR"
  | invalidSubscript _ | subscriptOutOfRange => some "SUBSCRIPT"
  | undefinedElement | mixedElements => some "VECTOR"
  | negationOfOther => some "NEGATION"
  | lengthOfUndefined => some "LENGTH"
  | arithmeticOnOther op | unequalOperands op => some op.name
  | divisionByZero => some "DIV"
  | incomparable r | unequalSides r => some r.name
  | callStackExceeded | undefinedFunction _ => some "CALL"
  | predicateAsValue | unsupportedNode _ => none
  | numeralTooLong => some "internal"

end FaultCause

/-- Why and where a run stopped. -/
structure Fault where
  /-- What went wrong. -/
  cause : FaultCause
  /-- The location of the node; none if no step was logged yet. -/
  location : Option Location
deriving DecidableEq, Inhabited

end VectorLang
