import VectorLang.Text.Numeral
import VectorLang.Text.Printable

/-!
# Quoted text

Text as it is shown in messages: between single quotes, or between double quotes where it
holds a single quote and no double one.  The backslash and the quote in use are escaped
with a backslash, tab, newline and carriage return by their letters, and every other
character that is not printable by the shortest of `\xNN`, `\uNNNN` and `\UNNNNNNNN`
that holds its code point, in lower-case hexadecimal digits.
-/

namespace VectorLang.Text

/-- The quote that goes around a text. -/
def quoteFor (cs : List Char) : Char :=
  if cs.contains '\x27' && !cs.contains '"' then '"' else '\x27'

/-- A character as it is shown between two quotes `q`. -/
def escapeChar (q c : Char) : List Char :=
  if c = q || c = '\\' then ['\\', c]
  else if c = '\t' then ['\\', 't']
  else if c = '\n' then ['\\', 'n']
  else if c = '\r' then ['\\', 'r']
  else if isPrintable c then [c]
  else if c.toNat < 0x100 then '\\' :: 'x' :: Numeral.hex 2 c.toNat
  else if c.toNat < 0x10000 then '\\' :: 'u' :: Numeral.hex 4 c.toNat
  else '\\' :: 'U' :: Numeral.hex 8 c.toNat

/-- A text between quotes. -/
def quoted (s : String) : String :=
  let cs := s.toList
  let q := quoteFor cs
  String.ofList (q :: cs.flatMap (escapeChar q) ++ [q])

end VectorLang.Text
