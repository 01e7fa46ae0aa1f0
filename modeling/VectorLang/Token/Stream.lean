import VectorLang.Token.Scan

/-!
# All tokens of a text

`TokenStream.ofText` reads a text to its end, or to the first place where no token can be
read.  The tokens before such a place are kept, since whoever reads them one by one may
stop before it.
-/

namespace VectorLang

/-- The tokens of a text.  The last one is the end of the text, unless the stream ends in
    a fault. -/
structure TokenStream where
  /-- The tokens in order. -/
  tokens : List Token
  /-- Why there is no further token. -/
  fault : Option LexError
deriving DecidableEq, Inhabited

namespace TokenStream

/-- The tokens from a cursor on, where `last` is the kind of the token before it. -/
def scanAll (last : Option Kind) (cursor : Cursor) : TokenStream :=
  match _h : (scan last cursor).outcome with
  | .error e => ⟨[], some e⟩
  | .ok t =>
    if _ht : t.kind = .eof then ⟨[t], none⟩
    else
      let s := scanAll (some t.kind) (scan last cursor).cursor
      ⟨t :: s.tokens, s.fault⟩
termination_by cursor.rest.length
decreasing_by exact length_scan_lt ‹_› ‹_›

/-- The tokens of a text. -/
def ofText (text : String) : TokenStream :=
  scanAll none (Cursor.ofText text)

end TokenStream

/-- The tokens of a text, if all of it can be read. -/
def tokenize (text : String) : Except LexError (List Token) :=
  let s := TokenStream.ofText text
  match s.fault with
  | some e => .error e
  | none => .ok s.tokens

end VectorLang
