import VectorLang.Token.Scan

/-!
# Reading tokens on demand

A reader hands out the tokens of a text one at a time.  It scans no further than it is
asked to: `next` hands out a token, and `peek` shows the token that the following `next`
will hand out.  The tokens handed out so far are kept in order.
-/

namespace VectorLang

/-- A text in the course of being read. -/
structure Reader where
  /-- Where scanning goes on. -/
  cursor : Cursor
  /-- The kind of the last token scanned. -/
  last : Option Kind
  /-- A token that was scanned and not handed out yet. -/
  peeked : Option Token
  /-- The tokens handed out, in order. -/
  log : Array Token
deriving Inhabited

namespace Reader

/-- A reader before a whole text. -/
def ofText (text : String) : Reader := ⟨Cursor.ofText text, none, none, #[]⟩

/-- Scans one token.  The kind of the last token stays as it is where there is none. -/
def scanNext (r : Reader) : Except LexError Token × Reader :=
  let s := scan r.last r.cursor
  match s.outcome with
  | .ok t => (.ok t, { r with cursor := s.cursor, last := some t.kind })
  | .error e => (.error e, { r with cursor := s.cursor })

/-- Hands out the next token. -/
def next (r : Reader) : Except LexError Token × Reader :=
  match r.peeked with
  | some t => (.ok t, { r with peeked := none, log := r.log.push t })
  | none =>
    match r.scanNext with
    | (.ok t, r) => (.ok t, { r with log := r.log.push t })
    | (.error e, r) => (.error e, r)

/-- Shows the next token, without handing it out. -/
def peek (r : Reader) : Except LexError Token × Reader :=
  match r.peeked with
  | some t => (.ok t, r)
  | none =>
    match r.scanNext with
    | (.ok t, r) => (.ok t, { r with peeked := some t })
    | (.error e, r) => (.error e, r)

end Reader

end VectorLang
