import VectorLang.Proofs.Token.Stream
import VectorLang.Token.Reader

/-!
# Reading on demand and reading all at once

Whoever reads a text one token at a time gets the tokens that reading it all at once gives, in
the same order, however the calls that hand out tokens, that show the next one and that ask for
the tokens so far follow one another.  Showing a token scans it early, and changes nothing of
what is handed out.

What a reader hands out from a state on is told by the stream that is left there
(`Reader.ahead`).  Each call keeps it, or moves on by one token.

* `nth_scanAll_zero`, `nth_scanAll_succ`   a stream from one scan to the next
* `Reader.ahead_of_next`, `ahead_of_peek`   what a call does to the tokens ahead
* `session_reads_stream`                    whole sessions with a reader
-/

namespace VectorLang

/-! ## Places in a stream -/

namespace TokenStream

/-- The token at a place of a stream, counted from 0.  Beyond the end of the text there is the
    end of the text for ever, and beyond a fault there is the fault. -/
def nth (s : TokenStream) (i : Nat) : Except LexError Token :=
  match s.tokens[i]? with
  | some t => .ok t
  | none =>
    match s.fault with
    | some e => .error e
    | none => .ok (s.tokens.getLastD default)

theorem fault_of_nth {s : TokenStream} {i : Nat} {e : LexError} (h : s.nth i = .error e) :
    s.fault = some e := by
  unfold nth at h
  split at h
  · cases h
  · split at h
    · cases h
      assumption
    · cases h

/-- A stream that ends with the end of the text goes on with it. -/
theorem nth_of_text {init : List Token} {eof : Token} (i : Nat) :
    nth ⟨init ++ [eof], none⟩ i = .ok (init[i]?.getD eof) := by
  by_cases hi : i < init.length
  · simp only [nth, List.getElem?_append_left hi, List.getElem?_eq_getElem hi, Option.getD_some]
  · -- both the last token and the default are the end of the text
    have hlast : (init ++ [eof]).getLastD default = eof := by simp
    have hnone : init[i]? = none := List.getElem?_eq_none (by omega)
    simp only [nth, List.getElem?_append_right (Nat.le_of_not_lt hi), hnone, hlast,
      Option.getD_none]
    cases i - init.length with
    | zero => rfl
    | succ _ => rfl

/-- The tokens after the first one. -/
theorem Terminated.nth_cons {s : TokenStream} (h : s.Terminated) (t : Token) (i : Nat) :
    nth ⟨t :: s.tokens, s.fault⟩ (i + 1) = s.nth i := by
  cases h with
  | @text init eof _ _ =>
    show nth ⟨(t :: init) ++ [eof], none⟩ (i + 1) = nth ⟨init ++ [eof], none⟩ i
    rw [nth_of_text, nth_of_text, List.getElem?_cons_succ]
  | fault _ => rfl

/-- The first token of a stream is the one that is scanned first. -/
theorem nth_scanAll_zero (last : Option Kind) (cursor : Cursor) :
    (scanAll last cursor).nth 0 = (scan last cursor).outcome := by
  cases h : (scan last cursor).outcome with
  | error e => rw [scanAll_of_error h, nth, List.getElem?_nil]
  | ok t =>
    by_cases ht : t.kind = .eof
    · rw [scanAll_of_eof h ht]
      rfl
    · rw [scanAll_of_token h ht]
      rfl

/-- The other ones are those of the stream that starts where the scan stops. -/
theorem nth_scanAll_succ {last : Option Kind} {cursor : Cursor} {t : Token}
    (h : (scan last cursor).outcome = .ok t) (i : Nat) :
    (scanAll last cursor).nth (i + 1) =
      (scanAll (some t.kind) (scan last cursor).cursor).nth i := by
  by_cases ht : t.kind = .eof
  · -- at the end of the text the same token is scanned again
    obtain ⟨p, hscan⟩ := scan_of_eof h ht
    rw [hscan] at h
    cases h
    have hagain : (scan (some .eof) ⟨p, []⟩).outcome = .ok ⟨.eof, "", p.line, p.column⟩ := rfl
    rw [scanAll_of_eof (by rw [hscan]; rfl) rfl, hscan]
    show nth ⟨[] ++ [_], none⟩ (i + 1) = nth (scanAll (some .eof) ⟨p, []⟩) i
    rw [scanAll_of_eof hagain rfl]
    show _ = nth ⟨[] ++ [_], none⟩ i
    rw [nth_of_text, nth_of_text]
    rfl
  · rw [scanAll_of_token h ht]
    exact (terminated_scanAll _ _).nth_cons t i

end TokenStream

open TokenStream

/-! ## Calls -/

namespace Reader

/-- What a reader can be asked for. -/
inductive Call where
  /-- To hand out the next token. -/
  | next
  /-- To show the next token. -/
  | peek
  /-- To list the tokens handed out so far. -/
  | tokens
deriving DecidableEq

/-- What a reader answers. -/
inductive Reply where
  /-- The next token. -/
  | token (t : Token)
  /-- The tokens handed out so far. -/
  | tokens (ts : List Token)
deriving DecidableEq

/-- Answers a call. -/
def answer (r : Reader) : Call → Except LexError Reply × Reader
  | .next => (r.next.1.map .token, r.next.2)
  | .peek => (r.peek.1.map .token, r.peek.2)
  | .tokens => (.ok (.tokens r.log.toList), r)

/-- A session with a reader of a text: the calls so far, each with its reply, and the state of
    the reader after them.  No call has failed. -/
inductive Session (text : String) : List (Call × Reply) → Reader → Prop where
  | start : Session text [] (ofText text)
  | call {calls : List (Call × Reply)} {c : Call} {reply : Reply} {r r' : Reader} :
      Session text calls r → r.answer c = (.ok reply, r') →
      Session text (calls ++ [(c, reply)]) r'

/-- The tokens that were handed out in a session. -/
def handedOut (calls : List (Call × Reply)) : List Token :=
  calls.filterMap fun call =>
    match call with
    | (.next, .token t) => some t
    | _ => none

/-! ## The tokens ahead -/

/-- The tokens that a reader hands out from now on, and the fault where they end. -/
def ahead (r : Reader) : Nat → Except LexError Token :=
  match r.peeked with
  | none => (scanAll r.last r.cursor).nth
  | some t => fun i =>
    match i with
    | 0 => .ok t
    | i + 1 => (scanAll r.last r.cursor).nth i

/-- Whether only the place where scanning goes on may differ between two readers. -/
structure SameMemory (r r' : Reader) : Prop where
  log : r'.log = r.log
  peeked : r'.peeked = r.peeked
  last : r'.last = r.last

section

variable {r r' : Reader} {t : Token} {e : LexError}

theorem scanNext_of_ok (h : (scan r.last r.cursor).outcome = .ok t) :
    r.scanNext =
      (.ok t, { r with cursor := (scan r.last r.cursor).cursor, last := some t.kind }) := by
  rw [scanNext, h]

theorem scanNext_of_error (h : (scan r.last r.cursor).outcome = .error e) :
    r.scanNext = (.error e, { r with cursor := (scan r.last r.cursor).cursor }) := by
  rw [scanNext, h]

/-- What a reader hands out next is the first token ahead. -/
theorem next_eq_ahead (r : Reader) : r.next.1 = r.ahead 0 := by
  cases hpeeked : r.peeked with
  | some t => rw [next, ahead, hpeeked]
  | none =>
    rw [next, ahead, hpeeked]
    show _ = (scanAll r.last r.cursor).nth 0
    rw [nth_scanAll_zero]
    cases h : (scan r.last r.cursor).outcome with
    | ok t => rw [scanNext_of_ok h]
    | error e => rw [scanNext_of_error h]

/-- What a reader shows is what it would hand out. -/
theorem peek_eq_next (r : Reader) : r.peek.1 = r.next.1 := by
  rw [peek, next]
  cases r.peeked with
  | some t => rfl
  | none => rcases r.scanNext with ⟨e | t, r'⟩ <;> rfl

theorem peek_eq_ahead (r : Reader) : r.peek.1 = r.ahead 0 :=
  (peek_eq_next r).trans (next_eq_ahead r)

/-- Handing out a token moves on by one token. -/
theorem ahead_of_next (h : r.next = (.ok t, r')) :
    r'.log = r.log.push t ∧ ∀ i, r'.ahead i = r.ahead (i + 1) := by
  cases hpeeked : r.peeked with
  | some t' =>
    rw [next, hpeeked] at h
    cases h
    refine ⟨rfl, fun i => ?_⟩
    rw [ahead, ahead, hpeeked]
  | none =>
    rw [next, hpeeked] at h
    cases hscan : (scan r.last r.cursor).outcome with
    | error e =>
      rw [scanNext_of_error hscan] at h
      cases h
    | ok t' =>
      rw [scanNext_of_ok hscan] at h
      cases h
      refine ⟨rfl, fun i => ?_⟩
      simp only [ahead, hpeeked]
      exact (nth_scanAll_succ hscan i).symm

/-- Showing a token changes nothing of what is ahead, and the token is kept. -/
theorem ahead_of_peek (h : r.peek = (.ok t, r')) :
    r'.log = r.log ∧ r'.peeked = some t ∧ ∀ i, r'.ahead i = r.ahead i := by
  cases hpeeked : r.peeked with
  | some t' =>
    rw [peek, hpeeked] at h
    cases h
    exact ⟨rfl, hpeeked, fun _ => rfl⟩
  | none =>
    rw [peek, hpeeked] at h
    cases hscan : (scan r.last r.cursor).outcome with
    | error e =>
      rw [scanNext_of_error hscan] at h
      cases h
    | ok t' =>
      rw [scanNext_of_ok hscan] at h
      cases h
      refine ⟨rfl, rfl, fun i => ?_⟩
      simp only [ahead, hpeeked]
      -- the token that was scanned early is still the first one
      cases i with
      | zero => exact ((nth_scanAll_zero _ _).trans hscan).symm
      | succ i => exact (nth_scanAll_succ hscan i).symm

/-- A scan that fails changes nothing but the place where scanning goes on. -/
theorem sameMemory_of_scanNext (hpeeked : r.peeked = none) (h : r.scanNext = (.error e, r')) :
    r.ahead 0 = .error e ∧ r.SameMemory r' := by
  cases hscan : (scan r.last r.cursor).outcome with
  | ok t =>
    rw [scanNext_of_ok hscan] at h
    cases h
  | error e' =>
    rw [scanNext_of_error hscan] at h
    cases h
    refine ⟨?_, rfl, rfl, rfl⟩
    simp only [ahead, hpeeked]
    exact (nth_scanAll_zero _ _).trans hscan

/-- A call fails only where it has to scan, and the scan fails. -/
theorem scanNext_of_answer {c : Call} (h : r.answer c = (.error e, r')) :
    r.peeked = none ∧ r.scanNext = (.error e, r') := by
  cases c with
  | tokens => cases h
  | next =>
    rw [answer, next] at h
    cases hpeeked : r.peeked with
    | some t => simp [hpeeked, Except.map] at h
    | none =>
      rcases hscan : r.scanNext with ⟨e' | t, r₁⟩
      · simpa [hpeeked, hscan, Except.map] using h
      · simp [hpeeked, hscan, Except.map] at h
  | peek =>
    rw [answer, peek] at h
    cases hpeeked : r.peeked with
    | some t => simp [hpeeked, Except.map] at h
    | none =>
      rcases hscan : r.scanNext with ⟨e' | t, r₁⟩
      · simpa [hpeeked, hscan, Except.map] using h
      · simp [hpeeked, hscan, Except.map] at h

end

/-! ## Sessions -/

/-- What every session keeps: the tokens handed out are the first ones of the stream, and the
    others are still ahead. -/
structure Reads (s : TokenStream) (ts : List Token) (r : Reader) : Prop where
  log : r.log.toList = ts
  handed {i : Nat} {t : Token} : ts[i]? = some t → s.nth i = .ok t
  ahead (i : Nat) : r.ahead i = s.nth (ts.length + i)

theorem reads_start (text : String) : Reads (TokenStream.ofText text) [] (ofText text) where
  log := rfl
  handed h := by cases h
  ahead i := by
    rw [List.length_nil, Nat.zero_add]
    rfl

/-- A reply that is no failure comes from a call that is none. -/
theorem eq_ok_of_map {x : Except LexError Token} {reply : Reply}
    (h : x.map Reply.token = .ok reply) : ∃ t, x = .ok t ∧ reply = .token t := by
  cases x with
  | error e => cases h
  | ok t =>
    cases h
    exact ⟨t, rfl, rfl⟩

/-- Every call keeps it. -/
theorem Reads.answered {s : TokenStream} {calls : List (Call × Reply)} {r r' : Reader}
    {c : Call} {reply : Reply} (h : Reads s (handedOut calls) r)
    (hc : r.answer c = (.ok reply, r')) : Reads s (handedOut (calls ++ [(c, reply)])) r' := by
  rw [handedOut, List.filterMap_append]
  cases c with
  | tokens =>
    cases hc
    show Reads s (handedOut calls ++ []) r
    rwa [List.append_nil]
  | peek =>
    obtain ⟨hreply, rfl⟩ := Prod.mk.inj hc
    obtain ⟨t, ht, rfl⟩ := eq_ok_of_map hreply
    obtain ⟨hlog, _, hahead⟩ := ahead_of_peek (r := r) (Prod.ext ht rfl)
    show Reads s (handedOut calls ++ []) r.peek.2
    rw [List.append_nil]
    exact ⟨hlog ▸ h.log, h.handed, fun i => (hahead i).trans (h.ahead i)⟩
  | next =>
    obtain ⟨hreply, rfl⟩ := Prod.mk.inj hc
    obtain ⟨t, ht, rfl⟩ := eq_ok_of_map hreply
    obtain ⟨hlog, hahead⟩ := ahead_of_next (r := r) (Prod.ext ht rfl)
    -- the token that is handed out is the first one ahead
    have hnth : s.nth (handedOut calls).length = .ok t := by
      rw [← ht, next_eq_ahead, h.ahead, Nat.add_zero]
    show Reads s (handedOut calls ++ [t]) r.next.2
    refine ⟨?_, ?_, ?_⟩
    · rw [hlog, Array.toList_push, h.log]
    · intro i t' ht'
      rw [List.getElem?_append] at ht'
      split at ht'
      · exact h.handed ht'
      · obtain ⟨hi, rfl⟩ := List.getElem?_eq_some_iff.mp ht'
        rw [List.length_singleton] at hi
        rw [List.getElem_singleton, ← hnth]
        congr 1
        omega
    · intro i
      rw [hahead, h.ahead, List.length_append, List.length_singleton]
      congr 1
      omega

theorem reads_session {text : String} {calls : List (Call × Reply)} {r : Reader}
    (h : Session text calls r) : Reads (TokenStream.ofText text) (handedOut calls) r := by
  induction h with
  | start => exact reads_start text
  | call _ hc ih => exact ih.answered hc

end Reader

/-- In a session with a reader of a text, as long as no call has failed, the tokens handed out are
    the first ones of the text, and the list of the tokens so far is the list of these.  The next
    call that asks for a token gets the one that comes after them, whether it is handed out or only
    shown; where it is shown, it is shown again and handed out by the calls that follow.  A call
    that fails does so with the fault that reading all of the text ends in, and leaves the tokens
    so far, the token that is shown and the kind of the last one as they were.  If all of the text
    can be read, its tokens are followed by the end of the text for ever. -/
theorem session_reads_stream {text : String} {calls : List (Reader.Call × Reader.Reply)}
    {r : Reader} (h : Reader.Session text calls r) :
    r.log.toList = Reader.handedOut calls ∧
    (∀ i t, (Reader.handedOut calls)[i]? = some t → (TokenStream.ofText text).nth i = .ok t) ∧
    r.next.1 = (TokenStream.ofText text).nth (Reader.handedOut calls).length ∧
    r.peek.1 = (TokenStream.ofText text).nth (Reader.handedOut calls).length ∧
    (∀ t r', r.peek = (.ok t, r') → r'.peek = (.ok t, r') ∧ r'.next.1 = .ok t) ∧
    r.answer .tokens = (.ok (.tokens (Reader.handedOut calls)), r) ∧
    (∀ c e r', r.answer c = (.error e, r') → tokenize text = .error e ∧
      r'.log = r.log ∧ r'.peeked = r.peeked ∧ r'.last = r.last) ∧
    ∀ ts, tokenize text = .ok ts → ∃ init eof, ts = init ++ [eof] ∧ eof.kind = .eof ∧
      (∀ t ∈ init, t.kind ≠ .eof) ∧
      ∀ i, (TokenStream.ofText text).nth i = .ok (init[i]?.getD eof) := by
  have hreads := Reader.reads_session h
  refine ⟨hreads.log, fun _ _ => hreads.handed, ?_, ?_, ?_, ?_, ?_, ?_⟩
  · rw [Reader.next_eq_ahead, hreads.ahead, Nat.add_zero]
  · rw [Reader.peek_eq_ahead, hreads.ahead, Nat.add_zero]
  · intro t r' hpeek
    obtain ⟨_, hpeeked, _⟩ := Reader.ahead_of_peek hpeek
    rw [Reader.peek, Reader.next, hpeeked]
    exact ⟨rfl, rfl⟩
  · rw [Reader.answer, hreads.log]
  · intro c e r' hc
    obtain ⟨hpeeked, hscan⟩ := Reader.scanNext_of_answer hc
    obtain ⟨hahead, hmemory⟩ := Reader.sameMemory_of_scanNext hpeeked hscan
    rw [hreads.ahead] at hahead
    refine ⟨?_, hmemory.log, hmemory.peeked, hmemory.last⟩
    rw [tokenize, fault_of_nth hahead]
  · intro ts hts
    have hstream := tokenize_eq_ok_iff.mp hts
    have hterm := terminated_ofText text
    rw [hstream] at hterm ⊢
    cases hterm with
    | @text init eof hinit heof => exact ⟨init, eof, rfl, heof, hinit, nth_of_text⟩

/-- A text with a name, two ends of lines and a character that starts no token. -/
def tornText : String := "X\n\n?"

/-- Calls to a reader of that text: the name is shown and handed out, and then the end of its
    line. -/
def tornCalls : List (Reader.Call × Reader.Reply) :=
  [(.peek, .token ⟨.ident, "X", 1, 1⟩), (.next, .token ⟨.ident, "X", 1, 1⟩),
    (.next, .token ⟨.newline, "\n", 1, 2⟩)]

/-- The reader after these calls. -/
def tornReader : Reader where
  cursor := ⟨⟨2, 2, 1⟩, ['\n', '?']⟩
  last := some .newline
  peeked := none
  log := #[⟨.ident, "X", 1, 1⟩, ⟨.newline, "\n", 1, 2⟩]

theorem session_reads_stream_torn :
    Reader.Session tornText tornCalls tornReader ∧
    (TokenStream.ofText tornText).nth 2 = .error ⟨.unexpected '?', 3, 1⟩ ∧
    tokenize tornText = .error ⟨.unexpected '?', 3, 1⟩ := by
  have hpeek : (Reader.ofText tornText).answer .peek =
    (.ok (.token ⟨.ident, "X", 1, 1⟩), (Reader.ofText tornText).peek.2) := by rfl
  have hsession : Reader.Session tornText tornCalls tornReader :=
    .call (.call (.call .start hpeek) rfl) rfl
  obtain ⟨_, _, hnext, _, _, _, hfails, _⟩ := session_reads_stream hsession
  have hfault : tornReader.answer .next =
    (.error ⟨.unexpected '?', 3, 1⟩, tornReader.next.2) := by rfl
  exact ⟨hsession, hnext.symm, (hfails _ _ _ hfault).1⟩

end VectorLang
