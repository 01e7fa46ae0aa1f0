import VectorLang.Token.Stream

/-!
# Where a stream of tokens ends

The end of the text is the last token of a stream, and no other token of it, unless the
stream ends in a fault.

* `terminated_ofText`    every stream of a text ends so
* `scan_of_eof`          where the end of the text is read, there is nothing left to read
* `tokenize_eq_ok_iff`   the tokens of a text are those of a stream without a fault
-/

namespace VectorLang

/-! ## The end of the text -/

/-- A word is a name or a key word. -/
theorem Kind.ofWord_mem (word : List Char) : ofWord word ∈ ident :: keywords := by
  rw [ofWord]
  cases hfind : keywords.find? (·.spelling == word) with
  | none => exact List.mem_cons_self
  | some k => exact List.mem_cons_of_mem _ (List.mem_of_find?_eq_some hfind)

/-- Only where the text is used up, its end is read. -/
theorem lexeme_of_eof {p : Position} {cs : List Char} {t : Token}
    (h : (lexeme p cs).outcome = .ok t) (ht : t.kind = .eof) : cs = [] := by
  revert h
  fun_cases lexeme p cs with
  | case1 => exact fun _ => rfl
  | case6 c cs _ _ _ _ word =>
    intro h
    cases h
    have hmem := Kind.ofWord_mem word
    rw [show Kind.ofWord word = .eof from ht] at hmem
    exact absurd hmem (by decide)
  | case7 c cs _ _ _ _ kind hk =>
    intro h
    cases h
    obtain rfl : kind = .eof := ht
    exact absurd (Kind.spelling_of_ofSymbol? hk).2 (by decide)
  | _ =>
    intro h
    cases h
    try cases ht

/-- Where the end of the text is read, nothing is left to read. -/
theorem scan_of_eof {last : Option Kind} {cursor : Cursor} {t : Token}
    (h : (scan last cursor).outcome = .ok t) (ht : t.kind = .eof) :
    ∃ p, scan last cursor = .token .eof [] p [] [] := by
  unfold scan at h ⊢
  split
  · rename_i stop hgap
    rw [hgap] at h
    rw [lexeme_of_eof h ht]
    exact ⟨stop.position, rfl⟩
  · rename_i opening stop hgap
    rw [hgap] at h
    cases h

/-! ## Streams -/

namespace TokenStream

theorem scanAll_of_error {last : Option Kind} {cursor : Cursor} {e : LexError}
    (h : (scan last cursor).outcome = .error e) : scanAll last cursor = ⟨[], some e⟩ := by
  rw [scanAll]
  split
  · rename_i h'
    cases h'.symm.trans h
    rfl
  · rename_i h'
    cases h'.symm.trans h

theorem scanAll_of_eof {last : Option Kind} {cursor : Cursor} {t : Token}
    (h : (scan last cursor).outcome = .ok t) (ht : t.kind = .eof) :
    scanAll last cursor = ⟨[t], none⟩ := by
  rw [scanAll]
  split
  · rename_i h'
    cases h'.symm.trans h
  · rename_i t' h'
    obtain rfl : t' = t := Except.ok.inj (h'.symm.trans h)
    rw [dif_pos ht]

theorem scanAll_of_token {last : Option Kind} {cursor : Cursor} {t : Token}
    (h : (scan last cursor).outcome = .ok t) (ht : t.kind ≠ .eof) :
    scanAll last cursor =
      ⟨t :: (scanAll (some t.kind) (scan last cursor).cursor).tokens,
        (scanAll (some t.kind) (scan last cursor).cursor).fault⟩ := by
  rw [scanAll]
  split
  · rename_i h'
    cases h'.symm.trans h
  · rename_i t' h'
    obtain rfl : t' = t := Except.ok.inj (h'.symm.trans h)
    rw [dif_neg ht]

/-- The first token of a stream is the one that is scanned, and the others follow it. -/
theorem scan_of_tokens {last : Option Kind} {cursor : Cursor} {t : Token} {ts : List Token}
    (h : (scanAll last cursor).tokens = t :: ts) :
    (scan last cursor).outcome = .ok t ∧ (t.kind = .eof → ts = []) ∧
      (t.kind ≠ .eof → (scanAll (some t.kind) (scan last cursor).cursor).tokens = ts) := by
  cases hscan : (scan last cursor).outcome with
  | error e =>
    rw [scanAll_of_error hscan] at h
    cases h
  | ok t' =>
    by_cases heof : t'.kind = .eof
    · rw [scanAll_of_eof hscan heof] at h
      obtain ⟨rfl, rfl⟩ := List.cons.inj h
      exact ⟨rfl, fun _ => rfl, fun ht => absurd heof ht⟩
    · rw [scanAll_of_token hscan heof] at h
      obtain ⟨rfl, hts⟩ := List.cons.inj h
      exact ⟨rfl, fun ht => absurd ht heof, fun _ => hts⟩

/-- Whether the end of the text is the last token and no other, or the stream ends in a
    fault and the end of the text is none of its tokens. -/
inductive Terminated : TokenStream → Prop where
  | text {init : List Token} {eof : Token} :
      (∀ t ∈ init, t.kind ≠ .eof) → eof.kind = .eof → Terminated ⟨init ++ [eof], none⟩
  | fault {tokens : List Token} {e : LexError} :
      (∀ t ∈ tokens, t.kind ≠ .eof) → Terminated ⟨tokens, some e⟩

/-- A token before the others does not change how a stream ends. -/
theorem Terminated.cons {s : TokenStream} {t : Token} (h : s.Terminated)
    (ht : t.kind ≠ .eof) : Terminated ⟨t :: s.tokens, s.fault⟩ := by
  cases h with
  | text hinit heof => exact .text (List.forall_mem_cons.mpr ⟨ht, hinit⟩) heof
  | fault htokens => exact .fault (List.forall_mem_cons.mpr ⟨ht, htokens⟩)

theorem terminated_scanAll (last : Option Kind) (cursor : Cursor) :
    (scanAll last cursor).Terminated := by
  fun_induction scanAll last cursor with
  | case1 last cursor e h => exact .fault (by simp)
  | case2 last cursor t h ht => exact Terminated.text (List.forall_mem_nil _) ht
  | case3 last cursor t h ht s ih => exact ih.cons ht

theorem terminated_ofText (text : String) : (ofText text).Terminated :=
  terminated_scanAll none (Cursor.ofText text)

/-- A stream without a fault has a last token, the end of the text. -/
theorem Terminated.getLast {s : TokenStream} (h : s.Terminated) (hfault : s.fault = none) :
    ∃ t ∈ s.tokens.getLast?, t.kind = .eof := by
  cases h with
  | text _ heof => exact ⟨_, by simp, heof⟩
  | fault _ => exact nomatch hfault

/-- What follows the end of the text in a stream is nothing. -/
theorem Terminated.eq_of_append {s : TokenStream} (h : s.Terminated) {w rest : List Token}
    {eof : Token} (heof : eof.kind = .eof) (hs : s.tokens = w ++ eof :: rest) :
    s.fault = none ∧ rest = [] := by
  cases h with
  | @text init last hinit _ =>
    refine ⟨rfl, ?_⟩
    rcases List.eq_nil_or_concat rest with rfl | ⟨rest, t, rfl⟩
    · rfl
    · -- the end of the text would be one of the tokens before the last
      have hsplit : init ++ [last] = (w ++ eof :: rest) ++ [t] := by simpa using hs
      obtain rfl := List.append_inj_left' hsplit rfl
      exact absurd heof (hinit eof (by simp))
  | fault htokens =>
    obtain rfl := hs
    exact absurd heof (htokens eof (by simp))

end TokenStream

/-- The tokens of a text are those of its stream, if that has no fault. -/
theorem tokenize_eq_ok_iff {text : String} {ts : List Token} :
    tokenize text = .ok ts ↔ TokenStream.ofText text = ⟨ts, none⟩ := by
  simp only [tokenize]
  obtain ⟨tokens, fault⟩ := TokenStream.ofText text
  cases fault <;> simp

/-- A text that cannot be read has a stream with a fault. -/
theorem tokenize_eq_error_iff {text : String} {e : LexError} :
    tokenize text = .error e ↔ (TokenStream.ofText text).fault = some e := by
  simp only [tokenize]
  obtain ⟨tokens, fault⟩ := TokenStream.ofText text
  cases fault <;> simp

end VectorLang
