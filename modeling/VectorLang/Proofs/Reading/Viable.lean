import VectorLang.Proofs.Grammar.Derived
import VectorLang.Proofs.Reading.Tracks

/-!
# The parser stops at the first token that does not fit

Every function of the parser tracks the rule of the grammar that it is there for.  That is shown of
all functions at once, by induction on the levels of nesting, of which there are always enough left
(as for `Lockstep`).  The other streams may be read with more levels, and with another source.

* `tracked`          expressions
* `trackedBlock`     statements
* `blames_program`   programs
-/

namespace VectorLang

namespace Parser

open Ebnf
open Grammar (restricted documented commaSeparated relation)

/-! ## Tokens -/

/-- A token of a kind that is neither a numeral nor a parameter. -/
private theorem carries_token {s s' : Spot} {t : Token} {k : Kind} (ht : t.kind = k)
    (hnext : s.next k = s') (hint : k ≠ .int := by decide)
    (hident : s = .row → k ≠ .ident := by decide) : Carries s s' [t] := by
  subst ht hnext
  exact .token hint hident

/-- A token that starts no function, outside of the head of one. -/
private theorem carries_body {t : Token} {k : Kind} (ht : t.kind = k)
    (hint : k ≠ .int := by decide) (hbegin : k ≠ .kwBegin := by decide) :
    Carries .body .body [t] := by
  refine carries_token ht ?_ hint (by simp)
  cases k <;> first
    | rfl
    | exact absurd rfl hbegin

/-- A numeral that is short enough. -/
private theorem carries_numeral {t : Token} {value : Int} (ht : t.kind = .int)
    (hread : Numeral.read t.text.toList = .ok value) : Carries .body .body [t] := by
  have hshort : (Numeral.digits t.text.toList).length ≤ Numeral.maxDigits := by
    rw [Numeral.read] at hread
    split at hread
    · assumption
    · cases hread
  refine ⟨⟨?_, ?_⟩, ?_⟩
  · simpa using fun _ => hshort
  · simp [Spot.parameters]
  · simp [ht, Spot.next]

/-- The last token of an expression, and what is made of it. -/
private theorem tracks_closing {α : Type} {k : Kind} {b b' : Token → α} {l : Lookahead} {j : Nat}
    (hl : l.Closed) (hk : k ≠ .int ∧ k ≠ .kwBegin ∧ k ≠ .eof) (hj : l.size ≤ j) :
    Tracks .body .body (token k) False j (consume k >>= fun t => pure (b' t)) l
      ((consume k >>= fun t => pure (b t)) l) := by
  have hclosing : Tracks .body .body (token k) False l.size (consume k) l (consume k l) :=
    tracks_consume hl hk.2.2 False.elim fun h => carries_body h hk.1 hk.2.1
  exact (hclosing.mono hj id).bind_pure

/-! ## Expressions -/

/-- What comes after the first term of an expression. -/
def sumRest : Ebnf Nonterminal :=
  many ((token .plus ||| token .minus) ++ symbol .term)

/-- What comes after the first factor of a term. -/
def productRest : Ebnf Nonterminal :=
  many ((token .star ||| token .slash) ++ symbol .factor)

/-- What the functions for expressions do with `n` levels of nesting, and with `n₂` on other
    streams. -/
structure Tracked (src₁ src₂ : Source) (n n₂ : Nat) : Prop where
  expression {l : Lookahead} : l.Closed → 8 * l.size + 5 ≤ n →
    Tracks .body .body (symbol .expression) (l.current.kind = .ident) l.size
      (expression src₂ n₂) l (expression src₁ n l)
  sums {l : Lookahead} {left₁ left₂ : Node} : l.Closed → 8 * l.size ≤ n →
    Tracks .body .body sumRest False (l.size + 1)
      (sumTail src₂ n₂ left₂) l (sumTail src₁ n left₁ l)
  term {l : Lookahead} : l.Closed → 8 * l.size + 4 ≤ n →
    Tracks .body .body (symbol .term) (l.current.kind = .ident) l.size
      (term src₂ n₂) l (term src₁ n l)
  products {l : Lookahead} {left₁ left₂ : Node} : l.Closed → 8 * l.size ≤ n →
    Tracks .body .body productRest False (l.size + 1)
      (productTail src₂ n₂ left₂) l (productTail src₁ n left₁ l)
  factor {l : Lookahead} : l.Closed → 8 * l.size + 3 ≤ n →
    Tracks .body .body (symbol .factor) (l.current.kind = .ident) l.size
      (factor src₂ n₂) l (factor src₁ n l)
  /-- A factor that is no vector takes a token first. -/
  headFactor {l : Lookahead} : l.Closed → 8 * l.size ≤ n →
    l.current.kind = .tilde ∨ l.current.kind = .hash ∨ l.current.kind = .lparen →
    Tracks .body .body (symbol .factor) (l.current.kind = .ident) l.size
      (Parser.factor src₂ n₂) l (Parser.factor src₁ n l)
  vector {l : Lookahead} : l.Closed → 8 * l.size + 2 ≤ n →
    Tracks .body .body (symbol .vector) (l.current.kind = .ident) l.size
      (vector src₂ n₂) l (vector src₁ n l)
  elements {l : Lookahead} : l.Closed → 8 * l.size + 2 ≤ n →
    Tracks .body .body (many (symbol .element)) False (l.size + 1)
      (elements src₂ n₂) l (elements src₁ n l)
  element {l : Lookahead} : l.Closed → 8 * l.size + 1 ≤ n →
    Tracks .body .body (symbol .element) (l.current.kind = .ident) l.size
      (element src₂ n₂) l (element src₁ n l)
  reference {l : Lookahead} : l.Closed → 8 * l.size ≤ n →
    Tracks .body .body (symbol .reference) (l.current.kind = .ident) l.size
      (reference src₂ n₂) l (reference src₁ n l)
  call {l : Lookahead} : l.Closed → 8 * l.size ≤ n →
    Tracks .body .body (symbol .call) (l.current.kind = .ident) l.size
      (call src₂ n₂) l (call src₁ n l)
  arguments {l : Lookahead} : l.Closed → 8 * l.size + 6 ≤ n →
    Tracks .body .body (commaSeparated (symbol .expression)) False l.size
      (arguments src₂ n₂) l (arguments src₁ n l)

section

variable {src₁ src₂ : Source} {n n₂ : Nat} {l : Lookahead}

/-- An operator or a parenthesis, and what is read after it. -/
private theorem tracks_advance_bind {α : Type} {k : Kind} {r r' : Ebnf Nonterminal} {c : Prop}
    {j : Nat} {f g : Unit → Parser α} (hl : l.Closed) (ht : l.current.kind = k)
    (hk : k ≠ .int ∧ k ≠ .kwBegin ∧ k ≠ .eof) (hr : Productive r)
    (hrule : ∀ w, Derives restricted r w → Derives restricted r' (k :: w))
    (hf : ∀ {m}, m.Closed → m.size < l.size → Tracks .body .body r False j (g ()) m (f () m)) :
    Tracks .body .body r' c j (advance >>= g) l ((advance >>= f) l) := by
  have hadvance := tracks_advance (c := c) hl (ht ▸ hk.2.2) (carries_body ht hk.1 hk.2.1)
  have hbind := hadvance.bind (f := f) (g := g) hl (fun h => ⟨h, Nat.le_refl _⟩) hr
    fun _ hm hlt => hf hm hlt
  refine hbind.rule fun w hw => ?_
  obtain ⟨u, v, rfl, hu, hv⟩ := Derives.append_iff.mp hw
  rw [Derives.token_iff.mp hu, ht]
  exact hrule v hv

/-- An operator with its second operand, and the operations after them. -/
private theorem tracks_operation {α : Type} {ops operand : Ebnf Nonterminal} {c : Prop} {j : Nat}
    {f g : Unit → Parser α} (hl : l.Closed)
    (hk : l.current.kind ≠ .int ∧ l.current.kind ≠ .kwBegin ∧ l.current.kind ≠ .eof)
    (hop : Derives restricted ops [l.current.kind]) (hoperand : Productive operand)
    (hf : ∀ {m}, m.Closed → m.size < l.size →
      Tracks .body .body (operand ++ many (ops ++ operand)) False j (g ()) m (f () m)) :
    Tracks .body .body (many (ops ++ operand)) c j (advance >>= g) l ((advance >>= f) l) := by
  refine tracks_advance_bind hl rfl hk ?_ (fun w hw => ?_) hf
  · exact productive_append.mpr ⟨hoperand, productive_many⟩
  · obtain ⟨u, v, rfl, hu, hv⟩ := Derives.append_iff.mp hw
    exact .manyCons (hop.append hu) hv

private theorem tracked_expression (ih : Tracked src₁ src₂ n n₂) (hl : l.Closed)
    (hn : 8 * l.size + 5 ≤ n + 1) :
    Tracks .body .body (symbol .expression) (l.current.kind = .ident) l.size
      (expression src₂ (n₂ + 1)) l (expression src₁ (n + 1) l) := by
  rw [expression, expression]
  refine .symbol ?_
  refine (ih.term hl (by omega)).bind hl (fun h => ⟨h, Nat.le_refl _⟩) productive_many ?_
  intro _ _ m _ hm hlt
  exact (ih.sums hm (by omega)).mono hlt id

private theorem tracked_sums (ih : Tracked src₁ src₂ n n₂) (hl : l.Closed)
    (hn : 8 * l.size ≤ n + 1) {left₁ left₂ : Node} :
    Tracks .body .body sumRest False (l.size + 1)
      (sumTail src₂ (n₂ + 1) left₂) l (sumTail src₁ (n + 1) left₁ l) := by
  rw [sumTail, sumTail]
  refine tracks_current_bind fun {t} ht => ?_
  simp only [ht]
  cases hop : sumOp? l.current.kind with
  | none => exact .pure .manyNil (Nat.lt_succ_self _)
  | some op =>
    have hk : l.current.kind ≠ .int ∧ l.current.kind ≠ .kwBegin ∧ l.current.kind ≠ .eof := by
      cases hkind : l.current.kind <;> simp_all [sumOp?]
    refine tracks_operation hl hk (Derives.of_sumOp hop) (productive_symbol .term) ?_
    intro m hm hlt
    refine (ih.term hm (by omega)).bind hm False.elim productive_many ?_
    intro _ _ m' _ hm' hlt'
    exact (ih.sums hm' (by omega)).mono (by omega) id

private theorem tracked_term (ih : Tracked src₁ src₂ n n₂) (hl : l.Closed)
    (hn : 8 * l.size + 4 ≤ n + 1) :
    Tracks .body .body (symbol .term) (l.current.kind = .ident) l.size
      (term src₂ (n₂ + 1)) l (term src₁ (n + 1) l) := by
  rw [term, term]
  refine .symbol ?_
  refine (ih.factor hl (by omega)).bind hl (fun h => ⟨h, Nat.le_refl _⟩) productive_many ?_
  intro _ _ m _ hm hlt
  exact (ih.products hm (by omega)).mono hlt id

private theorem tracked_products (ih : Tracked src₁ src₂ n n₂) (hl : l.Closed)
    (hn : 8 * l.size ≤ n + 1) {left₁ left₂ : Node} :
    Tracks .body .body productRest False (l.size + 1)
      (productTail src₂ (n₂ + 1) left₂) l (productTail src₁ (n + 1) left₁ l) := by
  rw [productTail, productTail]
  refine tracks_current_bind fun {t} ht => ?_
  simp only [ht]
  cases hop : productOp? l.current.kind with
  | none => exact .pure .manyNil (Nat.lt_succ_self _)
  | some op =>
    have hk : l.current.kind ≠ .int ∧ l.current.kind ≠ .kwBegin ∧ l.current.kind ≠ .eof := by
      cases hkind : l.current.kind <;> simp_all [productOp?]
    refine tracks_operation hl hk (Derives.of_productOp hop) (productive_symbol .factor) ?_
    intro m hm hlt
    refine (ih.factor hm (by omega)).bind hm False.elim productive_many ?_
    intro _ _ m' _ hm' hlt'
    exact (ih.products hm' (by omega)).mono (by omega) id

/-- After an operator or a parenthesis there is less to read. -/
private theorem tracked_headFactor (ih : Tracked src₁ src₂ n n₂) (hl : l.Closed)
    (hn : 8 * l.size ≤ n + 1)
    (hk : l.current.kind = .tilde ∨ l.current.kind = .hash ∨ l.current.kind = .lparen) :
    Tracks .body .body (symbol .factor) (l.current.kind = .ident) l.size
      (factor src₂ (n₂ + 1)) l (factor src₁ (n + 1) l) := by
  rw [factor, factor]
  refine .symbol (tracks_current_bind fun {t} ht => ?_)
  simp only [ht]
  cases hop : unaryOp? l.current.kind with
  | some op =>
    have hkind : l.current.kind ≠ .int ∧ l.current.kind ≠ .kwBegin ∧ l.current.kind ≠ .eof := by
      rcases hk with hk | hk | hk <;> simp [hk]
    refine tracks_advance_bind (r := symbol .vector) hl rfl hkind (productive_symbol _) ?_ ?_
    · intro w hw
      exact .inl (.inl (.of_unaryOp hop hw))
    · intro m hm hlt
      exact ((ih.vector hm (by omega)).mono (by omega) False.elim).bind_pure
  | none =>
    have hparen : l.current.kind = .lparen := by
      rcases hk with hk | hk | hk
      · rw [hk] at hop
        cases hop
      · rw [hk] at hop
        cases hop
      · exact hk
    simp only [if_pos hparen]
    refine tracks_advance_bind (r := symbol .expression ++ token .rparen) hl hparen (by decide)
      (by simp) ?_ ?_
    · intro w hw
      exact .inl (.inr (.assoc (.cons .lparen hw)))
    · intro m hm hlt
      refine (ih.expression hm (by omega)).bind hm False.elim (by simp) ?_
      intro _ _ m' _ hm' hlt'
      exact tracks_closing hm' (by decide) (by omega)

private theorem tracked_factor (ih : Tracked src₁ src₂ n n₂) (hl : l.Closed)
    (hn : 8 * l.size + 3 ≤ n + 1) :
    Tracks .body .body (symbol .factor) (l.current.kind = .ident) l.size
      (factor src₂ (n₂ + 1)) l (factor src₁ (n + 1) l) := by
  -- a factor that is a vector has taken no token yet, and so needs a level more
  by_cases hk : l.current.kind = .tilde ∨ l.current.kind = .hash ∨ l.current.kind = .lparen
  · exact tracked_headFactor ih hl (by omega) hk
  · have hop : unaryOp? l.current.kind = none := by
      cases hkind : l.current.kind <;> simp_all [unaryOp?]
    have hparen : l.current.kind ≠ .lparen := fun h => hk (Or.inr (Or.inr h))
    rw [factor, factor]
    refine tracks_current_bind fun {t} ht => ?_
    simp only [ht, hop, if_neg hparen]
    -- the vector does not start with a parenthesis
    refine (ih.vector hl (by omega)).rule_of_start (by simp) fun w hw => ?_
    exact .symbol (.inr (.guarded hw (by simpa using hparen)))

private theorem tracked_vector (ih : Tracked src₁ src₂ n n₂) (hl : l.Closed)
    (hn : 8 * l.size + 2 ≤ n + 1) :
    Tracks .body .body (symbol .vector) (l.current.kind = .ident) l.size
      (vector src₂ (n₂ + 1)) l (vector src₁ (n + 1) l) := by
  rw [vector, vector]
  refine .symbol (tracks_current_bind fun {t} _ => ?_)
  refine (ih.element hl (by omega)).bind hl (fun h => ⟨h, Nat.le_refl _⟩) productive_many ?_
  intro _ _ m _ hm hlt
  exact ((ih.elements hm (by omega)).mono hlt id).bind_pure

private theorem tracked_elements (ih : Tracked src₁ src₂ n n₂) (hl : l.Closed)
    (hn : 8 * l.size + 2 ≤ n + 1) :
    Tracks .body .body (many (symbol .element)) False (l.size + 1)
      (elements src₂ (n₂ + 1)) l (elements src₁ (n + 1) l) := by
  rw [elements, elements]
  refine tracks_currentKind_bind ?_
  split
  · refine .rule (r := symbol .element ++ many (symbol .element)) ?_ fun w => .repeated
    refine (ih.element hl (by omega)).bind hl False.elim productive_many ?_
    intro _ _ m _ hm hlt
    exact ((ih.elements hm (by omega)).mono (by omega) id).bind_pure
  · exact .pure .manyNil (Nat.lt_succ_self _)

/-- A numeral is an element if it is short enough. -/
private theorem tracks_numeral {c : Prop} {t : Token} (hl : l.Closed) (hk : l.current.kind = .int) :
    Tracks .body .body (token .int) c l.size
      (advance >>= fun _ =>
        match Numeral.read t.text.toList with
        | .ok value => pure (.int (src₂.locate t) value)
        | .error digits => throw (.numeralTooLong digits)) l
      ((advance >>= fun _ =>
        match Numeral.read l.current.text.toList with
        | .ok value => pure (.int (src₁.locate l.current) value)
        | .error digits => throw (.numeralTooLong digits) : Parser Node) l) := by
  cases hread : Numeral.read l.current.text.toList with
  | ok value =>
    have hadvance := tracks_advance (c := c) hl (by simp [hk]) (carries_numeral hk hread)
    rw [hk] at hadvance
    refine hadvance.map (fun hok => ⟨_, bind_of_ok hok⟩) bind_of_error ?_
    intro l₂ b m hok
    obtain ⟨_, m', ha, hrest⟩ := bind_eq_ok.mp hok
    cases hread₂ : Numeral.read t.text.toList with
    | ok value₂ =>
      rw [hread₂] at hrest
      obtain ⟨-, rfl⟩ := pure_eq_ok.mp hrest
      exact ⟨(), ha⟩
    | error digits =>
      rw [hread₂] at hrest
      exact absurd hrest throw_ne_ok
  | error digits =>
    cases hadvance : advance l with
    | ok _ m =>
      rw [bind_of_ok hadvance]
      refine .error (.numeralTooLong (t := l.current) List.mem_cons_self hk ?_)
      rw [Numeral.read] at hread
      split at hread
      · cases hread
      · exact Nat.lt_of_not_le ‹_›
    | error e m =>
      rw [bind_of_error hadvance]
      obtain ⟨e', rfl, hfault, htokens⟩ := advance_eq_error hadvance
      refine .error (.lexical (v := []) hfault ?_)
      rw [htokens, List.map_singleton, hk]
      exact .token .int

private theorem tracked_element (ih : Tracked src₁ src₂ n n₂) (hl : l.Closed)
    (hn : 8 * l.size + 1 ≤ n + 1) :
    Tracks .body .body (symbol .element) (l.current.kind = .ident) l.size
      (element src₂ (n₂ + 1)) l (element src₁ (n + 1) l) := by
  rw [element, element]
  refine .symbol (tracks_current_bind fun {t} ht => ?_)
  rw [ht]
  cases hk : l.current.kind with
  | string =>
    have hadvance := tracks_advance (c := Kind.string = .ident) hl (by simp [hk]) (carries_body hk)
    rw [hk] at hadvance
    exact .inl (.inl (.inl (.inr hadvance.bind_pure)))
  | int => exact .inl (.inl (.inl (.inl (tracks_numeral hl hk))))
  | ident =>
    have href : Derives restricted (symbol .reference) [.ident] :=
      .symbol (.cons .ident .optNone)
    refine .mono (tracks_peek_bind hl hk (.inl (.inr href)) ?_) (Nat.le_refl _) fun _ => hk
    intro t t' hnext
    rw [hnext]
    split
    · exact .inl (.inl (.inr (ih.call hl (by omega))))
    · exact .inl (.inr (ih.reference hl (by omega)))
  | tilde =>
    have hfactor := ih.headFactor hl (by omega) (Or.inl hk)
    exact .inr (hfactor.mono (Nat.le_refl _) (hk ▸ id))
  | hash =>
    have hfactor := ih.headFactor hl (by omega) (Or.inr (Or.inl hk))
    exact .inr (hfactor.mono (Nat.le_refl _) (hk ▸ id))
  | lparen =>
    have hfactor := ih.headFactor hl (by omega) (Or.inr (Or.inr hk))
    exact .inr (hfactor.mono (Nat.le_refl _) (hk ▸ id))
  | _ =>
    refine .unexpected (by decide) (by simp [restricted, documented]) ?_
    exact fun _ _ _ _ _ => throw_ne_ok

private theorem tracked_reference (ih : Tracked src₁ src₂ n n₂) (hl : l.Closed)
    (hn : 8 * l.size ≤ n + 1) :
    Tracks .body .body (symbol .reference) (l.current.kind = .ident) l.size
      (reference src₂ (n₂ + 1)) l (reference src₁ (n + 1) l) := by
  rw [reference, reference]
  refine .symbol (tracks_consume_bind hl (by decide) id (fun h => carries_body h) productive_opt ?_)
  intro t t' m _ hm hlt
  refine tracks_accept_bind (symbol .expression ++ token .rbracket) hm (by decide) (by simp)
    (fun w hw => .optSome (.assoc (.cons .lbracket hw))) (fun h => carries_body h) ?_ ?_
  · intro m' hm' hlt'
    refine (ih.expression hm' (by omega)).bind hm' False.elim (by simp) ?_
    intro _ _ m'' _ hm'' hlt''
    exact tracks_closing hm'' (by decide) (by omega)
  · intro _
    exact .pure .optNone hlt

private theorem tracked_call (ih : Tracked src₁ src₂ n n₂) (hl : l.Closed)
    (hn : 8 * l.size ≤ n + 1) :
    Tracks .body .body (symbol .call) (l.current.kind = .ident) l.size
      (call src₂ (n₂ + 1)) l (call src₁ (n + 1) l) := by
  rw [call, call]
  refine .symbol (.assoc (.assoc ?_))
  refine tracks_consume_bind hl (by decide) id (fun h => carries_body h) (by simp) ?_
  intro name name' m _ hm hlt
  refine tracks_consume_bind hm (by decide) False.elim (fun h => carries_body h) (by simp) ?_
  intro _ _ m' _ hm' hlt'
  -- what follows the arguments, if there are any
  have hclosed {args args' : List Node} {m : Lookahead} (hm : m.Closed) (hle : m.size ≤ m'.size) :
      Tracks .body .body (token .rparen) False l.size
        (consume .rparen >>= fun _ => pure (.call (src₂.locate name') (isGlobalName name'.text)
          name'.text args')) m
        ((consume .rparen >>= fun _ => pure (.call (src₁.locate name) (isGlobalName name.text)
          name.text args) : Parser Node) m) := by
    exact tracks_closing hm (by decide) (by omega)
  refine tracks_currentKind_bind ?_
  split
  · exact (hclosed hm' (Nat.le_refl _)).rule fun w => .skip
  · refine .rule (r := commaSeparated (symbol .expression) ++ token .rparen) ?_ fun w => .take
    refine (ih.arguments hm' (by omega)).bind hm' False.elim (by simp) ?_
    intro _ _ m'' _ hm'' hlt''
    exact hclosed hm'' (by omega)

private theorem tracked_arguments (ih : Tracked src₁ src₂ n n₂) (hl : l.Closed)
    (hn : 8 * l.size + 6 ≤ n + 1) :
    Tracks .body .body (commaSeparated (symbol .expression)) False l.size
      (arguments src₂ (n₂ + 1)) l (arguments src₁ (n + 1) l) := by
  rw [arguments, arguments]
  refine (ih.expression hl (by omega)).bind hl False.elim productive_many ?_
  intro _ _ m _ hm hlt
  refine tracks_accept_bind (commaSeparated (symbol .expression)) hm (by decide)
    (by simp [commaSeparated]) ?_ (fun h => carries_body h) ?_ ?_
  · intro w hw
    obtain ⟨u, v, rfl, hu, hv⟩ := Derives.append_iff.mp hw
    exact .manyCons (.cons .comma hu) hv
  · intro m' hm' hlt'
    exact ((ih.arguments hm' (by omega)).mono (by omega) id).bind_pure
  · intro _
    exact .pure .manyNil hlt

end

/-- With no level left there is no token left. -/
private theorem tracked_zero (src₁ src₂ : Source) (n₂ : Nat) : Tracked src₁ src₂ 0 n₂ := by
  have hpos (l : Lookahead) : 0 < l.size := Nat.succ_pos _
  constructor
  all_goals
    intro l
    have := hpos l
    intros
    omega

/-- Whatever the levels of nesting are, the functions for expressions track their rules. -/
theorem tracked (src₁ src₂ : Source) (d n : Nat) : Tracked src₁ src₂ n (d + n) := by
  induction n with
  | zero => exact tracked_zero src₁ src₂ d
  | succ n ih =>
    exact {
      expression := tracked_expression ih
      sums := fun hl hn => tracked_sums ih hl hn
      term := tracked_term ih
      products := fun hl hn => tracked_products ih hl hn
      factor := tracked_factor ih
      headFactor := tracked_headFactor ih
      vector := tracked_vector ih
      elements := tracked_elements ih
      element := tracked_element ih
      reference := tracked_reference ih
      call := tracked_call ih
      arguments := tracked_arguments ih }

/-! ## Statements -/

/-- What the functions for statements do with `n` levels of nesting, and with `n₂` on other
    streams. -/
structure TrackedBlock (src₁ src₂ : Source) (n n₂ : Nat) : Prop where
  statements {l : Lookahead} {functions : Bool} : l.Closed → 8 * l.size + 7 ≤ n →
    Tracks .body .body (symbol (.statements functions)) False l.size
      (statements src₂ functions n₂) l (statements src₁ functions n l)
  statement {l : Lookahead} {functions : Bool} : l.Closed → 8 * l.size + 6 ≤ n →
    Tracks .body .body (symbol (.statement functions)) False l.size
      (statement src₂ functions n₂) l (statement src₁ functions n l)
  function {l : Lookahead} : l.Closed → 8 * l.size ≤ n →
    Tracks .body .body (symbol .function) False l.size
      (function src₂ n₂) l (function src₁ n l)
  loop {l : Lookahead} : l.Closed → 8 * l.size ≤ n →
    Tracks .body .body (symbol .loop) False l.size (loop src₂ n₂) l (loop src₁ n l)
  conditional {l : Lookahead} : l.Closed → 8 * l.size ≤ n →
    Tracks .body .body (symbol .conditional) False l.size
      (conditional src₂ n₂) l (conditional src₁ n l)

section

variable {src₁ src₂ : Source} {d n n₂ : Nat} {l : Lookahead}

theorem tracks_comparison (hl : l.Closed) (hn : 8 * l.size + 5 ≤ n) :
    Tracks .body .body (symbol .comparison) False l.size
      (comparison src₂ (d + n)) l (comparison src₁ n l) := by
  have steps := tracked src₁ src₂ d n
  rw [comparison, comparison]
  refine .symbol (.assoc (tracks_current_bind fun {t} _ => ?_))
  refine (steps.expression hl hn).bind hl False.elim (by simp [relation]) ?_
  intro _ _ m _ hm hlt
  have hrelation : Tracks .body .body relation False m.size (consumeAny relational) m
      (consumeAny relational m) := by
    refine tracks_consumeAny hm (by decide) (by simp [relation]) ?_ False.elim ?_
    · intro k hk
      exact .of_relational (List.contains_iff_mem.mpr hk)
    · intro hk
      refine carries_body rfl ?_ ?_
      · rintro h
        rw [h] at hk
        exact absurd hk (by decide)
      · rintro h
        rw [h] at hk
        exact absurd hk (by decide)
  refine hrelation.bind hm False.elim (by simp) ?_
  intro _ _ m' _ hm' hlt'
  exact ((steps.expression hm' (by omega)).mono (by omega) False.elim).bind_pure

theorem tracks_assignment (hl : l.Closed) (hn : 8 * l.size ≤ n) :
    Tracks .body .body (symbol .assignment) (l.current.kind = .ident) l.size
      (assignment src₂ (d + n)) l (assignment src₁ n l) := by
  have steps := tracked src₁ src₂ d n
  rw [assignment, assignment]
  refine .symbol (.assoc ?_)
  refine tracks_consume_bind hl (by decide) id (fun h => carries_body h) (by simp) ?_
  intro _ _ m _ hm hlt
  refine tracks_consume_bind hm (by decide) False.elim (fun h => carries_body h) (by simp) ?_
  intro _ _ m' _ hm' hlt'
  refine tracks_currentKind_bind ?_
  split
  · exact .pure .optNone (by omega)
  · have hvalue : Tracks .body .body (opt (symbol .expression)) False l.size
        (some <$> expression src₂ (d + n)) m' ((some <$> expression src₁ n) m') := by
      have hexpression := (steps.expression hm' (by omega)).mono (j := l.size) (by omega) False.elim
      refine (hexpression.rule fun _ => .optSome).map ?_ ?_ ?_
      · intro a m'' hok
        exact ⟨some a, map_eq_ok.mpr ⟨a, hok, rfl⟩⟩
      · intro e m'' herror
        simp only [Functor.map, EStateM.map, herror]
      · intro l₂ b m'' hok
        obtain ⟨a, ha, -⟩ := map_eq_ok.mp hok
        exact ⟨a, ha⟩
    exact hvalue.bind_pure

theorem tracks_output (hl : l.Closed) (hn : 8 * l.size + 5 ≤ n) :
    Tracks .body .body (symbol .expression) (l.current.kind = .ident) l.size
      (output src₂ (d + n)) l (output src₁ n l) := by
  rw [output, output]
  refine tracks_current_bind fun {t} _ => ?_
  exact ((tracked src₁ src₂ d n).expression hl hn).bind_pure

/-- A call, and what follows it in the expression that it starts. -/
theorem tracks_callOutput (hl : l.Closed) (hn : 8 * l.size ≤ n) :
    Tracks .body .body (symbol .expression) (l.current.kind = .ident) l.size
      (callOutput src₂ (d + n)) l (callOutput src₁ n l) := by
  have steps := tracked src₁ src₂ d n
  rw [callOutput, callOutput]
  refine tracks_current_bind fun {t} _ => ?_
  refine .rule (r := symbol .call ++ (many (symbol .element) ++ (productRest ++ sumRest))) ?_ ?_
  · refine (steps.call hl hn).bind hl (fun h => ⟨h, Nat.le_refl _⟩)
      (by simp [productRest, sumRest]) ?_
    intro _ _ m _ hm hlt
    refine tracks_currentKind_bind ?_
    split
    · exact .pure (Derives.append (u := []) (v := []) .manyNil
        (Derives.append (u := []) (v := []) .manyNil .manyNil)) hlt
    · refine (steps.elements hm (by omega)).bind hm False.elim (by simp [productRest, sumRest]) ?_
      intro _ _ m' _ hm' hlt'
      refine (steps.products hm' (by omega)).bind hm' False.elim (by simp [sumRest]) ?_
      intro _ _ m'' _ hm'' hlt''
      exact ((steps.sums hm'' (by omega)).mono (by omega) id).bind_pure
  · -- the call is the first element of the vector that the expression starts with
    intro w hw
    obtain ⟨u, v, rfl, hcall, hrest⟩ := Derives.append_iff.mp hw
    obtain ⟨v, x, rfl, helements, hrest⟩ := Derives.append_iff.mp hrest
    obtain ⟨x, y, rfl, hproducts, hsums⟩ := Derives.append_iff.mp hrest
    have helement : Derives restricted (symbol .element) u := .symbol (.inl (.inl (.inr hcall)))
    have hvector : Derives restricted (symbol .vector) (u ++ v) :=
      .symbol (helement.append helements)
    have hfactor : Derives restricted (symbol .factor) (u ++ v) :=
      .symbol (.inr (.guarded hvector (head_of_atom (.inl (.inr hcall)))))
    have hterm : Derives restricted (symbol .term) (u ++ v ++ x) :=
      .symbol (hfactor.append hproducts)
    have hexpression : Derives restricted (symbol .expression) (u ++ v ++ x ++ y) :=
      .symbol (hterm.append hsums)
    exact hexpression.congr (by simp)

/-- A dotted name is used up before it is found to be one. -/
private theorem tracks_dotted {q : Parser (List String)} (hk : l.current.kind = .ident)
    (hdotted : isGlobalName l.current.text = true) :
    Tracks .row .param (commaSeparated (token .ident)) False l.size q l
      (parameters (n + 1) l) := by
  rw [parameters]
  cases hadvance : advance l with
  | ok _ m =>
    have hconsume : consume .ident l = .ok l.current m := consume_eq_ok.mpr ⟨rfl, hk, hadvance⟩
    rw [bind_of_ok hconsume]
    simp only [if_pos hdotted]
    refine .error (.globalParameter ?_ hdotted)
    simp [Lookahead.tokens, Spot.parameters, hk]
  | error e m =>
    obtain ⟨e', rfl, hfault, htokens⟩ := advance_eq_error hadvance
    have hconsume : consume .ident l = .error (.lexical e') m := by
      rw [consume, consumeAny, current_bind, if_pos (by rw [hk]; rfl)]
      exact bind_of_error hadvance
    rw [bind_of_error hconsume]
    refine .error (.lexical (v := []) hfault ?_)
    rw [htokens, List.map_singleton, hk]
    exact Derives.append (.token .ident) .manyNil

/-- A parameter whose name is not dotted. -/
private theorem carries_parameter {t : Token} (hk : t.kind = .ident)
    (hundotted : isGlobalName t.text = false) : Carries .row .param [t] :=
  ⟨⟨by simp [hk], by simp [Spot.parameters, hundotted]⟩, by simp [hk, Spot.next]⟩

theorem tracks_parameters (hl : l.Closed) (hn : 8 * l.size ≤ n) :
    Tracks .row .param (commaSeparated (token .ident)) False l.size
      (parameters (d + n)) l (parameters n l) := by
  induction n generalizing l with
  | zero =>
    have hpos : 0 < l.size := Nat.succ_pos _
    omega
  | succ n ih =>
    by_cases hdotted : l.current.kind = .ident ∧ isGlobalName l.current.text = true
    · exact tracks_dotted hdotted.1 hdotted.2
    · rw [parameters, ← Nat.add_assoc, parameters]
      have hcarries (hk : l.current.kind = .ident) : Carries .row .param [l.current] :=
        carries_parameter hk (Bool.eq_false_iff.mpr fun h => hdotted ⟨hk, h⟩)
      refine tracks_consume_bind hl (by decide) False.elim hcarries productive_many ?_
      intro t t' m hconsume hm hlt
      obtain ⟨rfl, hk, -⟩ := consume_eq_ok.mp hconsume
      simp only [if_neg fun h => hdotted ⟨hk, h⟩]
      refine .or_fails ?_ fun _ _ _ h => ?_
      · refine tracks_accept_bind (commaSeparated (token .ident)) hm (by decide)
          (by simp [commaSeparated]) ?_ (fun h => carries_token h rfl) ?_ ?_
        · intro w hw
          obtain ⟨u, v, rfl, hu, hv⟩ := Derives.append_iff.mp hw
          exact .manyCons (.cons .comma hu) hv
        · intro m' hm' hlt'
          exact ((ih hm' (by omega)).mono (by omega) id).bind_pure
        · intro _
          exact .pure .manyNil hlt
      · obtain ⟨_, _, hthrow, _⟩ := bind_eq_ok.mp h
        exact absurd hthrow throw_ne_ok

private theorem trackedBlock_statements (ih : TrackedBlock src₁ src₂ n n₂) (hl : l.Closed)
    {functions : Bool} (hn : 8 * l.size + 7 ≤ n + 1) :
    Tracks .body .body (symbol (.statements functions)) False l.size
      (statements src₂ functions (n₂ + 1)) l (statements src₁ functions (n + 1) l) := by
  rw [statements, statements]
  refine .symbol (.assoc ?_)
  refine (ih.statement hl (by omega)).bind hl False.elim (by simp) ?_
  intro _ _ m _ hm hlt
  refine tracks_consume_bind hm (by decide) False.elim (fun h => carries_body h) (by simp) ?_
  intro _ _ m' _ hm' hlt'
  refine tracks_currentKind_bind ?_
  split
  · exact .pure .manyNil (by omega)
  · -- the other statements are a repetition that is not empty
    refine .bind_pure (.mono (.rule (ih.statements hm' (by omega)) ?_) (by omega) id)
    intro w hw
    exact (Derives.symbol_iff.mp hw).repeated

private theorem trackedBlock_statement (ih : TrackedBlock src₁ src₂ n (d + n)) (hl : l.Closed)
    {functions : Bool} (hn : 8 * l.size + 6 ≤ n + 1) :
    Tracks .body .body (symbol (.statement functions)) False l.size
      (statement src₂ functions (d + n + 1)) l (statement src₁ functions (n + 1) l) := by
  have houtput : Tracks .body .body (symbol (.statement functions)) (l.current.kind = .ident)
      l.size (output src₂ (d + n)) l (output src₁ n l) :=
    (tracks_output hl (by omega)).rule fun w => statement_derives (.inr (.inr (.inr rfl)))
  have hloop : Tracks .body .body (symbol (.statement functions)) False l.size
      (loop src₂ (d + n)) l (loop src₁ n l) :=
    (ih.loop hl (by omega)).rule fun w => statement_derives (.inl rfl)
  rw [statement, statement]
  refine tracks_currentKind_bind ?_
  cases hk : l.current.kind with
  | kwBegin =>
    cases functions with
    | true => exact .symbol (.inl (.inl (.inl (.inl (ih.function hl (by omega))))))
    | false => exact houtput.mono (Nat.le_refl _) False.elim
  | kwWhile => exact hloop
  | kwUntil => exact hloop
  | kwIf =>
    exact (ih.conditional hl (by omega)).rule fun w => statement_derives (.inr (.inl rfl))
  | ident =>
    have hname : Derives restricted (symbol (.statement functions)) [.ident] := by
      have href : Derives restricted (symbol .reference) [.ident] :=
        .symbol (.cons .ident .optNone)
      have helement : Derives restricted (symbol .element) [.ident] := .symbol (.inl (.inr href))
      exact statement_derives (.inr (.inr (.inr rfl)))
        (helement.expression_of_element (by decide))
    refine .mono (tracks_peek_bind hl hk hname ?_) (Nat.le_refl _) False.elim
    intro t t' hnext
    rw [hnext]
    cases t.kind with
    | assign =>
      exact (tracks_assignment hl (by omega)).rule fun w =>
        statement_derives (.inr (.inr (.inl rfl)))
    | lparen =>
      exact (tracks_callOutput hl (by omega)).rule fun w =>
        statement_derives (.inr (.inr (.inr rfl)))
    | _ => exact houtput
  | _ => exact houtput.mono (Nat.le_refl _) False.elim

private theorem trackedBlock_function (ih : TrackedBlock src₁ src₂ n (d + n)) (hl : l.Closed)
    (hn : 8 * l.size ≤ n + 1) :
    Tracks .body .body (symbol .function) False l.size
      (function src₂ (d + n + 1)) l (function src₁ (n + 1) l) := by
  rw [function, function]
  refine .symbol (.assoc (.assoc (.assoc (.assoc ?_))))
  refine tracks_consume_bind hl (by decide) False.elim
    (fun h => carries_token h rfl) (by simp [commaSeparated]) ?_
  intro keyword keyword' m _ hm hlt
  refine tracks_consume_bind hm (by decide) False.elim
    (fun h => carries_token h rfl) (by simp [commaSeparated]) ?_
  intro name name' m' _ hm' hlt'
  -- what follows the parameters
  have hrest {s : Spot} {params params' : List String} {m : Lookahead} (hm : m.Closed)
      (hle : m.size ≤ m'.size) (hs : s.next .newline = .body) :
      Tracks s .body (token .newline ++ (symbol (.statements true) ++ token .kwEnd)) False l.size
        (consume .newline >>= fun _ => statements src₂ true (d + n) >>= fun body =>
          consume .kwEnd >>= fun _ => pure (.function ⟨src₂.locate keyword',
            isGlobalName name'.text, name'.text, params', body⟩)) m
        ((consume .newline >>= fun _ => statements src₁ true n >>= fun body =>
          consume .kwEnd >>= fun _ => pure (.function ⟨src₁.locate keyword,
            isGlobalName name.text, name.text, params, body⟩) : Parser Node) m) := by
    refine tracks_consume_bind hm (by decide) False.elim
      (fun h => carries_token h hs (by decide) (by simp)) (by simp) ?_
    intro _ _ m₁ _ hm₁ hlt₁
    refine (ih.statements hm₁ (by omega)).bind hm₁ False.elim (by simp) ?_
    intro _ _ m₂ _ hm₂ hlt₂
    exact tracks_closing hm₂ (by decide) (by omega)
  refine tracks_accept_bind
    (commaSeparated (token .ident) ++ (token .rparen ++
      (token .newline ++ (symbol (.statements true) ++ token .kwEnd))))
    hm' (by decide) (by simp [commaSeparated])
    (fun w hw => .take (.assoc (.assoc (.cons .lparen hw)))) (fun h => carries_token h rfl) ?_ ?_
  · intro m₁ hm₁ hlt₁
    refine (tracks_parameters hm₁ (by omega)).bind hm₁ False.elim (by simp) ?_
    intro _ _ m₂ _ hm₂ hlt₂
    refine tracks_consume_bind hm₂ (by decide) False.elim (fun h => carries_token h rfl)
      (by simp) ?_
    intro _ _ m₃ _ hm₃ hlt₃
    exact hrest hm₃ (by omega) rfl
  · intro _
    exact (hrest hm' (Nat.le_refl _) rfl).rule fun w => .skip

private theorem trackedBlock_loop (ih : TrackedBlock src₁ src₂ n (d + n)) (hl : l.Closed)
    (hn : 8 * l.size ≤ n + 1) :
    Tracks .body .body (symbol .loop) False l.size
      (loop src₂ (d + n + 1)) l (loop src₁ (n + 1) l) := by
  rw [loop, loop]
  refine .symbol (.assoc (.assoc (.assoc ?_)))
  have hkeyword : Tracks .body .body (token .kwWhile ||| token .kwUntil) False l.size
      (consumeAny [.kwWhile, .kwUntil]) l (consumeAny [.kwWhile, .kwUntil] l) := by
    refine tracks_consumeAny hl (by decide) (by simp) ?_ False.elim ?_
    · simp only [List.forall_mem_cons]
      exact ⟨.inl (.token _), .inr (.token _), by simp⟩
    · intro hk
      simp only [List.mem_cons, List.not_mem_nil, or_false] at hk
      rcases hk with hk | hk
      · exact carries_body hk
      · exact carries_body hk
  refine hkeyword.bind hl False.elim (by simp) ?_
  intro _ _ m₁ _ hm₁ hlt₁
  refine (tracks_comparison hm₁ (by omega)).bind hm₁ False.elim (by simp) ?_
  intro _ _ m₂ _ hm₂ hlt₂
  refine tracks_consume_bind hm₂ (by decide) False.elim (fun h => carries_body h) (by simp) ?_
  intro _ _ m₃ _ hm₃ hlt₃
  refine (ih.statements hm₃ (by omega)).bind hm₃ False.elim (by simp) ?_
  intro _ _ m₄ _ hm₄ hlt₄
  exact tracks_closing hm₄ (by decide) (by omega)

private theorem trackedBlock_conditional (ih : TrackedBlock src₁ src₂ n (d + n)) (hl : l.Closed)
    (hn : 8 * l.size ≤ n + 1) :
    Tracks .body .body (symbol .conditional) False l.size
      (conditional src₂ (d + n + 1)) l (conditional src₁ (n + 1) l) := by
  rw [conditional, conditional]
  refine .symbol (.assoc (.assoc (.assoc (.assoc ?_))))
  refine tracks_consume_bind hl (by decide) False.elim (fun h => carries_body h) (by simp) ?_
  intro _ _ m₁ _ hm₁ hlt₁
  refine (tracks_comparison hm₁ (by omega)).bind hm₁ False.elim (by simp) ?_
  intro _ _ m₂ _ hm₂ hlt₂
  refine tracks_consume_bind hm₂ (by decide) False.elim (fun h => carries_body h) (by simp) ?_
  intro _ _ m₃ _ hm₃ hlt₃
  refine (ih.statements hm₃ (by omega)).bind hm₃ False.elim (by simp) ?_
  intro _ _ m₄ _ hm₄ hlt₄
  refine tracks_accept_bind
    (token .newline ++ (symbol (.statements false) ++ token .kwEnd)) hm₄ (by decide)
    (by simp) (fun w hw => .take (.assoc (.assoc (.cons .kwElse hw)))) (fun h => carries_body h)
    ?_ ?_
  · intro m₅ hm₅ hlt₅
    refine tracks_consume_bind hm₅ (by decide) False.elim (fun h => carries_body h) (by simp) ?_
    intro _ _ m₆ _ hm₆ hlt₆
    refine (ih.statements hm₆ (by omega)).bind hm₆ False.elim (by simp) ?_
    intro _ _ m₇ _ hm₇ hlt₇
    exact tracks_closing hm₇ (by decide) (by omega)
  · intro _
    exact (tracks_closing hm₄ (by decide) (by omega)).rule fun w => .skip

end

/-- With no level left there is no token left. -/
private theorem trackedBlock_zero (src₁ src₂ : Source) (n₂ : Nat) :
    TrackedBlock src₁ src₂ 0 n₂ := by
  have hpos (l : Lookahead) : 0 < l.size := Nat.succ_pos _
  constructor
  all_goals
    intro l
    have := hpos l
    intros
    omega

/-- Whatever the levels of nesting are, the functions for statements track their rules. -/
theorem trackedBlock (src₁ src₂ : Source) (d n : Nat) : TrackedBlock src₁ src₂ n (d + n) := by
  induction n with
  | zero => exact trackedBlock_zero src₁ src₂ d
  | succ n ih =>
    exact {
      statements := fun hl hn => trackedBlock_statements ih hl hn
      statement := fun hl hn => trackedBlock_statement ih hl hn
      function := trackedBlock_function ih
      loop := trackedBlock_loop ih
      conditional := trackedBlock_conditional ih }

/-! ## Programs -/

/-- An error of the parser, with as many levels as there are for the tokens. -/
theorem blames_program {src₁ src₂ : Source} {d n : Nat} {l m : Lookahead} {e : ParseError}
    (hl : l.Closed) (hn : 8 * l.size + 7 ≤ n) (h : program src₁ n l = .error e m) :
    Blames .body (symbol .program) False (program src₂ (d + n)) l e m := by
  rw [program] at h ⊢
  refine .imp (r := token .kwBegin ++ (token .ident ++ (token .newline ++
    (symbol (.statements true) ++ (token .kwEnd ++ (opt (token .newline) ++ token .eof))))))
    ?_ (fun w hw => .symbol (.assoc (.assoc (.assoc (.assoc (.assoc hw)))))) id fun _ => id
  have hkeyword : Tracks .body .keyword (token .kwBegin) False l.size (consume .kwBegin) l
      (consume .kwBegin l) :=
    tracks_consume hl (by decide) False.elim fun h => carries_token h rfl
  refine .bind hl h hkeyword (by simp) ?_
  intro _ _ m₁ hm₁ hlt₁ h₁
  have hname : Tracks .keyword .name (token .ident) False m₁.size (consume .ident) m₁
      (consume .ident m₁) :=
    tracks_consume hm₁ (by decide) False.elim fun h => carries_token h rfl
  refine .bind hm₁ h₁ hname (by simp) ?_
  intro _ _ m₂ hm₂ hlt₂ h₂
  have hnewline : Tracks .name .body (token .newline) False m₂.size (consume .newline) m₂
      (consume .newline m₂) :=
    tracks_consume hm₂ (by decide) False.elim fun h => carries_token h rfl
  refine .bind hm₂ h₂ hnewline (by simp) ?_
  intro _ _ m₃ hm₃ hlt₃ h₃
  refine .bind hm₃ h₃ ((trackedBlock src₁ src₂ d n).statements hm₃ (by omega)) (by simp) ?_
  intro _ _ m₄ hm₄ hlt₄ h₄
  have hclosing : Tracks .body .body (token .kwEnd) False m₄.size (consume .kwEnd) m₄
      (consume .kwEnd m₄) :=
    tracks_consume hm₄ (by decide) False.elim fun h => carries_body h
  refine .bind hm₄ h₄ hclosing (by simp) ?_
  intro _ _ m₅ hm₅ hlt₅ h₅
  have hrest : Tracks .body .body (opt (token .newline)) False (m₅.size + 1) (accept .newline) m₅
      (accept .newline m₅) :=
    tracks_accept hm₅ (by decide) fun h => carries_body h
  refine .bind hm₅ h₅ hrest (by simp) ?_
  intro _ _ m₆ hm₆ hlt₆ h₆
  -- after the end of the text nothing is read any more
  rcases bind_eq_error.mp h₆ with h₆ | ⟨_, _, _, h₆⟩
  · refine (blames_consume_eof h₆).imp (fun _ => id) id ?_
    intro w hrejects l₂ b m₂ hl₂ hfollows hok
    obtain ⟨a, m', ha, -⟩ := bind_eq_ok.mp hok
    exact hrejects l₂ a m' hl₂ hfollows ha
  · cases h₆

end Parser

end VectorLang
