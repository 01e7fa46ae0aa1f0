import VectorLang.Proofs.Reading.Lookahead
import VectorLang.Proofs.Token.Lexeme
import VectorLang.Proofs.Token.Stream
import VectorLang.Proofs.Tree.Unlocated

/-!
# Reading without places

What the parser does depends on the kinds and texts of the tokens, but not on their places.
It reads two rows of tokens with the same lexemes side by side: either it returns trees that
are equal up to their locations, or it stops at tokens of one index, for the same reason.

That is shown of all functions of the parser at once, by induction on the levels of nesting.
There is always one level left, since each function takes a token or goes down one rule: a
function that comes to `r` others before it takes a token needs `8 * k + r` levels for `k`
tokens (`Lockstep`).

* `lockstep`        expressions
* `lockstepBlock`   statements
* `meets_program`   programs
-/

namespace VectorLang

/-! ## Tokens -/

/-- Whether two tokens stand at one index of two rows. -/
def Token.Matches (ts us : List Token) (t u : Token) : Prop :=
  ∃ i : Nat, ts[i]? = some t ∧ us[i]? = some u

/-- Tokens at one index of rows with the same lexemes have one lexeme. -/
theorem Token.Matches.lexeme {ts us : List Token} {t u : Token} (h : Matches ts us t u)
    (hlexemes : ts.map Token.lexeme = us.map Token.lexeme) : u.lexeme = t.lexeme := by
  obtain ⟨i, ht, hu⟩ := h
  have hi := congrArg (fun lexemes : List Lexeme => lexemes[i]?) hlexemes
  simp only [List.getElem?_map, ht, hu, Option.map_some, Option.some.injEq] at hi
  exact hi.symm

theorem Token.Matches.kind {ts us : List Token} {t u : Token} (h : Matches ts us t u)
    (hlexemes : ts.map Token.lexeme = us.map Token.lexeme) : u.kind = t.kind :=
  congrArg Lexeme.kind (h.lexeme hlexemes)

theorem Token.Matches.text {ts us : List Token} {t u : Token} (h : Matches ts us t u)
    (hlexemes : ts.map Token.lexeme = us.map Token.lexeme) : u.text = t.text :=
  congrArg Lexeme.text (h.lexeme hlexemes)

/-- Whether two errors are the same but for the places of the tokens that they name. -/
inductive ParseError.Alike (ts us : List Token) : ParseError → ParseError → Prop where
  | unexpected {expected : List Kind} {t u : Token} : Token.Matches ts us t u →
      Alike ts us (.unexpected expected t) (.unexpected expected u)
  | globalParameter {t u : Token} : Token.Matches ts us t u →
      Alike ts us (.globalParameter t) (.globalParameter u)
  | numeralTooLong {digits : Nat} : Alike ts us (.numeralTooLong digits) (.numeralTooLong digits)

/-! ## Places -/

namespace Lookahead

/-- How many tokens are left. -/
def size (l : Lookahead) : Nat := l.tokens.length

/-- Whether two streams of tokens with the same lexemes have come to one index. -/
structure Alike (ts us : List Token) (l₁ l₂ : Lookahead) : Prop where
  lexemes : ts.map Token.lexeme = us.map Token.lexeme
  place : ∃ n : Nat, l₁.tokens = ts.drop n ∧ l₂.tokens = us.drop n
  fault₁ : l₁.fault = none
  fault₂ : l₂.fault = none
  closed : l₁.Closed

namespace Alike

variable {ts us : List Token} {l₁ l₂ : Lookahead}

theorem current (h : Alike ts us l₁ l₂) : Token.Matches ts us l₁.current l₂.current := by
  obtain ⟨n, h₁, h₂⟩ := h.place
  refine ⟨n, ?_, ?_⟩
  · rw [← List.head?_drop, ← h₁]
    rfl
  · rw [← List.head?_drop, ← h₂]
    rfl

theorem kind (h : Alike ts us l₁ l₂) : l₂.current.kind = l₁.current.kind :=
  h.current.kind h.lexemes

theorem text (h : Alike ts us l₁ l₂) : l₂.current.text = l₁.current.text :=
  h.current.text h.lexemes

/-- The same number of tokens is left. -/
theorem length_rest (h : Alike ts us l₁ l₂) : l₂.rest.length = l₁.rest.length := by
  obtain ⟨n, h₁, h₂⟩ := h.place
  have hlength : ts.length = us.length := by simpa using congrArg List.length h.lexemes
  have hsize := congrArg List.length h₁
  have hsize' := congrArg List.length h₂
  simp only [tokens, List.length_cons, List.length_drop] at hsize hsize'
  omega

theorem rest_eq_nil (h : Alike ts us l₁ l₂) (hrest : l₁.rest = []) : l₂.rest = [] := by
  have hlength := h.length_rest
  rw [hrest] at hlength
  exact List.eq_nil_of_length_eq_zero hlength

/-- Where one stream has another token, so has the other one. -/
theorem next (h : Alike ts us l₁ l₂) {t : Token} {rest : List Token} (hrest : l₁.rest = t :: rest) :
    ∃ u rest', l₂.rest = u :: rest' ∧
      Alike ts us ⟨l₁.asked + 1, t, rest, l₁.fault⟩ ⟨l₂.asked + 1, u, rest', l₂.fault⟩ := by
  cases hrest' : l₂.rest with
  | nil =>
    have hlength := h.length_rest
    rw [hrest, hrest'] at hlength
    cases hlength
  | cons u rest' =>
    refine ⟨u, rest', rfl, h.lexemes, ?_, h.fault₁, h.fault₂, ?_⟩
    · obtain ⟨n, h₁, h₂⟩ := h.place
      refine ⟨n + 1, ?_, ?_⟩
      · rw [← List.tail_drop, ← h₁]
        exact hrest.symm
      · rw [← List.tail_drop, ← h₂]
        exact hrest'.symm
    · have hreach : l₁.Reach [l₁.current] ⟨l₁.asked + 1, t, rest, l₁.fault⟩ :=
        ⟨congrArg (l₁.current :: ·) hrest, rfl, rfl⟩
      exact h.closed.of_reach hreach

/-- Asking for more than the last token changes nothing. -/
theorem asked (h : Alike ts us l₁ l₂) (hrest : l₁.rest = []) :
    Alike ts us ⟨l₁.asked + 1, l₁.current, [], none⟩ ⟨l₂.asked + 1, l₂.current, [], none⟩ := by
  have h₁ : l₁.tokens = [l₁.current] := congrArg (l₁.current :: ·) hrest
  have h₂ : l₂.tokens = [l₂.current] := congrArg (l₂.current :: ·) (h.rest_eq_nil hrest)
  obtain ⟨n, hplace₁, hplace₂⟩ := h.place
  refine ⟨h.lexemes, ⟨n, h₁.symm.trans hplace₁, h₂.symm.trans hplace₂⟩, rfl, rfl, fun _ => ?_⟩
  obtain ⟨t, ht, hkind⟩ := h.closed h.fault₁
  rw [h₁] at ht
  exact ⟨t, ht, hkind⟩

end Alike

end Lookahead

/-! ## Results -/

namespace Parser

open EStateM (Result)

/-- Whether two functions of the parser have come to the same end: results that `R` relates,
    with less than `k` tokens left, or errors that are the same but for places. -/
inductive Meets (ts us : List Token) {α : Type} (R : α → α → Prop) (k : Nat) :
    Result ParseError Lookahead α → Result ParseError Lookahead α → Prop where
  | ok {a₁ a₂ : α} {l₁ l₂ : Lookahead} : R a₁ a₂ → l₁.Alike ts us l₂ → l₁.size < k →
      Meets ts us R k (.ok a₁ l₁) (.ok a₂ l₂)
  | error {e₁ e₂ : ParseError} {l₁ l₂ : Lookahead} : e₁.Alike ts us e₂ →
      Meets ts us R k (.error e₁ l₁) (.error e₂ l₂)

namespace Meets

variable {ts us : List Token} {α β : Type} {R : α → α → Prop} {S : β → β → Prop} {k j : Nat}
  {l₁ l₂ : Lookahead}

theorem mono {r₁ r₂ : Result ParseError Lookahead α} (h : Meets ts us R k r₁ r₂) (hk : k ≤ j) :
    Meets ts us R j r₁ r₂ := by
  cases h with
  | ok hR halike hsize => exact .ok hR halike (Nat.lt_of_lt_of_le hsize hk)
  | error he => exact .error he

theorem pure {a₁ a₂ : α} (hR : R a₁ a₂) (h : l₁.Alike ts us l₂) (hk : l₁.size < k) :
    Meets ts us R k ((Pure.pure a₁ : Parser α) l₁) ((Pure.pure a₂ : Parser α) l₂) :=
  .ok hR h hk

theorem throw {e₁ e₂ : ParseError} (he : e₁.Alike ts us e₂) :
    Meets ts us R k ((throw e₁ : Parser α) l₁) ((throw e₂ : Parser α) l₂) :=
  .error he

/-- One function after another. -/
theorem bind {p₁ p₂ : Parser α} {f₁ f₂ : α → Parser β} (hp : Meets ts us R k (p₁ l₁) (p₂ l₂))
    (hf : ∀ {a₁ a₂ : α} {m₁ m₂ : Lookahead}, R a₁ a₂ → m₁.Alike ts us m₂ → m₁.size < k →
      Meets ts us S j (f₁ a₁ m₁) (f₂ a₂ m₂)) :
    Meets ts us S j ((p₁ >>= f₁) l₁) ((p₂ >>= f₂) l₂) := by
  generalize h₁ : p₁ l₁ = r₁ at hp
  generalize h₂ : p₂ l₂ = r₂ at hp
  cases hp with
  | ok hR halike hsize =>
    rw [bind_of_ok h₁, bind_of_ok h₂]
    exact hf hR halike hsize
  | error he =>
    rw [bind_of_error h₁, bind_of_error h₂]
    exact .error he

theorem map {p₁ p₂ : Parser α} (f : α → β) (hp : Meets ts us R k (p₁ l₁) (p₂ l₂))
    (hf : ∀ {a₁ a₂ : α}, R a₁ a₂ → S (f a₁) (f a₂)) :
    Meets ts us S k ((f <$> p₁) l₁) ((f <$> p₂) l₂) := by
  simp only [Functor.map, EStateM.map]
  generalize p₁ l₁ = r₁ at hp
  generalize p₂ l₂ = r₂ at hp
  cases hp with
  | ok hR halike hsize => exact .ok (hf hR) halike hsize
  | error he => exact .error he

end Meets

/-! ## Basic steps -/

section

variable {ts us : List Token} {l₁ l₂ : Lookahead}

/-- A token other than the end of the text is used up in both streams. -/
theorem meets_advance (h : l₁.Alike ts us l₂) (hkind : l₁.current.kind ≠ .eof) :
    Meets ts us (fun _ _ => True) l₁.size (advance l₁) (advance l₂) := by
  cases hrest : l₁.rest with
  | nil => exact absurd hrest (h.closed.rest_ne_nil h.fault₁ hkind)
  | cons t rest =>
    obtain ⟨u, rest', hrest', halike⟩ := h.next hrest
    have hsize : (⟨l₁.asked + 1, t, rest, l₁.fault⟩ : Lookahead).size < l₁.size := by
      simp [Lookahead.size, Lookahead.tokens, hrest]
    unfold advance
    rw [hrest, hrest']
    exact .ok trivial halike hsize

theorem meets_consumeAny (h : l₁.Alike ts us l₂) {kinds : List Kind} (hkinds : .eof ∉ kinds) :
    Meets ts us (Token.Matches ts us) l₁.size (consumeAny kinds l₁) (consumeAny kinds l₂) := by
  rw [consumeAny, current_bind, current_bind, h.kind]
  by_cases hk : kinds.contains l₁.current.kind = true
  · have hne : l₁.current.kind ≠ .eof := by
      intro heof
      rw [heof] at hk
      exact hkinds (List.contains_iff_mem.mp hk)
    rw [if_pos hk, if_pos hk]
    exact (meets_advance h hne).bind fun _ halike hsize => .pure h.current halike hsize
  · rw [if_neg hk, if_neg hk]
    exact .throw (.unexpected h.current)

theorem meets_consume (h : l₁.Alike ts us l₂) {kind : Kind} (hkind : kind ≠ .eof) :
    Meets ts us (Token.Matches ts us) l₁.size (consume kind l₁) (consume kind l₂) :=
  meets_consumeAny h (by simpa using hkind.symm)

/-- The end of the text repeats in both streams. -/
theorem meets_consume_eof (h : l₁.Alike ts us l₂) :
    Meets ts us (Token.Matches ts us) (l₁.size + 1) (consume .eof l₁) (consume .eof l₂) := by
  rw [consume, consumeAny, current_bind, current_bind, h.kind]
  split
  · have hadvance : Meets ts us (fun _ _ => True) (l₁.size + 1) (advance l₁) (advance l₂) := by
      cases hrest : l₁.rest with
      | cons t rest =>
        obtain ⟨u, rest', hrest', halike⟩ := h.next hrest
        unfold advance
        rw [hrest, hrest']
        exact .ok trivial halike (by simp [Lookahead.size, Lookahead.tokens, hrest])
      | nil =>
        unfold advance
        rw [hrest, h.rest_eq_nil hrest, h.fault₁, h.fault₂]
        exact .ok trivial (h.asked hrest) (by simp [Lookahead.size, Lookahead.tokens, hrest])
    exact hadvance.bind fun _ halike hsize => .pure h.current halike hsize
  · exact .throw (.unexpected h.current)

theorem meets_accept (h : l₁.Alike ts us l₂) {kind : Kind} (hkind : kind ≠ .eof) :
    Meets ts us (· = ·) (l₁.size + 1) (accept kind l₁) (accept kind l₂) := by
  rw [accept, currentKind_bind, currentKind_bind, h.kind]
  split
  · rename_i hk
    refine (meets_advance h (hk ▸ hkind)).bind fun _ halike hsize => ?_
    exact .pure rfl halike (Nat.lt_succ_of_lt hsize)
  · exact .pure rfl h (Nat.lt_succ_self _)

/-- Looking at the next token uses nothing up. -/
theorem meets_peek (h : l₁.Alike ts us l₂) :
    Meets ts us (fun t u => u.kind = t.kind) (l₁.size + 1) (peek l₁) (peek l₂) := by
  unfold peek
  rw [h.fault₁, h.fault₂]
  cases hrest : l₁.rest with
  | nil =>
    rw [h.rest_eq_nil hrest]
    exact .ok h.kind h (Nat.lt_succ_self _)
  | cons t rest =>
    obtain ⟨u, rest', hrest', halike⟩ := h.next hrest
    rw [hrest']
    exact .ok halike.kind h (Nat.lt_succ_self _)

end

/-! ## Expressions -/

/-- Whether two nodes are equal up to their locations. -/
abbrev SameNode (e₁ e₂ : Node) : Prop := e₁.unlocated = e₂.unlocated

/-- Whether two rows of nodes are equal up to their locations. -/
abbrev SameNodes (es₁ es₂ : List Node) : Prop :=
  Node.unlocatedList es₁ = Node.unlocatedList es₂

/-- Whether two nodes that may be left out are equal up to their locations. -/
abbrev SameOption (e₁ e₂ : Option Node) : Prop :=
  Node.unlocatedOption e₁ = Node.unlocatedOption e₂

/-- What the functions for expressions do in two streams, with `n` levels of nesting. -/
structure Lockstep (ts us : List Token) (src₁ src₂ : Source) (n : Nat) : Prop where
  expression {l₁ l₂ : Lookahead} : l₁.Alike ts us l₂ → 8 * l₁.size + 5 ≤ n →
    Meets ts us SameNode l₁.size (Parser.expression src₁ n l₁) (Parser.expression src₂ n l₂)
  sums {l₁ l₂ : Lookahead} {left₁ left₂ : Node} : l₁.Alike ts us l₂ → 8 * l₁.size ≤ n →
    SameNode left₁ left₂ →
    Meets ts us SameNode (l₁.size + 1) (sumTail src₁ n left₁ l₁) (sumTail src₂ n left₂ l₂)
  term {l₁ l₂ : Lookahead} : l₁.Alike ts us l₂ → 8 * l₁.size + 4 ≤ n →
    Meets ts us SameNode l₁.size (Parser.term src₁ n l₁) (Parser.term src₂ n l₂)
  products {l₁ l₂ : Lookahead} {left₁ left₂ : Node} : l₁.Alike ts us l₂ → 8 * l₁.size ≤ n →
    SameNode left₁ left₂ →
    Meets ts us SameNode (l₁.size + 1) (productTail src₁ n left₁ l₁)
      (productTail src₂ n left₂ l₂)
  factor {l₁ l₂ : Lookahead} : l₁.Alike ts us l₂ → 8 * l₁.size + 3 ≤ n →
    Meets ts us SameNode l₁.size (Parser.factor src₁ n l₁) (Parser.factor src₂ n l₂)
  /-- A factor that is no vector takes a token first. -/
  headFactor {l₁ l₂ : Lookahead} : l₁.Alike ts us l₂ → 8 * l₁.size ≤ n →
    l₁.current.kind = .tilde ∨ l₁.current.kind = .hash ∨ l₁.current.kind = .lparen →
    Meets ts us SameNode l₁.size (Parser.factor src₁ n l₁) (Parser.factor src₂ n l₂)
  vector {l₁ l₂ : Lookahead} : l₁.Alike ts us l₂ → 8 * l₁.size + 2 ≤ n →
    Meets ts us SameNode l₁.size (Parser.vector src₁ n l₁) (Parser.vector src₂ n l₂)
  elements {l₁ l₂ : Lookahead} : l₁.Alike ts us l₂ → 8 * l₁.size + 2 ≤ n →
    Meets ts us SameNodes (l₁.size + 1) (Parser.elements src₁ n l₁) (Parser.elements src₂ n l₂)
  element {l₁ l₂ : Lookahead} : l₁.Alike ts us l₂ → 8 * l₁.size + 1 ≤ n →
    Meets ts us SameNode l₁.size (Parser.element src₁ n l₁) (Parser.element src₂ n l₂)
  reference {l₁ l₂ : Lookahead} : l₁.Alike ts us l₂ → 8 * l₁.size ≤ n →
    Meets ts us SameNode l₁.size (Parser.reference src₁ n l₁) (Parser.reference src₂ n l₂)
  call {l₁ l₂ : Lookahead} : l₁.Alike ts us l₂ → 8 * l₁.size ≤ n →
    Meets ts us SameNode l₁.size (Parser.call src₁ n l₁) (Parser.call src₂ n l₂)
  arguments {l₁ l₂ : Lookahead} : l₁.Alike ts us l₂ → 8 * l₁.size + 6 ≤ n →
    Meets ts us SameNodes l₁.size (Parser.arguments src₁ n l₁) (Parser.arguments src₂ n l₂)

section

variable {ts us : List Token} {src₁ src₂ : Source} {n : Nat} {l₁ l₂ : Lookahead}

private theorem lockstep_expression (ih : Lockstep ts us src₁ src₂ n) (h : l₁.Alike ts us l₂)
    (hn : 8 * l₁.size + 5 ≤ n + 1) : Meets ts us SameNode l₁.size (expression src₁ (n + 1) l₁)
      (expression src₂ (n + 1) l₂) := by
  rw [expression, expression]
  refine (ih.term h (by omega)).bind fun hfirst h' hlt => ?_
  exact (ih.sums h' (by omega) hfirst).mono hlt

private theorem lockstep_sums (ih : Lockstep ts us src₁ src₂ n) (h : l₁.Alike ts us l₂)
    (hn : 8 * l₁.size ≤ n + 1) {left₁ left₂ : Node} (hleft : SameNode left₁ left₂) :
    Meets ts us SameNode (l₁.size + 1) (sumTail src₁ (n + 1) left₁ l₁)
      (sumTail src₂ (n + 1) left₂ l₂) := by
  rw [sumTail, current_bind, sumTail, current_bind, h.kind]
  cases hop : sumOp? l₁.current.kind with
  | none => exact .pure hleft h (Nat.lt_succ_self _)
  | some op =>
    have hne : l₁.current.kind ≠ .eof := by
      intro heof
      rw [heof] at hop
      cases hop
    refine (meets_advance h hne).bind fun _ h' hlt => ?_
    refine (ih.term h' (by omega)).bind fun hright h'' hlt' => ?_
    refine (ih.sums h'' (by omega) ?_).mono (by omega)
    simp only [SameNode, Node.unlocated, hleft, hright]

private theorem lockstep_term (ih : Lockstep ts us src₁ src₂ n) (h : l₁.Alike ts us l₂)
    (hn : 8 * l₁.size + 4 ≤ n + 1) :
    Meets ts us SameNode l₁.size (term src₁ (n + 1) l₁) (term src₂ (n + 1) l₂) := by
  rw [term, term]
  refine (ih.factor h (by omega)).bind fun hfirst h' hlt => ?_
  exact (ih.products h' (by omega) hfirst).mono hlt

private theorem lockstep_products (ih : Lockstep ts us src₁ src₂ n) (h : l₁.Alike ts us l₂)
    (hn : 8 * l₁.size ≤ n + 1) {left₁ left₂ : Node} (hleft : SameNode left₁ left₂) :
    Meets ts us SameNode (l₁.size + 1) (productTail src₁ (n + 1) left₁ l₁)
      (productTail src₂ (n + 1) left₂ l₂) := by
  rw [productTail, current_bind, productTail, current_bind, h.kind]
  cases hop : productOp? l₁.current.kind with
  | none => exact .pure hleft h (Nat.lt_succ_self _)
  | some op =>
    have hne : l₁.current.kind ≠ .eof := by
      intro heof
      rw [heof] at hop
      cases hop
    refine (meets_advance h hne).bind fun _ h' hlt => ?_
    refine (ih.factor h' (by omega)).bind fun hright h'' hlt' => ?_
    refine (ih.products h'' (by omega) ?_).mono (by omega)
    simp only [SameNode, Node.unlocated, hleft, hright]

/-- After an operator or a parenthesis there is less to read. -/
private theorem lockstep_headFactor (ih : Lockstep ts us src₁ src₂ n) (h : l₁.Alike ts us l₂)
    (hn : 8 * l₁.size ≤ n + 1)
    (hk : l₁.current.kind = .tilde ∨ l₁.current.kind = .hash ∨ l₁.current.kind = .lparen) :
    Meets ts us SameNode l₁.size (factor src₁ (n + 1) l₁) (factor src₂ (n + 1) l₂) := by
  have hne : l₁.current.kind ≠ .eof := by rcases hk with hk | hk | hk <;> simp [hk]
  have hunary (op : UnaryOp) (hop : unaryOp? l₁.current.kind = some op) :
      Meets ts us SameNode l₁.size (factor src₁ (n + 1) l₁) (factor src₂ (n + 1) l₂) := by
    rw [factor, current_bind, factor, current_bind, h.kind, hop]
    refine (meets_advance h hne).bind fun _ h₁ hlt₁ => ?_
    refine (ih.vector h₁ (by omega)).bind fun hoperand h₂ hlt₂ => ?_
    exact .pure (by simp only [SameNode, Node.unlocated, hoperand]) h₂ (by omega)
  rcases hk with hk | hk | hk
  · exact hunary .negation (by rw [hk]; rfl)
  · exact hunary .length (by rw [hk]; rfl)
  · rw [factor, current_bind, factor, current_bind, h.kind, hk]
    refine (meets_advance h hne).bind fun _ h₁ hlt₁ => ?_
    refine (ih.expression h₁ (by omega)).bind fun hinner h₂ hlt₂ => ?_
    refine (meets_consume h₂ (by decide)).bind fun _ h₃ hlt₃ => ?_
    exact .pure hinner h₃ (by omega)

private theorem lockstep_factor (ih : Lockstep ts us src₁ src₂ n) (h : l₁.Alike ts us l₂)
    (hn : 8 * l₁.size + 3 ≤ n + 1) :
    Meets ts us SameNode l₁.size (factor src₁ (n + 1) l₁) (factor src₂ (n + 1) l₂) := by
  -- a factor that is a vector has taken no token yet, and so needs a level more
  by_cases hk : l₁.current.kind = .tilde ∨ l₁.current.kind = .hash ∨ l₁.current.kind = .lparen
  · exact lockstep_headFactor ih h (by omega) hk
  · have hop : unaryOp? l₁.current.kind = none := by
      cases hkind : l₁.current.kind <;> simp_all [unaryOp?]
    rw [factor, current_bind, factor, current_bind, h.kind, hop]
    have hparen : l₁.current.kind ≠ .lparen := fun h' => hk (Or.inr (Or.inr h'))
    simp only [if_neg hparen]
    exact ih.vector h (by omega)

private theorem lockstep_vector (ih : Lockstep ts us src₁ src₂ n) (h : l₁.Alike ts us l₂)
    (hn : 8 * l₁.size + 2 ≤ n + 1) :
    Meets ts us SameNode l₁.size (vector src₁ (n + 1) l₁) (vector src₂ (n + 1) l₂) := by
  rw [vector, current_bind, vector, current_bind]
  refine (ih.element h (by omega)).bind fun hfirst h₁ hlt₁ => ?_
  refine (ih.elements h₁ (by omega)).bind fun hothers h₂ hlt₂ => ?_
  refine .pure ?_ h₂ (by omega)
  simp only [SameNode, Node.unlocated, Node.unlocatedList, hfirst, hothers]

private theorem lockstep_elements (ih : Lockstep ts us src₁ src₂ n) (h : l₁.Alike ts us l₂)
    (hn : 8 * l₁.size + 2 ≤ n + 1) :
    Meets ts us SameNodes (l₁.size + 1) (elements src₁ (n + 1) l₁)
      (elements src₂ (n + 1) l₂) := by
  rw [elements, currentKind_bind, elements, currentKind_bind, h.kind]
  split
  · refine (ih.element h (by omega)).bind fun hfirst h₁ hlt₁ => ?_
    refine (ih.elements h₁ (by omega)).bind fun hothers h₂ hlt₂ => ?_
    exact .pure (by simp only [SameNodes, Node.unlocatedList, hfirst, hothers]) h₂ (by omega)
  · exact .pure rfl h (Nat.lt_succ_self _)

private theorem lockstep_element (ih : Lockstep ts us src₁ src₂ n) (h : l₁.Alike ts us l₂)
    (hn : 8 * l₁.size + 1 ≤ n + 1) :
    Meets ts us SameNode l₁.size (element src₁ (n + 1) l₁) (element src₂ (n + 1) l₂) := by
  rw [element, current_bind, element, current_bind, h.kind, h.text]
  cases hk : l₁.current.kind with
  | string =>
    refine (meets_advance h (by simp [hk])).bind fun _ h₁ hlt₁ => ?_
    exact .pure (by simp only [SameNode, Node.unlocated]) h₁ hlt₁
  | int =>
    refine (meets_advance h (by simp [hk])).bind fun _ h₁ hlt₁ => ?_
    cases Numeral.read l₁.current.text.toList with
    | ok value => exact .pure (by simp only [SameNode, Node.unlocated]) h₁ hlt₁
    | error digits => exact .throw .numeralTooLong
  | ident =>
    refine (meets_peek h).bind fun {t u m₁ m₂} hnext h₁ hle => ?_
    rw [hnext]
    split
    · exact (ih.call h₁ (by omega)).mono (by omega)
    · exact (ih.reference h₁ (by omega)).mono (by omega)
  | tilde => exact ih.headFactor h (by omega) (Or.inl hk)
  | hash => exact ih.headFactor h (by omega) (Or.inr (Or.inl hk))
  | lparen => exact ih.headFactor h (by omega) (Or.inr (Or.inr hk))
  | _ => exact .throw (.unexpected h.current)

private theorem lockstep_reference (ih : Lockstep ts us src₁ src₂ n) (h : l₁.Alike ts us l₂)
    (hn : 8 * l₁.size ≤ n + 1) :
    Meets ts us SameNode l₁.size (reference src₁ (n + 1) l₁) (reference src₂ (n + 1) l₂) := by
  rw [reference, reference]
  refine (meets_consume h (by decide)).bind fun hname h₁ hlt₁ => ?_
  have htext := hname.text h.lexemes
  refine (meets_accept h₁ (by decide)).bind fun {b b' _ _} hb h₂ hle₂ => ?_
  subst hb
  cases b with
  | true =>
    refine (ih.expression h₂ (by omega)).bind fun hsubscript h₃ hlt₃ => ?_
    refine (meets_consume h₃ (by decide)).bind fun _ h₄ hlt₄ => ?_
    refine .pure ?_ h₄ (by omega)
    simp only [SameNode, Node.unlocated, Node.unlocatedOption, hsubscript, htext]
  | false =>
    exact .pure (by simp only [SameNode, Node.unlocated, htext]) h₂ (by omega)

private theorem lockstep_call (ih : Lockstep ts us src₁ src₂ n) (h : l₁.Alike ts us l₂)
    (hn : 8 * l₁.size ≤ n + 1) :
    Meets ts us SameNode l₁.size (call src₁ (n + 1) l₁) (call src₂ (n + 1) l₂) := by
  rw [call, call]
  refine (meets_consume h (by decide)).bind fun {name₁ name₂ _ _} hname h₁ hlt₁ => ?_
  have htext := hname.text h.lexemes
  refine (meets_consume h₁ (by decide)).bind fun {_ _ m₁ m₂} _ h₂ hlt₂ => ?_
  rw [currentKind_bind, currentKind_bind, h₂.kind]
  -- what follows the arguments, if there are any
  have hclosed {args₁ args₂ : List Node} {l l' : Lookahead} (hargs : SameNodes args₁ args₂)
      (h₃ : l.Alike ts us l') (hle₃ : l.size ≤ m₁.size) : Meets ts us SameNode l₁.size
        ((consume .rparen >>= fun _ => pure (.call (src₁.locate name₁) (isGlobalName name₁.text)
          name₁.text args₁)) l)
        ((consume .rparen >>= fun _ => pure (.call (src₂.locate name₂) (isGlobalName name₂.text)
          name₂.text args₂)) l') := by
    refine (meets_consume h₃ (by decide)).bind fun _ h₄ hlt₄ => ?_
    exact .pure (by simp only [SameNode, Node.unlocated, hargs, htext]) h₄ (by omega)
  split
  · exact hclosed rfl h₂ (Nat.le_refl _)
  · exact (ih.arguments h₂ (by omega)).bind fun hargs h₃ hlt₃ => hclosed hargs h₃ (by omega)

private theorem lockstep_arguments (ih : Lockstep ts us src₁ src₂ n) (h : l₁.Alike ts us l₂)
    (hn : 8 * l₁.size + 6 ≤ n + 1) :
    Meets ts us SameNodes l₁.size (arguments src₁ (n + 1) l₁) (arguments src₂ (n + 1) l₂) := by
  rw [arguments, arguments]
  refine (ih.expression h (by omega)).bind fun hfirst h₁ hlt₁ => ?_
  refine (meets_accept h₁ (by decide)).bind fun {b b' _ _} hb h₂ hle₂ => ?_
  subst hb
  cases b with
  | true =>
    refine (ih.arguments h₂ (by omega)).bind fun hothers h₃ hlt₃ => ?_
    exact .pure (by simp only [SameNodes, Node.unlocatedList, hfirst, hothers]) h₃ (by omega)
  | false =>
    exact .pure (by simp only [SameNodes, Node.unlocatedList, hfirst]) h₂ (by omega)

end

/-- With no level left there is no token left. -/
private theorem lockstep_zero (ts us : List Token) (src₁ src₂ : Source) :
    Lockstep ts us src₁ src₂ 0 := by
  have hpos (l : Lookahead) : 0 < l.size := Nat.succ_pos _
  constructor
  all_goals
    intro l₁ _ _ hn
    have := hpos l₁
    omega

/-- Whatever the levels of nesting are, the functions for expressions do the same in two
    streams. -/
theorem lockstep (ts us : List Token) (src₁ src₂ : Source) (n : Nat) :
    Lockstep ts us src₁ src₂ n := by
  induction n with
  | zero => exact lockstep_zero ts us src₁ src₂
  | succ n ih =>
    exact {
      expression := lockstep_expression ih
      sums := fun h hn hleft => lockstep_sums ih h hn hleft
      term := lockstep_term ih
      products := fun h hn hleft => lockstep_products ih h hn hleft
      factor := lockstep_factor ih
      headFactor := lockstep_headFactor ih
      vector := lockstep_vector ih
      elements := lockstep_elements ih
      element := lockstep_element ih
      reference := lockstep_reference ih
      call := lockstep_call ih
      arguments := lockstep_arguments ih }

/-! ## Statements -/

/-- Whether two comparisons are equal up to their locations. -/
abbrev SameComparison (c₁ c₂ : Comparison Node) : Prop :=
  Node.unlocatedComparison c₁ = Node.unlocatedComparison c₂

/-- What the functions for statements do in two streams, with `n` levels of nesting. -/
structure LockstepBlock (ts us : List Token) (src₁ src₂ : Source) (n : Nat) : Prop where
  statements {l₁ l₂ : Lookahead} {functions : Bool} : l₁.Alike ts us l₂ → 8 * l₁.size + 7 ≤ n →
    Meets ts us SameNodes l₁.size (Parser.statements src₁ functions n l₁)
      (Parser.statements src₂ functions n l₂)
  statement {l₁ l₂ : Lookahead} {functions : Bool} : l₁.Alike ts us l₂ → 8 * l₁.size + 6 ≤ n →
    Meets ts us SameNode l₁.size (Parser.statement src₁ functions n l₁)
      (Parser.statement src₂ functions n l₂)
  function {l₁ l₂ : Lookahead} : l₁.Alike ts us l₂ → 8 * l₁.size ≤ n →
    Meets ts us SameNode l₁.size (Parser.function src₁ n l₁) (Parser.function src₂ n l₂)
  loop {l₁ l₂ : Lookahead} : l₁.Alike ts us l₂ → 8 * l₁.size ≤ n →
    Meets ts us SameNode l₁.size (Parser.loop src₁ n l₁) (Parser.loop src₂ n l₂)
  conditional {l₁ l₂ : Lookahead} : l₁.Alike ts us l₂ → 8 * l₁.size ≤ n →
    Meets ts us SameNode l₁.size (Parser.conditional src₁ n l₁) (Parser.conditional src₂ n l₂)

section

variable {ts us : List Token} {src₁ src₂ : Source} {n : Nat} {l₁ l₂ : Lookahead}

theorem meets_comparison (h : l₁.Alike ts us l₂) (hn : 8 * l₁.size + 5 ≤ n) :
    Meets ts us SameComparison l₁.size (comparison src₁ n l₁) (comparison src₂ n l₂) := by
  rw [comparison, current_bind, comparison, current_bind]
  refine ((lockstep ts us src₁ src₂ n).expression h hn).bind fun hleft h₁ hlt₁ => ?_
  refine (meets_consumeAny h₁ (by decide)).bind fun hop h₂ hlt₂ => ?_
  have hkind := hop.kind h.lexemes
  refine ((lockstep ts us src₁ src₂ n).expression h₂ (by omega)).bind fun hright h₃ hlt₃ => ?_
  refine .pure ?_ h₃ (by omega)
  simp only [SameComparison, Node.unlocatedComparison, hleft, hright, hkind]

theorem meets_assignment (h : l₁.Alike ts us l₂) (hn : 8 * l₁.size ≤ n) :
    Meets ts us SameNode l₁.size (assignment src₁ n l₁) (assignment src₂ n l₂) := by
  rw [assignment, assignment]
  refine (meets_consume h (by decide)).bind fun hname h₁ hlt₁ => ?_
  have htext := hname.text h.lexemes
  refine (meets_consume h₁ (by decide)).bind fun _ h₂ hlt₂ => ?_
  rw [currentKind_bind, currentKind_bind, h₂.kind]
  split
  · exact .pure (by simp only [SameNode, Node.unlocated, htext]) h₂ (by omega)
  · have hvalue := (lockstep ts us src₁ src₂ n).expression h₂ (by omega)
    have hsome := hvalue.map (S := SameOption) some fun h => congrArg some h
    refine hsome.bind fun hvalue h₃ hlt₃ => ?_
    exact .pure (by simp only [SameNode, Node.unlocated, hvalue, htext]) h₃ (by omega)

theorem meets_output (h : l₁.Alike ts us l₂) (hn : 8 * l₁.size + 5 ≤ n) :
    Meets ts us SameNode l₁.size (output src₁ n l₁) (output src₂ n l₂) := by
  rw [output, current_bind, output, current_bind]
  refine ((lockstep ts us src₁ src₂ n).expression h hn).bind fun hvalue h₁ hlt₁ => ?_
  exact .pure (by simp only [SameNode, Node.unlocated, hvalue]) h₁ hlt₁

theorem meets_callOutput (h : l₁.Alike ts us l₂) (hn : 8 * l₁.size ≤ n) :
    Meets ts us SameNode l₁.size (callOutput src₁ n l₁) (callOutput src₂ n l₂) := by
  have steps := lockstep ts us src₁ src₂ n
  rw [callOutput, current_bind, callOutput, current_bind]
  refine (steps.call h hn).bind fun {first₁ first₂ _ _} hfirst h₁ hlt₁ => ?_
  rw [currentKind_bind, currentKind_bind, h₁.kind]
  split
  · exact .pure (by simp only [SameNode, Node.unlocated, hfirst]) h₁ hlt₁
  · refine (steps.elements h₁ (by omega)).bind fun {others₁ others₂ _ _} hothers h₂ hlt₂ => ?_
    have hvector : SameNode (.vector first₁.location (first₁ :: others₁))
        (.vector first₂.location (first₂ :: others₂)) := by
      simp only [SameNode, Node.unlocated, Node.unlocatedList, hfirst, hothers]
    refine (steps.products h₂ (by omega) hvector).bind fun hproduct h₃ hlt₃ => ?_
    refine (steps.sums h₃ (by omega) hproduct).bind fun hsum h₄ hlt₄ => ?_
    exact .pure (by simp only [SameNode, Node.unlocated, hsum]) h₄ (by omega)

theorem meets_parameters (h : l₁.Alike ts us l₂) (hn : 8 * l₁.size ≤ n) :
    Meets ts us (· = ·) l₁.size (parameters n l₁) (parameters n l₂) := by
  induction n generalizing l₁ l₂ with
  | zero =>
    have hpos : 0 < l₁.size := Nat.succ_pos _
    omega
  | succ n ih =>
    rw [parameters]
    refine (meets_consume h (by decide)).bind fun {param₁ param₂ _ _} hparam h₁ hlt₁ => ?_
    have htext := hparam.text h.lexemes
    rw [htext]
    split
    · exact .error (.globalParameter hparam)
    · refine (meets_accept h₁ (by decide)).bind fun {b b' _ _} hb h₂ hle₂ => ?_
      subst hb
      cases b with
      | true =>
        refine (ih h₂ (by omega)).bind fun hothers h₃ hlt₃ => ?_
        exact .pure (by rw [hothers]) h₃ (by omega)
      | false => exact .pure rfl h₂ (by omega)

/-- How the statements of a program are read in two streams. -/
private theorem lockstepBlock_statements (ih : LockstepBlock ts us src₁ src₂ n) {functions : Bool}
    (h : l₁.Alike ts us l₂) (hn : 8 * l₁.size + 7 ≤ n + 1) :
    Meets ts us SameNodes l₁.size (statements src₁ functions (n + 1) l₁)
      (statements src₂ functions (n + 1) l₂) := by
  rw [statements, statements]
  refine (ih.statement h (by omega)).bind fun hfirst h₁ hlt₁ => ?_
  refine (meets_consume h₁ (by decide)).bind fun _ h₂ hlt₂ => ?_
  rw [currentKind_bind, currentKind_bind, h₂.kind]
  split
  · exact .pure (by simp only [SameNodes, Node.unlocatedList, hfirst]) h₂ (by omega)
  · refine (ih.statements h₂ (by omega)).bind fun hothers h₃ hlt₃ => ?_
    exact .pure (by simp only [SameNodes, Node.unlocatedList, hfirst, hothers]) h₃ (by omega)

private theorem lockstepBlock_statement (ih : LockstepBlock ts us src₁ src₂ n) {functions : Bool}
    (h : l₁.Alike ts us l₂) (hn : 8 * l₁.size + 6 ≤ n + 1) :
    Meets ts us SameNode l₁.size (statement src₁ functions (n + 1) l₁)
      (statement src₂ functions (n + 1) l₂) := by
  rw [statement, currentKind_bind, statement, currentKind_bind, h.kind]
  cases hk : l₁.current.kind with
  | kwBegin =>
    cases functions with
    | true => exact ih.function h (by omega)
    | false => exact meets_output h (by omega)
  | kwWhile => exact ih.loop h (by omega)
  | kwUntil => exact ih.loop h (by omega)
  | kwIf => exact ih.conditional h (by omega)
  | ident =>
    refine (meets_peek h).bind fun {t u m₁ m₂} hnext h₁ hle => ?_
    rw [hnext]
    cases t.kind with
    | assign => exact (meets_assignment h₁ (by omega)).mono (by omega)
    | lparen => exact (meets_callOutput h₁ (by omega)).mono (by omega)
    | _ => exact (meets_output h₁ (by omega)).mono (by omega)
  | _ => exact meets_output h (by omega)

private theorem lockstepBlock_function (ih : LockstepBlock ts us src₁ src₂ n)
    (h : l₁.Alike ts us l₂) (hn : 8 * l₁.size ≤ n + 1) :
    Meets ts us SameNode l₁.size (function src₁ (n + 1) l₁) (function src₂ (n + 1) l₂) := by
  rw [function, function]
  refine (meets_consume h (by decide)).bind fun {keyword₁ keyword₂ _ _} _ h₁ hlt₁ => ?_
  refine (meets_consume h₁ (by decide)).bind fun {name₁ name₂ m₁ _} hname h₂ hlt₂ => ?_
  have htext := hname.text h.lexemes
  -- what follows the parameters
  have hrest (params : List String) {l l' : Lookahead} (h₃ : l.Alike ts us l')
      (hle : l.size ≤ m₁.size) : Meets ts us SameNode l₁.size
        ((consume .newline >>= fun _ => statements src₁ true n >>= fun body =>
          consume .kwEnd >>= fun _ => pure (.function ⟨src₁.locate keyword₁,
            isGlobalName name₁.text, name₁.text, params, body⟩)) l)
        ((consume .newline >>= fun _ => statements src₂ true n >>= fun body =>
          consume .kwEnd >>= fun _ => pure (.function ⟨src₂.locate keyword₂,
            isGlobalName name₂.text, name₂.text, params, body⟩)) l') := by
    refine (meets_consume h₃ (by decide)).bind fun _ h₄ hlt₄ => ?_
    refine (ih.statements h₄ (by omega)).bind fun hbody h₅ hlt₅ => ?_
    refine (meets_consume h₅ (by decide)).bind fun _ h₆ hlt₆ => ?_
    refine .pure ?_ h₆ (by omega)
    simp only [SameNode, Node.unlocated, Node.unlocatedDefinition, hbody, htext]
  refine (meets_accept h₂ (by decide)).bind fun {b b' _ _} hb h₃ hle₃ => ?_
  subst hb
  cases b with
  | true =>
    refine (meets_parameters h₃ (by omega)).bind fun {params params' _ _} hparams h₄ hlt₄ => ?_
    subst hparams
    refine (meets_consume h₄ (by decide)).bind fun _ h₅ hlt₅ => ?_
    exact hrest params h₅ (by omega)
  | false => exact hrest [] h₃ (by omega)

private theorem lockstepBlock_loop (ih : LockstepBlock ts us src₁ src₂ n) (h : l₁.Alike ts us l₂)
    (hn : 8 * l₁.size ≤ n + 1) :
    Meets ts us SameNode l₁.size (loop src₁ (n + 1) l₁) (loop src₂ (n + 1) l₂) := by
  rw [loop, loop]
  refine (meets_consumeAny h (by decide)).bind fun hkeyword h₁ hlt₁ => ?_
  have hkind := hkeyword.kind h.lexemes
  refine (meets_comparison h₁ (by omega)).bind fun htest h₂ hlt₂ => ?_
  refine (meets_consume h₂ (by decide)).bind fun _ h₃ hlt₃ => ?_
  refine (ih.statements h₃ (by omega)).bind fun hbody h₄ hlt₄ => ?_
  refine (meets_consume h₄ (by decide)).bind fun _ h₅ hlt₅ => ?_
  exact .pure (by simp only [SameNode, Node.unlocated, htest, hbody, hkind]) h₅ (by omega)

private theorem lockstepBlock_conditional (ih : LockstepBlock ts us src₁ src₂ n)
    (h : l₁.Alike ts us l₂) (hn : 8 * l₁.size ≤ n + 1) :
    Meets ts us SameNode l₁.size (conditional src₁ (n + 1) l₁)
      (conditional src₂ (n + 1) l₂) := by
  rw [conditional, conditional]
  refine (meets_consume h (by decide)).bind fun {keyword₁ keyword₂ _ _} _ h₁ hlt₁ => ?_
  refine (meets_comparison h₁ (by omega)).bind fun {test₁ test₂ _ _} htest h₂ hlt₂ => ?_
  refine (meets_consume h₂ (by decide)).bind fun _ h₃ hlt₃ => ?_
  refine (ih.statements h₃ (by omega)).bind fun {then₁ then₂ m₁ _} hthen h₄ hlt₄ => ?_
  -- what follows the second body
  have hrest {else₁ else₂ : List Node} {l l' : Lookahead} (helse : SameNodes else₁ else₂)
      (h₅ : l.Alike ts us l') (hle : l.size ≤ m₁.size) : Meets ts us SameNode l₁.size
        ((consume .kwEnd >>= fun _ => pure (.conditional (src₁.locate keyword₁) test₁ then₁
          else₁)) l)
        ((consume .kwEnd >>= fun _ => pure (.conditional (src₂.locate keyword₂) test₂ then₂
          else₂)) l') := by
    refine (meets_consume h₅ (by decide)).bind fun _ h₆ hlt₆ => ?_
    exact .pure (by simp only [SameNode, Node.unlocated, htest, hthen, helse]) h₆ (by omega)
  refine (meets_accept h₄ (by decide)).bind fun {b b' _ _} hb h₅ hle₅ => ?_
  subst hb
  cases b with
  | true =>
    refine (meets_consume h₅ (by decide)).bind fun _ h₆ hlt₆ => ?_
    refine (ih.statements h₆ (by omega)).bind fun helse h₇ hlt₇ => ?_
    exact hrest helse h₇ (by omega)
  | false => exact hrest rfl h₅ (by omega)

end

/-- With no level left there is no token left. -/
private theorem lockstepBlock_zero (ts us : List Token) (src₁ src₂ : Source) :
    LockstepBlock ts us src₁ src₂ 0 := by
  have hpos (l : Lookahead) : 0 < l.size := Nat.succ_pos _
  constructor
  all_goals
    intro l₁ _ _ hn
    have := hpos l₁
    omega

/-- Whatever the levels of nesting are, the functions for statements do the same in two
    streams. -/
theorem lockstepBlock (ts us : List Token) (src₁ src₂ : Source) (n : Nat) :
    LockstepBlock ts us src₁ src₂ n := by
  induction n with
  | zero => exact lockstepBlock_zero ts us src₁ src₂
  | succ n ih =>
    exact {
      statements := lockstepBlock_statements ih
      statement := lockstepBlock_statement ih
      function := lockstepBlock_function ih
      loop := lockstepBlock_loop ih
      conditional := lockstepBlock_conditional ih }

/-- A whole program is read from two streams with as many levels as there are for its tokens. -/
theorem meets_program {ts us : List Token} {src₁ src₂ : Source} {n : Nat} {l₁ l₂ : Lookahead}
    (h : l₁.Alike ts us l₂) (hn : 8 * l₁.size + 8 ≤ n) :
    Meets ts us (fun p₁ p₂ => p₁.unlocated = p₂.unlocated) (l₁.size + 1) (program src₁ n l₁)
      (program src₂ n l₂) := by
  rw [program, program]
  refine (meets_consume h (by decide)).bind fun _ h₁ hlt₁ => ?_
  refine (meets_consume h₁ (by decide)).bind fun hname h₂ hlt₂ => ?_
  have htext := hname.text h.lexemes
  refine (meets_consume h₂ (by decide)).bind fun _ h₃ hlt₃ => ?_
  refine ((lockstepBlock ts us src₁ src₂ n).statements h₃ (by omega)).bind fun hbody h₄ hlt₄ => ?_
  refine (meets_consume h₄ (by decide)).bind fun _ h₅ hlt₅ => ?_
  refine (meets_accept h₅ (by decide)).bind fun _ h₆ hle₆ => ?_
  refine (meets_consume_eof h₆).bind fun _ h₇ hle₇ => ?_
  refine .pure ?_ h₇ (by omega)
  simp only [Program.unlocated, Node.unlocatedDefinition, hbody, htext]

end Parser

/-! ## Texts -/

/-- The tokens of a text start somewhere, and end with the end of the text. -/
theorem closed_of_tokenize {text : String} {ts : List Token} (h : tokenize text = .ok ts) :
    ∃ t rest, ts = t :: rest ∧ Lookahead.Closed ⟨1, t, rest, none⟩ := by
  have hterm := TokenStream.terminated_ofText text
  rw [tokenize_eq_ok_iff.mp h] at hterm
  obtain ⟨last, hlast, hkind⟩ := hterm.getLast rfl
  cases ts with
  | nil => cases hlast
  | cons t rest => exact ⟨t, rest, rfl, fun _ => ⟨last, hlast, hkind⟩⟩

/-- Two texts with the same lexemes are read as programs that are equal up to their locations,
    or neither is a program, because of tokens of one index or of a numeral that is too long. -/
theorem parse_alike {text₁ text₂ : String} {ts us : List Token} (h₁ : tokenize text₁ = .ok ts)
    (h₂ : tokenize text₂ = .ok us) (hlexemes : ts.map Token.lexeme = us.map Token.lexeme)
    (file₁ file₂ : String) :
    (∃ p₁ p₂, parse text₁ file₁ = .ok p₁ ∧ parse text₂ file₂ = .ok p₂ ∧
        p₁.unlocated = p₂.unlocated) ∨
      ∃ e₁ e₂, parse text₁ file₁ = .error e₁ ∧ parse text₂ file₂ = .error e₂ ∧
        e₁.Alike ts us e₂ := by
  obtain ⟨t, ts, rfl, hclosed⟩ := closed_of_tokenize h₁
  obtain ⟨u, us, rfl, -⟩ := closed_of_tokenize h₂
  have halike : Lookahead.Alike (t :: ts) (u :: us) ⟨1, t, ts, none⟩ ⟨1, u, us, none⟩ :=
    ⟨hlexemes, ⟨0, rfl, rfl⟩, rfl, rfl, hclosed⟩
  have hlength : (u :: us).length = (t :: ts).length := by
    simpa using (congrArg List.length hlexemes).symm
  have hmeets : Parser.Meets (t :: ts) (u :: us) (fun p₁ p₂ => p₁.unlocated = p₂.unlocated) _
      (Parser.program (Source.ofText file₁ text₁) (Parser.fuelFor (t :: ts).length)
        ⟨1, t, ts, none⟩)
      (Parser.program (Source.ofText file₂ text₂) (Parser.fuelFor (t :: ts).length)
        ⟨1, u, us, none⟩) :=
    Parser.meets_program halike (Nat.le_refl _)
  rw [parse, parse, tokenize_eq_ok_iff.mp h₁, tokenize_eq_ok_iff.mp h₂]
  simp only [parseStream, Lookahead.ofStream, hlength]
  generalize Parser.program (Source.ofText file₁ text₁) (Parser.fuelFor (t :: ts).length)
    ⟨1, t, ts, none⟩ = r₁ at hmeets ⊢
  generalize Parser.program (Source.ofText file₂ text₂) (Parser.fuelFor (t :: ts).length)
    ⟨1, u, us, none⟩ = r₂ at hmeets ⊢
  cases hmeets with
  | ok hp _ _ => exact Or.inl ⟨_, _, rfl, rfl, hp⟩
  | error he => exact Or.inr ⟨_, _, rfl, rfl, he⟩

end VectorLang
