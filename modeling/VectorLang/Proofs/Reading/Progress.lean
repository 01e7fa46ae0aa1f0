import Mathlib
import VectorLang.Proofs.Reading.Leftmost

/-!
# The parser comes to an end

The functions of the parser recurse on a number of levels, which the functions that they stand for
do not have.  With more levels a function does the same, unless it had too few of them, and a whole
text never needs more than `fuelFor` gives it.  So the levels bound nothing: there is one outcome,
and it is found.

The loops are turned round no more often than there are tokens, because every turn uses up a token
at least, and the token at the end of the text is in none of them.

* `settled`             expressions with more levels
* `settledBlock`        statements with more levels
* `Turn.reach`          a turn of a loop uses up a token
* `Loop.turns`          a loop is made of turns
* `parse_terminates`    whole texts
-/

namespace VectorLang

namespace Parser

open EStateM (Result)

variable {α β : Type}

/-! ## More levels -/

/-- Whether the second of two results is the first one, unless that had too few levels.  A function
    that succeeds has used up a row of tokens, and none asks for more than one token after those
    that are left. -/
inductive Settles (l : Lookahead) :
    Result ParseError Lookahead α → Result ParseError Lookahead α → Prop where
  | ok {a : α} {w : List Token} {m : Lookahead} : l.Reach w m → Settles l (.ok a m) (.ok a m)
  | error {e : ParseError} {m : Lookahead} :
      m.asked ≤ l.asked + l.size → Settles l (.error e m) (.error e m)
  | outOfFuel {m : Lookahead} {r : Result ParseError Lookahead α} :
      Settles l (.error .outOfFuel m) r

/-- What has been asked for and what is left do not change when tokens are used up. -/
private theorem asked_add_size {l m : Lookahead} {w : List Token} (hw : l.Reach w m) :
    m.asked + m.size = l.asked + l.size := by
  have hsize := hw.size
  have hasked := hw.asked
  omega

namespace Settles

variable {l m : Lookahead}

theorem pure (a : α) : Settles l ((Pure.pure a : Parser α) l) ((Pure.pure a : Parser α) l) :=
  .ok (Lookahead.reach_nil.mpr rfl)

theorem throw (e : ParseError) :
    Settles l ((throw e : Parser α) l) ((throw e : Parser α) l) :=
  .error (Nat.le_add_right _ _)

/-- What is found at a place further on. -/
theorem after {w : List Token} {r r' : Result ParseError Lookahead α} (hw : l.Reach w m)
    (h : Settles m r r') : Settles l r r' := by
  cases h with
  | ok hw' => exact .ok (hw.append hw')
  | error hasked => exact .error (asked_add_size hw ▸ hasked)
  | outOfFuel => exact .outOfFuel

/-- A function and what comes after it, where that is known by what it does from every place that
    the function may come to. -/
theorem bind_of {P : Result ParseError Lookahead β → Result ParseError Lookahead β → Prop}
    {p p' : Parser α} {f f' : α → Parser β} (hp : Settles l (p l) (p' l)) (hl : l.Closed)
    (hok : ∀ {a : α} {w : List Token} {m : Lookahead},
      l.Reach w m → m.Closed → P (f a m) (f' a m))
    (herror : ∀ {e : ParseError} {m : Lookahead},
      m.asked ≤ l.asked + l.size → P (.error e m) (.error e m))
    (hfuel : ∀ {m : Lookahead} {r : Result ParseError Lookahead β}, P (.error .outOfFuel m) r) :
    P ((p >>= f) l) ((p' >>= f') l) := by
  generalize h : p l = r at hp
  generalize h' : p' l = r' at hp
  cases hp with
  | ok hw =>
    rw [bind_of_ok h, bind_of_ok h']
    exact hok hw (hl.of_reach hw)
  | error hasked =>
    rw [bind_of_error h, bind_of_error h']
    exact herror hasked
  | outOfFuel =>
    rw [bind_of_error h]
    exact hfuel

/-- One function after another. -/
theorem bind {p p' : Parser α} {f f' : α → Parser β} (hp : Settles l (p l) (p' l)) (hl : l.Closed)
    (hf : ∀ {a : α} {m : Lookahead}, m.Closed → Settles m (f a m) (f' a m)) :
    Settles l ((p >>= f) l) ((p' >>= f') l) :=
  hp.bind_of hl (fun hw hm => (hf hm).after hw) .error .outOfFuel

theorem map {p p' : Parser α} (f : α → β) (hp : Settles l (p l) (p' l)) :
    Settles l ((f <$> p) l) ((f <$> p') l) := by
  simp only [Functor.map, EStateM.map]
  generalize p l = r at hp
  generalize p' l = r' at hp
  cases hp with
  | ok hw => exact .ok hw
  | error hasked => exact .error hasked
  | outOfFuel => exact .outOfFuel

end Settles

/-! ## Basic steps -/

section

variable {l : Lookahead}

/-- The token after the last one is asked for once. -/
theorem settles_advance (hl : l.Closed) (hkind : l.current.kind ≠ .eof) :
    Settles l (advance l) (advance l) := by
  cases h : advance l with
  | ok _ m => exact .ok (reach_of_advance hl hkind h)
  | error e m =>
    refine .error ?_
    unfold advance at h
    split at h
    · cases h
    · cases h
      exact Nat.add_le_add_left (Nat.succ_pos _) _
    · cases h

theorem settles_consumeAny {kinds : List Kind} (hl : l.Closed) (hkinds : .eof ∉ kinds) :
    Settles l (consumeAny kinds l) (consumeAny kinds l) := by
  rw [consumeAny, current_bind]
  by_cases hk : kinds.contains l.current.kind = true
  · have hne : l.current.kind ≠ .eof := by
      intro heof
      rw [heof] at hk
      exact hkinds (List.contains_iff_mem.mp hk)
    rw [if_pos hk]
    exact (settles_advance hl hne).bind hl fun _ => .pure _
  · rw [if_neg hk]
    exact .throw _

theorem settles_consume {kind : Kind} (hl : l.Closed) (hkind : kind ≠ .eof) :
    Settles l (consume kind l) (consume kind l) :=
  settles_consumeAny hl (by simpa using hkind.symm)

theorem settles_accept {kind : Kind} (hl : l.Closed) (hkind : kind ≠ .eof) :
    Settles l (accept kind l) (accept kind l) := by
  rw [accept, currentKind_bind]
  split
  · rename_i hk
    exact (settles_advance hl (hk ▸ hkind)).bind hl fun _ => .pure _
  · exact .pure _

theorem settles_peek : Settles l (peek l) (peek l) := by
  unfold peek
  split
  · exact .ok (Lookahead.reach_nil.mpr rfl)
  · exact .error (Nat.le_add_right _ _)
  · exact .ok (Lookahead.reach_nil.mpr rfl)

end

/-! ## Expressions -/

/-- What the functions for expressions do with `n` levels of nesting, they do with `k` levels. -/
structure Settled (src : Source) (n k : Nat) : Prop where
  expression {l : Lookahead} : l.Closed →
    Settles l (Parser.expression src n l) (Parser.expression src k l)
  sums {l : Lookahead} {left : Node} : l.Closed →
    Settles l (sumTail src n left l) (sumTail src k left l)
  term {l : Lookahead} : l.Closed → Settles l (Parser.term src n l) (Parser.term src k l)
  products {l : Lookahead} {left : Node} : l.Closed →
    Settles l (productTail src n left l) (productTail src k left l)
  factor {l : Lookahead} : l.Closed → Settles l (Parser.factor src n l) (Parser.factor src k l)
  vector {l : Lookahead} : l.Closed → Settles l (Parser.vector src n l) (Parser.vector src k l)
  elements {l : Lookahead} : l.Closed →
    Settles l (Parser.elements src n l) (Parser.elements src k l)
  element {l : Lookahead} : l.Closed → Settles l (Parser.element src n l) (Parser.element src k l)
  reference {l : Lookahead} : l.Closed →
    Settles l (Parser.reference src n l) (Parser.reference src k l)
  call {l : Lookahead} : l.Closed → Settles l (Parser.call src n l) (Parser.call src k l)
  arguments {l : Lookahead} : l.Closed →
    Settles l (Parser.arguments src n l) (Parser.arguments src k l)

section

variable {src : Source} {n k : Nat} {l : Lookahead}

private theorem settled_expression (ih : Settled src n k) (hl : l.Closed) :
    Settles l (expression src (n + 1) l) (expression src (k + 1) l) := by
  rw [expression, expression]
  exact (ih.term hl).bind hl fun hm => ih.sums hm

private theorem settled_sums (ih : Settled src n k) (hl : l.Closed) {left : Node} :
    Settles l (sumTail src (n + 1) left l) (sumTail src (k + 1) left l) := by
  rw [sumTail, current_bind, sumTail, current_bind]
  cases hop : sumOp? l.current.kind with
  | none => exact .pure _
  | some op =>
    refine (settles_advance hl (ne_eof_of_sumOp hop)).bind hl fun hl₁ => ?_
    exact (ih.term hl₁).bind hl₁ fun hl₂ => ih.sums hl₂

private theorem settled_term (ih : Settled src n k) (hl : l.Closed) :
    Settles l (term src (n + 1) l) (term src (k + 1) l) := by
  rw [term, term]
  exact (ih.factor hl).bind hl fun hm => ih.products hm

private theorem settled_products (ih : Settled src n k) (hl : l.Closed) {left : Node} :
    Settles l (productTail src (n + 1) left l) (productTail src (k + 1) left l) := by
  rw [productTail, current_bind, productTail, current_bind]
  cases hop : productOp? l.current.kind with
  | none => exact .pure _
  | some op =>
    refine (settles_advance hl (ne_eof_of_productOp hop)).bind hl fun hl₁ => ?_
    exact (ih.factor hl₁).bind hl₁ fun hl₂ => ih.products hl₂

private theorem settled_factor (ih : Settled src n k) (hl : l.Closed) :
    Settles l (factor src (n + 1) l) (factor src (k + 1) l) := by
  rw [factor, current_bind, factor, current_bind]
  cases hop : unaryOp? l.current.kind with
  | some op =>
    refine (settles_advance hl (ne_eof_of_unaryOp hop)).bind hl fun hl₁ => ?_
    exact (ih.vector hl₁).bind hl₁ fun _ => .pure _
  | none =>
    by_cases hk : l.current.kind = .lparen
    · simp only [if_pos hk]
      refine (settles_advance hl (by simp [hk])).bind hl fun hl₁ => ?_
      refine (ih.expression hl₁).bind hl₁ fun hl₂ => ?_
      exact (settles_consume hl₂ (by decide)).bind hl₂ fun _ => .pure _
    · simp only [if_neg hk]
      exact ih.vector hl

private theorem settled_vector (ih : Settled src n k) (hl : l.Closed) :
    Settles l (vector src (n + 1) l) (vector src (k + 1) l) := by
  rw [vector, current_bind, vector, current_bind]
  refine (ih.element hl).bind hl fun hl₁ => ?_
  exact (ih.elements hl₁).bind hl₁ fun _ => .pure _

private theorem settled_elements (ih : Settled src n k) (hl : l.Closed) :
    Settles l (elements src (n + 1) l) (elements src (k + 1) l) := by
  rw [elements, currentKind_bind, elements, currentKind_bind]
  split
  · refine (ih.element hl).bind hl fun hl₁ => ?_
    exact (ih.elements hl₁).bind hl₁ fun _ => .pure _
  · exact .pure _

private theorem settled_element (ih : Settled src n k) (hl : l.Closed) :
    Settles l (element src (n + 1) l) (element src (k + 1) l) := by
  rw [element, current_bind, element, current_bind]
  cases hk : l.current.kind with
  | string => exact (settles_advance hl (by simp [hk])).bind hl fun _ => .pure _
  | int =>
    refine (settles_advance hl (by simp [hk])).bind hl fun _ => ?_
    cases Numeral.read l.current.text.toList with
    | ok value => exact .pure _
    | error digits => exact .throw _
  | ident =>
    refine settles_peek.bind hl fun hl₁ => ?_
    split
    · exact ih.call hl₁
    · exact ih.reference hl₁
  | tilde | hash | lparen => exact ih.factor hl
  | _ => exact .throw _

private theorem settled_reference (ih : Settled src n k) (hl : l.Closed) :
    Settles l (reference src (n + 1) l) (reference src (k + 1) l) := by
  rw [reference, reference]
  refine (settles_consume hl (by decide)).bind hl fun hl₁ => ?_
  refine (settles_accept hl₁ (by decide)).bind hl₁ fun {b _} hl₂ => ?_
  cases b with
  | true =>
    refine (ih.expression hl₂).bind hl₂ fun hl₃ => ?_
    exact (settles_consume hl₃ (by decide)).bind hl₃ fun _ => .pure _
  | false => exact .pure _

private theorem settled_arguments (ih : Settled src n k) (hl : l.Closed) :
    Settles l (arguments src (n + 1) l) (arguments src (k + 1) l) := by
  rw [arguments, arguments]
  refine (ih.expression hl).bind hl fun hl₁ => ?_
  refine (settles_accept hl₁ (by decide)).bind hl₁ fun {b _} hl₂ => ?_
  cases b with
  | true => exact (ih.arguments hl₂).bind hl₂ fun _ => .pure _
  | false => exact .pure _

private theorem settled_call (ih : Settled src n k) (hl : l.Closed) :
    Settles l (call src (n + 1) l) (call src (k + 1) l) := by
  rw [call, call]
  refine (settles_consume hl (by decide)).bind hl fun hl₁ => ?_
  refine (settles_consume hl₁ (by decide)).bind hl₁ fun hl₂ => ?_
  rw [currentKind_bind, currentKind_bind]
  split
  · refine (Settles.pure _).bind hl₂ fun hl₃ => ?_
    exact (settles_consume hl₃ (by decide)).bind hl₃ fun _ => .pure _
  · refine (ih.arguments hl₂).bind hl₂ fun hl₃ => ?_
    exact (settles_consume hl₃ (by decide)).bind hl₃ fun _ => .pure _

end

private theorem settled_zero (src : Source) (k : Nat) : Settled src 0 k := by
  constructor <;> (intros; exact .outOfFuel)

/-- With more levels the functions for expressions do the same. -/
theorem settled (src : Source) {n k : Nat} (h : n ≤ k) : Settled src n k := by
  induction n generalizing k with
  | zero => exact settled_zero src k
  | succ n ih =>
    obtain ⟨k, rfl⟩ : ∃ j, k = j + 1 := ⟨k - 1, by omega⟩
    have ih := ih (Nat.le_of_succ_le_succ h)
    exact {
      expression := settled_expression ih
      sums := fun hl => settled_sums ih hl
      term := settled_term ih
      products := fun hl => settled_products ih hl
      factor := settled_factor ih
      vector := settled_vector ih
      elements := settled_elements ih
      element := settled_element ih
      reference := settled_reference ih
      call := settled_call ih
      arguments := settled_arguments ih }

/-! ## Statements -/

/-- What the functions for statements do with `n` levels of nesting, they do with `k` levels. -/
structure SettledBlock (src : Source) (n k : Nat) : Prop where
  statements {l : Lookahead} {functions : Bool} : l.Closed →
    Settles l (Parser.statements src functions n l) (Parser.statements src functions k l)
  statement {l : Lookahead} {functions : Bool} : l.Closed →
    Settles l (Parser.statement src functions n l) (Parser.statement src functions k l)
  function {l : Lookahead} : l.Closed →
    Settles l (Parser.function src n l) (Parser.function src k l)
  loop {l : Lookahead} : l.Closed → Settles l (Parser.loop src n l) (Parser.loop src k l)
  conditional {l : Lookahead} : l.Closed →
    Settles l (Parser.conditional src n l) (Parser.conditional src k l)

section

variable {src : Source} {n k : Nat} {l : Lookahead}

private theorem settles_comparison (h : n ≤ k) (hl : l.Closed) :
    Settles l (comparison src n l) (comparison src k l) := by
  rw [comparison, current_bind, comparison, current_bind]
  refine ((settled src h).expression hl).bind hl fun hl₁ => ?_
  refine (settles_consumeAny hl₁ (by decide)).bind hl₁ fun hl₂ => ?_
  exact ((settled src h).expression hl₂).bind hl₂ fun _ => .pure _

private theorem settles_assignment (h : n ≤ k) (hl : l.Closed) :
    Settles l (assignment src n l) (assignment src k l) := by
  rw [assignment, assignment]
  refine (settles_consume hl (by decide)).bind hl fun hl₁ => ?_
  refine (settles_consume hl₁ (by decide)).bind hl₁ fun hl₂ => ?_
  rw [currentKind_bind, currentKind_bind]
  split
  · exact (Settles.pure _).bind hl₂ fun _ => .pure _
  · exact (((settled src h).expression hl₂).map some).bind hl₂ fun _ => .pure _

private theorem settles_output (h : n ≤ k) (hl : l.Closed) :
    Settles l (output src n l) (output src k l) := by
  rw [output, current_bind, output, current_bind]
  exact ((settled src h).expression hl).bind hl fun _ => .pure _

private theorem settles_callOutput (h : n ≤ k) (hl : l.Closed) :
    Settles l (callOutput src n l) (callOutput src k l) := by
  have steps := settled src h
  rw [callOutput, current_bind, callOutput, current_bind]
  refine (steps.call hl).bind hl fun hl₁ => ?_
  rw [currentKind_bind, currentKind_bind]
  split
  · exact .pure _
  · refine (steps.elements hl₁).bind hl₁ fun hl₂ => ?_
    refine (steps.products hl₂).bind hl₂ fun hl₃ => ?_
    exact (steps.sums hl₃).bind hl₃ fun _ => .pure _

private theorem settles_parameters (h : n ≤ k) (hl : l.Closed) :
    Settles l (parameters n l) (parameters k l) := by
  induction n generalizing k l with
  | zero => exact .outOfFuel
  | succ n ih =>
    obtain ⟨k, rfl⟩ : ∃ j, k = j + 1 := ⟨k - 1, by omega⟩
    rw [parameters, parameters]
    refine (settles_consume hl (by decide)).bind hl fun hl₁ => ?_
    split
    · exact .throw _
    · refine (settles_accept hl₁ (by decide)).bind hl₁ fun {b _} hl₂ => ?_
      cases b with
      | true => exact (ih (by omega) hl₂).bind hl₂ fun _ => .pure _
      | false => exact .pure _

private theorem settledBlock_statements (ih : SettledBlock src n k) (hl : l.Closed)
    {functions : Bool} :
    Settles l (statements src functions (n + 1) l) (statements src functions (k + 1) l) := by
  rw [statements, statements]
  refine (ih.statement hl).bind hl fun hl₁ => ?_
  refine (settles_consume hl₁ (by decide)).bind hl₁ fun hl₂ => ?_
  rw [currentKind_bind, currentKind_bind]
  split
  · exact .pure _
  · exact (ih.statements hl₂).bind hl₂ fun _ => .pure _

private theorem settledBlock_statement (h : n ≤ k) (ih : SettledBlock src n k) (hl : l.Closed)
    {functions : Bool} :
    Settles l (statement src functions (n + 1) l) (statement src functions (k + 1) l) := by
  rw [statement, currentKind_bind, statement, currentKind_bind]
  cases hk : l.current.kind with
  | kwBegin =>
    cases functions with
    | true => exact ih.function hl
    | false => exact settles_output h hl
  | kwWhile | kwUntil => exact ih.loop hl
  | kwIf => exact ih.conditional hl
  | ident =>
    refine settles_peek.bind hl fun {t _} hl₁ => ?_
    cases t.kind with
    | assign => exact settles_assignment h hl₁
    | lparen => exact settles_callOutput h hl₁
    | _ => exact settles_output h hl₁
  | _ => exact settles_output h hl

private theorem settledBlock_function (h : n ≤ k) (ih : SettledBlock src n k) (hl : l.Closed) :
    Settles l (function src (n + 1) l) (function src (k + 1) l) := by
  rw [function, function]
  refine (settles_consume hl (by decide)).bind hl fun {keyword _} hl₁ => ?_
  refine (settles_consume hl₁ (by decide)).bind hl₁ fun {name _} hl₂ => ?_
  -- what follows the parameters
  have hrest (params : List String) {m : Lookahead} (hm : m.Closed) : Settles m
      ((consume .newline >>= fun _ => statements src true n >>= fun body =>
        consume .kwEnd >>= fun _ => pure (Node.function ⟨src.locate keyword,
          isGlobalName name.text, name.text, params, body⟩)) m)
      ((consume .newline >>= fun _ => statements src true k >>= fun body =>
        consume .kwEnd >>= fun _ => pure (Node.function ⟨src.locate keyword,
          isGlobalName name.text, name.text, params, body⟩)) m) := by
    refine (settles_consume hm (by decide)).bind hm fun hl₃ => ?_
    refine (ih.statements hl₃).bind hl₃ fun hl₄ => ?_
    exact (settles_consume hl₄ (by decide)).bind hl₄ fun _ => .pure _
  refine (settles_accept hl₂ (by decide)).bind hl₂ fun {b _} hl₃ => ?_
  cases b with
  | true =>
    refine (settles_parameters h hl₃).bind hl₃ fun hl₄ => ?_
    exact (settles_consume hl₄ (by decide)).bind hl₄ fun hl₅ => hrest _ hl₅
  | false => exact hrest [] hl₃

private theorem settledBlock_loop (h : n ≤ k) (ih : SettledBlock src n k) (hl : l.Closed) :
    Settles l (loop src (n + 1) l) (loop src (k + 1) l) := by
  rw [loop, loop]
  refine (settles_consumeAny hl (by decide)).bind hl fun hl₁ => ?_
  refine (settles_comparison h hl₁).bind hl₁ fun hl₂ => ?_
  refine (settles_consume hl₂ (by decide)).bind hl₂ fun hl₃ => ?_
  refine (ih.statements hl₃).bind hl₃ fun hl₄ => ?_
  exact (settles_consume hl₄ (by decide)).bind hl₄ fun _ => .pure _

private theorem settledBlock_conditional (h : n ≤ k) (ih : SettledBlock src n k)
    (hl : l.Closed) : Settles l (conditional src (n + 1) l) (conditional src (k + 1) l) := by
  rw [conditional, conditional]
  refine (settles_consume hl (by decide)).bind hl fun hl₁ => ?_
  refine (settles_comparison h hl₁).bind hl₁ fun hl₂ => ?_
  refine (settles_consume hl₂ (by decide)).bind hl₂ fun hl₃ => ?_
  refine (ih.statements hl₃).bind hl₃ fun hl₄ => ?_
  refine (settles_accept hl₄ (by decide)).bind hl₄ fun {b _} hl₅ => ?_
  cases b with
  | true =>
    refine (settles_consume hl₅ (by decide)).bind hl₅ fun hl₆ => ?_
    refine (ih.statements hl₆).bind hl₆ fun hl₇ => ?_
    exact (settles_consume hl₇ (by decide)).bind hl₇ fun _ => .pure _
  | false => exact (settles_consume hl₅ (by decide)).bind hl₅ fun _ => .pure _

end

private theorem settledBlock_zero (src : Source) (k : Nat) : SettledBlock src 0 k := by
  constructor <;> (intros; exact .outOfFuel)

/-- With more levels the functions for statements do the same. -/
theorem settledBlock (src : Source) {n k : Nat} (h : n ≤ k) : SettledBlock src n k := by
  induction n generalizing k with
  | zero => exact settledBlock_zero src k
  | succ n ih =>
    obtain ⟨k, rfl⟩ : ∃ j, k = j + 1 := ⟨k - 1, by omega⟩
    have hle : n ≤ k := by omega
    have ih := ih hle
    exact {
      statements := fun hl => settledBlock_statements ih hl
      statement := fun hl => settledBlock_statement hle ih hl
      function := settledBlock_function hle ih
      loop := settledBlock_loop hle ih
      conditional := settledBlock_conditional hle ih }

/-! ## Programs -/

/-- What a result tells to the outside: the outcome, and how many tokens have been asked for. -/
def outcome : Result ParseError Lookahead α → Except ParseError α × Nat
  | .ok a l => (.ok a, l.asked)
  | .error e l => (.error e, l.asked)

/-- What a program is read as from a stream with `n` levels of nesting, and how many tokens are
    asked for.  Where the first token cannot be read, it has been asked for. -/
def within (n : Nat) (src : Source) (s : TokenStream) : Except ParseError Program × Nat :=
  match Lookahead.ofStream s with
  | .error e => (.error (.lexical e), 1)
  | .ok l => outcome (program src n l)

/-- Whether the second of two results is the first one, unless that had too few levels, and no more
    than one token is asked for after those that are left. -/
inductive Finishes (l : Lookahead) :
    Result ParseError Lookahead α → Result ParseError Lookahead α → Prop where
  | same {r : Result ParseError Lookahead α} :
      (outcome r).2 ≤ l.asked + l.size → Finishes l r r
  | outOfFuel {m : Lookahead} {r : Result ParseError Lookahead α} :
      Finishes l (.error .outOfFuel m) r

section

variable {src : Source} {n k : Nat} {l m : Lookahead}

theorem Finishes.after {w : List Token} {r r' : Result ParseError Lookahead α} (hw : l.Reach w m)
    (h : Finishes m r r') : Finishes l r r' := by
  cases h with
  | same hasked => exact .same (asked_add_size hw ▸ hasked)
  | outOfFuel => exact .outOfFuel

/-- A result that did not run out of levels is the same with more of them. -/
theorem Finishes.eq {r r' : Result ParseError Lookahead α} (h : Finishes l r r')
    (hr : (outcome r).1 ≠ .error .outOfFuel) : r' = r ∧ (outcome r).2 ≤ l.asked + l.size := by
  cases h with
  | same hasked => exact ⟨rfl, hasked⟩
  | outOfFuel => exact absurd rfl hr

/-- A function that uses up a row of tokens, and then the end of a text. -/
theorem Settles.finishes {p p' : Parser α} {f f' : α → Parser β} (hp : Settles l (p l) (p' l))
    (hl : l.Closed)
    (hf : ∀ {a : α} {m : Lookahead}, m.Closed → Finishes m (f a m) (f' a m)) :
    Finishes l ((p >>= f) l) ((p' >>= f') l) :=
  hp.bind_of hl (fun hw hm => (hf hm).after hw) (fun hasked => .same hasked) .outOfFuel

private theorem asked_advance (l : Lookahead) : (outcome (advance l)).2 = l.asked + 1 := by
  unfold advance
  split <;> rfl

/-- After the end of the text one more token is asked for. -/
private theorem finishes_eof (l : Lookahead) (a : α) :
    Finishes l ((consume .eof >>= fun _ => pure a) l) ((consume .eof >>= fun _ => pure a) l) := by
  have hasked := asked_advance l
  have hsize : l.asked + 1 ≤ l.asked + l.size := Nat.add_le_add_left (Nat.succ_pos _) _
  refine .same (Nat.le_trans ?_ hsize)
  cases h : consume .eof l with
  | ok t m =>
    obtain ⟨-, -, hadvance⟩ := consume_eq_ok.mp h
    rw [hadvance] at hasked
    rw [bind_of_ok h]
    exact Nat.le_of_eq hasked
  | error e m =>
    rw [bind_of_error h]
    rw [consume, consumeAny, current_bind] at h
    split at h
    · rcases bind_eq_error.mp h with hadvance | ⟨_, _, -, hpure⟩
      · rw [hadvance] at hasked
        exact Nat.le_of_eq hasked
      · cases hpure
    · cases h
      exact Nat.le_succ _

theorem finishes_program (h : n ≤ k) (hl : l.Closed) :
    Finishes l (program src n l) (program src k l) := by
  rw [program, program]
  refine (settles_consume hl (by decide)).finishes hl fun hl₁ => ?_
  refine (settles_consume hl₁ (by decide)).finishes hl₁ fun hl₂ => ?_
  refine (settles_consume hl₂ (by decide)).finishes hl₂ fun hl₃ => ?_
  refine ((settledBlock src h).statements hl₃).finishes hl₃ fun hl₄ => ?_
  refine (settles_consume hl₄ (by decide)).finishes hl₄ fun hl₅ => ?_
  exact (settles_accept hl₅ (by decide)).finishes hl₅ fun _ => finishes_eof _ _

private theorem asked_ofStream {s : TokenStream} (h : Lookahead.ofStream s = .ok l) :
    l.asked = 1 := by
  unfold Lookahead.ofStream at h
  split at h <;> cases h <;> rfl

/-- What is found in a stream is found with more levels, unless there were too few of them. -/
theorem within_of_le {s : TokenStream} (hs : s.Terminated) (h : n ≤ k)
    (hends : (within n src s).1 ≠ .error .outOfFuel) :
    within k src s = within n src s ∧ (within n src s).2 ≤ s.tokens.length + 1 := by
  unfold within at hends ⊢
  cases hstart : Lookahead.ofStream s with
  | error e => exact ⟨rfl, Nat.le_add_left _ _⟩
  | ok l =>
    rw [hstart] at hends
    obtain ⟨htokens, -, hclosed⟩ := lookahead_of_terminated hs hstart
    obtain ⟨hsame, hasked⟩ := (finishes_program h hclosed).eq hends
    refine ⟨congrArg outcome hsame, Nat.le_trans hasked ?_⟩
    rw [asked_ofStream hstart, Lookahead.size, htokens, Nat.add_comm]

end

/-! ## Loops -/

/-- One turn of a loop of the parser that succeeds, from one place to another, with `n` levels. -/
inductive Turn (src : Source) (n : Nat) : Lookahead → Lookahead → Prop where
  /-- An operator between terms, and the term after it. -/
  | sum {l m l' : Lookahead} {op : Arithmetic} {right : Node} :
      sumOp? l.current.kind = some op → advance l = .ok () m →
      Parser.term src n m = .ok right l' → Turn src n l l'
  /-- An operator between factors, and the factor after it. -/
  | product {l m l' : Lookahead} {op : Arithmetic} {right : Node} :
      productOp? l.current.kind = some op → advance l = .ok () m →
      Parser.factor src n m = .ok right l' → Turn src n l l'
  /-- An element of a vector after the first one. -/
  | element {l l' : Lookahead} {e : Node} :
      elementStart.contains l.current.kind = true → Parser.element src n l = .ok e l' →
      Turn src n l l'
  /-- An argument, and the comma after it, if there is one. -/
  | argument {l m l' : Lookahead} {e : Node} {more : Bool} :
      Parser.expression src n l = .ok e m → accept .comma m = .ok more l' → Turn src n l l'
  /-- A parameter, and the comma after it, if there is one. -/
  | parameter {l m l' : Lookahead} {t : Token} {more : Bool} :
      consume .ident l = .ok t m → isGlobalName t.text = false →
      accept .comma m = .ok more l' → Turn src n l l'
  /-- A statement with the end of its line. -/
  | statement {l m l' : Lookahead} {functions : Bool} {s : Node} {t : Token} :
      Parser.statement src functions n l = .ok s m → consume .newline m = .ok t l' →
      Turn src n l l'

/-- A number of turns, one after the other. -/
inductive Turns (src : Source) : Nat → Lookahead → Lookahead → Prop where
  | nil (l : Lookahead) : Turns src 0 l l
  | cons {n k : Nat} {l m l' : Lookahead} :
      Turn src n l m → Turns src k m l' → Turns src (k + 1) l l'

/-- A loop of the parser that succeeds, from one place to another, with `n` levels. -/
inductive Loop (src : Source) (n : Nat) : Lookahead → Lookahead → Prop where
  | sums {l l' : Lookahead} {left e : Node} : sumTail src n left l = .ok e l' → Loop src n l l'
  | products {l l' : Lookahead} {left e : Node} :
      productTail src n left l = .ok e l' → Loop src n l l'
  | elements {l l' : Lookahead} {es : List Node} :
      Parser.elements src n l = .ok es l' → Loop src n l l'
  | arguments {l l' : Lookahead} {es : List Node} :
      Parser.arguments src n l = .ok es l' → Loop src n l l'
  | parameters {l l' : Lookahead} {params : List String} :
      Parser.parameters n l = .ok params l' → Loop src n l l'
  | statements {l l' : Lookahead} {functions : Bool} {ns : List Node} :
      Parser.statements src functions n l = .ok ns l' → Loop src n l l'

section

variable {src : Source} {n k : Nat} {l m l' : Lookahead}

/-- A comma is used up or left. -/
private theorem reach_of_accept {kind : Kind} {b : Bool} (hl : l.Closed) (hkind : kind ≠ .eof)
    (h : accept kind l = .ok b l') : ∃ w, l.Reach w l' := by
  rcases accept_eq_ok.mp h with ⟨-, hk, hadvance⟩ | ⟨-, -, rfl⟩
  · exact ⟨_, reach_of_advance hl (hk ▸ hkind) hadvance⟩
  · exact ⟨[], Lookahead.reach_nil.mpr rfl⟩

private theorem reach_of_consume {kind : Kind} {t : Token} (hl : l.Closed) (hkind : kind ≠ .eof)
    (h : consume kind l = .ok t l') : l.Reach [l.current] l' := by
  obtain ⟨rfl, hk, hadvance⟩ := consume_eq_ok.mp h
  exact reach_of_advance hl (hk ▸ hkind) hadvance

/-- A turn of a loop uses up at least one token. -/
theorem Turn.reach (h : Turn src n l l') (hl : l.Closed) : ∃ w, w ≠ [] ∧ l.Reach w l' := by
  cases h with
  | sum hop hadvance hterm =>
    have hm := reach_of_advance hl (ne_eof_of_sumOp hop) hadvance
    obtain ⟨w, hw, -⟩ := (faithful src n).term (hl.of_reach hm) hterm
    exact ⟨_ :: w, List.cons_ne_nil _ _, hm.cons hw⟩
  | product hop hadvance hfactor =>
    have hm := reach_of_advance hl (ne_eof_of_productOp hop) hadvance
    obtain ⟨w, hw, -⟩ := (faithful src n).factor (hl.of_reach hm) hfactor
    exact ⟨_ :: w, List.cons_ne_nil _ _, hm.cons hw⟩
  | element _ helement =>
    obtain ⟨w, hw, hne, -⟩ := (faithful src n).element hl helement
    exact ⟨w, hne, hw⟩
  | argument hexpression hcomma =>
    obtain ⟨w, hw, hreads⟩ := (faithful src n).expression hl hexpression
    obtain ⟨v, hv⟩ := reach_of_accept (hl.of_reach hw) (by decide) hcomma
    exact ⟨w ++ v, List.append_ne_nil_of_left_ne_nil (hreads.ne_nil rfl) v, hw.append hv⟩
  | parameter hname _ hcomma =>
    have hm := reach_of_consume hl (by decide) hname
    obtain ⟨v, hv⟩ := reach_of_accept (hl.of_reach hm) (by decide) hcomma
    exact ⟨_ :: v, List.cons_ne_nil _ _, hm.cons hv⟩
  | statement hstatement hnewline =>
    obtain ⟨hcurrent, hkind, -⟩ := consume_eq_ok.mp hnewline
    rw [← hcurrent] at hkind
    obtain ⟨w, hw, -⟩ := (faithfulBlock src n).statement hl hstatement hkind
    have hm := reach_of_consume (hl.of_reach hw) (by decide) hnewline
    exact ⟨w ++ [_], by simp, hw.append hm⟩

/-- As many tokens as turns are used up, or more. -/
theorem Turns.reach (h : Turns src k l l') (hl : l.Closed) :
    ∃ w, l.Reach w l' ∧ k ≤ w.length := by
  induction h with
  | nil l => exact ⟨[], Lookahead.reach_nil.mpr rfl, Nat.le_refl _⟩
  | cons hturn _ ih =>
    obtain ⟨u, hne, hu⟩ := hturn.reach hl
    obtain ⟨v, hv, hle⟩ := ih (hl.of_reach hu)
    have hpos := List.length_pos_iff.mpr hne
    refine ⟨u ++ v, hu.append hv, ?_⟩
    rw [List.length_append]
    omega

/-- A loop is made of turns. -/
theorem Loop.turns (h : Loop src n l l') : ∃ k, Turns src k l l' := by
  induction n generalizing l with
  | zero => cases h with | _ h => cases h
  | succ n ih =>
    -- a turn, and what is left of the loop
    have hmore {m : Lookahead} (hturn : Turn src n l m) (hloop : Loop src n m l') :
        ∃ k, Turns src k l l' := by
      obtain ⟨k, hk⟩ := ih hloop
      exact ⟨k + 1, .cons hturn hk⟩
    have hlast (hturn : Turn src n l l') : ∃ k, Turns src k l l' := ⟨1, .cons hturn (.nil l')⟩
    cases h with
    | sums h =>
      rcases sumTail_eq_ok.mp h with ⟨-, -, rfl⟩ | ⟨op, m, right, m', hop, hadvance, hterm, h⟩
      · exact ⟨0, .nil l⟩
      · exact hmore (.sum hop hadvance hterm) (.sums h)
    | products h =>
      rcases productTail_eq_ok.mp h with ⟨-, -, rfl⟩ | ⟨op, m, right, m', hop, hadv, hfactor, h⟩
      · exact ⟨0, .nil l⟩
      · exact hmore (.product hop hadv hfactor) (.products h)
    | elements h =>
      rcases elements_eq_ok.mp h with ⟨-, -, rfl⟩ | ⟨hstart, first, m, others, hfirst, h, -⟩
      · exact ⟨0, .nil l⟩
      · exact hmore (.element hstart hfirst) (.elements h)
    | arguments h =>
      obtain ⟨first, m, hfirst, ⟨hcomma, m', others, hadvance, h, -⟩ | ⟨hcomma, rfl, -⟩⟩ :=
        arguments_eq_ok.mp h
      · exact hmore (.argument hfirst (accept_eq_ok.mpr (.inl ⟨rfl, hcomma, hadvance⟩)))
          (.arguments h)
      · exact hlast (.argument hfirst (accept_eq_ok.mpr (.inr ⟨rfl, hcomma, rfl⟩)))
    | parameters h =>
      obtain ⟨hname, m, hadvance, hundotted, h⟩ := parameters_eq_ok.mp h
      have hconsume := consume_eq_ok.mpr ⟨rfl, hname, hadvance⟩
      rcases h with ⟨hcomma, m', others, hadvance', h, -⟩ | ⟨hcomma, rfl, -⟩
      · exact hmore (.parameter hconsume hundotted
          (accept_eq_ok.mpr (.inl ⟨rfl, hcomma, hadvance'⟩))) (.parameters h)
      · exact hlast (.parameter hconsume hundotted (accept_eq_ok.mpr (.inr ⟨rfl, hcomma, rfl⟩)))
    | statements h =>
      obtain ⟨first, m, m', hfirst, hnewline, hadvance, h⟩ := statements_eq_ok.mp h
      have hturn : Turn src n l m' :=
        .statement hfirst (consume_eq_ok.mpr ⟨rfl, hnewline, hadvance⟩)
      rcases h with ⟨-, rfl, -⟩ | ⟨-, others, h, -⟩
      · exact hlast hturn
      · exact hmore hturn (.statements h)

end

end Parser

/-! ## Texts -/

/-- What is found in a text is found with as many levels as its tokens may need. -/
private theorem parse_eq_within (text file : String) :
    parse text file = (Parser.within (Parser.fuelFor (TokenStream.ofText text).tokens.length)
      (Source.ofText file text) (TokenStream.ofText text)).1 := by
  simp only [parse, parseStream, Parser.within]
  cases Lookahead.ofStream (TokenStream.ofText text) with
  | error e => rfl
  | ok l =>
    simp only
    cases Parser.program (Source.ofText file text)
      (Parser.fuelFor (TokenStream.ofText text).tokens.length) l <;> rfl

/-- Reading a text comes to an end, whatever the text is: with enough levels for its tokens there is
    one outcome, which is not that the levels ran out, and the tokens asked for are at most one more
    than there are.  From every place of the text on, each turn of a loop uses up a token or fails,
    and a loop that succeeds has used up at least as many tokens as it made turns. -/
theorem parse_terminates (text file : String) :
    (∃ asked, asked ≤ (TokenStream.ofText text).tokens.length + 1 ∧
      parse text file ≠ .error .outOfFuel ∧
      ∀ n, Parser.fuelFor (TokenStream.ofText text).tokens.length ≤ n →
        Parser.within n (Source.ofText file text) (TokenStream.ofText text) =
          (parse text file, asked)) ∧
    ∀ start u l l' n, Lookahead.ofStream (TokenStream.ofText text) = .ok start →
      start.Reach u l →
      (Parser.Turn (Source.ofText file text) n l l' → ∃ w, w ≠ [] ∧ l.Reach w l') ∧
      (Parser.Loop (Source.ofText file text) n l l' → ∃ k w,
        Parser.Turns (Source.ofText file text) k l l' ∧ l.Reach w l' ∧ k ≤ w.length) := by
  have hterm := TokenStream.terminated_ofText text
  have hparse := parse_eq_within text file
  have hends := parse_ne_outOfFuel text file
  rw [hparse] at hends
  have hasked := (Parser.within_of_le hterm (Nat.le_refl _) hends).2
  refine ⟨⟨_, hasked, hparse ▸ hends, fun n hn => ?_⟩, ?_⟩
  · rw [(Parser.within_of_le hterm hn hends).1, hparse]
  · intro start u l l' n hstart hu
    obtain ⟨-, -, hclosed⟩ := lookahead_of_terminated hterm hstart
    have hl := hclosed.of_reach hu
    refine ⟨fun hturn => hturn.reach hl, fun hloop => ?_⟩
    obtain ⟨k, hturns⟩ := hloop.turns
    obtain ⟨w, hw, hle⟩ := hturns.reach hl
    exact ⟨k, w, hturns, hw, hle⟩

/-- The tokens of a text that ends among the parameters of a function. -/
def cutTokens : List Token :=
  [⟨.kwBegin, "BEGIN", 1, 1⟩, ⟨.ident, "P", 1, 7⟩, ⟨.newline, "\n", 1, 8⟩,
    ⟨.kwBegin, "BEGIN", 2, 1⟩, ⟨.ident, "F", 2, 7⟩, ⟨.lparen, "(", 2, 8⟩, ⟨.ident, "X", 2, 9⟩,
    ⟨.comma, ",", 2, 10⟩, ⟨.eof, "", 2, 11⟩]

/-- The loop over parameters turns round once in that text, and then fails at its end. -/
theorem parse_terminates_cut :
    TokenStream.ofText "BEGIN P\nBEGIN F(X," = ⟨cutTokens, none⟩ ∧
    (∃ asked, asked ≤ 10 ∧ ∀ n, 80 ≤ n →
      Parser.within n (Source.ofText "" "BEGIN P\nBEGIN F(X,") ⟨cutTokens, none⟩ =
        (.error (.unexpected [.ident] ⟨.eof, "", 2, 11⟩), asked)) ∧
    ∃ l l', l.current = ⟨.ident, "X", 2, 9⟩ ∧ l'.current = ⟨.eof, "", 2, 11⟩ ∧
      Parser.Turn (Source.ofText "" "BEGIN P\nBEGIN F(X,") 0 l l' ∧ ∃ w, w ≠ [] ∧ l.Reach w l' := by
  have htokens : TokenStream.ofText "BEGIN P\nBEGIN F(X," = ⟨cutTokens, none⟩ := by cbv
  have hparse : parse "BEGIN P\nBEGIN F(X," "" =
      .error (.unexpected [.ident] ⟨.eof, "", 2, 11⟩) := by cbv
  obtain ⟨⟨asked, hasked, -, hwithin⟩, hloops⟩ := parse_terminates "BEGIN P\nBEGIN F(X," ""
  rw [htokens] at hasked hwithin hloops
  rw [hparse] at hwithin
  -- the places before the parameter and after the comma
  let l : Lookahead := ⟨7, ⟨.ident, "X", 2, 9⟩, [⟨.comma, ",", 2, 10⟩, ⟨.eof, "", 2, 11⟩], none⟩
  let l' : Lookahead := ⟨9, ⟨.eof, "", 2, 11⟩, [], none⟩
  have hturn : Parser.Turn (Source.ofText "" "BEGIN P\nBEGIN F(X,") 0 l l' :=
    .parameter rfl (by decide) rfl
  have hplace : (⟨1, ⟨.kwBegin, "BEGIN", 1, 1⟩, cutTokens.tail, none⟩ : Lookahead).Reach
    (cutTokens.take 6) l := ⟨rfl, rfl, rfl⟩
  exact ⟨htokens, ⟨asked, hasked, hwithin⟩, l, l', rfl, rfl, hturn,
    (hloops _ _ l l' 0 rfl hplace).1 hturn⟩

end VectorLang
