import VectorLang.Proofs.Reading.Lookahead

/-!
# What each rule of the parser does

For each function of the parser there is one equation.  It says when the function
succeeds with one level of nesting to spend, in terms of the functions that it calls.
All that is proved of the parser is proved from these equations.
-/

namespace VectorLang.Parser

variable {src : Source} {n : Nat} {l l' : Lookahead}

/-! ## Expressions -/

theorem expression_eq_ok {e : Node} :
    expression src (n + 1) l = .ok e l' ↔
      ∃ left m, term src n l = .ok left m ∧ sumTail src n left m = .ok e l' := by
  rw [expression, bind_eq_ok]

theorem sumTail_eq_ok {left e : Node} :
    sumTail src (n + 1) left l = .ok e l' ↔
      (sumOp? l.current.kind = none ∧ left = e ∧ l = l') ∨
      ∃ op m right m', sumOp? l.current.kind = some op ∧ advance l = .ok () m ∧
        term src n m = .ok right m' ∧
        sumTail src n (.binary (src.locate l.current) op left right) m' = .ok e l' := by
  rw [sumTail]
  cases h : sumOp? l.current.kind <;> simp [h]

theorem term_eq_ok {e : Node} :
    term src (n + 1) l = .ok e l' ↔
      ∃ left m, factor src n l = .ok left m ∧ productTail src n left m = .ok e l' := by
  rw [term, bind_eq_ok]

theorem productTail_eq_ok {left e : Node} :
    productTail src (n + 1) left l = .ok e l' ↔
      (productOp? l.current.kind = none ∧ left = e ∧ l = l') ∨
      ∃ op m right m', productOp? l.current.kind = some op ∧ advance l = .ok () m ∧
        factor src n m = .ok right m' ∧
        productTail src n (.binary (src.locate l.current) op left right) m' = .ok e l' := by
  rw [productTail]
  cases h : productOp? l.current.kind <;> simp [h]

theorem factor_eq_ok {e : Node} :
    factor src (n + 1) l = .ok e l' ↔
      (∃ op m operand, unaryOp? l.current.kind = some op ∧ advance l = .ok () m ∧
        vector src n m = .ok operand l' ∧ .unary (src.locate l.current) op operand = e) ∨
      (∃ m m', l.current.kind = .lparen ∧ advance l = .ok () m ∧
        expression src n m = .ok e m' ∧ m'.current.kind = .rparen ∧ advance m' = .ok () l') ∨
      (unaryOp? l.current.kind = none ∧ l.current.kind ≠ .lparen ∧
        vector src n l = .ok e l') := by
  rw [factor]
  by_cases hp : l.current.kind = .lparen
  · have hop : unaryOp? l.current.kind = none := by rw [hp]; rfl
    simp only [current_bind, hop, if_pos hp, advance_bind_eq_ok]
    constructor
    · rintro ⟨m, hm, h⟩
      obtain ⟨inner, m', he, h⟩ := bind_eq_ok.mp h
      obtain ⟨hc, m'', hadv, h⟩ := consume_bind_eq_ok.mp h
      obtain ⟨rfl, rfl⟩ := pure_eq_ok.mp h
      exact Or.inr (Or.inl ⟨m, m', hp, hm, he, hc, hadv⟩)
    -- a parenthesis is no operator and starts no bare vector
    · rintro (⟨_, _, _, h, _⟩ | ⟨m, m', _, hm, he, hc, hadv⟩ | ⟨_, hne, _⟩)
      · cases h
      · refine ⟨m, hm, bind_eq_ok.mpr ⟨e, m', he, consume_bind_eq_ok.mpr ⟨hc, l', hadv, ?_⟩⟩⟩
        exact pure_eq_ok.mpr ⟨rfl, rfl⟩
      · exact absurd hp hne
  · cases h : unaryOp? l.current.kind <;> simp [h, hp]

theorem vector_eq_ok {e : Node} :
    vector src (n + 1) l = .ok e l' ↔
      ∃ first m others, element src n l = .ok first m ∧ elements src n m = .ok others l' ∧
        .vector (src.locate l.current) (first :: others) = e := by
  rw [vector]
  simp

theorem elements_eq_ok {es : List Node} :
    elements src (n + 1) l = .ok es l' ↔
      (elementStart.contains l.current.kind = false ∧ [] = es ∧ l = l') ∨
      (elementStart.contains l.current.kind = true ∧ ∃ first m others,
        element src n l = .ok first m ∧ elements src n m = .ok others l' ∧
        first :: others = es) := by
  rw [elements, currentKind_bind]
  cases h : elementStart.contains l.current.kind <;> simp

/-- An element that starts with a string. -/
theorem element_of_string {e : Node} (hk : l.current.kind = .string) :
    element src (n + 1) l = .ok e l' ↔
      advance l = .ok () l' ∧ .string (src.locate l.current) l.current.text = e := by
  rw [element, current_bind, hk]
  simp

/-- An element that starts with a numeral. -/
theorem element_of_int {e : Node} (hk : l.current.kind = .int) :
    element src (n + 1) l = .ok e l' ↔
      advance l = .ok () l' ∧ ∃ value, Numeral.read l.current.text.toList = .ok value ∧
        .int (src.locate l.current) value = e := by
  rw [element, current_bind, hk]
  simp only [advance_bind_eq_ok]
  cases hr : Numeral.read l.current.text.toList with
  | ok value =>
    simp only [pure_eq_ok, Except.ok.injEq]
    constructor
    · rintro ⟨m, hm, he, rfl⟩
      exact ⟨hm, value, rfl, he⟩
    · rintro ⟨hm, _, rfl, he⟩
      exact ⟨l', hm, he, rfl⟩
  | error digits => simp

/-- An element that starts with a name. -/
theorem element_of_ident {e : Node} (hk : l.current.kind = .ident) :
    element src (n + 1) l = .ok e l' ↔
      ∃ next m, peek l = .ok next m ∧
        ((next.kind = .lparen ∧ call src n m = .ok e l') ∨
          (next.kind ≠ .lparen ∧ reference src n m = .ok e l')) := by
  rw [element, current_bind, hk]
  simp only [bind_eq_ok]
  constructor
  · rintro ⟨next, m, hpeek, h⟩
    refine ⟨next, m, hpeek, ?_⟩
    split at h
    · exact Or.inl ⟨‹_›, h⟩
    · exact Or.inr ⟨‹_›, h⟩
  · rintro ⟨next, m, hpeek, ⟨hp, h⟩ | ⟨hp, h⟩⟩
    · exact ⟨next, m, hpeek, by rwa [if_pos hp]⟩
    · exact ⟨next, m, hpeek, by rwa [if_neg hp]⟩

/-- An element that starts with an operator or a parenthesis is a factor. -/
theorem element_of_factor {e : Node}
    (hk : l.current.kind = .tilde ∨ l.current.kind = .hash ∨ l.current.kind = .lparen) :
    element src (n + 1) l = .ok e l' ↔ factor src n l = .ok e l' := by
  rw [element, current_bind]
  rcases hk with hk | hk | hk <;> rw [hk]

/-- No element starts with another token. -/
theorem element_ne_ok {e : Node} (hk : elementStart.contains l.current.kind = false) :
    element src (n + 1) l ≠ .ok e l' := by
  rw [element, current_bind]
  cases h : l.current.kind <;> simp_all [elementStart]

theorem reference_eq_ok {e : Node} :
    reference src (n + 1) l = .ok e l' ↔
      l.current.kind = .ident ∧ ∃ m, advance l = .ok () m ∧
        ((m.current.kind = .lbracket ∧ ∃ m₁ subscript m₂, advance m = .ok () m₁ ∧
          expression src n m₁ = .ok subscript m₂ ∧ m₂.current.kind = .rbracket ∧
          advance m₂ = .ok () l' ∧
          .var (src.locate l.current) (isGlobalName l.current.text) l.current.text
            (some subscript) = e) ∨
        (m.current.kind ≠ .lbracket ∧ m = l' ∧
          .var (src.locate l.current) (isGlobalName l.current.text) l.current.text none = e)) := by
  rw [reference]
  simp [and_assoc, and_comm]

theorem call_eq_ok {e : Node} :
    call src (n + 1) l = .ok e l' ↔
      l.current.kind = .ident ∧ ∃ m, advance l = .ok () m ∧ m.current.kind = .lparen ∧
        ∃ m₁, advance m = .ok () m₁ ∧ ∃ args m₂,
          ((m₁.current.kind = .rparen ∧ args = [] ∧ m₂ = m₁) ∨
            (m₁.current.kind ≠ .rparen ∧ arguments src n m₁ = .ok args m₂)) ∧
          m₂.current.kind = .rparen ∧ advance m₂ = .ok () l' ∧
          .call (src.locate l.current) (isGlobalName l.current.text) l.current.text args = e := by
  simp only [call, consume_bind_eq_ok, currentKind_bind]
  refine and_congr_right fun _ => exists_congr fun m => and_congr_right fun _ =>
    and_congr_right fun _ => exists_congr fun m₁ => and_congr_right fun _ => ?_
  by_cases hp : m₁.current.kind = .rparen
  · rw [if_pos hp]
    constructor
    · intro h
      obtain ⟨args, m₂, hargs, h⟩ := bind_eq_ok.mp h
      obtain ⟨rfl, rfl⟩ := pure_eq_ok.mp hargs
      obtain ⟨hc, m₃, hadv, h⟩ := consume_bind_eq_ok.mp h
      obtain ⟨he, rfl⟩ := pure_eq_ok.mp h
      exact ⟨[], m₁, Or.inl ⟨hp, rfl, rfl⟩, hc, hadv, he⟩
    · rintro ⟨args, m₂, ⟨_, rfl, rfl⟩ | ⟨hne, _⟩, hc, hadv, he⟩
      · refine bind_eq_ok.mpr ⟨[], m₂, pure_eq_ok.mpr ⟨rfl, rfl⟩, ?_⟩
        exact consume_bind_eq_ok.mpr ⟨hc, l', hadv, pure_eq_ok.mpr ⟨he, rfl⟩⟩
      · exact absurd hp hne
  · simp [hp, and_assoc]

theorem arguments_eq_ok {es : List Node} :
    arguments src (n + 1) l = .ok es l' ↔
      ∃ first m, expression src n l = .ok first m ∧
        ((m.current.kind = .comma ∧ ∃ m' others, advance m = .ok () m' ∧
          arguments src n m' = .ok others l' ∧ first :: others = es) ∨
        (m.current.kind ≠ .comma ∧ m = l' ∧ [first] = es)) := by
  rw [arguments]
  simp [and_comm]

/-! ## Statements -/

theorem comparison_eq_ok {c : Comparison Node} :
    comparison src n l = .ok c l' ↔
      ∃ left m, expression src n l = .ok left m ∧ relational.contains m.current.kind = true ∧
        ∃ m', advance m = .ok () m' ∧ ∃ right, expression src n m' = .ok right l' ∧
          ⟨src.locate l.current, relationOf m.current.kind, left, right⟩ = c := by
  simp only [comparison, current_bind, bind_pure_comp, bind_eq_ok (p := expression src n),
    consumeAny_bind_eq_ok, map_eq_ok]

theorem assignment_eq_ok {e : Node} :
    assignment src n l = .ok e l' ↔
      l.current.kind = .ident ∧ ∃ m, advance l = .ok () m ∧ m.current.kind = .assign ∧
        ∃ m', advance m = .ok () m' ∧
          ((m'.current.kind = .newline ∧ m' = l' ∧
            .assign (src.locate l.current) (isGlobalName l.current.text) l.current.text none =
              e) ∨
          (m'.current.kind ≠ .newline ∧ ∃ v, expression src n m' = .ok v l' ∧
            .assign (src.locate l.current) (isGlobalName l.current.text) l.current.text (some v) =
              e)) := by
  simp only [assignment, consume_bind_eq_ok, currentKind_bind]
  refine and_congr_right fun _ => exists_congr fun m => and_congr_right fun _ =>
    and_congr_right fun _ => exists_congr fun m' => and_congr_right fun _ => ?_
  by_cases hp : m'.current.kind = .newline
  · simp [hp, and_comm]
  · simp [hp]

theorem callOutput_eq_ok {e : Node} :
    callOutput src n l = .ok e l' ↔
      ∃ first m, call src n l = .ok first m ∧
        ((m.current.kind = .newline ∧ m = l' ∧ .output (src.locate l.current) first = e) ∨
        (m.current.kind ≠ .newline ∧ ∃ others m₁ product m₂ sum,
          elements src n m = .ok others m₁ ∧
          productTail src n (.vector first.location (first :: others)) m₁ = .ok product m₂ ∧
          sumTail src n product m₂ = .ok sum l' ∧
          .output (src.locate l.current) sum = e)) := by
  simp only [callOutput, current_bind, bind_eq_ok (p := call src n), currentKind_bind]
  refine exists_congr fun first => exists_congr fun m => and_congr_right fun _ => ?_
  by_cases hp : m.current.kind = .newline
  · simp [hp, and_comm]
  · simp [hp]

theorem output_eq_ok {e : Node} :
    output src n l = .ok e l' ↔
      ∃ value, expression src n l = .ok value l' ∧ .output (src.locate l.current) value = e := by
  simp [output]

theorem parameters_eq_ok {params : List String} :
    parameters (n + 1) l = .ok params l' ↔
      l.current.kind = .ident ∧ ∃ m, advance l = .ok () m ∧
        isGlobalName l.current.text = false ∧
        ((m.current.kind = .comma ∧ ∃ m' others, advance m = .ok () m' ∧
          parameters n m' = .ok others l' ∧ l.current.text :: others = params) ∨
        (m.current.kind ≠ .comma ∧ m = l' ∧ [l.current.text] = params)) := by
  simp only [parameters, consume_bind_eq_ok]
  refine and_congr_right fun _ => exists_congr fun m => and_congr_right fun _ => ?_
  cases hg : isGlobalName l.current.text
  · simp [and_comm]
  · simp

theorem statements_eq_ok {functions : Bool} {ns : List Node} :
    statements src functions (n + 1) l = .ok ns l' ↔
      ∃ first m m', statement src functions n l = .ok first m ∧ m.current.kind = .newline ∧
        advance m = .ok () m' ∧
        (([Kind.kwEnd, Kind.kwElse].contains m'.current.kind = true ∧ m' = l' ∧ [first] = ns) ∨
        ([Kind.kwEnd, Kind.kwElse].contains m'.current.kind = false ∧ ∃ others,
          statements src functions n m' = .ok others l' ∧ first :: others = ns)) := by
  simp only [statements, consume_bind_eq_ok, currentKind_bind,
    bind_eq_ok (p := statement src functions n)]
  simp [and_comm]

/-- A statement that starts like a function is one where functions may stand. -/
theorem statement_of_begin {functions : Bool} {e : Node} (hk : l.current.kind = .kwBegin) :
    statement src functions (n + 1) l = .ok e l' ↔
      (functions = true ∧ function src n l = .ok e l') ∨
      (functions = false ∧ output src n l = .ok e l') := by
  rw [statement, currentKind_bind, hk]
  cases functions <;> simp

theorem statement_of_loop {functions : Bool} {e : Node}
    (hk : l.current.kind = .kwWhile ∨ l.current.kind = .kwUntil) :
    statement src functions (n + 1) l = .ok e l' ↔ loop src n l = .ok e l' := by
  rw [statement, currentKind_bind]
  rcases hk with hk | hk <;> rw [hk]

theorem statement_of_if {functions : Bool} {e : Node} (hk : l.current.kind = .kwIf) :
    statement src functions (n + 1) l = .ok e l' ↔ conditional src n l = .ok e l' := by
  rw [statement, currentKind_bind, hk]

/-- What a statement is that starts with a name shows at the token after it. -/
theorem statement_of_ident {functions : Bool} {e : Node} (hk : l.current.kind = .ident) :
    statement src functions (n + 1) l = .ok e l' ↔
      ∃ next m, peek l = .ok next m ∧
        ((next.kind = .assign ∧ assignment src n m = .ok e l') ∨
        (next.kind = .lparen ∧ callOutput src n m = .ok e l') ∨
        (next.kind ≠ .assign ∧ next.kind ≠ .lparen ∧ output src n m = .ok e l')) := by
  rw [statement, currentKind_bind, hk]
  simp only [bind_eq_ok]
  refine exists_congr fun next => exists_congr fun m => and_congr_right fun _ => ?_
  cases h : next.kind <;> simp

/-- Every other statement is an expression. -/
theorem statement_of_other {functions : Bool} {e : Node}
    (hk : [Kind.kwBegin, .kwWhile, .kwUntil, .kwIf, .ident].contains l.current.kind = false) :
    statement src functions (n + 1) l = .ok e l' ↔ output src n l = .ok e l' := by
  -- the kinds that are left fall through to the last rule
  rw [statement, currentKind_bind]
  cases h : l.current.kind <;> simp_all

theorem function_eq_ok {e : Node} :
    function src (n + 1) l = .ok e l' ↔
      l.current.kind = .kwBegin ∧ ∃ m, advance l = .ok () m ∧ m.current.kind = .ident ∧
        ∃ m₁, advance m = .ok () m₁ ∧ ∃ params m₂,
          ((m₁.current.kind = .lparen ∧ ∃ m₃ m₄, advance m₁ = .ok () m₃ ∧
            parameters n m₃ = .ok params m₄ ∧ m₄.current.kind = .rparen ∧
            advance m₄ = .ok () m₂) ∨
          (m₁.current.kind ≠ .lparen ∧ params = [] ∧ m₂ = m₁)) ∧
          m₂.current.kind = .newline ∧ ∃ m₅, advance m₂ = .ok () m₅ ∧ ∃ body m₆,
            statements src true n m₅ = .ok body m₆ ∧ m₆.current.kind = .kwEnd ∧
            advance m₆ = .ok () l' ∧
            .function ⟨src.locate l.current, isGlobalName m.current.text, m.current.text,
              params, body⟩ = e := by
  simp only [function, consume_bind_eq_ok, accept_bind_eq_ok]
  refine and_congr_right fun _ => exists_congr fun m => and_congr_right fun _ =>
    and_congr_right fun _ => exists_congr fun m₁ => and_congr_right fun _ => ?_
  by_cases hp : m₁.current.kind = .lparen
  · simp [hp, and_assoc]
    constructor
    -- the places are the same ones, named in the order of the statement
    · rintro ⟨m₃, h₃, params, m₄, h₄, hr, m₂, h₂, hrest⟩
      exact ⟨params, m₂, ⟨m₃, h₃, m₄, h₄, hr, h₂⟩, hrest⟩
    · rintro ⟨params, m₂, ⟨m₃, h₃, m₄, h₄, hr, h₂⟩, hrest⟩
      exact ⟨m₃, h₃, params, m₄, h₄, hr, m₂, h₂, hrest⟩
  · simp [hp, and_assoc]

theorem loop_eq_ok {e : Node} :
    loop src (n + 1) l = .ok e l' ↔
      [Kind.kwWhile, .kwUntil].contains l.current.kind = true ∧ ∃ m, advance l = .ok () m ∧
        ∃ test m₁, comparison src n m = .ok test m₁ ∧ m₁.current.kind = .newline ∧
          ∃ m₂, advance m₁ = .ok () m₂ ∧ ∃ body m₃, statements src false n m₂ = .ok body m₃ ∧
            m₃.current.kind = .kwEnd ∧ advance m₃ = .ok () l' ∧
            .loop (src.locate l.current) (l.current.kind = .kwWhile) test body = e := by
  simp only [loop, consumeAny_bind_eq_ok]
  simp [and_assoc]

theorem conditional_eq_ok {e : Node} :
    conditional src (n + 1) l = .ok e l' ↔
      l.current.kind = .kwIf ∧ ∃ m, advance l = .ok () m ∧ ∃ test m₁,
        comparison src n m = .ok test m₁ ∧ m₁.current.kind = .newline ∧
        ∃ m₂, advance m₁ = .ok () m₂ ∧ ∃ thenBody m₃,
          statements src false n m₂ = .ok thenBody m₃ ∧ ∃ elseBody m₄,
            ((m₃.current.kind = .kwElse ∧ ∃ m₅ m₆, advance m₃ = .ok () m₅ ∧
              m₅.current.kind = .newline ∧ advance m₅ = .ok () m₆ ∧
              statements src false n m₆ = .ok elseBody m₄) ∨
            (m₃.current.kind ≠ .kwElse ∧ elseBody = [] ∧ m₄ = m₃)) ∧
            m₄.current.kind = .kwEnd ∧ advance m₄ = .ok () l' ∧
            .conditional (src.locate l.current) test thenBody elseBody = e := by
  simp only [conditional, consume_bind_eq_ok, bind_eq_ok (p := comparison src n),
    bind_eq_ok (p := statements src false n), accept_bind_eq_ok]
  refine and_congr_right fun _ => exists_congr fun m => and_congr_right fun _ =>
    exists_congr fun test => exists_congr fun m₁ => and_congr_right fun _ =>
    and_congr_right fun _ => exists_congr fun m₂ => and_congr_right fun _ =>
    exists_congr fun thenBody => exists_congr fun m₃ => and_congr_right fun _ => ?_
  by_cases hp : m₃.current.kind = .kwElse
  · simp [hp, and_assoc]
    constructor
    -- the places are the same ones, named in the order of the statement
    · rintro ⟨m₅, h₅, hk, m₆, h₆, elseBody, m₄, h₄, hrest⟩
      exact ⟨elseBody, m₄, ⟨m₅, h₅, hk, m₆, h₆, h₄⟩, hrest⟩
    · rintro ⟨elseBody, m₄, ⟨m₅, h₅, hk, m₆, h₆, h₄⟩, hrest⟩
      exact ⟨m₅, h₅, hk, m₆, h₆, elseBody, m₄, h₄, hrest⟩
  · simp [hp, and_assoc]

theorem program_eq_ok {p : Program} :
    program src n l = .ok p l' ↔
      l.current.kind = .kwBegin ∧ ∃ m, advance l = .ok () m ∧ m.current.kind = .ident ∧
        ∃ m₁, advance m = .ok () m₁ ∧ m₁.current.kind = .newline ∧
        ∃ m₂, advance m₁ = .ok () m₂ ∧ ∃ body m₃, statements src true n m₂ = .ok body m₃ ∧
          m₃.current.kind = .kwEnd ∧ ∃ m₄, advance m₃ = .ok () m₄ ∧ ∃ m₅,
            ((m₄.current.kind = .newline ∧ advance m₄ = .ok () m₅) ∨
              (m₄.current.kind ≠ .newline ∧ m₅ = m₄)) ∧
            m₅.current.kind = .eof ∧ advance m₅ = .ok () l' ∧
            ⟨src.locate l.current, m.current.text,
              ⟨src.locate l.current, false, m.current.text, [], body⟩⟩ = p := by
  simp only [program, consume_bind_eq_ok, bind_eq_ok (p := statements src true n),
    accept_bind_eq_ok]
  refine and_congr_right fun _ => exists_congr fun m => and_congr_right fun _ =>
    and_congr_right fun _ => exists_congr fun m₁ => and_congr_right fun _ =>
    and_congr_right fun _ => exists_congr fun m₂ => and_congr_right fun _ =>
    exists_congr fun body => exists_congr fun m₃ => and_congr_right fun _ =>
    and_congr_right fun _ => exists_congr fun m₄ => and_congr_right fun _ => ?_
  by_cases hp : m₄.current.kind = .newline
  · simp [hp]
  · simp [hp]

end VectorLang.Parser
