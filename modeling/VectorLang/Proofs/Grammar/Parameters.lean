import VectorLang.Proofs.Grammar.Admissible
import VectorLang.Proofs.Token.Lexeme

/-!
# Parameters, token by token

The parameters of the functions in a row of tokens are found by reading it once from left to
right.  What is found in a part of the row depends on the spot where the tokens before it end,
and a spot is told by the last few kinds.

So what can be read up to a place, and has no numerals that are too long and no parameters with
dotted names, stays so whatever comes after it, if what comes after is in order at that spot.

* `formalParameters_eq`   the parameters that are found token by token
* `clean_append`          a row is in order if its parts are, at the spots where they start
* `Carries.append`        a row that leads from one spot to the next
-/

namespace VectorLang

/-! ## Spots -/

/-- Where the head of a function has come to.  `body` is every place outside of such a head. -/
inductive Spot where
  | body
  /-- After the key word. -/
  | keyword
  /-- After the name of the function. -/
  | name
  /-- Where a parameter is to come. -/
  | row
  /-- After a parameter. -/
  | param
deriving DecidableEq

namespace Spot

/-- The spot after a token of a kind. -/
def next : Spot → Kind → Spot
  | _, .kwBegin => keyword
  | keyword, .ident => name
  | name, .lparen => row
  | row, .ident => param
  | param, .comma => row
  | _, _ => body

/-- The spot after a row of tokens. -/
def after (s : Spot) (ts : List Token) : Spot :=
  ts.foldl (fun s t => s.next t.kind) s

@[simp] theorem after_nil (s : Spot) : s.after [] = s := rfl

@[simp] theorem after_cons (s : Spot) (t : Token) (ts : List Token) :
    s.after (t :: ts) = (s.next t.kind).after ts := rfl

@[simp] theorem after_append (s : Spot) (u v : List Token) :
    s.after (u ++ v) = (s.after u).after v :=
  List.foldl_append

/-- The parameters in a row of tokens that starts at the spot. -/
def parameters : Spot → List Token → List Token
  | _, [] => []
  | s, t :: ts => (if s = row ∧ t.kind = .ident then [t] else []) ++ (s.next t.kind).parameters ts

theorem parameters_append (s : Spot) (u v : List Token) :
    s.parameters (u ++ v) = s.parameters u ++ (s.after u).parameters v := by
  induction u generalizing s with
  | nil => rfl
  | cons t u ih =>
    simp only [List.cons_append, parameters, after_cons, ih, List.append_assoc]

/-- Parameters are names of the row. -/
theorem mem_parameters {s : Spot} {ts : List Token} {t : Token} (h : t ∈ s.parameters ts) :
    t ∈ ts ∧ t.kind = .ident := by
  induction ts generalizing s with
  | nil => simp [parameters] at h
  | cons t' ts ih =>
    rw [parameters, List.mem_append] at h
    rcases h with h | h
    · split at h
      · obtain rfl := List.mem_singleton.mp h
        exact ⟨List.mem_cons_self, (‹_ ∧ _›).2⟩
      · simp at h
    · exact ⟨List.mem_cons_of_mem _ (ih h).1, (ih h).2⟩

/-- The parameters of the function in whose head the spot is. -/
private def pending : Spot → List Token → List Token
  | body, _ => []
  | keyword, ts => headerParameters ts
  | name, [] => []
  | name, paren :: ts => if paren.kind = .lparen then parameterRow ts else []
  | row, ts => parameterRow ts
  | param, [] => []
  | param, comma :: ts => if comma.kind = .comma then parameterRow ts else []

private theorem headerParameters_cons (t : Token) (ts : List Token) :
    headerParameters (t :: ts) = if t.kind = .ident then name.pending ts else [] := by
  cases ts with
  | nil => simp [headerParameters, pending]
  | cons paren ts =>
    by_cases ht : t.kind = .ident <;> simp [headerParameters, pending, ht]

private theorem parameterRow_cons (t : Token) (ts : List Token) :
    parameterRow (t :: ts) = if t.kind = .ident then t :: param.pending ts else [] := by
  cases ts with
  | nil => simp [parameterRow, pending]
  | cons comma ts => simp [parameterRow, pending]

/-- A token in the head of a function is one of its parameters, or moves the spot on. -/
private theorem pending_cons (s : Spot) (t : Token) (ts : List Token) :
    s.pending (t :: ts) ++ (if t.kind = .kwBegin then headerParameters ts else []) =
      (if s = row ∧ t.kind = .ident then [t] else []) ++ (s.next t.kind).pending ts := by
  cases s with
  | body | name | param => cases hk : t.kind <;> simp [pending, next, hk]
  | keyword =>
    rw [pending, headerParameters_cons]
    cases hk : t.kind <;> simp [pending, next]
  | row =>
    rw [pending, parameterRow_cons]
    cases hk : t.kind <;> simp [pending, next]

private theorem pending_append_formalParameters (s : Spot) (ts : List Token) :
    s.pending ts ++ formalParameters ts = s.parameters ts := by
  induction ts generalizing s with
  | nil => cases s <;> simp [pending, headerParameters, parameterRow, formalParameters, parameters]
  | cons t ts ih =>
    rw [formalParameters, ← List.append_assoc, pending_cons, List.append_assoc, ih, parameters]

end Spot

/-- The parameters of a row of tokens are those that are found token by token. -/
theorem formalParameters_eq (ts : List Token) : formalParameters ts = Spot.body.parameters ts :=
  Spot.pending_append_formalParameters .body ts

/-! ## Rows that are in order -/

/-- Whether a row of tokens that starts at a spot has no numeral that is too long and no
    parameter with a dotted name. -/
structure Clean (s : Spot) (ts : List Token) : Prop where
  /-- No numeral has too many digits. -/
  numerals : ∀ t ∈ ts, t.kind = .int →
    (Numeral.digits t.text.toList).length ≤ Numeral.maxDigits
  /-- No parameter has a dotted name. -/
  parameters : ∀ t ∈ s.parameters ts, isGlobalName t.text = false

/-- The rows that are in order at the start of a text are the admissible ones. -/
theorem admissible_iff_clean {ts : List Token} : Admissible ts ↔ Clean .body ts := by
  constructor
  · intro h
    exact ⟨h.numerals, formalParameters_eq ts ▸ h.parameters⟩
  · intro h
    exact ⟨h.numerals, (formalParameters_eq ts).symm ▸ h.parameters⟩

theorem clean_nil (s : Spot) : Clean s [] := ⟨by simp, by simp [Spot.parameters]⟩

/-- A row is in order if its parts are, at the spots where they start. -/
theorem clean_append {s : Spot} {u v : List Token} :
    Clean s (u ++ v) ↔ Clean s u ∧ Clean (s.after u) v := by
  constructor
  · intro h
    have hnumerals := List.forall_mem_append.mp h.numerals
    have hparameters := h.parameters
    rw [Spot.parameters_append, List.forall_mem_append] at hparameters
    exact ⟨⟨hnumerals.1, hparameters.1⟩, ⟨hnumerals.2, hparameters.2⟩⟩
  · rintro ⟨hu, hv⟩
    refine ⟨List.forall_mem_append.mpr ⟨hu.numerals, hv.numerals⟩, ?_⟩
    rw [Spot.parameters_append]
    exact List.forall_mem_append.mpr ⟨hu.parameters, hv.parameters⟩

/-- The texts of the parameters are told by the lexemes. -/
private theorem parameters_of_lexemes {ts us : List Token}
    (h : ts.map Token.lexeme = us.map Token.lexeme) (s : Spot) :
    (s.parameters ts).map Token.text = (s.parameters us).map Token.text := by
  induction ts generalizing us s with
  | nil => rw [List.map_eq_nil_iff.mp h.symm]
  | cons t ts ih =>
    obtain ⟨u, us, rfl, hlexeme, htail⟩ := List.map_eq_cons_iff.mp h.symm
    have hkind : u.kind = t.kind := congrArg Lexeme.kind hlexeme
    have htext : u.text = t.text := congrArg Lexeme.text hlexeme
    simp only [Spot.parameters, List.map_append, ih htail.symm, hkind]
    split <;> simp [htext]

/-- Whether a row is in order is told by its lexemes. -/
theorem Clean.of_lexemes {s : Spot} {ts us : List Token} (h : Clean s ts)
    (hlexemes : ts.map Token.lexeme = us.map Token.lexeme) : Clean s us := by
  constructor
  · intro u hu hint
    have hmem : u.lexeme ∈ ts.map Token.lexeme := hlexemes ▸ List.mem_map_of_mem hu
    obtain ⟨t, ht, hlexeme⟩ := List.mem_map.mp hmem
    have hkind : t.kind = u.kind := congrArg Lexeme.kind hlexeme
    have htext : t.text = u.text := congrArg Lexeme.text hlexeme
    exact htext ▸ h.numerals t ht (hkind.trans hint)
  · intro u hu
    have hmem : u.text ∈ (s.parameters ts).map Token.text :=
      parameters_of_lexemes hlexemes s ▸ List.mem_map_of_mem hu
    obtain ⟨t, ht, htext⟩ := List.mem_map.mp hmem
    exact htext ▸ h.parameters t ht

/-- Whether a row of tokens that is in order leads from the spot `s` to the spot `s'`. -/
structure Carries (s s' : Spot) (ts : List Token) : Prop where
  clean : Clean s ts
  after : s.after ts = s'

theorem Carries.nil (s : Spot) : Carries s s [] := ⟨clean_nil s, rfl⟩

theorem Carries.append {s s' s'' : Spot} {u v : List Token} (hu : Carries s s' u)
    (hv : Carries s' s'' v) : Carries s s'' (u ++ v) := by
  obtain ⟨hclean, rfl⟩ := hu
  exact ⟨clean_append.mpr ⟨hclean, hv.clean⟩, by rw [Spot.after_append, hv.after]⟩

/-- A single token is in order if it is neither a numeral nor a parameter. -/
theorem Carries.token {s : Spot} {t : Token} (hint : t.kind ≠ .int)
    (hident : s = .row → t.kind ≠ .ident) : Carries s (s.next t.kind) [t] := by
  refine ⟨⟨?_, ?_⟩, rfl⟩
  · simp [hint]
  · have hno : ¬ (s = .row ∧ t.kind = .ident) := fun h => hident h.1 h.2
    simp [Spot.parameters, if_neg hno]

end VectorLang
