import Mathlib
import VectorLang.Proofs.Machine.Reach
import VectorLang.Proofs.Printing.RoundTrip
import VectorLang.Proofs.Scope.Order

/-!
# Printed values are read back

The text of a value, as the only statement of a program, is an expression for that value: a run
of the program prints the same text again.  A text is written in quotes for this.

* `layout_line`           the text of lexemes in a line
* `reads_of_lexemes`      the lexemes of a value are read as literals for its parts
* `mapM_eval_of_denotes`  the values of literals
* `printed_reads_back`    the run of the program
-/

namespace VectorLang

/-! ## Lexemes of values -/

namespace Value

/-- The lexemes that a value is written with in a program. -/
def lexemes : Value → List Lexeme
  | ints zs => zs.map fun z => ⟨.int, Numeral.text z⟩
  | text s => [⟨.string, s⟩]

/-- The values of these lexemes. -/
def parts : Value → List Value
  | ints zs => zs.map fun z => ints [z]
  | text s => [text s]

/-- Whether a program can hold a value: a vector that is not empty and has no number with too many
    digits, or a text without quotes. -/
def IsWritable : Value → Prop
  | ints zs => zs ≠ [] ∧ ∀ z ∈ zs, z.natAbs.repr.length ≤ Numeral.maxDigits
  | text s => '"' ∉ s.toList

theorem intsOf?_singletons (zs : List Int) :
    intsOf? (zs.map fun z => ints [z]) = some zs := by
  induction zs with
  | nil => rfl
  | cons z zs ih => simp [intsOf?, ih]

/-- A value is that of its parts together. -/
theorem join?_parts {v : Value} (h : v.IsWritable) : join? v.parts = some v := by
  cases v with
  | ints zs =>
    cases zs with
    | nil => exact absurd rfl h.1
    | cons z zs => exact congrArg (Option.map ints) (intsOf?_singletons (z :: zs))
  | text s => simp [parts, join?, textOf?]

theorem lexemes_ne_nil {v : Value} (h : v.IsWritable) : v.lexemes ≠ [] := by
  cases v with
  | ints zs => simpa [lexemes] using h.1
  | text s => simp [lexemes]

theorem spelt_lexemes {v : Value} (h : v.IsWritable) : Spelt v.lexemes := by
  cases v with
  | ints zs =>
    intro l hl
    obtain ⟨z, -, rfl⟩ := List.mem_map.mp hl
    exact valid_text z
  | text s =>
    have hs : Lexeme.Valid ⟨.string, s⟩ := h
    simpa [lexemes] using hs

theorem kind_of_mem_lexemes {v : Value} {l : Lexeme} (h : l ∈ v.lexemes) :
    l.kind = .int ∨ l.kind = .string := by
  cases v with
  | ints zs =>
    obtain ⟨z, -, rfl⟩ := List.mem_map.mp h
    exact Or.inl rfl
  | text s =>
    obtain rfl := List.mem_singleton.mp h
    exact Or.inr rfl

/-- The text of a vector that a program can hold is that of its lexemes with blanks between
    them. -/
theorem render?_ints {zs : List Int} (h : (ints zs).IsWritable) :
    ∃ r, (ints zs).render? = some r ∧
      r.toList = [' '].intercalate ((ints zs).lexemes.map Lexeme.spelling) := by
  have hwrite : zs.mapM Numeral.write? = some (zs.map Numeral.text) := by
    obtain ⟨-, hdigits⟩ := h
    induction zs with
    | nil => rfl
    | cons z zs ih =>
      obtain ⟨hz, hzs⟩ := List.forall_mem_cons.mp hdigits
      have hne : Numeral.write? z ≠ none := by
        rw [ne_eq, Numeral.write?_eq_none]
        exact Nat.not_lt.mpr hz
      obtain ⟨s, hs⟩ := Option.ne_none_iff_exists'.mp hne
      have hs' : s = Numeral.text z := by
        rw [Numeral.write?] at hs
        split at hs <;> cases hs
        rfl
      simp [List.mapM_cons, hs, ih hzs, hs']
  refine ⟨_, by rw [render?, hwrite, Option.map_some], ?_⟩
  rw [String.toList_intercalate, lexemes, List.map_map, List.map_map]
  rfl

end Value

/-! ## The text of a line -/

/-- Lexemes in a line are written with blanks between them. -/
theorem layout_line {ls : List Lexeme} {newline : Lexeme} (hne : ls ≠ [])
    (hls : ∀ l ∈ ls, l.kind ≠ .newline) (hnewline : newline.kind = .newline)
    (rest : List Lexeme) :
    layout (ls ++ newline :: rest) =
      [' '].intercalate (ls.map Lexeme.spelling) ++ layout (newline :: rest) := by
  induction ls with
  | nil => exact absurd rfl hne
  | cons l ls ih =>
    obtain ⟨hl, hls⟩ := List.forall_mem_cons.mp hls
    cases ls with
    | nil => simp [layout, separator, hnewline]
    | cons l' ls =>
      have hl' : l'.kind ≠ .newline := hls l' List.mem_cons_self
      have htail := ih (List.cons_ne_nil l' ls) hls
      rw [List.cons_append, List.cons_append, layout, ← List.cons_append, htail]
      simp [separator, hl, hl']

/-- The lexemes of a program of one statement. -/
def statementLexemes (ls : List Lexeme) : List Lexeme :=
  Kind.kwBegin.lexeme :: Lexeme.ofName "P" :: Kind.newline.lexeme ::
    (ls ++ [Kind.newline.lexeme, Kind.kwEnd.lexeme])

/-- The text of a program of one statement. -/
theorem layout_statement {ls : List Lexeme} (hne : ls ≠ [])
    (hls : ∀ l ∈ ls, l.kind ≠ .newline) :
    layout (statementLexemes ls) = "BEGIN P\n".toList ++
      ([' '].intercalate (ls.map Lexeme.spelling) ++ "\nEND".toList) := by
  have hnewline : Kind.newline.lexeme.kind = .newline := rfl
  have hline := layout_line hne hls hnewline [Kind.kwEnd.lexeme]
  obtain ⟨l, ls, rfl⟩ := List.exists_cons_of_ne_nil hne
  rw [statementLexemes, List.cons_append, layout, layout, layout, ← List.cons_append, hline]
  rfl

/-! ## Literals -/

/-- Whether a node is a literal for a value. -/
inductive Denotes : Node → Value → Prop where
  | int {location : Location} {z : Int} : Denotes (.int location z) (.ints [z])
  | string {location : Location} {s : String} : Denotes (.string location s) (.text s)

/-- A numeral that is written can be read. -/
private theorem read_text_of_short {z : Int} (h : z.natAbs.repr.length ≤ Numeral.maxDigits) :
    Numeral.read (Numeral.text z).toList = .ok z := by
  rw [Numeral.read, Numeral.digits_text, String.length_toList, if_pos h, Numeral.value_text]

/-- The lexemes of a value are read as literals for its parts. -/
theorem reads_of_lexemes {v : Value} (h : v.IsWritable) (src : Source) {ts : List Token}
    (hts : ts.map Token.lexeme = v.lexemes) :
    ∃ es, Reads src (.elements es) ts ∧ List.Forall₂ Denotes es v.parts := by
  cases v with
  | ints zs =>
    obtain ⟨-, hdigits⟩ := h
    induction zs generalizing ts with
    | nil =>
      obtain rfl := List.map_eq_nil_iff.mp hts
      exact ⟨[], .elementsNil, .nil⟩
    | cons z zs ih =>
      obtain ⟨hz, hzs⟩ := List.forall_mem_cons.mp hdigits
      obtain ⟨t, ts, rfl, ht, hts⟩ := List.map_eq_cons_iff.mp hts
      obtain ⟨es, hes, hdenotes⟩ := ih hts hzs
      obtain ⟨hkind, htext⟩ := Lexeme.mk.inj ht
      have hread : Numeral.read t.text.toList = .ok z := by rw [htext, read_text_of_short hz]
      exact ⟨_, .elementsAtom (.int hkind hread) hes, .cons .int hdenotes⟩
  | text s =>
    obtain ⟨t, ts, rfl, ht, hts⟩ := List.map_eq_cons_iff.mp hts
    obtain rfl := List.map_eq_nil_iff.mp hts
    obtain ⟨hkind, rfl⟩ := Lexeme.mk.inj ht
    exact ⟨_, .elementsAtom (.string hkind) .elementsNil, .cons .string .nil⟩

/-- Literals use no names. -/
theorem flatMap_events_of_denotes {es : List Node} {vs : List Value}
    (h : List.Forall₂ Denotes es vs) : es.flatMap Node.events = [] := by
  induction h with
  | nil => rfl
  | cons he _ ih =>
    rw [List.flatMap_cons, ih]
    cases he <;> rfl

/-- Literals have their values in every state. -/
theorem mapM_eval_of_denotes {es : List Node} {vs : List Value} (h : List.Forall₂ Denotes es vs)
    (ctx : Context) (n : Nat) (m : Machine) :
    (es.mapM fun e => do
      Exec.ofOption .undefinedElement e.location (← eval ctx (n + 1) e)) m = .ok vs m := by
  induction h with
  | nil => rfl
  | @cons e v es vs he _ ih =>
    have hfirst : (eval ctx (n + 1) e >>= Exec.ofOption .undefinedElement e.location) m =
        .ok v m := by cases he <;> rfl
    rw [List.mapM_cons]
    exact (bind_of_ok hfirst).trans (bind_of_ok ih)

/-! ## The program -/

/-- A program of one statement. -/
structure Program.IsSingle (p : Program) (s : Node) : Prop where
  name : p.name = "P"
  block : ∃ location, p.block = ⟨location, false, "P", [], [s]⟩

/-- The lexemes of a value are read as a program that prints it. -/
theorem readsProgram_of_lexemes {v : Value} (h : v.IsWritable) (src : Source) {ts : List Token}
    {eof : Token} (hts : ts.map Token.lexeme = statementLexemes v.lexemes)
    (heof : eof.kind = .eof) :
    ∃ p loc loc' es, ReadsProgram src p (ts ++ [eof]) ∧
      p.IsSingle (.output loc (.vector loc' es)) ∧ List.Forall₂ Denotes es v.parts := by
  obtain ⟨kw, ts, rfl, hkw, hts⟩ := List.map_eq_cons_iff.mp hts
  obtain ⟨name, ts, rfl, hname, hts⟩ := List.map_eq_cons_iff.mp hts
  obtain ⟨newline, ts, rfl, hnewline, hts⟩ := List.map_eq_cons_iff.mp hts
  obtain ⟨w, ts, rfl, hw, hts⟩ := List.map_eq_append_iff.mp hts
  obtain ⟨newline', ts, rfl, hnewline', hts⟩ := List.map_eq_cons_iff.mp hts
  obtain ⟨closing, ts, rfl, hclosing, hts⟩ := List.map_eq_cons_iff.mp hts
  obtain rfl := List.map_eq_nil_iff.mp hts
  obtain ⟨es, hes, hdenotes⟩ := reads_of_lexemes h src hw
  -- the row starts with a literal
  cases w with
  | nil => exact absurd hw.symm (Value.lexemes_ne_nil h)
  | cons t w =>
    cases es with
    | nil => exact absurd hes.elements_eq_nil (List.cons_ne_nil t w)
    | cons e es =>
      have hmem : t.lexeme ∈ v.lexemes := by
        rw [← hw]
        exact List.mem_cons_self
      have hkind : t.kind = .int ∨ t.kind = .string := Value.kind_of_mem_lexemes hmem
      obtain ⟨hunary, hparen, hident⟩ :
          unaryOp? t.kind = none ∧ t.kind ≠ .lparen ∧ t.kind ≠ .ident := by
        rcases hkind with hkind | hkind <;> rw [hkind] <;> decide
      have hexpression : Reads src (.expression (.vector (src.locate t) (e :: es))) (t :: w) := by
        have hterm := Reads.term (.bare hunary hparen (.vector hes)) .productsNil
        simpa using Reads.expression hterm .sumsNil
      have hstatement : ReadsClause src
          (.statement true (.output (src.locate t) (.vector (src.locate t) (e :: es)))) (t :: w) :=
        .output hexpression fun h => absurd h hident
      have hprogram := ReadsProgram.mk (congrArg Lexeme.kind hkw) (congrArg Lexeme.kind hname)
        (congrArg Lexeme.kind hnewline) (.one hstatement (congrArg Lexeme.kind hnewline'))
        (congrArg Lexeme.kind hclosing) (List.forall_mem_nil _) (Nat.zero_le 1) heof
      have htext : name.text = "P" := congrArg Lexeme.text hname
      rw [htext] at hprogram
      exact ⟨_, src.locate t, src.locate t, e :: es, by simpa using hprogram,
        ⟨rfl, src.locate kw, rfl⟩, hdenotes⟩

/-- The scopes of a program of one statement that uses no names. -/
def singleTable (p : Program) : ScopeTable where
  global := ⟨[], p.block, ["P"], []⟩
  functions := [("P", ⟨[], p.block, ["P"], []⟩)]

theorem Program.IsSingle.analyze_eq {p : Program} {s : Node} (h : p.IsSingle s)
    (hs : s.events = []) : analyze p = .ok (singleTable p) := by
  obtain ⟨location, hblock⟩ := h.block
  have hevents : p.events = [.enter p.block, .leave] := by
    rw [p.events_eq, hblock]
    simp [hs]
  rw [VectorLang.analyze_eq, globals, hevents, Analysis.start, singleTable, hblock]
  rfl

/-- A step can be logged where there are no variables. -/
private theorem log_of_empty {m : Machine} (hvars : m.stack.top.vars = .empty) (ctx : Context)
    (action : Action) (location : Location) : ∃ snapshot, Exec.log ctx action location m =
      .ok () (m.logged action location snapshot) := by
  have hsnapshot : m.stack.top.snapshot? = some [] := by
    rw [Frame.snapshot?, hvars]
    rfl
  rw [Exec.log_eq, hsnapshot]
  cases ctx.verbose with
  | false => exact ⟨none, rfl⟩
  | true => exact ⟨some [], rfl⟩

/-- A statement that is a row of literals prints the text of their value. -/
theorem eval_output_of_denotes {v : Value} (h : v.IsWritable) {line : String}
    (hline : v.render? = some line) {es : List Node} (hes : List.Forall₂ Denotes es v.parts)
    (ctx : Context) (n : Nat) (loc loc' : Location) {m : Machine}
    (hvars : m.stack.top.vars = .empty) :
    ∃ m', eval ctx (n + 3) (.output loc (.vector loc' es)) m = .ok (some v) m' ∧
      m'.output = m.output.push line := by
  obtain ⟨snapshot, hlog⟩ := log_of_empty hvars ctx (.node "OutputExpression") loc
  have hvector (m : Machine) : eval ctx (n + 2) (.vector loc' es) m = .ok (some v) m := by
    have hjoin : evalVector (eval ctx (n + 1)) loc' es m = .ok v m := by
      refine (bind_of_ok (mapM_eval_of_denotes hes ctx n m)).trans ?_
      rw [Value.join?_parts h]
      rfl
    show (some <$> evalVector (eval ctx (n + 1)) loc' es) m = _
    simp [hjoin]
  have hshown (m : Machine) : Exec.shown v.render? m = .ok line m := by
    rw [hline]
    rfl
  have houtput (m : Machine) : evalOutput (eval ctx (n + 2)) (.vector loc' es) m =
      .ok (some v) { m with output := m.output.push line } :=
    (bind_of_ok (hvector m)).trans (bind_of_ok (hshown m))
  exact ⟨_, (bind_of_ok hlog).trans (houtput _), rfl⟩

/-- Whether a text is a program of one statement that is read, checked and run to its end, prints
    one line, and has a value. -/
def Shows (text line : String) (v : Value) : Prop :=
  ∀ file verbose fuel, 3 ≤ fuel → ∃ ts p table s m,
    tokenize text = .ok ts ∧ parse text file = .ok p ∧ analyze p = .ok table ∧
    p.block.body = [s] ∧
    eval ⟨table, verbose⟩ fuel s (.start globalScopeName p.name) = .ok (some v) m ∧
    run ⟨table, verbose⟩ fuel = ⟨.finished, m⟩ ∧ m.output = #[line]

/-- The text of a value that a program can hold is such a program. -/
private theorem shows_of_layout {v : Value} (h : v.IsWritable) {text line : String}
    (hline : v.render? = some line)
    (htext : text.toList = layout (statementLexemes v.lexemes)) : Shows text line v := by
  intro file verbose fuel hfuel
  have hkind : ∀ l ∈ v.lexemes, l.kind ≠ .newline := by
    intro l hl
    rcases Value.kind_of_mem_lexemes hl with hk | hk <;> rw [hk] <;> decide
  have hspelt : Spelt (statementLexemes v.lexemes) := by
    simp only [statementLexemes, spelt_cons, spelt_append]
    exact ⟨Kind.valid_lexeme (by decide), ⟨rfl, rfl⟩, Kind.valid_lexeme (by decide),
      Value.spelt_lexemes h, Kind.valid_lexeme (by decide), Kind.valid_lexeme (by decide),
      spelt_nil⟩
  have hlines : Separated none ((statementLexemes v.lexemes).map Lexeme.kind) := by
    have hrow : IsLine (v.lexemes.map Lexeme.kind) :=
      .of_forall (by simpa using Value.lexemes_ne_nil h) (by simpa using hkind)
    have hend : IsLine [Kind.kwEnd] := .single (by decide)
    simp only [statementLexemes, List.map_cons, List.map_append, List.map_nil]
    refine ⟨by decide, by decide, fun _ => by decide, ?_⟩
    have := hrow.newline hend (some .newline) [] fun _ _ => trivial
    rwa [List.append_nil] at this
  obtain ⟨ts, eof, htokens, hts, heof⟩ := tokenize_layout hspelt hlines
  rw [← htext, String.ofList_toList] at htokens
  obtain ⟨p, loc, loc', es, hreads, hsingle, hdenotes⟩ :=
    readsProgram_of_lexemes h (Source.ofText file text) hts heof
  have hparse : parse text file = .ok p := parse_eq_ok_iff.mpr ⟨_, htokens, hreads⟩
  have hevents : (Node.output loc (.vector loc' es)).events = [] := by
    rw [Node.events_eq, Node.children, List.flatMap_singleton, Node.events_eq, Node.children,
      flatMap_events_of_denotes hdenotes]
    rfl
  obtain ⟨n, rfl⟩ := Nat.exists_eq_add_of_le' hfuel
  obtain ⟨m, heval, houtput⟩ :=
    eval_output_of_denotes h hline hdenotes ⟨singleTable p, verbose⟩ n loc loc'
      (rfl : (Machine.start globalScopeName p.name).stack.top.vars = _)
  obtain ⟨location, hblock⟩ := hsingle.block
  refine ⟨_, p, singleTable p, _, m, htokens, hparse, hsingle.analyze_eq hevents, by rw [hblock],
    heval, ?_, houtput⟩
  have hbody : evalBody (eval ⟨singleTable p, verbose⟩ (n + 3)) p.block
      (.start globalScopeName p.block.name) = .ok (some v) m := by
    rw [hsingle.name] at heval
    rw [hblock]
    exact (bind_of_ok heval).trans rfl
  have hrun : Context.runWith ⟨singleTable p, verbose⟩ (eval ⟨singleTable p, verbose⟩ (n + 3)) =
      .ok (some v) m := hbody
  rw [run_eq, hrun, Outcome.ofResult]

/-- The text that is printed of a vector is an expression for the vector, and a text in quotes is
    one for the text. -/
theorem printed_reads_back :
    (∀ zs : List Int, zs ≠ [] → (∀ z ∈ zs, z.natAbs.repr.length ≤ Numeral.maxDigits) →
      ∃ r, (Value.ints zs).render? = some r ∧
        Shows ("BEGIN P\n" ++ r ++ "\nEND") r (.ints zs)) ∧
    ∀ s : String, '"' ∉ s.toList → Shows ("BEGIN P\n\"" ++ s ++ "\"\nEND") s (.text s) := by
  constructor
  · intro zs hne hdigits
    have h : (Value.ints zs).IsWritable := ⟨hne, hdigits⟩
    obtain ⟨r, hr, htext⟩ := Value.render?_ints h
    refine ⟨r, hr, shows_of_layout h hr ?_⟩
    rw [layout_statement (Value.lexemes_ne_nil h), ← htext]
    · simp
    · intro l hl
      rcases Value.kind_of_mem_lexemes hl with hk | hk <;> rw [hk] <;> decide
  · intro s hs
    have h : (Value.text s).IsWritable := hs
    refine shows_of_layout h rfl ?_
    rw [layout_statement (Value.lexemes_ne_nil h)]
    · simp [Value.lexemes, Lexeme.spelling]
    · intro l hl
      rcases Value.kind_of_mem_lexemes hl with hk | hk <;> rw [hk] <;> decide

/-- A vector with a negative number, and a text that spans two lines and looks like a comment. -/
theorem printed_reads_back_signed :
    (Value.ints [3, -7, 0]).render? = some "3 -7 0" ∧
    Shows "BEGIN P\n3 -7 0\nEND" "3 -7 0" (.ints [3, -7, 0]) ∧
    Shows "BEGIN P\n\"/* \n\"\nEND" "/* \n" (.text "/* \n") := by
  obtain ⟨hints, htext⟩ := printed_reads_back
  have hdigits : ∀ z ∈ [(3 : Int), -7, 0], z.natAbs.repr.length ≤ Numeral.maxDigits := by
    simp only [List.forall_mem_cons]
    exact ⟨by decide, by decide, by decide, List.forall_mem_nil _⟩
  obtain ⟨r, hr, hshows⟩ := hints [3, -7, 0] (List.cons_ne_nil _ _) hdigits
  have hrender : (Value.ints [3, -7, 0]).render? = some "3 -7 0" := by decide +kernel
  obtain rfl : r = "3 -7 0" := Option.some.inj (hr.symm.trans hrender)
  exact ⟨hrender, hshows, htext "/* \n" (by decide)⟩

end VectorLang
