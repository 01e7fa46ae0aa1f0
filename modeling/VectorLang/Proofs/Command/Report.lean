import Mathlib
import VectorLang.Command.Report
import VectorLang.Proofs.Command.Arguments
import VectorLang.Proofs.Reading.Leftmost

/-!
# A command does what the library does

A command reads a program, checks its names and runs it, and its report is told by how far it
comes with that.  A program that is shown before it is run is read and checked twice, and its
tokens are read once more, all of them: this cannot fail where the first reading does not, since
the tokens of a program are all read when it is.

* `Runs`                 what the library makes of a text
* `execute_of_runs`      the report on a program that is run
* `execute_of_rejected`  the report on a text that is not
* `respond_agrees`       the reports of a command line, and of those with one more switch
-/

namespace VectorLang.Command

variable {fuel : Nat} {verbose : Bool} {settings : Settings} {file text : String} {p : Program}
  {scopes : ScopeTable} {o : Outcome} {e : Rejection}

/-! ## Lines and reports -/

@[simp] theorem unlines_nil : unlines [] = "" := rfl

theorem unlines_cons (line : String) (lines : List String) :
    unlines (line :: lines) = line ++ "\n" ++ unlines lines := by
  simp [unlines]

theorem unlines_cons_ne_empty (line : String) (lines : List String) :
    unlines (line :: lines) ≠ "" := by
  simp [unlines_cons]

@[simp] theorem Report.preceded_empty (r : Report) : r.preceded "" = r := by
  simp [Report.preceded]

@[simp] theorem Report.stderr_preceded (text : String) (r : Report) :
    (r.preceded text).stderr = r.stderr := rfl

@[simp] theorem Report.ending_preceded (text : String) (r : Report) :
    (r.preceded text).ending = r.ending := rfl

/-! ## Reading and checking -/

theorem prepare_of_ok (hparse : parse text file = .ok p) (hcheck : analyze p = .ok scopes) :
    prepare file text = .ok (p, scopes) := by
  rw [prepare, hparse]
  show (analyze p).mapError Rejection.names >>= _ = _
  rw [hcheck]
  rfl

theorem prepare_of_parse_error {e : ParseError} (hparse : parse text file = .error e) :
    prepare file text = .error (.text e) := by
  rw [prepare, hparse]
  rfl

theorem prepare_of_check_error {e : SemanticError} (hparse : parse text file = .ok p)
    (hcheck : analyze p = .error e) : prepare file text = .error (.names e) := by
  rw [prepare, hparse]
  show (analyze p).mapError Rejection.names >>= _ = _
  rw [hcheck]
  rfl

/-- What the library makes of a text: it is a program, its names are in order, and its run comes
    to an end that is told by `o`. -/
structure Runs (fuel : Nat) (verbose : Bool) (file text : String) (p : Program)
    (scopes : ScopeTable) (o : Outcome) : Prop where
  parsed : parse text file = .ok p
  checked : analyze p = .ok scopes
  ran : run ⟨scopes, verbose⟩ fuel = o

theorem Runs.prepare_eq (h : Runs fuel verbose file text p scopes o) :
    prepare file text = .ok (p, scopes) :=
  prepare_of_ok h.parsed h.checked

/-- There is one way at most in which a text runs. -/
theorem Runs.unique {p' : Program} {scopes' : ScopeTable} {o' : Outcome}
    (h : Runs fuel verbose file text p scopes o) (h' : Runs fuel verbose file text p' scopes' o') :
    p = p' ∧ scopes = scopes' ∧ o = o' := by
  obtain ⟨hparse, hcheck, rfl⟩ := h
  obtain ⟨hparse', hcheck', rfl⟩ := h'
  obtain rfl := Except.ok.inj (hparse.symm.trans hparse')
  obtain rfl := Except.ok.inj (hcheck.symm.trans hcheck')
  exact ⟨rfl, rfl, rfl⟩

/-- A text that does not run is no program, or its names are not in order. -/
theorem runs_or_rejected (fuel : Nat) (verbose : Bool) (file text : String) :
    (∃ p scopes o, Runs fuel verbose file text p scopes o) ∨
      ∃ e, prepare file text = .error e := by
  cases hparse : parse text file with
  | error e => exact Or.inr ⟨_, prepare_of_parse_error hparse⟩
  | ok p =>
    cases hcheck : analyze p with
    | error e => exact Or.inr ⟨_, prepare_of_check_error hparse hcheck⟩
    | ok scopes => exact Or.inl ⟨p, scopes, _, hparse, hcheck, rfl⟩

theorem not_runs_of_rejected (h : prepare file text = .error e) :
    ¬ ∃ p scopes o, Runs fuel verbose file text p scopes o := by
  rintro ⟨p, scopes, o, hruns⟩
  rw [hruns.prepare_eq] at h
  cases h

/-- A text that is not run is reported, unless it has a numeral that is too long. -/
theorem report_of_rejected (h : prepare file text = .error e)
    (hnumerals : ∀ n, parse text file ≠ .error (.numeralTooLong n)) :
    ∃ line, e.report = .failure line := by
  cases hparse : parse text file with
  | error err =>
    obtain rfl := Except.error.inj (h.symm.trans (prepare_of_parse_error hparse))
    cases err with
    | numeralTooLong n => exact absurd hparse (hnumerals n)
    | outOfFuel => exact absurd hparse (parse_ne_outOfFuel text file)
    | _ => exact ⟨_, rfl⟩
  | ok p =>
    cases hcheck : analyze p with
    | error err =>
      obtain rfl := Except.error.inj (h.symm.trans (prepare_of_check_error hparse hcheck))
      exact ⟨_, rfl⟩
    | ok scopes =>
      rw [prepare_of_ok hparse hcheck] at h
      cases h

/-- The tokens of a program can all be read, so that a program that is run can be shown. -/
theorem debugDump_of_runs (h : Runs fuel verbose file text p scopes o) :
    ∃ tokens, tokenize text = .ok tokens ∧
      debugDump file text = .ok (dump tokens p scopes) := by
  obtain ⟨tokens, htokens, -⟩ := parse_eq_ok_iff.mp h.parsed
  refine ⟨tokens, htokens, ?_⟩
  rw [debugDump, h.prepare_eq]
  show (tokenize text).mapError _ >>= _ = _
  rw [htokens]
  rfl

theorem debugDump_of_rejected (h : prepare file text = .error e) :
    debugDump file text = .error e := by
  rw [debugDump, h]
  rfl

/-! ## Reports of runs -/

theorem runReport_of_finished (h : o.ending = .finished) :
    runReport settings o = ⟨unlines o.machine.output.toList, "", .code 0⟩ := by
  simp only [runReport, h]

/-- A fault is shown, whatever the settings are. -/
theorem runReport_of_failed {f : Fault} (h : o.ending = .failed f) :
    ∃ t, Traceback.ofOutcome? o = some t ∧ ∀ settings, runReport settings o =
      ⟨unlines o.machine.output.toList, unlines (tracebackLines settings t), .code 1⟩ := by
  obtain ⟨t, ht⟩ : ∃ t, Traceback.ofOutcome? o = some t :=
    ⟨_, by rw [Traceback.ofOutcome?, Outcome.fault?, h]; rfl⟩
  refine ⟨t, ht, fun settings => ?_⟩
  simp only [runReport, h, ht]

/-- The document comes after the text. -/
theorem unlines_tracebackLines (hjson : settings.tracebackJson = false) (t : Traceback) :
    unlines (tracebackLines (settings.turnOn .tracebackJson) t) =
      unlines (tracebackLines settings t) ++ (t.json.pretty ++ "\n") := by
  simp [tracebackLines, Settings.turnOn, hjson, unlines_cons]

/-- What a run writes does not depend on how it ends. -/
theorem stdout_runReport (settings : Settings) (o : Outcome) :
    (runReport settings o).stdout = unlines o.machine.output.toList := by
  simp only [runReport]
  split <;> rfl

/-! ## Reports of texts -/

/-- The report on a program that is run: what it was asked to show comes first. -/
theorem execute_of_runs (h : Runs fuel verbose file text p scopes o) :
    ∃ tokens, tokenize text = .ok tokens ∧ ∀ settings, settings.verbose = verbose →
      execute fuel settings file text = (runReport settings o).preceded
        (if settings.debug then (dump tokens p scopes).pretty ++ "\n" else "") := by
  obtain ⟨tokens, htokens, hdump⟩ := debugDump_of_runs h
  refine ⟨tokens, htokens, fun settings hverbose => ?_⟩
  have hinterpret : interpret fuel settings file text = runReport settings o := by
    rw [interpret, h.prepare_eq, hverbose, ← h.ran]
  rw [execute, dumpLines, hdump]
  by_cases hdebug : settings.debug = true
  · rw [if_pos hdebug, if_pos hdebug]
    show (interpret fuel settings file text).preceded (unlines [_]) = _
    rw [hinterpret, unlines_cons, unlines_nil, String.append_empty]
  · rw [if_neg hdebug, if_neg hdebug]
    show (interpret fuel settings file text).preceded (unlines []) = _
    rw [hinterpret, unlines_nil]

/-- The report on a text that is not run does not depend on the settings. -/
theorem execute_of_rejected (h : prepare file text = .error e) :
    execute fuel settings file text = e.report := by
  rw [execute, dumpLines]
  by_cases hdebug : settings.debug = true
  · rw [if_pos hdebug, debugDump_of_rejected h]
    rfl
  · rw [if_neg hdebug]
    show (interpret fuel settings file text).preceded "" = _
    rw [Report.preceded_empty, interpret, h]

/-- The exit code is 0 where a program is run to its end, and nothing is wrong then. -/
theorem exit_execute (hnumerals : ∀ n, parse text file ≠ .error (.numeralTooLong n))
    (hends : ∀ p scopes o, Runs fuel settings.verbose file text p scopes o →
      o.ending ≠ .outOfFuel) :
    ((execute fuel settings file text).ending = .code 0 ∧
        (execute fuel settings file text).stderr = "" ↔
      ∃ p scopes o, Runs fuel settings.verbose file text p scopes o ∧ o.ending = .finished) ∧
    ((¬ ∃ p scopes o, Runs fuel settings.verbose file text p scopes o ∧ o.ending = .finished) →
      (execute fuel settings file text).ending = .code 1 ∧
        (execute fuel settings file text).stderr ≠ "") := by
  rcases runs_or_rejected fuel settings.verbose file text with ⟨p, scopes, o, hruns⟩ | ⟨e, he⟩
  · obtain ⟨tokens, -, hexecute⟩ := execute_of_runs hruns
    simp only [hexecute settings rfl, Report.stderr_preceded, Report.ending_preceded]
    cases hending : o.ending with
    | finished =>
      have hfinished : ∃ p scopes o, Runs fuel settings.verbose file text p scopes o ∧
        o.ending = .finished := ⟨p, scopes, o, hruns, hending⟩
      rw [runReport_of_finished hending]
      exact ⟨iff_of_true ⟨rfl, rfl⟩ hfinished, fun h => absurd hfinished h⟩
    | failed f =>
      have hunfinished : ¬ ∃ p scopes o, Runs fuel settings.verbose file text p scopes o ∧
          o.ending = .finished := by
        rintro ⟨p', scopes', o', hruns', hending'⟩
        obtain ⟨-, -, rfl⟩ := hruns.unique hruns'
        simp [hending] at hending'
      obtain ⟨t, -, hreport⟩ := runReport_of_failed hending
      rw [hreport settings]
      have hwritten : unlines (tracebackLines settings t) ≠ "" := unlines_cons_ne_empty _ _
      exact ⟨iff_of_false (fun h => hwritten h.2) hunfinished, fun _ => ⟨rfl, hwritten⟩⟩
    | outOfFuel => exact absurd hending (hends p scopes o hruns)
  · obtain ⟨line, hline⟩ := report_of_rejected he hnumerals
    have hwritten : line ++ "\n" ≠ "" := by simp
    have hunfinished : ¬ ∃ p scopes o, Runs fuel settings.verbose file text p scopes o ∧
        o.ending = .finished := by
      rintro ⟨p, scopes, o, hruns, -⟩
      exact not_runs_of_rejected he ⟨p, scopes, o, hruns⟩
    rw [execute_of_rejected he, hline]
    exact ⟨iff_of_false (fun h => hwritten h.2) hunfinished, fun _ => ⟨rfl, hwritten⟩⟩

theorem Rejection.stdout_report (e : Rejection) : e.report.stdout = "" := by
  cases e with
  | text e => cases e <;> rfl
  | names e => rfl

/-- What is written of a program is what its run writes, up to where it ends. -/
theorem stdout_execute (hdebug : settings.debug = false) :
    (∀ p scopes o, Runs fuel settings.verbose file text p scopes o →
      (execute fuel settings file text).stdout = unlines o.machine.output.toList) ∧
    ((¬ ∃ p scopes o, Runs fuel settings.verbose file text p scopes o) →
      (execute fuel settings file text).stdout = "") := by
  constructor
  · intro p scopes o hruns
    obtain ⟨tokens, -, hexecute⟩ := execute_of_runs hruns
    rw [hexecute settings rfl, hdebug]
    exact (congrArg Report.stdout (Report.preceded_empty _)).trans (stdout_runReport settings o)
  · intro hnone
    obtain hruns | ⟨e, he⟩ := runs_or_rejected fuel settings.verbose file text
    · exact absurd hruns hnone
    · rw [execute_of_rejected he, e.stdout_report]

/-- A program that is run is shown before, and nothing else changes. -/
theorem execute_debug (hdebug : settings.debug = false) :
    (∀ p scopes o, Runs fuel settings.verbose file text p scopes o →
      ∃ tokens, tokenize text = .ok tokens ∧
        execute fuel (settings.turnOn .debug) file text =
          (execute fuel settings file text).preceded ((dump tokens p scopes).pretty ++ "\n")) ∧
    ((¬ ∃ p scopes o, Runs fuel settings.verbose file text p scopes o) →
      execute fuel (settings.turnOn .debug) file text = execute fuel settings file text) := by
  constructor
  · intro p scopes o hruns
    obtain ⟨tokens, htokens, hexecute⟩ := execute_of_runs hruns
    refine ⟨tokens, htokens, ?_⟩
    rw [hexecute settings rfl, hexecute (settings.turnOn .debug) rfl, hdebug]
    exact congrArg _ (Report.preceded_empty _).symm
  · intro hnone
    obtain hruns | ⟨e, he⟩ := runs_or_rejected fuel settings.verbose file text
    · exact absurd hruns hnone
    · rw [execute_of_rejected he, execute_of_rejected he]

/-- A run that a fault ended is reported in JSON too, and nothing else changes. -/
theorem execute_tracebackJson (hjson : settings.tracebackJson = false) :
    (∀ p scopes o f, Runs fuel settings.verbose file text p scopes o → o.ending = .failed f →
      ∃ t, Traceback.ofOutcome? o = some t ∧
        execute fuel (settings.turnOn .tracebackJson) file text =
          { execute fuel settings file text with
            stderr := (execute fuel settings file text).stderr ++ (t.json.pretty ++ "\n") }) ∧
    ((¬ ∃ p scopes o f, Runs fuel settings.verbose file text p scopes o ∧
        o.ending = .failed f) →
      execute fuel (settings.turnOn .tracebackJson) file text =
        execute fuel settings file text) := by
  constructor
  · intro p scopes o f hruns hending
    obtain ⟨t, ht, hreport⟩ := runReport_of_failed hending
    obtain ⟨tokens, -, hexecute⟩ := execute_of_runs hruns
    refine ⟨t, ht, ?_⟩
    rw [hexecute settings rfl, hexecute (settings.turnOn .tracebackJson) rfl, hreport, hreport,
      unlines_tracebackLines hjson]
    rfl
  · intro hnone
    obtain ⟨p, scopes, o, hruns⟩ | ⟨e, he⟩ := runs_or_rejected fuel settings.verbose file text
    · obtain ⟨tokens, -, hexecute⟩ := execute_of_runs hruns
      have hreport : runReport (settings.turnOn .tracebackJson) o = runReport settings o := by
        cases hending : o.ending with
        | finished => rw [runReport_of_finished hending, runReport_of_finished hending]
        | failed f => exact absurd ⟨p, scopes, o, f, hruns, hending⟩ hnone
        | outOfFuel => simp only [runReport, hending]
      rw [hexecute settings rfl, hexecute (settings.turnOn .tracebackJson) rfl, hreport]
      rfl
    · rw [execute_of_rejected he, execute_of_rejected he]

/-! ## Command lines -/

/-- The program that is given on the command line. -/
theorem respondWithin_literal {around : Surroundings} {args : List String}
    (hargs : Request.ofArguments args = .run settings) (hsource : settings.source = true)
    (hprogram : settings.program = some text) :
    respondWithin fuel around args = execute fuel settings "<string>" text := by
  simp only [respondWithin, hargs, Settings.origin, hsource, hprogram]
  rfl

/-- A command line with a program does what the library does with that program, if no numeral of
    it is too long and its run ends.  It ends with the exit code 0 and writes no error if the
    program is read, its names are in order and it is run to its end, and otherwise it ends with
    the exit code 1 and writes one.  What it writes to the standard output is what the run writes,
    up to where that ends.

    To show the program puts one document and a newline in front of that if the program is run, and
    does nothing if it is not.  To write tracebacks as JSON adds to what is written of a run that a
    fault ends, and does nothing to the others. -/
theorem respond_agrees {around : Surroundings} {args : List String} {r : Report}
    (hargs : Request.ofArguments args = .run settings) (hsource : settings.source = true)
    (hprogram : settings.program = some text)
    (hnumerals : ∀ n, parse text "<string>" ≠ .error (.numeralTooLong n))
    (hends : ∀ p scopes o, Runs fuel settings.verbose "<string>" text p scopes o →
      o.ending ≠ .outOfFuel)
    (hr : respondWithin fuel around args = r) :
    (r.ending = .code 0 ∧ r.stderr = "" ↔ ∃ p scopes o,
      Runs fuel settings.verbose "<string>" text p scopes o ∧ o.ending = .finished) ∧
    ((¬ ∃ p scopes o, Runs fuel settings.verbose "<string>" text p scopes o ∧
      o.ending = .finished) → r.ending = .code 1 ∧ r.stderr ≠ "") ∧
    (settings.debug = false →
      (∀ p scopes o, Runs fuel settings.verbose "<string>" text p scopes o →
        r.stdout = unlines o.machine.output.toList) ∧
      ((¬ ∃ p scopes o, Runs fuel settings.verbose "<string>" text p scopes o) →
        r.stdout = "")) ∧
    (settings.debug = false →
      Request.ofArguments ("--debug" :: args) = .run (settings.turnOn .debug) ∧
      ∀ args', Request.ofArguments args' = .run (settings.turnOn .debug) →
        (∀ p scopes o, Runs fuel settings.verbose "<string>" text p scopes o →
          ∃ tokens, tokenize text = .ok tokens ∧
            respondWithin fuel around args' =
              r.preceded ((dump tokens p scopes).pretty ++ "\n")) ∧
        ((¬ ∃ p scopes o, Runs fuel settings.verbose "<string>" text p scopes o) →
          respondWithin fuel around args' = r)) ∧
    (settings.tracebackJson = false →
      Request.ofArguments ("--traceback-json" :: args) = .run (settings.turnOn .tracebackJson) ∧
      ∀ args', Request.ofArguments args' = .run (settings.turnOn .tracebackJson) →
        (∀ p scopes o f, Runs fuel settings.verbose "<string>" text p scopes o →
          o.ending = .failed f → ∃ t, Traceback.ofOutcome? o = some t ∧
            respondWithin fuel around args' =
              { r with stderr := r.stderr ++ (t.json.pretty ++ "\n") }) ∧
        ((¬ ∃ p scopes o f, Runs fuel settings.verbose "<string>" text p scopes o ∧
          o.ending = .failed f) → respondWithin fuel around args' = r)) := by
  rw [respondWithin_literal hargs hsource hprogram] at hr
  subst hr
  obtain ⟨hzero, hone⟩ := exit_execute hnumerals hends
  refine ⟨hzero, hone, stdout_execute, fun hdebug => ⟨?_, ?_⟩, fun hjson => ⟨?_, ?_⟩⟩
  · rw [Request.ofArguments_switch (s := .debug) rfl (by decide), hargs]
    rfl
  · intro args' hargs'
    rw [respondWithin_literal hargs' hsource hprogram]
    exact execute_debug hdebug
  · rw [Request.ofArguments_switch (s := .tracebackJson) rfl (by decide), hargs]
    rfl
  · intro args' hargs'
    rw [respondWithin_literal hargs' hsource hprogram]
    exact execute_tracebackJson hjson

/-- A program that divides by zero after its first line of output. -/
def lateDivision : String := "BEGIN P\n\"HI\"\n1 / 0\nEND"

theorem respond_agrees_lateDivision :
    ∃ p scopes o f, Runs 20 false "<string>" lateDivision p scopes o ∧ o.ending = .failed f ∧
    ∃ r, respondWithin 20 ⟨⟨[]⟩, "", false⟩ ["-source", lateDivision] = r ∧
      r.ending = .code 1 ∧ r.stderr ≠ "" ∧ r.stdout = "HI\n" ∧
      (∃ tokens, tokenize lateDivision = .ok tokens ∧
        respondWithin 20 ⟨⟨[]⟩, "", false⟩ ["--debug", "-source", lateDivision] =
          r.preceded ((dump tokens p scopes).pretty ++ "\n")) ∧
      ∃ t, Traceback.ofOutcome? o = some t ∧
        respondWithin 20 ⟨⟨[]⟩, "", false⟩ ["--traceback-json", "-source", lateDivision] =
          { r with stderr := r.stderr ++ (t.json.pretty ++ "\n") } := by
  -- the program that is read, its scopes and its run
  obtain ⟨p, scopes, hparse, hcheck, f, hfailed, houtput⟩ : ∃ p scopes,
      parse lateDivision "<string>" = .ok p ∧ analyze p = .ok scopes ∧
      ∃ f, (run ⟨scopes, false⟩ 20).ending = .failed f ∧
        unlines (run ⟨scopes, false⟩ 20).machine.output.toList = "HI\n" := by
    apply Exists.intro
    apply Exists.intro
    refine ⟨?_, ?_, ?_⟩
    · cbv
    · cbv
    · apply Exists.intro
      refine ⟨?_, ?_⟩
      · cbv
      · cbv
  have hruns : Runs 20 false "<string>" lateDivision p scopes (run ⟨scopes, false⟩ 20) :=
    ⟨hparse, hcheck, rfl⟩
  have hargs : Request.ofArguments ["-source", lateDivision] =
      .run ⟨some lateDivision, true, false, false, false⟩ := by cbv
  have hends : ∀ p' scopes' o', Runs 20 false "<string>" lateDivision p' scopes' o' →
      o'.ending ≠ .outOfFuel := by
    intro p' scopes' o' hruns'
    obtain ⟨-, -, rfl⟩ := hruns.unique hruns'
    simp [hfailed]
  have hunfinished : ¬ ∃ p scopes o, Runs 20 false "<string>" lateDivision p scopes o ∧
      o.ending = .finished := by
    rintro ⟨p', scopes', o', hruns', hfinished⟩
    obtain ⟨-, -, rfl⟩ := hruns.unique hruns'
    simp [hfailed] at hfinished
  obtain ⟨-, hone, hstdout, hdebug, hjson⟩ := respond_agrees hargs rfl rfl
    (by simp [hparse]) hends (rfl : respondWithin 20 ⟨⟨[]⟩, "", false⟩ _ = _)
  obtain ⟨hending, hstderr⟩ := hone hunfinished
  obtain ⟨hadded, hshown⟩ := hdebug rfl
  obtain ⟨hadded', hwritten⟩ := hjson rfl
  exact ⟨p, scopes, _, f, hruns, hfailed, _, rfl, hending, hstderr,
    ((hstdout rfl).1 _ _ _ hruns).trans houtput, (hshown _ hadded).1 _ _ _ hruns,
    (hwritten _ hadded').1 _ _ _ _ hruns hfailed⟩

end VectorLang.Command
