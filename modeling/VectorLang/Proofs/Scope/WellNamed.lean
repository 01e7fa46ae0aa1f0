import VectorLang.Proofs.Reading.Shape
import VectorLang.Proofs.Scope.Agreement

/-!
# What the check of names decides

Whether a program passes the check, and which error it gets otherwise, is told by the events of
its text alone.

* `Program.wellNamed_iff_faultless`   no event of a program is wrong if its names are in order
* `analyze_iff_wellNamed`             which programs pass
-/

namespace VectorLang

namespace Program

/-- Whether the names of a program are in order. -/
structure WellNamed (p : Program) : Prop where
  /-- All functions have different names, the program too. -/
  distinct : ((entered p.events).map Definition.name).Nodup
  /-- No assignment is to a parameter of the innermost function. -/
  targets {before after : List Event} {isGlobal : Bool} {name : String} {hasValue : Bool}
    {d : Definition Node} {own : List Event} {rest : List (Definition Node × List Event)} :
    p.events = before ++ .target isGlobal name hasValue :: after →
    openBodies before = (d, own) :: rest → name ∉ d.params
  /-- Every variable that is read may be read at that place. -/
  reads {before after : List Event} {name : String} :
    p.events = before ++ .read name :: after → p.Readable before name
  /-- Every call is of a function that may be called at that place, with as many arguments as
      it has parameters. -/
  calls {before after : List Event} {isGlobal : Bool} {name : String} {args : Nat} :
    p.events = before ++ .call isGlobal name args :: after →
    ∃ d ∈ p.callable before name, d.name = name ∧ d.params.length = args

/-- Whether nothing is wrong with a row of events at the start of a program. -/
def Faultless (p : Program) (events : List Event) : Prop :=
  ∀ before event after error, events = before ++ event :: after →
    ¬ p.Complaint before event error

end Program

section

variable {p : Program} {before after : List Event}

/-- The check goes on to a place if nothing is wrong before it. -/
theorem faultless_iff (hp : p.WellFormed) (hsplit : p.events = before ++ after) :
    p.Faultless before ↔
      ∃ a, before.foldlM (Analysis.step p.globals) (.start p p.globals) = .ok a := by
  have hcomplaint {w w' : List Event} {event : Event} (hw : before = w ++ event :: w')
      {b : Analysis} (hb : w.foldlM (Analysis.step p.globals) (.start p p.globals) = .ok b)
      {error : SemanticError} :
      b.step p.globals event = .error error ↔ p.Complaint w event error := by
    have hsplit' : p.events = w ++ event :: (w' ++ after) := by
      rw [hsplit, hw, List.append_assoc, List.cons_append]
    exact (agrees_of_foldlM hp hsplit' hb).error_iff hp hsplit'
  constructor
  · intro h
    cases hok : before.foldlM (Analysis.step p.globals) (.start p p.globals) with
    | ok a => exact ⟨a, rfl⟩
    | error error =>
      obtain ⟨w, event, w', b, hw, hb, herror⟩ := checks_eq_error.mp hok
      exact absurd ((hcomplaint hw hb).mp herror) (h w event w' error hw)
  · rintro ⟨a, ha⟩ w event w' error hw hwrong
    rw [hw] at ha
    obtain ⟨b, hb, hrest⟩ := checks_append.mp ha
    obtain ⟨c, hstep, _⟩ := checks_cons.mp hrest
    cases hstep.symm.trans ((hcomplaint hw hb).mpr hwrong)

/-- Functions with different names may be called by different names. -/
theorem Program.nodup_callable (h : ((entered p.events).map Definition.name).Nodup)
    (hsplit : p.events = before ++ after) (name : String) :
    ((p.callable before name).map Definition.name).Nodup := by
  have hsub : (p.callable before name).Sublist (entered p.events) := by
    rw [callable]
    split
    · exact List.Sublist.refl _
    · rw [hsplit, entered_append]
      exact List.sublist_append_left _ _
  exact (hsub.map _).nodup h

/-- The names of a program are in order if nothing is wrong with any of its events. -/
theorem Program.wellNamed_iff_faultless (hp : p.WellFormed) :
    p.WellNamed ↔ p.Faultless p.events := by
  constructor
  · intro h before event after error hsplit hcomplaint
    cases hcomplaint with
    | @redefinition d hmem =>
      have hentered : entered p.events = entered before ++ d :: entered after := by
        rw [hsplit, entered_append]
        rfl
      have hdistinct := h.distinct
      rw [hentered, List.map_append, List.nodup_append] at hdistinct
      exact hdistinct.2.2 _ hmem _ List.mem_cons_self rfl
    | parameterReassigned hopen hmem => exact h.targets hsplit hopen hmem
    | undefinedVariable hread => exact hread (h.reads hsplit)
    | undefinedFunction hnone =>
      obtain ⟨d, hd, hname, _⟩ := h.calls hsplit
      exact hnone d hd hname
    | arityMismatch hfirst hargs =>
      obtain ⟨d, hd, rfl, hd'⟩ := h.calls hsplit
      have hd := firstNamed?_of_mem (nodup_callable h.distinct hsplit d.name) hd
      cases hfirst.symm.trans hd
      exact hargs hd'
  · intro h
    obtain ⟨a, ha⟩ := (faultless_iff hp (List.append_nil _).symm).mp h
    have hagrees := agrees_of_foldlM hp (List.append_nil _).symm ha
    constructor
    · exact hagrees.distinct
    · intro before after isGlobal name hasValue d own rest hsplit hopen hmem
      exact h _ _ _ _ hsplit (.parameterReassigned hopen hmem)
    · intro before after name hsplit
      by_contra hread
      exact h _ _ _ _ hsplit (.undefinedVariable hread)
    · intro before after isGlobal name args hsplit
      cases hfirst : firstNamed? (p.callable before name) name with
      | none =>
        exact absurd (.undefinedFunction (firstNamed?_eq_none.mp hfirst)) (h _ _ _ _ hsplit)
      | some d =>
        obtain ⟨hd, hname⟩ := firstNamed?_eq_some hfirst
        refine ⟨d, hd, hname, ?_⟩
        by_contra hargs
        exact h _ _ _ _ hsplit (.arityMismatch hfirst hargs)

/-- A program that was parsed passes the check if and only if its names are in order, which is
    told by the events of its text alone.  Otherwise the error is that of the first event that is
    to be complained about. -/
theorem analyze_iff_wellNamed {text file : String} (h : parse text file = .ok p) :
    ((∃ table, analyze p = .ok table) ↔ p.WellNamed) ∧
    ∀ error, analyze p = .error error ↔
      ∃ before event after, p.events = before ++ event :: after ∧ p.Faultless before ∧
        p.Complaint before event error := by
  have hp := wellFormed_of_parse h
  constructor
  · rw [Program.wellNamed_iff_faultless hp, faultless_iff hp (List.append_nil _).symm]
    constructor
    · rintro ⟨table, htable⟩
      obtain ⟨a, ha, _⟩ := analyze_eq_ok.mp htable
      exact ⟨a, ha⟩
    · rintro ⟨a, ha⟩
      exact ⟨a.table, analyze_eq_ok.mpr ⟨a, ha, rfl⟩⟩
  · intro error
    rw [analyze_eq_error]
    constructor
    · rintro ⟨before, event, after, a, hsplit, ha, herror⟩
      exact ⟨before, event, after, hsplit, (faultless_iff hp hsplit).mpr ⟨a, ha⟩,
        ((agrees_of_foldlM hp hsplit ha).error_iff hp hsplit).mp herror⟩
    · rintro ⟨before, event, after, hsplit, hfaultless, hcomplaint⟩
      obtain ⟨a, ha⟩ := (faultless_iff hp hsplit).mp hfaultless
      exact ⟨before, event, after, a, hsplit, ha,
        ((agrees_of_foldlM hp hsplit ha).error_iff hp hsplit).mpr hcomplaint⟩

end

theorem analyze_iff_wellNamed_divider :
    parse "BEGIN P\n.G <- 1\nX <- .G / 0\nEND" "" = .ok divider ∧ divider.WellNamed := by
  obtain ⟨hwellNamed, _⟩ := analyze_iff_wellNamed parse_divider
  exact ⟨parse_divider, hwellNamed.mp ⟨_, rfl⟩⟩

end VectorLang
