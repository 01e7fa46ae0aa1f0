import Mathlib.Data.List.Induction
import VectorLang.Proofs.Scope.Table
import VectorLang.Proofs.Tree.Shape

/-!
# Names in textual order

What a place of a text may use depends on what stands before it: on the functions that are
open there, on what was written to a variable last, and for global names on the whole text.

In the text of a program every definition that is entered is left, a name is marked as global
if it starts with a dot, and an assignment that starts is the next thing that is written.

* `Program.WellFormed.marked`         the marks of names
* `Program.WellFormed.openBodies_ne`  no place is outside of all functions
* `Program.WellFormed.mem_vars`       the global variables that the first pass finds
-/

namespace VectorLang

/-! ## Writes -/

/-- What an event writes to a variable: a value, or nothing if it removes the variable. -/
def Event.write? (name : String) : Event → Option Bool
  | .target _ n false => if n = name then some false else none
  | .assigned _ n => if n = name then some true else none
  | _ => none

/-- Whether the last write to a variable gives it a value, if there is one. -/
def lastWrite? (name : String) (events : List Event) : Option Bool :=
  (events.filterMap (Event.write? name)).getLast?

@[simp] theorem lastWrite?_nil (name : String) : lastWrite? name [] = none := rfl

theorem lastWrite?_append (name : String) (events events' : List Event) :
    lastWrite? name (events ++ events') =
      (lastWrite? name events').or (lastWrite? name events) := by
  rw [lastWrite?, List.filterMap_append, List.getLast?_append]
  rfl

theorem lastWrite?_singleton (name : String) (event : Event) :
    lastWrite? name [event] = event.write? name := by
  cases h : event.write? name <;> simp [lastWrite?, h]

theorem lastWrite?_concat (name : String) (events : List Event) (event : Event) :
    lastWrite? name (events ++ [event]) = (event.write? name).or (lastWrite? name events) := by
  rw [lastWrite?_append, lastWrite?_singleton]

/-! ## Open functions -/

/-- The open functions after one more event, each with what happened in its own body. -/
def openStep (bodies : List (Definition Node × List Event)) :
    Event → List (Definition Node × List Event)
  | .enter d => (d, []) :: bodies
  | .leave => bodies.tail
  | event =>
    match bodies with
    | [] => []
    | (d, own) :: rest => (d, own ++ [event]) :: rest

/-- The functions that are open after a row of events, the innermost first, each with what
    happened in its own body so far.  What happened in the functions in it is left out. -/
def openBodies (events : List Event) : List (Definition Node × List Event) :=
  events.foldl openStep []

theorem openBodies_concat (events : List Event) (event : Event) :
    openBodies (events ++ [event]) = openStep (openBodies events) event := by
  rw [openBodies, List.foldl_append]
  rfl

/-- The functions that are open after one more event. -/
theorem map_fst_openStep (bodies : List (Definition Node × List Event)) (event : Event) :
    (openStep bodies event).map Prod.fst =
      match event with
      | .enter d => d :: bodies.map Prod.fst
      | .leave => (bodies.map Prod.fst).tail
      | _ => bodies.map Prod.fst := by
  cases event with
  | enter d => rfl
  | leave => exact List.map_tail
  | _ => cases bodies <;> rfl

/-- The functions that are open were entered, and the inner ones later than the outer ones. -/
theorem openBodies_sublist (events : List Event) :
    ((openBodies events).map Prod.fst).Sublist (entered events).reverse := by
  induction events using List.reverseRecOn with
  | nil => exact List.Sublist.refl []
  | append_singleton events event ih =>
    rw [openBodies_concat, map_fst_openStep, entered_concat, List.reverse_append]
    cases event with
    | enter d => exact ih.cons_cons d
    | leave => exact (List.tail_sublist _).trans ih
    | _ => exact ih

theorem mem_entered_of_open {events own : List Event} {d : Definition Node}
    (h : (d, own) ∈ openBodies events) : d ∈ entered events :=
  List.mem_reverse.mp ((openBodies_sublist events).subset (List.mem_map_of_mem h))

/-! ## Marks -/

/-- Whether a name is marked as global where it starts with a dot. -/
def Event.Marked : Event → Prop
  | .enter d => d.isGlobal = isGlobalName d.name ∧ d.name ≠ globalScopeName ∧
      ∀ x ∈ d.params, isGlobalName x = false
  | .target isGlobal name _ | .assigned isGlobal name | .call isGlobal name _ =>
    isGlobal = isGlobalName name
  | .leave | .read _ => True

/-- The names in expressions and statements are marked. -/
theorem Node.IsRegular.marked {n : Node} (h : n.IsRegular) : ∀ event ∈ n.events, event.Marked := by
  induction n using children_induction with
  | h n ih =>
    intro event hevent
    rcases mem_events_iff.mp hevent with hevent | ⟨c, hc, hevent⟩ | hevent
    · rcases h with h | ⟨_, h⟩
      · cases h with
        | var | call =>
          cases List.mem_singleton.mp hevent
          trivial
        | _ => cases hevent
      · cases h with
        | assign =>
          cases List.mem_singleton.mp hevent
          rfl
        | function hname hparams =>
          cases List.mem_singleton.mp hevent
          exact ⟨rfl, hname, hparams⟩
        | _ => cases hevent
    · exact ih c hc (h.child hc) event hevent
    · rcases h with h | ⟨_, h⟩
      · cases h <;> cases hevent
      · cases h with
        | @assign _ _ _ value =>
          cases value with
          | none => cases hevent
          | some value =>
            cases List.mem_singleton.mp hevent
            rfl
        | function =>
          cases List.mem_singleton.mp hevent
          trivial
        | _ => cases hevent

/-! ## Nesting -/

/-- Whether a row of events leaves what it enters, and nothing else. -/
structure Balanced (events : List Event) : Prop where
  length_eq (bodies : List (Definition Node × List Event)) :
    (events.foldl openStep bodies).length = bodies.length
  length_le {before after : List Event} (bodies : List (Definition Node × List Event)) :
    events = before ++ after → bodies.length ≤ (before.foldl openStep bodies).length

theorem balanced_nil : Balanced [] where
  length_eq _ := rfl
  length_le bodies h := by
    rw [(List.append_eq_nil_iff.mp h.symm).1]
    exact Nat.le_refl _

theorem Balanced.append {events events' : List Event} (h : Balanced events)
    (h' : Balanced events') : Balanced (events ++ events') where
  length_eq bodies := by rw [List.foldl_append, h'.length_eq, h.length_eq]
  length_le bodies hsplit := by
    rcases List.append_eq_append_iff.mp hsplit with ⟨w, rfl, hw⟩ | ⟨w, hw, _⟩
    · rw [List.foldl_append, ← h.length_eq bodies]
      exact h'.length_le _ hw
    · exact h.length_le bodies hw

theorem balanced_singleton {event : Event} (henter : event.definition? = none)
    (hleave : event ≠ .leave) : Balanced [event] := by
  have hstep (bodies : List (Definition Node × List Event)) :
      (openStep bodies event).length = bodies.length := by
    have hfst := congrArg List.length (map_fst_openStep bodies event)
    rw [List.length_map] at hfst
    rw [hfst]
    cases event with
    | enter d => cases henter
    | leave => exact absurd rfl hleave
    | _ => exact List.length_map _
  constructor
  · exact hstep
  · intro before after bodies hsplit
    cases before with
    | nil => exact Nat.le_refl _
    | cons event' before =>
      obtain ⟨rfl, hnil⟩ := List.cons.inj hsplit
      rw [(List.append_eq_nil_iff.mp hnil.symm).1]
      exact Nat.le_of_eq (hstep bodies).symm

/-- A definition with its body. -/
theorem Balanced.block {events : List Event} (h : Balanced events) (d : Definition Node) :
    Balanced (.enter d :: (events ++ [.leave])) where
  length_eq bodies := by
    rw [List.foldl_cons, List.foldl_append]
    show (List.tail _).length = _
    rw [List.length_tail, h.length_eq]
    rfl
  length_le {before after} bodies hsplit := by
    cases before with
    | nil => exact Nat.le_refl _
    | cons event before =>
      obtain ⟨rfl, hrest⟩ := List.cons.inj hsplit
      show bodies.length ≤ (before.foldl openStep ((d, []) :: bodies)).length
      rcases List.append_eq_append_iff.mp hrest with ⟨w, rfl, hw⟩ | ⟨w, hw, _⟩
      · have hbody := h.length_eq ((d, []) :: bodies)
        rw [List.foldl_append]
        cases w with
        | nil => exact Nat.le_trans (Nat.le_succ _) (Nat.le_of_eq hbody.symm)
        | cons event w =>
          obtain ⟨rfl, hnil⟩ := List.cons.inj hw
          rw [(List.append_eq_nil_iff.mp hnil.symm).1]
          -- leaving the definition takes it away again
          show bodies.length ≤ (List.tail _).length
          rw [List.length_tail, hbody]
          exact Nat.le_refl _
      · exact Nat.le_trans (Nat.le_succ _) (h.length_le ((d, []) :: bodies) hw)

theorem balanced_flatMap {nodes : List Node} (h : ∀ n ∈ nodes, Balanced n.events) :
    Balanced (nodes.flatMap Node.events) := by
  induction nodes with
  | nil => exact balanced_nil
  | cons n nodes ih =>
    obtain ⟨hn, hnodes⟩ := List.forall_mem_cons.mp h
    rw [List.flatMap_cons]
    exact hn.append (ih hnodes)

/-- A node leaves what it enters. -/
theorem Node.balanced (n : Node) : Balanced n.events := by
  induction n using children_induction with
  | h n ih =>
    have hchildren := balanced_flatMap ih
    have hsingle {event : Event} (henter : event.definition? = none) (hleave : event ≠ .leave) :=
      balanced_singleton henter hleave
    rw [events_eq]
    cases n with
    | function d | program _ _ d => exact hchildren.block d
    | var | call =>
      exact (hsingle rfl (by intro h; cases h)).append (hchildren.append balanced_nil)
    | assign _ _ _ value =>
      refine (hsingle rfl (by intro h; cases h)).append (hchildren.append ?_)
      cases value with
      | none => exact balanced_nil
      | some value => exact hsingle rfl (by intro h; cases h)
    | _ => exact balanced_nil.append (hchildren.append balanced_nil)

/-! ## Targets -/

/-- Whether an event is the start of an assignment to a global variable, with a value or
    without one. -/
def Event.target? (name : String) : Event → Option Bool
  | .target true n hasValue => if n = name then some hasValue else none
  | _ => none

/-- Whether the last assignment to a global variable that starts has a value. -/
def lastTarget? (name : String) (events : List Event) : Option Bool :=
  (events.filterMap (Event.target? name)).getLast?

theorem lastTarget?_append (name : String) (events events' : List Event) :
    lastTarget? name (events ++ events') =
      (lastTarget? name events').or (lastTarget? name events) := by
  rw [lastTarget?, List.filterMap_append, List.getLast?_append]
  rfl

theorem lastTarget?_singleton (name : String) (event : Event) :
    lastTarget? name [event] = event.target? name := by
  cases h : event.target? name <;> simp [lastTarget?, h]

/-- The start of an assignment to a variable whose name is marked. -/
theorem Event.target?_target {name : String} (hname : isGlobalName name = true) (target : String)
    (hasValue : Bool) : (Event.target (isGlobalName target) target hasValue).target? name =
      if target = name then some hasValue else none := by
  by_cases htarget : target = name
  · simp [htarget, hname, target?]
  · cases isGlobalName target <;> simp [htarget, target?]

/-- The first pass takes up the last assignment to a variable. -/
theorem GlobalNames.mem_vars_ofEvents {events : List Event} {name : String} :
    name ∈ (ofEvents events).vars ↔ lastTarget? name events = some true := by
  induction events using List.reverseRecOn with
  | nil => simp [ofEvents, lastTarget?]
  | append_singleton events event ih =>
    have hconcat : ofEvents (events ++ [event]) = (ofEvents events).step event := by
      rw [ofEvents, List.foldl_append]
      rfl
    rw [hconcat, lastTarget?_append]
    cases event with
    | enter d =>
      have hvars : ((ofEvents events).step (.enter d)).vars = (ofEvents events).vars := by
        show GlobalNames.vars (if _ then _ else _) = _
        split <;> rfl
      simpa [hvars, lastTarget?, Event.target?] using ih
    | target isGlobal n hasValue =>
      cases isGlobal with
      | false => simpa [GlobalNames.step, lastTarget?, Event.target?] using ih
      | true =>
        by_cases hname : name = n
        · cases hasValue <;> simp [GlobalNames.step, lastTarget?, Event.target?, hname]
        · have hne : ¬ n = name := fun h => hname h.symm
          cases hasValue <;>
            simpa [GlobalNames.step, lastTarget?, Event.target?, hname, hne] using ih
    | _ => simpa [GlobalNames.step, lastTarget?, Event.target?] using ih

/-- Whether an event writes to no variable and starts no assignment. -/
def Event.IsUse : Event → Prop
  | .read _ | .call .. => True
  | _ => False

/-- An expression writes to no variable. -/
theorem Node.IsExpression.isUse {n : Node} (h : n.IsExpression) :
    ∀ event ∈ n.events, event.IsUse := by
  induction n using children_induction with
  | h n ih =>
    intro event hevent
    rcases mem_events_iff.mp hevent with hevent | ⟨c, hc, hevent⟩ | hevent
    · cases h with
      | var | call =>
        cases List.mem_singleton.mp hevent
        trivial
      | _ => cases hevent
    · exact ih c hc (h.child hc) event hevent
    · cases h <;> cases hevent

/-- Whether the last assignment to a variable that starts is also written last. -/
def Settled (name : String) (events : List Event) : Prop :=
  lastTarget? name events = lastWrite? name events

theorem Settled.append {name : String} {events events' : List Event} (h : Settled name events)
    (h' : Settled name events') : Settled name (events ++ events') := by
  rw [Settled, lastTarget?_append, lastWrite?_append, h, h']

/-- Uses are no assignments. -/
theorem last_of_isUse (name : String) {events : List Event} (h : ∀ event ∈ events, event.IsUse) :
    lastTarget? name events = none ∧ lastWrite? name events = none := by
  have huse {event : Event} (hevent : event ∈ events) :
      event.target? name = none ∧ event.write? name = none := by
    have := h event hevent
    cases event with
    | read | call => exact ⟨rfl, rfl⟩
    | _ => cases this
  have htarget : events.filterMap (Event.target? name) = [] :=
    List.filterMap_eq_nil_iff.mpr fun _ hevent => (huse hevent).1
  have hwrite : events.filterMap (Event.write? name) = [] :=
    List.filterMap_eq_nil_iff.mpr fun _ hevent => (huse hevent).2
  rw [lastTarget?, lastWrite?, htarget, hwrite]
  exact ⟨rfl, rfl⟩

theorem settled_flatMap {name : String} {nodes : List Node}
    (h : ∀ n ∈ nodes, Settled name n.events) : Settled name (nodes.flatMap Node.events) := by
  induction nodes with
  | nil => rfl
  | cons n nodes ih =>
    obtain ⟨hn, hnodes⟩ := List.forall_mem_cons.mp h
    rw [List.flatMap_cons]
    exact hn.append (ih hnodes)

/-- No value that is assigned holds an assignment, so that the last assignment to a global
    variable that starts is also written last. -/
theorem Node.IsRegular.settled {n : Node} (h : n.IsRegular) {name : String}
    (hname : isGlobalName name = true) : Settled name n.events := by
  induction n using children_induction with
  | h n ih =>
    have hchildren : Settled name (n.children.flatMap events) :=
      settled_flatMap fun c hc => ih c hc (h.child hc)
    rcases h with h | ⟨_, h⟩
    · obtain ⟨htarget, hwrite⟩ := last_of_isUse name h.isUse
      exact htarget.trans hwrite.symm
    · cases h with
      | @assign _ _ target value hvalue =>
        have htarget := Event.target?_target hname target
        cases value with
        | none =>
          show Settled name [.target (isGlobalName target) target false]
          rw [Settled, lastTarget?_singleton, lastWrite?_singleton, htarget]
          rfl
        | some value =>
          obtain ⟨hnotarget, hnowrite⟩ := last_of_isUse name (hvalue value rfl).isUse
          show Settled name ([.target (isGlobalName target) target true] ++
            (value.events ++ [.assigned (isGlobalName target) target]))
          rw [Settled, lastTarget?_append, lastTarget?_append, lastWrite?_append,
            lastWrite?_append, lastTarget?_singleton, lastTarget?_singleton, lastWrite?_singleton,
            lastWrite?_singleton, hnotarget, hnowrite, htarget]
          show (if _ then _ else _) = Option.or (Option.or (if _ then _ else _) _) _
          split <;> rfl
      | output | conditional | loop =>
        rw [events_eq]
        exact hchildren.append rfl
      | function =>
        rw [events_eq]
        exact Settled.append rfl (hchildren.append rfl)

/-! ## Programs -/

namespace Program

/-- The text of a program is the definition of its block. -/
theorem events_eq (p : Program) :
    p.events = .enter p.block :: (p.block.body.flatMap Node.events ++ [.leave]) :=
  Node.events_eq (.function p.block)

namespace WellFormed

variable {p : Program} {before after : List Event} {event : Event}

theorem isRegular_of_mem (hp : p.WellFormed) {node : Node} (h : node ∈ p.block.body) :
    node.IsRegular :=
  Or.inr ⟨true, hp.body node h⟩

/-- All names but that of the program are marked. -/
theorem marked (hp : p.WellFormed) (h : p.events = before ++ event :: after)
    (hbefore : before ≠ []) : event.Marked := by
  obtain ⟨first, before, rfl⟩ := List.exists_cons_of_ne_nil hbefore
  rw [p.events_eq] at h
  obtain ⟨_, hrest⟩ := List.cons.inj h
  have hevent : event ∈ p.block.body.flatMap Node.events ++ [.leave] := by
    rw [hrest]
    exact List.mem_append_right _ List.mem_cons_self
  rcases List.mem_append.mp hevent with hevent | hevent
  · obtain ⟨node, hnode, hevent⟩ := List.mem_flatMap.mp hevent
    exact (hp.isRegular_of_mem hnode).marked event hevent
  · cases List.mem_singleton.mp hevent
    trivial

/-- After the first event, some function is open. -/
theorem openBodies_ne (h : p.events = before ++ event :: after) (hbefore : before ≠ []) :
    openBodies before ≠ [] := by
  obtain ⟨first, before, rfl⟩ := List.exists_cons_of_ne_nil hbefore
  rw [p.events_eq] at h
  obtain ⟨rfl, hrest⟩ := List.cons.inj h
  have hbody : ∃ w, p.block.body.flatMap Node.events = before ++ w := by
    rcases List.append_eq_append_iff.mp hrest with ⟨w, hw, hlast⟩ | ⟨w, hw, hlast⟩
    · cases w with
      | nil => exact ⟨[], by rw [hw, List.append_nil, List.append_nil]⟩
      | cons event' w =>
        obtain ⟨_, hnil⟩ := List.cons.inj hlast
        exact absurd hnil.symm (by simp)
    · exact ⟨w, hw⟩
  obtain ⟨w, hw⟩ := hbody
  have hlength := (balanced_flatMap fun n _ => Node.balanced n).length_le [(p.block, [])] hw
  exact List.ne_nil_of_length_pos hlength

/-- A function has a name of its own, and no parameter with a global name. -/
theorem definition_of_mem (hp : p.WellFormed) {d : Definition Node} (h : d ∈ entered p.events) :
    d.name ≠ globalScopeName ∧ ∀ x ∈ d.params, isGlobalName x = false := by
  obtain ⟨before, after, hsplit⟩ := List.append_of_mem (mem_entered.mp h)
  by_cases hbefore : before = []
  · rw [hbefore, p.events_eq] at hsplit
    cases (List.cons.inj hsplit).1
    exact ⟨hp.name_ne, by simp [hp.params]⟩
  · exact (hp.marked hsplit hbefore).2

/-- What does not start a function happens in a function. -/
theorem exists_open (hp : p.WellFormed) (h : p.events = before ++ event :: after)
    (hevent : event.definition? = none) :
    event.Marked ∧ ∃ d own rest, openBodies before = (d, own) :: rest ∧
      ∀ x ∈ d.params, isGlobalName x = false := by
  have hbefore : before ≠ [] := by
    rintro rfl
    rw [p.events_eq] at h
    cases (List.cons.inj h).1
    cases hevent
  obtain ⟨⟨d, own⟩, rest, hopen⟩ := List.exists_cons_of_ne_nil (openBodies_ne h hbefore)
  have hd : d ∈ entered p.events := by
    rw [h, entered_append]
    exact List.mem_append_left _ (mem_entered_of_open (hopen ▸ List.mem_cons_self))
  exact ⟨hp.marked h hbefore, d, own, rest, hopen, (hp.definition_of_mem hd).2⟩

/-- The first pass finds the global variables that are written a value last. -/
theorem mem_vars (hp : p.WellFormed) {name : String} :
    name ∈ p.globals.vars ↔ isGlobalName name = true ∧ lastWrite? name p.events = some true := by
  rw [globals, GlobalNames.mem_vars_ofEvents]
  cases hname : isGlobalName name with
  | false =>
    -- only a marked name is a target
    refine iff_of_false (fun hlast => ?_) (by simp)
    obtain ⟨event, hevent, htarget⟩ := List.mem_filterMap.mp (List.mem_of_getLast? hlast)
    obtain ⟨before, after, hsplit⟩ := List.append_of_mem hevent
    have hmarked : before ≠ [] → event.Marked := hp.marked hsplit
    cases event with
    | target isGlobal n hasValue =>
      have hbefore : before ≠ [] := by
        rintro rfl
        rw [p.events_eq] at hsplit
        cases (List.cons.inj hsplit).1
      have hglobal : isGlobal = isGlobalName n := hmarked hbefore
      cases isGlobal with
      | false => cases htarget
      | true =>
        have hn : n = name := by
          by_contra hne
          simp [Event.target?, hne] at htarget
        rw [hn, hname] at hglobal
        cases hglobal
    | _ => cases htarget
  | true =>
    have hbody : Settled name (p.block.body.flatMap Node.events) :=
      settled_flatMap fun node hnode => (hp.isRegular_of_mem hnode).settled hname
    have henter : Settled name [.enter p.block] := rfl
    have hsettled : lastTarget? name p.events = lastWrite? name p.events := by
      rw [p.events_eq]
      exact henter.append (hbody.append rfl)
    simp [hsettled]

end WellFormed

end Program

end VectorLang
