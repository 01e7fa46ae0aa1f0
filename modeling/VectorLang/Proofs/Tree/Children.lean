import VectorLang.Scope.Event

/-!
# The nodes of a tree

A node contains itself and what its children contain.  What happens to names in a node is
what happens in its children, between what the node itself does before them and after them.

* `Node.children_induction`    proof by induction on the children of nodes
* `Node.events_eq`             the events of a node
* `Node.Contains.mem_events`   they hold those of all nodes that it contains
* `Node.contains_of_enter`     a definition that is entered is that of a node
-/

namespace VectorLang

namespace Node

/-- The nodes right below a node. -/
def children : Node → List Node
  | int .. | string .. => []
  | vector _ elements => elements
  | var _ _ _ subscript => subscript.toList
  | unary _ _ operand => [operand]
  | binary _ _ left right => [left, right]
  | call _ _ _ args => args
  | predicate test => [test.left, test.right]
  | output _ value => [value]
  | assign _ _ _ value => value.toList
  | conditional _ test thenBody elseBody => test.left :: test.right :: (thenBody ++ elseBody)
  | loop _ _ test body => test.left :: test.right :: body
  | function d => d.body
  | program _ _ block => block.body

private theorem sizeOf_sides {c : Node} {test : Comparison Node}
    (h : c = test.left ∨ c = test.right) : sizeOf c < sizeOf test := by
  cases test
  simp only [Comparison.mk.sizeOf_spec]
  rcases h with rfl | rfl <;> omega

private theorem sizeOf_body {c : Node} {d : Definition Node} (h : c ∈ d.body) :
    sizeOf c < sizeOf d := by
  cases d
  have := List.sizeOf_lt_of_mem h
  simp only [Definition.mk.sizeOf_spec] at this ⊢
  omega

/-- A child is smaller than its parent. -/
theorem sizeOf_lt_of_mem_children {n c : Node} (h : c ∈ n.children) : sizeOf c < sizeOf n := by
  cases n with
  | int | string => cases h
  | vector _ nodes | call _ _ _ nodes =>
    have hc : sizeOf c < sizeOf nodes := List.sizeOf_lt_of_mem h
    simp only [vector.sizeOf_spec, call.sizeOf_spec]
    omega
  | var _ _ _ o | assign _ _ _ o =>
    obtain rfl := Option.mem_toList.mp h
    simp only [var.sizeOf_spec, assign.sizeOf_spec, Option.some.sizeOf_spec]
    omega
  | unary | output =>
    obtain rfl := List.mem_singleton.mp h
    simp only [unary.sizeOf_spec, output.sizeOf_spec]
    omega
  | binary =>
    simp only [children, List.mem_cons, List.not_mem_nil, or_false] at h
    simp only [binary.sizeOf_spec]
    rcases h with rfl | rfl <;> omega
  | predicate test =>
    simp only [children, List.mem_cons, List.not_mem_nil, or_false] at h
    have hc := sizeOf_sides h
    simp only [predicate.sizeOf_spec]
    omega
  | conditional _ test thenBody elseBody =>
    simp only [children, List.mem_cons, List.mem_append, ← or_assoc] at h
    have hc : sizeOf c < sizeOf test ∨ sizeOf c < sizeOf thenBody ∨ sizeOf c < sizeOf elseBody := by
      rcases h with (h | h) | h
      · exact Or.inl (sizeOf_sides h)
      · exact Or.inr (Or.inl (List.sizeOf_lt_of_mem h))
      · exact Or.inr (Or.inr (List.sizeOf_lt_of_mem h))
    simp only [conditional.sizeOf_spec]
    omega
  | loop _ _ test body =>
    simp only [children, List.mem_cons, ← or_assoc] at h
    have hc : sizeOf c < sizeOf test ∨ sizeOf c < sizeOf body := by
      rcases h with h | h
      · exact Or.inl (sizeOf_sides h)
      · exact Or.inr (List.sizeOf_lt_of_mem h)
    simp only [loop.sizeOf_spec]
    omega
  | function | program =>
    have hc := sizeOf_body h
    simp only [function.sizeOf_spec, program.sizeOf_spec]
    omega

/-- Proof by induction on the children of nodes. -/
@[elab_as_elim]
theorem children_induction {motive : Node → Prop}
    (h : ∀ n, (∀ c ∈ n.children, motive c) → motive n) (n : Node) : motive n :=
  h n fun c _ => children_induction h c
termination_by sizeOf n
decreasing_by exact sizeOf_lt_of_mem_children ‹_›

/-- Whether a node is another one or stands somewhere below it. -/
inductive Contains : Node → Node → Prop where
  | refl (n : Node) : Contains n n
  | step {n c m : Node} : c ∈ n.children → Contains c m → Contains n m

namespace Contains

variable {n m k : Node}

theorem trans (h : n.Contains m) (h' : m.Contains k) : n.Contains k := by
  induction h with
  | refl => exact h'
  | step hc _ ih => exact .step hc (ih h')

theorem child {c : Node} (h : n.Contains m) (hc : c ∈ m.children) : n.Contains c :=
  h.trans (.step hc (.refl c))

end Contains

/-- What holds in a whole tree holds of its root and in the trees below it. -/
theorem forall_contains_iff {P : Node → Prop} {n : Node} :
    (∀ m, n.Contains m → P m) ↔ P n ∧ ∀ c ∈ n.children, ∀ m, c.Contains m → P m := by
  constructor
  · intro h
    exact ⟨h n (.refl n), fun c hc m hm => h m (.step hc hm)⟩
  · rintro ⟨hn, hchildren⟩ m hm
    cases hm with
    | refl => exact hn
    | step hc hm => exact hchildren _ hc m hm

end Node

/-- Whether a node is a node of a program. -/
def Program.Contains (p : Program) (node : Node) : Prop :=
  (Node.function p.block).Contains node

namespace Node

/-! ## Events -/

/-- What a node does with names before its children do. -/
def opening : Node → List Event
  | var _ _ name _ => [.read name]
  | call _ isGlobal name args => [.call isGlobal name args.length]
  | assign _ isGlobal name value => [.target isGlobal name value.isSome]
  | function d | program _ _ d => [.enter d]
  | _ => []

/-- What a node does with names after its children did. -/
def closing : Node → List Event
  | assign _ isGlobal name (some _) => [.assigned isGlobal name]
  | function _ | program .. => [.leave]
  | _ => []

private theorem eventsOfList_eq (nodes : List Node) :
    eventsOfList nodes = nodes.flatMap events := by
  induction nodes with
  | nil => rfl
  | cons node nodes ih => rw [eventsOfList, ih, List.flatMap_cons]

theorem events_eq (n : Node) :
    n.events = n.opening ++ (n.children.flatMap events ++ n.closing) := by
  cases n with
  | assign location isGlobal name value =>
    cases value with
    | none => rfl
    | some value => simp [events, opening, children, closing]
  | var location isGlobal name subscript =>
    cases subscript with
    | none => rfl
    | some subscript => simp [events, opening, children, closing, eventsOfOption]
  | _ => simp [events, opening, children, closing, eventsOfList_eq]

/-- An event of a node is its own or that of a child. -/
theorem mem_events_iff {n : Node} {event : Event} :
    event ∈ n.events ↔
      event ∈ n.opening ∨ (∃ c ∈ n.children, event ∈ c.events) ∨ event ∈ n.closing := by
  rw [events_eq, List.mem_append, List.mem_append, List.mem_flatMap]

/-- What a node does with names happens in every node that contains it. -/
theorem Contains.mem_events {n m : Node} {event : Event} (h : n.Contains m)
    (hevent : event ∈ m.events) : event ∈ n.events := by
  induction h with
  | refl => exact hevent
  | step hc _ ih => exact mem_events_iff.mpr (Or.inr (Or.inl ⟨_, hc, ih hevent⟩))

/-- A definition that is entered in a node has the body of a node that it contains. -/
theorem contains_of_enter {n : Node} {d : Definition Node} (h : .enter d ∈ n.events) :
    ∃ m, n.Contains m ∧ m.children = d.body := by
  induction n using children_induction with
  | h n ih =>
    rcases mem_events_iff.mp h with h | ⟨c, hc, h⟩ | h
    · refine ⟨n, .refl n, ?_⟩
      cases n with
      | function | program =>
        cases List.mem_singleton.mp h
        rfl
      | _ => simp [opening] at h
    · obtain ⟨m, hm, hbody⟩ := ih c hc h
      exact ⟨m, .step hc hm, hbody⟩
    · -- what comes after the children enters nothing
      cases n with
      | assign location isGlobal name value => cases value <;> simp [closing] at h
      | _ => simp [closing] at h

end Node

end VectorLang
