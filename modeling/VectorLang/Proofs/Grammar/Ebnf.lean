import VectorLang.Token

/-!
# Grammars in extended Backus-Naur form

A grammar gives an expression for each of its symbols.  `Derives` says which rows of
token kinds an expression derives.

The rows that the symbols of a grammar derive are the least family that is closed under
the rules.

* `Derives.mono`     a grammar derives what one derives whose rules it is closed under
* `Derives.covers`   a reading of the symbols as rows of tokens that is closed under the
    rules covers what is derived
-/

namespace VectorLang

/-- An expression over the symbols `σ`. -/
inductive Ebnf (σ : Type) where
  /-- A token of the given kind. -/
  | token (k : Kind)
  /-- What a symbol stands for. -/
  | symbol (s : σ)
  /-- One expression after the other. -/
  | seq (first second : Ebnf σ)
  /-- One of two expressions. -/
  | alt (left right : Ebnf σ)
  /-- An expression any number of times. -/
  | many (item : Ebnf σ)
  /-- An expression that may be left out. -/
  | opt (item : Ebnf σ)
  /-- An expression, unless its first token is of the given kind. -/
  | guarded (k : Kind) (item : Ebnf σ)

namespace Ebnf

variable {σ : Type}

instance : Append (Ebnf σ) := ⟨seq⟩
instance : OrOp (Ebnf σ) := ⟨alt⟩

end Ebnf

/-- A grammar: an expression for each symbol. -/
abbrev Grammar (σ : Type) := σ → Ebnf σ

/-- The rows of kinds that an expression derives by the rules of a grammar. -/
inductive Derives {σ : Type} (g : Grammar σ) : Ebnf σ → List Kind → Prop where
  | token (k : Kind) : Derives g (.token k) [k]
  | symbol {s : σ} {w : List Kind} : Derives g (g s) w → Derives g (.symbol s) w
  | seq {a b : Ebnf σ} {u v : List Kind} :
      Derives g a u → Derives g b v → Derives g (.seq a b) (u ++ v)
  | altLeft {a b : Ebnf σ} {w : List Kind} : Derives g a w → Derives g (.alt a b) w
  | altRight {a b : Ebnf σ} {w : List Kind} : Derives g b w → Derives g (.alt a b) w
  | manyNil {a : Ebnf σ} : Derives g (.many a) []
  | manyCons {a : Ebnf σ} {u v : List Kind} :
      Derives g a u → Derives g (.many a) v → Derives g (.many a) (u ++ v)
  | optNone {a : Ebnf σ} : Derives g (.opt a) []
  | optSome {a : Ebnf σ} {w : List Kind} : Derives g a w → Derives g (.opt a) w
  | guarded {k : Kind} {a : Ebnf σ} {w : List Kind} :
      Derives g a w → w.head? ≠ some k → Derives g (.guarded k a) w

namespace Derives

variable {σ : Type} {g g' : Grammar σ} {a b r : Ebnf σ} {u v w : List Kind}

theorem token_iff {k : Kind} : Derives g (.token k) w ↔ w = [k] := by
  constructor
  · rintro ⟨⟩
    rfl
  · rintro rfl
    exact .token k

theorem symbol_iff {s : σ} : Derives g (.symbol s) w ↔ Derives g (g s) w := by
  constructor
  · rintro ⟨⟩
    assumption
  · exact .symbol

theorem append_iff :
    Derives g (a ++ b) w ↔ ∃ u v, w = u ++ v ∧ Derives g a u ∧ Derives g b v := by
  change Derives g (.seq a b) w ↔ _
  constructor
  · rintro ⟨⟩
    exact ⟨_, _, rfl, ‹_›, ‹_›⟩
  · rintro ⟨u, v, rfl, hu, hv⟩
    exact .seq hu hv

theorem or_iff : Derives g (a ||| b) w ↔ Derives g a w ∨ Derives g b w := by
  change Derives g (.alt a b) w ↔ _
  constructor
  · intro h
    cases h with
    | altLeft h => exact Or.inl h
    | altRight h => exact Or.inr h
  · rintro (h | h)
    · exact .altLeft h
    · exact .altRight h

/-- What is derived is derived however it is written. -/
theorem congr (h : Derives g r u) (huv : u = v) : Derives g r v := huv ▸ h

theorem append (hu : Derives g a u) (hv : Derives g b v) : Derives g (a ++ b) (u ++ v) :=
  .seq hu hv

theorem inl (h : Derives g a w) : Derives g (a ||| b) w := .altLeft h

theorem inr (h : Derives g b w) : Derives g (a ||| b) w := .altRight h

/-- A token and what follows it. -/
theorem cons (k : Kind) (hv : Derives g b v) : Derives g (.token k ++ b) (k :: v) :=
  .seq (.token k) hv

/-- A grammar that is closed under the rules of another derives what that one derives. -/
theorem mono (hg : ∀ s w, Derives g' (g s) w → Derives g' (.symbol s) w)
    (h : Derives g r w) : Derives g' r w := by
  induction h with
  | token k => exact .token k
  | symbol _ ih => exact hg _ _ ih
  | seq _ _ ihu ihv => exact .seq ihu ihv
  | altLeft _ ih => exact .altLeft ih
  | altRight _ ih => exact .altRight ih
  | manyNil => exact .manyNil
  | manyCons _ _ ihu ihv => exact .manyCons ihu ihv
  | optNone => exact .optNone
  | optSome _ ih => exact .optSome ih
  | guarded _ hk ih => exact .guarded ih hk

end Derives

/-! ## Readings of the symbols -/

/-- Rows of tokens that are made of rows in `P`. -/
inductive Rows (P : List Token → Prop) : List Token → Prop where
  | nil : Rows P []
  | cons {u v : List Token} : P u → Rows P v → Rows P (u ++ v)

/-- The rows of tokens that an expression stands for, where the symbol `s` stands for the
    rows in `X s`. -/
def Ebnf.Covers {σ : Type} (X : σ → List Token → Prop) : Ebnf σ → List Token → Prop
  | token k, w => ∃ t : Token, w = [t] ∧ t.kind = k
  | symbol s, w => X s w
  | seq a b, w => ∃ u v, w = u ++ v ∧ a.Covers X u ∧ b.Covers X v
  | alt a b, w => a.Covers X w ∨ b.Covers X w
  | many a, w => Rows (a.Covers X) w
  | opt a, w => w = [] ∨ a.Covers X w
  | guarded k a, w => a.Covers X w ∧ (w.map Token.kind).head? ≠ some k

/-- A reading of the symbols that is closed under the rules covers what is derived.  It may
    be closed under them on the rows in `P` only, if the parts of such rows are in `P`. -/
theorem Derives.covers {σ : Type} {g : Grammar σ} {P : List Token → Prop}
    {X : σ → List Token → Prop} (hP : ∀ u v, P (u ++ v) → P u ∧ P v)
    (hX : ∀ s w, P w → (g s).Covers X w → X s w) {r : Ebnf σ} {kinds : List Kind}
    (h : Derives g r kinds) {w : List Token} (hw : w.map Token.kind = kinds) (hPw : P w) :
    r.Covers X w := by
  induction h generalizing w with
  -- the tokens split where their kinds do
  | token k =>
    obtain ⟨t, rfl, ht⟩ := List.map_eq_singleton_iff.mp hw
    exact ⟨t, rfl, ht⟩
  | symbol _ ih => exact hX _ _ hPw (ih hw hPw)
  | seq _ _ ihu ihv =>
    obtain ⟨u, v, rfl, hu, hv⟩ := List.map_eq_append_iff.mp hw
    exact ⟨u, v, rfl, ihu hu (hP u v hPw).1, ihv hv (hP u v hPw).2⟩
  | altLeft _ ih => exact Or.inl (ih hw hPw)
  | altRight _ ih => exact Or.inr (ih hw hPw)
  | manyNil =>
    rw [List.map_eq_nil_iff.mp hw]
    exact Rows.nil
  | manyCons _ _ ihu ihv =>
    obtain ⟨u, v, rfl, hu, hv⟩ := List.map_eq_append_iff.mp hw
    exact Rows.cons (ihu hu (hP u v hPw).1) (ihv hv (hP u v hPw).2)
  | optNone => exact Or.inl (List.map_eq_nil_iff.mp hw)
  | optSome _ ih => exact Or.inr (ih hw hPw)
  | guarded _ hk ih => exact ⟨ih hw hPw, hw ▸ hk⟩

end VectorLang
