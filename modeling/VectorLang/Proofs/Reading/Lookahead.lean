import VectorLang.Proofs.Success
import VectorLang.Tree.Parser

/-!
# Steps of a parser

A step of a parser succeeds, if it does, by using up a row of tokens.  `Lookahead.Reach`
says which row lies between two places of a stream, and the lemmas of this module say of
each basic step when it succeeds and where it ends.

A parser may ask for tokens after the last one.  A stream whose last token is the end of
the text is `Closed`, and there every token but this one has a token after it.

* `reach_append`        a row between two places can be split at every place between them
* `advance_eq_ok_iff`   using a token up leads to the place after it
-/

namespace VectorLang

namespace Lookahead

/-- The tokens that are not used up. -/
def tokens (l : Lookahead) : List Token := l.current :: l.rest

/-- Whether the tokens between the places `l` and `l'` of a stream are `w`. -/
structure Reach (l : Lookahead) (w : List Token) (l' : Lookahead) : Prop where
  tokens : l.tokens = w ++ l'.tokens
  fault : l'.fault = l.fault
  asked : l'.asked = l.asked + w.length

/-- Whether a stream ends with the end of the text, unless it ends in a fault. -/
def Closed (l : Lookahead) : Prop :=
  l.fault = none → ∃ t ∈ l.tokens.getLast?, t.kind = .eof

@[ext] theorem ext {l l' : Lookahead} (hasked : l.asked = l'.asked)
    (htokens : l.tokens = l'.tokens) (hfault : l.fault = l'.fault) : l = l' := by
  obtain ⟨asked, current, rest, fault⟩ := l
  obtain ⟨asked', current', rest', fault'⟩ := l'
  simp only [tokens, List.cons.injEq] at htokens
  obtain ⟨hcurrent, hrest⟩ := htokens
  simp only at hasked hfault
  rw [hasked, hcurrent, hrest, hfault]

@[simp] theorem reach_nil {l l' : Lookahead} : l.Reach [] l' ↔ l' = l := by
  constructor
  · intro h
    exact Lookahead.ext h.asked h.tokens.symm h.fault
  · rintro rfl
    exact ⟨rfl, rfl, rfl⟩

/-- A row between two places can be split at every place between them. -/
theorem reach_append {l l' : Lookahead} {u v : List Token} :
    l.Reach (u ++ v) l' ↔ ∃ m, l.Reach u m ∧ m.Reach v l' := by
  constructor
  · intro h
    -- the place in the middle is where the tokens `v` and those after them are left
    cases hv : v ++ l'.tokens with
    | nil => simp [tokens] at hv
    | cons t ts =>
      refine ⟨⟨l.asked + u.length, t, ts, l.fault⟩, ⟨?_, rfl, rfl⟩, ⟨?_, h.fault, ?_⟩⟩
      · rw [h.tokens, List.append_assoc, hv]
        rfl
      · exact hv.symm
      · rw [h.asked, List.length_append, Nat.add_assoc]
  · rintro ⟨m, hu, hv⟩
    refine ⟨?_, hv.fault.trans hu.fault, ?_⟩
    · rw [hu.tokens, hv.tokens, List.append_assoc]
    · rw [hv.asked, hu.asked, List.length_append, Nat.add_assoc]

theorem Reach.append {l m l' : Lookahead} {u v : List Token} (hu : l.Reach u m)
    (hv : m.Reach v l') : l.Reach (u ++ v) l' :=
  reach_append.mpr ⟨m, hu, hv⟩

/-- A row between two places, split after its first token. -/
theorem reach_cons {l l' : Lookahead} {t : Token} {w : List Token} :
    l.Reach (t :: w) l' ↔ ∃ m, l.Reach [t] m ∧ m.Reach w l' :=
  reach_append (u := [t])

theorem Reach.cons {l m l' : Lookahead} {t : Token} {w : List Token} (ht : l.Reach [t] m)
    (hw : m.Reach w l') : l.Reach (t :: w) l' :=
  reach_cons.mpr ⟨m, ht, hw⟩

/-- The first token of a row is the current one. -/
theorem Reach.current {l l' : Lookahead} {t : Token} {w : List Token}
    (h : l.Reach (t :: w) l') : l.current = t :=
  (List.cons.inj h.tokens).1

theorem Reach.head {l l' : Lookahead} {w : List Token} (h : l.Reach w l') :
    ∀ t ∈ w.head?, l.current = t := by
  intro t ht
  cases w with
  | nil => exact nomatch ht
  | cons t' w =>
    cases ht
    exact h.current

/-- The token after the first one is the next token of the row, or the one after it. -/
theorem Reach.next {l l' : Lookahead} {t : Token} (h : l.Reach [t] l') :
    l.rest = l'.current :: l'.rest :=
  (List.cons.inj h.tokens).2

theorem Closed.of_reach {l l' : Lookahead} {w : List Token} (hl : l.Closed)
    (h : l.Reach w l') : l'.Closed := by
  intro hfault
  obtain ⟨t, ht, hkind⟩ := hl (h.fault ▸ hfault)
  -- the row takes away tokens in front only, and one is left
  rw [h.tokens, List.getLast?_append, tokens, List.getLast?_cons] at ht
  rw [tokens, List.getLast?_cons]
  exact ⟨t, ht, hkind⟩

/-- In a closed stream a token that is not the end of the text has one after it. -/
theorem Closed.rest_ne_nil {l : Lookahead} (hl : l.Closed) (hfault : l.fault = none)
    (hkind : l.current.kind ≠ .eof) : l.rest ≠ [] := by
  intro hrest
  obtain ⟨t, ht, heof⟩ := hl hfault
  -- otherwise the current token is the last one
  simp only [tokens, hrest, List.getLast?_singleton, Option.mem_def, Option.some.injEq] at ht
  exact hkind (ht ▸ heof)

end Lookahead

/-! ## Basic steps -/

namespace Parser

open EStateM (Result)

variable {α β : Type} {l l' : Lookahead} {a : α}

@[simp] theorem current_bind {f : Token → Parser β} : (current >>= f) l = f l.current l := rfl

@[simp] theorem currentKind_bind {f : Kind → Parser β} :
    (currentKind >>= f) l = f l.current.kind l := rfl

@[simp high] theorem advance_bind_eq_ok {f : Unit → Parser β} {b : β} :
    (advance >>= f) l = .ok b l' ↔ ∃ m, advance l = .ok () m ∧ f () m = .ok b l' :=
  bind_eq_ok.trans ⟨fun ⟨_, m, h⟩ => ⟨m, h⟩, fun ⟨m, h⟩ => ⟨(), m, h⟩⟩

@[simp high] theorem advance_map_eq_ok {f : Unit → β} {b : β} :
    (f <$> advance) l = .ok b l' ↔ advance l = .ok () l' ∧ f () = b :=
  map_eq_ok.trans ⟨fun ⟨_, h⟩ => h, fun h => ⟨(), h⟩⟩

@[simp] theorem consumeAny_eq_ok {kinds : List Kind} {t : Token} :
    consumeAny kinds l = .ok t l' ↔
      l.current = t ∧ kinds.contains t.kind = true ∧ advance l = .ok () l' := by
  rw [consumeAny, current_bind]
  constructor
  · intro h
    split at h
    · rename_i hk
      obtain ⟨_, m, hm, hpure⟩ := bind_eq_ok.mp h
      obtain ⟨rfl, rfl⟩ := pure_eq_ok.mp hpure
      exact ⟨rfl, hk, hm⟩
    · exact absurd h throw_ne_ok
  · rintro ⟨rfl, hk, h⟩
    rw [if_pos hk]
    exact bind_eq_ok.mpr ⟨(), l', h, pure_eq_ok.mpr ⟨rfl, rfl⟩⟩

@[simp] theorem consume_eq_ok {k : Kind} {t : Token} :
    consume k l = .ok t l' ↔ l.current = t ∧ t.kind = k ∧ advance l = .ok () l' := by
  simp [consume]

@[simp high] theorem consumeAny_bind_eq_ok {kinds : List Kind} {f : Token → Parser β} {b : β} :
    (consumeAny kinds >>= f) l = .ok b l' ↔
      kinds.contains l.current.kind = true ∧
        ∃ m, advance l = .ok () m ∧ f l.current m = .ok b l' := by
  rw [bind_eq_ok]
  constructor
  · rintro ⟨t, m, ht, h⟩
    obtain ⟨rfl, hk, hm⟩ := consumeAny_eq_ok.mp ht
    exact ⟨hk, m, hm, h⟩
  · rintro ⟨hk, m, hm, h⟩
    exact ⟨l.current, m, consumeAny_eq_ok.mpr ⟨rfl, hk, hm⟩, h⟩

@[simp high] theorem consume_bind_eq_ok {k : Kind} {f : Token → Parser β} {b : β} :
    (consume k >>= f) l = .ok b l' ↔
      l.current.kind = k ∧ ∃ m, advance l = .ok () m ∧ f l.current m = .ok b l' := by
  rw [consume, consumeAny_bind_eq_ok, List.contains_cons, List.contains_nil, Bool.or_false,
    beq_iff_eq]

@[simp] theorem accept_eq_ok {k : Kind} {b : Bool} :
    accept k l = .ok b l' ↔
      (b = true ∧ l.current.kind = k ∧ advance l = .ok () l') ∨
      (b = false ∧ l.current.kind ≠ k ∧ l = l') := by
  rw [accept, currentKind_bind]
  constructor
  · intro h
    split at h
    · rename_i hk
      obtain ⟨_, m, hm, hpure⟩ := bind_eq_ok.mp h
      obtain ⟨rfl, rfl⟩ := pure_eq_ok.mp hpure
      exact Or.inl ⟨rfl, hk, hm⟩
    · rename_i hk
      obtain ⟨rfl, rfl⟩ := pure_eq_ok.mp h
      exact Or.inr ⟨rfl, hk, rfl⟩
  · rintro (⟨rfl, hk, h⟩ | ⟨rfl, hk, rfl⟩)
    · rw [if_pos hk]
      exact bind_eq_ok.mpr ⟨(), l', h, pure_eq_ok.mpr ⟨rfl, rfl⟩⟩
    · rw [if_neg hk]
      exact pure_eq_ok.mpr ⟨rfl, rfl⟩

@[simp high] theorem accept_bind_eq_ok {k : Kind} {f : Bool → Parser β} {b : β} :
    (accept k >>= f) l = .ok b l' ↔
      (l.current.kind = k ∧ ∃ m, advance l = .ok () m ∧ f true m = .ok b l') ∨
      (l.current.kind ≠ k ∧ f false l = .ok b l') := by
  rw [bind_eq_ok]
  constructor
  · rintro ⟨t, m, ht, h⟩
    rcases accept_eq_ok.mp ht with ⟨rfl, hk, hm⟩ | ⟨rfl, hk, rfl⟩
    · exact Or.inl ⟨hk, m, hm, h⟩
    · exact Or.inr ⟨hk, h⟩
  · rintro (⟨hk, m, hm, h⟩ | ⟨hk, h⟩)
    · exact ⟨true, m, accept_eq_ok.mpr (Or.inl ⟨rfl, hk, hm⟩), h⟩
    · exact ⟨false, l, accept_eq_ok.mpr (Or.inr ⟨rfl, hk, rfl⟩), h⟩

/-- A token that is reached is used up by a step to the place after it. -/
theorem advance_of_reach {t : Token} (h : l.Reach [t] l') : advance l = .ok () l' := by
  have hrest := h.next
  obtain ⟨asked, current, rest, fault⟩ := l
  simp only at hrest
  subst hrest
  simp only [advance, Result.ok.injEq, true_and]
  exact Lookahead.ext h.asked.symm rfl h.fault.symm

/-- In a closed stream every token but the end of the text is used up by a step to the
    place after it. -/
theorem reach_of_advance (hl : l.Closed) (hkind : l.current.kind ≠ .eof)
    (h : advance l = .ok () l') : l.Reach [l.current] l' := by
  -- with no token left, the stream has a fault or ends with the end of the text
  unfold advance at h
  split at h
  · rename_i hrest
    cases h
    refine ⟨?_, rfl, rfl⟩
    simp only [Lookahead.tokens, hrest]
    rfl
  · exact nomatch h
  · rename_i hrest hfault
    exact absurd hrest (hl.rest_ne_nil hfault hkind)

/-- The token after the current one shows without being used up. -/
theorem peek_of_reach {t : Token} (h : l.Reach [t] l') : peek l = .ok l'.current l := by
  simp only [peek, h.next]

theorem reach_of_peek (hl : l.Closed) (hkind : l.current.kind ≠ .eof) {t : Token}
    (h : peek l = .ok t l') : l' = l ∧ ∃ m, l.Reach [l.current] m ∧ m.current = t := by
  -- the same three cases as for `advance`
  unfold peek at h
  split at h
  · rename_i ts hrest
    cases h
    refine ⟨rfl, ⟨l.asked + 1, t, ts, l.fault⟩, ⟨?_, rfl, rfl⟩, rfl⟩
    simp only [Lookahead.tokens, hrest]
    rfl
  · exact nomatch h
  · rename_i hrest hfault
    exact absurd hrest (hl.rest_ne_nil hfault hkind)

end Parser

end VectorLang
