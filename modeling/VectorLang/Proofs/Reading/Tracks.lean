import VectorLang.Proofs.Grammar.Parameters
import VectorLang.Proofs.Grammar.Productive
import VectorLang.Proofs.Reading.Layout

/-!
# Where a parser stops, and why

A step of the parser uses up tokens that begin a row of the grammar, and it stops at the first
token that no such row goes on with.  What comes later in the stream has no part in it: on every
other stream that starts with tokens of the same kinds, up to the one where it stops, the step
does the same.

`Tracks` says so of the result of a step `p` that reads an expression `r` of the grammar.  The
other streams are read by a step `q`, which may differ from `p` in what it makes of the tokens: in
the source that locations are made of and in the bound on nesting.

* `Blames`        what an error tells about the tokens
* `Tracks.bind`   one step after another
-/

namespace VectorLang

namespace Lookahead

/-- Whether the tokens that are not used up start with tokens of the kinds of `w`. -/
def Follows (l : Lookahead) (w : List Token) : Prop :=
  w.map Token.kind <+: l.tokens.map Token.kind

variable {l m : Lookahead} {t : Token} {u v w : List Token}

theorem Follows.current (h : l.Follows (t :: w)) : l.current.kind = t.kind := by
  obtain ⟨rest, h⟩ := h
  exact (List.cons.inj h).1.symm

theorem Follows.left (h : l.Follows (u ++ v)) : l.Follows u := by
  rw [Follows, List.map_append] at h
  exact (List.prefix_append _ _).trans h

/-- What comes after a row of the same kinds. -/
theorem Follows.of_reach (h : l.Follows (u ++ v)) (hreach : l.Reach w m)
    (hkinds : w.map Token.kind = u.map Token.kind) : m.Follows v := by
  rw [Follows, hreach.tokens, List.map_append, List.map_append, hkinds] at h
  exact (List.prefix_append_right_inj _).mp h

/-- A place is told by the tokens before it. -/
theorem Reach.unique (h : l.Reach u m) (h' : l.Reach v m) : u = v :=
  List.append_cancel_right (h.tokens.symm.trans h'.tokens)

/-- The first token is one of the row, or the one after it. -/
theorem Reach.head?_concat (h : l.Reach w m) : (w ++ [m.current]).head? = some l.current := by
  have htokens := congrArg List.head? h.tokens
  cases w with
  | nil => exact htokens.symm
  | cons t w => exact htokens.symm

theorem Reach.begins (h : l.Reach w m) : w ++ [m.current] <+: l.tokens := by
  refine ⟨m.rest, ?_⟩
  rw [h.tokens, List.append_assoc]
  rfl

theorem Reach.size (h : l.Reach w m) : l.size = w.length + m.size := by
  rw [Lookahead.size, h.tokens, List.length_append]
  rfl

end Lookahead

namespace Parser

open EStateM (Result)
open Grammar (restricted)

variable {α β ι : Type}

/-! ## Steps on other streams -/

/-- Whether a step fails wherever tokens of the kinds of `w` come. -/
def Rejects (q : Parser α) (w : List Token) : Prop :=
  ∀ l a m, l.Closed → l.Follows w → q l ≠ .ok a m

/-- Whether a step that succeeds uses up tokens of the kinds of `w`, wherever those come, with one
    of the kind of `t` after them. -/
def Copies (q : Parser α) (w : List Token) (t : Token) : Prop :=
  ∀ l a m, l.Closed → l.Follows (w ++ [t]) → q l = .ok a m →
    ∃ v, l.Reach v m ∧ v.map Token.kind = w.map Token.kind

section

variable {q : Parser α} {g : α → Parser β} {t t' : Token} {v w : List Token}

/-- What comes up to the first token after a row. -/
private theorem follows_head {l : Lookahead} (h : l.Follows (w ++ v)) (ht : v.head? = some t) :
    l.Follows (w ++ [t]) := by
  obtain ⟨v, rfl⟩ := List.head?_eq_some_iff.mp ht
  have hsplit : w ++ t :: v = w ++ [t] ++ v := by simp
  exact (hsplit ▸ h).left

theorem Copies.bind_rejects (hq : Copies q w t) (ht : v.head? = some t)
    (hg : ∀ a, Rejects (g a) v) : Rejects (q >>= g) (w ++ v) := by
  intro l b m hl hfollows hok
  obtain ⟨a, m', ha, hb⟩ := bind_eq_ok.mp hok
  obtain ⟨w', hreach, hkinds⟩ := hq l a m' hl (follows_head hfollows ht) ha
  exact hg a m' b m (hl.of_reach hreach) (hfollows.of_reach hreach hkinds) hb

theorem Copies.bind (hq : Copies q w t) (ht : (v ++ [t']).head? = some t)
    (hg : ∀ a, Copies (g a) v t') : Copies (q >>= g) (w ++ v) t' := by
  intro l b m hl hfollows hok
  obtain ⟨a, m', ha, hb⟩ := bind_eq_ok.mp hok
  rw [List.append_assoc] at hfollows
  obtain ⟨w', hreach, hkinds⟩ := hq l a m' hl (follows_head hfollows ht) ha
  obtain ⟨v', hreach', hkinds'⟩ :=
    hg a m' b m (hl.of_reach hreach) (hfollows.of_reach hreach hkinds) hb
  refine ⟨w' ++ v', hreach.append hreach', ?_⟩
  rw [List.map_append, List.map_append, hkinds, hkinds']

end

/-! ## Errors -/

/-- What an error of a step that reads `r` from a spot on tells about the tokens.  An unexpected
    token comes after tokens that begin a row of `r`, and no such row goes on with it; where `c`
    holds it is not the first one.  Tokens before a place where none can be read begin a row of
    `r`. -/
inductive Blames (s : Spot) (r : Ebnf Nonterminal) (c : Prop) (q : Parser α) (l : Lookahead) :
    ParseError → Lookahead → Prop where
  | unexpected {expected : List Kind} {w : List Token} {v : List Kind} {m : Lookahead} :
      l.Reach w m → (c → w ≠ []) → Clean s w → Derives restricted r (w.map Token.kind ++ v) →
      Rejects q (w ++ [m.current]) → Blames s r c q l (.unexpected expected m.current) m
  | lexical {e : LexError} {v : List Kind} {m : Lookahead} :
      l.fault = some e → Derives restricted r (l.tokens.map Token.kind ++ v) →
      Blames s r c q l (.lexical e) m
  | numeralTooLong {t : Token} {digits : Nat} {m : Lookahead} :
      t ∈ l.tokens → t.kind = .int →
      Numeral.maxDigits < (Numeral.digits t.text.toList).length →
      Blames s r c q l (.numeralTooLong digits) m
  | globalParameter {t : Token} {m : Lookahead} :
      t ∈ s.parameters l.tokens → isGlobalName t.text = true →
      Blames s r c q l (.globalParameter t) m

namespace Blames

variable {s s' : Spot} {r r' : Ebnf Nonterminal} {c c' : Prop} {q : Parser α} {l m m' : Lookahead}
  {e : ParseError}

theorem rejects {expected : List Kind} {t : Token} {w : List Token}
    (h : Blames s r c q l (.unexpected expected t) m) (hw : l.Reach w m) :
    Rejects q (w ++ [m.current]) := by
  cases h with
  | unexpected hw' _ _ _ hrejects => exact hw'.unique hw ▸ hrejects

/-- Whatever is read by the rule, the first token being what it is. -/
theorem rule_of_start (h : Blames s r c q l e m) (hr : Productive r')
    (hrule : ∀ w, Derives restricted r (l.current.kind :: w) →
      Derives restricted r' (l.current.kind :: w)) : Blames s r' c q l e m := by
  cases h with
  | @unexpected _ w _ _ hw hc hclean hder hrejects =>
    cases w with
    | nil =>
      obtain ⟨v, hv⟩ := hr
      exact .unexpected (v := v) hw hc hclean hv hrejects
    | cons t w =>
      obtain rfl := hw.current
      exact .unexpected hw hc hclean (hrule _ hder) hrejects
  | lexical hfault hder => exact .lexical hfault (hrule _ hder)
  | numeralTooLong ht hint hlong => exact .numeralTooLong ht hint hlong
  | globalParameter ht hdotted => exact .globalParameter ht hdotted

/-- A rule that holds of more rows, and a step that rejects more. -/
theorem imp {q' : Parser β} (h : Blames s r c q l e m)
    (hrule : ∀ w, Derives restricted r w → Derives restricted r' w) (hc : c' → c)
    (hq : ∀ w, Rejects q w → Rejects q' w) : Blames s r' c' q' l e m := by
  cases h with
  | unexpected hw hne hclean hder hrejects =>
    exact .unexpected hw (fun h => hne (hc h)) hclean (hrule _ hder) (hq _ hrejects)
  | lexical hfault hder => exact .lexical hfault (hrule _ hder)
  | numeralTooLong ht hint hlong => exact .numeralTooLong ht hint hlong
  | globalParameter ht hdotted => exact .globalParameter ht hdotted

/-- What is read after the expression does not matter for its errors. -/
theorem first {g : α → Parser β} (h : Blames s r c q l e m) (hr : Productive r') :
    Blames s (r ++ r') c (q >>= g) l e m := by
  obtain ⟨x, hx⟩ := hr
  cases h with
  | @unexpected _ w v _ hw hc hclean hder hrejects =>
    refine .unexpected (v := v ++ x) hw hc hclean ?_ ?_
    · exact (hder.append hx).congr (List.append_assoc _ _ _)
    · intro l₂ b m₂ hl₂ hfollows hok
      obtain ⟨a, m', ha, -⟩ := bind_eq_ok.mp hok
      exact hrejects l₂ a m' hl₂ hfollows ha
  | @lexical e v _ hfault hder =>
    exact .lexical (v := v ++ x) hfault ((hder.append hx).congr (List.append_assoc _ _ _))
  | numeralTooLong ht hint hlong => exact .numeralTooLong ht hint hlong
  | globalParameter ht hdotted => exact .globalParameter ht hdotted

/-- An error after a row that was used up. -/
theorem second {g : α → Parser β} {w : List Token} {a : α} (hw : l.Reach w m')
    (hcarries : Carries s s' w) (hder : Derives restricted r (w.map Token.kind))
    (hc : c → w ≠ []) (hq : Copies q w m'.current)
    (h : ∀ a, Blames s' r' False (g a) m' e m) : Blames s (r ++ r') c (q >>= g) l e m := by
  obtain ⟨hclean, rfl⟩ := hcarries
  cases h a with
  | @unexpected _ w' v _ hw' _ hclean' hder' _ =>
    refine .unexpected (v := v) (hw.append hw') ?_ (clean_append.mpr ⟨hclean, hclean'⟩) ?_ ?_
    · intro h happend
      exact hc h (List.append_eq_nil_iff.mp happend).1
    · exact (hder.append hder').congr (by simp)
    · rw [List.append_assoc]
      exact hq.bind_rejects hw'.head?_concat fun b => (h b).rejects hw'
  | @lexical e v _ hfault hder' =>
    refine .lexical (v := v) (hw.fault.symm.trans hfault) ?_
    exact (hder.append hder').congr (by simp [hw.tokens])
  | numeralTooLong ht hint hlong =>
    refine .numeralTooLong ?_ hint hlong
    rw [hw.tokens]
    exact List.mem_append_right w ht
  | globalParameter ht hdotted =>
    refine .globalParameter ?_ hdotted
    rw [hw.tokens, Spot.parameters_append]
    exact List.mem_append_right _ ht

end Blames

/-! ## Results -/

/-- Whether a result is that of a step that reads `r`: it succeeds after a row of `r` that is in
    order and leads from the spot `s` to the spot `s'`, with less than `k` tokens left, or else it
    fails with an error that `Blames` is about. -/
inductive Tracks (s s' : Spot) (r : Ebnf Nonterminal) (c : Prop) (k : Nat) (q : Parser α)
    (l : Lookahead) : Result ParseError Lookahead α → Prop where
  | ok {a : α} {w : List Token} {m : Lookahead} :
      l.Reach w m → Carries s s' w → Derives restricted r (w.map Token.kind) → m.size < k →
      Copies q w m.current → Tracks s s' r c k q l (.ok a m)
  | error {e : ParseError} {m : Lookahead} :
      Blames s r c q l e m → Tracks s s' r c k q l (.error e m)

namespace Tracks

variable {s s' s'' : Spot} {r r' : Ebnf Nonterminal} {c c' : Prop} {j k : Nat} {p q : Parser α}
  {f g : α → Parser β} {l : Lookahead} {res : Result ParseError Lookahead α}

theorem copies {a : α} {m : Lookahead} {w : List Token} (h : Tracks s s' r c k q l (.ok a m))
    (hw : l.Reach w m) : Copies q w m.current := by
  cases h with
  | ok hw' _ _ _ hcopies => exact hw'.unique hw ▸ hcopies

theorem rule (h : Tracks s s' r c k q l res)
    (hrule : ∀ w, Derives restricted r w → Derives restricted r' w) :
    Tracks s s' r' c k q l res := by
  cases h with
  | ok hw hcarries hder hsize hcopies => exact .ok hw hcarries (hrule _ hder) hsize hcopies
  | error h => exact .error (h.imp hrule id fun _ => id)

/-- A rule that holds of the rows that start with the current token. -/
theorem rule_of_start (h : Tracks s s' r c l.size q l res) (hr : Productive r')
    (hrule : ∀ w, Derives restricted r (l.current.kind :: w) →
      Derives restricted r' (l.current.kind :: w)) : Tracks s s' r' c l.size q l res := by
  cases h with
  | @ok _ w _ hw hcarries hder hsize hcopies =>
    cases w with
    | nil =>
      have := hw.size
      simp only [List.length_nil] at this
      omega
    | cons t w =>
      obtain rfl := hw.current
      exact .ok hw hcarries (hrule _ hder) hsize hcopies
  | error h => exact .error (h.rule_of_start hr hrule)

theorem mono (h : Tracks s s' r c k q l res) (hk : k ≤ j) (hc : c' → c) :
    Tracks s s' r c' j q l res := by
  cases h with
  | ok hw hcarries hder hsize hcopies =>
    exact .ok hw hcarries hder (Nat.lt_of_lt_of_le hsize hk) hcopies
  | error h => exact .error (h.imp (fun _ => id) hc fun _ => id)

/-- The rule of a symbol. -/
theorem symbol {x : Nonterminal} (h : Tracks s s' (restricted x) c k q l res) :
    Tracks s s' (.symbol x) c k q l res :=
  h.rule fun _ => .symbol

theorem inl (h : Tracks s s' r c k q l res) : Tracks s s' (r ||| r') c k q l res :=
  h.rule fun _ => .inl

theorem inr (h : Tracks s s' r c k q l res) : Tracks s s' (r' ||| r) c k q l res :=
  h.rule fun _ => .inr

theorem assoc {x : Ebnf Nonterminal} (h : Tracks s s' (r ++ (r' ++ x)) c k q l res) :
    Tracks s s' (r ++ r' ++ x) c k q l res :=
  h.rule fun _ => .assoc

/-- A step that makes something else of the same tokens. -/
theorem map {p' q' : Parser β} (h : Tracks s s' r c k q l (p l))
    (hok : ∀ {a m}, p l = .ok a m → ∃ b, p' l = .ok b m)
    (herror : ∀ {e m}, p l = .error e m → p' l = .error e m)
    (hq : ∀ {l b m}, q' l = .ok b m → ∃ a, q l = .ok a m) : Tracks s s' r c k q' l (p' l) := by
  cases hp : p l with
  | ok a m =>
    rw [hp] at h
    obtain ⟨b, hb⟩ := hok hp
    rw [hb]
    cases h with
    | ok hw hcarries hder hsize hcopies =>
      refine .ok hw hcarries hder hsize fun l₂ b m hl hfollows hok => ?_
      obtain ⟨a, ha⟩ := hq hok
      exact hcopies l₂ a m hl hfollows ha
  | error e m =>
    rw [hp] at h
    rw [herror hp]
    cases h with
    | error h =>
      refine .error (h.imp (fun _ => id) id fun w hrejects l₂ b m hl hfollows hok => ?_)
      obtain ⟨a, ha⟩ := hq hok
      exact hrejects l₂ a m hl hfollows ha

/-- What is made of the result of a step does not matter. -/
theorem bind_pure {f g : α → β} (h : Tracks s s' r c k q l (p l)) :
    Tracks s s' r c k (q >>= fun a => Pure.pure (g a)) l
      ((p >>= fun a => Pure.pure (f a)) l) := by
  refine h.map ?_ bind_of_error ?_
  · intro a m hok
    exact ⟨f a, bind_of_ok hok⟩
  · intro l₂ b m hok
    obtain ⟨a, m', ha, hpure⟩ := bind_eq_ok.mp hok
    obtain ⟨-, rfl⟩ := pure_eq_ok.mp hpure
    exact ⟨a, ha⟩

/-- Where no token is used up. -/
theorem done {a : α} (hr : Derives restricted r []) (hk : l.size < k)
    (hq : ∀ l a m, q l = .ok a m → m = l) : Tracks s s r c k q l (.ok a l) := by
  refine .ok (Lookahead.reach_nil.mpr rfl) (.nil s) hr hk fun l₂ b m _ _ hok => ?_
  exact ⟨[], Lookahead.reach_nil.mpr (hq l₂ b m hok), rfl⟩

theorem pure {a b : α} (hr : Derives restricted r []) (hk : l.size < k) :
    Tracks s s r c k (Pure.pure b) l ((Pure.pure a : Parser α) l) :=
  done hr hk fun _ _ _ hok => (pure_eq_ok.mp hok).2.symm

/-- A token that does not fit. -/
theorem unexpected {expected : List Kind} (hc : ¬ c) (hr : Productive r)
    (hq : Rejects q [l.current]) :
    Tracks s s' r c k q l ((throw (.unexpected expected l.current) : Parser α) l) := by
  obtain ⟨v, hv⟩ := hr
  exact .error (.unexpected (v := v) (Lookahead.reach_nil.mpr rfl) (fun h => absurd h hc)
    (clean_nil s) hv hq)

/-- One step after another. -/
theorem bind (hl : l.Closed) (hp : Tracks s s' r c' k q l (p l)) (hc : c → c' ∧ k ≤ l.size)
    (hr : Productive r')
    (hf : ∀ {a b m}, p l = .ok a m → m.Closed → m.size < k →
      Tracks s' s'' r' False j (g b) m (f a m)) :
    Tracks s s'' (r ++ r') c j (q >>= g) l ((p >>= f) l) := by
  generalize hres : p l = res at hp hf
  cases hp with
  | @ok a w m hw hcarries hder hsize hcopies =>
    rw [bind_of_ok hres]
    have htail {b : α} := hf (b := b) rfl (hl.of_reach hw) hsize
    -- a first step that uses nothing up does not leave less
    have hne : c → w ≠ [] := by
      rintro h rfl
      have hlength := hw.size
      have hle := (hc h).2
      simp only [List.length_nil] at hlength
      omega
    generalize f a m = res at htail
    cases res with
    | ok b m' =>
      cases htail (b := a) with
      | ok hw' hcarries' hder' hsize' _ =>
        refine .ok (hw.append hw') (hcarries.append hcarries') ?_ hsize' ?_
        · exact (hder.append hder').congr (by simp)
        · exact hcopies.bind hw'.head?_concat fun b => htail.copies hw'
    | error e m' =>
      refine .error (.second hw hcarries hder hne hcopies (a := a) fun b => ?_)
      cases htail (b := b) with
      | error h => exact h
  | @error e m h =>
    rw [bind_of_error hres]
    exact .error ((h.imp (fun _ => id) (fun h => (hc h).1) fun _ => id).first hr)

/-- A step that fails on other streams more often. -/
theorem or_fails {d : Prop} [Decidable d] {q' : Parser α} (h : Tracks s s' r c k q l (p l))
    (hq' : ∀ l a m, q' l ≠ .ok a m) : Tracks s s' r c k (if d then q' else q) l (p l) := by
  refine h.map (fun hok => ⟨_, hok⟩) id fun {l₂ b m} hok => ?_
  split at hok
  · exact absurd hok (hq' l₂ b m)
  · exact ⟨b, hok⟩

/-- A step that leaves a choice to the stream. -/
theorem of_family {P : ι → Prop} {d : Prop} {g : ι → Parser α} (i₀ : ι) (h₀ : P i₀)
    (h : ∀ i, P i → Tracks s s' r c k (g i) l res) (hd : d → c ∧ k ≤ l.size)
    (hq : ∀ w l₂ a m, w <+: l.tokens → w ≠ [] → (d → 2 ≤ w.length) → l₂.Closed →
      l₂.Follows w → q l₂ = .ok a m → ∃ i, P i ∧ g i l₂ = .ok a m) :
    Tracks s s' r c k q l res := by
  cases res with
  | ok a m =>
    cases h i₀ h₀ with
    | @ok _ w _ hw hcarries hder hsize _ =>
      refine .ok hw hcarries hder hsize fun l₂ b m₂ hl₂ hfollows hok => ?_
      -- a step that looks at two tokens has used one up
      have hlength : d → 2 ≤ (w ++ [m.current]).length := by
        intro h
        have := (hd h).2
        have := hw.size
        rw [List.length_append, List.length_singleton]
        omega
      obtain ⟨i, hi, hok⟩ := hq _ l₂ b m₂ hw.begins (by simp) hlength hl₂ hfollows hok
      exact (h i hi).copies hw l₂ b m₂ hl₂ hfollows hok
  | error e m =>
    cases h i₀ h₀ with
    | error hblames =>
      cases hblames with
      | @unexpected _ w _ _ hw hc hclean hder _ =>
        refine .error (.unexpected hw hc hclean hder fun l₂ b m₂ hl₂ hfollows hok => ?_)
        -- or else the token that does not fit is not the first one
        have hlength : d → 2 ≤ (w ++ [m.current]).length := by
          intro h
          have := List.length_pos_iff.mpr (hc (hd h).1)
          rw [List.length_append, List.length_singleton]
          omega
        obtain ⟨i, hi, hok⟩ := hq _ l₂ b m₂ hw.begins (by simp) hlength hl₂ hfollows hok
        cases h i hi with
        | error h => exact h.rejects hw l₂ b m₂ hl₂ hfollows hok
      | lexical hfault hder => exact .error (.lexical hfault hder)
      | numeralTooLong ht hint hlong => exact .error (.numeralTooLong ht hint hlong)
      | globalParameter ht hdotted => exact .error (.globalParameter ht hdotted)

/-- A step that looks at the kind of the current token. -/
theorem of_current (q' : Parser α) (h : Tracks s s' r c k q' l res)
    (hq : ∀ l₂, l₂.current.kind = l.current.kind → q l₂ = q' l₂) :
    Tracks s s' r c k q l res := by
  refine of_family (P := fun _ : Unit => True) (d := False) (g := fun _ => q') () trivial
    (fun _ _ => h) False.elim ?_
  intro w l₂ a m hw hne _ _ hfollows hok
  obtain ⟨t, w, rfl⟩ := List.exists_cons_of_ne_nil hne
  obtain ⟨rest, hrest⟩ := hw
  obtain rfl := (List.cons.inj hrest).1
  exact ⟨(), trivial, hq l₂ hfollows.current ▸ hok⟩

end Tracks

/-- An error of one step after another. -/
theorem Blames.bind {s s' : Spot} {r r' : Ebnf Nonterminal} {k : Nat} {p q : Parser α}
    {f g : α → Parser β} {l m : Lookahead} {e : ParseError} (hl : l.Closed)
    (h : (p >>= f) l = .error e m) (hp : Tracks s s' r False k q l (p l)) (hr : Productive r')
    (hf : ∀ {a b m'}, m'.Closed → m'.size < k → f a m' = .error e m →
      Blames s' r' False (g b) m' e m) : Blames s (r ++ r') False (q >>= g) l e m := by
  rcases bind_eq_error.mp h with herror | ⟨a, m', hok, herror⟩
  · rw [herror] at hp
    cases hp with
    | error h => exact h.first hr
  · rw [hok] at hp
    cases hp with
    | ok hw hcarries hder hsize hcopies =>
      exact .second (a := a) hw hcarries hder False.elim hcopies fun b =>
        hf (hl.of_reach hw) hsize herror

/-! ## Basic steps -/

section

variable {s s' s₁ : Spot} {r r₁ : Ebnf Nonterminal} {c : Prop} {j k : Nat} {l : Lookahead}

theorem tracks_current_bind {f g : Token → Parser α}
    (h : ∀ {t : Token}, t.kind = l.current.kind → Tracks s s' r c k (g t) l (f l.current l)) :
    Tracks s s' r c k (current >>= g) l ((current >>= f) l) := by
  refine .of_family (P := fun t : Token => t.kind = l.current.kind) (d := False) (g := g)
    l.current rfl (fun _ ht => h ht) False.elim ?_
  intro w l₂ a m hw hne _ _ hfollows hok
  obtain ⟨t, w, rfl⟩ := List.exists_cons_of_ne_nil hne
  obtain ⟨rest, hrest⟩ := hw
  obtain rfl := (List.cons.inj hrest).1
  exact ⟨l₂.current, hfollows.current, hok⟩

theorem tracks_currentKind_bind {f g : Kind → Parser α}
    (h : Tracks s s' r c k (g l.current.kind) l (f l.current.kind l)) :
    Tracks s s' r c k (currentKind >>= g) l ((currentKind >>= f) l) :=
  Tracks.of_current _ h fun _ hkind => hkind ▸ currentKind_bind

/-- A token cannot be used up where the next one cannot be read. -/
theorem advance_eq_error {e : ParseError} {m : Lookahead} (h : advance l = .error e m) :
    ∃ e', e = .lexical e' ∧ l.fault = some e' ∧ l.tokens = [l.current] := by
  unfold advance at h
  split at h
  · cases h
  · rename_i e' hrest hfault
    cases h
    exact ⟨e', rfl, hfault, congrArg (l.current :: ·) hrest⟩
  · cases h

theorem tracks_advance (hl : l.Closed) (hkind : l.current.kind ≠ .eof)
    (hcarries : Carries s s' [l.current]) :
    Tracks s s' (.token l.current.kind) c l.size advance l (advance l) := by
  cases hadvance : advance l with
  | ok _ m =>
    have hreach := reach_of_advance hl hkind hadvance
    refine .ok hreach hcarries (.token _) ?_ ?_
    · simp [hreach.size]
    · intro l₂ a m₂ hl₂ hfollows hok
      have hkind₂ : l₂.current.kind = l.current.kind := hfollows.current
      exact ⟨[l₂.current], reach_of_advance hl₂ (hkind₂ ▸ hkind) hok, by simp [hkind₂]⟩
  | error e m =>
    obtain ⟨e', rfl, hfault, htokens⟩ := advance_eq_error hadvance
    refine .error (.lexical (v := []) hfault ?_)
    rw [htokens]
    exact .token _

theorem tracks_consumeAny {kinds : List Kind} (hl : l.Closed) (heof : .eof ∉ kinds)
    (hr : Productive r) (hrule : ∀ k ∈ kinds, Derives restricted r [k])
    (hc : c → l.current.kind ∈ kinds)
    (hcarries : l.current.kind ∈ kinds → Carries s s' [l.current]) :
    Tracks s s' r c l.size (consumeAny kinds) l (consumeAny kinds l) := by
  by_cases hk : l.current.kind ∈ kinds
  · have hne : l.current.kind ≠ .eof := fun h => heof (h ▸ hk)
    have hcontains := List.contains_iff_mem.mpr hk
    have hadvance : Tracks s s' r c l.size advance l (advance l) :=
      (tracks_advance hl hne (hcarries hk)).rule fun w hw => Derives.token_iff.mp hw ▸ hrule _ hk
    refine hadvance.map ?_ ?_ ?_
    · intro _ m hok
      exact ⟨l.current, consumeAny_eq_ok.mpr ⟨rfl, hcontains, hok⟩⟩
    · intro e m herror
      rw [consumeAny, current_bind, if_pos hcontains]
      exact bind_of_error herror
    · intro l₂ t m hok
      exact ⟨(), (consumeAny_eq_ok.mp hok).2.2⟩
  · rw [consumeAny, current_bind, if_neg (mt List.contains_iff_mem.mp hk)]
    refine .unexpected (mt hc hk) hr fun l₂ t m _ hfollows hok => ?_
    obtain ⟨rfl, hcontains, -⟩ := consumeAny_eq_ok.mp hok
    exact hk (hfollows.current ▸ List.contains_iff_mem.mp hcontains)

theorem tracks_consume {kind : Kind} (hl : l.Closed) (heof : kind ≠ .eof)
    (hc : c → l.current.kind = kind)
    (hcarries : l.current.kind = kind → Carries s s' [l.current]) :
    Tracks s s' (.token kind) c l.size (consume kind) l (consume kind l) := by
  refine tracks_consumeAny hl (by simpa using heof.symm) (productive_token kind) ?_
    (fun h => List.mem_singleton.mpr (hc h)) fun h => hcarries (List.mem_singleton.mp h)
  intro k hk
  rw [List.mem_singleton.mp hk]
  exact .token kind

/-- A token of a kind, and what is read after it. -/
theorem tracks_consume_bind {kind : Kind} {f g : Token → Parser α} (hl : l.Closed)
    (heof : kind ≠ .eof) (hc : c → l.current.kind = kind)
    (hcarries : l.current.kind = kind → Carries s s₁ [l.current]) (hr : Productive r)
    (hf : ∀ {t t' m}, consume kind l = .ok t m → m.Closed → m.size < l.size →
      Tracks s₁ s' r False j (g t') m (f t m)) :
    Tracks s s' (.token kind ++ r) c j (consume kind >>= g) l ((consume kind >>= f) l) :=
  (tracks_consume hl heof hc hcarries).bind hl (fun h => ⟨h, Nat.le_refl _⟩) hr hf

/-- The end of the text is used up, or it is not the token that is there. -/
theorem blames_consume_eof {e : ParseError} {m : Lookahead} (h : consume .eof l = .error e m) :
    Blames s (.token .eof) False (consume .eof) l e m := by
  rw [consume, consumeAny, current_bind] at h
  split at h
  · rename_i hcontains
    have hkind : l.current.kind = .eof := List.mem_singleton.mp (List.contains_iff_mem.mp hcontains)
    rcases bind_eq_error.mp h with h | ⟨_, _, _, h⟩
    · obtain ⟨e', rfl, hfault, htokens⟩ := advance_eq_error h
      refine .lexical (v := []) hfault ?_
      rw [htokens, List.map_singleton, hkind]
      exact .token .eof
    · cases h
  · rename_i hcontains
    cases h
    refine .unexpected (v := [.eof]) (Lookahead.reach_nil.mpr rfl) False.elim (clean_nil s)
      (.token .eof) fun l₂ t m _ hfollows hok => ?_
    obtain ⟨rfl, hkind, -⟩ := consume_eq_ok.mp hok
    have hcurrent : l₂.current.kind = l.current.kind := hfollows.current
    exact hcontains (by rw [← hcurrent, hkind]; rfl)

theorem accept_bind_of_eq {f : Bool → Parser α} {kind : Kind} (hk : l.current.kind = kind) :
    (accept kind >>= f) l = (advance >>= fun _ => f true) l := by
  rw [accept, bind_assoc, currentKind_bind, if_pos hk, bind_assoc]
  rfl

theorem accept_bind_of_ne {f : Bool → Parser α} {kind : Kind} (hk : l.current.kind ≠ kind) :
    (accept kind >>= f) l = f false l := by
  rw [accept, bind_assoc, currentKind_bind, if_neg hk]
  rfl

/-- Two ways to go on, the first of them after a token of a kind. -/
theorem tracks_accept_bind {kind : Kind} {f g : Bool → Parser α} (r₁ : Ebnf Nonterminal)
    (hl : l.Closed) (heof : kind ≠ .eof) (hr : Productive r₁)
    (hrule : ∀ w, Derives restricted r₁ w → Derives restricted r (kind :: w))
    (hcarries : l.current.kind = kind → Carries s s₁ [l.current])
    (htrue : ∀ {m}, m.Closed → m.size < l.size →
      Tracks s₁ s' r₁ False j (g true) m (f true m))
    (hfalse : l.current.kind ≠ kind → Tracks s s' r c j (g false) l (f false l)) :
    Tracks s s' r c j (accept kind >>= g) l ((accept kind >>= f) l) := by
  by_cases hk : l.current.kind = kind
  · rw [accept_bind_of_eq hk]
    refine .of_current _ ?_ fun l₂ hkind => accept_bind_of_eq (hkind.trans hk)
    have hadvance := tracks_advance (c := c) hl (hk ▸ heof) (hcarries hk)
    have hbind := hadvance.bind (g := fun _ => g true) hl (fun h => ⟨h, Nat.le_refl _⟩) hr
      fun _ hm hlt => htrue hm hlt
    refine hbind.rule fun w hw => ?_
    obtain ⟨u, v, rfl, hu, hv⟩ := Derives.append_iff.mp hw
    rw [Derives.token_iff.mp hu, hk]
    exact hrule v hv
  · rw [accept_bind_of_ne hk]
    exact .of_current _ (hfalse hk) fun l₂ hkind => accept_bind_of_ne (hkind ▸ hk)

/-- A token of a kind that may be left out. -/
theorem tracks_accept {kind : Kind} (hl : l.Closed) (heof : kind ≠ .eof)
    (hcarries : l.current.kind = kind → Carries s s [l.current]) :
    Tracks s s (.opt (.token kind)) False (l.size + 1) (accept kind) l (accept kind l) := by
  by_cases hk : l.current.kind = kind
  · have hadvance := tracks_advance (c := False) hl (hk ▸ heof) (hcarries hk)
    rw [hk] at hadvance
    have haccept {l₂ : Lookahead} (hk : l₂.current.kind = kind) :
        accept kind l₂ = (advance >>= fun _ => pure true) l₂ := by
      rw [accept, currentKind_bind, if_pos hk]
    rw [haccept hk]
    refine .of_current (advance >>= fun _ => pure true) ?_ fun l₂ hkind => ?_
    · exact ((hadvance.mono (Nat.le_succ _) id).rule fun _ => .optSome).bind_pure
    · exact haccept (hkind.trans hk)
  · have haccept : accept kind l = .ok false l := by
      rw [accept, currentKind_bind, if_neg hk]
      rfl
    rw [haccept]
    refine .of_current (pure false) ?_ fun l₂ hkind => ?_
    · exact .pure .optNone (Nat.lt_succ_self _)
    · rw [accept, currentKind_bind, if_neg (hkind ▸ hk)]

/-- Two ways to go on, told by the token after a name. -/
theorem tracks_peek_bind {f g : Token → Parser α} (hl : l.Closed) (hk : l.current.kind = .ident)
    (hr : Derives restricted r [.ident])
    (h : ∀ {t t' : Token}, t'.kind = t.kind →
      Tracks s s' r (l.current.kind = .ident) l.size (g t') l (f t l)) :
    Tracks s s' r (l.current.kind = .ident) l.size (peek >>= g) l ((peek >>= f) l) := by
  have hne : l.current.kind ≠ .eof := by rw [hk]; decide
  cases hrest : l.rest with
  | nil =>
    cases hfault : l.fault with
    | none => exact absurd hrest (hl.rest_ne_nil hfault hne)
    | some e =>
      have hpeek : peek l = .error (.lexical e) l := by simp only [peek, hrest, hfault]
      rw [bind_of_error hpeek]
      refine .error (.lexical (v := []) hfault ?_)
      simpa [Lookahead.tokens, hrest, hk] using hr
  | cons t rest =>
    have hreach : l.Reach [l.current] ⟨l.asked + 1, t, rest, l.fault⟩ :=
      ⟨congrArg (l.current :: ·) hrest, rfl, rfl⟩
    rw [bind_of_ok (peek_of_reach hreach)]
    refine .of_family (P := fun t' : Token => t'.kind = t.kind) (d := True) (g := g)
      t rfl (fun _ ht => h ht) (fun _ => ⟨hk, Nat.le_refl _⟩) ?_
    intro w l₂ a m hw _ hlength hl₂ hfollows hok
    -- the row has a second token, which is the next one of the other stream
    obtain ⟨ts, htokens⟩ := hw
    rw [Lookahead.tokens, hrest] at htokens
    cases w with
    | nil => exact absurd (hlength trivial) (by simp)
    | cons t₁ w =>
      cases w with
      | nil => exact absurd (hlength trivial) (by simp)
      | cons t₂ w =>
        simp only [List.cons_append, List.cons.injEq] at htokens
        obtain ⟨rfl, rfl, -⟩ := htokens
        obtain ⟨t', m', hpeek, hok⟩ := bind_eq_ok.mp hok
        have hkind₂ : l₂.current.kind = l.current.kind := hfollows.current
        obtain ⟨rfl, m'', hreach₂, rfl⟩ := reach_of_peek hl₂ (hkind₂ ▸ hne) hpeek
        have hnext : m''.Follows (t₂ :: w) :=
          Lookahead.Follows.of_reach (u := [l.current]) hfollows hreach₂ (by simp [hkind₂])
        exact ⟨m''.current, hnext.current, hok⟩

end

end Parser

end VectorLang
