import VectorLang.Proofs.Grammar.Parameters
import VectorLang.Proofs.Grammar.Productive
import VectorLang.Proofs.Grammar.Readable
import VectorLang.Proofs.Printing.RoundTrip
import VectorLang.Proofs.Token.Prefix

/-!
# How the start of a text can go on

Tokens that begin a row of the grammar, and are in order so far, are the first ones of a program:
the text is cut after them, and goes on with the kinds that the grammar asks for.  A numeral is
spelt `0` there, a name `A`, and a string is empty.

* `Accepted`              the rows of tokens that are those of a program
* `accepted_of_derives`   every beginning of a row of the grammar can be completed
-/

namespace VectorLang

open Ebnf Grammar

/-- Whether tokens are those of a text that is a program. -/
def Accepted (ts : List Token) : Prop :=
  ∃ text file p, tokenize text = .ok ts ∧ parse text file = .ok p

/-! ## The end of the text -/

/-- Whether neither the end of the text nor a program occurs in an expression. -/
private def Ebnf.Inner : Ebnf Nonterminal → Prop
  | token k => k ≠ .eof
  | symbol s => s ≠ .program
  | seq a b | alt a b => a.Inner ∧ b.Inner
  | many a | opt a | guarded _ a => a.Inner

private theorem inner_append {a b : Ebnf Nonterminal} :
    (a ++ b).Inner ↔ a.Inner ∧ b.Inner := Iff.rfl

private theorem inner_or {a b : Ebnf Nonterminal} :
    (a ||| b).Inner ↔ a.Inner ∧ b.Inner := Iff.rfl

/-- In no rule but that of a program does the end of the text occur. -/
private theorem inner_of_rule {s : Nonterminal} (hs : s ≠ .program) : (restricted s).Inner := by
  cases s with
  | program => exact absurd rfl hs
  | statement functions =>
    cases functions <;> simp [restricted, documented, inner_or, Ebnf.Inner]
  | _ =>
    simp [restricted, documented, commaSeparated, relation, inner_append, inner_or, Ebnf.Inner]

private theorem ne_eof_of_inner {r : Ebnf Nonterminal} {w : List Kind}
    (h : Derives restricted r w) (hr : r.Inner) : Kind.eof ∉ w := by
  induction h with
  | token k => simpa using hr.symm
  | symbol _ ih => exact ih (inner_of_rule hr)
  | seq _ _ ihu ihv => simpa using ⟨ihu hr.1, ihv hr.2⟩
  | altLeft _ ih => exact ih hr.1
  | altRight _ ih => exact ih hr.2
  | manyNil | optNone => simp
  | manyCons _ _ ihu ihv => simpa using ⟨ihu hr, ihv hr⟩
  | optSome _ ih => exact ih hr
  | guarded _ _ ih => exact ih hr

/-- The end of the text is the last token of a program, and no other. -/
theorem Derives.eof_last {w : List Kind} (h : Derives restricted (.symbol .program) w) :
    ∃ v, w = v ++ [.eof] ∧ Kind.eof ∉ v := by
  obtain ⟨v, x, rfl, hv, hx⟩ := Derives.append_iff.mp (Derives.symbol_iff.mp h)
  rw [Derives.token_iff.mp hx]
  refine ⟨v, rfl, ne_eof_of_inner hv ?_⟩
  simp [inner_append, Ebnf.Inner]

/-! ## Samples -/

/-- The lexeme of a kind that a text is completed with. -/
def Kind.sample : Kind → Lexeme
  | int => ⟨.int, "0"⟩
  | ident => ⟨.ident, "A"⟩
  | k => k.lexeme

@[simp] theorem Kind.kind_sample (k : Kind) : k.sample.kind = k := by
  cases k <;> rfl

theorem Kind.valid_sample {k : Kind} (hk : k ≠ .eof) : k.sample.Valid := by
  cases k with
  | int => exact (rfl : isNumeral "0".toList = true)
  | ident => exact ⟨rfl, rfl⟩
  | string => exact (by simp [spelling] : '"' ∉ (String.ofList Kind.string.spelling).toList)
  | eof => exact absurd rfl hk
  | _ => exact Kind.valid_lexeme (by decide)

/-- Samples are in order everywhere. -/
private theorem clean_of_samples {s : Spot} {ts : List Token}
    (h : ∀ t ∈ ts, t.kind ≠ .eof → t.lexeme = t.kind.sample) : Clean s ts := by
  constructor
  · intro t ht hint
    have hlexeme := h t ht (by simp [hint])
    rw [hint] at hlexeme
    have htext : t.text = "0" := congrArg Lexeme.text hlexeme
    rw [htext]
    decide
  · intro t ht
    obtain ⟨hmem, hident⟩ := Spot.mem_parameters ht
    have hlexeme := h t hmem (by simp [hident])
    rw [hident] at hlexeme
    have htext : t.text = "A" := congrArg Lexeme.text hlexeme
    rw [htext]
    rfl

/-- Tokens that are in order, and samples after them, are read as a program if they are derived. -/
private theorem reads_of_samples (src : Source) {w ts : List Token} (hclean : Clean .body w)
    (hts : ∀ t ∈ ts, t.kind ≠ .eof → t.lexeme = t.kind.sample)
    (hder : Derives restricted (.symbol .program) ((w ++ ts).map Token.kind)) :
    ∃ p, ReadsProgram src p (w ++ ts) :=
  reads_of_derives hder
    (admissible_iff_clean.mpr (clean_append.mpr ⟨hclean, clean_of_samples hts⟩))

/-! ## Completion -/

theorem Separated.right {last : Option Kind} {w : List Token} {ks : List Kind}
    (h : Separated last (w.map Token.kind ++ ks)) : Separated (kindAfter last w) ks := by
  induction w generalizing last with
  | nil => exact h
  | cons t w ih => exact ih h.2

/-- The first tokens of a text, with other lexemes after them. -/
theorem tokenize_continued {text : String} {w rest : List Token} {ls : List Lexeme}
    (h : (TokenStream.ofText text).tokens = w ++ rest) (hw : ∀ t ∈ w, t.kind ≠ .eof)
    (hls : Spelt ls) (hlines : Separated (kindAfter none w) (ls.map Lexeme.kind)) :
    ∃ text' ts eof, tokenize text' = .ok (w ++ (ts ++ [eof])) ∧ ts.map Token.lexeme = ls ∧
      eof.kind = .eof := by
  have hp : (Cursor.ofText text).position.IsAfter [] := Position.isAfter_start
  obtain ⟨cs, p, -, hcs⟩ := scanAll_begins hp h hw
  -- a blank closes the last token
  have hspells : Spells (kindAfter none w) ls ([' '] ++ layout ls) :=
    spells_layout hls hlines (.blank rfl .nil)
  obtain ⟨ts, eof, hscan, hts, heof⟩ := scanAll_of_spells hspells p
  have hall := hcs ([' '] ++ layout ls) rfl
  rw [hscan] at hall
  refine ⟨String.ofList (cs ++ ([' '] ++ layout ls)), ts, eof, tokenize_eq_ok_iff.mpr ?_, hts, heof⟩
  rw [TokenStream.ofText, Cursor.ofText, String.toList_ofList]
  exact hall

/-- What a row of the grammar is completed with ends with the end of the text, and there only. -/
private theorem eof_last_of_append {u v : List Kind} (hu : Kind.eof ∉ u)
    (h : Derives restricted (.symbol .program) (u ++ v)) :
    ∃ x, v = x ++ [.eof] ∧ Kind.eof ∉ x := by
  obtain ⟨ks, hks, hno⟩ := h.eof_last
  rcases List.eq_nil_or_concat v with rfl | ⟨x, k, rfl⟩
  · rw [List.append_nil] at hks
    exact absurd (hks ▸ List.mem_append_right ks List.mem_cons_self) hu
  · rw [List.concat_eq_append, ← List.append_assoc] at hks
    obtain ⟨rfl, hk⟩ := List.append_inj' hks rfl
    obtain rfl := (List.cons.inj hk).1
    exact ⟨x, List.concat_eq_append, fun hmem => hno (List.mem_append_right _ hmem)⟩

/-- The newlines that a row is completed with are apart, whatever the places of the tokens are. -/
private theorem separated_of_derives {w : List Token} {x : List Kind} (hclean : Clean .body w)
    (hder : Derives restricted (.symbol .program) (w.map Token.kind ++ (x ++ [.eof]))) :
    Separated (kindAfter none w) x := by
  have hsample : ∀ t ∈ (x ++ [Kind.eof]).map fun k => k.sample.token, t.kind ≠ .eof →
      t.lexeme = t.kind.sample := by
    intro t ht _
    obtain ⟨k, -, rfl⟩ := List.mem_map.mp ht
    rw [Lexeme.kind_token, Kind.kind_sample]
    rfl
  obtain ⟨p, hreads⟩ := reads_of_samples Source.blank hclean hsample
    (by simpa [Function.comp_def] using hder)
  have hseparated := hreads.separated
  simp only [List.map_append, List.map_map, Function.comp_def, Lexeme.kind_token,
    Kind.kind_sample, List.map_id'] at hseparated
  exact (Separated.right hseparated).of_append

/-- Tokens that are spelt as samples, and the end of the text. -/
private theorem lexeme_of_samples {ts : List Token} {eof : Token} {x : List Kind}
    (hts : ts.map Token.lexeme = x.map Kind.sample) (heof : eof.kind = .eof) :
    ∀ t ∈ ts ++ [eof], t.kind ≠ .eof → t.lexeme = t.kind.sample := by
  intro t ht hne
  rcases List.mem_append.mp ht with ht | ht
  · have hlexeme : t.lexeme ∈ x.map Kind.sample := hts ▸ List.mem_map_of_mem ht
    obtain ⟨k, -, hk⟩ := List.mem_map.mp hlexeme
    have hkind : k = t.kind := (Kind.kind_sample k).symm.trans (congrArg Lexeme.kind hk)
    rw [← hk, hkind]
  · rw [List.mem_singleton.mp ht] at hne
    exact absurd heof hne

/-- Tokens that begin a row of the grammar, and are in order, are the first ones of a program, with
    the rest of the row after them. -/
theorem accepted_of_derives {text : String} {w rest : List Token} {v : List Kind}
    (h : (TokenStream.ofText text).tokens = w ++ rest) (hw : ∀ t ∈ w, t.kind ≠ .eof)
    (hclean : Clean .body w)
    (hder : Derives restricted (.symbol .program) (w.map Token.kind ++ v)) :
    ∃ ts, Accepted ts ∧ w <+: ts ∧ ts.map Token.kind = w.map Token.kind ++ v := by
  have hnoeof : Kind.eof ∉ w.map Token.kind := by
    intro hmem
    obtain ⟨t, ht, hkind⟩ := List.mem_map.mp hmem
    exact hw t ht hkind
  obtain ⟨x, rfl, hx⟩ := eof_last_of_append hnoeof hder
  have hspelt : Spelt (x.map Kind.sample) := by
    intro l hl
    obtain ⟨k, hk, rfl⟩ := List.mem_map.mp hl
    exact Kind.valid_sample fun heof => hx (heof ▸ hk)
  have hkinds : (x.map Kind.sample).map Lexeme.kind = x := by
    simp [Function.comp_def]
  obtain ⟨text', ts, eof, htext, hts, heof⟩ :=
    tokenize_continued h hw hspelt (hkinds.symm ▸ separated_of_derives hclean hder)
  have htskinds : ts.map Token.kind = x := by
    have hmap := congrArg (List.map Lexeme.kind) hts
    rwa [hkinds, List.map_map] at hmap
  have hall : (w ++ (ts ++ [eof])).map Token.kind = w.map Token.kind ++ (x ++ [.eof]) := by
    rw [List.map_append, List.map_append, htskinds, List.map_singleton, heof]
  -- the text that the tokens come from is a program, since its tokens are a row of the grammar
  obtain ⟨p, hreads⟩ := reads_of_samples (Source.ofText "" text') hclean
    (lexeme_of_samples hts heof) (hall.symm ▸ hder)
  exact ⟨_, ⟨text', "", p, htext, parse_eq_ok_iff.mpr ⟨_, htext, hreads⟩⟩,
    List.prefix_append _ _, hall⟩

end VectorLang
