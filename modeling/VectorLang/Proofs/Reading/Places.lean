import Mathlib
import VectorLang.Proofs.Reading.Shape

/-!
# Where the nodes of a program stand

Every node of a program stands where a token of its text stands, and that token fits the node: it is
the numeral, the name or the operator that the node is made from, the key word that it starts with,
or the first token of the stretch that it is read from.

* `Reads.everywhere`          the nodes of an expression
* `ReadsClause.everywhere`    the nodes of a statement
* `ReadsProgram.everywhere`   the nodes of a program
* `nodes_at_tokens`           those of a whole text, with the marks of global names
-/

namespace VectorLang

namespace Node

/-! ## All nodes of a tree -/

/-- The nodes right below a node, with the comparison of a condition as one of them. -/
def branches : Node → List Node
  | conditional _ test thenBody elseBody => predicate test :: (thenBody ++ elseBody)
  | loop _ _ test body => predicate test :: body
  | program _ _ block => [function block]
  | n => n.children

/-- Whether a node is another one or stands somewhere below it. -/
inductive Includes : Node → Node → Prop where
  | refl (n : Node) : Includes n n
  | step {n c m : Node} : c ∈ n.branches → Includes c m → Includes n m

/-- Whether something holds of a node and of all nodes below it. -/
def Everywhere (P : Node → Prop) (n : Node) : Prop :=
  ∀ m, n.Includes m → P m

variable {P Q : Node → Prop} {n : Node}

theorem Everywhere.of_branches (hn : P n) (h : ∀ c ∈ n.branches, c.Everywhere P) :
    n.Everywhere P := by
  intro m hm
  cases hm with
  | refl => exact hn
  | step hc hm => exact h _ hc m hm

theorem Everywhere.mono (h : n.Everywhere P) (himp : ∀ m, P m → Q m) : n.Everywhere Q :=
  fun m hm => himp m (h m hm)

/-! ## Tokens of nodes -/

/-- Whether a token of the row `ts` is the one that a node is known by. -/
def Fits (src : Source) (ts : List Token) (t : Token) : Node → Prop
  | int _ value => t.kind = .int ∧ Numeral.value t.text.toList = value
  | string _ value => t.kind = .string ∧ t.text = value
  | var _ _ name _ | call _ _ name _ | assign _ _ name _ => t.kind = .ident ∧ t.text = name
  | unary _ op _ => unaryOp? t.kind = some op
  | binary _ op _ _ => sumOp? t.kind = some op ∨ productOp? t.kind = some op
  | conditional .. => t.kind = .kwIf
  | loop _ whileTrue _ _ => t.kind = if whileTrue then .kwWhile else .kwUntil
  | function _ | program .. => t.kind = .kwBegin
  -- the stretch of tokens that the node is read from
  | vector location elements =>
    ∃ w, t :: w <:+: ts ∧ Reads src (.vector (vector location elements)) (t :: w)
  | predicate test => ∃ w, t :: w <:+: ts ∧ ReadsComparison src test (t :: w)
  | output location value => ∃ functions w, t :: w <:+: ts ∧
    ReadsClause src (.statement functions (output location value)) (t :: w)

/-- Whether a node stands where a token stands that fits it. -/
def Placed (src : Source) (ts : List Token) (n : Node) : Prop :=
  ∃ t ∈ ts, n.location = src.locate t ∧ n.Fits src ts t

/-- The mark of a name as global, with the name. -/
def mark? : Node → Option (Bool × String)
  | var _ isGlobal name _ | call _ isGlobal name _ | assign _ isGlobal name _ =>
    some (isGlobal, name)
  | function d => some (d.isGlobal, d.name)
  | _ => none

/-- Whether a node stands where a token stands that fits it, and a name of it is marked as global if
    it starts with a dot. -/
structure Stands (src : Source) (ts : List Token) (n : Node) : Prop where
  placed : n.Placed src ts
  marked {isGlobal : Bool} {name : String} :
    n.mark? = some (isGlobal, name) → isGlobal = isGlobalName name

variable {src : Source} {ts : List Token}

theorem Stands.of_unmarked (h : n.Placed src ts) (hmark : n.mark? = none) : n.Stands src ts where
  placed := h
  marked hsome := by
    rw [hmark] at hsome
    cases hsome

theorem Stands.of_name {name : String} (h : n.Placed src ts)
    (hmark : n.mark? = some (isGlobalName name, name)) : n.Stands src ts where
  placed := h
  marked hsome := by
    rw [hmark] at hsome
    cases hsome
    rfl

end Node

/-! ## Expressions -/

/-- Whether something holds of the trees of a phrase, if it holds of what is read before it. -/
def Phrase.All (P : Node → Prop) : Phrase → Prop
  | expression e | term e | factor e | vector e | atom e | call e => P e
  | sums left e | products left e => P left → P e
  | elements es | arguments es => ∀ e ∈ es, P e

section

variable {src : Source} {ts : List Token}

/-- A row of tokens starts with a token of it. -/
private theorem mem_of_infix {t : Token} {w : List Token} (h : t :: w <:+: ts) : t ∈ ts :=
  h.subset List.mem_cons_self

/-- The value of a numeral that is not too long. -/
private theorem value_of_read {cs : List Char} {value : Int} (h : Numeral.read cs = .ok value) :
    Numeral.value cs = value := by
  unfold Numeral.read at h
  split at h
  · exact Except.ok.inj h
  · cases h

private theorem everywhere_unary {t : Token} {w : List Token} {op : UnaryOp} {operand : Node}
    (hw : t :: w <:+: ts) (hop : unaryOp? t.kind = some op)
    (h : operand.Everywhere (Node.Stands src ts)) :
    (Node.unary (src.locate t) op operand).Everywhere (Node.Stands src ts) :=
  .of_branches (.of_unmarked ⟨t, mem_of_infix hw, rfl, hop⟩ rfl) (List.forall_mem_singleton.mpr h)

private theorem everywhere_binary {t : Token} {w : List Token} {op : Arithmetic}
    {left right : Node} (hw : t :: w <:+: ts)
    (hop : sumOp? t.kind = some op ∨ productOp? t.kind = some op)
    (hleft : left.Everywhere (Node.Stands src ts))
    (hright : right.Everywhere (Node.Stands src ts)) :
    (Node.binary (src.locate t) op left right).Everywhere (Node.Stands src ts) := by
  refine .of_branches (.of_unmarked ⟨t, mem_of_infix hw, rfl, hop⟩ rfl) ?_
  simp only [Node.branches, Node.children, List.forall_mem_cons]
  exact ⟨hleft, hright, List.forall_mem_nil _⟩

/-- The nodes of an expression in a row of tokens stand at tokens of it. -/
theorem Reads.everywhere {phrase : Phrase} {w : List Token} (h : Reads src phrase w)
    (hw : w <:+: ts) : phrase.All (Node.Everywhere (Node.Stands src ts)) := by
  induction h with
  | @expression left e u v _ _ ihterm ihsums =>
    exact ihsums ((List.suffix_append u v).isInfix.trans hw)
      (ihterm ((List.prefix_append u v).isInfix.trans hw))
  | @term left e u v _ _ ihfactor ihproducts =>
    exact ihproducts ((List.suffix_append u v).isInfix.trans hw)
      (ihfactor ((List.prefix_append u v).isInfix.trans hw))
  | sumsNil => exact id
  | productsNil => exact id
  | @sumsCons left right e op t u v hop _ _ ihright ih =>
    intro hleft
    refine ih (.trans ⟨t :: u, [], by simp⟩ hw) ?_
    exact everywhere_binary hw (Or.inl hop) hleft (ihright (.trans ⟨[t], v, rfl⟩ hw))
  | @productsCons left right e op t u v hop _ _ ihright ih =>
    intro hleft
    refine ih (.trans ⟨t :: u, [], by simp⟩ hw) ?_
    exact everywhere_binary hw (Or.inr hop) hleft (ihright (.trans ⟨[t], v, rfl⟩ hw))
  | @unary operand op t w hop _ ih =>
    exact everywhere_unary hw hop (ih ((List.suffix_cons t w).isInfix.trans hw))
  | @paren e opening closing w _ _ _ ih => exact ih (.trans ⟨[opening], [closing], rfl⟩ hw)
  | bare _ _ _ ih => exact ih hw
  | @vector e es t w hes ih =>
    exact .of_branches (.of_unmarked ⟨t, mem_of_infix hw, rfl, w, hw, .vector hes⟩ rfl) (ih hw)
  | elementsNil => exact List.forall_mem_nil _
  | @elementsAtom e es u v _ _ ihatom ih =>
    exact List.forall_mem_cons.mpr ⟨ihatom ((List.prefix_append u v).isInfix.trans hw),
      ih ((List.suffix_append u v).isInfix.trans hw)⟩
  | @elementsName es t v ht _ _ ih =>
    refine List.forall_mem_cons.mpr ⟨.of_branches ?_ (List.forall_mem_nil _), ?_⟩
    · exact .of_name ⟨t, mem_of_infix hw, rfl, ht, rfl⟩ rfl
    · exact ih ((List.suffix_cons t v).isInfix.trans hw)
  | @elementsParen e es opening closing u v _ _ _ _ ihexpression ih =>
    exact List.forall_mem_cons.mpr ⟨ihexpression (.trans ⟨[opening], closing :: v, rfl⟩ hw),
      ih (.trans ⟨opening :: (u ++ [closing]), [], by simp⟩ hw)⟩
  | @elementsUnary operand op t w hop _ ih =>
    exact List.forall_mem_cons.mpr
      ⟨everywhere_unary hw hop (ih ((List.suffix_cons t w).isInfix.trans hw)), by simp⟩
  | @int t value ht hvalue =>
    exact .of_branches (.of_unmarked ⟨t, mem_of_infix hw, rfl, ht, value_of_read hvalue⟩ rfl)
      (List.forall_mem_nil _)
  | @string t ht =>
    exact .of_branches (.of_unmarked ⟨t, mem_of_infix hw, rfl, ht, rfl⟩ rfl) (List.forall_mem_nil _)
  | @subscript e t opening closing w ht _ _ _ ih =>
    refine .of_branches (.of_name ⟨t, mem_of_infix hw, rfl, ht, rfl⟩ rfl) ?_
    exact List.forall_mem_singleton.mpr (ih (.trans ⟨[t, opening], [closing], rfl⟩ hw))
  | callAtom _ ih => exact ih hw
  | @callNone t opening closing ht _ _ =>
    exact .of_branches (.of_name ⟨t, mem_of_infix hw, rfl, ht, rfl⟩ rfl) (List.forall_mem_nil _)
  | @callSome es t opening closing w ht _ _ _ ih =>
    exact .of_branches (.of_name ⟨t, mem_of_infix hw, rfl, ht, rfl⟩ rfl)
      (ih (.trans ⟨[t, opening], [closing], rfl⟩ hw))
  | argumentsOne _ ih => exact List.forall_mem_singleton.mpr (ih hw)
  | @argumentsMore e es comma u v _ _ _ ihexpression ih =>
    exact List.forall_mem_cons.mpr ⟨ihexpression ((List.prefix_append u _).isInfix.trans hw),
      ih (.trans ⟨u ++ [comma], [], by simp⟩ hw)⟩

/-- The comparison of a condition stands at its first token. -/
theorem ReadsComparison.everywhere {test : Comparison Node} {w : List Token}
    (h : ReadsComparison src test w) (hw : w <:+: ts) :
    (Node.predicate test).Everywhere (Node.Stands src ts) := by
  cases h with
  | @mk left right t op u v hleft hop hright =>
    refine .of_branches ?_ ?_
    · exact .of_unmarked ⟨t, mem_of_infix hw, rfl, _, hw, .mk hleft hop hright⟩ rfl
    · simp only [Node.branches, Node.children, List.forall_mem_cons]
      exact ⟨hleft.everywhere (.trans ⟨[], op :: v, by simp⟩ hw),
        hright.everywhere (.trans ⟨t :: (u ++ [op]), [], by simp⟩ hw), by simp⟩

/-! ## Statements -/

/-- Whether something holds of the trees of a clause. -/
def Clause.All (P : Node → Prop) : Clause → Prop
  | statement _ n => P n
  | statements _ ns => ∀ n ∈ ns, P n

/-- The nodes of a statement in a row of tokens stand at tokens of it. -/
theorem ReadsClause.everywhere {clause : Clause} {w : List Token} (h : ReadsClause src clause w)
    (hw : w <:+: ts) : clause.All (Node.Everywhere (Node.Stands src ts)) := by
  induction h with
  | @function params body kw name newline closing u v hkw _ _ _ _ _ ih =>
    refine .of_branches (.of_name ⟨kw, mem_of_infix hw, rfl, hkw⟩ rfl) ?_
    exact ih (.trans ⟨kw :: name :: (u ++ [newline]), [closing], by simp⟩ hw)
  | @loop functions test body kw newline closing u v hkw htest _ _ _ ih =>
    refine .of_branches (.of_unmarked ⟨kw, mem_of_infix hw, rfl, ?_⟩ rfl) ?_
    · rcases hkw with hkw | hkw <;> simp [Node.Fits, hkw]
    · exact List.forall_mem_cons.mpr ⟨htest.everywhere (.trans ⟨[kw], _, rfl⟩ hw),
        ih (.trans ⟨kw :: (u ++ [newline]), [closing], by simp⟩ hw)⟩
  | @ifThen functions test thenBody kw newline closing u v hkw htest _ _ _ ih =>
    refine .of_branches (.of_unmarked ⟨kw, mem_of_infix hw, rfl, hkw⟩ rfl) ?_
    simp only [Node.branches, List.append_nil]
    exact List.forall_mem_cons.mpr ⟨htest.everywhere (.trans ⟨[kw], _, rfl⟩ hw),
      ih (.trans ⟨kw :: (u ++ [newline]), [closing], by simp⟩ hw)⟩
  | @ifThenElse functions test thenBody elseBody kw newline kwElse newline' closing u v w hkw htest
      _ _ _ _ _ _ ihthen ihelse =>
    refine .of_branches (.of_unmarked ⟨kw, mem_of_infix hw, rfl, hkw⟩ rfl) ?_
    simp only [Node.branches, List.forall_mem_cons, List.forall_mem_append]
    exact ⟨htest.everywhere (.trans ⟨[kw], _, rfl⟩ hw),
      ihthen (.trans ⟨kw :: (u ++ [newline]), kwElse :: newline' :: (w ++ [closing]), by simp⟩ hw),
      ihelse (.trans ⟨kw :: (u ++ newline :: (v ++ [kwElse, newline'])), [closing], by simp⟩ hw)⟩
  | @assign functions e t arrow w ht _ hvalue =>
    refine .of_branches (.of_name ⟨t, mem_of_infix hw, rfl, ht, rfl⟩ rfl) ?_
    exact List.forall_mem_singleton.mpr (hvalue.everywhere (.trans ⟨[t, arrow], [], by simp⟩ hw))
  | @erase functions t arrow ht _ =>
    exact .of_branches (.of_name ⟨t, mem_of_infix hw, rfl, ht, rfl⟩ rfl) (List.forall_mem_nil _)
  | @callOutput functions e t w hcall =>
    refine .of_branches (.of_unmarked ⟨t, mem_of_infix hw, rfl, functions, w, hw, ?_⟩ rfl) ?_
    · exact .callOutput hcall
    · exact List.forall_mem_singleton.mpr (hcall.everywhere hw)
  | @output functions e t w hvalue hcall =>
    refine .of_branches (.of_unmarked ⟨t, mem_of_infix hw, rfl, functions, w, hw, ?_⟩ rfl) ?_
    · exact .output hvalue hcall
    · exact List.forall_mem_singleton.mpr (hvalue.everywhere hw)
  | @one functions n newline w _ _ ih =>
    exact List.forall_mem_singleton.mpr (ih ((List.prefix_append w _).isInfix.trans hw))
  | @more functions n ns newline u v _ _ _ ihone ih =>
    exact List.forall_mem_cons.mpr ⟨ihone ((List.prefix_append u _).isInfix.trans hw),
      ih (.trans ⟨u ++ [newline], [], by simp⟩ hw)⟩

/-! ## Programs -/

/-- The node that a whole program is. -/
def Program.node (p : Program) : Node :=
  .program p.location p.name p.block

/-- The nodes of a program stand at tokens of its text, and the names below the block of the program
    have the marks that belong to them. -/
theorem ReadsProgram.everywhere {p : Program} (h : ReadsProgram src p ts) :
    p.node.Everywhere (Node.Placed src ts) ∧ p.block.isGlobal = false ∧
      ∀ s ∈ p.block.body, s.Everywhere (Node.Stands src ts) := by
  cases h with
  | @mk body kw name newline closing eof w rest hkw _ _ hbody _ _ _ _ =>
    have hw : w <:+: kw :: name :: newline :: (w ++ closing :: (rest ++ [eof])) :=
      ⟨[kw, name, newline], closing :: (rest ++ [eof]), by simp⟩
    have hstands := hbody.everywhere hw
    refine ⟨.of_branches ?_ (List.forall_mem_singleton.mpr (.of_branches ?_ ?_)), rfl, hstands⟩
    · exact ⟨kw, List.mem_cons_self, rfl, hkw⟩
    · exact ⟨kw, List.mem_cons_self, rfl, hkw⟩
    · exact fun s hs => (hstands s hs).mono fun m hm => hm.placed

end

/-- Every node of a program that is read from a text has the line and column of a token of the text
    that fits it, and all names but that of the block are marked as global if they start with a
    dot. -/
theorem nodes_at_tokens {text file : String} {p : Program} (h : parse text file = .ok p) :
    ∃ ts, tokenize text = .ok ts ∧
      (∀ n, p.node.Includes n → ∃ t ∈ ts, n.location.line = t.line ∧
        n.location.column = t.column ∧ n.Fits (Source.ofText file text) ts t) ∧
      p.block.isGlobal = false ∧
      ∀ s ∈ p.block.body, ∀ n, s.Includes n → ∀ isGlobal name,
        n.mark? = some (isGlobal, name) → isGlobal = isGlobalName name := by
  obtain ⟨ts, htokens, hreads⟩ := parse_eq_ok_iff.mp h
  obtain ⟨hplaced, hblock, hstands⟩ := hreads.everywhere
  refine ⟨ts, htokens, ?_, hblock, ?_⟩
  · intro n hn
    obtain ⟨t, ht, hlocation, hfits⟩ := hplaced n hn
    exact ⟨t, ht, by rw [hlocation]; rfl, by rw [hlocation]; rfl, hfits⟩
  · intro s hs n hn isGlobal name
    exact (hstands s hs n hn).marked

/-- The divisor of a program that divides by zero stands at the third numeral of the text. -/
theorem nodes_at_tokens_divider :
    ∃ ts, tokenize "BEGIN P\n.G <- 1\nX <- .G / 0\nEND" = .ok ts ∧
      ∃ t ∈ ts, t.line = 3 ∧ t.column = 11 ∧ t.kind = .int ∧ Numeral.value t.text.toList = 0 := by
  obtain ⟨ts, htokens, hplaces, -⟩ := nodes_at_tokens parse_divider
  let divide (column : Nat) : Location := ⟨"", 3, column, "X <- .G / 0"⟩
  -- the block, its second statement, the value of that, and the right operand
  have hnode : divider.node.Includes (.int (divide 11) 0) :=
    .step (.head _) (.step (.tail _ (.head _)) (.step (.head _) (.step (.tail _ (.head _))
      (.step (.head _) (.refl _)))))
  obtain ⟨t, ht, hline, hcolumn, hkind, hvalue⟩ := hplaces _ hnode
  exact ⟨ts, htokens, t, ht, hline.symm, hcolumn.symm, hkind, hvalue⟩

end VectorLang
