import Mathlib
import VectorLang.Proofs.Reading.Places
import VectorLang.Proofs.Text.Lines
import VectorLang.Proofs.Token.Tiling

/-!
# The source line of a node

A location quotes the line of the text that has the number of the token's row.  Rows are counted by
newlines and lines by all line ends, so that this is the row of the token as long as no other line
end stands before it.  Behind one an earlier line is quoted.

* `exists_row`          the row that a place of a text stands in
* `statement_locate`    the line that a token's location quotes
* `statement_of_node`   the line that the location of a node of a program quotes
-/

namespace VectorLang

open Text

/-! ## Rows -/

private theorem newline_of_mem_dropWhile {cs : List Char} :
    ∀ c ∈ (cs.dropWhile (· != '\n')).head?, c = '\n' := by
  intro c hc
  have := List.head?_dropWhile_not (· != '\n') cs
  rw [hc] at this
  simpa using this

private theorem newline_notMem_takeWhile (cs : List Char) : '\n' ∉ cs.takeWhile (· != '\n') := by
  intro h
  simpa using List.mem_takeWhile_imp h

/-- A place before a character that is no newline stands in a row. -/
theorem exists_row (place rest : List Char) {c : Char} (hc : c ≠ '\n') :
    ∃ before row after, IsRow (place ++ c :: rest) before row after ∧
      lineAfter place = lineAfter before ∧ 1 ≤ columnAfter place ∧
      columnAfter place ≤ row.length := by
  let left := (place.reverse.takeWhile (· != '\n')).reverse
  let before := (place.reverse.dropWhile (· != '\n')).reverse
  have hplace : place = before ++ left := by
    rw [← List.reverse_append, List.takeWhile_append_dropWhile, List.reverse_reverse]
  have hleft : '\n' ∉ left := by
    rw [List.mem_reverse]
    exact newline_notMem_takeWhile _
  refine ⟨before, left ++ c :: rest.takeWhile (· != '\n'), rest.dropWhile (· != '\n'),
    ⟨?_, ?_, ?_, newline_of_mem_dropWhile⟩, ?_, ?_, ?_⟩
  · simp only [List.append_assoc, List.cons_append, List.takeWhile_append_dropWhile]
    rw [← List.append_assoc, ← hplace]
  · rw [List.getLast?_reverse]
    exact newline_of_mem_dropWhile
  · simp only [List.mem_append, List.mem_cons, not_or]
    exact ⟨hleft, hc.symm, newline_notMem_takeWhile _⟩
  · rw [hplace, lineAfter, lineAfter, List.count_append, List.count_eq_zero.mpr hleft, Nat.add_zero]
  · exact Nat.le_add_right 1 _
  · have : columnAfter place = 1 + left.length := by rw [columnAfter, List.length_reverse]
    rw [this, List.length_append, List.length_cons]
    omega

/-! ## Locations -/

/-- The location of a token quotes the line that has the number of the token's row. -/
theorem statement_locate (file text : String) (t : Token) :
    ((Source.ofText file text).locate t).statement =
      String.ofList (strip ((Text.lines text.toList).getD (t.line - 1) [])) := by
  simp only [Source.locate, Source.ofText, List.getD_eq_getElem?_getD, Array.getD_eq_getD_getElem?,
    List.getElem?_toArray, List.getElem?_map]
  cases (Text.lines text.toList)[t.line - 1]? <;> rfl

/-! ## Nodes -/

/-- No node is known by the end of the text or by the end of a line. -/
theorem Node.Fits.kind_ne {src : Source} {ts : List Token} {t : Token} {n : Node}
    (h : n.Fits src ts t) : t.kind ≠ .eof ∧ t.kind ≠ .newline := by
  have hstart : elementStart.contains t.kind = true → t.kind ≠ .eof ∧ t.kind ≠ .newline := by
    intro hk
    constructor <;> (intro hkind; rw [hkind] at hk; exact absurd hk (by decide))
  have hfirst {phrase : Phrase} {w : List Token} (hreads : Reads src phrase (t :: w))
      (hphrase : phrase.isTail = false) : t.kind ≠ .eof ∧ t.kind ≠ .newline := by
    obtain ⟨t', v, hw, hk⟩ := hreads.start hphrase
    obtain ⟨rfl, -⟩ := List.cons.inj hw
    exact hstart hk
  cases n with
  | int | string | var | call | assign => constructor <;> (intro hk; cases hk.symm.trans h.1)
  | conditional | function | program => constructor <;> (intro hk; cases hk.symm.trans h)
  | loop _ whileTrue => cases whileTrue <;> constructor <;> (intro hk; cases hk.symm.trans h)
  | unary => exact hstart (elementStart_of_unaryOp h)
  | binary =>
    constructor <;> (intro hk; rw [Node.Fits, hk] at h; rcases h with h | h <;> cases h)
  | vector =>
    obtain ⟨w, -, hreads⟩ := h
    exact hfirst hreads rfl
  | predicate =>
    obtain ⟨w, -, hreads⟩ := h
    cases hreads with
    | mk hleft _ _ => exact hfirst hleft rfl
  | output =>
    obtain ⟨functions, w, -, hreads⟩ := h
    cases hreads with
    | callOutput hvalue | output hvalue _ => exact hfirst hvalue rfl

/-- A token of a text, other than its end, starts at a character that is told by its line and
    column. -/
theorem exists_place {text : String} {ts : List Token} {t : Token} (h : tokenize text = .ok ts)
    (ht : t ∈ ts) (heof : t.kind ≠ .eof) (hnewline : t.kind ≠ .newline) :
    ∃ place c rest, text.toList = place ++ c :: rest ∧ c ≠ '\n' ∧ t.line = lineAfter place ∧
      t.column = columnAfter place := by
  obtain ⟨pieces, gap, htiling, htext, hts, -⟩ := tokenize_tiles h
  rw [hts, List.mem_append, List.mem_map, List.mem_singleton] at ht
  rcases ht with ⟨p, hp, rfl⟩ | rfl
  · obtain ⟨ps, qs, rfl⟩ := List.append_of_mem hp
    have hfits := htiling.fits rfl
    obtain ⟨c, cs, hspelling, -, hc, -⟩ := Lexeme.head_spelling hfits.valid
    refine ⟨written ps ++ p.gap, c, cs ++ (written qs ++ gap), ?_, ?_, hfits.line, hfits.column⟩
    · rw [htext, written, List.flatMap_append, List.flatMap_cons, hspelling]
      simp [written]
    · intro hnew
      exact hnewline (hc.mp hnew)
  · exact absurd rfl heof

/-- The location of a node of a program stands in a row of the text.  If no stray line end stands
    before that row, the location quotes the row up to its first line end, which is all of the row
    unless something but blanks comes after that line end.  Behind a stray line end it quotes a line
    that stands before the row. -/
theorem statement_of_node {text file : String} {p : Program} {n : Node}
    (h : parse text file = .ok p) (hn : p.node.Includes n) :
    ∃ before row after, IsRow text.toList before row after ∧
      n.location.line = lineAfter before ∧ 1 ≤ n.location.column ∧
      n.location.column ≤ row.length ∧
      (strayEnds before = 0 →
        n.location.statement = String.ofList (strip (row.takeWhile (!isLineEnd ·))) ∧
        (n.location.statement = String.ofList (strip row) ↔
          ∀ c ∈ row.dropWhile (!isLineEnd ·), isBlank c = true)) ∧
      (strayEnds before ≠ 0 → ∃ line, (Text.lines before)[n.location.line - 1]? = some line ∧
        n.location.statement = String.ofList (strip line)) := by
  obtain ⟨ts, htokens, hreads⟩ := parse_eq_ok_iff.mp h
  obtain ⟨t, ht, hlocation, hfits⟩ := hreads.everywhere.1 n hn
  obtain ⟨place, c, rest, htext, hc, hline, hcolumn⟩ :=
    exists_place htokens ht hfits.kind_ne.1 hfits.kind_ne.2
  obtain ⟨before, row, after, hrow, hbefore, hpositive, hwithin⟩ := exists_row place rest hc
  rw [← htext] at hrow
  have hnumber : n.location.line - 1 = before.count '\n' := by
    rw [hlocation]
    show t.line - 1 = _
    rw [hline, hbefore, lineAfter, Nat.add_sub_cancel_left]
  have hquoted : n.location.statement =
      String.ofList (strip ((Text.lines text.toList).getD (before.count '\n') [])) := by
    rw [← hnumber, hlocation]
    exact statement_locate file text t
  refine ⟨before, row, after, hrow, ?_, ?_, ?_, ?_, ?_⟩
  · rw [hlocation, ← hbefore, ← hline]
    rfl
  · rw [hlocation]
    show 1 ≤ t.column
    rwa [hcolumn]
  · rw [hlocation]
    show t.column ≤ row.length
    rwa [hcolumn]
  · intro hstray
    rw [getD_lines_of_row hrow hstray] at hquoted
    refine ⟨hquoted, ?_⟩
    -- the row is its first line and what is cut off
    have hsplit := List.takeWhile_append_dropWhile (p := (!isLineEnd ·)) (l := row)
    rw [hquoted, String.ofList_inj, eq_comm, ← strip_append_iff, hsplit]
  · intro hstray
    obtain ⟨line, hline, hget⟩ := getD_lines_of_stray hrow hstray
    rw [hget] at hquoted
    exact ⟨line, by rw [hnumber]; exact hline, hquoted⟩

/-- A program whose first statement is a string that holds a line tabulation. -/
def tabbed : Program :=
  let start : Location := ⟨"", 1, 1, "BEGIN P"⟩
  let string : Location := ⟨"", 2, 1, "\""⟩
  let number : Location := ⟨"", 3, 1, "\""⟩
  ⟨start, "P", ⟨start, false, "P", [],
    [.output string (.vector string [.string string "\x0b"]),
      .output number (.vector number [.int number 2])]⟩⟩

/-- The numeral in the third row of that program, which is quoted as a part of the second one. -/
theorem statement_of_node_tabbed :
    parse "BEGIN P\n\"\x0b\"\n2\nEND" "" = .ok tabbed ∧
    IsRow "BEGIN P\n\"\x0b\"\n2\nEND".toList "BEGIN P\n\"\x0b\"\n".toList "2".toList
      "\nEND".toList ∧
    ∃ n, tabbed.node.Includes n ∧ n.location.line = lineAfter "BEGIN P\n\"\x0b\"\n".toList ∧
      n.location.statement ≠ String.ofList (strip "2".toList) ∧
      ∃ line, (Text.lines "BEGIN P\n\"\x0b\"\n".toList)[n.location.line - 1]? = some line ∧
        n.location.statement = String.ofList (strip line) := by
  have hparse : parse "BEGIN P\n\"\x0b\"\n2\nEND" "" = .ok tabbed := by cbv
  have hrow : IsRow "BEGIN P\n\"\x0b\"\n2\nEND".toList "BEGIN P\n\"\x0b\"\n".toList "2".toList
      "\nEND".toList := ⟨by decide, by simp, by decide, by simp⟩
  let number : Location := ⟨"", 3, 1, "\""⟩
  -- the block, its second statement, the value of that, and its element
  have hnode : tabbed.node.Includes (.int number 2) :=
    .step (.head _) (.step (.tail _ (.head _)) (.step (.head _) (.step (.head _) (.refl _))))
  obtain ⟨before, row, after, hrow', hline, -, -, -, hstray⟩ := statement_of_node hparse hnode
  have hcount : before.count '\n' = 2 := by
    have hthree : 3 = 1 + before.count '\n' := hline
    omega
  obtain ⟨rfl, -, -⟩ := hrow'.unique hrow hcount
  exact ⟨hparse, hrow, _, hnode, hline, by decide, hstray (by decide)⟩

end VectorLang
