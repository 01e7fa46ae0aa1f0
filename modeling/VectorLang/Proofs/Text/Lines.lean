import Mathlib.Data.List.DropRight
import Mathlib.Data.List.GetD
import VectorLang.Text.Lines

/-!
# Lines and rows

The rows of a text end at its newlines.  Its lines end at other characters as well, so that a line
may be a part of a row.  Lines and rows are counted alike up to a place where no such character
stands before it (`strayEnds`); from there on there are more lines than rows.

* `IsRow.unique`         a row is told by its number
* `lines_append`         the lines of the rows before a place, and the others
* `length_lines`         how many lines those are
* `head_lines`           the first line of a row
* `getD_lines_of_row`    the line that has the number of a row
* `strip_append_iff`     what is left out at the end of a row changes nothing if it is blank
-/

namespace VectorLang.Text

/-! ## Rows -/

/-- Whether a text is made up of `before`, `row` and `after`, where `row` stands between two
    newlines or the ends of the text. -/
structure IsRow (text before row after : List Char) : Prop where
  text : text = before ++ (row ++ after)
  starts : ∀ c ∈ before.getLast?, c = '\n'
  inner : '\n' ∉ row
  ends : ∀ c ∈ after.head?, c = '\n'

namespace IsRow

variable {text u r v u' r' v' : List Char}

/-- A row is taken up to the newline after it. -/
private theorem takeWhile_eq (h : IsRow text u r v) : (r ++ v).takeWhile (· != '\n') = r := by
  have hr : ∀ c ∈ r, (c != '\n') = true := by
    intro c hc
    rw [bne_iff_ne]
    rintro rfl
    exact h.inner hc
  rw [List.takeWhile_append_of_pos hr]
  cases v with
  | nil => simp
  | cons c v =>
    obtain rfl := h.ends c rfl
    simp

/-- What stands between the starts of two rows holds a newline. -/
private theorem eq_of_begins (h : IsRow text u r v) (hbegins : u' <+: u)
    (hcount : u'.count '\n' = u.count '\n') : u' = u := by
  obtain ⟨w, rfl⟩ := hbegins
  rcases List.eq_nil_or_concat w with rfl | ⟨w, c, rfl⟩
  · rw [List.append_nil]
  · obtain rfl : c = '\n' := h.starts c (by simp)
    simp at hcount

/-- A row is told by the number of newlines before it. -/
theorem unique (h : IsRow text u r v) (h' : IsRow text u' r' v')
    (hcount : u.count '\n' = u'.count '\n') : u = u' ∧ r = r' ∧ v = v' := by
  have hu : u = u' := by
    have hpu : u <+: text := ⟨r ++ v, h.text.symm⟩
    have hpu' : u' <+: text := ⟨r' ++ v', h'.text.symm⟩
    rcases List.prefix_or_prefix_of_prefix hpu hpu' with hbegins | hbegins
    · exact h'.eq_of_begins hbegins hcount
    · exact (h.eq_of_begins hbegins hcount.symm).symm
  subst hu
  have hrest : r ++ v = r' ++ v' := List.append_cancel_left (h.text.symm.trans h'.text)
  have hr : r = r' := by rw [← h.takeWhile_eq, ← h'.takeWhile_eq, hrest]
  subst hr
  exact ⟨rfl, rfl, List.append_cancel_left hrest⟩

end IsRow

/-- The number of the line ends that are neither newlines nor carriage returns before one. -/
def strayEnds : List Char → Nat
  | [] => 0
  | '\r' :: '\n' :: cs => strayEnds cs
  | c :: cs => strayEnds cs + if isLineEnd c && c != '\n' then 1 else 0

/-! ## Lines -/

section

variable {c : Char} {cs line : List Char}

private theorem linesFrom_cons (h : c = '\r' → cs.head? ≠ some '\n') :
    linesFrom line (c :: cs) =
      if isLineEnd c then line.reverse :: linesFrom [] cs else linesFrom (c :: line) cs := by
  rw [linesFrom]
  rintro rest rfl rfl
  exact h rfl rfl

private theorem strayEnds_cons (h : c = '\r' → cs.head? ≠ some '\n') :
    strayEnds (c :: cs) = strayEnds cs + if isLineEnd c && c != '\n' then 1 else 0 := by
  rw [strayEnds]
  rintro rest rfl rfl
  exact h rfl rfl

end

/-- A carriage return that is not followed by a newline may be the last character. -/
private theorem head_append {c : Char} {cs : List Char}
    (h : ∀ rest, c = '\r' → cs = '\n' :: rest → False) :
    (c = '\r' ∧ cs = []) ∨ ∀ v, c = '\r' → (cs ++ '\n' :: v).head? ≠ some '\n' := by
  cases cs with
  | nil =>
    by_cases hc : c = '\r'
    · exact Or.inl ⟨hc, rfl⟩
    · exact Or.inr fun v h => absurd h hc
  | cons d cs =>
    right
    rintro v rfl hd
    obtain rfl := Option.some.inj hd
    exact h cs rfl rfl

private theorem linesFrom_append (line u v : List Char) :
    linesFrom line (u ++ '\n' :: v) = linesFrom line (u ++ ['\n']) ++ linesFrom [] v := by
  fun_induction linesFrom line u with
  | case1 | case2 => rfl
  | case3 line cs ih =>
    simp only [List.cons_append, linesFrom]
    rw [ih]
  | case4 line c cs hcrlf hend ih =>
    rcases head_append hcrlf with ⟨rfl, rfl⟩ | hhead
    · rfl
    · rw [List.cons_append, List.cons_append, linesFrom_cons (hhead v), linesFrom_cons (hhead []),
        if_pos hend, if_pos hend, ih, List.cons_append]
  | case5 line c cs hcrlf hend ih =>
    rcases head_append hcrlf with ⟨rfl, rfl⟩ | hhead
    · rfl
    · rw [List.cons_append, List.cons_append, linesFrom_cons (hhead v), linesFrom_cons (hhead []),
        if_neg hend, if_neg hend, ih]

/-- A place after a newline cuts no line. -/
theorem lines_append {u : List Char} (hu : ∀ c ∈ u.getLast?, c = '\n') (v : List Char) :
    lines (u ++ v) = lines u ++ lines v := by
  rcases List.eq_nil_or_concat u with rfl | ⟨u, c, rfl⟩
  · rfl
  · obtain rfl : c = '\n' := hu c (by simp)
    simp only [lines, List.concat_eq_append, List.append_assoc, List.singleton_append]
    exact linesFrom_append [] u v

private theorem length_linesFrom (line u : List Char) :
    (linesFrom line (u ++ ['\n'])).length =
      (u ++ ['\n']).count '\n' + strayEnds (u ++ ['\n']) := by
  fun_induction linesFrom line u with
  | case1 | case2 => rfl
  | case3 line cs ih =>
    simp only [List.cons_append, linesFrom, strayEnds, List.length_cons, ih]
    simp
    omega
  | case4 line c cs hcrlf hend ih =>
    rcases head_append hcrlf with ⟨rfl, rfl⟩ | hhead
    · rfl
    · rw [List.cons_append, linesFrom_cons (hhead []), strayEnds_cons (hhead []), if_pos hend,
        List.length_cons, ih, List.count_cons]
      -- the line end is a newline or a stray one
      by_cases hc : c = '\n' <;> simp [hc, hend] <;> omega
  | case5 line c cs hcrlf hend ih =>
    rcases head_append hcrlf with ⟨rfl, rfl⟩ | hhead
    · rfl
    · have hc : c ≠ '\n' := by
        rintro rfl
        exact hend (by decide)
      rw [List.cons_append, linesFrom_cons (hhead []), strayEnds_cons (hhead []), if_neg hend, ih,
        List.count_cons]
      simp [hend, hc]

/-- There are as many lines before a row as newlines and stray line ends. -/
theorem length_lines {u : List Char} (hu : ∀ c ∈ u.getLast?, c = '\n') :
    (lines u).length = u.count '\n' + strayEnds u := by
  rcases List.eq_nil_or_concat u with rfl | ⟨u, c, rfl⟩
  · rfl
  · obtain rfl : c = '\n' := hu c (by simp)
    simp only [lines, List.concat_eq_append]
    exact length_linesFrom [] u

private theorem head_linesFrom (line cs : List Char) :
    (linesFrom line cs).headD [] = line.reverse ++ cs.takeWhile (!isLineEnd ·) := by
  fun_induction linesFrom line cs with
  | case1 line h => simp [List.isEmpty_iff.mp h]
  | case2 line h => simp
  | case3 line cs ih => simp [show isLineEnd '\r' = true from rfl]
  | case4 line c cs hcrlf hend ih => simp [hend]
  | case5 line c cs hcrlf hend ih =>
    rw [ih, List.takeWhile_cons_of_pos (by simpa using hend), List.reverse_cons, List.append_assoc]
    rfl

/-- The first line of a row is the row up to its first line end. -/
theorem head_lines {text before row after : List Char} (h : IsRow text before row after) :
    (lines (row ++ after)).headD [] = row.takeWhile (!isLineEnd ·) := by
  rw [lines, head_linesFrom, List.reverse_nil, List.nil_append]
  have hafter : after.takeWhile (!isLineEnd ·) = [] := by
    cases after with
    | nil => rfl
    | cons c after =>
      obtain rfl := h.ends c rfl
      rfl
  rw [List.takeWhile_append, hafter, List.append_nil]
  split
  · rename_i hlength
    exact ((List.takeWhile_prefix _).eq_of_length hlength).symm
  · rfl

/-- The line that has the number of a row is the first line of the row, if no stray line end stands
    before the row. -/
theorem getD_lines_of_row {text before row after : List Char} (h : IsRow text before row after)
    (hstray : strayEnds before = 0) :
    (lines text).getD (before.count '\n') [] = row.takeWhile (!isLineEnd ·) := by
  have hlength := length_lines h.starts
  rw [hstray, Nat.add_zero] at hlength
  rw [h.text, lines_append h.starts, ← hlength, List.getD_append_right _ _ _ _ (Nat.le_refl _),
    Nat.sub_self, ← head_lines h]
  cases lines (row ++ after) <;> rfl

/-- Otherwise it is a line before the row. -/
theorem getD_lines_of_stray {text before row after : List Char} (h : IsRow text before row after)
    (hstray : strayEnds before ≠ 0) :
    ∃ line, (lines before)[before.count '\n']? = some line ∧
      (lines text).getD (before.count '\n') [] = line := by
  have hlt : before.count '\n' < (lines before).length := by
    rw [length_lines h.starts]
    omega
  refine ⟨_, List.getElem?_eq_getElem hlt, ?_⟩
  rw [h.text, lines_append h.starts, List.getD_append _ _ _ _ hlt, List.getD_eq_getElem _ _ hlt]

/-! ## Blanks at the ends -/

private theorem strip_eq (cs : List Char) :
    strip cs = (cs.dropWhile isBlank).rdropWhile isBlank := rfl

/-- What stands after a text is left out with it, unless all of it is blank. -/
private theorem rdropWhile_append_iff {cs ds : List Char} :
    (cs ++ ds).rdropWhile isBlank = cs.rdropWhile isBlank ↔ ∀ c ∈ ds, isBlank c = true := by
  rw [← List.rdropWhile_eq_nil_iff]
  simp only [List.rdropWhile, List.reverse_append, List.dropWhile_append, List.isEmpty_iff]
  split
  · rename_i hnil
    simp [hnil]
  · rename_i hne
    have hlength := (List.dropWhile_suffix isBlank (l := cs.reverse)).length_le
    have hpos := List.length_pos_iff.mpr hne
    constructor
    · -- the text would be longer than itself
      intro h
      have := congrArg List.length h
      simp only [List.length_reverse, List.length_append] at hlength this
      omega
    · intro h
      exact absurd (List.reverse_eq_nil_iff.mp h) hne

/-- What stands at the end of a text changes the stripped text, unless all of it is blank. -/
theorem strip_append_iff {cs ds : List Char} :
    strip (cs ++ ds) = strip cs ↔ ∀ c ∈ ds, isBlank c = true := by
  rw [strip_eq, strip_eq, List.dropWhile_append]
  split
  · -- there are only blanks before it
    rename_i hnil
    rw [List.isEmpty_iff.mp hnil, List.rdropWhile_nil, List.rdropWhile_eq_nil_iff]
    constructor
    · intro h
      rw [← List.takeWhile_append_dropWhile (p := isBlank) (l := ds), List.forall_mem_append]
      exact ⟨fun c hc => List.mem_takeWhile_imp hc, h⟩
    · exact fun h c hc => h c ((List.dropWhile_suffix isBlank).subset hc)
  · exact rdropWhile_append_iff

end VectorLang.Text
