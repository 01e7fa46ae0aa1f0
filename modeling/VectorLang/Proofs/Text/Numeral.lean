import VectorLang.Proofs.Token.Lexeme
import VectorLang.Text.Numeral

/-!
# Canonical numerals

The text of an integer is a numeral that denotes it, with no zeros in front.

* `Numeral.isNumeral_text`   the text of an integer is a numeral
* `Numeral.value_text`       it denotes the integer
* `Numeral.padded_repr_inj`  numbers with zeros in front are told apart
* `Numeral.read_text`        the text of an integer that was read can be read again
* `Numeral.write?_eq_none`   which integers have no text
-/

namespace VectorLang.Numeral

/-- A row of digits has no sign before it. -/
theorem digits_of_isDigit {cs : List Char} (h : ∀ c ∈ cs, c.isDigit = true) : digits cs = cs := by
  unfold digits
  split
  · exact nomatch h '-' List.mem_cons_self
  · rfl

theorem value_of_isDigit {cs : List Char} (h : ∀ c ∈ cs, c.isDigit = true) :
    value cs = ofDigits cs := by
  unfold value
  split
  · exact nomatch h '-' List.mem_cons_self
  · rfl

/-- The number that a row of digits denotes, written with the function of the library. -/
theorem ofDigits_eq (cs : List Char) : ofDigits cs = Nat.ofDigitChars 10 cs 0 := by
  rw [Nat.ofDigitChars_eq_foldl]
  rfl

/-! ## The text of a number -/

private theorem isDigit_of_mem_repr {n : Nat} : ∀ c ∈ n.repr.toList, c.isDigit = true := by
  intro c hc
  rw [Nat.toList_repr] at hc
  exact Nat.isDigit_of_mem_toDigits (by decide) (by decide) hc

private theorem repr_ne_nil (n : Nat) : n.repr.toList ≠ [] := by
  rw [Nat.toList_repr]
  exact Nat.toDigits_ne_nil

private theorem ofDigits_repr (n : Nat) : ofDigits n.repr.toList = n := by
  rw [ofDigits_eq, Nat.toList_repr]
  exact Nat.ofDigitChars_ten_toDigits

/-- The digits of an integer are those of its distance from zero. -/
theorem digits_text (z : Int) : digits (text z).toList = z.natAbs.repr.toList := by
  cases z with
  | ofNat n => exact digits_of_isDigit isDigit_of_mem_repr
  | negSucc n =>
    simp only [text, String.toList_append]
    rfl

/-- The text of an integer is a numeral. -/
theorem isNumeral_text (z : Int) : isNumeral (text z).toList = true := by
  simp only [isNumeral, digits_text, Bool.and_eq_true, Bool.not_eq_true',
    List.isEmpty_eq_false_iff, List.all_eq_true]
  exact ⟨repr_ne_nil _, isDigit_of_mem_repr⟩

/-- The text of an integer denotes it. -/
theorem value_text (z : Int) : value (text z).toList = z := by
  cases z with
  | ofNat n =>
    show value n.repr.toList = n
    rw [value_of_isDigit isDigit_of_mem_repr, ofDigits_repr]
  | negSucc n =>
    simp only [text, String.toList_append]
    show -(ofDigits (n + 1).repr.toList : Int) = Int.negSucc n
    rw [ofDigits_repr]
    rfl

/-- Zeros in front do not change what a row of digits denotes. -/
theorem ofDigits_padded (width : Nat) (ds : List Char) :
    ofDigits (padded width ds) = ofDigits ds := by
  have hzeros (k : Nat) : ofDigits (List.replicate k '0') = 0 := by
    induction k with
    | zero => rfl
    | succ k ih => exact ih
  unfold ofDigits at hzeros ⊢
  rw [padded, List.foldl_append, hzeros]

/-- Different numbers stay different if zeros are put in front of their texts. -/
theorem padded_repr_inj {width n k : Nat}
    (h : padded width n.repr.toList = padded width k.repr.toList) : n = k := by
  have hdigits := congrArg ofDigits h
  rwa [ofDigits_padded, ofDigits_padded, ofDigits_repr, ofDigits_repr] at hdigits

/-! ## Reading the text of a number -/

/-- A row of digits denotes a number that is less than a power of ten. -/
theorem ofDigits_lt {cs : List Char} (h : ∀ c ∈ cs, c.isDigit = true) :
    ofDigits cs < Nat.pow 10 cs.length := by
  show ofDigits cs < 10 ^ cs.length
  rw [ofDigits_eq]
  induction cs with
  | nil => simp [Nat.ofDigitChars_nil]
  | cons c cs ih =>
    obtain ⟨hc, hcs⟩ := List.forall_mem_cons.mp h
    have hrest := ih hcs
    have hdigit : c.toNat - '0'.toNat ≤ 9 := by
      simp only [Char.isDigit, Bool.and_eq_true, decide_eq_true_eq] at hc
      have : c.toNat ≤ '9'.toNat := hc.2
      simp only [Char.reduceToNat] at this ⊢
      omega
    -- the first digit counts a power of ten, and the others are less than one
    have hfirst : 10 ^ cs.length * (c.toNat - '0'.toNat) ≤ 10 ^ cs.length * 9 :=
      Nat.mul_le_mul_left _ hdigit
    rw [Nat.ofDigitChars_cons, Nat.ofDigitChars_eq_ofDigitChars_zero, List.length_cons,
      Nat.pow_succ, Nat.mul_zero, Nat.zero_add]
    omega

private theorem natAbs_value (cs : List Char) : (value cs).natAbs = ofDigits (digits cs) := by
  unfold value digits
  split
  · simp
  · simp

/-- A numeral has no fewer digits than the text of the integer that it denotes. -/
theorem length_digits_text {cs : List Char} (h : isNumeral cs = true) :
    (digits (text (value cs)).toList).length ≤ (digits cs).length := by
  simp only [isNumeral, Bool.and_eq_true, Bool.not_eq_true', List.isEmpty_eq_false_iff,
    List.all_eq_true] at h
  obtain ⟨hne, hall⟩ := h
  rw [digits_text, Nat.toList_repr, natAbs_value,
    Nat.length_toDigits_le_iff (by decide) (List.length_pos_iff.mpr hne)]
  exact ofDigits_lt hall

/-- The text of an integer that was read can be read again. -/
theorem read_text {cs : List Char} {z : Int} (hcs : isNumeral cs = true)
    (h : read cs = .ok z) : read (text z).toList = .ok z := by
  unfold read at h
  split at h
  · rename_i hlength
    obtain rfl : value cs = z := by
      injection h
    -- the canonical text is no longer than the one that was read
    rw [read, if_pos (Nat.le_trans (length_digits_text hcs) hlength), value_text]
  · exact nomatch h

/-! ## Numbers that are too long -/

private theorem length_repr_le_iff {n k b : Nat} (hk : 0 < k) (hb : b = Nat.pow 10 k) :
    n.repr.length ≤ k ↔ n < b := by
  rw [hb, ← String.length_toList, Nat.toList_repr]
  exact Nat.length_toDigits_le_iff (by decide) hk

/-- An integer is not written if it has too many digits. -/
theorem write?_eq_none {z : Int} : write? z = none ↔ maxDigits < z.natAbs.repr.length := by
  have hmax : 0 < maxDigits := by decide
  have hbound : bound = Nat.pow 10 maxDigits := by delta bound; exact Eq.refl _
  rw [← Nat.not_le, length_repr_le_iff hmax hbound, write?]
  by_cases h : z.natAbs < bound
  · simp [h]
  · simp [h]

end VectorLang.Numeral
