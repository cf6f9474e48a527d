import Mathlib.Data.List.TakeDrop
import Mathlib.Data.List.TakeWhile
import TermGraph.Decimal.Basic
import TermGraph.Power

/-!
# Decimals read as they are written

Reading a decimal takes digits up to the first character that is none, and
writing puts there the point or nothing. So what is written positionally is
read back, with the zeros that were appended as digits of their own
(`Decimal.ofChars?_positional`). It has digits in front of the point, and
behind it, where there is one, digits that do not end in a zero, if that is
so of the digits of the decimal (`Decimal.isPositional_positional`).
-/

namespace TermGraph.Decimal

open scoped Power

/-! ## Digits -/

/-- **Digits**, at least one. -/
def IsDigits (cs : List Char) : Prop := cs ≠ [] ∧ ∀ c ∈ cs, c.isDigit = true

theorem isDigit_of_mem_toDigits {n : Nat} {c : Char}
    (h : c ∈ Nat.toDigits 10 n) : c.isDigit = true :=
  Nat.isDigit_of_mem_toDigits (b := 10) (by decide) (by decide) h

theorem isDigits_toDigits (n : Nat) : IsDigits (Nat.toDigits 10 n) :=
  ⟨Nat.toDigits_ne_nil, fun _ => isDigit_of_mem_toDigits⟩

theorem isDigits_append_zeros (n zeros : Nat) :
    IsDigits (Nat.toDigits 10 n ++ List.replicate zeros '0') := by
  refine ⟨List.append_ne_nil_of_left_ne_nil Nat.toDigits_ne_nil _, fun c hc => ?_⟩
  rcases List.mem_append.mp hc with digit | zero
  · exact isDigit_of_mem_toDigits digit
  · rw [List.eq_of_mem_replicate zero]
    decide

/-- The digits of a number are read as the number. -/
theorem natural?_toDigits (n : Nat) :
    natural? (Nat.toDigits 10 n) = some n := by
  have digits : (Nat.toDigits 10 n).all Char.isDigit = true :=
    List.all_eq_true.mpr (isDigits_toDigits n).2
  have some_digits : (Nat.toDigits 10 n).isEmpty = false :=
    List.isEmpty_eq_false_iff.mpr Nat.toDigits_ne_nil
  rw [natural?, digits, some_digits, Nat.ofDigitChars_ten_toDigits]
  rfl

/-- The last digit of a number is what is left by ten. -/
theorem getLast?_toDigits (n : Nat) :
    (Nat.toDigits 10 n).getLast? = some (n % 10).digitChar := by
  rcases Nat.lt_or_ge n 10 with small | large
  · rw [Nat.toDigits_of_lt_base small, Nat.mod_eq_of_lt small]
    rfl
  · rw [Nat.toDigits_of_base_le (by decide) large, List.getLast?_append]
    rfl

theorem digitChar_ne_zero {k : Nat} (h : k < 10) (some : k ≠ 0) :
    k.digitChar ≠ '0' := by
  match k, h with
  | 0, _ => exact absurd rfl some
  | 1, _ | 2, _ | 3, _ | 4, _ | 5, _ | 6, _ | 7, _ | 8, _ | 9, _ => decide

/-- **An integer is read as it is written.** -/
theorem integer?_toString (i : Int) :
    integer? (toString i).toList = some i := by
  rw [Int.toString_eq_repr]
  cases i with
  | ofNat n =>
    have digits : (Int.repr (.ofNat n)).toList = Nat.toDigits 10 n :=
      Nat.toList_repr
    have read := natural?_toDigits n
    rw [digits, integer?.eq_def]
    split
    · next same =>
      exact absurd (isDigit_of_mem_toDigits (same ▸ List.mem_cons_self))
        (by decide)
    · next same =>
      exact absurd (isDigit_of_mem_toDigits (same ▸ List.mem_cons_self))
        (by decide)
    · rw [read]
      rfl
  | negSucc n =>
    have digits : (Int.repr (.negSucc n)).toList
        = '-' :: Nat.toDigits 10 (n + 1) := by
      rw [Int.repr, String.toList_append, Nat.toList_repr]
      rfl
    rw [digits, integer?, natural?_toDigits]
    rfl

/-! ## Positional notation -/

/-- **A text in positional notation**: digits, or digits with a point behind
them and more digits that do not end in a zero. -/
def IsPositional (cs : List Char) : Prop :=
  IsDigits cs
    ∨ ∃ whole places, cs = whole ++ '.' :: places ∧ IsDigits whole
        ∧ IsDigits places ∧ places.getLast? ≠ some '0'

/-- The decimal with the zeros that are appended for its exponent among its
digits. -/
def spelt (d : Decimal) : Decimal :=
  match d.exponent with
  | .ofNat zeros => ⟨d.coefficient * 10 ^ zeros, 0⟩
  | .negSucc k => ⟨d.coefficient, .negSucc k⟩

section

variable {ds whole places : List Char}

/-- Digits are read up to the end. -/
theorem span_isDigit (digits : ∀ c ∈ ds, c.isDigit = true) :
    ds.span Char.isDigit = (ds, []) := by
  rw [List.span_eq_takeWhile_dropWhile, List.takeWhile_eq_self_iff.mpr digits,
    List.dropWhile_eq_nil_iff.mpr digits]

/-- And up to a point. -/
theorem span_isDigit_point (digits : ∀ c ∈ ds, c.isDigit = true)
    (rest : List Char) :
    (ds ++ '.' :: rest).span Char.isDigit = (ds, '.' :: rest) := by
  rw [List.span_eq_takeWhile_dropWhile, List.takeWhile_append_of_pos digits,
    List.dropWhile_append_of_pos digits, List.takeWhile_cons_of_neg (by decide),
    List.dropWhile_cons_of_neg (by decide), List.append_nil]

/-- **Digits are read as a whole number.** -/
theorem ofChars?_digits (h : IsDigits ds) :
    ofChars? ds = some ⟨Nat.ofDigitChars 10 ds 0, 0⟩ := by
  have read := span_isDigit h.2
  simp only [ofChars?, read, List.append_nil, power?,
    List.isEmpty_eq_false_iff.mpr h.1]
  rfl

/-- **Digits with a point among them** have a place for each one behind it. -/
theorem ofChars?_point (hw : IsDigits whole) (hp : IsDigits places) :
    ofChars? (whole ++ '.' :: places)
      = some ⟨Nat.ofDigitChars 10 (whole ++ places) 0, -places.length⟩ := by
  have read := span_isDigit_point hw.2 places
  have read' := span_isDigit hp.2
  have some : (whole ++ places).isEmpty = false :=
    List.isEmpty_eq_false_iff.mpr (List.append_ne_nil_of_left_ne_nil hw.1 _)
  simp only [ofChars?, read, read', power?, some]
  rw [if_neg Bool.false_ne_true, Option.map_some, Int.zero_sub]

end

variable (d : Decimal) {k : Nat}

theorem positional_of_ofNat {zeros : Nat} (h : d.exponent = .ofNat zeros) :
    d.positional
      = Nat.toDigits 10 d.coefficient ++ List.replicate zeros '0' := by
  rw [positional, h]

/-- **A decimal with places is its digits with a point among them.** -/
theorem exists_point (h : d.exponent = .negSucc k) :
    ∃ whole places, d.positional = whole ++ '.' :: places
      ∧ IsDigits whole ∧ IsDigits places ∧ places.length = k + 1
      ∧ whole ++ places = paddedDigits (k + 2) d.coefficient := by
  have digits : ∀ c ∈ paddedDigits (k + 2) d.coefficient, c.isDigit = true := by
    intro c hc
    rcases List.mem_append.mp hc with zero | digit
    · rw [List.eq_of_mem_replicate zero]
      decide
    · exact isDigit_of_mem_toDigits digit
  have long : k + 2 ≤ (paddedDigits (k + 2) d.coefficient).length := by
    rw [paddedDigits, List.length_append, List.length_replicate]
    omega
  generalize hds : paddedDigits (k + 2) d.coefficient = ds at digits long
  refine ⟨ds.take (ds.length - (k + 1)), ds.drop (ds.length - (k + 1)), ?_,
    ⟨?_, fun c hc => digits c (List.mem_of_mem_take hc)⟩,
    ⟨?_, fun c hc => digits c (List.mem_of_mem_drop hc)⟩, ?_,
    List.take_append_drop _ _⟩
  · rw [positional, h, ← hds]
  · refine List.ne_nil_of_length_pos ?_
    rw [List.length_take]
    omega
  · refine List.ne_nil_of_length_pos ?_
    rw [List.length_drop]
    omega
  · rw [List.length_drop]
    omega

/-- **What is written is read back**, with its zeros. -/
theorem ofChars?_positional : ofChars? d.positional = some d.spelt := by
  cases h : d.exponent with
  | ofNat zeros =>
    rw [d.positional_of_ofNat h, ofChars?_digits (isDigits_append_zeros _ _),
      Nat.ofDigitChars_append, Nat.ofDigitChars_ten_toDigits,
      Nat.ofDigitChars_replicate_zero, Nat.mul_comm, spelt, h]
  | negSucc k =>
    obtain ⟨whole, places, text, hw, hp, length, digits⟩ := d.exists_point h
    rw [text, ofChars?_point hw hp, digits, length, paddedDigits,
      Nat.ofDigitChars_append, Nat.ofDigitChars_replicate_zero, Nat.mul_zero,
      Nat.ofDigitChars_ten_toDigits, spelt, h]
    rfl

/-- **What is written is positional**, unless its digits end in a zero behind
the point. -/
theorem isPositional_positional
    (h : d.exponent < 0 → d.coefficient % 10 ≠ 0) :
    IsPositional d.positional := by
  cases sign : d.exponent with
  | ofNat zeros =>
    rw [d.positional_of_ofNat sign]
    exact .inl (isDigits_append_zeros _ _)
  | negSucc k =>
    obtain ⟨whole, places, text, hw, hp, length, digits⟩ := d.exists_point sign
    refine .inr ⟨whole, places, text, hw, hp, fun zero => ?_⟩
    have last : (whole ++ places).getLast?
        = some (d.coefficient % 10).digitChar := by
      rw [digits, paddedDigits, List.getLast?_append, getLast?_toDigits,
        Option.some_or]
    rw [List.getLast?_append, zero, Option.some_or, Option.some_inj] at last
    refine digitChar_ne_zero (Nat.mod_lt _ (by decide)) (h ?_) last.symm
    rw [sign]
    exact Int.negSucc_lt_zero k

end TermGraph.Decimal
