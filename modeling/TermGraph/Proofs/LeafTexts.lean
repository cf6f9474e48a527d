import Mathlib.Data.Int.Range
import TermGraph.Proofs.FloatOrder
import TermGraph.Proofs.Ingredients

/-!
# The texts of leaves

A sampler puts an integer into one of five forms, and what is written for it
need not tell which: `1` is the integer of either width as well as the half of
two and the quarter of four. It does tell the number. That is not so for
floats in general, where the same digits are the shortest for different
numbers of different precisions. But a small integer and its half and its
quarter are numbers of both precisions, and so are small multiples of three
thousand million. So what is written for a leaf, read as a double, is the
number it stands for (`Scalar.LeafIn.ofText?_render`), and whoever reads the
same text twice has read one number (`Scalar.LeafIn.sameUpToType`).

An integer up to four has nine values and five forms, and what is said of the
texts is found by going through them. What is said of the samples comes from
`Scalar.Stands`, which leaves each form one scalar as long as the integer is a
single (`Scalar.Stands.exists_eq_leafScalar`).
-/

namespace TermGraph

namespace Binary

variable {p : Precision} {x y : Binary p} {q : ℚ}

/-- **A float is determined by its sign and its value.** -/
theorem eq_of_value_eq (sign : x.isNegative = y.isNegative)
    (h : x.value = y.value) : x = y := by
  rw [value_eq_signedUnits, value_eq_signedUnits,
    div_left_inj' (pow_ne_zero _ two_ne_zero), Int.cast_inj, signedUnits,
    signedUnits, sign] at h
  have absolute : x.units = y.units := by
    split at h
    · exact Int.natCast_inj.mp (neg_inj.mp h)
    · exact Int.natCast_inj.mp h
  have magnitude := p.units_strictMono.injective absolute
  rw [x.eq_ofMagnitude, y.eq_ofMagnitude, sign, magnitude]

/-- What a float has for its value is not rounded to another. -/
theorem Rounds.value_eq (h : x.Rounds q) (exact : y.value = q) :
    x.value = q := by
  have nearest := h.nearest y
  rw [exact, sub_self, abs_zero] at nearest
  exact sub_eq_zero.mp (abs_nonpos_iff.mp nearest)

/-- **A small integer is a single.** -/
theorem value_ofScaledInt_single {v : ℤ} (hv : v.natAbs < 2 ^ 24) :
    (ofScaledInt .single v 0).value = v := by
  obtain ⟨-, value⟩ := ofScaledInt_of_places (p := .single) (k := 0) hv
    (by decide) (by decide)
  rw [value, pow_zero, div_one]

end Binary

namespace Scalar

variable {v w : Scalar} {i n : ℤ}

/-! ## The scalars for small integers -/

/-- **A leaf of a sampler**: an integer within a range, in one of the five
forms. -/
def LeafIn (n : ℤ) (v : Scalar) : Prop :=
  ∃ form i, |i| ≤ n ∧ v = leafScalar form i

/-- **A scalar that stands for a small integer is the one the sampler makes of
it**, in one of the five forms. -/
theorem Stands.exists_eq_leafScalar (hi : i.natAbs < 2 ^ 24)
    (h : v.Stands i) : ∃ form, v = leafScalar form i := by
  cases h with
  | int32 value => exact ⟨0, by rw [leafScalar, ← value, Int32.ofInt_toInt]⟩
  | int64 value => exact ⟨1, by rw [leafScalar, ← value, Int64.ofInt_toInt]⟩
  | float32 rounded finite sign value =>
    have whole := Binary.value_ofScaledInt_single hi
    obtain ⟨-, -, half⟩ := Binary.ofScaledInt_single (v := i) (by omega)
    refine ⟨2, ?_⟩
    rw [leafScalar, float32.injEq]
    refine Binary.eq_of_value_eq ?_ ?_
    · rw [sign, Binary.isNegative_ofScaledInt]
    · rw [value, rounded.value_eq whole, half, whole]
  | float64 finite sign value =>
    obtain ⟨-, quarter⟩ := Binary.ofScaledInt_double (v := i) (by omega)
    refine ⟨3, ?_⟩
    rw [leafScalar, float64.injEq]
    refine Binary.eq_of_value_eq ?_ ?_
    · rw [sign, Binary.isNegative_ofScaledInt]
    · rw [value, quarter]
  | text word =>
    rw [getElem?_leafWords, Option.some_inj] at word
    exact ⟨4, by rw [leafScalar, word]⟩

/-- So settings with a small range yield the leaves of that range. -/
theorem leafIn_of_yields {c : Config} (small : c.intRange.toInt < 2 ^ 24)
    (h : c.Yields v) : v.LeafIn (max c.intRange.toInt 0) := by
  obtain ⟨i, bound, stands⟩ := h
  have below : i.natAbs < 2 ^ 24 := by
    rw [Int.abs_eq_natAbs] at bound
    omega
  obtain ⟨form, rfl⟩ := stands.exists_eq_leafScalar below
  exact ⟨form, i, bound, rfl⟩

/-! ## The numbers in scalars -/

/-- **The number in a scalar**, where it is one below infinity. -/
def number? : Scalar → Option ℚ
  | int32 i => some i.toInt
  | int64 i => some i.toInt
  | float32 x => if x.isFinite then some x.value else none
  | float64 x => if x.isFinite then some x.value else none
  | text _ => none

/-- **Scalars that are the same up to the type of their numbers**: two equal
texts, or two numbers of one value. -/
inductive SameUpToType : Scalar → Scalar → Prop
  /-- The same text. -/
  | text (s : String) : SameUpToType (text s) (text s)
  /-- The same number, whatever its type. -/
  | number {v w : Scalar} {q : ℚ} (left : v.number? = some q)
      (right : w.number? = some q) : SameUpToType v w

namespace LeafIn

/-- What holds of all integers within the range in all five forms, holds of
the leaves. -/
theorem elim {P : Scalar → Prop} (h : v.LeafIn n)
    (all : ∀ i : ℤ, -n ≤ i → i ≤ n → ∀ form, P (leafScalar form i)) : P v := by
  obtain ⟨form, i, bound, rfl⟩ := h
  obtain ⟨above, below⟩ := abs_le.mp bound
  exact all i above below form

/-- **What is written for a leaf, read as a double, is its number.** No text
is read so, since it stands between quotes. -/
theorem ofText?_render (h : v.LeafIn 4) :
    (Binary.ofText? .double v.render).map Binary.value = v.number? :=
  h.elim (P := fun v =>
    (Binary.ofText? .double v.render).map Binary.value = v.number?)
    (by decide +kernel)

/-- A leaf without a number is a text. -/
theorem exists_eq_text (h : v.LeafIn 4) (none : v.number? = none) :
    ∃ s, v = text s := by
  have kind : v.kind = .text := h.elim
    (P := fun v => v.number? = .none → v.kind = .text)
    (by decide +kernel) none
  cases v with
  | text s => exact ⟨s, rfl⟩
  | _ => cases kind

/-- **Leaves with one text are the same up to type.** -/
theorem sameUpToType (hv : v.LeafIn 4) (hw : w.LeafIn 4)
    (h : v.render = w.render) : v.SameUpToType w := by
  have numbers : v.number? = w.number? := by
    rw [← hv.ofText?_render, ← hw.ofText?_render, h]
  cases left : v.number? with
  | some q => exact .number left (numbers ▸ left)
  | none =>
    obtain ⟨s, rfl⟩ := hv.exists_eq_text left
    obtain ⟨t, rfl⟩ := hw.exists_eq_text (numbers ▸ left)
    have same : s = t := by
      rw [render, render, String.append_left_inj, String.append_right_inj] at h
      exact h
    rw [same]
    exact .text t

end LeafIn

end Scalar

end TermGraph
