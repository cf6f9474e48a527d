import Mathlib.Data.Nat.Bitwise
import TermGraph.Scalar

/-!
# The order of values, from first principles

`Scalar.order` puts values of all types in one sequence, and asks of a
float only its rank. Here the order of each type is spelt out by itself
and from nothing but the value: integers as integers, floats as the
signed integers that their bits become when those of a negative float
below the sign are flipped, texts as the sequences of their bytes. That is
`Scalar.valueOrder`, and `Scalar.compare_of_tag_eq` says that `compare`
follows it wherever both values have one type.

A value is also a list of integers, its `Scalar.key`, in such a way that
the order of values is the lexicographic order of keys. A text ends its
key with a number below every byte, so no key is the beginning of another
of the same type; `Scalar.compare_key_append` is that property in the
form in which keys are put to use, with more behind them.
-/

namespace TermGraph

/-- What is asked next matters only where nothing is decided yet. -/
theorem then_congr {o p q : Ordering} (h : o = .eq → p = q) :
    o.then p = o.then q := by
  cases o with
  | lt => rfl
  | gt => rfl
  | eq => exact h rfl

/-- An embedding of an order keeps the comparison that is read off `<`
and `=`. -/
theorem compareOfLessAndEq_map {α β : Type} [LT α] [DecidableLT α]
    [DecidableEq α] [LT β] [DecidableLT β] [DecidableEq β] {f : α → β}
    (lt_iff : ∀ x y, x < y ↔ f x < f y) (inj : ∀ x y, x = y ↔ f x = f y)
    (x y : α) : compareOfLessAndEq x y = compareOfLessAndEq (f x) (f y) := by
  unfold compareOfLessAndEq
  simp only [lt_iff x y, inj x y]

theorem compare_int32 (v w : Int32) :
    compare v w = compare v.toInt w.toInt :=
  compareOfLessAndEq_map (fun _ _ => Int32.lt_iff_toInt_lt)
    (fun _ _ => Int32.toInt_inj.symm) v w

theorem compare_int64 (v w : Int64) :
    compare v w = compare v.toInt w.toInt :=
  compareOfLessAndEq_map (fun _ _ => Int64.lt_iff_toInt_lt)
    (fun _ _ => Int64.toInt_inj.symm) v w

theorem compare_natCast (m n : Nat) : compare (m : Int) (n : Int) = compare m n :=
  (compareOfLessAndEq_map (fun _ _ => Int.ofNat_lt.symm)
    (fun _ _ => Int.ofNat_inj.symm) m n).symm

/-- A byte as an integer. -/
def byteValue (b : UInt8) : Int := b.toNat

theorem byteValue_nonneg (b : UInt8) : 0 ≤ byteValue b :=
  Int.natCast_nonneg _

theorem compare_byte (b c : UInt8) :
    compare b c = compare (byteValue b) (byteValue c) :=
  compareOfLessAndEq_map
    (fun _ _ => UInt8.lt_iff_toNat_lt.trans Int.ofNat_lt.symm)
    (fun _ _ => UInt8.toNat_inj.symm.trans Int.ofNat_inj.symm) b c

/-- The bytes of a text are those of its characters. -/
theorem utf8_eq_flatMap (s : String) :
    utf8 s = s.toList.flatMap String.utf8EncodeChar := by
  rw [utf8, ← String.utf8Encode_toList, List.utf8Encode,
    List.toList_data_toByteArray]

namespace Binary

variable {p : Precision}

/-- **The bits of a float as a signed integer wants them**: those below
the sign are flipped if the sign is set. -/
def flipped (x : Binary p) : BitVec p.width :=
  if x.isNegative then
    x.bits ^^^ BitVec.ofNat p.width (2 ^ p.magnitudeBits - 1)
  else x.bits

/-- **The total order of floats**, as the order of signed integers. -/
def totalOrder (x y : Binary p) : Ordering :=
  compare x.flipped.toInt y.flipped.toInt

/-- Flipping all places below the highest counts down from the end. -/
theorem two_pow_add_xor (k m : ℕ) (h : m < 2 ^ k) :
    (2 ^ k + m) ^^^ (2 ^ k - 1) = 2 ^ k + (2 ^ k - (m + 1)) := by
  have hc : 2 ^ k - (m + 1) < 2 ^ k := by omega
  refine Nat.eq_of_testBit_eq fun i => ?_
  rw [Nat.testBit_xor, Nat.testBit_two_pow_sub_one]
  rcases lt_trichotomy i k with hi | rfl | hi
  · rw [Nat.testBit_two_pow_add_gt hi, Nat.testBit_two_pow_add_gt hi,
      Nat.testBit_two_pow_sub_succ h]
    simp [hi]
  · rw [Nat.testBit_two_pow_add_eq, Nat.testBit_two_pow_add_eq,
      Nat.testBit_lt_two_pow h, Nat.testBit_lt_two_pow hc]
    simp
  · have hle : 2 ^ (k + 1) ≤ 2 ^ i := Nat.pow_le_pow_right (by decide) hi
    rw [Nat.pow_succ] at hle
    rw [Nat.testBit_lt_two_pow (show 2 ^ k + m < 2 ^ i by omega),
      Nat.testBit_lt_two_pow (show 2 ^ k + (2 ^ k - (m + 1)) < 2 ^ i by omega)]
    simp [Nat.not_lt.mpr hi.le]

theorem isNegative_iff (x : Binary p) :
    x.isNegative = true ↔ 2 ^ p.magnitudeBits ≤ x.toNat := by
  rw [isNegative, decide_eq_true_iff]

theorem toNat_lt (x : Binary p) :
    x.toNat < 2 ^ p.magnitudeBits + 2 ^ p.magnitudeBits := by
  have h : x.toNat < 2 ^ (p.magnitudeBits + 1) := x.bits.isLt
  rw [Nat.pow_succ] at h
  omega

/-- **The rank is that signed integer.** -/
theorem rank_eq_toInt_flipped (x : Binary p) : x.rank = x.flipped.toInt := by
  have hlt := x.toNat_lt
  have hwidth : 2 ^ p.width = 2 ^ p.magnitudeBits * 2 := Nat.pow_succ ..
  rw [BitVec.toInt_eq_toNat_cond, hwidth, rank, flipped, magnitude]
  by_cases hneg : x.isNegative
  · obtain ⟨m, hm⟩ := Nat.exists_eq_add_of_le (x.isNegative_iff.mp hneg)
    have hlow : m < 2 ^ p.magnitudeBits := by omega
    have hbits : (x.bits ^^^ BitVec.ofNat p.width (2 ^ p.magnitudeBits - 1)).toNat
        = 2 ^ p.magnitudeBits + (2 ^ p.magnitudeBits - (m + 1)) := by
      rw [BitVec.toNat_xor, BitVec.toNat_ofNat, hwidth,
        Nat.mod_eq_of_lt (by omega), ← two_pow_add_xor _ _ hlow, ← hm, toNat]
    rw [if_pos hneg, if_pos hneg, hbits, if_neg (by omega), hm,
      Nat.add_mod_left, Nat.mod_eq_of_lt hlow]
    omega
  · have hlow : x.toNat < 2 ^ p.magnitudeBits :=
      Nat.lt_of_not_le (hneg ∘ x.isNegative_iff.mpr)
    rw [if_neg hneg, if_neg hneg, Nat.mod_eq_of_lt hlow]
    exact (if_pos (by rw [toNat] at hlow; omega)).symm

theorem compare_eq_totalOrder (x y : Binary p) :
    compare x y = x.totalOrder y := by
  rw [compare_def, rank_eq_toInt_flipped, rank_eq_toInt_flipped, totalOrder]

/-- A float is its sign and the bits below it. -/
theorem toNat_eq (x : Binary p) :
    x.toNat
      = x.magnitude + if x.isNegative then 2 ^ p.magnitudeBits else 0 := by
  have hlt := x.toNat_lt
  rw [magnitude]
  by_cases hneg : x.isNegative
  · obtain ⟨m, hm⟩ := Nat.exists_eq_add_of_le (x.isNegative_iff.mp hneg)
    rw [if_pos hneg, hm, Nat.add_mod_left, Nat.mod_eq_of_lt (by omega)]
    omega
  · have hlow := Nat.lt_of_not_le (hneg ∘ x.isNegative_iff.mpr)
    rw [if_neg hneg, Nat.mod_eq_of_lt hlow, Nat.add_zero]

/-- **Different floats have different ranks**, whichever bit they
differ in. -/
theorem rank_injective {x y : Binary p} (h : x.rank = y.rank) : x = y := by
  have hx := x.toNat_eq
  have hy := y.toNat_eq
  have same : x.toNat = y.toNat := by
    unfold rank at h
    split at h <;> split at h <;> simp_all <;> omega
  obtain ⟨b⟩ := x
  obtain ⟨c⟩ := y
  exact congrArg Binary.mk (BitVec.eq_of_toNat_eq same)

end Binary

namespace Scalar

/-- **The order of two values of one type**: of integers as integers, of
floats by the total order, of texts by their bytes. Values of two types
are not its business. -/
def valueOrder : Scalar → Scalar → Ordering
  | int32 v, int32 w => compare v.toInt w.toInt
  | int64 v, int64 w => compare v.toInt w.toInt
  | float32 v, float32 w => v.totalOrder w
  | float64 v, float64 w => v.totalOrder w
  | text v, text w => compare (utf8 v) (utf8 w)
  | _, _ => .eq

variable {v w : Scalar}

/-- A property of two values of one type is one of each type. -/
@[elab_as_elim]
theorem tagInduct {motive : Scalar → Scalar → Prop} (h : v.tag = w.tag)
    (int32 : ∀ x y, motive (.int32 x) (.int32 y))
    (int64 : ∀ x y, motive (.int64 x) (.int64 y))
    (float32 : ∀ x y, motive (.float32 x) (.float32 y))
    (float64 : ∀ x y, motive (.float64 x) (.float64 y))
    (text : ∀ x y, motive (.text x) (.text y)) : motive v w := by
  cases v <;> cases w
  case int32.int32 => exact int32 _ _
  case int64.int64 => exact int64 _ _
  case float32.float32 => exact float32 _ _
  case float64.float64 => exact float64 _ _
  case text.text => exact text _ _
  all_goals
    simp [tag, Symbol.int32Tag, Symbol.int64Tag, Symbol.float32Tag,
      Symbol.float64Tag, Symbol.textTag] at h

/-- **Values of one type are compared as that type compares.** -/
theorem compare_of_tag_eq (h : v.tag = w.tag) :
    compare v w = v.valueOrder w := by
  refine tagInduct h ?_ ?_ ?_ ?_ ?_
  · exact compare_int32
  · exact compare_int64
  · exact Binary.compare_eq_totalOrder
  · exact Binary.compare_eq_totalOrder
  · exact fun _ _ => rfl

theorem valueOrder_self (v : Scalar) : v.valueOrder v = .eq := by
  cases v <;> exact Std.ReflOrd.compare_self

/-- **The other way round the order is reversed.** -/
theorem valueOrder_swap (h : v.tag = w.tag) :
    w.valueOrder v = (v.valueOrder w).swap := by
  refine tagInduct h ?_ ?_ ?_ ?_ ?_ <;>
    exact fun _ _ => Std.OrientedOrd.eq_swap

theorem utf8_injective {s t : String} (h : utf8 s = utf8 t) : s = t :=
  String.toByteArray_inj.mp (ByteArray.ext (Array.toList_inj.mp h))

/-- **Values of one type that are not told apart are one value.** -/
theorem eq_of_valueOrder_eq (h : v.tag = w.tag) :
    v.valueOrder w = .eq → v = w := by
  refine tagInduct h ?_ ?_ ?_ ?_ ?_
  · intro x y e
    exact congrArg int32 (Int32.toInt_inj.mp (Std.LawfulEqOrd.eq_of_compare e))
  · intro x y e
    exact congrArg int64 (Int64.toInt_inj.mp (Std.LawfulEqOrd.eq_of_compare e))
  · intro x y e
    rw [valueOrder, ← Binary.compare_eq_totalOrder] at e
    exact congrArg float32
      (Binary.rank_injective (Std.LawfulEqOrd.eq_of_compare e))
  · intro x y e
    rw [valueOrder, ← Binary.compare_eq_totalOrder] at e
    exact congrArg float64
      (Binary.rank_injective (Std.LawfulEqOrd.eq_of_compare e))
  · intro x y e
    exact congrArg text (utf8_injective (Std.LawfulEqOrd.eq_of_compare e))

/-! ## Keys -/

/-- **The key of a value**, a list of integers. -/
def key : Scalar → List ℤ
  | int32 v => [v.toInt]
  | int64 v => [v.toInt]
  | float32 v => [v.flipped.toInt]
  | float64 v => [v.flipped.toInt]
  | text v => (utf8 v).map byteValue ++ [-1]

/-- Byte strings that end with a number below every byte are compared
before whatever follows them. -/
theorem compare_map_byteValue_append (bs cs : List UInt8) (r s : List ℤ) :
    compare (bs.map byteValue ++ -1 :: r) (cs.map byteValue ++ -1 :: s)
      = (compare bs cs).then (compare r s) := by
  induction bs generalizing cs with
  | nil =>
    cases cs with
    | nil => simp
    | cons c cs =>
      have hlt : compare (-1) (byteValue c) = .lt :=
        Std.compare_eq_lt.mpr (by have := byteValue_nonneg c; omega)
      simp [hlt]
  | cons b bs ih =>
    cases cs with
    | nil =>
      have hgt : compare (byteValue b) (-1) = .gt :=
        Std.compare_eq_gt.mpr (by have := byteValue_nonneg b; omega)
      simp [hgt]
    | cons c cs =>
      simp only [List.map_cons, List.cons_append, List.compare_cons_cons, ih,
        ← compare_byte, Ordering.then_assoc]

/-- **The order of values is that of their keys**, with anything behind
them. -/
theorem compare_key_append (h : v.tag = w.tag) (r s : List ℤ) :
    compare (v.key ++ r) (w.key ++ s)
      = (v.valueOrder w).then (compare r s) := by
  refine tagInduct h ?_ ?_ ?_ ?_ ?_
  · exact fun x y => List.compare_cons_cons
  · exact fun x y => List.compare_cons_cons
  · exact fun x y => List.compare_cons_cons
  · exact fun x y => List.compare_cons_cons
  · intro x y
    rw [key, key, List.append_assoc, List.append_assoc]
    exact compare_map_byteValue_append (utf8 x) (utf8 y) r s

end Scalar

end TermGraph
