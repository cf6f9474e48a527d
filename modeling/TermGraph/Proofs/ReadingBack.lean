import TermGraph.Proofs.DecimalText
import TermGraph.Proofs.FloatOrder
import TermGraph.Proofs.Rendering
import TermGraph.Proofs.ShortestDecimals

/-!
# Numbers read back as they are written

A boxed number is written without its type. If the type is known, the text
has all of it (`Scalar.ofNumeral?_render`): an integer is written in full,
and a float with digits that are rounded to it and to no other. Of a NaN the
text says only that it is one.

What reading is depends on the type. An integer must be in the range of its
type. A float is what the decimal is rounded to, and the sign is read by
itself, so that the zeros are told apart (`Binary.ofText?_of_ofChars?`). The
decimal that was written is the shortest, with zeros appended where its
exponent is positive, and these change neither the number nor its significant
digits (`Decimal.value_spelt`, `Decimal.significant_spelt`).

`Term.numbers_read_back` puts this together for the texts of terms.
-/

namespace TermGraph

open scoped Power

namespace Decimal

variable (d : Decimal) {cs : List Char}

/-! ## Zeros among the digits -/

/-- **Zeros that are appended do not change the number.** -/
theorem value_spelt : d.spelt.value = d.value := by
  cases h : d.exponent with
  | ofNat zeros =>
    rw [d.value_of_ofNat h, spelt, h, value, zpow_zero, mul_one, Nat.cast_one,
      div_one]
  | negSucc k => rw [spelt, value, value, h]

/-- **Nor its significant digits.** -/
theorem significant_spelt : d.spelt.significant = d.significant := by
  cases h : d.exponent with
  | ofNat zeros =>
    rw [spelt, h]
    exact significantDigits_mul_pow _ _
  | negSucc k =>
    rw [spelt, h]
    rfl

variable {d}

/-- **A decimal begins with a digit or with the point.** -/
theorem exists_cons_of_ofChars? (h : ofChars? cs = some d) :
    ∃ c rest, cs = c :: rest ∧ (c.isDigit = true ∨ c = '.') := by
  cases cs with
  | nil => cases h
  | cons c rest =>
    refine ⟨c, rest, rfl, ?_⟩
    by_contra other
    obtain ⟨letter, point⟩ := not_or.mp other
    have none : (c :: rest).span Char.isDigit = ([], c :: rest) := by
      rw [List.span_eq_takeWhile_dropWhile, List.takeWhile_cons_of_neg letter,
        List.dropWhile_cons_of_neg letter]
    have nothing : ofChars? (c :: rest) = Option.none := by
      unfold ofChars?
      rw [none]
      dsimp only
      split
      · next same => exact absurd (List.head_eq_of_cons_eq same) point
      · rfl
    rw [nothing] at h
    cases h

end Decimal

namespace Precision

variable {p : Precision} {m : ℕ}

/-- The shortest decimal is rounded to its magnitude, spelt with its zeros. -/
theorem roundsTo_spelt_shortest (h : m < p.infinity) :
    p.RoundsTo (p.shortest m).spelt.value m := by
  rw [Decimal.value_spelt]
  exact (roundsTo_iff h).mpr (p.isNearest_shortest m)

theorem ofDecimal_spelt_shortest (h : m < p.infinity) :
    p.ofDecimal (p.shortest m).spelt = m :=
  (p.roundsTo_ofDecimal _).eq (roundsTo_spelt_shortest h)

/-- **Positional digits that do not end in a zero** behind the point. -/
theorem isPositional_shortest (p : Precision) (m : ℕ) :
    Decimal.IsPositional (p.shortest m).positional := by
  refine Decimal.isPositional_positional _ fun places => ?_
  cases m with
  | zero => exact absurd places (Int.lt_irrefl 0)
  | succ m => exact Window.digits_mod_ten (p.low_window_pos m)

end Precision

namespace Binary

variable {p : Precision} {x : Binary p} {d : Decimal} {cs : List Char} {m : ℕ}

/-! ## Reading floats -/

/-- A text with a sign in front, if it is negative. -/
def signed (negative : Bool) (s : String) : String :=
  if negative then "-" ++ s else s

/-- **A decimal is none of the words** for infinity and for no number. -/
theorem magnitude?_of_ofChars? (h : Decimal.ofChars? cs = some d) :
    magnitude? p cs = some (p.ofDecimal d) := by
  obtain ⟨c, rest, rfl, begins⟩ := Decimal.exists_cons_of_ofChars? h
  have low : c.val ≤ '9'.val := by
    rcases begins with digit | rfl
    · rw [Char.isDigit, Bool.and_eq_true, decide_eq_true_iff,
        decide_eq_true_iff] at digit
      exact digit.2
    · decide
  have lower : c.toLower = c :=
    dif_neg fun letter => absurd (UInt32.le_trans letter.1 low) (by decide)
  have no_word : ∀ (w : String) (l : Char), w.toList.head? = some l →
      ¬ l.val ≤ '9'.val → String.ofList ((c :: rest).map Char.toLower) ≠ w := by
    rintro _ l head letter rfl
    rw [String.toList_ofList, List.map_cons, List.head?_cons, lower,
      Option.some_inj] at head
    exact letter (head ▸ low)
  rw [magnitude?, if_neg, if_neg, h, Option.map_some]
  · exact no_word "nan" 'n' rfl (by decide)
  · rintro (inf | infinity)
    · exact no_word "inf" 'i' rfl (by decide) inf
    · exact no_word "infinity" 'i' rfl (by decide) infinity

/-- What is read as a magnitude and has no sign is read as a float with a sign
in front. -/
theorem ofText?_signed (negative : Bool) (read : magnitude? p cs = some m)
    (bare : cs.head? ≠ some '-' ∧ cs.head? ≠ some '+') :
    ofText? p (signed negative (String.ofList cs))
      = some (ofMagnitude p negative m) := by
  cases negative with
  | true =>
    have text : (signed true (String.ofList cs)).toList = '-' :: cs := by
      rw [signed, if_pos rfl, String.toList_append]
      exact congrArg ('-' :: ·) String.toList_ofList
    rw [ofText?, text]
    exact congrArg (Option.map _) read
  | false =>
    have text : (signed false (String.ofList cs)).toList = cs := by
      rw [signed, if_neg Bool.false_ne_true, String.toList_ofList]
    rw [ofText?, text]
    split
    · exact absurd rfl bare.1
    · exact absurd rfl bare.2
    · exact congrArg (Option.map _) read

/-- **A decimal with a sign is read as the float it is rounded to.** -/
theorem ofText?_of_ofChars? (negative : Bool)
    (h : Decimal.ofChars? cs = some d) :
    ofText? p (signed negative (String.ofList cs))
      = some (ofMagnitude p negative (p.ofDecimal d)) := by
  refine ofText?_signed negative (magnitude?_of_ofChars? h) ?_
  obtain ⟨c, rest, rfl, begins⟩ := Decimal.exists_cons_of_ofChars? h
  rw [List.head?_cons]
  rcases begins with digit | rfl
  · constructor <;> rintro ⟨⟩ <;> exact absurd digit (by decide)
  · decide

/-! ## Writing floats -/

theorem text_of_isFinite (h : x.isFinite = true) :
    x.text = signed x.isNegative
      (String.ofList (p.shortest x.magnitude).positional) := by
  have number : ¬ x.isNaN = true := by
    rw [isFinite, decide_eq_true_iff] at h
    rw [isNaN, decide_eq_true_iff]
    omega
  rw [text, if_neg number, if_pos h]
  rfl

/-- A float that is neither finite nor a NaN is an infinity. -/
theorem text_of_magnitude_eq (h : x.magnitude = p.infinity) :
    x.text = signed x.isNegative (String.ofList ['i', 'n', 'f']) := by
  have number : ¬ x.isNaN = true := by
    rw [isNaN, decide_eq_true_iff]
    omega
  have infinite : ¬ x.isFinite = true := by
    rw [isFinite, decide_eq_true_iff]
    omega
  rw [text, if_neg number, if_neg infinite]
  rfl

/-- **A float is read back**, unless it is a NaN. -/
theorem ofText?_text (h : x.isNaN = false) : ofText? p x.text = some x := by
  rw [isNaN, decide_eq_false_iff_not, Nat.not_lt] at h
  rcases h.lt_or_eq with below | infinite
  · rw [text_of_isFinite (decide_eq_true below),
      ofText?_of_ofChars? _ (Decimal.ofChars?_positional _),
      Precision.ofDecimal_spelt_shortest below, ← eq_ofMagnitude]
  · have word : magnitude? p ['i', 'n', 'f'] = some x.magnitude := by
      rw [magnitude?, if_pos (.inl (by decide)), infinite]
    rw [text_of_magnitude_eq infinite, ofText?_signed _ word (by decide),
      ← eq_ofMagnitude]

end Binary

namespace Scalar

/-! ## Reading numbers -/

/-- **A number**: an integer, or a float that is no NaN. -/
def IsNumber : Scalar → Prop
  | int32 _ => True
  | int64 _ => True
  | float32 x => x.isNaN = false
  | float64 x => x.isNaN = false
  | text _ => False

/-- Reads an integer in a range. -/
def integerIn? (least greatest : ℤ) (s : String) : Option ℤ :=
  (Decimal.integer? s.toList).filter fun i => least ≤ i ∧ i ≤ greatest

/-- **Reads a number of a type.** -/
def ofNumeral? : Kind → String → Option Scalar
  | .int32, s =>
    (integerIn? Int32.minValue.toInt Int32.maxValue.toInt s).map
      fun i => int32 (Int32.ofInt i)
  | .int64, s =>
    (integerIn? Int64.minValue.toInt Int64.maxValue.toInt s).map
      fun i => int64 (Int64.ofInt i)
  | .float32, s => (Binary.ofText? .single s).map float32
  | .float64, s => (Binary.ofText? .double s).map float64
  | _, _ => none

theorem integerIn?_toString {i least greatest : ℤ} (above : least ≤ i)
    (below : i ≤ greatest) :
    integerIn? least greatest (toString i) = some i := by
  rw [integerIn?, Decimal.integer?_toString]
  exact Option.filter_some_pos (decide_eq_true ⟨above, below⟩)

theorem ofNumeral?_float {p : Precision} (x : Binary p) (s : String) :
    ofNumeral? (float x).kind s = (Binary.ofText? p s).map float := by
  cases p <;> rfl

theorem render_float {p : Precision} (x : Binary p) :
    (float x).render = x.text := by
  cases p <;> rfl

/-- **A number is read back as it is written.** -/
theorem ofNumeral?_render {v : Scalar} (number : v.IsNumber) :
    ofNumeral? v.kind v.render = some v := by
  cases v with
  | int32 i =>
    rw [render, kind, ofNumeral?, integerIn?_toString (Int32.minValue_le_toInt i)
      (Int32.toInt_le i), Option.map_some, Int32.ofInt_toInt]
  | int64 i =>
    rw [render, kind, ofNumeral?, integerIn?_toString (Int64.minValue_le_toInt i)
      (Int64.toInt_le i), Option.map_some, Int64.ofInt_toInt]
  | float32 x => rw [render, kind, ofNumeral?, Binary.ofText?_text number]; rfl
  | float64 x => rw [render, kind, ofNumeral?, Binary.ofText?_text number]; rfl
  | text s => exact number.elim

end Scalar

namespace Term

/-- Two boxes of one value are equal, whether or not they are one instance. -/
theorem exists_compareTally?_boxed (m n : ℕ) (v : Scalar) :
    ∃ tally, (boxed m v).compareTally? (boxed n v) = some (.eq, tally) := by
  have tags : compare v.tag v.tag = .eq := Symbol.compare_eq_eq_iff.mpr rfl
  have values : compare v v = .eq := by
    rw [Scalar.compare_of_tag_eq rfl, Scalar.valueOrder_self]
  rw [compareTally?]
  by_cases one : (boxed m v).same (boxed n v) = true
  · exact ⟨_, by rw [walk, if_pos one, walk]⟩
  · exact ⟨_, by simp only [walk, one, tag, tags, values]; rfl⟩

/-- **Numbers are read back from their texts.** The text of a boxed number,
under whatever table, is read as a value of its type, and this is the number
itself: boxed again it is equal to the original.

If it is a finite float, the text is a sign, if any, and digits in positional
notation. They are the digits of a decimal that is rounded to the magnitude of
the float, to the nearest one and to the even one of two that are as near, and
no decimal that is has fewer significant digits. Reading is such a rounding
for every decimal, whether it is one that is written or not. -/
theorem numbers_read_back (v : Scalar) (number : v.IsNumber) (m : ℕ)
    (table : SymbolTable) :
    let a : Term := .boxed m v
    Scalar.ofNumeral? a.kind (a.text table) = some v
      ∧ (∀ n, a.order (.boxed n v) = .eq
          ∧ ∃ tally, a.compareTally? (.boxed n v) = some (.eq, tally))
      ∧ ∀ (p : Precision) (x : Binary p), v = .float x →
          (x.isFinite = true →
            ∃ cs d, a.text table = Binary.signed x.isNegative (String.ofList cs)
              ∧ Decimal.IsPositional cs
              ∧ Decimal.ofChars? cs = some d
              ∧ p.RoundsTo d.value x.magnitude
              ∧ ∀ e : Decimal, p.RoundsTo e.value x.magnitude →
                  d.significant ≤ e.significant)
          ∧ ∀ negative cs d, Decimal.ofChars? cs = some d →
              ∃ k, p.RoundsTo d.value k
                ∧ Scalar.ofNumeral? a.kind
                    (Binary.signed negative (String.ofList cs))
                  = some (.float (.ofMagnitude p negative k)) := by
  intro a
  have text : a.text table = v.render := by
    rw [text_eq]
    exact Tree.text_boxed v
  refine ⟨?_, fun n => ?_, ?_⟩
  · rw [text]
    exact Scalar.ofNumeral?_render number
  · obtain ⟨tally, verdict⟩ := exists_compareTally?_boxed m n v
    refine ⟨?_, tally, verdict⟩
    rw [order, verdict]
  · rintro p x rfl
    refine ⟨fun finite => ?_, fun negative cs d decimal => ?_⟩
    · have below : x.magnitude < p.infinity := of_decide_eq_true finite
      refine ⟨_, _, ?_, p.isPositional_shortest x.magnitude,
        Decimal.ofChars?_positional _, Precision.roundsTo_spelt_shortest below,
        fun e rounds => ?_⟩
      · rw [text, Scalar.render_float, Binary.text_of_isFinite finite]
      · rw [Decimal.significant_spelt]
        exact Precision.significant_shortest_le
          ((Precision.roundsTo_iff below).mp rounds)
    · refine ⟨_, p.roundsTo_ofDecimal d, ?_⟩
      exact (Scalar.ofNumeral?_float x _).trans
        (congrArg (Option.map _) (Binary.ofText?_of_ofChars? negative decimal))

/-- The negative float of single precision that is next to zero. -/
theorem numbers_read_back_next_to_zero :
    let x : Binary .single := .ofNat .single 0x80000001
    let a : Term := .boxed 2 (.float x)
    (Scalar.float x).IsNumber ∧ x.isFinite = true
      ∧ Scalar.ofNumeral? a.kind (a.text ∅) = some (.float x)
      ∧ a.order (.boxed 3 (.float x)) = .eq
      ∧ (∃ cs : List Char, ∃ d : Decimal,
          a.text ∅ = Binary.signed true (String.ofList cs)
            ∧ Decimal.IsPositional cs ∧ Decimal.ofChars? cs = some d
            ∧ ∀ e : Decimal, Precision.single.RoundsTo e.value 1 →
                d.significant ≤ e.significant)
      ∧ ∃ k : ℕ, Precision.single.RoundsTo (Decimal.mk 8 (-46)).value k
          ∧ Scalar.ofNumeral? a.kind "-8e-46"
            = some (.float (.ofMagnitude .single true k)) := by
  intro x a
  have number : (Scalar.float x).IsNumber :=
    (by decide +kernel : x.isNaN = false)
  have finite : x.isFinite = true := by decide +kernel
  have sign : x.isNegative = true := by decide +kernel
  have least : x.magnitude = 1 := by decide +kernel
  obtain ⟨back, equal, float⟩ := numbers_read_back (.float x) number 2 ∅
  obtain ⟨written, reads⟩ := float .single x rfl
  obtain ⟨cs, d, text, positional, digits, -, fewest⟩ := written finite
  rw [sign] at text
  rw [least] at fewest
  exact ⟨number, finite, back, (equal 3).1,
    ⟨cs, d, text, positional, digits, fewest⟩,
    reads true "8e-46".toList (Decimal.mk 8 (-46)) (by decide +kernel)⟩

-- One digit is enough next to zero, a power of two is written in full, and
-- the negative zero keeps its sign.
example :
    (Scalar.float (.ofNat .single 0x80000001)).render
        = "-0.000000000000000000000000000000000000000000001"
      ∧ (Scalar.float (.ofNat .single 0x4b800000)).render = "16777216"
      ∧ (Scalar.float (.ofNat .double 0x8000000000000000)).render = "-0" := by
  decide +kernel

end Term

end TermGraph
