import TermGraph.Proofs.ArityDiscipline
import TermGraph.Proofs.Lists

/-!
# Texts in the order of their code points

Texts are ordered by their bytes, and a character takes one byte or up to
four. That this is the order of the code points is what the encoding was
made for, and it rests on two things. The first byte of a character says how
many follow, and says more where more follow; so of two characters of
different lengths the first bytes decide, and they decide for the longer,
which has the greater code point (`lt_of_followers_lt`). And what
follows is the rest of the code point to base 64, the highest place first,
so of two characters of one length the bytes decide as digits do
(`compare_cons_continuation`).

Either way two characters are told apart before anything behind them is
looked at, if they are told apart at all. So a pair of texts is settled
character by character, and where one text ends no byte is left for the
other to be compared with.
-/

namespace TermGraph

/-! ## Digits -/

theorem compare_ofNat {m n : ℕ} (hm : m < UInt8.size) (hn : n < UInt8.size) :
    compare (UInt8.ofNat m) (UInt8.ofNat n) = compare m n := by
  rw [compare_byte, byteValue, byteValue, compare_natCast,
    UInt8.toNat_ofNat_of_lt' hm, UInt8.toNat_ofNat_of_lt' hn]

theorem compare_add_left (k m n : ℕ) : compare (k + m) (k + n) = compare m n :=
  (compareOfLessAndEq_map (fun _ _ => Nat.add_lt_add_iff_left.symm)
    (fun _ _ => Nat.add_left_cancel_iff.symm) m n).symm

/-- **The last digit matters where the others are the same.** -/
theorem compare_div_then_mod (k m n : ℕ) :
    (compare (m / k) (n / k)).then (compare (m % k) (n % k)) = compare m n := by
  rcases Nat.lt_trichotomy (m / k) (n / k) with below | same | above
  · rw [Nat.compare_eq_lt.mpr below,
      Nat.compare_eq_lt.mpr (Nat.lt_of_div_lt_div below)]
    rfl
  · rw [Nat.compare_eq_eq.mpr same, Ordering.eq_then,
      ← compare_add_left (k * (m / k)) (m % k), Nat.div_add_mod]
    rw [same, Nat.div_add_mod]
  · rw [Nat.compare_eq_gt.mpr above,
      Nat.compare_eq_gt.mpr (Nat.lt_of_div_lt_div above)]
    rfl

/-- **The bytes that follow the first**: the last `k` digits of a number to
base 64, the highest first, each marked as not the first byte. -/
def continuation : ℕ → ℕ → List UInt8
  | 0, _ => []
  | k + 1, n => continuation k (n / 64) ++ [UInt8.ofNat (128 + n % 64)]

/-- **A first digit and those that follow are compared as the number** they
are the digits of, whatever the mark on the first and whatever stands
behind. -/
theorem compare_cons_continuation {mark k m n : ℕ}
    (hm : mark + m / 64 ^ k < UInt8.size) (hn : mark + n / 64 ^ k < UInt8.size)
    (r s : List UInt8) :
    compare (UInt8.ofNat (mark + m / 64 ^ k) :: (continuation k m ++ r))
        (UInt8.ofNat (mark + n / 64 ^ k) :: (continuation k n ++ s))
      = (compare m n).then (compare r s) := by
  induction k generalizing m n r s with
  | zero =>
    rw [continuation, continuation, List.nil_append, List.nil_append,
      List.compare_cons_cons, compare_ofNat hm hn, compare_add_left, pow_zero,
      Nat.div_one, Nat.div_one]
  | succ k ih =>
    -- The last digit is passed on to what stands behind.
    have small (j : ℕ) : 128 + j % 64 < UInt8.size :=
      (Nat.add_lt_add_left (Nat.mod_lt j (by decide)) _).trans (by decide)
    rw [pow_succ', ← Nat.div_div_eq_div_mul] at hm hn ⊢
    rw [← Nat.div_div_eq_div_mul, continuation, continuation,
      List.append_assoc, List.append_assoc, ih hm hn, List.singleton_append,
      List.singleton_append, List.compare_cons_cons,
      compare_ofNat (small m) (small n), compare_add_left, ← Ordering.then_assoc,
      compare_div_then_mod]

/-! ## Characters -/

/-- The number of bytes that follow the first one of a code point. -/
def followers (n : ℕ) : ℕ :=
  if n ≤ 0x7f then 0 else if n ≤ 0x7ff then 1 else if n ≤ 0xffff then 2 else 3

/-- The mark on a first byte that says how many follow. -/
def leadMark : ℕ → ℕ
  | 0 => 0
  | 1 => 0xc0
  | 2 => 0xe0
  | _ => 0xf0

/-- The first byte of a code point. -/
def leadByte (n : ℕ) : ℕ := leadMark (followers n) + n / 64 ^ followers n

/-- The four lengths of a character. -/
theorem followers_leadByte (n : ℕ) :
    n ≤ 0x7f ∧ followers n = 0 ∧ leadByte n = n
      ∨ 0x7f < n ∧ n ≤ 0x7ff ∧ followers n = 1 ∧ leadByte n = 0xc0 + n / 64
      ∨ 0x7ff < n ∧ n ≤ 0xffff ∧ followers n = 2
        ∧ leadByte n = 0xe0 + n / 4096
      ∨ 0xffff < n ∧ followers n = 3 ∧ leadByte n = 0xf0 + n / 262144 := by
  unfold leadByte
  by_cases one : n ≤ 0x7f
  · have : followers n = 0 := if_pos one
    simp [this, leadMark, one]
  by_cases two : n ≤ 0x7ff
  · have : followers n = 1 := by rw [followers, if_neg one, if_pos two]
    simp [this, leadMark, two, Nat.lt_of_not_le one]
  by_cases three : n ≤ 0xffff
  · have : followers n = 2 := by
      rw [followers, if_neg one, if_neg two, if_pos three]
    simp [this, leadMark, three, Nat.lt_of_not_le two]
  · have : followers n = 3 := by
      rw [followers, if_neg one, if_neg two, if_neg three]
    simp [this, leadMark, Nat.lt_of_not_le three]

theorem leadByte_lt {n : ℕ} (h : n < 0x110000) : leadByte n < UInt8.size := by
  have := followers_leadByte n
  rw [UInt8.size]
  omega

/-- **Where more bytes follow, the first byte says more**, and the code point
is greater. -/
theorem lt_of_followers_lt {m n : ℕ} (h : followers m < followers n) :
    m < n ∧ leadByte m < leadByte n := by
  have := followers_leadByte m
  have := followers_leadByte n
  omega

theorem toNat_lt_of_char (c : Char) : c.toNat < 0x110000 := by
  have valid : c.toNat < 0xd800 ∨ 0xdfff < c.toNat ∧ c.toNat < 0x110000 :=
    c.valid
  omega

/-- **A character is its first byte and the digits that follow.** -/
theorem utf8EncodeChar_eq (c : Char) :
    String.utf8EncodeChar c
      = UInt8.ofNat (leadByte c.toNat)
        :: continuation (followers c.toNat) c.toNat := by
  have range := toNat_lt_of_char c
  -- The first byte has room for the highest digit of its range.
  rcases followers_leadByte c.toNat with ⟨le, count, lead⟩
    | ⟨gt, le, count, lead⟩ | ⟨gt, le, count, lead⟩ | ⟨gt, count, lead⟩ <;>
    rw [count, lead]
  · simp [String.utf8EncodeChar, continuation, le]
  · have digit : c.toNat / 64 % 32 = c.toNat / 64 := by omega
    simp [String.utf8EncodeChar, continuation, le, digit, Nat.not_le_of_lt gt,
      add_comm]
  · have digit : c.toNat / 4096 % 16 = c.toNat / 4096 := by omega
    have below : ¬ c.toNat ≤ 0x7f := by omega
    simp [String.utf8EncodeChar, continuation, le, digit, below,
      Nat.not_le_of_lt gt, add_comm]
  · have digit : c.toNat / 262144 % 8 = c.toNat / 262144 := by omega
    have below : ¬ c.toNat ≤ 0x7f ∧ ¬ c.toNat ≤ 0x7ff := by omega
    simp [String.utf8EncodeChar, continuation, digit, below,
      Nat.not_le_of_lt gt, add_comm, Nat.div_div_eq_div_mul]

/-- **Two characters are told apart before what stands behind them.** -/
theorem compare_utf8EncodeChar_append (c d : Char) (r s : List UInt8) :
    compare (String.utf8EncodeChar c ++ r) (String.utf8EncodeChar d ++ s)
      = (compare c.toNat d.toNat).then (compare r s) := by
  have hc := leadByte_lt (toNat_lt_of_char c)
  have hd := leadByte_lt (toNat_lt_of_char d)
  rw [utf8EncodeChar_eq, utf8EncodeChar_eq]
  generalize c.toNat = m at hc
  generalize d.toNat = n at hd
  rw [List.cons_append, List.cons_append]
  rcases Nat.lt_trichotomy (followers m) (followers n) with fewer | same | more
  · obtain ⟨below, lead⟩ := lt_of_followers_lt fewer
    rw [List.compare_cons_cons, compare_ofNat hc hd, Nat.compare_eq_lt.mpr lead,
      Nat.compare_eq_lt.mpr below]
    rfl
  · unfold leadByte at hc hd ⊢
    rw [same] at hc ⊢
    exact compare_cons_continuation hc hd r s
  · obtain ⟨above, lead⟩ := lt_of_followers_lt more
    rw [List.compare_cons_cons, compare_ofNat hc hd, Nat.compare_eq_gt.mpr lead,
      Nat.compare_eq_gt.mpr above]
    rfl

/-! ## Texts -/

/-- **The code points of a text**, in order. -/
def codePoints (s : String) : List ℕ := s.toList.map Char.toNat

/-- **The order of bytes is that of code points**, character by character. -/
theorem compare_utf8 (s t : String) :
    compare (utf8 s) (utf8 t) = compare (codePoints s) (codePoints t) := by
  rw [utf8_eq_flatMap, utf8_eq_flatMap, codePoints, codePoints]
  generalize s.toList = cs
  generalize t.toList = ds
  induction cs generalizing ds with
  | nil =>
    cases ds with
    | nil => rfl
    | cons d ds => rw [List.flatMap_cons, utf8EncodeChar_eq]; rfl
  | cons c cs ih =>
    cases ds with
    | nil => rw [List.flatMap_cons, utf8EncodeChar_eq]; rfl
    | cons d ds =>
      rw [List.flatMap_cons, List.flatMap_cons, compare_utf8EncodeChar_append,
        ih, List.map_cons, List.map_cons, List.compare_cons_cons]

namespace Graph

variable {G : Graph} {m n : ℕ} {s t : String}

/-- **Texts are in the order of their code points.** The walk over two boxed
texts ends with the order of their UTF-8 bytes, and that is the
lexicographic order of the sequences of their code points: the first
characters that differ decide, however many bytes they take, and if there
are none the text that ends first is the lesser. -/
theorem texts_in_code_point_order (hs : Term.boxed m (.text s) ∈ G)
    (ht : Term.boxed n (.text t) ∈ G) :
    let a : Term := .boxed m (.text s)
    let b : Term := .boxed n (.text t)
    (∃ tally, a.compareTally? b
        = some (compare (codePoints s) (codePoints t), tally))
      ∧ a.order b = compare (utf8 s) (utf8 t)
      ∧ a.order b = compare (codePoints s) (codePoints t)
      ∧ Lexicographic compare (codePoints s) (codePoints t) (a.order b) := by
  intro a b
  have wa : a.tree.WellTagged := Tree.all_boxed _
  have wb : b.tree.WellTagged := Tree.all_boxed _
  have bytes : a.order b = compare (utf8 s) (utf8 t) := order_eq hs ht wa wb
  have points := bytes.trans (compare_utf8 s t)
  refine ⟨⟨_, points ▸ compareTally?_eq_order hs ht wa wb⟩, bytes, points, ?_⟩
  rw [points]
  exact lexicographic_compareLex compare _ _

/-- A character of three bytes is below one of four, after the same two, though
in units of sixteen bits it would be above. -/
theorem texts_in_code_point_order_planes :
    let a : Term := .boxed 2 (.text "zé\uffff")
    let b : Term := .boxed 3 (.text "zé😀")
    (∃ G : Graph, a ∈ G ∧ b ∈ G) ∧ a.order b = .lt := by
  intro a b
  obtain ⟨G, hG⟩ := Workspace.exists_graph_run ∅
    [.obtain (.scalar (.text "zé\uffff")), .obtain (.scalar (.text "zé😀"))]
  have ha : a ∈ G := (hG a (List.mem_of_getElem? (i := 0) rfl)).1
  have hb : b ∈ G := (hG b (List.mem_of_getElem? (i := 1) rfl)).1
  obtain ⟨-, -, points, -⟩ := texts_in_code_point_order ha hb
  exact ⟨⟨G, ha, hb⟩, points.trans (by decide +kernel)⟩

end Graph

end TermGraph
