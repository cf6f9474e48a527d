import TermGraph.Proofs.TotalOrder
import TermGraph.Term.Stream

/-!
# The byte stream is a code for unfolded terms

Read from the left, the bytes of a term say at every point how they go
on. The four bytes of a tag tell whether a value or a number of children
follows. A value of a numeric type has a width of its own; a text runs up
to the first `0xff`, which is no byte of any UTF-8 text; and a number of
children is followed by that many terms. So the bytes of a term can be
cut off whatever stands behind them, and no closing delimiter is needed –
`Tree.bytes_append_inj`. That the code is injective, and that no code
word starts another, are the two cases of it in which nothing stands
behind one or both of the terms.

The count is written modulo `2 ^ 64`, which is where the bound on the
number of children comes from.
-/

namespace TermGraph

/-! ## Numbers -/

@[simp] theorem length_littleEndian (k n : ℕ) :
    (littleEndian k n).length = k := by
  induction k generalizing n with
  | zero => rfl
  | succ k ih => exact congrArg Nat.succ (ih _)

/-- **`k` bytes tell apart what is less than `256 ^ k`.** -/
theorem eq_of_littleEndian_eq {k m n : ℕ} (hm : m < 256 ^ k)
    (hn : n < 256 ^ k) (h : littleEndian k m = littleEndian k n) : m = n := by
  induction k generalizing m n with
  | zero => rw [Nat.lt_one_iff.mp hm, Nat.lt_one_iff.mp hn]
  | succ k ih =>
    obtain ⟨low, high⟩ := List.cons.inj h
    have hlow : m % 256 = n % 256 := congrArg UInt8.toNat low
    have hhigh := ih (Nat.div_lt_of_lt_mul (Nat.pow_succ' ▸ hm))
      (Nat.div_lt_of_lt_mul (Nat.pow_succ' ▸ hn)) high
    rw [← Nat.div_add_mod m 256, ← Nat.div_add_mod n 256, hlow, hhigh]

/-- The bytes of a number are cut off by their width. -/
theorem littleEndian_append_inj {k m n : ℕ} (hm : m < 256 ^ k)
    (hn : n < 256 ^ k) {r s : List UInt8}
    (h : littleEndian k m ++ r = littleEndian k n ++ s) : m = n ∧ r = s := by
  obtain ⟨number, rest⟩ := List.append_inj h
    ((length_littleEndian k m).trans (length_littleEndian k n).symm)
  exact ⟨eq_of_littleEndian_eq hm hn number, rest⟩

theorem Symbol.bytes_append_inj {a b : Symbol} {r s : List UInt8}
    (h : a.bytes ++ r = b.bytes ++ s) : a = b ∧ r = s := by
  obtain ⟨number, rest⟩ :=
    littleEndian_append_inj a.id.toNat_lt b.id.toNat_lt h
  exact ⟨Symbol.eq_of_toNat_eq number, rest⟩

/-! ## Texts -/

/-- Lists closed by an element they do not have are cut off by it. -/
theorem append_cons_inj {α : Type} {x : α} {l m r s : List α} (hl : x ∉ l)
    (hm : x ∉ m) (h : l ++ x :: r = m ++ x :: s) : l = m ∧ r = s := by
  induction l generalizing m with
  | nil =>
    cases m with
    | nil => exact ⟨rfl, (List.cons.inj h).2⟩
    | cons y m => exact absurd (List.cons.inj h).1 (List.ne_of_not_mem_cons hm)
  | cons y l ih =>
    cases m with
    | nil => exact absurd (List.cons.inj h).1.symm (List.ne_of_not_mem_cons hl)
    | cons z m =>
      obtain ⟨head, tail⟩ := List.cons.inj h
      obtain ⟨same, rest⟩ := ih (List.not_mem_of_not_mem_cons hl)
        (List.not_mem_of_not_mem_cons hm) tail
      exact ⟨congrArg₂ List.cons head same, rest⟩

/-- The byte `b`, taken from a number below `0xff`, is not `0xff`. -/
theorem ofNat_ne_ff {n : ℕ} (h : n < 255) : (0xff : UInt8) ≠ UInt8.ofNat n := by
  intro e
  have he : (255 : ℕ) = n % 256 := congrArg UInt8.toNat e
  omega

theorem ff_notMem_utf8EncodeChar (c : Char) :
    (0xff : UInt8) ∉ String.utf8EncodeChar c := by
  unfold String.utf8EncodeChar
  dsimp only
  split_ifs
  -- A first byte is at most `0xf7`, and each further one at most `0xbf`.
  all_goals
    simp only [List.mem_cons, List.not_mem_nil, or_false, not_or]
    repeat' constructor
    all_goals exact ofNat_ne_ff (by omega)

/-- **No UTF-8 text has a byte `0xff`.** -/
theorem ff_notMem_utf8 (s : String) : (0xff : UInt8) ∉ utf8 s := by
  rw [utf8_eq_flatMap]
  intro h
  obtain ⟨c, -, hc⟩ := List.mem_flatMap.mp h
  exact ff_notMem_utf8EncodeChar c hc

namespace Scalar

variable {v w : Scalar} {r s : List UInt8}

/-- **The bytes of a value are cut off**, given the tag. -/
theorem bytes_append_inj (h : v.tag = w.tag) :
    v.bytes ++ r = w.bytes ++ s → v = w ∧ r = s := by
  refine tagInduct h ?_ ?_ ?_ ?_ ?_
  · intro x y e
    obtain ⟨number, rest⟩ :=
      littleEndian_append_inj x.toBitVec.isLt y.toBitVec.isLt e
    exact ⟨congrArg int32 (Int32.toBitVec_inj.mp (BitVec.eq_of_toNat_eq number)),
      rest⟩
  · intro x y e
    obtain ⟨number, rest⟩ :=
      littleEndian_append_inj x.toBitVec.isLt y.toBitVec.isLt e
    exact ⟨congrArg int64 (Int64.toBitVec_inj.mp (BitVec.eq_of_toNat_eq number)),
      rest⟩
  · rintro ⟨x⟩ ⟨y⟩ e
    obtain ⟨number, rest⟩ := littleEndian_append_inj x.isLt y.isLt e
    exact ⟨congrArg (float32 ∘ Binary.mk) (BitVec.eq_of_toNat_eq number), rest⟩
  · rintro ⟨x⟩ ⟨y⟩ e
    obtain ⟨number, rest⟩ := littleEndian_append_inj x.isLt y.isLt e
    exact ⟨congrArg (float64 ∘ Binary.mk) (BitVec.eq_of_toNat_eq number), rest⟩
  · intro x y e
    rw [bytes, bytes, List.append_assoc, List.append_assoc] at e
    obtain ⟨same, rest⟩ :=
      append_cons_inj (ff_notMem_utf8 x) (ff_notMem_utf8 y) e
    exact ⟨congrArg text (utf8_injective same), rest⟩

end Scalar

/-! ## Unfolded terms -/

namespace Tree

mutual

/-- **The code of a tree**: its tag, then the bytes of its value, or the
number of its children and their codes. -/
def bytes : Tree → List UInt8
  | boxed v => v.tag.bytes ++ v.bytes
  | node s ts => s.bytes ++ (littleEndian 8 ts.length ++ bytesAll ts)

/-- The codes of several trees, one after another. -/
def bytesAll : List Tree → List UInt8
  | [] => []
  | t :: ts => t.bytes ++ bytesAll ts

end

theorem bytesAll_append (ts us : List Tree) :
    bytesAll (ts ++ us) = bytesAll ts ++ bytesAll us := by
  induction ts with
  | nil => rfl
  | cons t ts ih => rw [List.cons_append, bytesAll, bytesAll, ih, List.append_assoc]

variable {t u : Tree}

theorem narrow_node {s : Symbol} {ts : List Tree} :
    (node s ts).Narrow ↔ ts.length < UInt64.size ∧ ∀ t ∈ ts, t.Narrow :=
  all_node s ts

theorem bytesAll_append_inj {ts us : List Tree}
    (hlen : ts.length = us.length)
    (h : ∀ t ∈ ts, ∀ u ∈ us, ∀ r s : List UInt8,
      t.bytes ++ r = u.bytes ++ s → t = u ∧ r = s)
    {r s : List UInt8} (e : bytesAll ts ++ r = bytesAll us ++ s) :
    ts = us ∧ r = s := by
  induction ts generalizing us with
  | nil =>
    cases List.length_eq_zero_iff.mp hlen.symm
    exact ⟨rfl, e⟩
  | cons t ts ih =>
    cases us with
    | nil => cases hlen
    | cons u us =>
      rw [bytesAll, bytesAll, List.append_assoc, List.append_assoc] at e
      obtain ⟨first, tail⟩ := h t (.head _) u (.head _) _ _ e
      obtain ⟨others, rest⟩ := ih (Nat.succ.inj hlen)
        (fun t ht u hu => h t (.tail _ ht) u (.tail _ hu)) tail
      exact ⟨congrArg₂ List.cons first others, rest⟩

/-- **The bytes of a tree are cut off**, whatever stands behind them: they
determine the tree and where it ends. -/
theorem bytes_append_inj (ht : t.WellTagged) (hu : u.WellTagged)
    (nt : t.Narrow) (nu : u.Narrow) {r s : List UInt8}
    (e : t.bytes ++ r = u.bytes ++ s) : t = u ∧ r = s := by
  induction t generalizing u r s with
  | boxed v =>
    cases u with
    | boxed w =>
      rw [bytes, bytes, List.append_assoc, List.append_assoc] at e
      obtain ⟨tag, value⟩ := Symbol.bytes_append_inj e
      obtain ⟨same, rest⟩ := Scalar.bytes_append_inj tag value
      exact ⟨congrArg boxed same, rest⟩
    | node b us =>
      rw [bytes, bytes, List.append_assoc, List.append_assoc] at e
      exact absurd (Symbol.bytes_append_inj e).1
        (Scalar.tag_ne_of_isBoxed_eq_false (wellTagged_node.mp hu).1 v)
  | node a ts ih =>
    obtain ⟨ha, hts⟩ := wellTagged_node.mp ht
    obtain ⟨hwidth, nts⟩ := narrow_node.mp nt
    cases u with
    | boxed w =>
      rw [bytes, bytes, List.append_assoc, List.append_assoc] at e
      exact absurd (Symbol.bytes_append_inj e).1.symm
        (Scalar.tag_ne_of_isBoxed_eq_false ha w)
    | node b us =>
      have hus := (wellTagged_node.mp hu).2
      obtain ⟨hwidth', nus⟩ := narrow_node.mp nu
      rw [bytes, bytes, List.append_assoc, List.append_assoc,
        List.append_assoc, List.append_assoc] at e
      obtain ⟨tag, counted⟩ := Symbol.bytes_append_inj e
      obtain ⟨count, listed⟩ := littleEndian_append_inj hwidth hwidth' counted
      obtain ⟨children, rest⟩ := bytesAll_append_inj count
        (fun t ht u hu r s => ih t ht (hts t ht) (hus u hu) (nts t ht) (nus u hu))
        listed
      exact ⟨congrArg₂ node tag children, rest⟩

/-- **Trees with one code are one tree.** -/
theorem eq_of_bytes_eq (ht : t.WellTagged) (hu : u.WellTagged)
    (nt : t.Narrow) (nu : u.Narrow) (e : t.bytes = u.bytes) : t = u :=
  (bytes_append_inj ht hu nt nu (congrArg (· ++ []) e)).1

/-- **No code starts another one.** -/
theorem eq_of_bytes_isPrefix (ht : t.WellTagged) (hu : u.WellTagged)
    (nt : t.Narrow) (nu : u.Narrow) (e : t.bytes <+: u.bytes) : t = u := by
  obtain ⟨r, hr⟩ := e
  rw [← List.append_nil u.bytes] at hr
  exact (bytes_append_inj ht hu nt nu hr).1

end Tree

/-! ## The stream -/

namespace Term

/-- The bytes of a term start with its header and go on with those of its
children. -/
theorem bytes_tree (t : Term) :
    t.tree.bytes = t.header ++ Tree.bytesAll (trees t.children) := by
  cases t with
  | boxed n v => exact (List.append_nil _).symm
  | node n s ts =>
    rw [tree, Tree.bytes, header, children, List.append_assoc, trees_eq_map,
      List.length_map]

/-- **Emitting pending terms appends their codes**, in order. -/
theorem toList_emit (work : List Term) (out : Array UInt8) :
    (emit work out).toList = out.toList ++ Tree.bytesAll (trees work) := by
  fun_induction emit work out with
  | case1 out => exact (List.append_nil _).symm
  | case2 out t rest ih =>
    rw [ih, trees, Tree.bytesAll, bytes_tree, trees_eq_map, List.map_append,
      ← trees_eq_map, ← trees_eq_map, Tree.bytesAll_append,
      Array.toList_appendList, List.append_assoc, List.append_assoc]

/-- **The stream of a term is the code of its unfolding**: what is shared
leaves no trace. -/
theorem toList_stream (t : Term) : t.stream.toList = t.tree.bytes := by
  rw [stream, toList_emit]
  exact List.append_nil _

end Term

namespace Graph

variable {G : Graph} {a b : Term}

/-- **The stream agrees with the order**, in both directions: terms have
one stream exactly if the order finds them equal. And a stream says where
it ends: none starts another one. -/
theorem stream_eq_iff_order_eq (ha : a ∈ G) (hb : b ∈ G)
    (wa : a.tree.WellTagged) (wb : b.tree.WellTagged) (na : a.tree.Narrow)
    (nb : b.tree.Narrow) :
    a.stream.toList = a.tree.bytes
      ∧ (a.stream = b.stream ↔ a.order b = .eq)
      ∧ (a.stream.toList <+: b.stream.toList → a.stream = b.stream) := by
  rw [order_eq_eq_iff ha hb wa wb, ← Array.toList_inj, a.toList_stream,
    b.toList_stream]
  refine ⟨rfl, ⟨Tree.eq_of_bytes_eq wa wb na nb, congrArg Tree.bytes⟩, ?_⟩
  exact fun start =>
    congrArg Tree.bytes (Tree.eq_of_bytes_isPrefix wa wb na nb start)

/-- A node over a text and one that has it twice differ in their streams,
and the shorter stream does not start the longer one. -/
theorem stream_eq_iff_order_eq_sharing :
    onceOver.order twiceOver = .lt ∧ onceOver.stream ≠ twiceOver.stream
      ∧ ¬ onceOver.stream.toList <+: twiceOver.stream.toList := by
  have narrow : onceOver.tree.Narrow ∧ twiceOver.tree.Narrow := by
    simp [onceOver, twiceOver, sharedText, Tree.Narrow, UInt64.size]
  obtain ⟨_, equal, start⟩ := stream_eq_iff_order_eq onceOver_mem_sharing
    twiceOver_mem_sharing wellTagged_onceOver wellTagged_twiceOver narrow.1
    narrow.2
  have differ : onceOver.stream ≠ twiceOver.stream := by
    rw [Ne, equal, onceOver_order_twiceOver]
    decide
  exact ⟨onceOver_order_twiceOver, differ, differ ∘ start⟩

end Graph

end TermGraph
