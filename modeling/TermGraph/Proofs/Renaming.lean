import TermGraph.Proofs.Course
import TermGraph.Proofs.Naming
import TermGraph.Proofs.Places

/-!
# Other symbols in the same order

A comparison asks of two tags which of them is less, and of two terms
whether they are one instance. It never asks which symbols and which numbers
these are. So two pairs of terms are compared alike if the ones become the
others with other symbols in the same order and with other numbers that tell
as many instances apart.

Both sides are given as relations. `Symbol.InOrder` is what is asked of
symbols that correspond: built-in symbols correspond to themselves, because
the tags of boxed scalars do not change, and pairs are ordered alike on both
sides. No function is asked for on all symbols, and there is none to be had:
the symbols are as many as the numbers, so a map that preserved their order
strictly would leave each of them as it is. `Term.Corresponds` carries two
such relations through terms, and `Term.compareTally?_of_corresponds` is the
statement about comparisons. Nothing is assumed of the terms. They may be
unchecked, and where a scalar meets a node with its tag there is no verdict
on either side.

A renaming (`Term.rename`) is the case of a function, which need only
preserve the order of the symbols that are there (`Symbol.Renames`).
-/

namespace TermGraph

namespace Symbol

/-- **Symbols correspond in order.** -/
structure InOrder (R : Symbol → Symbol → Prop) : Prop where
  /-- A built-in symbol corresponds to itself. -/
  builtin : ∀ {s}, s.isBuiltin = true → R s s
  /-- What corresponds is ordered alike. -/
  compare_eq : ∀ {a a' b b'}, R a a' → R b b' → compare a' b' = compare a b

variable {a b : Symbol}

/-- The symbols that are not built in lie between the reserved stretch and the
greatest symbol. -/
theorem isBuiltin_eq_false_iff :
    a.isBuiltin = false ↔ firstFree ≤ a.toNat ∧ a.toNat < maxTag.toNat := by
  have top : a.toNat ≤ maxTag.toNat := Nat.le_of_lt_succ a.id.toNat_lt
  rw [isBuiltin, Bool.or_eq_false_iff, decide_eq_false_iff_not, Nat.not_lt,
    beq_eq_false_iff_ne]
  refine and_congr_right fun _ => ⟨fun ne => ?_, fun below same => ?_⟩
  · exact lt_of_le_of_ne top fun same => ne (eq_of_toNat_eq same)
  · exact absurd (congrArg toNat same) below.ne

theorem isBuiltin_eq_true_iff :
    a.isBuiltin = true ↔ a.toNat < firstFree ∨ a.toNat = maxTag.toNat := by
  rw [isBuiltin, Bool.or_eq_true, decide_eq_true_iff, beq_iff_eq]
  exact or_congr_right ⟨congrArg toNat, eq_of_toNat_eq⟩

namespace InOrder

variable {R : Symbol → Symbol → Prop} {s s' : Symbol}

/-- **It is enough to know the symbols that are not built in.** These lie
between the same built-in ones on both sides, and so only their order among
themselves is left. -/
theorem of_increasing (builtin : ∀ {s}, s.isBuiltin = true → R s s)
    (unique : ∀ {s s' s''}, R s s' → R s s'' → s' = s'')
    (foreign : ∀ {s s'}, R s s' → s.isBuiltin = false → s'.isBuiltin = false)
    (increasing : ∀ {a a' b b'}, R a a' → R b b' → a.isBuiltin = false →
      b.isBuiltin = false → a.toNat < b.toNat → a'.toNat < b'.toNat) :
    InOrder R := by
  have lt : ∀ {a a' b b'}, R a a' → R b b' → a.toNat < b.toNat →
      a'.toNat < b'.toNat := by
    intro a a' b b' ha hb less
    cases hA : a.isBuiltin with
    | true =>
      rw [unique ha (builtin hA)]
      cases hB : b.isBuiltin with
      | true => rwa [unique hb (builtin hB)]
      | false =>
        have range := isBuiltin_eq_false_iff.mp hB
        have range' := isBuiltin_eq_false_iff.mp (foreign hb hB)
        rcases isBuiltin_eq_true_iff.mp hA with low | top <;> omega
    | false =>
      cases hB : b.isBuiltin with
      | true =>
        rw [unique hb (builtin hB)]
        have range := isBuiltin_eq_false_iff.mp hA
        have range' := isBuiltin_eq_false_iff.mp (foreign ha hA)
        rcases isBuiltin_eq_true_iff.mp hB with low | top <;> omega
      | false => exact increasing ha hb hA hB less
  refine ⟨builtin, fun {a a' b b'} ha hb => ?_⟩
  rw [compare_def, compare_def]
  rcases Nat.lt_trichotomy a.toNat b.toNat with less | same | greater
  · rw [Nat.compare_eq_lt.mpr less, Nat.compare_eq_lt.mpr (lt ha hb less)]
  · cases eq_of_toNat_eq same
    rw [unique ha hb, Nat.compare_eq_eq.mpr rfl, Nat.compare_eq_eq.mpr rfl]
  · rw [Nat.compare_eq_gt.mpr greater, Nat.compare_eq_gt.mpr (lt hb ha greater)]

/-- A built-in symbol corresponds to no other. -/
theorem eq_of_isBuiltin (h : InOrder R) (hs : R s s')
    (builtin : s.isBuiltin = true) : s' = s := by
  have same := h.compare_eq hs (h.builtin builtin)
  rw [compare_eq_eq_iff.mpr rfl] at same
  exact compare_eq_eq_iff.mp same

/-- Nor does another symbol correspond to it. -/
theorem isBuiltin_eq (h : InOrder R) (hs : R s s') :
    s'.isBuiltin = s.isBuiltin := by
  cases builtin : s.isBuiltin with
  | true => rw [h.eq_of_isBuiltin hs builtin, builtin]
  | false =>
    refine Bool.eq_false_iff.mpr fun builtin' => ?_
    have same := h.compare_eq hs (h.builtin builtin')
    rw [compare_eq_eq_iff.mpr rfl] at same
    rw [compare_eq_eq_iff.mp same.symm, builtin'] at builtin
    cases builtin

/-- The tags of boxed scalars correspond to themselves. -/
theorem isBoxed_eq (h : InOrder R) (hs : R s s') :
    s'.isBoxed = s.isBoxed := by
  cases builtin : s.isBuiltin with
  | true => rw [h.eq_of_isBuiltin hs builtin]
  | false =>
    have foreign : s'.isBuiltin = false := by rw [h.isBuiltin_eq hs, builtin]
    rw [isBoxed_of_isBuiltin_eq_false builtin,
      isBoxed_of_isBuiltin_eq_false foreign]

end InOrder

end Symbol

namespace Term

/-! ## Terms that correspond -/

/-- **Two terms correspond** if they are built alike from scalars and from
symbols that correspond, with numbers that do. -/
inductive Corresponds (R : Symbol → Symbol → Prop) (r : ℕ → ℕ → Prop) :
    Term → Term → Prop
  /-- Two boxes of one scalar. -/
  | boxed {m n : ℕ} {v : Scalar} (serial : r m n) :
      Corresponds R r (boxed m v) (boxed n v)
  /-- Two nodes, over children that correspond one by one. -/
  | node {m n : ℕ} {s s' : Symbol} {ts us : List Term} (serial : r m n)
      (head : R s s') (length : ts.length = us.length)
      (children : ∀ {t u}, (t, u) ∈ ts.zip us → Corresponds R r t u) :
      Corresponds R r (node m s ts) (node n s' us)

namespace Corresponds

variable {R : Symbol → Symbol → Prop} {r r' : ℕ → ℕ → Prop}
  {a a' b b' : Term} {ts us : List Term}

theorem of_children {m n : ℕ} {s s' : Symbol} (serial : r m n) (head : R s s')
    (h : List.Forall₂ (Corresponds R r) ts us) :
    Corresponds R r (.node m s ts) (.node n s' us) :=
  .node serial head h.length_eq (List.forall₂_iff_zip.mp h).2

theorem mono (h : a.Corresponds R r a') (imp : ∀ i j, r i j → r' i j) :
    a.Corresponds R r' a' := by
  induction h with
  | boxed serial => exact .boxed (imp _ _ serial)
  | node serial head length _ ih => exact .node (imp _ _ serial) head length ih

theorem serial (h : a.Corresponds R r a') : r a.serial a'.serial := by
  cases h with
  | boxed serial => exact serial
  | node serial => exact serial

theorem tag (order : Symbol.InOrder R) (h : a.Corresponds R r a') :
    R a.tag a'.tag := by
  cases h with
  | boxed =>
    exact order.builtin (Symbol.isBuiltin_of_isBoxed (Scalar.isBoxed_tag _))
  | node _ head => exact head

theorem isComplex_eq (h : a.Corresponds R r a') :
    a'.isComplex = a.isComplex := by
  cases h <;> rfl

theorem children_related (h : a.Corresponds R r a') :
    List.Forall₂ (Corresponds R r) a.children a'.children := by
  cases h with
  | boxed => exact .nil
  | node _ _ length children =>
    exact List.forall₂_iff_zip.mpr ⟨length, children⟩

/-! ## What a comparison asks -/

/-- **One instance is one instance on the other side.** -/
theorem same_eq (unique : Relator.BiUnique r) (ha : a.Corresponds R r a')
    (hb : b.Corresponds R r b') : a'.same b' = a.same b := by
  rw [Bool.eq_iff_iff]
  exact beq_iff_eq.trans
    ((Relator.rel_eq unique ha.serial hb.serial).symm.trans beq_iff_eq.symm)

/-- **A look at a pair tells the same.** -/
theorem glance_eq (order : Symbol.InOrder R) (ha : a.Corresponds R r a')
    (hb : b.Corresponds R r b') : glance a' b' = glance a b := by
  unfold glance
  rw [order.compare_eq (ha.tag order) (hb.tag order)]
  cases ha with
  | boxed => cases hb <;> rfl
  | node _ _ length =>
    cases hb with
    | boxed => rfl
    | node _ _ length' =>
      dsimp only
      rw [length, length']

end Corresponds

/-! ## The walk -/

/-- **A pair without a verdict**: a boxed scalar and a node with one tag. -/
def stuck (a b : Term) : Bool :=
  a.tag == b.tag && a.isComplex != b.isComplex

/-- **One round of the walk**, for whatever pair. -/
theorem walk_cons (a b : Term) (work : List (Term × Term)) (c : Tally) :
    walk ((a, b) :: work) c
      = if a.same b then walk work c.skip
        else if stuck a b then none
        else
          match glance a b with
          | .eq => walk (a.children.zip b.children ++ work) c.inspect
          | o => some (o, c.inspect) := by
  cases h : stuck a b with
  | true =>
    rw [stuck, Bool.and_eq_true, beq_iff_eq, bne_iff_ne] at h
    obtain ⟨tags, shapes⟩ := h
    rw [walk.eq_def, if_pos rfl]
    dsimp only
    rw [Symbol.compare_eq_eq_iff.mpr tags]
    rcases a with ⟨m, v⟩ | ⟨m, s, ts⟩ <;> rcases b with ⟨n, w⟩ | ⟨n, t, us⟩
    · exact absurd rfl shapes
    · rfl
    · rfl
    · exact absurd rfl shapes
  | false =>
    rw [stuck, Bool.and_eq_false_imp] at h
    rw [if_neg Bool.false_ne_true, walk_eq_walkWith, walkWith_cons work c
      fun tags => bne_eq_false_iff_eq.mp (h (beq_iff_eq.mpr tags))]
    simp only [← walk_eq_walkWith, Tally.count]
    cases a.same b with
    | true => rfl
    | false => cases a.glance b <;> rfl

variable {R : Symbol → Symbol → Prop} {r : ℕ → ℕ → Prop} {a a' b b' : Term}

theorem Corresponds.stuck_eq (order : Symbol.InOrder R)
    (ha : a.Corresponds R r a') (hb : b.Corresponds R r b') :
    stuck a' b' = stuck a b := by
  have tags : (a'.tag == b'.tag) = (a.tag == b.tag) := by
    rw [Bool.eq_iff_iff, beq_iff_eq, beq_iff_eq, ← Symbol.compare_eq_eq_iff,
      ← Symbol.compare_eq_eq_iff,
      order.compare_eq (ha.tag order) (hb.tag order)]
  rw [stuck, stuck, tags, ha.isComplex_eq, hb.isComplex_eq]

/-- Pairs of terms that correspond, one by one. -/
def PairsCorrespond (R : Symbol → Symbol → Prop) (r : ℕ → ℕ → Prop) :
    List (Term × Term) → List (Term × Term) → Prop :=
  List.Forall₂ fun p q => p.1.Corresponds R r q.1 ∧ p.2.Corresponds R r q.2

theorem pairsCorrespond_zip {ts ts' us us' : List Term}
    (hts : List.Forall₂ (Corresponds R r) ts ts')
    (hus : List.Forall₂ (Corresponds R r) us us') :
    PairsCorrespond R r (ts.zip us) (ts'.zip us') := by
  induction hts generalizing us us' with
  | nil => exact .nil
  | cons first _ ih =>
    cases hus with
    | nil => exact .nil
    | cons first' rest' => exact .cons ⟨first, first'⟩ (ih rest')

/-- **The walk goes through pairs that correspond alike**, to the same
verdict and with the same counts. -/
theorem walk_of_corresponds (order : Symbol.InOrder R)
    (unique : Relator.BiUnique r) (work work' : List (Term × Term)) (c : Tally)
    (h : PairsCorrespond R r work work') : walk work' c = walk work c := by
  match work, work', h with
  | [], [], .nil => rfl
  | (a, b) :: work, (a', b') :: work', .cons ⟨ha, hb⟩ rest =>
    rw [walk_cons, walk_cons, ha.same_eq unique hb, ha.stuck_eq order hb,
      ha.glance_eq order hb,
      walk_of_corresponds order unique work work' _ rest,
      walk_of_corresponds order unique _ _ _
        (List.rel_append (pairsCorrespond_zip ha.children_related
          hb.children_related) rest)]
termination_by pending work
decreasing_by
  · exact pending_lt_pending_cons _ _
  · exact pending_children_append_lt _ _ _

/-- **Terms that correspond are compared alike**, with the same verdict, if
any, and the same counts. -/
theorem compareTally?_of_corresponds (order : Symbol.InOrder R)
    (unique : Relator.BiUnique r) (ha : a.Corresponds R r a')
    (hb : b.Corresponds R r b') : a'.compareTally? b' = a.compareTally? b :=
  walk_of_corresponds order unique _ _ _ (.cons ⟨ha, hb⟩ .nil)

/-! ## Renamings -/

mutual

/-- **A term with other symbols**, and with the numbers it has. -/
def rename (f : Symbol → Symbol) : Term → Term
  | boxed n v => boxed n v
  | node n s ts => node n (f s) (renameAll f ts)

/-- Several terms with other symbols. -/
def renameAll (f : Symbol → Symbol) : List Term → List Term
  | [] => []
  | t :: ts => t.rename f :: renameAll f ts

end

theorem renameAll_eq_map (f : Symbol → Symbol) (ts : List Term) :
    renameAll f ts = ts.map (rename f) := by
  induction ts with
  | nil => rfl
  | cons t ts ih => rw [renameAll, ih, List.map_cons]

end Term

namespace Symbol

/-- **A strictly increasing renaming** of the symbols in a set that are not
built in. -/
structure Renames (f : Symbol → Symbol) (S : Set Symbol) : Prop where
  /-- A built-in symbol stays. -/
  builtin : ∀ {s}, s.isBuiltin = true → f s = s
  /-- Another symbol of the set becomes one that is not built in either. -/
  foreign : ∀ {s}, s ∈ S → s.isBuiltin = false → (f s).isBuiltin = false
  /-- The symbols of the set that are not built in stay in order. -/
  increasing : ∀ {a b}, a ∈ S → b ∈ S → a.isBuiltin = false →
    b.isBuiltin = false → a.toNat < b.toNat → (f a).toNat < (f b).toNat

variable {f : Symbol → Symbol} {S : Set Symbol}

/-- **A renaming lets symbols correspond in order.** -/
theorem Renames.inOrder (h : Renames f S) :
    InOrder fun s s' => (s.isBuiltin = true ∨ s ∈ S) ∧ s' = f s := by
  have member : ∀ {s}, s.isBuiltin = true ∨ s ∈ S → s.isBuiltin = false →
      s ∈ S := fun hs foreign => hs.resolve_left (by simp [foreign])
  refine .of_increasing (fun builtin => ⟨.inl builtin, (h.builtin builtin).symm⟩)
    ?_ ?_ ?_
  · rintro s _ _ ⟨-, rfl⟩ ⟨-, rfl⟩
    rfl
  · rintro s _ ⟨hs, rfl⟩ foreign
    exact h.foreign (member hs foreign) foreign
  · rintro a _ b _ ⟨ha, rfl⟩ ⟨hb, rfl⟩ foreign foreign'
    exact h.increasing (member ha foreign) (member hb foreign') foreign foreign'

end Symbol

namespace Term

/-- **A term corresponds to its renaming.** -/
theorem corresponds_rename {f : Symbol → Symbol} {S : Set Symbol} {t : Term}
    (heads : t.tree.All fun s _ => s.isBuiltin = true ∨ s ∈ S) :
    t.Corresponds (fun s s' => (s.isBuiltin = true ∨ s ∈ S) ∧ s' = f s) Eq
      (t.rename f) := by
  induction t with
  | boxed n v => exact .boxed rfl
  | node n s ts ih =>
    rw [tree_node, Tree.all_node] at heads
    obtain ⟨here, below⟩ := heads
    rw [rename, renameAll_eq_map]
    refine .of_children rfl ⟨here, rfl⟩ (List.forall₂_map_right_iff.mpr ?_)
    exact List.forall₂_same.mpr fun t ht =>
      ih t ht (below _ (List.mem_map_of_mem ht))

/-- **A strictly increasing renaming changes no comparison**, neither its
verdict nor its counts. -/
theorem compareTally?_rename {f : Symbol → Symbol} {S : Set Symbol} {a b : Term}
    (h : Symbol.Renames f S)
    (ha : a.tree.All fun s _ => s.isBuiltin = true ∨ s ∈ S)
    (hb : b.tree.All fun s _ => s.isBuiltin = true ∨ s ∈ S) :
    (a.rename f).compareTally? (b.rename f) = a.compareTally? b := by
  have unique : Relator.BiUnique (Eq : ℕ → ℕ → Prop) :=
    ⟨fun _ _ _ h h' => h.trans h'.symm, fun _ _ _ h h' => h.symm.trans h'⟩
  exact compareTally?_of_corresponds h.inOrder unique (corresponds_rename ha)
    (corresponds_rename hb)

end Term

end TermGraph
