import Mathlib.Logic.Relation
import TermGraph.Proofs.Graph
import TermGraph.Term.Build

/-!
# Heaps and how they grow

A `Heap` is a term graph together with the serial numbers not yet given
out, all of them above the numbers of its members. That makes a new term
over members a member of a larger heap: its number is the next one, so it
is nobody's.

A heap grows by one term at a time, and `Heap.Built` lists the reasons
for which a term may be new. Either a *rule* admits its head with that
number of children, or it repeats what is there: a boxed scalar copied, a
node copied, a node over other children as many as before. The rule is a
parameter – the arities of a symbol table, the choice of a sampler – and
`Heap.Grows.keeps` is what every user of it is after: a condition on
nodes that the rule implies is kept for ever.

Whatever computes in `Fresh` is placed in a heap by `Fresh.Makes`. Its
computations neither look at their supply nor at the terms they are over,
so the lemmas about them need no more than that the heap has those terms.
-/

namespace TermGraph

/-- **A heap**: terms that live together, and the numbers for others. -/
structure Heap extends Graph where
  /-- The numbers not given out. -/
  supply : Supply
  /-- The numbers of the members are given out. -/
  serial_lt : ∀ t ∈ terms, t.serial < supply.next

/-- **A rule for heads**: which head goes with which number of
children. -/
abbrev Rule := Symbol → ℕ → Prop

namespace Heap

instance : Membership Term Heap := ⟨fun H t => t ∈ H.toGraph⟩

variable {H H' K : Heap} {p q : Rule} {t u : Term}

/-- Children of a member are members. -/
theorem mem_of_mem_children (ht : t ∈ H) (hu : u ∈ t.children) : u ∈ H :=
  H.children_mem t ht u hu

/-- **The heap with one more term**, which has the next number. -/
def add (H : Heap) (t : Term) (children : ∀ u ∈ t.children, u ∈ H)
    (serial : t.serial = H.supply.next) : Heap where
  toGraph := H.toGraph.insert t children fun u hu =>
    serial ▸ Nat.ne_of_lt (H.serial_lt u hu)
  supply := (Fresh.serial H.supply).2
  serial_lt := by
    rintro u (rfl | hu)
    · exact serial ▸ Nat.lt_succ_self _
    · exact Nat.lt_succ_of_lt (H.serial_lt u hu)

theorem mem_add {children : ∀ u ∈ t.children, u ∈ H}
    {serial : t.serial = H.supply.next} :
    u ∈ H.add t children serial ↔ u = t ∨ u ∈ H := Iff.rfl

/-- The heap of the two bounds of the order, with which everything
starts. -/
def bounds : Heap where
  toGraph := (Graph.empty.insert .least (fun _ hu => nomatch hu)
      (fun _ hu => absurd hu Graph.not_mem_empty)).insert
    .greatest (fun _ hu => nomatch hu)
      (fun u hu => by
        rcases Graph.mem_insert.mp hu with rfl | hu
        · decide
        · exact absurd hu Graph.not_mem_empty)
  supply := .initial
  serial_lt := by
    rintro t (rfl | rfl | hu)
    · decide
    · decide
    · exact absurd hu Graph.not_mem_empty

theorem mem_bounds : t ∈ bounds ↔ t = .least ∨ t = .greatest := by
  constructor
  · rintro (rfl | rfl | none)
    · exact .inr rfl
    · exact .inl rfl
    · exact absurd none Graph.not_mem_empty
  · rintro (rfl | rfl)
    · exact .inr (.inl rfl)
    · exact .inl rfl

/-! ## Growth -/

/-- **Why a term may be new** in a heap. -/
inductive Built (p : Rule) (H : Heap) : Term → Prop
  /-- It is a boxed scalar. -/
  | scalar (n : ℕ) (v : Scalar) : Built p H (.boxed n v)
  /-- The rule admits it. -/
  | admitted {n : ℕ} {s : Symbol} {ts : List Term} (rule : p s ts.length) :
      Built p H (.node n s ts)
  /-- It is a copy of a member. -/
  | copied {m n : ℕ} {s : Symbol} {ts : List Term}
      (held : .node m s ts ∈ H) : Built p H (.node n s ts)
  /-- It has the head of a member, and as many children. The bounds of the
  order are not built so. -/
  | refilled {m n : ℕ} {s : Symbol} {ts us : List Term}
      (held : .node m s us ∈ H) (same : ts.length = us.length)
      (plain : s.isSentinel = false) : Built p H (.node n s ts)

theorem Built.mono (h : Built p H t) (hpq : ∀ s k, p s k → q s k) :
    Built q H t := by
  cases h with
  | scalar n v => exact .scalar n v
  | admitted rule => exact .admitted (hpq _ _ rule)
  | copied held => exact .copied held
  | refilled held same plain => exact .refilled held same plain

/-- One term more. -/
def Step (p : Rule) (H H' : Heap) : Prop :=
  ∃ t children serial, Built p H t ∧ H' = H.add t children serial

/-- **Growth by any number of terms.** -/
def Grows (p : Rule) : Heap → Heap → Prop := Relation.ReflTransGen (Step p)

namespace Grows

theorem refl (H : Heap) : Grows p H H := Relation.ReflTransGen.refl

theorem trans (h : Grows p H H') (h' : Grows p H' K) : Grows p H K :=
  Relation.ReflTransGen.trans h h'

/-- What grows by one rule grows by every rule that admits as much. -/
theorem mono (h : Grows p H H') (hpq : ∀ s k, p s k → q s k) :
    Grows q H H' := by
  refine Relation.ReflTransGen.mono ?_ _ _ h
  rintro K K' ⟨t, children, serial, built, grown⟩
  exact ⟨t, children, serial, built.mono hpq, grown⟩

/-- **Members stay members.** -/
theorem mem (h : Grows p H H') (ht : t ∈ H) : t ∈ H' := by
  induction h with
  | refl => exact ht
  | tail _ step ih =>
    obtain ⟨u, _, _, _, rfl⟩ := step
    exact .inr ih

end Grows

/-- **A condition on the nodes of a heap.** -/
def Keeps (p : Rule) (H : Heap) : Prop :=
  ∀ n s ts, .node n s ts ∈ H → p s ts.length

theorem Keeps.mono (h : H.Keeps p) (hpq : ∀ s k, p s k → q s k) :
    H.Keeps q := fun n s ts ht => hpq s _ (h n s ts ht)

/-- What is kept holds at every depth. -/
theorem Keeps.all_tree (h : H.Keeps p) (ht : t ∈ H) : t.tree.All p :=
  (Term.all_tree_iff t).mpr fun n s ts found =>
    h n s ts (Graph.mem_of_occurs (G := H.toGraph) ht found)

theorem Keeps.add (h : H.Keeps q) (hpq : ∀ s k, p s k → q s k)
    (built : Built p H t) (children : ∀ u ∈ t.children, u ∈ H)
    (serial : t.serial = H.supply.next) :
    (H.add t children serial).Keeps q := by
  intro n s ts ht
  rcases mem_add.mp ht with new | old
  · -- A copied or refilled node has head and number of a member.
    cases built with
    | scalar => cases new
    | admitted rule =>
      cases new
      exact hpq _ _ rule
    | copied held =>
      cases new
      exact h _ _ _ held
    | refilled held same =>
      cases new
      rw [same]
      exact h _ _ _ held
  · exact h n s ts old

/-- **A condition that the rule implies is kept** while the heap grows. -/
theorem Grows.keeps (g : Grows p H H') (hpq : ∀ s k, p s k → q s k)
    (h : H.Keeps q) : H'.Keeps q := by
  induction g with
  | refl => exact h
  | tail _ step ih =>
    obtain ⟨t, children, serial, built, rfl⟩ := step
    exact ih.add hpq built children serial

/-- **The part of a heap that meets a condition**: the members of which
every node does. -/
def only (H : Heap) (p : Rule) : Heap where
  terms := {t | t ∈ H ∧ t.tree.All p}
  children_mem := fun _ ht _ hu =>
    ⟨H.children_mem _ ht.1 _ hu, Term.all_tree_of_mem_children ht.2 hu⟩
  eq_of_serial_eq := fun t ht u hu => H.eq_of_serial_eq t ht.1 u hu.1
  supply := H.supply
  serial_lt := fun t ht => H.serial_lt t ht.1

@[simp] theorem mem_only : t ∈ H.only p ↔ t ∈ H ∧ t.tree.All p := Iff.rfl

theorem keeps_only (H : Heap) (p : Rule) : (H.only p).Keeps p :=
  fun n s ts ht => (Term.all_tree_iff _).mp ht.2 n s ts (.self _)

/-- The heap grows by a new term with the next number. -/
theorem grows_add (built : Built p H t) (children : ∀ u ∈ t.children, u ∈ H)
    (serial : t.serial = H.supply.next) :
    Grows p H (H.add t children serial) :=
  .single ⟨t, children, serial, built, rfl⟩

end Heap

/-! ## Building in a heap -/

namespace Fresh

/-- **A computation makes a term in a heap**: the heap grows, the numbers
of the larger one are those the computation leaves, and the term is a
member. -/
def Makes (p : Rule) (x : Fresh Term) (H : Heap) : Prop :=
  ∃ H' : Heap, H.Grows p H' ∧ (x H.supply).2 = H'.supply
    ∧ (x H.supply).1 ∈ H'

variable {p q : Rule} {H : Heap} {t u : Term}

theorem Makes.mono {x : Fresh Term} (h : Makes p x H)
    (hpq : ∀ s k, p s k → q s k) : Makes q x H := by
  obtain ⟨H', grows, supply, made⟩ := h
  exact ⟨H', grows.mono hpq, supply, made⟩

/-- A term that is there is made of nothing. -/
theorem makes_pure (ht : t ∈ H) : Makes p (pure t) H :=
  ⟨H, .refl H, rfl, ht⟩

theorem makes_bind {x : Fresh Term} {f : Term → Fresh Term}
    (hx : Makes p x H)
    (hf : ∀ H' t, H.Grows p H' → t ∈ H' → Makes p (f t) H') :
    Makes p (x >>= f) H := by
  obtain ⟨H₁, grows₁, supply₁, mem₁⟩ := hx
  obtain ⟨H₂, grows₂, supply₂, mem₂⟩ := hf H₁ _ grows₁ mem₁
  rw [← supply₁] at supply₂ mem₂
  exact ⟨H₂, grows₁.trans grows₂, supply₂, mem₂⟩

theorem makes_newBoxed (v : Scalar) : Makes p (Term.newBoxed v) H :=
  ⟨_, H.grows_add (.scalar H.supply.next v) (fun _ hu => nomatch hu) rfl, rfl,
    .inl rfl⟩

/-- A new node over members is made if there is a reason for it. -/
theorem makes_newNode {s : Symbol} {ts : List Term}
    (built : H.Built p (.node H.supply.next s ts)) (hts : ∀ t ∈ ts, t ∈ H) :
    Makes p (Term.newNode s ts) H :=
  ⟨_, H.grows_add built hts rfl, rfl, .inl rfl⟩

theorem makes_copy (ht : t ∈ H) : Makes p t.copy H := by
  cases t with
  | boxed n v => exact makes_newBoxed v
  | node n s ts =>
    exact makes_newNode (.copied ht) fun u hu =>
      H.mem_of_mem_children ht hu

/-- A new list cell over members. -/
theorem makes_newCons (rule : p .consTag 2) (ht : t ∈ H) (hu : u ∈ H) :
    Makes p (Term.newCons t u) H := by
  refine makes_newNode (.admitted rule) fun x hx => ?_
  rcases List.mem_cons.mp hx with rfl | hx
  · exact ht
  · exact List.mem_singleton.mp hx ▸ hu

/-- **A new list of members.** -/
theorem makes_newList (nil : p .nilTag 0) (cons : p .consTag 2)
    {ts : List Term} (hts : ∀ t ∈ ts, t ∈ H) : Makes p (Term.newList ts) H := by
  -- Each cell enlarges the heap, so the others are made in any heap.
  have cells : ∀ (us : List Term) (tail : Term) (K : Heap),
      (∀ u ∈ us, u ∈ K) → tail ∈ K →
        Makes p (us.foldlM (fun tail head => Term.newCons head tail) tail) K := by
    intro us
    induction us with
    | nil => exact fun tail K _ htail => makes_pure htail
    | cons u us ih =>
      intro tail K hus htail
      rw [List.foldlM_cons]
      refine makes_bind (makes_newCons cons (hus u (.head _)) htail) ?_
      exact fun K' cell grows hcell =>
        ih cell K' (fun x hx => grows.mem (hus x (.tail _ hx))) hcell
  refine makes_bind (makes_newNode (.admitted nil) (List.forall_mem_nil _)) ?_
  exact fun H' empty grows hempty =>
    cells _ empty H' (fun u hu => grows.mem (hts u (List.mem_reverse.mp hu)))
      hempty

/-- **What a checked application builds** is a node over its children that
are as many as it says, and its head is neither a tag of boxed scalars nor
a bound of the order. -/
theorem of_apply_eq_ok {s : Symbol} {k : ℕ} {ts : List Term}
    {fresh : Fresh Term} (h : s.apply k ts = .ok fresh) :
    fresh = Term.newNode s ts ∧ ts.length = k ∧ s.isBoxed = false
      ∧ s.isSentinel = false := by
  unfold Symbol.apply Symbol.applyError? at h
  split at h
  · cases h
  · next accepted =>
    cases h
    split at accepted
    · cases accepted
    · next unboxed =>
      split at accepted
      · cases accepted
      · next plain =>
        dsimp only at accepted
        split at accepted
        · cases accepted
        · split at accepted
          · cases accepted
          · next counted =>
            exact ⟨rfl, not_not.mp counted, Bool.eq_false_iff.mpr unboxed,
              Bool.eq_false_iff.mpr plain⟩

/-- A node over other children is made in the heap of the node. -/
theorem makes_withChildren {ts : List Term} {fresh : Fresh Term} (ht : t ∈ H)
    (hts : ∀ u ∈ ts, u ∈ H) (h : t.withChildren ts = .ok fresh) :
    Makes p fresh H := by
  cases t with
  | boxed n v => cases h
  | node n s us =>
    obtain ⟨rfl, same, -, plain⟩ := of_apply_eq_ok h
    exact makes_newNode (.refilled ht same plain) hts

end Fresh

end TermGraph
