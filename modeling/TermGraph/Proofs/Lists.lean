import TermGraph.Proofs.Heap
import TermGraph.Proofs.StructuralOrder

/-!
# The order of lists

A list is a chain of cells that ends in the empty list, and it is compared
like any other term: nothing knows that it is a list. Nodes with one head
are told apart by their number of children before the children are looked
at, so a term with few children is below one with many. That lists are
nevertheless in lexicographic order, a long list below a short one where an
early element says so, is because a cell always has two children, of which
the element comes before the rest, and because the empty list comes just
before the cells among the built-in symbols: where one of the lists ends,
a tag decides.

The lists are built from the end to the front. What is built for a list is
a cell over what is built for its tail (`Term.newList_cons`), and this is
the only thing to know of the building: numbers and sharing of the elements
are as they come, since the walk decides the structural order.
-/

namespace TermGraph

/-! ## Lexicographic order -/

section Lexicographic

variable {α β : Type} {cmp : α → α → Ordering} {xs ys ps qs : List α}

/-- Equal beginnings are passed over. -/
theorem compareLex_append (h : List.Forall₂ (cmp · · = .eq) ps qs)
    (xs ys : List α) :
    List.compareLex cmp (ps ++ xs) (qs ++ ys) = List.compareLex cmp xs ys := by
  induction h with
  | nil => rfl
  | cons same _ ih =>
    rw [List.cons_append, List.cons_append, List.compareLex_cons_cons, same, ih]
    rfl

/-- What is left equal is equal element by element. -/
theorem compareLex_eq_eq_iff :
    List.compareLex cmp xs ys = .eq ↔ List.Forall₂ (cmp · · = .eq) xs ys := by
  induction xs generalizing ys with
  | nil =>
    cases ys with
    | nil => exact iff_of_true rfl .nil
    | cons y ys => exact iff_of_false (fun h => nomatch h) fun h => nomatch h
  | cons x xs ih =>
    cases ys with
    | nil => exact iff_of_false (fun h => nomatch h) fun h => nomatch h
    | cons y ys =>
      rw [List.compareLex_cons_cons, Ordering.then_eq_eq, ih,
        List.forall₂_cons]

/-- **A verdict on two sequences is lexicographic** if the first difference
makes it, and the end of a sequence where there is none. -/
structure Lexicographic (cmp : α → α → Ordering) (xs ys : List α)
    (verdict : Ordering) : Prop where
  /-- Behind equal elements, the first that are not equal decide. -/
  decided : ∀ ps qs x y xs' ys', xs = ps ++ x :: xs' → ys = qs ++ y :: ys' →
    List.Forall₂ (cmp · · = .eq) ps qs → cmp x y ≠ .eq → verdict = cmp x y
  /-- If the left sequence ends before that, it is the lesser. -/
  shorter : ∀ qs y ys', ys = qs ++ y :: ys' →
    List.Forall₂ (cmp · · = .eq) xs qs → verdict = .lt
  /-- If the right one does, it is the lesser. -/
  longer : ∀ ps x xs', xs = ps ++ x :: xs' →
    List.Forall₂ (cmp · · = .eq) ps ys → verdict = .gt
  /-- The sequences are equal if they are element by element. -/
  equal : verdict = .eq ↔ List.Forall₂ (cmp · · = .eq) xs ys

theorem lexicographic_compareLex (cmp : α → α → Ordering) (xs ys : List α) :
    Lexicographic cmp xs ys (List.compareLex cmp xs ys) := by
  refine ⟨?_, ?_, ?_, compareLex_eq_eq_iff⟩
  · rintro ps qs x y xs' ys' rfl rfl same apart
    rw [compareLex_append same, List.compareLex_cons_cons]
    cases verdict : cmp x y with
    | eq => exact absurd verdict apart
    | lt => rfl
    | gt => rfl
  · rintro qs y ys' rfl same
    rw [← List.append_nil xs, compareLex_append same, List.compareLex_nil_cons]
  · rintro ps x xs' rfl same
    rw [← List.append_nil ys, compareLex_append same, List.compareLex_cons_nil]

/-- The comparison of the elements is all that matters of them. -/
theorem compareLex_map {cmp' : β → β → Ordering} {f : α → β}
    (h : ∀ x ∈ xs, ∀ y ∈ ys, cmp x y = cmp' (f x) (f y)) :
    List.compareLex cmp xs ys = List.compareLex cmp' (xs.map f) (ys.map f) := by
  induction xs generalizing ys with
  | nil => cases ys <;> rfl
  | cons x xs ih =>
    cases ys with
    | nil => rfl
    | cons y ys =>
      rw [List.map_cons, List.map_cons, List.compareLex_cons_cons,
        List.compareLex_cons_cons, h x (.head _) y (.head _),
        ih fun x hx y hy => h x (.tail _ hx) y (.tail _ hy)]

end Lexicographic

/-! ## Lists unfolded -/

namespace Tree

/-- **A list unfolded**: cells over the empty list. -/
def ofList : List Tree → Tree
  | [] => node .nilTag []
  | t :: ts => node .consTag [t, ofList ts]

/-- **Lists are ordered lexicographically**, by induction along their
cells. -/
theorem order_ofList (ts us : List Tree) :
    (ofList ts).order (ofList us) = List.compareLex order ts us := by
  induction ts generalizing us with
  | nil => cases us <;> rfl
  | cons t ts ih =>
    cases us with
    | nil => rfl
    | cons u us =>
      rw [List.compareLex_cons_cons, ← ih us]
      show (t.order u).then (((ofList ts).order (ofList us)).then .eq) = _
      rw [Ordering.then_eq]

theorem wellTagged_ofList {ts : List Tree} (h : ∀ t ∈ ts, t.WellTagged) :
    (ofList ts).WellTagged := by
  induction ts with
  | nil => exact (all_node _ _).mpr ⟨rfl, List.forall_mem_nil _⟩
  | cons t ts ih =>
    obtain ⟨here, behind⟩ := List.forall_mem_cons.mp h
    refine (all_node _ _).mpr ⟨rfl, List.forall_mem_cons.mpr ⟨here, ?_⟩⟩
    exact List.forall_mem_singleton.mpr (ih behind)

end Tree

/-! ## Building a list -/

namespace Term

variable {t : Term} {ts : List Term} {u : Supply}

/-- **A list is a cell over the list of the rest.** -/
theorem newList_cons (t : Term) (ts : List Term) :
    newList (t :: ts) = newList ts >>= newCons t := by
  simp only [newList, List.reverse_cons, List.foldlM_append, List.foldlM_cons,
    List.foldlM_nil, bind_pure, bind_assoc]

/-- **What a list says**, whenever it is built. -/
theorem tree_newList (ts : List Term) (u : Supply) :
    (newList ts u).1.tree = Tree.ofList (ts.map tree) := by
  induction ts with
  | nil => rfl
  | cons t ts ih =>
    rw [newList_cons, List.map_cons, Tree.ofList, ← ih]
    rfl

/-- The elements are found in the list. -/
theorem occurs_newList (ht : t ∈ ts) (u : Supply) :
    t.Occurs (newList ts u).1 := by
  induction ht with
  | head ts =>
    rw [newList_cons]
    exact .under (.head _) (.self t)
  | tail x _ ih =>
    rw [newList_cons]
    exact .under (.tail _ (.head _)) ih

theorem wellTagged_newList (h : ∀ t ∈ ts, t.tree.WellTagged) (u : Supply) :
    (newList ts u).1.tree.WellTagged := by
  rw [tree_newList]
  exact Tree.wellTagged_ofList (List.forall_mem_map.mpr h)

end Term

namespace Graph

variable {G : Graph} {xs ys : List Term} {u v : Supply}

/-- Lists over members of a heap, built one after the other, live
together. -/
theorem exists_newList {H : Heap} (hx : ∀ x ∈ xs, x ∈ H)
    (hy : ∀ y ∈ ys, y ∈ H) :
    ∃ G : Graph, (Term.newList xs H.supply).1 ∈ G
      ∧ (Term.newList ys (Term.newList xs H.supply).2).1 ∈ G := by
  have made : ∀ {zs : List Term} {K : Heap}, (∀ z ∈ zs, z ∈ K) →
      Fresh.Makes (fun _ _ => True) (Term.newList zs) K :=
    fun hz => Fresh.makes_newList trivial trivial hz
  obtain ⟨H', grows, supply, first⟩ := made hx
  obtain ⟨H'', grows', -, second⟩ := made fun y hy' => grows.mem (hy y hy')
  rw [← supply] at second
  exact ⟨H''.toGraph, grows'.mem first, second⟩

/-- **Lists are in lexicographic order.** Two lists, built at any times over
any terms that live together, compare as the sequences of their elements
do: equal elements are passed over, the first that are not equal decide, and
if there are none the list that ends first is the lesser. So two lists are
equal exactly if they have as many elements, equal one by one. -/
theorem lists_in_lexicographic_order (hl : (Term.newList xs u).1 ∈ G)
    (hm : (Term.newList ys v).1 ∈ G) (wx : ∀ x ∈ xs, x.tree.WellTagged)
    (wy : ∀ y ∈ ys, y.tree.WellTagged) :
    let l : Term := (Term.newList xs u).1
    let m : Term := (Term.newList ys v).1
    (∃ tally, l.compareTally? m
        = some (List.compareLex Term.order xs ys, tally))
      ∧ l.order m = List.compareLex Term.order xs ys
      ∧ Lexicographic Term.order xs ys (l.order m) := by
  intro l m
  have wl : l.tree.WellTagged := Term.wellTagged_newList wx u
  have wm : m.tree.WellTagged := Term.wellTagged_newList wy v
  have elements : ∀ x ∈ xs, ∀ y ∈ ys, x.order y = x.tree.order y.tree :=
    fun x hx y hy => order_eq (mem_of_occurs hl (Term.occurs_newList hx u))
      (mem_of_occurs hm (Term.occurs_newList hy v)) (wx x hx) (wy y hy)
  have verdict : l.order m = List.compareLex Term.order xs ys := by
    rw [order_eq hl hm wl wm, Term.tree_newList, Term.tree_newList,
      Tree.order_ofList, compareLex_map elements]
  refine ⟨⟨_, verdict ▸ compareTally?_eq_order hl hm wl wm⟩, verdict, ?_⟩
  rw [verdict]
  exact lexicographic_compareLex Term.order xs ys

/-- A list with a greater element is the greater, though it is shorter, and
the lesser if the other goes on behind the same element. -/
theorem lists_in_lexicographic_order_bounds :
    let xs : List Term := [.greatest]
    let ys : List Term := [.least, .greatest]
    let zs : List Term := [.greatest, .least]
    let l : Term := (Term.newList xs .initial).1
    let m : Term := (Term.newList ys (Term.newList xs .initial).2).1
    let n : Term := (Term.newList zs (Term.newList xs .initial).2).1
    (∃ G : Graph, l ∈ G ∧ m ∈ G) ∧ (∃ G : Graph, l ∈ G ∧ n ∈ G)
      ∧ (∀ t ∈ xs ++ ys ++ zs, t.tree.WellTagged)
      ∧ l.order m = .gt ∧ l.order n = .lt := by
  intro xs ys zs l m n
  have held : ∀ t ∈ xs ++ ys ++ zs, t ∈ Heap.bounds := by
    simp [xs, ys, zs, Heap.mem_bounds]
  have tagged : ∀ t ∈ xs ++ ys ++ zs, t.tree.WellTagged := by
    intro t ht
    rcases Heap.mem_bounds.mp (held t ht) with rfl | rfl <;>
      exact (Tree.all_node _ _).mpr ⟨rfl, List.forall_mem_nil _⟩
  have order : ∀ t ∈ xs ++ ys ++ zs, ∀ u ∈ xs ++ ys ++ zs,
      t.order u = t.tree.order u.tree := fun t ht u hu =>
    order_eq (G := Heap.bounds.toGraph) (held t ht) (held u hu) (tagged t ht)
      (tagged u hu)
  have greater : Term.greatest.order .least = .gt :=
    order .greatest (.head _) .least (.tail _ (.head _))
  have same : Term.greatest.order .greatest = .eq :=
    order .greatest (.head _) .greatest (.head _)
  obtain ⟨holds, hz⟩ := List.forall_mem_append.mp held
  obtain ⟨hx, hy⟩ := List.forall_mem_append.mp holds
  obtain ⟨fits, wz⟩ := List.forall_mem_append.mp tagged
  obtain ⟨wx, wy⟩ := List.forall_mem_append.mp fits
  obtain ⟨G, hl, hm⟩ := exists_newList hx hy
  obtain ⟨G', hl', hn⟩ := exists_newList hx hz
  obtain ⟨-, -, first⟩ := lists_in_lexicographic_order hl hm wx wy
  obtain ⟨-, -, second⟩ := lists_in_lexicographic_order hl' hn wx wz
  refine ⟨⟨G, hl, hm⟩, ⟨G', hl', hn⟩, tagged, ?_, ?_⟩
  · rw [← greater]
    exact first.decided [] [] _ _ [] _ rfl rfl .nil (by rw [greater]; decide)
  · exact second.shorter [.greatest] _ _ rfl (.cons same .nil)

end Graph

end TermGraph
