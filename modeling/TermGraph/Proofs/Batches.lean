import Mathlib.Data.List.Sort
import TermGraph.Proofs.Members
import TermGraph.Term.Batch

/-!
# Sorting a batch and filling a set with it agree

A batch is ascending when it is sorted, and since the sort is stable, each
class of equal members stands in it as it stood in the batch. Dropping the
repeats of an ascending list leaves the first of every class, so the
distinct members are the earliest ones of their classes. They represent the
batch, as does what a set holds that was filled with it, and so the sort
and every set agree on the number of classes.

Nothing of this looks at instances, and neither does the outcome. A batch of
the same trees, in whatever sequence and over whatever instances, is sorted
to the same trees.

A batch is addressed by a key, as in its definitions: what is sorted may
carry more than the term, its position for one.
-/

namespace TermGraph

namespace Batch

variable {α β : Type} (key : β → Term) (f : α → β)

/-! ## Batches of other things -/

theorem sortBy_map (l : List α) :
    sortBy key (l.map f) = (sortBy (key ∘ f) l).map f := by
  have same : ∀ a ∈ l, ∀ b ∈ l,
      (((key ∘ f) a).order ((key ∘ f) b) != .gt)
        = ((key (f a)).order (key (f b)) != .gt) := fun _ _ _ _ => rfl
  exact (List.map_mergeSort same).symm

theorem dropRepeats_map (a : α) (l : List α) :
    dropRepeats key (f a) (l.map f) = (dropRepeats (key ∘ f) a l).map f := by
  induction l generalizing a with
  | nil => rfl
  | cons b l ih =>
    rw [List.map_cons, dropRepeats, dropRepeats, ih, ih, apply_ite (List.map f)]
    rfl

/-- **What is sorted by a key may be given by other things**, each of which
has something with a key. -/
theorem distinctBy_map (l : List α) :
    distinctBy key (l.map f) = (distinctBy (key ∘ f) l).map f := by
  rw [distinctBy, distinctBy, sortBy_map]
  cases sortBy (key ∘ f) l with
  | nil => rfl
  | cons a sorted => exact congrArg (f a :: ·) (dropRepeats_map key f a sorted)

end Batch

namespace Graph.Member

variable {G : Graph}

open Batch

/-! ## Counting by fingerprint -/

/-- A member filed under the fingerprint of its stream. -/
def file (t : G.Member) : Hashed := .ofTerm t.term

/-- **Looking at fingerprints first changes nothing**: equal members have
one fingerprint, as they have one stream. -/
theorem file_beq (t u : G.Member) :
    (u.file.hash == t.file.hash && u.file.term == t.file.term)
      = (t == u) := by
  rw [BEq.comm (a := t)]
  by_cases same : u == t
  · have filed : u.file.hash = t.file.hash :=
      congrArg fingerprint (stream_eq_of_beq same)
    rw [filed, beq_self_eq_true, Bool.true_and]
    rfl
  · rw [Bool.not_eq_true] at same
    rw [same, Bool.and_eq_false_iff]
    exact .inr same

/-- A member is added to what is filed unless an equal one is there. -/
theorem insertHashed_file (held : List G.Member) (t : G.Member) :
    insertHashed (held.map file) t.file = (held.insert t).map file := by
  have holds : (held.map file).any
      (fun u => u.hash == t.file.hash && u.term == t.file.term)
        = held.contains t := by
    rw [List.any_map, List.contains_eq_any_beq]
    exact congrArg held.any (funext (file_beq t))
  rw [insertHashed, holds, List.insert]
  exact (apply_ite (List.map file) (held.contains t = true) held
    (t :: held)).symm

/-- What the set by fingerprints holds after a batch. -/
theorem exists_foldl_insertHashed {held seen : List G.Member}
    (h : Represents held seen) (ms : List G.Member) :
    ∃ now, (ms.map file).foldl insertHashed (held.map file) = now.map file
      ∧ Represents now (seen ++ ms) := by
  induction ms generalizing held seen with
  | nil => exact ⟨held, rfl, by rwa [List.append_nil]⟩
  | cons t ms ih =>
    obtain ⟨now, run, holds⟩ := ih (h.insert t)
    refine ⟨now, ?_, by rwa [List.append_cons]⟩
    rw [List.map_cons, List.foldl_cons, insertHashed_file, run]

/-- **The set by fingerprints counts the classes.** -/
theorem countHashed_eq (ms : List G.Member) :
    countHashed (ms.map term) = {x | x ∈ ms.map tree}.ncard := by
  obtain ⟨now, run, holds⟩ := exists_foldl_insertHashed .nil ms
  rw [List.nil_append] at holds
  rw [← holds.length_eq, countHashed, List.map_map]
  exact (congrArg List.length run).trans (List.length_map _)

/-! ## Sorting -/

section Sorting

variable {α : Type} (key : α → G.Member)

theorem sortBy_eq (l : List α) :
    sortBy (term ∘ key) l
      = l.mergeSort fun a b => (compare (key a) (key b)).isLE := by
  have le : ∀ o : Ordering, (o != .gt) = o.isLE := by decide
  exact congrArg (fun r => l.mergeSort r) (funext₂ fun a b => le _)

theorem trans_key (a b c : α) (hab : (compare (key a) (key b)).isLE)
    (hbc : (compare (key b) (key c)).isLE) : (compare (key a) (key c)).isLE :=
  Std.TransOrd.isLE_trans hab hbc

theorem total_key (a b : α) :
    ((compare (key a) (key b)).isLE || (compare (key b) (key a)).isLE) := by
  rw [Std.OrientedOrd.eq_swap (a := key b)]
  cases compare (key a) (key b) <;> rfl

/-- **A sorted batch is ascending.** -/
theorem pairwise_sortBy (l : List α) :
    (sortBy (term ∘ key) l).Pairwise fun a b =>
      (compare (key a) (key b)).isLE := by
  rw [sortBy_eq]
  exact List.pairwise_mergeSort (trans_key key) (total_key key) l

theorem sortBy_perm (l : List α) : (sortBy (term ∘ key) l).Perm l :=
  List.mergeSort_perm l _

/-- **Sorting keeps equal members in the sequence they came in.** -/
theorem filter_sortBy (l : List α) (t : G.Member) :
    (sortBy (term ∘ key) l).filter (key · == t)
      = l.filter (key · == t) := by
  -- A class is ascending as it stands, and so it is found in the result.
  have level : (l.filter (key · == t)).Pairwise fun a b =>
      (compare (key a) (key b)).isLE := by
    refine List.pairwise_of_forall_mem_list fun a ha b hb => ?_
    have same := BEq.trans (List.mem_filter.mp ha).2
      (BEq.symm (List.mem_filter.mp hb).2)
    rw [Std.LawfulBEqOrd.compare_eq_iff_beq.mpr same]
    rfl
  have kept := List.sublist_mergeSort (trans_key key) (total_key key) level
    List.filter_sublist
  rw [← sortBy_eq] at kept
  have found := kept.filter (key · == t)
  rw [List.filter_filter] at found
  simp only [Bool.and_self] at found
  exact (found.eq_of_length
    ((sortBy_perm key l).filter _).length_eq.symm).symm

/-! ## The distinct members -/

theorem dropRepeats_of_beq {a b : α} (same : key a == key b) (l : List α) :
    dropRepeats (term ∘ key) a (b :: l) = dropRepeats (term ∘ key) a l :=
  if_pos same

theorem dropRepeats_of_not_beq {a b : α} (differ : ¬ key a == key b)
    (l : List α) :
    dropRepeats (term ∘ key) a (b :: l) = b :: dropRepeats (term ∘ key) b l :=
  if_neg differ

/-- **What is left of an ascending list is strictly ascending.** -/
theorem pairwise_dropRepeats {a : α} {l : List α}
    (ascending : (a :: l).Pairwise fun b c =>
      (compare (key b) (key c)).isLE) :
    (a :: dropRepeats (term ∘ key) a l).Pairwise fun b c =>
      compare (key b) (key c) = .lt := by
  induction l generalizing a with
  | nil => exact List.pairwise_singleton _ a
  | cons b l ih =>
    obtain ⟨below, rest⟩ := List.pairwise_cons.mp ascending
    obtain ⟨hb, hl⟩ := List.forall_mem_cons.mp below
    by_cases same : key a == key b
    · rw [dropRepeats_of_beq key same]
      exact ih (.cons hl (List.pairwise_cons.mp rest).2)
    · rw [dropRepeats_of_not_beq key same]
      have first := compare_lt_of_isLE hb same
      have others := ih rest
      refine .cons (List.forall_mem_cons.mpr ⟨first, fun c hc => ?_⟩) others
      exact Std.TransCmp.lt_trans first (List.rel_of_pairwise_cons others hc)

/-- In an ascending list nothing is equal to what stands before something
greater. -/
theorem filter_eq_nil_of_lt {a b : α} {l : List α}
    (ascending : (b :: l).Pairwise fun c d =>
      (compare (key c) (key d)).isLE)
    (less : compare (key a) (key b) = .lt) {t : G.Member} (ha : key a == t) :
    (b :: l).filter (key · == t) = [] := by
  refine List.filter_eq_nil_iff.mpr fun c hc hct => ?_
  have le : (compare (key b) (key c)).isLE := by
    rcases List.mem_cons.mp hc with rfl | hc
    · rw [Std.ReflOrd.compare_self]
      rfl
    · exact List.rel_of_pairwise_cons ascending hc
  have same : compare (key a) (key c) = .eq :=
    Std.LawfulBEqOrd.compare_eq_iff_beq.mpr (BEq.trans ha (BEq.symm hct))
  rw [Std.TransCmp.lt_of_lt_of_isLE less le] at same
  cases same

/-- **Of every class the first member is left.** -/
theorem filter_dropRepeats {a : α} {l : List α}
    (ascending : (a :: l).Pairwise fun b c =>
      (compare (key b) (key c)).isLE) (t : G.Member) :
    (a :: dropRepeats (term ∘ key) a l).filter (key · == t)
      = ((a :: l).filter (key · == t)).take 1 := by
  induction l generalizing a with
  | nil => exact (List.take_of_length_le (List.length_filter_le _ [a])).symm
  | cons b l ih =>
    obtain ⟨below, rest⟩ := List.pairwise_cons.mp ascending
    obtain ⟨hb, hl⟩ := List.forall_mem_cons.mp below
    by_cases same : key a == key b
    · -- The two are in one class, of which `a` is the earlier one.
      rw [dropRepeats_of_beq key same,
        ih (.cons hl (List.pairwise_cons.mp rest).2)]
      by_cases ha : key a == t
      · rw [List.filter_cons_of_pos (p := (key · == t)) ha,
          List.filter_cons_of_pos (p := (key · == t)) ha]
        rfl
      · have hb : ¬ key b == t := fun hb => ha (BEq.trans same hb)
        rw [List.filter_cons_of_neg (p := (key · == t)) ha,
          List.filter_cons_of_neg (p := (key · == t)) ha,
          List.filter_cons_of_neg (p := (key · == t)) hb]
    · rw [dropRepeats_of_not_beq key same]
      by_cases ha : key a == t
      · have none := filter_eq_nil_of_lt key rest
          (compare_lt_of_isLE hb same) ha
        rw [List.filter_cons_of_pos (p := (key · == t)) ha,
          List.filter_cons_of_pos (p := (key · == t)) ha, ih rest, none]
        rfl
      · rw [List.filter_cons_of_neg (p := (key · == t)) ha,
          List.filter_cons_of_neg (p := (key · == t)) ha, ih rest]

/-- **The distinct members are strictly ascending.** -/
theorem pairwise_distinctBy (l : List α) :
    (distinctBy (term ∘ key) l).Pairwise fun a b =>
      compare (key a) (key b) = .lt := by
  have ascending := pairwise_sortBy key l
  unfold distinctBy
  cases h : sortBy (term ∘ key) l with
  | nil => exact .nil
  | cons a sorted =>
    rw [h] at ascending
    exact pairwise_dropRepeats key ascending

/-- **They are the earliest members of the classes of the batch.** -/
theorem filter_distinctBy (l : List α) (t : G.Member) :
    (distinctBy (term ∘ key) l).filter (key · == t)
      = (l.filter (key · == t)).take 1 := by
  have ascending := pairwise_sortBy key l
  rw [← filter_sortBy key l]
  unfold distinctBy
  cases h : sortBy (term ∘ key) l with
  | nil => rfl
  | cons a sorted =>
    rw [h] at ascending
    exact filter_dropRepeats key ascending t

/-- A distinct member is one of the batch. -/
theorem mem_of_mem_distinctBy {a : α} {l : List α}
    (h : a ∈ distinctBy (term ∘ key) l) : a ∈ l := by
  have found : a ∈ (distinctBy (term ∘ key) l).filter (key · == key a) :=
    List.mem_filter.mpr ⟨h, BEq.rfl⟩
  rw [filter_distinctBy] at found
  exact (List.mem_filter.mp (List.mem_of_mem_take found)).1

/-- A class is in a batch if anything of the batch is in the class. -/
theorem contains_map_iff {l : List α} {t : G.Member} :
    (l.map key).contains t ↔ l.filter (key · == t) ≠ [] := by
  rw [List.contains_iff_exists_mem_beq]
  constructor
  · rintro ⟨u, hu, same⟩
    obtain ⟨a, ha, rfl⟩ := List.mem_map.mp hu
    exact List.ne_nil_of_mem (List.mem_filter.mpr ⟨ha, BEq.symm same⟩)
  · intro h
    obtain ⟨a, found⟩ := List.exists_mem_of_ne_nil _ h
    obtain ⟨ha, same⟩ := List.mem_filter.mp found
    exact ⟨key a, List.mem_map_of_mem ha, BEq.symm same⟩

/-- **The distinct members represent the batch.** -/
theorem represents_distinctBy (l : List α) :
    Represents ((distinctBy (term ∘ key) l).map key) (l.map key) := by
  refine .of_contains (List.pairwise_map.mpr ?_) fun t => ?_
  · refine (pairwise_distinctBy key l).imp fun less => ?_
    rw [← Std.LawfulBEqOrd.not_compare_eq_iff_beq_eq_false, less]
    decide
  · rw [Bool.eq_iff_iff, contains_map_iff, contains_map_iff,
      filter_distinctBy, Ne, List.take_eq_nil_iff]
    exact not_congr (or_iff_right one_ne_zero)

/-! ## Other batches of the same trees -/

/-- The trees of a sorted batch are ascending by their keys. -/
theorem pairwise_map_tree_sortBy (l : List α) :
    ((sortBy (term ∘ key) l).map (tree ∘ key)).Pairwise fun x y =>
      (compare x.key y.key).isLE :=
  List.pairwise_map.mpr ((pairwise_sortBy key l).imp fun le => by
    rwa [compare_eq] at le)

/-- Those of the distinct members are strictly ascending. -/
theorem pairwise_map_tree_distinctBy (l : List α) :
    ((distinctBy (term ∘ key) l).map (tree ∘ key)).Pairwise fun x y =>
      compare x.key y.key = .lt :=
  List.pairwise_map.mpr ((pairwise_distinctBy key l).imp fun less => by
    rwa [compare_eq] at less)

variable {H : Graph} {β : Type} (key' : β → H.Member) {l : List α}
  {l' : List β}

/-- **Sorting forgets where the trees came from.** -/
theorem map_tree_sortBy_eq
    (same : (l'.map (tree ∘ key')).Perm (l.map (tree ∘ key))) :
    (sortBy (term ∘ key') l').map (tree ∘ key')
      = (sortBy (term ∘ key) l).map (tree ∘ key) := by
  refine List.Perm.eq_of_pairwise ?_ (pairwise_map_tree_sortBy key' l')
    (pairwise_map_tree_sortBy key l) ?_
  · -- Trees neither of which is greater are one tree.
    intro x y hx hy hxy hyx
    obtain ⟨b, _, rfl⟩ := List.mem_map.mp hx
    obtain ⟨a, _, rfl⟩ := List.mem_map.mp hy
    exact Tree.eq_of_order_eq (key' b).wellTagged (key a).wellTagged
      ((Tree.order_eq_compare_key (key' b).wellTagged (key a).wellTagged).trans
        (Std.OrientedCmp.isLE_antisymm hxy hyx))
  · exact ((sortBy_perm key' l').map _).trans
      (same.trans ((sortBy_perm key l).map _).symm)

instance : Std.Antisymm fun x y : Tree => compare x.key y.key = .lt :=
  ⟨fun _ _ hxy hyx => absurd hyx (Std.OrientedCmp.not_lt_of_lt hxy)⟩

/-- **What is read off a part of a batch is found, in its sequence, in what
is read off the batch.** The part may be made of other instances. -/
theorem map_tree_distinctBy_sublist
    (part : ∀ x, x ∈ l'.map (tree ∘ key') → x ∈ l.map (tree ∘ key)) :
    ((distinctBy (term ∘ key') l').map (tree ∘ key')).Sublist
      ((distinctBy (term ∘ key) l).map (tree ∘ key)) := by
  have holds' := represents_distinctBy key' l'
  have holds := represents_distinctBy key l
  refine List.sublist_of_subperm_of_pairwise ?_
    (pairwise_map_tree_distinctBy key' l') (pairwise_map_tree_distinctBy key l)
  rw [← List.map_map, ← List.map_map]
  refine List.subperm_of_subset holds'.nodup fun x hx => ?_
  rw [holds'.mem_iff, List.map_map] at hx
  rw [holds.mem_iff, List.map_map]
  exact part x hx

/-- **Reading off the distinct members forgets it too**, and with it how
often a tree was there. -/
theorem map_tree_distinctBy_eq
    (same : ∀ x, x ∈ l'.map (tree ∘ key') ↔ x ∈ l.map (tree ∘ key)) :
    (distinctBy (term ∘ key') l').map (tree ∘ key')
      = (distinctBy (term ∘ key) l).map (tree ∘ key) :=
  (map_tree_distinctBy_sublist key key' fun x => (same x).mp).antisymm
    (map_tree_distinctBy_sublist key' key fun x => (same x).mpr)

end Sorting

/-- **The sort, the distinct members and the sets agree on every batch.**
The sort is a stable arrangement of the batch in ascending order. The
distinct members are strictly ascending and have of every class its first
member in the batch and nothing else, where a class is what unfolds to one
tree. They are as many as there are classes, and so are the elements of
every set that is filled with the batch: the one by fingerprints, one that
orders its elements, and one that hashes their streams. And both sequences
of trees are those of any other batch, over whatever instances, that has
the same trees in another sequence. -/
theorem sorted_and_hashed_agree {α : Type} (key : α → G.Member)
    (l : List α) :
    ((sortBy (term ∘ key) l).Perm l
      ∧ (sortBy (term ∘ key) l).Pairwise (fun a b =>
          (key a).term.order (key b).term ≠ .gt)
      ∧ ∀ t : G.Member, (sortBy (term ∘ key) l).filter (key · == t)
          = l.filter (key · == t))
    ∧ ((distinctBy (term ∘ key) l).Pairwise (fun a b =>
          (key a).term.order (key b).term = .lt)
      ∧ (∀ t : G.Member, (distinctBy (term ∘ key) l).filter (key · == t)
          = (l.filter (key · == t)).take 1)
      ∧ ∀ t u : G.Member, t == u ↔ t.term.tree = u.term.tree)
    ∧ ((distinctBy (term ∘ key) l).length
          = {x | x ∈ (l.map key).map tree}.ncard
      ∧ countHashed (l.map (term ∘ key))
          = {x | x ∈ (l.map key).map tree}.ncard
      ∧ (Std.TreeSet.ofList (l.map key) compare).size
          = {x | x ∈ (l.map key).map tree}.ncard
      ∧ ∀ hash : Array UInt8 → UInt64,
          letI := hashedBy (G := G) hash
          (Std.HashSet.ofList (l.map key)).size
            = {x | x ∈ (l.map key).map tree}.ncard)
    ∧ ∀ (H : Graph) (β : Type) (key' : β → H.Member) (l' : List β),
        (l'.map (tree ∘ key')).Perm (l.map (tree ∘ key)) →
        (sortBy (term ∘ key') l').map (tree ∘ key')
            = (sortBy (term ∘ key) l).map (tree ∘ key)
          ∧ (distinctBy (term ∘ key') l').map (tree ∘ key')
            = (distinctBy (term ∘ key) l).map (tree ∘ key) := by
  refine ⟨⟨sortBy_perm key l, ?_, filter_sortBy key l⟩,
    ⟨pairwise_distinctBy key l, filter_distinctBy key l,
      fun t u => beq_iff_tree_eq⟩, ⟨?_, ?_, ?_, ?_⟩, ?_⟩
  · exact (pairwise_sortBy key l).imp Ordering.isLE_iff_ne_gt.mp
  · rw [← (represents_distinctBy key l).length_eq, List.length_map]
  · rw [← List.map_map, countHashed_eq]
  · rw [← (represents_treeSet _).length_eq, Std.TreeSet.length_toList]
  · intro hash
    let _ := hashedBy (G := G) hash
    have _ := lawfulHashable_hashedBy (G := G) hash
    rw [← (represents_hashSet _).length_eq, Std.HashSet.length_toList]
  · intro H β key' l' same
    exact ⟨map_tree_sortBy_eq key key' same,
      map_tree_distinctBy_eq key key' fun x => same.mem_iff⟩

/-- Two nodes over one text, one of them there twice, are two classes. -/
theorem sorted_and_hashed_agree_sharing :
    onceOver.tree ≠ twiceOver.tree
      ∧ countHashed [twiceOver, onceOver, twiceOver] = 2 := by
  let once : sharing.Member :=
    ⟨onceOver, onceOver_mem_sharing, wellTagged_onceOver⟩
  let twice : sharing.Member :=
    ⟨twiceOver, twiceOver_mem_sharing, wellTagged_twiceOver⟩
  obtain ⟨_, ⟨_, _, equal⟩, ⟨_, counted, _⟩, _⟩ :=
    sorted_and_hashed_agree id [twice, once, twice]
  have differ : once.tree ≠ twice.tree := by
    intro same
    have found : onceOver.order twiceOver = .eq :=
      beq_iff_eq.mp ((equal once twice).mpr same)
    rw [onceOver_order_twiceOver] at found
    cases found
  have classes : {x | x ∈ ([twice, once, twice].map id).map tree}
      = {once.tree, twice.tree} := by
    ext x
    simp only [List.map_cons, List.map_nil, id, List.mem_cons,
      List.not_mem_nil, Set.mem_ofPred_eq, Set.mem_insert_iff,
      Set.mem_singleton_iff]
    tauto
  rw [classes, Set.ncard_pair differ] at counted
  exact ⟨differ, counted⟩

end Graph.Member

end TermGraph
