import Mathlib.Data.List.Forall2
import TermGraph.Proofs.Tree

/-!
# The numbers at the places of a term

Which places of a term are one instance can be read off the serial numbers
that stand there, and nothing else can. So terms are listed place by place
with their numbers (`Term.serials`), and two terms are alike if one becomes
the other with other numbers (`Term.Alike`). The numbers need not change in
the same way everywhere. If they do, so that each number of the one side has
one of the other, then the terms share as each other do
(`Term.sharesAs_of_alike`): two places are one instance on the one side if
and only if they are on the other.
-/

namespace TermGraph

namespace Term

mutual

/-- **The numbers at the places of a term**, from the top and from left to
right. -/
def serials : Term → List ℕ
  | boxed n _ => [n]
  | node n _ ts => n :: serialsAll ts

/-- The numbers at the places of several terms. -/
def serialsAll : List Term → List ℕ
  | [] => []
  | t :: ts => t.serials ++ serialsAll ts

end

theorem serials_eq (t : Term) : t.serials = t.serial :: serialsAll t.children := by
  cases t <;> rfl

theorem serialsAll_eq_flatten (ts : List Term) :
    serialsAll ts = (ts.map serials).flatten := by
  induction ts with
  | nil => rfl
  | cons t ts ih => rw [serialsAll, ih, List.map_cons, List.flatten_cons]

/-- **What is found in a term has one of its numbers.** -/
theorem Occurs.serial_mem {x t : Term} (h : x.Occurs t) :
    x.serial ∈ t.serials := by
  induction h with
  | self =>
    rw [serials_eq]
    exact List.mem_cons_self
  | @under t u child _ ih =>
    rw [serials_eq, serialsAll_eq_flatten]
    exact .tail _ (List.mem_flatten_of_mem (List.mem_map_of_mem child) ih)

/-! ## Terms that are alike -/

/-- **Two terms are alike** if they say the same, and the numbers at their
places stand in a relation. -/
inductive Alike (r : ℕ → ℕ → Prop) : Term → Term → Prop
  /-- Two scalars. -/
  | boxed {m n : ℕ} {v : Scalar} (serial : r m n) :
      Alike r (boxed m v) (boxed n v)
  /-- Two nodes, over children that are alike one by one. -/
  | node {m n : ℕ} {s : Symbol} {ts us : List Term} (serial : r m n)
      (length : ts.length = us.length)
      (children : ∀ {t u}, (t, u) ∈ ts.zip us → Alike r t u) :
      Alike r (node m s ts) (node n s us)

variable {r r' : ℕ → ℕ → Prop} {t u : Term} {ts us : List Term}

theorem Alike.over {m n : ℕ} (s : Symbol) (serial : r m n)
    (h : List.Forall₂ (Alike r) ts us) :
    Alike r (.node m s ts) (.node n s us) :=
  .node serial h.length_eq (List.forall₂_iff_zip.mp h).2

theorem Alike.mono (h : t.Alike r u) (imp : ∀ i j, r i j → r' i j) :
    t.Alike r' u := by
  induction h with
  | boxed serial => exact .boxed (imp _ _ serial)
  | node serial length _ ih => exact .node (imp _ _ serial) length ih

/-- Terms that are alike unfold to the same tree. -/
theorem Alike.tree_eq (h : t.Alike r u) : u.tree = t.tree := by
  induction h with
  | boxed _ => rfl
  | @node m n s ts us _ length _ ih =>
    have below : us.map tree = ts.map tree := by
      rw [← List.forall₂_eq_eq_eq, List.forall₂_map_left_iff,
        List.forall₂_map_right_iff]
      exact (List.forall₂_iff_zip.mpr ⟨length, ih⟩).flip
    rw [tree_node, tree_node, below]

/-- **Place by place their numbers stand in the relation.** -/
theorem Alike.serials (h : t.Alike r u) :
    List.Forall₂ r t.serials u.serials := by
  induction h with
  | boxed serial => exact .cons serial .nil
  | @node m n s ts us serial length _ ih =>
    have below : List.Forall₂ (fun t u : Term =>
        List.Forall₂ r t.serials u.serials) ts us :=
      List.forall₂_iff_zip.mpr ⟨length, ih⟩
    rw [serials_eq, serials_eq, serialsAll_eq_flatten, serialsAll_eq_flatten]
    refine .cons serial (List.rel_flatten ?_)
    rwa [List.forall₂_map_left_iff, List.forall₂_map_right_iff]

/-! ## Sharing -/

/-- **Terms share as others do**: two places are one instance here if and only
if the same two places are there. -/
def SharesAs (ts us : List Term) : Prop :=
  ∀ i j : ℕ, (serialsAll ts)[i]? = (serialsAll ts)[j]?
    ↔ (serialsAll us)[i]? = (serialsAll us)[j]?

/-- What stands at a place of two lists is related if the lists are. -/
theorem rel_getElem? {α β : Type} {R : α → β → Prop} {as : List α}
    {bs : List β} (h : List.Forall₂ R as bs) (i : ℕ) :
    Option.Rel R as[i]? bs[i]? := by
  induction h generalizing i with
  | nil => exact .none
  | cons first _ ih =>
    cases i with
    | zero => exact .some first
    | succ i => exact ih i

/-- **Terms that are alike share as each other do**, if each number on one
side belongs to one on the other. -/
theorem sharesAs_of_alike (unique : Relator.BiUnique r)
    (h : List.Forall₂ (Alike r) ts us) : SharesAs ts us := by
  have places : List.Forall₂ r (serialsAll ts) (serialsAll us) := by
    rw [serialsAll_eq_flatten, serialsAll_eq_flatten]
    refine List.rel_flatten ?_
    rw [List.forall₂_map_left_iff, List.forall₂_map_right_iff]
    exact h.imp fun _ _ => Alike.serials
  intro i j
  have first := rel_getElem? places i
  have second := rel_getElem? places j
  generalize (serialsAll ts)[i]? = a, (serialsAll us)[i]? = b at first
  generalize (serialsAll ts)[j]? = c, (serialsAll us)[j]? = d at second
  cases first with
  | some here =>
    cases second with
    | some there =>
      rw [Option.some.injEq, Option.some.injEq]
      exact Relator.rel_eq unique here there
    | none => exact iff_of_false (Option.some_ne_none _) (Option.some_ne_none _)
  | none =>
    cases second with
    | some _ =>
      exact iff_of_false (Option.some_ne_none _).symm
        (Option.some_ne_none _).symm
    | none => exact iff_of_true rfl rfl

end Term

end TermGraph
