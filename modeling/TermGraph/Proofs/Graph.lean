import Mathlib.Data.Set.Insert
import TermGraph.Proofs.Tree

/-!
# Term graphs

Not every labelling of terms with serial numbers makes sense: two
different terms with one number would be one instance that says two
things. A `Graph` is a set of terms in which that does not happen, and
which with a term contains the parts of it. Within a graph the numbers
are identities – `Graph.eq_of_same` – and this is all the order of terms
needs to know about sharing.

A graph grows by one instance at a time: `Graph.insert` adds a term
whose children are there and whose number is not.
-/

namespace TermGraph

/-- **A term graph**: terms that live together. The parts of a member are
members, and a serial number is the number of one instance. -/
structure Graph where
  /-- The members. -/
  terms : Set Term
  /-- The children of a member are members. -/
  children_mem : ∀ t ∈ terms, ∀ u ∈ t.children, u ∈ terms
  /-- Members with the same number are the same term. -/
  eq_of_serial_eq : ∀ t ∈ terms, ∀ u ∈ terms, t.serial = u.serial → t = u

namespace Graph

instance : Membership Term Graph := ⟨fun G t => t ∈ G.terms⟩

variable {G : Graph} {t u x : Term}

/-- Children of a member are members. -/
theorem mem_of_mem_children (ht : t ∈ G) (hu : u ∈ t.children) : u ∈ G :=
  G.children_mem t ht u hu

/-- What is found in a member is a member. -/
theorem mem_of_occurs (ht : t ∈ G) (hx : x.Occurs t) : x ∈ G := by
  induction hx with
  | self => exact ht
  | under child _ ih => exact ih (mem_of_mem_children ht child)

/-- **One instance is one term.** -/
theorem eq_of_same (ht : t ∈ G) (hu : u ∈ G) (h : t.same u = true) :
    t = u :=
  G.eq_of_serial_eq t ht u hu (by simpa [Term.same] using h)

/-- The graph without members. -/
def empty : Graph where
  terms := ∅
  children_mem := by simp
  eq_of_serial_eq := by simp

/-- **The graph with one more instance**, over children it has. -/
def insert (G : Graph) (t : Term) (children : ∀ u ∈ t.children, u ∈ G)
    (fresh : ∀ u ∈ G, u.serial ≠ t.serial) : Graph where
  terms := Insert.insert t G.terms
  children_mem := by
    rintro u (rfl | hu) x hx
    · exact .inr (children x hx)
    · exact .inr (G.children_mem u hu x hx)
  eq_of_serial_eq := by
    rintro u (rfl | hu) x (rfl | hx) same
    · rfl
    · exact absurd same.symm (fresh x hx)
    · exact absurd same (fresh u hu)
    · exact G.eq_of_serial_eq u hu x hx same

@[simp] theorem not_mem_empty : t ∉ empty := Set.notMem_empty t

@[simp] theorem mem_insert {children : ∀ u ∈ t.children, u ∈ G}
    {fresh : ∀ u ∈ G, u.serial ≠ t.serial} :
    x ∈ G.insert t children fresh ↔ x = t ∨ x ∈ G := Iff.rfl

/-! ## A graph with a shared part

The graph the examples of later modules are about: two nodes with one
head, of which one has more children than the head should have, over one
text. -/

/-- A text that others share. -/
def sharedText : Term := .boxed 2 (.text "w")

/-- A node over it. -/
def onceOver : Term := .node 3 .someTag [sharedText]

/-- A node over it twice. -/
def twiceOver : Term := .node 4 .someTag [sharedText, sharedText]

/-- The graph of the three. -/
def sharing : Graph :=
  ((empty.insert sharedText (fun _ hu => nomatch hu)
      (fun u hu => absurd hu not_mem_empty)).insert
    onceOver
      (fun u hu => mem_insert.mpr (.inl (List.mem_singleton.mp hu)))
      (fun u hu => by
        rcases mem_insert.mp hu with rfl | hu
        · decide
        · exact absurd hu not_mem_empty)).insert
    twiceOver
      (fun u hu => mem_insert.mpr (.inr (mem_insert.mpr
        (.inl (List.eq_of_mem_replicate (n := 2) hu)))))
      (fun u hu => by
        rcases mem_insert.mp hu with rfl | hu
        · decide
        · rcases mem_insert.mp hu with rfl | hu
          · decide
          · exact absurd hu not_mem_empty)

theorem sharedText_mem_sharing : sharedText ∈ sharing :=
  mem_insert.mpr (.inr (mem_insert.mpr (.inr (mem_insert.mpr (.inl rfl)))))

theorem onceOver_mem_sharing : onceOver ∈ sharing :=
  mem_insert.mpr (.inr (mem_insert.mpr (.inl rfl)))

theorem twiceOver_mem_sharing : twiceOver ∈ sharing :=
  mem_insert.mpr (.inl rfl)

theorem wellTagged_sharedText : sharedText.tree.WellTagged := .boxed _

theorem wellTagged_onceOver : onceOver.tree.WellTagged := by
  simp [onceOver, sharedText, Tree.WellTagged]
  rfl

theorem wellTagged_twiceOver : twiceOver.tree.WellTagged := by
  simp [twiceOver, sharedText, Tree.WellTagged]
  rfl

end Graph

end TermGraph
