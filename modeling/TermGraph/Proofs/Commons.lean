import TermGraph.Proofs.Workspace

/-!
# Runs over several tables

A term does not know which table its heads are from. Terms headed under one
table may be children under another, a symbol may be applied with a table
that has given its number to another name or to none, and samplers over
different tables draw on one supply of serial numbers. A `Commons` is what
is there in such a run: some tables, and the terms, samplers and numbers
common to them. With one of the tables in hand it is a `Workspace`, and
what is done there is one of its operations.

No table has the last word on the nodes of such a run, and two nodes with
one head may have different numbers of children. What is left is what all
tables agree on, `Rule.sound`: no head is a tag of boxed scalars, and the
bounds of the order have no children.
-/

namespace TermGraph

namespace Rule

/-- **What every table asks of a head** it is applied to: it is no tag of
boxed scalars and no bound of the order. -/
def plain : Rule := fun s _ => s.isBoxed = false ∧ s.isSentinel = false

/-- **What holds of all nodes**, those of the bounds included, which have no
children. -/
def sound : Rule := fun s k => s.isBoxed = false ∧ (s.isSentinel = true → k = 0)

theorem sound_of_plain (s : Symbol) (k : ℕ) (h : plain s k) : sound s k :=
  ⟨h.1, fun bound => absurd (h.2.symm.trans bound) Bool.false_ne_true⟩

end Rule

theorem SymbolTable.plain_of_admits (t : SymbolTable) (s : Symbol) (k : ℕ)
    (h : t.Admits s k) : Rule.plain s k :=
  ⟨isBoxed_of_arity? h.2, h.1⟩

/-- **What is there in a run over several tables.** -/
structure Commons where
  /-- The tables, oldest first. -/
  tables : List SymbolTable
  /-- The terms obtained so far, oldest first. -/
  terms : List Term
  /-- The samplers, oldest first. -/
  samplers : List Sampler
  /-- The serial numbers not given out. -/
  supply : Supply

/-- **What can be done in a run over several tables.** -/
inductive Move where
  /-- Sets up a table in which nothing is registered. -/
  | newTable
  /-- Copies a table. -/
  | copyTable (table : ℕ)
  /-- Does something with a table in hand. -/
  | use (table : ℕ) (op : Operation)

namespace Commons

/-- The beginning of a run: nothing is there. -/
def start : Commons := ⟨[], [], [], .initial⟩

/-- What is there with a table in hand. -/
def workspace (c : Commons) (table : SymbolTable) : Workspace :=
  ⟨table, c.terms, c.samplers, c.supply⟩

/-- **What a move does.** A table that is not there does nothing. -/
def perform (c : Commons) : Move → Commons
  | .newTable => { c with tables := c.tables ++ [∅] }
  | .copyTable i =>
    match c.tables[i]? with
    | some table => { c with tables := c.tables ++ [table] }
    | none => c
  | .use i op =>
    match c.tables[i]? with
    | some table =>
      let w := (c.workspace table).perform op
      ⟨c.tables.set i w.table, w.terms, w.samplers, w.supply⟩
    | none => c

/-- **A run**: moves one after another. -/
def run (c : Commons) (moves : List Move) : Commons :=
  moves.foldl perform c

theorem run_append (c : Commons) (before after : List Move) :
    c.run (before ++ after) = (c.run before).run after :=
  List.foldl_append

/-- **What was obtained stays where it is**, under one move. -/
theorem terms_prefix_perform (c : Commons) (m : Move) :
    c.terms <+: (c.perform m).terms := by
  unfold perform
  cases m with
  | newTable => exact List.prefix_rfl
  | copyTable i =>
    dsimp only
    split <;> exact List.prefix_rfl
  | use i op =>
    dsimp only
    split
    · next table _ => exact (c.workspace table).terms_prefix_perform op
    · exact List.prefix_rfl

/-- So it does in a whole run, by induction on the moves. -/
theorem terms_prefix_run (c : Commons) (moves : List Move) :
    c.terms <+: (c.run moves).terms := by
  induction moves generalizing c with
  | nil => exact List.prefix_rfl
  | cons m moves ih => exact (c.terms_prefix_perform m).trans (ih _)

variable {c : Commons} {H : Heap} {t x : Term}

/-- **A commons is at home in a heap**: with any table in hand it lives
there, and the nodes of the heap are sound. -/
structure In (c : Commons) (H : Heap) : Prop where
  /-- It lives there. -/
  lives : ∀ table, (c.workspace table).Lives Rule.plain H
  /-- The nodes are sound. -/
  nodes : H.Keeps Rule.sound

theorem in_start : start.In Heap.bounds := by
  refine ⟨fun table => ⟨rfl, Heap.mem_bounds.mpr (.inl rfl),
    Heap.mem_bounds.mpr (.inr rfl), List.forall_mem_nil _,
    List.forall_mem_nil _⟩, fun n s ts ht => ?_⟩
  rcases Heap.mem_bounds.mp ht with same | same
  · cases same
    exact ⟨rfl, fun _ => rfl⟩
  · cases same
    exact ⟨rfl, fun _ => rfl⟩

/-- **What one move keeps.** -/
theorem in_perform (h : c.In H) (m : Move) :
    ∃ H' : Heap, (c.perform m).In H' := by
  unfold perform
  cases m with
  | newTable => exact ⟨H, h.lives, h.nodes⟩
  | copyTable i =>
    dsimp only
    split
    · exact ⟨H, h.lives, h.nodes⟩
    · exact ⟨H, h⟩
  | use i op =>
    dsimp only
    split
    · next table _ =>
      obtain ⟨H', grows, lives⟩ :=
        Workspace.lives_perform (h.lives table) table.plain_of_admits op
      -- Which table is in hand says nothing about where the terms are.
      exact ⟨H', fun other => ⟨lives.supply, lives.least, lives.greatest,
        lives.terms, lives.samplers⟩, grows.keeps Rule.sound_of_plain h.nodes⟩
    · exact ⟨H, h⟩

/-- **What a whole run keeps**, by induction on its moves. -/
theorem in_run (h : c.In H) (moves : List Move) :
    ∃ H' : Heap, (c.run moves).In H' := by
  induction moves generalizing c H with
  | nil => exact ⟨H, h⟩
  | cons m moves ih =>
    obtain ⟨H', h'⟩ := in_perform h m
    exact ih h'

/-- What is found in a term of a commons is in the heap. -/
theorem In.mem_of_occurs (h : c.In H) (ht : t ∈ c.terms) (hx : x.Occurs t) :
    x ∈ H :=
  Graph.mem_of_occurs (G := H.toGraph) ((h.lives ∅).terms t ht) hx

end Commons

end TermGraph
