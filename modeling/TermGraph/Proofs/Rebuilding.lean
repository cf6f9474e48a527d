import TermGraph.Proofs.Applications
import TermGraph.Proofs.ArityDiscipline
import TermGraph.Proofs.Requests

/-!
# Other children under a head

A term can be built again with other children. No table is asked for that:
the head may be one that some table has long given a number to, and the
number of children is taken from those that are there. An application of the
head asks the table, and it asks the table as it is by then.

That the two come to the same is nothing that either of them checks. In a
run over one table each node has as many children as the table says
(`Workspace.In.all_knows`), however it was built, and what the table says it
goes on saying (`SymbolTable.Extends.arity?_eq`). So the number that is found
at the node is the number that the table has, and with one number the two
are one check (`SymbolTable.withChildren_eq_apply`), refusals included.
-/

namespace TermGraph

/-- **Other children are put under a head as the head is applied to them**,
where there are as many as the table says. -/
theorem SymbolTable.withChildren_eq_apply {t : SymbolTable} {s : Symbol}
    {ts : List Term} (known : t.arity? s = some ts.length) (n : ℕ)
    (us : List Term) : (Term.node n s ts).withChildren us = t.apply s us := by
  simp only [Term.withChildren, apply, isBoxed_of_arity? known, known,
    Bool.false_eq_true, if_false]

namespace Workspace

variable {w : Workspace} {H : Heap} {t : Term} {n : ℕ} {s : Symbol}
  {ts : List Term}

/-- The nodes of a run have as many children as the table says, and will
after any requests. -/
theorem In.arity?_afterAll (h : w.In H) (ht : t ∈ w.terms)
    (found : (Term.node n s ts).Occurs t) (es : List Entry) :
    (w.table.afterAll es).arity? s = some ts.length := by
  have known := (Term.all_tree_iff t).mp (h.all_knows ht) n s ts found
  exact (w.table.extends_afterAll es).arity?_eq known.arity

/-- **A term is rebuilt as its head is applied.** Take a term of a run over
one table, or a part of one, and the table as it is or after any requests.
If the term has a head, then putting other children under it is the same as
applying the head to them: what is built has that head and those children,
in order, or both are refused for one reason. They are built exactly if they
are as many as before and the term is no bound of the order. A boxed scalar
is refused as such, whatever the children. -/
theorem rebuilt_as_applied (table : SymbolTable) (ops : List Operation)
    (es : List Entry) (t x : Term)
    (ht : t ∈ ((start table).run ops).terms) (hx : x.Occurs t)
    (us : List Term) :
    let later := ((start table).run ops).table.afterAll es
    (x.isComplex = true →
      x.withChildren us = later.apply x.tag us
        ∧ (∀ fresh, x.withChildren us = .ok fresh →
            ∀ supply, (fresh supply).1 = .node supply.next x.tag us)
        ∧ ((∃ fresh, x.withChildren us = .ok fresh)
            ↔ x.isSentinel = false ∧ us.length = x.arity))
      ∧ (x.isBoxed = true →
          x.withChildren us = .error (.unexpectedKind .complex x.kind)) := by
  obtain ⟨H, h⟩ := in_run (in_start table) ops
  cases x with
  | boxed n v => exact ⟨fun complex => (by cases complex), fun _ => rfl⟩
  | node n s ts =>
    refine ⟨fun _ => ?_, fun boxed => (by cases boxed)⟩
    have known := h.arity?_afterAll ht hx es
    have same := SymbolTable.withChildren_eq_apply known n us
    refine ⟨same, fun fresh built supply => ?_, ?_⟩
    · obtain ⟨rfl, -⟩ := Fresh.of_apply_eq_ok built
      rfl
    · rw [same, SymbolTable.exists_apply_eq_ok_iff, SymbolTable.Admits, known,
        Option.some_inj]
      exact and_congr_right fun _ => eq_comm

/-- What a recipe builds is there. -/
theorem terms_perform_obtain {recipe : Recipe} {fresh : Fresh Term}
    (prepared : recipe.prepare? w.table w.terms = some fresh) :
    (w.perform (.obtain recipe)).terms = w.terms ++ [(fresh w.supply).1] := by
  simp only [perform, prepared]

/-- A node under a registered head, when another name was registered since
and its own was asked for with another arity. -/
theorem rebuilt_as_applied_once :
    let f : Symbol := .ofNat 15
    let table : SymbolTable := .afterAll ∅ [⟨"f", 1⟩]
    let x : Term := .node 3 f [.node 2 .nilTag []]
    let w : Workspace := (start table).run
      [.obtain (.constant .nil), .obtain (.apply f [0])]
    let later : SymbolTable := w.table.afterAll [⟨"g", 2⟩, ⟨"f", 2⟩]
    x ∈ w.terms ∧ x.Occurs x
      ∧ x.withChildren [.least] = later.apply f [.least]
      ∧ (∃ fresh : Fresh Term, later.apply f [.least] = .ok fresh)
      ∧ x.withChildren [] = later.apply f []
      ∧ ¬∃ fresh : Fresh Term, later.apply f [] = .ok fresh := by
  intro f table x w later
  have admits : table.Admits f 1 := ⟨rfl, by decide +kernel⟩
  have prepared : (Recipe.apply f [0]).prepare? table [.node 2 .nilTag []]
      = some (Term.newNode f [.node 2 .nilTag []]) := by
    show (table.apply f [.node 2 .nilTag []]).toOption = _
    rw [SymbolTable.apply_of_admits admits]
    rfl
  have there : x ∈ w.terms := by
    show x ∈ (perform _ (.obtain (.apply f [0]))).terms
    rw [terms_perform_obtain prepared]
    exact .tail _ (.head _)
  have rebuilt := fun us => (rebuilt_as_applied table _ [⟨"g", 2⟩, ⟨"f", 2⟩]
    x x there (.self x) us).1 rfl
  obtain ⟨same, -, built⟩ := rebuilt [.least]
  obtain ⟨refused, -, unbuilt⟩ := rebuilt []
  rw [same] at built
  rw [refused] at unbuilt
  exact ⟨there, .self x, same, built.mpr ⟨rfl, rfl⟩, refused,
    fun accepted => absurd (unbuilt.mp accepted).2 (by decide)⟩

end Workspace

end TermGraph
