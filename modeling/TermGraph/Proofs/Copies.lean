import TermGraph.Proofs.ArityDiscipline
import TermGraph.Proofs.ByteCode
import TermGraph.Proofs.Cost
import TermGraph.Proofs.Rendering
import TermGraph.Proofs.Verdicts

/-!
# Copies of one node

A node can be copied, and it can be rebuilt over the children it has. Both give
a new instance with the same children, and nothing below is copied. So a copy
and its original are told apart by their numbers only, and `Term.renumber` is
all there is to a copy (`Term.Copies.run_eq`).

A comparison of the two looks at them once, since they are no one instance,
and then passes over the children pair by pair, since these are
(`Term.walk_same`). How large the children are does not matter.

Everything else is a matter of trees: the stream, the text, and the verdict
on the two in any company (`Graph.verdict_congr`). So a copy may be put in the
place of its original anywhere (`Term.Exchanged`), and it does not show.

What is built without checks can be copied, but not always rebuilt. A
constructor with a fixed number of children insists on it, so a node in which
it has another number is refused (`Term.cell_over_one_not_rebuilt`).
-/

namespace TermGraph

namespace Term

variable {t u c d : Term} {n : ℕ} {fresh : Fresh Term}

/-! ## The same under another number -/

/-- **A term under another number**, with the children it has. -/
def renumber (t : Term) (n : ℕ) : Term :=
  match t with
  | boxed _ v => boxed n v
  | node _ s ts => node n s ts

@[simp] theorem serial_renumber (t : Term) (n : ℕ) :
    (t.renumber n).serial = n := by
  cases t <;> rfl

@[simp] theorem children_renumber (t : Term) (n : ℕ) :
    (t.renumber n).children = t.children := by
  cases t <;> rfl

/-- The number is not seen in the tree. -/
@[simp] theorem tree_renumber (t : Term) (n : ℕ) :
    (t.renumber n).tree = t.tree := by
  cases t with
  | boxed m v => rfl
  | node m s ts => rw [renumber, tree_node, tree_node]

/-! ## What a comparison with a copy costs -/

/-- **Pairs of one instance each** are passed over. -/
theorem walk_same (ts : List Term) (tally : Tally) :
    walk (ts.zip ts) tally
      = some (.eq, { tally with shared := tally.shared + ts.length }) := by
  induction ts generalizing tally with
  | nil => rw [List.zip_nil_left, walk]; rfl
  | cons t ts ih =>
    have one : t.same t = true := beq_self_eq_true t.serial
    rw [List.zip_cons_cons, walk_cons, if_pos one, ih, List.length_cons,
      Nat.add_comm ts.length, ← Nat.add_assoc]
    rfl

/-- A look at a term under two numbers finds no difference. -/
theorem glance_renumber (t : Term) (m n : ℕ) :
    glance (t.renumber m) (t.renumber n) = .eq := by
  cases t with
  | boxed k v =>
    show (compare v.tag v.tag).then (compare v v) = .eq
    rw [Symbol.compare_eq_eq_iff.mpr rfl, Scalar.compare_of_tag_eq rfl,
      v.valueOrder_self]
    rfl
  | node k s ts => exact glance_node_eq_eq_iff.mpr ⟨rfl, rfl⟩

/-- **A term under two numbers is looked at once**, and its children are
passed over. -/
theorem compareTally?_renumber (t : Term) {m n : ℕ} (h : m ≠ n) :
    (t.renumber m).compareTally? (t.renumber n)
      = some (.eq, { inspected := 1, shared := t.arity }) := by
  have other : (t.renumber m).same (t.renumber n) = false := by
    rw [same, serial_renumber, serial_renumber, beq_eq_false_iff_ne]
    exact h
  have free : stuck (t.renumber m) (t.renumber n) = false := by
    cases t <;> simp [stuck, renumber, isComplex]
  rw [compareTally?, walk_cons, other, free, glance_renumber,
    if_neg Bool.false_ne_true, if_neg Bool.false_ne_true, children_renumber,
    children_renumber]
  dsimp only
  rw [List.append_nil, walk_same]
  show some (Ordering.eq, (⟨1, 0 + t.children.length⟩ : Tally)) = _
  rw [Nat.zero_add]
  rfl

/-! ## Copies -/

/-- **What copies a term**: a copy of its node, or the node rebuilt over the
children it has, if that is accepted. -/
inductive Copies (t : Term) : Fresh Term → Prop
  /-- The node is copied. -/
  | copied : Copies t t.copy
  /-- The node is rebuilt. -/
  | rebuilt {fresh : Fresh Term}
      (accepted : t.withChildren t.children = .ok fresh) : Copies t fresh

/-- **A copy is the term under the next number.** -/
theorem Copies.run_eq (h : t.Copies fresh) (supply : Supply) :
    (fresh supply).1 = t.renumber supply.next := by
  cases h with
  | copied => cases t <;> rfl
  | rebuilt accepted =>
    cases t with
    | boxed n v => cases accepted
    | node n s ts =>
      obtain ⟨rfl, -⟩ := Fresh.of_apply_eq_ok accepted
      rfl

/-- **When a node can be rebuilt** over the children it has: its head is
neither a tag of boxed scalars nor a bound of the order, and if it is a
constructor with a number of children of its own, the node has that number. -/
theorem exists_withChildren_children_iff :
    (∃ fresh, t.withChildren t.children = .ok fresh)
      ↔ t.isComplex = true ∧ t.tag.isBoxed = false ∧ t.isSentinel = false
        ∧ ∀ k, t.tag.builtinArity? = some k → k = t.arity := by
  cases t with
  | boxed n v =>
    refine iff_of_false ?_ fun h => Bool.false_ne_true h.1
    rintro ⟨fresh, accepted⟩
    cases accepted
  | node n s ts =>
    have fixed : (∀ k, s.builtinArity? = some k → k = ts.length)
        ↔ s.builtinArity?.getD ts.length = ts.length := by
      cases s.builtinArity? with
      | none => simp
      | some k => simp
    show (∃ fresh, s.apply ts.length ts = .ok fresh)
      ↔ true = true ∧ s.isBoxed = false
      ∧ s.isSentinel = false ∧ ∀ k, s.builtinArity? = some k → k = ts.length
    rw [fixed, Symbol.apply, Symbol.applyError?]
    cases s.isBoxed with
    | true => simp
    | false =>
      cases s.isSentinel with
      | true => simp
      | false =>
        by_cases same : s.builtinArity?.getD ts.length = ts.length
        · simp [same]
        · simp [same]

/-! ## A copy in the place of its original -/

/-- **One term put in the place of another**, at some of the places where it
stands in a larger term: the nodes above are built anew, and whatever else is
there stays the instance it is. -/
inductive Exchanged (t u : Term) : Term → Term → Prop
  /-- The one stands for the other. -/
  | here : Exchanged t u t u
  /-- A part is left as it is. -/
  | kept (c : Term) : Exchanged t u c c
  /-- A node is built over children with exchanges in them. -/
  | around {m n : ℕ} {s : Symbol} {cs ds : List Term}
      (length : cs.length = ds.length)
      (children : ∀ {c d}, (c, d) ∈ cs.zip ds → Exchanged t u c d) :
      Exchanged t u (node m s cs) (node n s ds)

/-- **What says the same is exchanged without a change of the tree.** -/
theorem Exchanged.tree_eq (same : u.tree = t.tree) (h : Exchanged t u c d) :
    d.tree = c.tree := by
  induction h with
  | here => exact same
  | kept c => rfl
  | @around m n s cs ds length _ ih =>
    have below : ds.map tree = cs.map tree := by
      rw [← List.forall₂_eq_eq_eq, List.forall₂_map_left_iff,
        List.forall₂_map_right_iff]
      exact (List.forall₂_iff_zip.mpr ⟨length, ih⟩).flip
    rw [tree_node, tree_node, below]

/-- The stream is a matter of the tree. -/
theorem stream_congr (h : u.tree = t.tree) : u.stream = t.stream := by
  rw [← Array.toList_inj, toList_stream, toList_stream, h]

/-- So is the text, under any table. -/
theorem text_eq_of_tree_eq (h : u.tree = t.tree) (table : SymbolTable) :
    u.text table = t.text table := by
  rw [text_eq, text_eq, h]

/-- **A copy shows in nothing but its identity.** Take a term that is there,
and copy its node, or rebuild it over the children it has. The copy can always
be made; the node can be rebuilt if it has a head that is neither a tag of
boxed scalars nor a bound of the order, and as many children as a constructor
of that name needs, if it is one.

What comes of it is no instance that was there, and has the children of the
original, in order. Compared with the original, in either sequence, it is
equal, at the cost of one look and of passing over each child. It has the
stream of the original, and its text under every table. And put in the place
of the original in any larger term it changes neither the stream nor the text
of that, nor the verdict on it and any other term, or that there is none. -/
theorem copy_is_invisible (H : Heap) (ht : t ∈ H) :
    t.Copies t.copy
      ∧ ((∃ fresh, t.withChildren t.children = .ok fresh)
        ↔ t.isComplex = true ∧ t.tag.isBoxed = false ∧ t.isSentinel = false
          ∧ ∀ k, t.tag.builtinArity? = some k → k = t.arity)
      ∧ ∀ fresh, t.Copies fresh →
        let u := (fresh H.supply).1
        (∀ x ∈ H, x.same u = false)
          ∧ u.children = t.children
          ∧ t.compareTally? u
              = some (.eq, { inspected := 1, shared := t.arity })
          ∧ u.compareTally? t
              = some (.eq, { inspected := 1, shared := t.arity })
          ∧ u.stream = t.stream
          ∧ (∀ table, u.text table = t.text table)
          ∧ ∀ c d, Exchanged t u c d →
            d.stream = c.stream
              ∧ (∀ table, d.text table = c.text table)
              ∧ ∀ (G : Graph) (x : Term), c ∈ G → d ∈ G → x ∈ G →
                (d.compareTally? x).map Prod.fst
                    = (c.compareTally? x).map Prod.fst
                  ∧ (x.compareTally? d).map Prod.fst
                    = (x.compareTally? c).map Prod.fst := by
  refine ⟨.copied, exists_withChildren_children_iff, fun fresh h => ?_⟩
  have old : t.renumber t.serial = t := by cases t <;> rfl
  have new : ∀ x ∈ H, x.serial ≠ H.supply.next := fun x hx =>
    Nat.ne_of_lt (H.serial_lt x hx)
  rw [h.run_eq]
  have same : (t.renumber H.supply.next).tree = t.tree := tree_renumber t _
  have forth := t.compareTally?_renumber (new t ht)
  have back := t.compareTally?_renumber (new t ht).symm
  rw [old] at forth back
  refine ⟨fun x hx => ?_, t.children_renumber _, forth, back, stream_congr same,
    text_eq_of_tree_eq same, fun c d exchanged => ?_⟩
  · rw [Term.same, serial_renumber, beq_eq_false_iff_ne]
    exact new x hx
  · have unchanged := exchanged.tree_eq same
    refine ⟨stream_congr unchanged, text_eq_of_tree_eq unchanged,
      fun G x hc hd hx => ⟨?_, ?_⟩⟩
    · exact Graph.verdict_congr hc hx hd hx unchanged rfl
    · exact Graph.verdict_congr hx hc hx hd rfl unchanged

/-- A cell over no number and a text is copied and put in the place of its
original, under a head that stands over it twice. -/
theorem copy_is_invisible_cell :
    let nan : Term := .boxed 2 (.float32 (.ofNat .single 0x7fc00001))
    let w : Term := .boxed 3 (.text "w")
    let t : Term := .node 4 .consTag [nan, w]
    let x : Term := .node 5 .consTag [t, w]
    let c : Term := .node 6 .consTag [t, t]
    let u : Term := .node 7 .consTag [nan, w]
    let d : Term := .node 8 .consTag [u, t]
    (∃ H : Heap, t ∈ H ∧ H.supply.next = 7)
      ∧ (∃ G : Graph, x ∈ G ∧ c ∈ G ∧ d ∈ G)
      ∧ t.Copies t.copy ∧ (∃ fresh, t.withChildren t.children = .ok fresh)
      ∧ t.same u = false
      ∧ t.compareTally? u = some (.eq, { inspected := 1, shared := 2 })
      ∧ u.compareTally? t = some (.eq, { inspected := 1, shared := 2 })
      ∧ u.stream = t.stream ∧ u.text ∅ = t.text ∅
      ∧ Exchanged t u c d ∧ d.stream = c.stream ∧ d.text ∅ = c.text ∅
      ∧ (d.compareTally? x).map Prod.fst = (c.compareTally? x).map Prod.fst := by
  intro nan w t x c u d
  obtain ⟨H, home⟩ := Workspace.in_run (Workspace.in_start ∅) [
    .obtain (.scalar (.float32 (.ofNat .single 0x7fc00001))),
    .obtain (.scalar (.text "w")), .obtain (.cons 0 1), .obtain (.cons 2 1),
    .obtain (.cons 2 2)]
  obtain ⟨K, later⟩ := Workspace.in_run home
    [.obtain (.copy 2), .obtain (.cons 5 2)]
  have hx : x ∈ K := later.terms x (List.mem_of_getElem? (i := 3) rfl)
  have hc : c ∈ K := later.terms c (List.mem_of_getElem? (i := 4) rfl)
  have hd : d ∈ K := later.terms d (List.mem_of_getElem? (i := 6) rfl)
  have ht : t ∈ H := home.terms t (List.mem_of_getElem? (i := 2) rfl)
  have next : H.supply.next = 7 := congrArg Supply.next home.supply.symm
  have exchanged : Exchanged t u c d :=
    .around rfl fun {a b} pair => by
      rcases List.mem_cons.mp pair with first | second
      · cases first
        exact .here
      · cases List.mem_singleton.mp second
        exact .kept t
  obtain ⟨copy, rebuilt, invisible⟩ := copy_is_invisible H ht
  have made : (t.copy H.supply).1 = u := by
    show Term.node H.supply.next .consTag [nan, w] = u
    rw [next]
  have shown := invisible t.copy copy
  rw [made] at shown
  obtain ⟨new, -, forth, back, stream, text, larger⟩ := shown
  obtain ⟨stream', text', verdicts⟩ := larger c d exchanged
  refine ⟨⟨H, ht, next⟩, ⟨K.toGraph, hx, hc, hd⟩, copy, rebuilt.mpr ⟨rfl, rfl, rfl, ?_⟩,
    new t ht, forth, back, stream, text ∅, exchanged, stream', text' ∅,
    (verdicts K.toGraph x hc hd hx).1⟩
  rintro k ⟨⟩
  rfl

/-- **A cell over one term is not rebuilt.** It can be there, since nodes are
also built without checks, and it is neither a scalar nor a bound of the
order, nor does a node in it carry a tag of boxed scalars. Rebuilt over its
child it is refused, because a cell needs two. -/
theorem cell_over_one_not_rebuilt :
    let one : Term := .boxed 2 (.int32 1)
    let t : Term := .node 3 .consTag [one]
    (Term.newNode .consTag [one] ⟨3, by decide⟩).1 = t
      ∧ (∃ H : Heap, t ∈ H)
      ∧ t.tree.WellTagged ∧ t.isComplex = true ∧ t.isSentinel = false
      ∧ t.withChildren t.children = .error (.arityMismatch .consTag 2 1) := by
  intro one t
  let H : Heap := Heap.bounds.add one (fun _ hu => nomatch hu) rfl
  have child : ∀ u ∈ t.children, u ∈ H := fun u hu =>
    Heap.mem_add.mpr (.inl (List.mem_singleton.mp hu))
  refine ⟨rfl, ⟨H.add t child rfl, Heap.mem_add.mpr (.inl rfl)⟩, ?_, rfl, rfl,
    rfl⟩
  rw [Tree.WellTagged, tree_node, Tree.all_node]
  exact ⟨rfl, List.forall_mem_singleton.mpr (Tree.all_boxed _)⟩

end Term

end TermGraph
