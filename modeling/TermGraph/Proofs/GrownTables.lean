import TermGraph.Proofs.Applications
import TermGraph.Proofs.Commons
import TermGraph.Proofs.Rendering
import TermGraph.Proofs.Requests

/-!
# What a table goes on saying

A table is asked for names and arities in many places: when a head is
applied, when a sampler is set up, when a term is written. All of them ask
about one symbol at a time, and a registered symbol has its place in the
table for its number. So the one thing to know of a table that has grown is
that the registrations it had are still where they were
(`SymbolTable.Extends`). What it then goes on saying about the symbols that
had a name is collected in `SymbolTable.Upholds`.

It is not asked how the table came to grow. A request that is refused, or
repeats a name, or finds the table full, leaves it as it is, and that is
also an extension; so nothing is assumed about room for names.

A copy of a table is a table of its own. In a run over several tables the
requests that are made to a table are all that it depends on
(`Commons.getElem?_tables_run`), so a table and its copy grow apart, and each
of them upholds what the other said when the copy was made.
-/

namespace TermGraph

namespace SymbolTable

variable {t u : SymbolTable} {s : Symbol} {n : String}

/-- **A symbol has a name** in a table, its own or a registered one. -/
def HasName (t : SymbolTable) (s : Symbol) : Prop :=
  (t.name? s).isSome = true

/-! ## Names, symbols and arities -/

namespace Extends

/-- **A name is kept.** -/
theorem name_eq (h : u.Extends t) (named : t.name? s = some n) :
    u.name? s = some n := by
  rw [name?_eq_some_iff] at named ⊢
  refine named.imp_right fun registered => ?_
  obtain ⟨e, he, same⟩ := registered
  exact ⟨e, h.entry?_eq he, same⟩

/-- **An arity is kept**, and so is the lack of one: of the built-in symbols
no table is asked, and the others are registered if they have a name. -/
theorem arity_eq (h : u.Extends t) (named : t.HasName s) :
    u.arity? s = t.arity? s := by
  cases builtin : s.isBuiltin with
  | true => simp only [arity?, builtin, if_true]
  | false =>
    obtain ⟨e, he⟩ := exists_entry?_iff.mpr ⟨builtin, named⟩
    simp only [arity?_of_isBuiltin_eq_false builtin, h.entry?_eq he, he]

end Extends

/-! ## What asks for arities -/

/-- An application asks the table for one arity. -/
theorem apply_congr (h : u.arity? s = t.arity? s) (ts : List Term) :
    u.apply s ts = t.apply s ts := by
  rw [apply, apply, h]

theorem former_congr (h : u.arity? s = t.arity? s) :
    u.former s = t.former s := by
  rw [former, former, h]

/-- A sampler asks the table for those of its symbols. -/
theorem formers_congr {symbols : List Symbol}
    (h : ∀ s ∈ symbols, u.arity? s = t.arity? s) :
    u.formers symbols = t.formers symbols := by
  unfold formers
  induction symbols with
  | nil => rfl
  | cons s symbols ih =>
    obtain ⟨here, rest⟩ := List.forall_mem_cons.mp h
    rw [List.mapM_cons, List.mapM_cons, former_congr here, ih rest]

/-! ## What is upheld -/

/-- **A table upholds what another says** about the symbols that have a name
there. -/
structure Upholds (u t : SymbolTable) : Prop where
  /-- Such a symbol goes by the same name. -/
  name : ∀ s, t.HasName s → u.name? s = t.name? s
  /-- It takes the same number of children, if any. -/
  arity : ∀ s, t.HasName s → u.arity? s = t.arity? s
  /-- By its name both tables find it. -/
  find : ∀ s n, t.name? s = some n → t.find? n = some s ∧ u.find? n = some s
  /-- It is applied with the same outcome, to whatever children. -/
  apply : ∀ s, t.HasName s → ∀ ts, u.apply s ts = t.apply s ts
  /-- It is an atom for both tables or for neither. -/
  atom : ∀ s, t.HasName s → u.atom s = t.atom s
  /-- A sampler over such symbols is the same, or is refused for the same
  reason. -/
  sampler : ∀ seed symbols config, (∀ s ∈ symbols, t.HasName s) →
    Sampler.ofSeed seed u symbols config = Sampler.ofSeed seed t symbols config
  /-- A term with such heads has the same text. -/
  text : ∀ x : Term, (∀ n s ts, (Term.node n s ts).Occurs x → t.HasName s) →
    x.text u = x.text t

/-- **An extension upholds what the table said.** -/
theorem Extends.upholds (h : u.Extends t) : u.Upholds t := by
  have names : ∀ s, t.HasName s → u.name? s = t.name? s := by
    intro s named
    obtain ⟨n, hn⟩ := Option.isSome_iff_exists.mp named
    rw [hn, h.name_eq hn]
  refine ⟨names, fun s => h.arity_eq, fun s n hn => ⟨?_, ?_⟩,
    fun s named => apply_congr (h.arity_eq named),
    fun s named => apply_congr (h.arity_eq named) [],
    fun seed symbols config named => ?_, fun x named => ?_⟩
  · exact find?_eq_some_iff_name?.mpr hn
  · exact find?_eq_some_iff_name?.mpr (h.name_eq hn)
  · rw [Sampler.ofSeed, Sampler.ofSeed,
      formers_congr fun s hs => h.arity_eq (named s hs)]
  · exact Term.text_congr rfl fun m s ts found => names s (named m s ts found)

end SymbolTable

/-! ## The requests of a run -/

/-- The requests in a move that are made to the table at a given place. -/
def Move.requests (i : ℕ) : Move → List Entry
  | .use j op => if j = i then op.requests else []
  | _ => []

namespace Commons

variable {c : Commons} {i : ℕ} {t : SymbolTable}

/-- **What one move makes of a table** is what the requests to it make of
it. -/
theorem getElem?_tables_perform (here : c.tables[i]? = some t) (m : Move) :
    (c.perform m).tables[i]? = some (t.afterAll (m.requests i)) := by
  have lt : i < c.tables.length := (List.getElem?_eq_some_iff.mp here).1
  have behind : ∀ u, (c.tables ++ [u])[i]? = some t := fun u => by
    rw [List.getElem?_append_left lt, here]
  cases m with
  | newTable => exact behind ∅
  | copyTable j =>
    rw [perform]
    split
    · exact behind _
    · exact here
  | use j op =>
    rw [perform]
    by_cases same : j = i
    · subst same
      simp only [here, List.getElem?_set_self lt, Workspace.table_perform,
        workspace, Move.requests, if_true]
    · have untouched : t.afterAll (Move.requests i (.use j op)) = t := by
        rw [Move.requests, if_neg same]
        rfl
      rw [untouched]
      split
      · rw [List.getElem?_set_ne same, here]
      · exact here

/-- **What a whole run makes of a table**, by induction on the moves. -/
theorem getElem?_tables_run (here : c.tables[i]? = some t) (moves : List Move) :
    (c.run moves).tables[i]?
      = some (t.afterAll (moves.flatMap (Move.requests i))) := by
  induction moves generalizing c t with
  | nil => exact here
  | cons m moves ih =>
    rw [List.flatMap_cons, SymbolTable.afterAll_append]
    exact ih (getElem?_tables_perform here m)

/-- A copy of a table is put behind the tables that are there. -/
theorem getElem?_tables_copyTable (here : c.tables[i]? = some t) :
    (c.perform (.copyTable i)).tables[c.tables.length]? = some t := by
  simp only [perform, here, List.getElem?_concat_length]

/-- **A table goes on saying what it said.** After any requests, granted or
refused, a table upholds what it said before. In a run over several tables
it is after any moves what the requests to it have made of it; and if it is
copied, then so is the copy, by the requests to the copy. -/
theorem said_is_upheld (c : Commons) (i : ℕ) (t : SymbolTable)
    (here : c.tables[i]? = some t) (moves : List Move) :
    (∀ es, (t.afterAll es).Upholds t)
      ∧ (c.run moves).tables[i]?
        = some (t.afterAll (moves.flatMap (Move.requests i)))
      ∧ ((c.perform (.copyTable i)).run moves).tables[i]?
        = some (t.afterAll (moves.flatMap (Move.requests i)))
      ∧ ((c.perform (.copyTable i)).run moves).tables[c.tables.length]?
        = some (t.afterAll (moves.flatMap (Move.requests c.tables.length))) := by
  refine ⟨fun es => (t.extends_afterAll es).upholds,
    getElem?_tables_run here moves, ?_, ?_⟩
  · exact getElem?_tables_run (getElem?_tables_perform here _) moves
  · exact getElem?_tables_run (getElem?_tables_copyTable here) moves

/-- A table and its copy that have given one number to different names, and
were asked again for a name of before. -/
theorem said_is_upheld_apart :
    let f : Symbol := .ofNat 15
    let c : Commons := (start.perform .newTable).run [.use 0 (.intern "f" 1)]
    let moves : List Move :=
      [.use 0 (.intern "g" 2), .use 1 (.intern "h" 0), .use 1 (.intern "f" 3)]
    let c' : Commons := (c.perform (.copyTable 0)).run moves
    ∃ t own copied : SymbolTable, c.tables[0]? = some t ∧ t.name? f = some "f"
      ∧ c'.tables[0]? = some own ∧ own.name? (.ofNat 16) = some "g"
      ∧ c'.tables[1]? = some copied ∧ copied.name? (.ofNat 16) = some "h"
      ∧ own.find? "f" = some f ∧ copied.find? "f" = some f
      ∧ own.apply f [.least] = t.apply f [.least]
      ∧ copied.apply f [.least] = t.apply f [.least] := by
  intro f c moves c'
  let t : SymbolTable := .afterAll ∅ [⟨"f", 1⟩]
  have here : c.tables[0]? = some t :=
    getElem?_tables_run (c := start.perform .newTable) rfl _
  have named : t.name? f = some "f" := by decide +kernel
  have known : t.HasName f := Option.isSome_of_mem named
  obtain ⟨upheld, -, own, copied⟩ := said_is_upheld c 0 t here moves
  refine ⟨t, t.afterAll [⟨"g", 2⟩], t.afterAll [⟨"h", 0⟩, ⟨"f", 3⟩], here,
    named, own, by decide +kernel, copied, by decide +kernel,
    ((upheld _).find f "f" named).2, ((upheld _).find f "f" named).2,
    (upheld _).apply f known _, (upheld _).apply f known _⟩

end Commons

end TermGraph
