import TermGraph.Proofs.Tree
import TermGraph.Term.Text

/-!
# The text of a term, by recursion

A term is written from a list of pieces, and the pieces of all nodes that
are open at a time stand in that list together: the children still to come,
the commas between them and the parentheses that close. What makes this the
text of the term is that the list can be read off at any moment. Each piece
stands for a text of its own, and what remains to be written is those texts
one after another – `Piece.write_eq`. With the one piece of the whole term
this is `Term.text_eq`: the text is that of the recursion `Tree.text`.

The recursion is on the unfolded term and asks the table for nothing but
labels. So a text says nothing about sharing, and of a table it depends on
the names of the heads that are there.
-/

namespace TermGraph

/-- **Texts in parentheses**, with commas between them. Where there are
none, there are no parentheses either. -/
def enclose : List String → String
  | [] => ""
  | s :: ss => "(" ++ ", ".intercalate (s :: ss) ++ ")"

namespace Tree

mutual

/-- **The text of a tree**: a value as it is written, or the label of the
head and the texts of the children in parentheses. -/
def text (label : Symbol → String) : Tree → String
  | boxed v => v.render
  | node s ts => label s ++ enclose (texts label ts)

/-- The texts of several trees. -/
def texts (label : Symbol → String) : List Tree → List String
  | [] => []
  | t :: ts => t.text label :: texts label ts

end

variable {label other : Symbol → String}

theorem texts_eq_map (ts : List Tree) : texts label ts = ts.map (text label) := by
  induction ts with
  | nil => rfl
  | cons t ts ih => rw [texts, ih, List.map_cons]

@[simp] theorem text_boxed (v : Scalar) : (boxed v).text label = v.render := rfl

@[simp] theorem text_node (s : Symbol) (ts : List Tree) :
    (node s ts).text label = label s ++ enclose (ts.map (text label)) := by
  rw [text, texts_eq_map]

/-- **Only the labels of the heads that are there matter.** -/
theorem text_congr {t : Tree} (h : t.All fun s _ => label s = other s) :
    t.text label = t.text other := by
  induction t with
  | boxed v => rfl
  | node s ts ih =>
    obtain ⟨here, below⟩ := (all_node s ts).mp h
    rw [text_node, text_node, here,
      List.map_congr_left fun t ht => ih t ht (below t ht)]

end Tree

/-! ## What the pieces stand for -/

namespace Piece

/-- **The text a piece stands for.** -/
def spelling (label : Symbol → String) : Piece → String
  | term t => t.tree.text label
  | text s => s

/-- The texts that several pieces stand for, one after another. -/
def spell (label : Symbol → String) (ps : List Piece) : String :=
  String.join (ps.map (spelling label))

variable {label : Symbol → String}

@[simp] theorem spell_nil : spell label [] = "" := String.join_nil

@[simp] theorem spell_cons (p : Piece) (ps : List Piece) :
    spell label (p :: ps) = p.spelling label ++ spell label ps :=
  String.join_cons

@[simp] theorem spell_append (ps qs : List Piece) :
    spell label (ps ++ qs) = spell label ps ++ spell label qs := by
  rw [spell, List.map_append, String.join_append]
  rfl

/-- **The pieces behind an opening parenthesis** stand for the texts of the
children with commas between them, and the parenthesis that closes. -/
theorem spell_arguments (t : Term) (ts : List Term) :
    spell label (arguments (t :: ts))
      = ", ".intercalate ((t :: ts).map fun u => u.tree.text label) ++ ")" := by
  induction ts generalizing t with
  | nil => simp [arguments, spelling]
  | cons u ts ih =>
    -- What is behind the first comma are the pieces for the other children.
    have rest := ih u
    simp only [arguments, List.cons_append, spell_cons, spell_append] at rest
    simp only [arguments, List.flatMap_cons, List.cons_append, List.nil_append,
      spell_cons, spell_append, List.map_cons, String.intercalate_cons_cons]
    rw [rest, List.map_cons, spelling, spelling]
    simp only [String.append_assoc]

/-- **Writing appends what the pieces stand for.** -/
theorem write_eq (table : SymbolTable) (ps : List Piece) (out : String) :
    write table ps out = out ++ spell table.label ps := by
  fun_induction write table ps out with
  | case1 out => rw [spell_nil, String.append_empty]
  | case2 out s ps ih =>
    rw [ih, spell_cons, String.append_assoc]
    rfl
  | case3 out n v ps ih =>
    rw [ih, spell_cons, String.append_assoc]
    rfl
  | case4 out n s ps ih =>
    rw [ih, spell_cons, spelling, Term.tree_node, Tree.text_node, List.map_nil,
      List.map_nil, enclose, String.append_empty, String.append_assoc]
  | case5 out n s t ts ps ih =>
    rw [ih, spell_append, spell_arguments, spell_cons, spelling,
      Term.tree_node, Tree.text_node, List.map_map]
    simp only [List.map_cons, enclose, Function.comp_def, String.append_assoc]

end Piece

/-! ## Labels -/

namespace SymbolTable

/-- **How a head is labelled**: by its fixed name, else by the name the
table has for it, else by its number. -/
theorem label_eq (table : SymbolTable) (s : Symbol) :
    table.label s
      = (s.builtinName?.or ((table.entry? s).map Entry.name)).getD
          ("sym#" ++ toString s.toNat) := by
  unfold label name? Symbol.label
  cases s.builtinName? with
  | some name => rfl
  | none => rw [Option.none_or, Option.getD_none]

/-- A table without registrations is the empty one. -/
theorem eq_empty_of_isEmpty {table : SymbolTable}
    (h : table.isEmpty = true) : table = ∅ :=
  eq_of_entries_eq (Array.isEmpty_iff.mp h)

/-- Without registrations a symbol is labelled as it is without a table. -/
theorem label_empty (s : Symbol) : (∅ : SymbolTable).label s = s.label := by
  have unknown : entry? (∅ : SymbolTable) s = none := by
    unfold entry?
    split
    · rfl
    · exact Array.getElem?_empty
  rw [label_eq, unknown, Option.map_none, Option.or_none]
  rfl

end SymbolTable

namespace Term

/-- The text of a term is the text of its unfolding. -/
theorem text_eq (t : Term) (table : SymbolTable) :
    t.text table = t.tree.text table.label := by
  rw [text, Piece.write_eq, Piece.spell_cons, Piece.spell_nil,
    String.append_empty, String.empty_append]
  rfl

theorem text_congr {t u : Term} {table other : SymbolTable}
    (same : u.tree = t.tree)
    (names : ∀ n s ts, (node n s ts).Occurs t → other.name? s = table.name? s) :
    u.text other = t.text table := by
  rw [text_eq, text_eq, same]
  refine Tree.text_congr ((all_tree_iff t).mpr fun n s ts found => ?_)
  rw [SymbolTable.label, SymbolTable.label, names n s ts found]

/-- **The text of a term is written as the recursion says.** A boxed value
is written by itself, a text between quotes as it is, and a head is followed
by the texts of its children; the label of a head is its fixed name, or the
one of the table, or its number.
Terms with one unfolding have the same text under tables that agree on the
names of their heads, and the text without a table is that under any table
in which nothing is registered. -/
theorem text_eq_tree_text (t : Term) (table : SymbolTable) :
    t.text table = t.tree.text table.label
      ∧ (∀ w, (Scalar.text w).render = "\"" ++ w ++ "\"")
      ∧ (∀ s, table.label s
          = (s.builtinName?.or ((table.entry? s).map Entry.name)).getD
              ("sym#" ++ toString s.toNat))
      ∧ (∀ (u : Term) (other : SymbolTable), u.tree = t.tree →
          (∀ n s ts, (node n s ts).Occurs t →
            other.name? s = table.name? s) → u.text other = t.text table)
      ∧ t.debugText = "Term(" ++ t.tree.text Symbol.label ++ ")"
      ∧ ∀ bare : SymbolTable, bare.isEmpty = true →
          t.debugText = "Term(" ++ t.text bare ++ ")" := by
  refine ⟨t.text_eq table, fun w => rfl, table.label_eq,
    fun u other => text_congr, ?_, ?_⟩
  · rw [debugText, text_eq, funext SymbolTable.label_empty]
  · intro bare h
    rw [SymbolTable.eq_empty_of_isEmpty h, debugText]

-- A cell over a quoted text and an atom no table knows.
example : (node 3 .consTag [boxed 2 (.text "a\"b"),
    node 4 (.ofNat 40) []]).tree.text Symbol.label
      = "cons(\"a\"b\", sym#40)" := by
  decide

end Term

end TermGraph
