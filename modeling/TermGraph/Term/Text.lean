import TermGraph.Symbol.Table
import TermGraph.Term.Basic

/-!
# Terms as text

A boxed scalar is written as its value. Any other term is the name of its
head followed, if it has children, by their texts between parentheses
with `, ` between them. A symbol table says what the heads are called;
without one, only built-in symbols have names.

The text is produced from a list of pieces still to be written, in which
a term stands for its text. Writing a term puts its children in its
place, with the commas and the closing parenthesis between and behind
them, so the depth of a term costs nothing but room in that list.
-/

namespace TermGraph

/-- **Something still to be written.** -/
inductive Piece where
  /-- A term, which stands for its text. -/
  | term (t : Term)
  /-- A text as it is. -/
  | text (s : String)

namespace Piece

/-- The term of a piece. -/
def term? : Piece → Option Term
  | term t => some t
  | text _ => none

/-- The pieces that follow an opening parenthesis: the children with
commas between them, and the parenthesis that closes. -/
def arguments : List Term → List Piece
  | [] => [text ")"]
  | t :: ts =>
    term t :: (ts.flatMap fun u => [text ", ", term u]) ++ [text ")"]

/-- The terms among the pieces between parentheses are the children. -/
theorem filterMap_term?_arguments (ts : List Term) :
    (arguments ts).filterMap term? = ts := by
  have separated : ∀ us : List Term,
      (us.flatMap fun u => [text ", ", term u]).filterMap term? = us := by
    intro us
    induction us with
    | nil => rfl
    | cons u us ih =>
      rw [List.flatMap_cons, List.filterMap_append, ih]
      rfl
  cases ts with
  | nil => rfl
  | cons t ts => simp [arguments, term?, separated]

/-- The places of the terms still to be written. -/
def places (ps : List Piece) : Nat := Term.sizes (ps.filterMap term?)

theorem places_arguments_append (ts : List Term) (ps : List Piece) :
    places (arguments ts ++ ps) = Term.sizes ts + places ps := by
  simp [places, filterMap_term?_arguments]

/-- **Writing**: the text of the pieces, after what is already written. -/
def write (table : SymbolTable) : List Piece → String → String
  | [], out => out
  | text s :: ps, out => write table ps (out ++ s)
  | term (.boxed _ v) :: ps, out => write table ps (out ++ v.render)
  | term (.node _ s []) :: ps, out => write table ps (out ++ table.label s)
  | term (.node _ s (t :: ts)) :: ps, out =>
    write table (arguments (t :: ts) ++ ps) (out ++ table.label s ++ "(")
termination_by ps => (places ps, ps.length)
decreasing_by
  · exact Prod.Lex.right _ (Nat.lt_succ_self _)
  · exact Prod.Lex.left _ _ (by simp [places, term?, Term.size])
  · exact Prod.Lex.left _ _ (by simp [places, term?, Term.size])
  · refine Prod.Lex.left _ _ ?_
    rw [places_arguments_append]
    simp [places, term?, Term.size]

end Piece

namespace Term

/-- **The text of a term** under a symbol table. -/
def text (t : Term) (table : SymbolTable) : String :=
  Piece.write table [.term t] ""

/-- The text of a term where no table is at hand. -/
def debugText (t : Term) : String := "Term(" ++ t.text ∅ ++ ")"

end Term

end TermGraph
