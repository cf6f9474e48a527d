import Mathlib.Data.List.Forall2
import TermGraph.Proofs.Ingredients
import TermGraph.Proofs.Rendering

/-!
# Texts that can be read in one way

A text stands between quotes as it is, so what is written for a tree need not
say where a text in it ends. It does if nothing that is written for a head or
a leaf has a parenthesis or a comma in it. Then such a *token* ends where the
first of these characters stands, and that character says how it goes on: an
opening parenthesis begins the children, and any other ends the tree.

So the text of a tree can be cut off whatever stands behind it, if that
begins as what may stand behind a child (`Tree.cutOff_of_legible`). What has
been cut off determines the shape of the tree, its heads, and what is
written for its leaves. The induction is over both trees at once: the first
tokens agree, and behind them either both trees have children or neither has,
and these are cut off one by one.

Tokens alone do not tell heads from leaves. That names are none of the texts
of leaves, and that no two heads have one name, is asked of the vocabulary
(`Legible`).
-/

namespace TermGraph

/-! ## Tokens -/

/-- A character that ends a token. -/
def isCut (c : Char) : Bool := c == '(' || c == ')' || c == ','

/-- **A token**: characters none of which ends one. -/
def IsToken (cs : List Char) : Prop := ∀ c ∈ cs, isCut c = false

instance (cs : List Char) : Decidable (IsToken cs) :=
  List.decidableBAll (fun c => isCut c = false) cs

/-- What may stand behind a token: nothing, or a character that ends it. -/
def EndsToken (r : List Char) : Prop := ∀ c ∈ r.head?, isCut c = true

/-- What may stand behind a tree: nothing, or what goes on with another or
closes the one around it. -/
def EndsTree (r : List Char) : Prop := ∀ c ∈ r.head?, c = ')' ∨ c = ','

theorem EndsTree.endsToken {r : List Char} (h : EndsTree r) : EndsToken r := by
  intro c hc
  rcases h c hc with rfl | rfl <;> rfl

/-- **A token is cut off** by what stands behind it. -/
theorem IsToken.append_inj {l m r s : List Char} (hl : IsToken l)
    (hm : IsToken m) (hr : EndsToken r) (hs : EndsToken s)
    (e : l ++ r = m ++ s) : l = m ∧ r = s := by
  induction l generalizing m with
  | nil =>
    cases m with
    | nil => exact ⟨rfl, e⟩
    | cons c m =>
      cases e
      exact absurd (hr c rfl) (Bool.eq_false_iff.mp (hm c (.head _)))
  | cons c l ih =>
    cases m with
    | nil =>
      cases e
      exact absurd (hs c rfl) (Bool.eq_false_iff.mp (hl c (.head _)))
    | cons d m =>
      obtain ⟨first, tail⟩ := List.cons.inj e
      obtain ⟨same, rest⟩ := ih (fun x hx => hl x (.tail _ hx))
        (fun x hx => hm x (.tail _ hx)) tail
      exact ⟨congrArg₂ List.cons first same, rest⟩

/-! ## What stands behind a head -/

/-- **The characters behind a child**: of those that follow, each behind a
comma, and the parenthesis that closes. -/
def tailChars : List (List Char) → List Char
  | [] => [')']
  | cs :: css => ',' :: ' ' :: (cs ++ tailChars css)

theorem endsTree_tailChars_append (css : List (List Char)) (r : List Char) :
    EndsTree (tailChars css ++ r) := by
  cases css with
  | nil =>
    rintro c ⟨⟩
    exact .inl rfl
  | cons cs css =>
    rintro c ⟨⟩
    exact .inr rfl

/-- Texts in parentheses, character by character. -/
theorem toList_enclose_cons (s : String) (ss : List String) :
    (enclose (s :: ss)).toList
      = '(' :: (s.toList ++ tailChars (ss.map String.toList)) := by
  have behind : (", ".intercalate (s :: ss) ++ ")").toList
      = s.toList ++ tailChars (ss.map String.toList) := by
    induction ss generalizing s with
    | nil => rw [String.intercalate_singleton, String.toList_append]; rfl
    | cons u ss ih =>
      rw [String.intercalate_cons_cons, String.append_assoc, String.append_assoc,
        String.toList_append, String.toList_append, ih u]
      rfl
  rw [enclose, String.append_assoc, String.toList_append, behind]
  rfl

/-! ## Trees with one shape -/

/-- **Trees that are alike up to their leaves**: of one shape, with the same
heads, and with leaves that stand in a relation. -/
inductive Tree.AlikeUpTo (r : Scalar → Scalar → Prop) : Tree → Tree → Prop
  /-- Two leaves. -/
  | boxed {v w : Scalar} (leaves : r v w) : AlikeUpTo r (boxed v) (boxed w)
  /-- Two nodes with one head, over children that are alike one by one. -/
  | node {s : Symbol} {ts us : List Tree} (length : ts.length = us.length)
      (children : ∀ {t u}, (t, u) ∈ ts.zip us → AlikeUpTo r t u) :
      AlikeUpTo r (node s ts) (node s us)

variable {label : Symbol → String} {heads : Rule} {leaves : Scalar → Prop}
  {t u : Tree} {ts us : List Tree} {r s : List Char}

/-- **A vocabulary that can be read**: what is written for a head or a leaf is
a token, heads have names of their own, and no name is the text of a leaf. -/
structure Legible (label : Symbol → String) (heads : Rule)
    (leaves : Scalar → Prop) : Prop where
  /-- A name is a token. -/
  head : ∀ {s k}, heads s k → IsToken (label s).toList
  /-- So is the text of a leaf. -/
  leaf : ∀ {v}, leaves v → IsToken v.render.toList
  /-- No two heads have one name. -/
  eq_of_label_eq : ∀ {s t k l}, heads s k → heads t l → label s = label t → s = t
  /-- No leaf is written as a name. -/
  apart : ∀ {s k v}, heads s k → leaves v → label s ≠ v.render

namespace Tree

/-- **The characters of a node**: its name, and its children in parentheses if
there are any. -/
theorem toList_text_node (s : Symbol) (ts : List Tree) :
    ((node s ts).text label).toList
      = (label s).toList
        ++ (enclose (ts.map (text label))).toList := by
  rw [text_node, String.toList_append]

/-- What may stand behind a node may stand behind its name. -/
theorem endsToken_enclose (ts : List Tree) (hr : EndsTree r) :
    EndsToken ((enclose (ts.map (text label))).toList ++ r) := by
  cases ts with
  | nil => exact hr.endsToken
  | cons t ts =>
    rw [List.map_cons, toList_enclose_cons]
    rintro c ⟨⟩
    rfl

/-- The trees whose texts are cut off, one by one. -/
def CutOff (label : Symbol → String) (t u : Tree) : Prop :=
  ∀ r s : List Char, EndsTree r → EndsTree s →
    (t.text label).toList ++ r = (u.text label).toList ++ s →
      t.AlikeUpTo (fun v w => v.render = w.render) u ∧ r = s

/-- **Children are cut off one by one** behind the first. -/
theorem tailChars_append_inj (h : ∀ t ∈ ts, ∀ u ∈ us, CutOff label t u)
    (e : tailChars ((ts.map (text label)).map String.toList) ++ r
      = tailChars ((us.map (text label)).map String.toList) ++ s) :
    List.Forall₂ (AlikeUpTo fun v w => v.render = w.render) ts us ∧ r = s := by
  induction ts generalizing us with
  | nil =>
    cases us with
    | nil => exact ⟨.nil, (List.cons.inj e).2⟩
    | cons u us => exact absurd (List.cons.inj e).1 (by decide)
  | cons t ts ih =>
    cases us with
    | nil => exact absurd (List.cons.inj e).1 (by decide)
    | cons u us =>
      simp only [List.map_cons, tailChars, List.cons_append,
        List.append_assoc] at e
      have behind := (List.cons.inj (List.cons.inj e).2).2
      obtain ⟨first, rest⟩ := h t (.head _) u (.head _) _ _
        (endsTree_tailChars_append _ _) (endsTree_tailChars_append _ _) behind
      obtain ⟨others, end_⟩ := ih
        (fun t ht u hu => h t (.tail _ ht) u (.tail _ hu)) rest
      exact ⟨.cons first others, end_⟩

/-- Children in parentheses are cut off, and there are none on one side if
there are none on the other. -/
theorem enclose_append_inj (h : ∀ t ∈ ts, ∀ u ∈ us, CutOff label t u)
    (hr : EndsTree r) (hs : EndsTree s)
    (e : (enclose (ts.map (text label))).toList ++ r
      = (enclose (us.map (text label))).toList ++ s) :
    List.Forall₂ (AlikeUpTo fun v w => v.render = w.render) ts us ∧ r = s := by
  cases ts with
  | nil =>
    cases us with
    | nil => exact ⟨.nil, e⟩
    | cons u us =>
      rw [List.map_cons, toList_enclose_cons] at e
      have opens : '(' ∈ r.head? := by
        rw [show r = _ from e]
        rfl
      rcases hr _ opens with same | same <;> exact absurd same (by decide)
  | cons t ts =>
    cases us with
    | nil =>
      rw [List.map_cons, toList_enclose_cons] at e
      have opens : '(' ∈ s.head? := by
        rw [← show _ = s from e]
        rfl
      rcases hs _ opens with same | same <;> exact absurd same (by decide)
    | cons u us =>
      rw [List.map_cons, List.map_cons, toList_enclose_cons,
        toList_enclose_cons, List.cons_append, List.cons_append,
        List.append_assoc, List.append_assoc] at e
      have behind := (List.cons.inj e).2
      obtain ⟨first, rest⟩ := h t (.head _) u (.head _) _ _
        (endsTree_tailChars_append _ _) (endsTree_tailChars_append _ _) behind
      obtain ⟨others, same⟩ := tailChars_append_inj
        (fun t ht u hu => h t (.tail _ ht) u (.tail _ hu)) rest
      exact ⟨.cons first others, same⟩

/-- **The text of a tree is cut off** by what stands behind it, over a
vocabulary that can be read, and determines the tree up to what is written for
its leaves. -/
theorem cutOff_of_legible (legible : Legible label heads leaves)
    (ht : t.MadeOf heads leaves) (hu : u.MadeOf heads leaves) :
    CutOff label t u := by
  induction t generalizing u with
  | boxed v =>
    intro r s hr hs e
    have leaf : leaves v := by cases ht; assumption
    rw [text_boxed] at e
    cases hu with
    | @boxed w leaf' =>
      rw [text_boxed] at e
      obtain ⟨token, rest⟩ := (legible.leaf leaf).append_inj
        (legible.leaf leaf') hr.endsToken hs.endsToken e
      exact ⟨.boxed (String.toList_inj.mp token), rest⟩
    | @node b us head below =>
      rw [toList_text_node, List.append_assoc] at e
      obtain ⟨token, -⟩ := (legible.leaf leaf).append_inj
        (legible.head head) hr.endsToken (endsToken_enclose us hs) e
      exact absurd (String.toList_inj.mp token).symm (legible.apart head leaf)
  | node a ts ih =>
    intro r s hr hs e
    obtain ⟨head, below⟩ : heads a ts.length ∧ ∀ t ∈ ts, t.MadeOf heads leaves := by
      cases ht; exact ⟨‹_›, ‹_›⟩
    rw [toList_text_node, List.append_assoc] at e
    cases hu with
    | @boxed w leaf =>
      rw [text_boxed] at e
      obtain ⟨token, -⟩ := (legible.head head).append_inj
        (legible.leaf leaf) (endsToken_enclose ts hr) hs.endsToken e
      exact absurd (String.toList_inj.mp token) (legible.apart head leaf)
    | @node b us head' below' =>
      rw [toList_text_node, List.append_assoc] at e
      obtain ⟨token, rest⟩ := (legible.head head).append_inj
        (legible.head head') (endsToken_enclose ts hr) (endsToken_enclose us hs) e
      obtain ⟨children, same⟩ := enclose_append_inj
        (fun t ht u hu => ih t ht (below t ht) (below' u hu)) hr hs rest
      cases legible.eq_of_label_eq head head' (String.toList_inj.mp token)
      exact ⟨.node children.length_eq (List.forall₂_iff_zip.mp children).2, same⟩

/-- **Trees with one text** are alike up to what is written for their
leaves. -/
theorem alikeUpTo_of_text_eq (legible : Legible label heads leaves)
    (ht : t.MadeOf heads leaves) (hu : u.MadeOf heads leaves)
    (e : t.text label = u.text label) :
    t.AlikeUpTo (fun v w => v.render = w.render) u := by
  have nothing : EndsTree [] := fun _ hc => nomatch hc
  exact (cutOff_of_legible legible ht hu [] [] nothing nothing (by rw [e])).1

/-- Leaves may be put in a wider relation, where it holds of the leaves that
are there. -/
theorem AlikeUpTo.mono {p q : Scalar → Scalar → Prop}
    (h : t.AlikeUpTo p u) (ht : t.MadeOf heads leaves)
    (hu : u.MadeOf heads leaves)
    (imp : ∀ v w, leaves v → leaves w → p v w → q v w) : t.AlikeUpTo q u := by
  induction h with
  | boxed related =>
    cases ht with
    | boxed left =>
      cases hu with
      | boxed right => exact .boxed (imp _ _ left right related)
  | node length _ ih =>
    cases ht with
    | node _ left =>
      cases hu with
      | node _ right =>
        refine .node length fun pair => ?_
        obtain ⟨hl, hr⟩ := List.of_mem_zip pair
        exact ih pair (left _ hl) (right _ hr)

end Tree

end TermGraph
