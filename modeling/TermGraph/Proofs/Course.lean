import TermGraph.Proofs.Tree
import TermGraph.Term.Order

/-!
# The course of a comparison

The walk keeps its pending pairs in a list, and with the pairs of
children in front of it it goes through two terms in the order in which a
recursion on them would. `Term.course` is that recursion. It yields the
verdict, and every pair the comparison comes to on the way; the two
counters of the walk are read off those pairs (`Tally.countAll`).

The walk does not say which pairs it counts. `Term.walkWith` goes through
the same rounds and notes of each pair whatever one likes: the walk is its
case of two counters, and with a list for a record it tells the pairs.

Walk and recursion agree with no condition on sharing: what is one
instance is passed over by both, so nothing has to be known about it. What
they need is that a pair with one tag has one shape, because the walk has
no answer otherwise. `Term.walkWith_eq_course` is the statement for any
list of pending pairs, and `Term.compareTally?_eq_course` that for the
comparison of two terms.
-/

namespace TermGraph

namespace Tally

/-- One more pair, passed over if it is one instance and looked at
otherwise. -/
def count (c : Tally) (p : Term × Term) : Tally :=
  if p.1.same p.2 then c.skip else c.inspect

/-- **The tally of several pairs**, behind what is already counted. -/
def countAll (c : Tally) (ps : List (Term × Term)) : Tally :=
  ps.foldl count c

end Tally

/-- **The course of a comparison.** -/
structure Course where
  /-- Where it ends. -/
  verdict : Ordering
  /-- The pairs it comes to, in order. -/
  pairs : List (Term × Term)

namespace Course

/-- The course that comes to nothing. -/
def idle : Course := ⟨.eq, []⟩

/-- **One course and then another**, which is entered only if the first
ends without a difference. -/
def andThen (f g : Course) : Course :=
  match f.verdict with
  | .eq => ⟨g.verdict, f.pairs ++ g.pairs⟩
  | o => ⟨o, f.pairs⟩

@[simp] theorem verdict_andThen (f g : Course) :
    (f.andThen g).verdict = f.verdict.then g.verdict := by
  unfold andThen
  cases f.verdict <;> rfl

theorem mem_pairs_andThen {f g : Course} {p : Term × Term}
    (hp : p ∈ (f.andThen g).pairs) : p ∈ f.pairs ∨ p ∈ g.pairs := by
  unfold andThen at hp
  cases hf : f.verdict <;> rw [hf] at hp
  · exact .inl hp
  · exact List.mem_append.mp hp
  · exact .inl hp

theorem andThen_assoc (f g h : Course) :
    (f.andThen g).andThen h = f.andThen (g.andThen h) := by
  unfold andThen
  cases f.verdict <;> cases g.verdict <;> simp

end Course

namespace Term

/-- **What one look at a pair tells**: the order of the tags, and with one
tag that of the values or of the numbers of children. -/
def glance (a b : Term) : Ordering :=
  (compare a.tag b.tag).then <|
    match a, b with
    | boxed _ v, boxed _ w => compare v w
    | node _ _ ts, node _ _ us => compare ts.length us.length
    | _, _ => .eq

mutual

/-- **The comparison of two terms by recursion.** One instance is passed
over; any other pair is looked at, and if that decides nothing its
children are compared. -/
def course : Term → Term → Course
  | a@(boxed _ _), b => ⟨if a.same b then .eq else glance a b, [(a, b)]⟩
  | a@(node _ _ ts), b =>
    if a.same b then ⟨.eq, [(a, b)]⟩
    else (⟨glance a b, [(a, b)]⟩ : Course).andThen (courses ts b.children)

/-- The comparison of children, from left to right up to the first
difference. -/
def courses : List Term → List Term → Course
  | t :: ts, u :: us => (course t u).andThen (courses ts us)
  | _, _ => .idle

end

theorem course_of_same {a b : Term} (h : a.same b = true) :
    course a b = ⟨.eq, [(a, b)]⟩ := by
  cases a <;> rw [course, if_pos h]

theorem course_of_not_same {a b : Term} (h : a.same b = false) :
    course a b
      = (⟨glance a b, [(a, b)]⟩ : Course).andThen
          (courses a.children b.children) := by
  cases a with
  | boxed n v =>
    rw [course, h, if_neg Bool.false_ne_true, children, courses, Course.andThen]
    · cases glance (boxed n v) b <;> rfl
    · rintro t ts u us ⟨⟩
  | node n s ts => rw [course, h, if_neg Bool.false_ne_true, children]

/-- **The comparison of pending pairs**, one after the other. -/
def courseOf : List (Term × Term) → Course
  | [] => .idle
  | (a, b) :: work => (course a b).andThen (courseOf work)

theorem courseOf_append (ps qs : List (Term × Term)) :
    courseOf (ps ++ qs) = (courseOf ps).andThen (courseOf qs) := by
  induction ps with
  | nil => rfl
  | cons p ps ih =>
    rw [List.cons_append, courseOf, ih, courseOf, Course.andThen_assoc]

theorem courses_eq_courseOf (ts us : List Term) :
    courses ts us = courseOf (ts.zip us) := by
  induction ts generalizing us with
  | nil => cases us <;> rfl
  | cons t ts ih =>
    cases us with
    | nil => rfl
    | cons u us => rw [courses, ih, List.zip_cons_cons, courseOf]

/-! ## The walk takes this course -/

/-- **A tag decides the shape** of a term in which no node carries a tag
of boxed scalars. -/
theorem isComplex_eq_isBoxed_tag {t : Term} (h : t.tree.WellTagged) :
    t.isComplex = !t.tag.isBoxed := by
  cases t with
  | boxed n v => rw [isComplex, tag, Scalar.isBoxed_tag, Bool.not_true]
  | node n s ts =>
    rw [tree_node, Tree.WellTagged, Tree.all_node] at h
    rw [isComplex, tag, h.1, Bool.not_false]

theorem pending_lt_pending_cons (p : Term × Term) (work : List (Term × Term)) :
    pending work < pending (p :: work) := by
  have := p.1.size_pos
  rw [pending, pending, List.map_cons, sizes_cons]
  omega

theorem pending_children_append_lt (a b : Term) (work : List (Term × Term)) :
    pending (a.children.zip b.children ++ work) < pending ((a, b) :: work) := by
  cases a with
  | boxed n v => exact pending_lt_pending_cons _ work
  | node n s ts => exact pending_zip_append_lt n s ts b.children b work

/-- **The walk with a record**: the same rounds, and what is noted of a
pair when it is taken from the front is left open. -/
def walkWith {γ : Type} (note : γ → Term × Term → γ) :
    List (Term × Term) → γ → Option (Ordering × γ)
  | [], c => some (.eq, c)
  | (a, b) :: work, c =>
    if a.same b then walkWith note work (note c (a, b))
    else
      match compare a.tag b.tag with
      | .lt => some (.lt, note c (a, b))
      | .gt => some (.gt, note c (a, b))
      | .eq =>
        match a, b with
        | boxed _ v, boxed _ w =>
          match compare v w with
          | .lt => some (.lt, note c (a, b))
          | .gt => some (.gt, note c (a, b))
          | .eq => walkWith note work (note c (a, b))
        | node _ _ ts, node _ _ us =>
          match compare ts.length us.length with
          | .lt => some (.lt, note c (a, b))
          | .gt => some (.gt, note c (a, b))
          | .eq => walkWith note (ts.zip us ++ work) (note c (a, b))
        | _, _ => none
termination_by work => pending work
decreasing_by
  · exact pending_lt_pending_cons _ _
  · exact pending_lt_pending_cons _ _
  · exact pending_zip_append_lt _ _ _ _ _ _

/-- **The walk itself counts the pairs.** -/
theorem walk_eq_walkWith (work : List (Term × Term)) (c : Tally) :
    walk work c = walkWith Tally.count work c := by
  fun_induction walk work c with
  | case1 c => rw [walkWith]
  | case2 a b work c same ih =>
    rw [walkWith.eq_def, ih]
    simp only [Tally.count, if_pos same]
  | _ =>
    -- The remaining rounds look at the pair, and part where the walk does.
    rw [walkWith.eq_def]
    simp only [Tally.count, *, if_false, Bool.false_eq_true]

variable {γ : Type} {note : γ → Term × Term → γ}

/-- **One round of the walk**, for a pair whose shapes agree if the tags
do. -/
theorem walkWith_cons {a b : Term} (work : List (Term × Term)) (c : γ)
    (h : a.tag = b.tag → a.isComplex = b.isComplex) :
    walkWith note ((a, b) :: work) c
      = if a.same b then walkWith note work (note c (a, b))
        else
          match glance a b with
          | .eq => walkWith note (a.children.zip b.children ++ work)
              (note c (a, b))
          | o => some (o, note c (a, b)) := by
  rw [walkWith.eq_def]
  dsimp only
  split
  · rfl
  · unfold glance
    cases hc : compare a.tag b.tag with
    | lt => rfl
    | gt => rfl
    | eq =>
      have shape := h (Symbol.compare_eq_eq_iff.mp hc)
      rw [Ordering.eq_then]
      rcases a with ⟨m, v⟩ | ⟨m, s, ts⟩ <;> rcases b with ⟨n, w⟩ | ⟨n, t, us⟩
      · dsimp only
        cases compare v w <;> rfl
      · cases shape
      · cases shape
      · dsimp only
        cases compare ts.length us.length <;> rfl

/-- **The walk is the recursion**, whatever is noted: it ends with the
verdict of the course and has noted its pairs, in order. -/
theorem walkWith_eq_course (work : List (Term × Term)) (c : γ)
    (h : ∀ p ∈ work, p.1.tree.WellTagged ∧ p.2.tree.WellTagged) :
    walkWith note work c
      = some ((courseOf work).verdict, (courseOf work).pairs.foldl note c) := by
  match work with
  | [] => rw [walkWith]; rfl
  | (a, b) :: work =>
    obtain ⟨⟨ha, hb⟩, hwork⟩ := List.forall_mem_cons.mp h
    have shape : a.tag = b.tag → a.isComplex = b.isComplex := fun same => by
      rw [isComplex_eq_isBoxed_tag ha, isComplex_eq_isBoxed_tag hb, same]
    have hnext : ∀ p ∈ a.children.zip b.children ++ work,
        p.1.tree.WellTagged ∧ p.2.tree.WellTagged := by
      intro p hp
      rcases List.mem_append.mp hp with hzip | htail
      · obtain ⟨hl, hr⟩ := List.of_mem_zip hzip
        exact ⟨all_tree_of_mem_children ha hl, all_tree_of_mem_children hb hr⟩
      · exact hwork p htail
    rw [walkWith_cons work c shape, courseOf]
    by_cases hsame : a.same b
    · rw [if_pos hsame, walkWith_eq_course work _ hwork, course_of_same hsame]
      rfl
    · rw [if_neg hsame, course_of_not_same (by simpa using hsame),
        courses_eq_courseOf, Course.andThen_assoc, ← courseOf_append]
      cases glance a b with
      | lt => rfl
      | gt => rfl
      | eq =>
        dsimp only
        rw [walkWith_eq_course _ _ hnext]
        rfl
termination_by pending work
decreasing_by
  · exact pending_lt_pending_cons _ _
  · exact pending_children_append_lt _ _ _

/-- **The walk over two terms goes through their course**, whatever is
noted. -/
theorem walkWith_singleton_eq_course {a b : Term} (ha : a.tree.WellTagged)
    (hb : b.tree.WellTagged) (c : γ) :
    walkWith note [(a, b)] c
      = some ((course a b).verdict, (course a b).pairs.foldl note c) := by
  rw [walkWith_eq_course [(a, b)] c (by simp [ha, hb]), courseOf, courseOf,
    Course.andThen]
  cases (a.course b).verdict <;> simp [Course.idle]

/-- **The comparison of two terms is the recursion on them.** -/
theorem compareTally?_eq_course {a b : Term} (ha : a.tree.WellTagged)
    (hb : b.tree.WellTagged) :
    a.compareTally? b
      = some ((a.course b).verdict, Tally.countAll {} (a.course b).pairs) := by
  rw [compareTally?, walk_eq_walkWith, walkWith_singleton_eq_course ha hb]
  rfl

/-! ## The pairs a course comes to -/

/-- What the comparison of children comes to, it comes to in two of
them. -/
theorem exists_of_mem_pairs_courses {ts us : List Term} {p : Term × Term}
    (hp : p ∈ (courses ts us).pairs) :
    ∃ t ∈ ts, ∃ u ∈ us, p ∈ (course t u).pairs := by
  induction ts generalizing us with
  | nil => cases hp
  | cons t ts ih =>
    cases us with
    | nil => cases hp
    | cons u us =>
      rcases Course.mem_pairs_andThen hp with hp | hp
      · exact ⟨t, .head _, u, .head _, hp⟩
      · obtain ⟨t', ht, u', hu, hp⟩ := ih hp
        exact ⟨t', .tail _ ht, u', .tail _ hu, hp⟩

/-- **A comparison comes to nothing but parts** of the terms it compares,
one of each. -/
theorem occurs_of_mem_pairs {a b : Term} {p : Term × Term}
    (hp : p ∈ (course a b).pairs) : p.1.Occurs a ∧ p.2.Occurs b := by
  induction a generalizing b p with
  | boxed n v =>
    rw [course] at hp
    rw [List.mem_singleton.mp hp]
    exact ⟨.self _, .self _⟩
  | node n s ts ih =>
    rw [course] at hp
    split at hp
    · rw [List.mem_singleton.mp hp]
      exact ⟨.self _, .self _⟩
    · rcases Course.mem_pairs_andThen hp with hp | hp
      · rw [List.mem_singleton.mp hp]
        exact ⟨.self _, .self _⟩
      · obtain ⟨t, ht, u, hu, hp⟩ := exists_of_mem_pairs_courses hp
        obtain ⟨left, right⟩ := ih t ht hp
        exact ⟨.under ht left, .under hu right⟩

end Term

end TermGraph
