import Mathlib.Data.Finset.Card
import TermGraph.Proofs.Naming

/-!
# Requests for names

A run of requests begins with the empty table, and each of them is
answered by the table that those before have left. The answer can be had
without any table. The names asked for until then that are not those of
built-in symbols, `freeNames`, are the names the table has
(`names_afterAll`), so their number says where the next one goes; and the
first request for a name says with how many children it was registered and
which symbol it has (`entries_of_first`). This is stated as `Answered`,
one field for each kind of name.

The names of a run are counted as a set, each once, and what is assumed is
that there are numbers for them all. The assumption then holds for every
beginning of the run, since a beginning asks for no more names, and each
new name still finds a number left, since it is one more
(`card_freeNames_lt`).

A request that is refused, repeats a name or asks for that of a built-in
symbol leaves the table as it is (`after_of_idle`). The requests behind it
are then answered as if it had not been made. Such requests can be struck
from a run, all at once and wherever they stand, and every other answer
stays what it was (`afterAll_keep`).
-/

namespace TermGraph

namespace SymbolTable

variable {t : SymbolTable} {s : Symbol} {d e : Entry} {es : List Entry} {i : ℕ}

/-- **The answer to a request** for a registration: the symbol, or why
there is none. -/
def answer (t : SymbolTable) (e : Entry) : Except TermError Symbol :=
  (t.intern e.name e.arity).map Prod.fst

/-- **The table after a request**; a request that is refused leaves it as
it is. -/
def after (t : SymbolTable) (e : Entry) : SymbolTable :=
  match t.intern e.name e.arity with
  | .ok (_, u) => u
  | .error _ => t

/-- The table after several requests. -/
def afterAll (t : SymbolTable) (es : List Entry) : SymbolTable :=
  es.foldl after t

/-- **The answers to several requests**, one after the other. -/
def answers (t : SymbolTable) : List Entry → List (Except TermError Symbol)
  | [] => []
  | e :: es => t.answer e :: (t.after e).answers es

/-! ## One request -/

theorem intern_of_builtin? {name : String} {k : ℕ}
    (h : Symbol.builtin? name = some s) :
    t.intern name k
      = match s.builtinArity? with
        | some fixed =>
          if fixed = k then .ok (s, t) else .error (.arityConflict name fixed k)
        | none => .error (.reservedSymbol name) := by
  unfold intern
  split
  · next s' h' =>
    cases h.symm.trans h'
    rfl
  · next h' => cases h.symm.trans h'

theorem intern_of_registered (h : t.entries[i]? = some d) (k : ℕ) :
    t.intern d.name k
      = if d.arity = k then .ok (symbolAt i, t)
        else .error (.arityConflict d.name d.arity k) := by
  obtain ⟨hlt, rfl⟩ := Array.getElem?_eq_some_iff.mp h
  have isFree := t.free _ (Array.getElem_mem hlt)
  have here : t.index? t.entries[i].name = some ⟨i, hlt⟩ :=
    index?_eq_some_iff.mpr ⟨_, h, rfl⟩
  unfold intern
  split
  · next h' => cases isFree.symm.trans h'
  · split
    · next h' =>
      cases here.symm.trans h'
      rfl
    · next h' => cases here.symm.trans h'

theorem intern_of_new (isFree : Symbol.builtin? e.name = none)
    (isNew : t.index? e.name = none)
    (room : Symbol.firstFree + t.size < Symbol.maxTag.toNat) :
    t.intern e.name e.arity
      = .ok (symbolAt t.size, t.register e isFree isNew room) := by
  unfold intern
  split
  · next h' => cases isFree.symm.trans h'
  · split
    · next h' => cases isNew.symm.trans h'
    · exact dif_pos room

theorem after_of_builtin? (h : Symbol.builtin? e.name = some s) :
    t.after e = t := by
  rw [after, intern_of_builtin? h]
  cases s.builtinArity? with
  | none => rfl
  | some k => by_cases same : k = e.arity <;> simp [same]

theorem answer_of_builtin? (h : Symbol.builtin? e.name = some s) :
    t.answer e
      = match s.builtinArity? with
        | some k =>
          if e.arity = k then .ok s
          else .error (.arityConflict e.name k e.arity)
        | none => .error (.reservedSymbol e.name) := by
  rw [answer, intern_of_builtin? h]
  cases s.builtinArity? with
  | none => rfl
  | some k =>
    by_cases agree : k = e.arity
    · simp only [agree, if_true]
      rfl
    · simp only [agree, Ne.symm agree, if_false]
      rfl

theorem after_of_answer_eq_error {cause : TermError}
    (h : t.answer e = .error cause) : t.after e = t := by
  unfold answer at h
  unfold after
  split
  · next registered =>
    rw [registered] at h
    cases h
  · rfl

theorem answer_of_registered (h : t.entries[i]? = some d)
    (same : d.name = e.name) :
    t.answer e
      = if e.arity = d.arity then .ok (symbolAt i)
        else .error (.arityConflict e.name d.arity e.arity) := by
  rw [answer, ← same, intern_of_registered h]
  by_cases agree : d.arity = e.arity
  · rw [if_pos agree, if_pos agree.symm]
    rfl
  · rw [if_neg agree, if_neg (Ne.symm agree)]
    rfl

theorem after_of_registered (h : t.entries[i]? = some d)
    (same : d.name = e.name) : t.after e = t := by
  rw [after, ← same, intern_of_registered h]
  by_cases agree : d.arity = e.arity <;> simp [agree]

/-! ## The names of a table -/

/-- The registered names. -/
def names (t : SymbolTable) : Finset String :=
  (t.entries.toList.map Entry.name).toFinset

theorem mem_names_iff {n : String} :
    n ∈ t.names ↔ ∃ (i : ℕ) (d : Entry), t.entries[i]? = some d ∧ d.name = n := by
  rw [names, List.mem_toFinset, List.mem_map]
  constructor
  · rintro ⟨d, hd, same⟩
    obtain ⟨i, hi⟩ := List.mem_iff_getElem?.mp hd
    exact ⟨i, d, Array.getElem?_toList ▸ hi, same⟩
  · rintro ⟨i, d, hi, same⟩
    exact ⟨d, Array.mem_toList_iff.mpr (Array.mem_of_getElem? hi), same⟩

/-- A table has as many places as names. -/
theorem card_names (t : SymbolTable) : t.names.card = t.size := by
  rw [names, List.toFinset_card_of_nodup t.nodup, List.length_map,
    Array.length_toList, size]

theorem index?_eq_none {n : String} (h : n ∉ t.names) : t.index? n = none := by
  refine Option.eq_none_iff_forall_ne_some.mpr fun i hi => h ?_
  exact mem_names_iff.mpr ⟨i, index?_eq_some_iff.mp hi⟩

/-- **A new name gets the next place.** -/
theorem answer_of_new (isFree : Symbol.builtin? e.name = none)
    (isNew : e.name ∉ t.names)
    (room : Symbol.firstFree + t.size < Symbol.maxTag.toNat) :
    t.answer e = .ok (symbolAt t.size)
      ∧ (t.after e).entries = t.entries.push e := by
  rw [answer, after, intern_of_new isFree (index?_eq_none isNew) room]
  exact ⟨rfl, entries_register ..⟩

theorem names_after (isFree : Symbol.builtin? e.name = none)
    (room : e.name ∉ t.names → Symbol.firstFree + t.size < Symbol.maxTag.toNat) :
    (t.after e).names = insert e.name t.names := by
  by_cases old : e.name ∈ t.names
  · obtain ⟨i, d, hd, same⟩ := mem_names_iff.mp old
    rw [after_of_registered hd same, Finset.insert_eq_of_mem old]
  · rw [names, (answer_of_new isFree old (room old)).2, names]
    simp [List.toFinset_append, Finset.union_comm]

/-- **A request extends the table**, whatever comes of it. -/
theorem extends_after (t : SymbolTable) (e : Entry) :
    (t.after e).Extends t := by
  unfold after
  split
  · next registered => exact extends_of_intern registered
  · exact fun _ _ => id

/-- So do many. -/
theorem extends_afterAll (t : SymbolTable) (es : List Entry) :
    (t.afterAll es).Extends t := by
  induction es generalizing t with
  | nil => exact fun _ _ => id
  | cons e es ih =>
    exact fun i d here => ih (t.after e) i d (t.extends_after e i d here)

/-! ## A whole run of requests -/

theorem afterAll_append (t : SymbolTable) (es fs : List Entry) :
    t.afterAll (es ++ fs) = (t.afterAll es).afterAll fs :=
  List.foldl_append

theorem take_succ (h : es[i]? = some e) :
    es.take (i + 1) = es.take i ++ [e] := by
  rw [List.take_add_one, h, Option.toList_some]

theorem afterAll_take_succ (t : SymbolTable) (h : es[i]? = some e) :
    t.afterAll (es.take (i + 1)) = (t.afterAll (es.take i)).after e := by
  rw [take_succ h, afterAll_append]
  rfl

/-- **Each answer of a run** is that of the table after the requests
before. -/
theorem getElem?_answers (t : SymbolTable) (es : List Entry) (i : ℕ) :
    (t.answers es)[i]?
      = es[i]?.map fun e => (t.afterAll (es.take i)).answer e := by
  induction es generalizing t i with
  | nil => rfl
  | cons e es ih =>
    cases i with
    | zero => rfl
    | succ i => exact ih (t.after e) i

/-- **The names that are asked for** and not those of built-in symbols,
each once. -/
def freeNames (es : List Entry) : Finset String :=
  (es.map Entry.name).toFinset.filter fun n => Symbol.builtin? n = none

theorem mem_freeNames {n : String} :
    n ∈ freeNames es ↔ n ∈ es.map Entry.name ∧ Symbol.builtin? n = none := by
  rw [freeNames, Finset.mem_filter, List.mem_toFinset]

theorem freeNames_subset {fs : List Entry} (h : es ⊆ fs) :
    freeNames es ⊆ freeNames fs := by
  intro n hn
  obtain ⟨asked, isFree⟩ := mem_freeNames.mp hn
  exact mem_freeNames.mpr ⟨List.map_subset _ h asked, isFree⟩

theorem notMem_freeNames {n : String} (h : n ∉ es.map Entry.name) :
    n ∉ freeNames es := fun asked => h (mem_freeNames.mp asked).1

/-- A name that is asked for the first time makes one more. -/
theorem card_freeNames_lt {fs : List Entry} (h : es ++ [e] ⊆ fs)
    (isFree : Symbol.builtin? e.name = none) (isNew : e.name ∉ freeNames es) :
    (freeNames es).card < (freeNames fs).card := by
  obtain ⟨before, here⟩ := List.append_subset.mp h
  refine Finset.card_lt_card ⟨freeNames_subset before, fun back => isNew (back ?_)⟩
  exact mem_freeNames.mpr
    ⟨List.mem_map_of_mem (here (List.mem_singleton_self e)), isFree⟩

theorem freeNames_concat (es : List Entry) (e : Entry) :
    freeNames (es ++ [e])
      = if Symbol.builtin? e.name = none then insert e.name (freeNames es)
        else freeNames es := by
  ext n
  have asked : n ∈ (es ++ [e]).map Entry.name
      ↔ n = e.name ∨ n ∈ es.map Entry.name := by
    rw [List.map_append, List.mem_append, List.map_singleton,
      List.mem_singleton, or_comm]
  rw [mem_freeNames, asked, or_and_right, ← mem_freeNames]
  split
  · next isFree =>
    rw [Finset.mem_insert, and_iff_left_of_imp fun same => same ▸ isFree]
  · next builtin => exact or_iff_right fun new => builtin (new.1 ▸ new.2)

/-- **A table has the names that were asked for**, as long as there is
room for them. -/
theorem names_afterAll
    (room : Symbol.firstFree + (freeNames es).card ≤ Symbol.maxTag.toNat) :
    (afterAll ∅ es).names = freeNames es := by
  -- By the last request: the table it is made to has the names before it.
  induction es using List.reverseRecOn with
  | nil => rfl
  | append_singleton es e ih =>
    have fewer : (freeNames es).card ≤ (freeNames (es ++ [e])).card :=
      Finset.card_le_card (freeNames_subset (List.subset_append_left es [e]))
    have known : (afterAll ∅ es).names = freeNames es := ih (by omega)
    rw [afterAll_append]
    show ((afterAll ∅ es).after e).names = _
    cases isFree : Symbol.builtin? e.name with
    | some s =>
      rw [after_of_builtin? isFree, known, freeNames_concat, isFree]
      rfl
    | none =>
      rw [names_after isFree, known, freeNames_concat, if_pos isFree]
      rw [known, ← card_names, known]
      intro isNew
      have := card_freeNames_lt (List.Subset.refl _) isFree isNew
      omega

theorem size_afterAll
    (room : Symbol.firstFree + (freeNames es).card ≤ Symbol.maxTag.toNat) :
    (afterAll ∅ es).size = (freeNames es).card := by
  rw [← card_names, names_afterAll room]

theorem card_freeNames_take_le (es : List Entry) (i : ℕ) :
    (freeNames (es.take i)).card ≤ (freeNames es).card :=
  Finset.card_le_card (freeNames_subset (es.take_subset i))

theorem take_append_subset (h : es[i]? = some d) : es.take i ++ [d] ⊆ es :=
  take_succ h ▸ es.take_subset (i + 1)

/-- **The first request for a name registers it** behind all the names
asked for until then, and there it stays. -/
theorem entries_of_first
    (room : Symbol.firstFree + (freeNames es).card ≤ Symbol.maxTag.toNat)
    (h : es[i]? = some d) (isFree : Symbol.builtin? d.name = none)
    (isNew : d.name ∉ (es.take i).map Entry.name) :
    (afterAll ∅ (es.take i)).answer d
        = .ok (symbolAt (freeNames (es.take i)).card)
      ∧ (afterAll ∅ es).entries[(freeNames (es.take i)).card]? = some d := by
  have absent := notMem_freeNames isNew
  have more := card_freeNames_lt (take_append_subset h) isFree absent
  have upTo : Symbol.firstFree + (freeNames (es.take i)).card
      ≤ Symbol.maxTag.toNat := by omega
  have known := names_afterAll upTo
  have size := size_afterAll upTo
  obtain ⟨answered, pushed⟩ :=
    answer_of_new isFree (known ▸ absent) (by omega)
  rw [size] at answered
  refine ⟨answered, ?_⟩
  rw [← es.take_append_drop (i + 1), afterAll_append]
  refine extends_afterAll _ _ _ _ ?_
  rw [List.take_append_drop, afterAll_take_succ ∅ h, pushed, ← size]
  exact Array.getElem?_push_size

/-! ## What decides an answer -/

/-- **A request is answered by the first requests.** What is said of the
answer `r` to a request `e` behind the requests `before`. -/
structure Answered (before : List Entry) (e : Entry)
    (r : Except TermError Symbol) : Prop where
  /-- A built-in constructor answers with its symbol, for its own number of
  children only. -/
  builtin : ∀ s, Symbol.builtin? e.name = some s → s.isSentinel = false →
    s.isBoxed = false → ∃ k, s.builtinArity? = some k
      ∧ r = if e.arity = k then .ok s
        else .error (.arityConflict e.name k e.arity)
  /-- The names of the bounds of the order and of the tags of boxed scalars
  are set aside. -/
  reserved : ∀ s, Symbol.builtin? e.name = some s →
    s.isSentinel = true ∨ s.isBoxed = true →
      r = .error (.reservedSymbol e.name)
  /-- Another name that is asked for the first time gets the number behind
  those of all names registered before. -/
  first : Symbol.builtin? e.name = none → e.name ∉ before.map Entry.name →
    ∃ s, r = .ok s ∧ s.toNat = Symbol.firstFree + (freeNames before).card
  /-- Asked for again, it answers with the symbol of the first request for
  it, if the numbers of children agree. -/
  again : Symbol.builtin? e.name = none → ∀ j d, before[j]? = some d →
    d.name = e.name → e.name ∉ (before.take j).map Entry.name →
      ∃ s, (answers ∅ before)[j]? = some (.ok s)
        ∧ r = if e.arity = d.arity then .ok s
          else .error (.arityConflict e.name d.arity e.arity)

/-- **A request that registers nothing**: it is refused, or repeats a name,
or asks for that of a built-in symbol. -/
def Idle (before : List Entry) (e : Entry) : Prop :=
  (∃ cause, (afterAll ∅ before).answer e = .error cause)
    ∨ e.name ∈ before.map Entry.name
    ∨ (Symbol.builtin? e.name).isSome = true

/-- What is kept of a list under marks. -/
def keep {α : Type} : List α → List Bool → List α
  | x :: xs, true :: marks => x :: keep xs marks
  | _ :: xs, false :: marks => keep xs marks
  | _, _ => []

/-- **A request that registers nothing leaves the table as it is.** -/
theorem after_of_idle
    (room : Symbol.firstFree + (freeNames es).card ≤ Symbol.maxTag.toNat)
    (h : Idle es e) : (afterAll ∅ es).after e = afterAll ∅ es := by
  rcases h with ⟨cause, refused⟩ | repeated | builtin
  · exact after_of_answer_eq_error refused
  · cases isFree : Symbol.builtin? e.name with
    | some s => exact after_of_builtin? isFree
    | none =>
      have old := names_afterAll room ▸ mem_freeNames.mpr ⟨repeated, isFree⟩
      obtain ⟨i, d, hd, same⟩ := mem_names_iff.mp old
      exact after_of_registered hd same
  · obtain ⟨s, hs⟩ := Option.isSome_iff_exists.mp builtin
    exact after_of_builtin? hs

/-- **The table left by a run answers by the first requests of the run**, as
long as there is a number for what is new. -/
theorem answered_answer
    (room : Symbol.firstFree + (freeNames es).card ≤ Symbol.maxTag.toNat)
    (more : Symbol.builtin? e.name = none → e.name ∉ es.map Entry.name →
      Symbol.firstFree + (freeNames es).card < Symbol.maxTag.toNat) :
    Answered es e ((afterAll ∅ es).answer e) where
  builtin s hs plain unboxed := by
    have named := Symbol.isSome_builtinName? s
    rw [Symbol.builtin?_eq_some_iff.mp hs] at named
    obtain ⟨k, hk⟩ := Symbol.exists_builtinArity? named.symm plain unboxed
    refine ⟨k, hk, ?_⟩
    rw [answer_of_builtin? hs, hk]
  reserved s hs aside := by
    have none : s.builtinArity? = none :=
      aside.elim Symbol.builtinArity?_of_isSentinel
        Symbol.builtinArity?_of_isBoxed
    rw [answer_of_builtin? hs, none]
  first isFree isNew := by
    have absent : e.name ∉ (afterAll ∅ es).names := by
      rw [names_afterAll room]
      exact notMem_freeNames isNew
    have size := size_afterAll room
    have below : Symbol.firstFree + (afterAll ∅ es).size < Symbol.maxTag.toNat :=
      size ▸ more isFree isNew
    refine ⟨_, (answer_of_new isFree absent below).1, ?_⟩
    rw [size]
    exact toNat_symbolAt (more isFree isNew)
  again isFree j d hj same isFirst := by
    rw [← same] at isFree isFirst
    obtain ⟨answered, registered⟩ := entries_of_first room hj isFree isFirst
    refine ⟨_, ?_, answer_of_registered registered same⟩
    rw [getElem?_answers, hj, Option.map_some, answered]

/-- **Requests that change nothing may be left out** of a run: the table is
the same in the end, and so is every answer that is left. -/
theorem afterAll_keep {marks : List Bool} (hlen : marks.length = es.length)
    (idle : ∀ i e, es[i]? = some e → marks[i]? = some false →
      (t.afterAll (es.take i)).after e = t.afterAll (es.take i)) :
    t.afterAll (keep es marks) = t.afterAll es
      ∧ t.answers (keep es marks) = keep (t.answers es) marks := by
  induction es generalizing t marks with
  | nil =>
    rw [List.length_eq_zero_iff.mp hlen]
    exact ⟨rfl, rfl⟩
  | cons e es ih =>
    match marks with
    | [] => cases hlen
    | m :: marks =>
      -- The rest of the run starts from the table behind `e`, which is the
      -- table before it when `e` is left out.
      obtain ⟨table, answers⟩ := ih (t := t.after e) (Nat.succ.inj hlen)
        fun i d hd hm => idle (i + 1) d hd hm
      cases m with
      | true => exact ⟨table, congrArg (t.answer e :: ·) answers⟩
      | false =>
        have still : t.after e = t := idle 0 e rfl rfl
        rw [still] at table answers
        refine ⟨?_, ?_⟩
        · show t.afterAll (keep es marks) = (t.after e).afterAll es
          rw [still, table]
        · show t.answers (keep es marks) = keep ((t.after e).answers es) marks
          rw [still, answers]

/-- **Every run of requests is decided by its first requests.** Take a run
on the empty table that has no more names to register than there are
numbers. Each request is answered by the first requests among those before
it. A request that is refused, repeats a name or asks for that of a
built-in symbol leaves the table as it is; and with any of these struck
out, the run ends with the same table and all its other requests get the
same answers. -/
theorem answered_of_first_requests (calls : List Entry)
    (room : Symbol.firstFree + (freeNames calls).card ≤ Symbol.maxTag.toNat) :
    (∀ i e, calls[i]? = some e →
        ∃ r, (answers ∅ calls)[i]? = some r ∧ Answered (calls.take i) e r)
      ∧ (∀ i e, calls[i]? = some e → Idle (calls.take i) e →
          afterAll ∅ (calls.take (i + 1)) = afterAll ∅ (calls.take i))
      ∧ ∀ marks : List Bool, marks.length = calls.length →
          (∀ i e, calls[i]? = some e → marks[i]? = some false →
            Idle (calls.take i) e) →
          afterAll ∅ (keep calls marks) = afterAll ∅ calls
            ∧ answers ∅ (keep calls marks) = keep (answers ∅ calls) marks := by
  have upTo : ∀ i,
      Symbol.firstFree + (freeNames (calls.take i)).card ≤ Symbol.maxTag.toNat :=
    fun i => (Nat.add_le_add_left (card_freeNames_take_le calls i) _).trans room
  refine ⟨fun i e he => ?_, fun i e he idle => ?_, fun marks hlen idle => ?_⟩
  · refine ⟨_, by rw [getElem?_answers, he, Option.map_some], ?_⟩
    refine answered_answer (upTo i) fun isFree isNew => ?_
    have more := card_freeNames_lt (take_append_subset he) isFree
      (notMem_freeNames isNew)
    omega
  · rw [afterAll_take_succ ∅ he, after_of_idle (upTo i) idle]
  · exact afterAll_keep hlen fun i e he hm =>
      after_of_idle (upTo i) (idle i e he hm)

/-- A run with a conflict, a repetition and two names of built-in symbols
around its two registrations. -/
theorem answered_of_first_requests_mixed :
    let calls : List Entry := [⟨"f", 1⟩, ⟨"cons", 2⟩, ⟨"f", 2⟩, ⟨"g", 0⟩,
      ⟨"f", 1⟩, ⟨"min_term", 0⟩]
    Symbol.firstFree + (freeNames calls).card ≤ Symbol.maxTag.toNat
      ∧ (answers ∅ calls)[2]? = some (.error (.arityConflict "f" 1 2))
      ∧ (∃ s, (answers ∅ calls)[3]? = some (.ok s) ∧ s.toNat = 16)
      ∧ afterAll ∅ [⟨"f", 1⟩, ⟨"g", 0⟩] = afterAll ∅ calls
      ∧ answers ∅ [⟨"f", 1⟩, ⟨"g", 0⟩]
          = keep (answers ∅ calls) [true, false, false, true, false, false] := by
  intro calls
  have room : Symbol.firstFree + (freeNames calls).card ≤ Symbol.maxTag.toNat := by
    decide
  obtain ⟨answered, -, kept⟩ := answered_of_first_requests calls room
  refine ⟨room, ?_, ?_,
    kept [true, false, false, true, false, false] rfl fun i e he hm => ?_⟩
  · obtain ⟨r, hr, said⟩ := answered 2 ⟨"f", 2⟩ rfl
    obtain ⟨s, -, conflict⟩ :=
      said.again (by decide) 0 ⟨"f", 1⟩ rfl rfl List.not_mem_nil
    rw [hr, conflict]
    rfl
  · obtain ⟨r, hr, said⟩ := answered 3 ⟨"g", 0⟩ rfl
    obtain ⟨s, rfl, number⟩ := said.first (by decide) (by decide)
    exact ⟨s, hr, number⟩
  · rcases i with _ | _ | _ | _ | _ | _ | i
    · cases hm
    · cases he
      exact .inr (.inr (by decide))
    · cases he
      exact .inr (.inl (by decide))
    · cases hm
    · cases he
      exact .inr (.inl (by decide))
    · cases he
      exact .inr (.inr (by decide))
    · cases he

end SymbolTable

end TermGraph
