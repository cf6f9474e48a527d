/-!
# Things kept under names

A script keeps tables, terms and samplers under names of its choosing. A
name holds one thing, the last that was put there.
-/

namespace TermGraph.Script

/-- **Things under names.** -/
structure Shelf (α : Type) where
  /-- Each name with what it holds. -/
  entries : List (String × α) := []

namespace Shelf

variable {α : Type}

/-- What a name holds. -/
def find? (s : Shelf α) (name : String) : Option α := s.entries.lookup name

/-- Takes away what a name holds. -/
def remove (s : Shelf α) (name : String) : Shelf α :=
  ⟨s.entries.filter (·.1 != name)⟩

/-- Puts something under a name, in place of what it held. -/
def put (s : Shelf α) (name : String) (a : α) : Shelf α :=
  ⟨(name, a) :: (s.remove name).entries⟩

@[simp] theorem find?_put_self (s : Shelf α) (name : String) (a : α) :
    (s.put name a).find? name = some a := by
  simp [put, find?]

end Shelf

end TermGraph.Script
