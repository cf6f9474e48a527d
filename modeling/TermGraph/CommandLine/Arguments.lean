/-!
# Options among arguments

An argument list is read as uses of options. An option has a letter and a
word. Letters follow one hyphen and may be written together; a word
follows two. An option that takes a value finds it in the rest of its own
argument – behind the letter, behind a `=` – or in the argument that
follows, which then must not begin with a hyphen itself.

Whatever is not a use of an option is refused, and so is a second use of
the same option. A bare `--` ends the options, and since no other
arguments are known nothing may follow it.
-/

namespace TermGraph.CommandLine

/-- **An option.** -/
structure Switch where
  /-- The letter, used behind one hyphen. -/
  letter : Char
  /-- The word, used behind two. -/
  word : String
  /-- Whether it takes a value. -/
  takesValue : Bool
deriving DecidableEq

/-- An option with the value it was given; one that takes none has the
empty value. -/
structure Use where
  /-- The option. -/
  switch : Switch
  /-- The value. -/
  value : String

/-- What one argument says: options used, and possibly one more that has
to find its value in the next argument. -/
structure Reading where
  /-- The options used. -/
  uses : List Use
  /-- The option still without its value. -/
  awaiting : Option Switch

/-- Reads letters written together. The first that takes a value takes
all that follows it. -/
def readLetters (known : List Switch) : List Char → Option Reading
  | [] => some ⟨[], none⟩
  | c :: cs =>
    match known.find? (·.letter == c) with
    | none => none
    | some s =>
      if s.takesValue then
        match cs with
        | [] => some ⟨[], some s⟩
        | '=' :: v => some ⟨[⟨s, String.ofList v⟩], none⟩
        | v => some ⟨[⟨s, String.ofList v⟩], none⟩
      else (readLetters known cs).map fun r => { r with uses := ⟨s, ""⟩ :: r.uses }

/-- Reads a word with the value behind its `=`, if there is one. -/
def readWord (known : List Switch) (cs : List Char) : Option Reading :=
  let (word, rest) := cs.span (· != '=')
  match known.find? (·.word == String.ofList word), rest with
  | none, _ => none
  | some s, [] =>
    if s.takesValue then some ⟨[], some s⟩ else some ⟨[⟨s, ""⟩], none⟩
  | some s, _ :: v =>
    if s.takesValue then some ⟨[⟨s, String.ofList v⟩], none⟩ else none

/-- Reads one argument. -/
def readArgument (known : List Switch) (arg : String) : Option Reading :=
  match arg.toList with
  | '-' :: '-' :: word => readWord known word
  | '-' :: c :: cs => readLetters known (c :: cs)
  | _ => none

/-- Reads all arguments. -/
def readArguments (known : List Switch) : List String → Option (List Use)
  | [] => some []
  | arg :: rest =>
    if arg = "--" then
      if rest.isEmpty then some [] else none
    else
      match readArgument known arg with
      | none => none
      | some ⟨uses, none⟩ => (readArguments known rest).map (uses ++ ·)
      | some ⟨uses, some s⟩ =>
        match rest with
        | [] => none
        | value :: rest =>
          if value.toList.head? = some '-' then none
          else (readArguments known rest).map (uses ++ ⟨s, value⟩ :: ·)

/-- **Reads arguments as uses of options**, each used at most once. -/
def options? (known : List Switch) (args : List String) :
    Option (List Use) :=
  (readArguments known args).filter fun uses =>
    (uses.map Use.switch).Nodup

/-- The value an option was given. -/
def valueOf? (uses : List Use) (s : Switch) : Option String :=
  (uses.find? (·.switch == s)).map Use.value

/-- The value of an option as `read` takes it, or its default where the
option was not used; nothing where the value cannot be taken. -/
def readOr {α : Type} (uses : List Use) (s : Switch) (default : α)
    (read : String → Option α) : Option α :=
  match valueOf? uses s with
  | none => some default
  | some value => read value

end TermGraph.CommandLine
