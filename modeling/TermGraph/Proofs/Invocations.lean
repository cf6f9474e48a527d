import TermGraph.CommandLine.Run
import TermGraph.Proofs.DecimalText

/-!
# Command lines for options

An invocation is read from arguments. Here it is written as arguments, with
every option in its short form, and reading gives it back. What is said of a
run with certain options is then said of a command line that asks for them.

Numbers are read back for as long as they have 64 bits
(`word64?_toString`). A probability is written as any text that is read as
it, and it stands in one argument with its letter, since a value that begins
with a hyphen is not found in the argument that follows.
-/

namespace TermGraph.CommandLine

/-! ## Numbers -/

/-- What a number begins with is a digit. -/
theorem isDigit_of_head?_toString {n : Nat} {c : Char}
    (h : (toString n).toList.head? = some c) : c.isDigit = true := by
  rw [Nat.toString_eq_repr, Nat.toList_repr] at h
  exact Decimal.isDigit_of_mem_toDigits (List.mem_of_head? h)

/-- A number is not taken for an option. -/
theorem head?_toString_ne (n : Nat) :
    (toString n).toList.head? ≠ some '-' := fun h =>
  absurd (isDigit_of_head?_toString h) (by decide)

/-- **A number of 64 bits is read as it is written.** -/
theorem word64?_toString {n : Nat} (h : n < UInt64.size) :
    word64? (toString n) = some n := by
  have read : Decimal.natural? (toString n).toList = some n := by
    rw [Nat.toString_eq_repr, Nat.toList_repr]
    exact Decimal.natural?_toDigits n
  unfold word64?
  split
  · next digits =>
    -- There is no sign in front.
    exact absurd (isDigit_of_head?_toString (by rw [digits]; rfl)) (by decide)
  · dsimp only
    rw [read]
    exact Option.filter_some_pos (decide_eq_true h)

/-! ## Arguments -/

section

variable {known : List Switch} {arg value : String} {rest : List String}
  {s : Switch} {uses : List Use}

/-- An argument that says all there is to say. -/
theorem readArguments_of_whole (more : arg ≠ "--")
    (read : readArgument known arg = some ⟨uses, none⟩) :
    readArguments known (arg :: rest)
      = (readArguments known rest).map (uses ++ ·) := by
  rw [readArguments, if_neg more, read]

/-- An option that finds its value in the argument that follows. -/
theorem readArguments_of_value (more : arg ≠ "--")
    (read : readArgument known arg = some ⟨[], some s⟩)
    (free : value.toList.head? ≠ some '-') :
    readArguments known (arg :: value :: rest)
      = (readArguments known rest).map (⟨s, value⟩ :: ·) := by
  rw [readArguments, if_neg more, read]
  exact if_neg free

/-- **Arguments that were read are options**, if none is used twice. -/
theorem options?_of_readArguments {args : List String}
    (read : readArguments known args = some uses)
    (once : (uses.map Use.switch).Nodup) : options? known args = some uses := by
  rw [options?, read]
  exact Option.filter_some_pos (decide_eq_true once)

end

/-- **A run whose request is read** prints the lines of the request, if it
has any. -/
theorem run_of_lines {args lines : List String} {invocation : Invocation}
    (read : Invocation.ofArguments? args = some invocation)
    (h : invocation.lines = some (.ok lines)) : run args = ⟨0, lines⟩ := by
  rw [run, read]
  dsimp only
  rw [h]

/-! ## The two commands -/

/-- **A command line for `chain`.** -/
def ChainOptions.arguments (o : ChainOptions) : List String :=
  ["chain", "-d", toString o.depth] ++ if o.shared then ["--shared"] else []

/-- The options of `chain` are read back. -/
theorem ChainOptions.ofArguments?_arguments (o : ChainOptions)
    (h : o.depth < UInt64.size) :
    Invocation.ofArguments? o.arguments = some (.chain o) := by
  obtain ⟨depth, shared⟩ := o
  have options : options? [depthSwitch, sharedSwitch]
        ("-d" :: toString depth :: if shared then ["--shared"] else [])
      = some (⟨depthSwitch, toString depth⟩
          :: if shared then [⟨sharedSwitch, ""⟩] else []) := by
    refine options?_of_readArguments ?_ ?_
    · rw [readArguments_of_value (by decide) rfl (head?_toString_ne depth)]
      cases shared <;> rfl
    · cases shared with
      | false => exact show [depthSwitch].Nodup by decide
      | true => exact show [depthSwitch, sharedSwitch].Nodup by decide
  show ((options? [depthSwitch, sharedSwitch]
    ("-d" :: toString depth :: if shared then ["--shared"] else [])).bind
      _).map Invocation.chain = _
  rw [options]
  show ((word64? (toString depth)).bind _).map Invocation.chain = _
  rw [word64?_toString h]
  cases shared <;> rfl

/-- **A command line for `sort`**, with a text for the probability. -/
def SortOptions.arguments (o : SortOptions) (reuse : String) : List String :=
  ["sort", "-c", toString o.count, "-d", toString o.depth,
    "-s", toString o.seed.toNat, "-r=" ++ reuse]

/-- The options that `sort` has. -/
def sortSwitches : List Switch :=
  [countSwitch, depthSwitch, seedSwitch, reuseSwitch]

/-- A probability is read behind its letter. -/
theorem readArgument_reuse (value : String) :
    readArgument sortSwitches ("-r=" ++ value)
      = some ⟨[⟨reuseSwitch, value⟩], none⟩ := by
  rw [readArgument, String.toList_append]
  show some (⟨[⟨reuseSwitch, String.ofList value.toList⟩], none⟩ : Reading) = _
  rw [String.ofList_toList]

/-- The options of `sort` are read back. -/
theorem SortOptions.ofArguments?_arguments (o : SortOptions) {reuse : String}
    (hcount : o.count < UInt64.size) (hdepth : o.depth < UInt64.size)
    (hreuse : Binary.ofText? .double reuse = some o.reuse) :
    Invocation.ofArguments? (o.arguments reuse) = some (.sort o) := by
  have options : options? sortSwitches
        ["-c", toString o.count, "-d", toString o.depth,
          "-s", toString o.seed.toNat, "-r=" ++ reuse]
      = some [⟨countSwitch, toString o.count⟩, ⟨depthSwitch, toString o.depth⟩,
          ⟨seedSwitch, toString o.seed.toNat⟩, ⟨reuseSwitch, reuse⟩] := by
    refine options?_of_readArguments ?_ (show sortSwitches.Nodup by decide)
    have more : "-r=" ++ reuse ≠ "--" := fun h => by
      have letters := congrArg String.toList h
      rw [String.toList_append] at letters
      cases letters
    rw [readArguments_of_value (by decide) rfl (head?_toString_ne o.count),
      readArguments_of_value (by decide) rfl (head?_toString_ne o.depth),
      readArguments_of_value (by decide) rfl (head?_toString_ne o.seed.toNat),
      readArguments_of_whole more (readArgument_reuse reuse)]
    rfl
  show ((options? sortSwitches _).bind _).map Invocation.sort = _
  rw [options]
  show ((word64? (toString o.count)).bind fun count =>
    (word64? (toString o.depth)).bind fun depth =>
    ((word64? (toString o.seed.toNat)).map UInt64.ofNat).bind fun seed =>
    (Binary.ofText? .double reuse).bind fun reuse =>
    some (SortOptions.mk count depth seed reuse)).map Invocation.sort = _
  rw [word64?_toString hcount, word64?_toString hdepth,
    word64?_toString o.seed.toNat_lt, hreuse]
  show some (Invocation.sort ⟨_, _, UInt64.ofNat o.seed.toNat, _⟩) = _
  rw [UInt64.ofNat_toNat]

end TermGraph.CommandLine
