import CallChain.CommandLine.Arguments

/-!
# Command lines

A command line has a command, options about output, the flag of the command or not, and definitions.
Reading it gives back what it was made of (`ofArguments_line`): options take nothing for a
definition, and a path that does not begin with a hyphen is never taken for an option.
-/

namespace CallChain

/-- A path that is not taken for an option. -/
def IsFilePath (path : String) : Prop := path ≠ "" ∧ path.toList.head? ≠ some '-'

instance (path : String) : Decidable (IsFilePath path) := by
  unfold IsFilePath
  infer_instance

def ColorChoice.text : ColorChoice → String
  | auto => "auto"
  | always => "always"
  | never => "never"

/-- How output is asked for. -/
structure OutputOptions where
  color : Option ColorChoice
  verbosity : Nat
deriving DecidableEq, Repr

namespace OutputOptions

variable (o : OutputOptions)

def colorArguments : List String :=
  match o.color with
  | none => []
  | some color => ["--color", color.text]

def arguments : List String := o.colorArguments ++ List.replicate o.verbosity "-v"

end OutputOptions

/-- The arguments behind a command, with its flag or without. -/
def Signature.line (s : Signature) (o : OutputOptions) (given : Bool) (paths : List String) :
    List String :=
  o.arguments ++ ((if given then [s.flag] else []) ++ paths)

/-! ### Reading options -/

theorem ColorChoice.ofText?_text (c : ColorChoice) : ofText? c.text = some c := by
  cases c <;> decide

namespace Signature

variable {s : Signature} {a a' : Arguments} {argument : String} {rest : List String}

/-- The flag is one of those that commands have. -/
def Flags (s : Signature) : Prop := s.flag ∈ ["--raw", "--strict", "--json"]

instance : Decidable s.Flags := by
  unfold Flags
  infer_instance

/-- One argument that is read on its own. -/
theorem collect_cons (hrest : argument ≠ "--") (hcolor : argument ≠ "--color")
    (h : (if isFlag argument then s.addFlag a argument else s.addPath a argument) = .ok a') :
    s.collect a (argument :: rest) = s.collect a' rest := by
  rw [collect.eq_def]
  simp only [hrest, hcolor, if_false, h]

theorem collect_color (hnone : a.color = none) (c : ColorChoice) :
    s.collect a ("--color" :: c.text :: rest) = s.collect { a with color := some c } rest := by
  rw [collect, if_neg (by decide), if_pos rfl]
  simp only [Arguments.setColor, hnone, ColorChoice.ofText?_text]

theorem collect_verbose (hs : s.Flags) :
    s.collect a ("-v" :: rest) = s.collect { a with verbosity := a.verbosity + 1 } rest := by
  have hflag : "-v" ≠ s.flag := by
    intro heq
    rw [Flags, ← heq] at hs
    revert hs
    decide
  apply collect_cons (by decide) (by decide)
  rw [if_pos (by decide), addFlag, if_neg (by decide), if_neg (by decide), if_neg hflag]
  rfl

theorem collect_verbosity (hs : s.Flags) (n : Nat) :
    s.collect a (List.replicate n "-v" ++ rest) =
      s.collect { a with verbosity := a.verbosity + n } rest := by
  induction n generalizing a with
  | zero => rfl
  | succ n ih =>
    rw [List.replicate_succ, List.cons_append, collect_verbose hs, ih]
    show s.collect { a with verbosity := a.verbosity + 1 + n } rest = _
    rw [Nat.add_assoc, Nat.add_comm 1 n]

theorem collect_flag (hs : s.Flags) (hnot : a.flag = false) :
    s.collect a (s.flag :: rest) = s.collect { a with flag := true } rest := by
  have hadd : isFlag s.flag = true → s.flag ≠ "--verbose" → s.flag ≠ "--help" →
      (if isFlag s.flag then s.addFlag a s.flag else s.addPath a s.flag) =
        .ok { a with flag := true } := by
    intro hisFlag hverbose hhelp
    rw [if_pos hisFlag, addFlag, if_neg hverbose, if_neg hhelp, if_pos rfl, hnot]
    rfl
  simp only [Flags, List.mem_cons, List.not_mem_nil, or_false] at hs
  rcases hs with hs | hs | hs <;> rw [hs] at hadd ⊢ <;>
    exact collect_cons (by decide) (by decide) (hadd (by decide) (by decide) (by decide))

/-- Options and flags are read off. -/
theorem collect_options (hs : s.Flags) (o : OutputOptions) (given : Bool) (paths : List String) :
    s.collect ⟨[], false, none, 0⟩ (s.line o given paths) =
      s.collect ⟨[], given, o.color, o.verbosity⟩ paths := by
  have hcolor : s.collect ⟨[], false, none, 0⟩ (s.line o given paths) =
      s.collect ⟨[], false, o.color, 0⟩
        (List.replicate o.verbosity "-v" ++ ((if given then [s.flag] else []) ++ paths)) := by
    rw [line, OutputOptions.arguments, List.append_assoc, OutputOptions.colorArguments]
    cases o.color with
    | none => rfl
    | some c => exact collect_color rfl c
  rw [hcolor, collect_verbosity hs, Nat.zero_add]
  cases given with
  | false => rfl
  | true => exact collect_flag hs rfl

/-! ### Reading paths -/

theorem not_isFlag_of_isFilePath {path : String} (h : IsFilePath path) : isFlag path = false := by
  rw [isFlag, decide_eq_false h.2]
  rfl

theorem ne_of_isFilePath {path : String} (h : IsFilePath path)
    (hhyphen : argument.toList.head? = some '-') : path ≠ argument := by
  rintro rfl
  exact h.2 hhyphen

theorem collect_paths {paths : List String} (hpaths : ∀ path ∈ paths, IsFilePath path)
    (hmany : s.takesMany = true ∨ a.paths.length + paths.length ≤ 1) :
    s.collect a paths = .ok { a with paths := a.paths ++ paths } := by
  induction paths generalizing a with
  | nil =>
    rw [List.append_nil]
    rfl
  | cons path paths ih =>
    rw [List.forall_mem_cons] at hpaths
    have hadd : (if isFlag path then s.addFlag a path else s.addPath a path) =
        .ok { a with paths := a.paths ++ [path] } := by
      have hroom : (!s.takesMany && !a.paths.isEmpty) = false := by
        rcases hmany with hmany | hlength
        · rw [hmany]
          rfl
        · have hempty : a.paths = [] := by
            rw [List.length_cons] at hlength
            exact List.eq_nil_of_length_eq_zero (by omega)
          rw [hempty, Bool.and_comm]
          rfl
      rw [not_isFlag_of_isFilePath hpaths.1, addPath, hroom, decide_eq_false hpaths.1.1]
      rfl
    rw [collect_cons (ne_of_isFilePath hpaths.1 rfl) (ne_of_isFilePath hpaths.1 rfl) hadd,
      ih hpaths.2 ?_]
    · rw [List.append_assoc]
      rfl
    · refine hmany.imp_right fun hlength => ?_
      simp only [List.length_append, List.length_cons, List.length_nil] at hlength ⊢
      omega

end Signature

/-! ### Command lines -/

/-- A command line is read as what it was made of. -/
theorem ofArguments_line {name : String} {s : Signature}
    {command : List String → Bool → Command} (hname : commandNamed? name = some (s, command))
    (hs : s.Flags) (o : OutputOptions) (given : Bool) {paths : List String} (hnonempty : paths ≠ [])
    (hpaths : ∀ path ∈ paths, IsFilePath path) (hmany : s.takesMany = true ∨ paths.length ≤ 1) :
    Invocation.ofArguments (name :: s.line o given paths) =
      .ok ⟨command paths given, o.color.getD .auto, o.verbosity⟩ := by
  have hcollect : s.collect ⟨[], false, none, 0⟩ (s.line o given paths) =
      .ok ⟨paths, given, o.color, o.verbosity⟩ := by
    rw [Signature.collect_options hs]
    exact Signature.collect_paths hpaths (hmany.imp_right fun h => by simpa using h)
  rw [Invocation.ofArguments, Invocation.ofArgumentsFrom, hname]
  dsimp only
  rw [hcollect]
  have hsome : paths.isEmpty = false := by rwa [List.isEmpty_eq_false_iff]
  have hverbosity : (if o.verbosity = 0 then 0 else o.verbosity) = o.verbosity :=
    ite_eq_right_iff.2 Eq.symm
  simp only [bind, Except.bind, hsome, Bool.false_eq_true, if_false, hverbosity]
  rfl

end CallChain
