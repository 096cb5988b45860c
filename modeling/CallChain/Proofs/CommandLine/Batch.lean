import CallChain.CommandLine.Run
import CallChain.Proofs.Analysis
import CallChain.Proofs.Automaton.Exports
import CallChain.Proofs.CommandLine.Arguments

/-!
# Commands agree

A file passes a check exactly if its definition can be read and has a valid analysis, and that is
what a dump needs as well: what is compiled then does not fail, and what is dumped does not either.
A batch goes on behind a file that fails, and ends only where a list of actions is broken, so it
reports what the checks of its files report one by one.

* `Input.passed_iff`, `Input.dump_exit_iff`: what becomes of one file.
* `Batch.check_exit_iff`, `Batch.check_stderr`: what becomes of a batch.
* `commands_agree`: the commands as they are run.
-/

namespace CallChain

/-! ### One file -/

namespace Input

variable {s : Display} {strict json raw : Bool} {i : Input} {d d' : Definition}
  {texts texts' : ReadTexts}

variable (i) in
/-- The file has a definition, whose texts have been read. -/
def Reads (d : Definition) (texts : ReadTexts) : Prop :=
  ∃ g, i.definition = .ok d ∧ d.texts (some i.origin) = .ok g ∧ g.read = .ok texts

variable (i) in
/-- The texts of the file have no errors. -/
def IsValid : Prop := ∃ d texts, i.Reads d texts ∧ texts.analyze.isValid = true

variable (i) in
/-- A definition in the file is never used. -/
def HasUnused : Prop := ∃ d texts, i.Reads d texts ∧ texts.analyze.unused ≠ []

variable (i) in
/-- Two actions of the file cannot be told apart. -/
def isBroken : Bool :=
  match i.definition with
  | .error _ => false
  | .ok d => !d.table.isOk

theorem Reads.unique (h : i.Reads d texts) (h' : i.Reads d' texts') : texts' = texts := by
  obtain ⟨g, hd, hg, htexts⟩ := h
  obtain ⟨g', hd', hg', htexts'⟩ := h'
  rw [hd] at hd'
  cases hd'
  rw [hg] at hg'
  cases hg'
  rw [htexts] at htexts'
  cases htexts'
  rfl

/-- What is read for one command is read for all. -/
theorem readTexts_eq_ok_iff : i.readTexts = .ok texts ↔ ∃ d, i.Reads d texts := by
  constructor
  · intro h
    obtain ⟨d, hd, h⟩ := bind_eq_ok.1 h
    obtain ⟨g, hg, h⟩ := bind_eq_ok.1 h
    exact ⟨d, g, mapError_eq_ok.1 hd, mapError_eq_ok.1 hg, mapError_eq_ok.1 h⟩
  · rintro ⟨d, g, hd, hg, h⟩
    exact bind_eq_ok.2 ⟨d, mapError_eq_ok.2 hd, bind_eq_ok.2 ⟨g, mapError_eq_ok.2 hg,
      mapError_eq_ok.2 h⟩⟩

/-! ### One check -/

theorem checkOne_eq (h : i.Reads d texts) :
    i.checkOne s strict = i.checkTexts s strict d texts := by
  obtain ⟨g, hd, hg, htexts⟩ := h
  simp only [checkOne, hd, hg, htexts]

theorem reads_of_passed (h : (i.checkOne s strict).1 = .passed) : ∃ d texts, i.Reads d texts := by
  unfold checkOne at h
  split at h
  · cases h
  next d hd =>
    split at h
    · cases h
    next g hg =>
      split at h
      · cases h
      next texts htexts => exact ⟨d, texts, g, hd, hg, htexts⟩

theorem checkTexts_passed_iff (h : i.Reads d texts) :
    (i.checkTexts s strict d texts).1 = .passed ↔
      texts.analyze.isValid = true ∧ (strict = true → texts.analyze.unused = []) := by
  obtain ⟨g, -, -, htexts⟩ := h
  obtain ⟨root, named, hreading⟩ := exists_reading htexts
  rw [checkTexts]
  dsimp only
  cases hvalid : texts.analyze.isValid with
  | false =>
    rw [passes, hvalid]
    simp
  | true =>
    have hwarnings := hreading.hasWarnings_iff hvalid
    obtain ⟨c, hc⟩ := hreading.exists_compile hvalid
    have hpasses : passes strict texts.analyze = true ↔
        (strict = true → texts.analyze.unused = []) := by
      rw [passes, hvalid]
      cases strict with
      | false => simp
      | true =>
        rw [← not_iff_not]
        simpa using hwarnings
    rw [← hpasses]
    cases passes strict texts.analyze with
    | false => simp
    | true => simp [hc]

/-- A file passes a check exactly if it has no errors, and a strict one if all is used. -/
theorem passed_iff : (i.checkOne s strict).1 = .passed ↔
    i.IsValid ∧ (strict = true → ¬ i.HasUnused) := by
  constructor
  · intro hpassed
    obtain ⟨d, texts, h⟩ := reads_of_passed hpassed
    rw [checkOne_eq h, checkTexts_passed_iff h] at hpassed
    refine ⟨⟨d, texts, h, hpassed.1⟩, fun hstrict => ?_⟩
    rintro ⟨d', texts', h', hunused⟩
    rw [h.unique h'] at hunused
    exact hunused (hpassed.2 hstrict)
  · rintro ⟨⟨d, texts, h, hvalid⟩, hused⟩
    rw [checkOne_eq h, checkTexts_passed_iff h]
    refine ⟨hvalid, fun hstrict => ?_⟩
    by_contra hunused
    exact hused hstrict ⟨d, texts, h, hunused⟩

theorem checkTexts_ne_aborted : (i.checkTexts s strict d texts).1 ≠ .aborted := by
  intro h
  unfold checkTexts at h
  dsimp only at h
  split at h
  · cases h
  · split at h <;> cases h

/-- Only a broken list of actions ends a batch. -/
theorem aborted_iff : (i.checkOne s strict).1 = .aborted ↔ i.isBroken = true := by
  unfold checkOne isBroken
  cases i.definition with
  | error message => simp
  | ok d =>
    have htexts : (∃ e, d.texts (some i.origin) = .error e) ↔ d.table.isOk = false := by
      unfold Definition.texts
      cases d.table <;> simp [Except.isOk, Except.toBool]
    dsimp only
    rw [Bool.not_eq_true', ← htexts]
    cases hg : d.texts (some i.origin) with
    | error e => exact iff_of_true rfl ⟨e, rfl⟩
    | ok g =>
      refine iff_of_false (fun h => ?_) fun ⟨_, he⟩ => nomatch he
      dsimp only at h
      split at h
      · cases h
      · exact checkTexts_ne_aborted h

/-! ### Other commands on one file -/

theorem exists_automatonText {A : Automaton} (h : A.WellFormed) :
    ∃ text, automatonText s json A = .ok text := by
  cases json with
  | false => exact Automaton.exists_dump h _
  | true =>
    obtain ⟨e, he⟩ := Automaton.exists_exported h
    exact ⟨_, congrArg (Except.map _) he⟩

/-- A dump succeeds exactly on a file without errors. -/
theorem dump_exit_iff : (i.dump s json).exit = 0 ↔ i.IsValid := by
  constructor
  · intro h
    unfold dump at h
    split at h
    · cases h
    next texts hread =>
      obtain ⟨d, hreads⟩ := readTexts_eq_ok_iff.1 hread
      refine ⟨d, texts, hreads, ?_⟩
      by_contra hinvalid
      rw [Bool.not_eq_true] at hinvalid
      simp [hinvalid, Outcome.failed] at h
  · rintro ⟨d, texts, hreads, hvalid⟩
    have hread := readTexts_eq_ok_iff.2 ⟨d, hreads⟩
    obtain ⟨g, -, -, htexts⟩ := hreads
    obtain ⟨root, named, hreading⟩ := exists_reading htexts
    obtain ⟨c, hc⟩ := hreading.exists_compile hvalid
    -- showing it does not fail, as compiled automata are well formed
    obtain ⟨text, htext⟩ : ∃ text, automatonText s json c.automaton = .ok text :=
      exists_automatonText (Analysis.wellFormed_of_compile hc)
    rw [dump, hread]
    simp [hvalid, hc, htext]

/-- A file without errors has a grammar to show. -/
theorem ast_exit_of_isValid (h : i.IsValid) : (i.ast s raw).exit = 0 := by
  obtain ⟨d, texts, hreads, hvalid⟩ := h
  have hread := readTexts_eq_ok_iff.2 ⟨d, hreads⟩
  obtain ⟨g, -, -, htexts⟩ := hreads
  obtain ⟨root, named, hreading⟩ := exists_reading htexts
  have hclean := hreading.diagnostics_eq_nil (hreading.not_isMisspelled hvalid)
  rw [ast, hread]
  simp [hclean, Diagnostics.hasErrors]

end Input

/-! ### Batches -/

/-- The elements up to the first that passes a test, which is the last one of them. -/
def throughFirst {α : Type} (test : α → Bool) : List α → List α
  | [] => []
  | x :: xs => x :: if test x then [] else throughFirst test xs

theorem throughFirst_map {α β : Type} (test : β → Bool) (f : α → β) (xs : List α) :
    throughFirst test (xs.map f) = (throughFirst (fun x => test (f x)) xs).map f := by
  induction xs with
  | nil => rfl
  | cons x xs ih =>
    rw [List.map_cons, throughFirst, throughFirst, ih, List.map_cons]
    split <;> rfl

theorem throughFirst_subset {α : Type} (test : α → Bool) (xs : List α) :
    throughFirst test xs ⊆ xs := by
  induction xs with
  | nil => exact List.Subset.refl _
  | cons x xs ih =>
    rw [throughFirst]
    split
    · simp
    · exact List.cons_subset_cons x ih

namespace Batch

variable {s : Display} {strict : Bool} {i : Input} {inputs : List Input}

/-- One more file in front of a batch. -/
theorem checkAll_cons : checkAll s strict (i :: inputs) =
    if i.isBroken then (none, (i.checkOne s strict).2)
    else ((checkAll s strict inputs).1.map
        (· + if (i.checkOne s strict).1 = .failed then 1 else 0),
      (i.checkOne s strict).2 ++ (checkAll s strict inputs).2) := by
  have hbroken : (i.checkOne s strict).1 = .aborted ↔ i.isBroken = true := Input.aborted_iff
  rw [checkAll]
  cases hone : i.checkOne s strict with
  | mk verdict stderr =>
  rw [hone] at hbroken
  cases verdict with
  | aborted => rw [if_pos (hbroken.1 rfl)]
  | passed => rw [if_neg fun h => nomatch hbroken.2 h]
  | failed => rw [if_neg fun h => nomatch hbroken.2 h]

/-- No file of a batch fails exactly if each passes. -/
theorem checkAll_passed_iff : (checkAll s strict inputs).1 = some 0 ↔
    ∀ i ∈ inputs, (i.checkOne s strict).1 = .passed := by
  induction inputs with
  | nil => simp [checkAll]
  | cons i inputs ih =>
    have hbroken : (i.checkOne s strict).1 = .aborted ↔ i.isBroken = true := Input.aborted_iff
    rw [checkAll_cons, List.forall_mem_cons, ← ih]
    cases hverdict : (i.checkOne s strict).1 with
    | passed =>
      rw [if_neg fun h => by simp [hbroken.2 h] at hverdict]
      simp
    | failed =>
      rw [if_neg fun h => by simp [hbroken.2 h] at hverdict]
      simp
    | aborted =>
      rw [if_pos (hbroken.1 hverdict)]
      simp

/-- What is reported about the files up to the first that is broken. -/
theorem checkAll_stderr : (checkAll s strict inputs).2 =
    String.join ((throughFirst Input.isBroken inputs).map fun i => (i.checkOne s strict).2) := by
  induction inputs with
  | nil => rfl
  | cons i inputs ih =>
    rw [checkAll_cons, throughFirst]
    split
    · simp
    · simp [ih]

theorem check_exit_iff : (check s strict inputs).exit = 0 ↔
    ∀ i ∈ inputs, (i.checkOne s strict).1 = .passed := by
  rw [← checkAll_passed_iff, check]
  cases hrun : checkAll s strict inputs with
  | mk failed stderr =>
    cases failed with
    | none => simp [Outcome.failed]
    | some failed => simp

theorem check_exit_cases :
    (check s strict inputs).exit = 0 ∨ (check s strict inputs).exit = 1 := by
  unfold check
  split
  · exact .inr rfl
  · dsimp only
    split
    · exact .inl rfl
    · exact .inr rfl

/-- Without more log records a batch reports what is reported about its files. -/
theorem check_stderr (hs : s.verbosity = 0) : (check s strict inputs).stderr =
    String.join ((throughFirst Input.isBroken inputs).map fun i => (i.checkOne s strict).2) := by
  have hquiet : ∀ count failed, s.logText [batchNote count failed] = "" := by
    intro count failed
    simp [Display.logText, Display.shows, hs, batchNote]
  rw [← checkAll_stderr, check]
  cases hrun : checkAll s strict inputs with
  | mk failed stderr =>
    cases failed with
    | none => rfl
    | some failed => simp [hquiet]

end Batch

/-! ### Commands -/

/-- Where commands are run: whether on a terminal, what files hold, and standard input. -/
structure Shell where
  isTerminal : Bool
  read : String → Except ReadFailure String
  stdin : Except ReadFailure String

namespace Shell

variable (sh : Shell)

def run (arguments : List String) : Outcome :=
  Invocation.runArguments arguments sh.isTerminal sh.read sh.stdin

def check (o : OutputOptions) (strict : Bool) (paths : List String) : Outcome :=
  sh.run ("check" :: Signature.line ⟨"--strict", true⟩ o strict paths)

def dump (o : OutputOptions) (json : Bool) (path : String) : Outcome :=
  sh.run ("dump" :: Signature.line ⟨"--json", false⟩ o json [path])

def ast (o : OutputOptions) (raw : Bool) (path : String) : Outcome :=
  sh.run ("ast" :: Signature.line ⟨"--raw", false⟩ o raw [path])

/-- The file at a path. -/
def input (path : String) : Input := ⟨path, sh.read path⟩

def display (o : OutputOptions) : Display :=
  ⟨(o.color.getD .auto).isColored sh.isTerminal, o.verbosity⟩

variable {sh} {o : OutputOptions} {path : String} {paths : List String}

/-- Files are read where standard input is not asked for. -/
theorem ofPaths_eq (hpaths : ∀ path ∈ paths, IsFilePath path)
    (stdin : Except ReadFailure String) :
    Input.ofPaths sh.read stdin paths = paths.map sh.input := by
  induction paths with
  | nil => rfl
  | cons path paths ih =>
    rw [List.forall_mem_cons] at hpaths
    rw [Input.ofPaths, if_neg (Signature.ne_of_isFilePath hpaths.1 rfl), ih hpaths.2]
    rfl

/-- A command line is run on its paths. -/
theorem run_line {name : String} {s : Signature} {command : List String → Bool → Command}
    (hname : commandNamed? name = some (s, command)) (hs : s.Flags) (given : Bool)
    (hnonempty : paths ≠ []) (hpaths : ∀ path ∈ paths, IsFilePath path)
    (hmany : s.takesMany = true ∨ paths.length ≤ 1) :
    sh.run (name :: s.line o given paths) = Invocation.run
      ⟨command paths given, o.color.getD .auto, o.verbosity⟩ sh.isTerminal sh.read sh.stdin := by
  rw [run, Invocation.runArguments, ofArguments_line hname hs o given hnonempty hpaths hmany]

theorem check_eq {strict : Bool} (hnonempty : paths ≠ [])
    (hpaths : ∀ path ∈ paths, IsFilePath path) :
    sh.check o strict paths = Batch.check (sh.display o) strict (paths.map sh.input) := by
  have hcommand : commandNamed? "check" = some (⟨"--strict", true⟩, .check) := rfl
  rw [check, run_line hcommand (by decide) strict hnonempty hpaths (.inl rfl)]
  dsimp only [Invocation.run, Invocation.inputs, Command.paths]
  rw [ofPaths_eq hpaths]
  rfl

theorem dump_eq {json : Bool} (hpath : IsFilePath path) :
    sh.dump o json path = (sh.input path).dump (sh.display o) json := by
  have hpaths : ∀ path' ∈ [path], IsFilePath path' := List.forall_mem_singleton.2 hpath
  have hcommand : commandNamed? "dump" =
      some (⟨"--json", false⟩, fun paths flag => .dump (paths.headD "") flag) := rfl
  rw [dump, run_line hcommand (by decide) json (List.cons_ne_nil _ _) hpaths (.inr (by simp))]
  dsimp only [Invocation.run, Invocation.inputs, Command.paths, List.headD]
  rw [ofPaths_eq hpaths]
  rfl

theorem ast_eq {raw : Bool} (hpath : IsFilePath path) :
    sh.ast o raw path = (sh.input path).ast (sh.display o) raw := by
  have hpaths : ∀ path' ∈ [path], IsFilePath path' := List.forall_mem_singleton.2 hpath
  have hcommand : commandNamed? "ast" =
      some (⟨"--raw", false⟩, fun paths flag => .ast (paths.headD "") flag) := rfl
  rw [ast, run_line hcommand (by decide) raw (List.cons_ne_nil _ _) hpaths (.inr (by simp))]
  dsimp only [Invocation.run, Invocation.inputs, Command.paths, List.headD]
  rw [ofPaths_eq hpaths]
  rfl

theorem check_exit_iff {strict : Bool} (hnonempty : paths ≠ [])
    (hpaths : ∀ path ∈ paths, IsFilePath path) : (sh.check o strict paths).exit = 0 ↔
      ∀ path ∈ paths, (sh.input path).IsValid ∧ (strict = true → ¬ (sh.input path).HasUnused) := by
  rw [check_eq hnonempty hpaths, Batch.check_exit_iff, List.forall_mem_map]
  exact forall₂_congr fun _ _ => Input.passed_iff

theorem dump_exit_iff {json : Bool} (hpath : IsFilePath path) :
    (sh.dump o json path).exit = 0 ↔ (sh.input path).IsValid := by
  rw [dump_eq hpath, Input.dump_exit_iff]

end Shell

/-- The commands agree, however output is asked for. A dump succeeds exactly on a file without
errors. A check succeeds exactly if a dump of each file does, a strict one exactly if moreover all
definitions of the files are used, and every other one fails. What passes a check has a grammar to
show. Without more log records a check reports, file by file, what a check of the file alone does,
up to the first file whose list of actions is broken. -/
theorem commands_agree {sh : Shell} {paths : List String} (hnonempty : paths ≠ [])
    (hpaths : ∀ path ∈ paths, IsFilePath path) :
    (∀ o json, ∀ path ∈ paths, (sh.dump o json path).exit = 0 ↔ (sh.input path).IsValid) ∧
    (∀ o o' json, (sh.check o false paths).exit = 0 ↔
      ∀ path ∈ paths, (sh.dump o' json path).exit = 0) ∧
    (∀ o o' json, (sh.check o true paths).exit = 0 ↔
      (∀ path ∈ paths, (sh.dump o' json path).exit = 0) ∧
        ∀ path ∈ paths, ¬ (sh.input path).HasUnused) ∧
    (∀ o strict, (sh.check o strict paths).exit = 0 ∨ (sh.check o strict paths).exit = 1) ∧
    (∀ o o' strict raw, ∀ path ∈ paths, (sh.check o strict [path]).exit = 0 →
      (sh.ast o' raw path).exit = 0) ∧
    ∀ o strict, o.verbosity = 0 → (sh.check o strict paths).stderr =
      String.join ((throughFirst (fun path => (sh.input path).isBroken) paths).map
        fun path => (sh.check o strict [path]).stderr) := by
  have hfile : ∀ o json, ∀ path ∈ paths,
      (sh.dump o json path).exit = 0 ↔ (sh.input path).IsValid := fun o json path hpath =>
    Shell.dump_exit_iff (hpaths path hpath)
  have hdump : ∀ o json, (∀ path ∈ paths, (sh.dump o json path).exit = 0) ↔
      ∀ path ∈ paths, (sh.input path).IsValid := fun o json => forall₂_congr (hfile o json)
  refine ⟨hfile, fun o o' json => ?_, fun o o' json => ?_, fun o strict => ?_, ?_, ?_⟩
  · rw [Shell.check_exit_iff hnonempty hpaths, hdump]
    simp
  · rw [Shell.check_exit_iff hnonempty hpaths, hdump, ← forall₂_and]
    simp
  · rw [Shell.check_eq hnonempty hpaths]
    exact Batch.check_exit_cases
  · intro o o' strict raw path hpath hpassed
    have hone : ∀ path' ∈ [path], IsFilePath path' :=
      List.forall_mem_singleton.2 (hpaths path hpath)
    rw [Shell.check_exit_iff (List.cons_ne_nil _ _) hone, List.forall_mem_singleton] at hpassed
    rw [Shell.ast_eq (hpaths path hpath)]
    exact Input.ast_exit_of_isValid hpassed.1
  · intro o strict hquiet
    -- a batch of one file reports what is reported about the file
    have hsingle : ∀ path ∈ throughFirst (fun path => (sh.input path).isBroken) paths,
        (sh.check o strict [path]).stderr =
          ((sh.input path).checkOne (sh.display o) strict).2 := by
      intro path hpath
      have hone : ∀ path' ∈ [path], IsFilePath path' :=
        List.forall_mem_singleton.2 (hpaths path (throughFirst_subset _ paths hpath))
      rw [Shell.check_eq (List.cons_ne_nil _ _) hone, Batch.check_stderr hquiet]
      simp [throughFirst]
    rw [Shell.check_eq hnonempty hpaths, Batch.check_stderr hquiet, throughFirst_map, List.map_map,
      List.map_congr_left hsingle]
    rfl

/-- A file with the grammar `x` and one that declares `x` twice. -/
def sumFiles : Shell where
  isTerminal := false
  read path :=
    if path = "once.json" then
      .ok "\x7b\"syntax\": \"x\", \"actions\": [\x7b\"name\": \"x\"\x7d]\x7d"
    else if path = "twice.json" then
      .ok ("\x7b\"syntax\": \"x\", \"actions\": " ++
        "[\x7b\"name\": \"x\"\x7d, \x7b\"name\": \"x\"\x7d]\x7d")
    else
      .error .missing
  stdin := .ok ""

theorem commands_agree_sumFiles : (sumFiles.ast ⟨none, 0⟩ false "once.json").exit = 0 ∧
    (sumFiles.check ⟨none, 0⟩ false ["once.json", "none.json", "twice.json", "lost.json"]).stderr =
      String.join [(sumFiles.check ⟨none, 0⟩ false ["once.json"]).stderr,
        (sumFiles.check ⟨none, 0⟩ false ["none.json"]).stderr,
        (sumFiles.check ⟨none, 0⟩ false ["twice.json"]).stderr] := by
  have hpaths : ∀ path ∈ ["once.json", "none.json", "twice.json", "lost.json"],
      IsFilePath path := by decide
  obtain ⟨-, -, -, -, hast, hstderr⟩ := @commands_agree sumFiles _ (by decide) hpaths
  have hpassed : (sumFiles.check ⟨none, 0⟩ false ["once.json"]).exit = 0 := by decide +kernel
  have hbroken : throughFirst (fun path => (sumFiles.input path).isBroken)
      ["once.json", "none.json", "twice.json", "lost.json"] =
        ["once.json", "none.json", "twice.json"] := by decide +kernel
  refine ⟨hast _ _ _ _ _ List.mem_cons_self hpassed, ?_⟩
  rw [hstderr _ _ rfl, hbroken]
  rfl

end CallChain
