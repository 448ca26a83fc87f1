import Outline.Proofs.BatchReports
import Outline.Proofs.JsonLines
import Outline.Proofs.WalkedFiles
import Outline.Proofs.WorkingDirectory

/-!
# Runs of commands

What `extract` and `scan` print and how they end, given that the configuration and the patterns
load. `extract` takes its paths in order, a directory for the source files below it; only
a directory under the path `-` is passed over, since a walk takes that path for the standard input.
Each file that is not too large is told once (`Extracts`). `scan` sums up what `extract` tells
(`SumsUp`).
-/

namespace Outline

/-! ## Outcomes -/

instance (w : Workshop) (config : Config) (path : String) : Decidable (w.TooLarge config path) :=
  match h : w.files.size path with
  | .error _ => .isFalse (by simp [Workshop.TooLarge, h])
  | .ok size =>
    decidable_of_iff (min (1024 * config.maxFileSizeKb) (Nat.pow 2 64 - 1) < size)
      (by simp [Workshop.TooLarge, h])

/-- Whether a file is neither too large nor extracted: it cannot be read, or its language is not
    known. -/
def Workshop.Fails (w : Workshop) (config : Config) (path : String) : Prop :=
  ¬ w.TooLarge config path ∧ (w.Unreadable path ∨ (Grammar.ofPath path).isKnown = false)

theorem Workshop.outcome_cases (w : Workshop) (limit : Nat) (path : String) :
    w.outcome limit path = .skipped path ∨ (∃ error, w.outcome limit path = .failed ⟨path, error⟩) ∨
      ∃ r, w.outcome limit path = .extracted r := by
  unfold outcome Session.extractPath
  split
  · exact .inr (.inl ⟨_, rfl⟩)
  · split_ifs
    · exact .inl rfl
    · split
      · exact .inr (.inl ⟨_, rfl⟩)
      · simp only
        split
        · exact .inr (.inr ⟨_, rfl⟩)
        · exact .inr (.inl ⟨_, rfl⟩)

section Outcomes

variable {w : Workshop} (hw : w.frontend.IsTotal) (config : Config)

include hw

theorem Workshop.skipped?_outcome (path : String) :
    ((w.outcome config.maxFileSize path).skipped?).isSome = decide (w.TooLarge config path) := by
  have hfits := fits_outcome hw config path
  rw [Bool.eq_iff_iff, decide_eq_true_iff, ← hfits.skipped_iff]
  rcases outcome_cases w config.maxFileSize path with h | ⟨e, h⟩ | ⟨r, h⟩ <;>
    simp [h, Outcome.skipped?]

theorem Workshop.failure?_outcome (path : String) :
    ((w.outcome config.maxFileSize path).failure?).isSome = true ↔ w.Fails config path := by
  have hfits := fits_outcome hw config path
  rw [Fails, ← hfits.failed_iff]
  rcases outcome_cases w config.maxFileSize path with h | ⟨e, h⟩ | ⟨r, h⟩ <;>
    simp [h, Outcome.failure?]

end Outcomes

/-- Every outcome is in one of the three lists of a report. -/
theorem Outcome.length_eq (outcomes : List Outcome) :
    (outcomes.filterMap record?).length + (outcomes.filterMap failure?).length +
      (outcomes.filterMap skipped?).length = outcomes.length := by
  induction outcomes with
  | nil => rfl
  | cons o outcomes ih =>
    cases o <;>
      simp only [List.filterMap_cons, record?, failure?, skipped?, List.length_cons] <;> omega

namespace Command

/-! ## Files -/

/-- What a command works with under some settings. -/
def World.workshop (w : World) (c : Config) : Workshop :=
  ⟨w.frontend, w.files, c.priority⟩

/-- The files that a path stands for: for a directory the source files below it, in the order of
    their paths, and otherwise the path itself. -/
def World.filesOf (w : World) (exclusions : List IgnoreRule) (path : String) : List String :=
  if w.files.isDirectory path then Walk.sourcesBelow w.files w.home exclusions path else [path]

/-- Whether a path is that of a directory, and a walk takes it for the standard input. -/
def World.passesOver (w : World) (path : String) : Bool :=
  w.files.isDirectory path && Walk.isDash path

variable {w : World} {c : Config} {exclusions : List IgnoreRule}

theorem expandAll_eq (h : Walk.exclusions? (Walk.exclusionLines c.patterns) = some exclusions)
    (paths : List String) :
    expandAll w c paths = .ok (paths.flatMap fun path =>
      if w.passesOver path then [] else w.filesOf exclusions path) := by
  have hexpand : ∀ path, expand w c path =
      .ok (if w.passesOver path then [] else w.filesOf exclusions path) := by
    intro path
    rw [expand, walk, Walk.sources?_eq h, World.passesOver, World.filesOf]
    cases w.files.isDirectory path <;> cases Walk.isDash path <;> rfl
  induction paths with
  | nil => rfl
  | cons path paths ih =>
    rw [expandAll, hexpand, ih]
    rfl

/-- To leave out some paths changes nothing just if they stand for nothing. -/
theorem flatMap_ite_eq_iff {α β : Type} (q : α → Bool) (f : α → List β) (xs : List α) :
    (xs.flatMap fun x => if q x then [] else f x) = xs.flatMap f ↔
      ∀ x ∈ xs, q x = true → f x = [] := by
  -- The left side is never longer, so equal lengths leave no room for what is left out.
  have hle : ∀ ys : List α, (ys.flatMap fun x => if q x then [] else f x).length ≤
      (ys.flatMap f).length := by
    intro ys
    induction ys with
    | nil => exact Nat.le_refl _
    | cons y ys ih =>
      simp only [List.flatMap_cons, List.length_append]
      split_ifs
      · simp only [List.length_nil]
        omega
      · omega
  induction xs with
  | nil => simp
  | cons x xs ih =>
    simp only [List.forall_mem_cons, List.flatMap_cons]
    cases hq : q x with
    | false => simpa using ih
    | true =>
      have hshort := hle xs
      constructor
      · intro heq
        have hlength := congrArg List.length heq
        simp only [if_true, List.nil_append, List.length_append] at hlength
        have hnil : f x = [] := List.eq_nil_of_length_eq_zero (by omega)
        rw [hnil] at heq
        exact ⟨fun _ => hnil, ih.1 heq⟩
      · rintro ⟨hnil, hrest⟩
        rw [hnil rfl]
        exact ih.2 hrest

/-! ## Reports -/

/-- The report on some files by a new session. -/
def World.reportOf (w : World) (c : Config) (files : List String) : Report :=
  extractFiles w c (.new (poolSize w c)) files

/-- The lists of a report have what becomes of the files, in order. -/
theorem lists_reportOf (w : World) (c : Config) (files : List String) :
    (w.reportOf c files).results =
        (files.map ((w.workshop c).outcome c.maxFileSize)).filterMap Outcome.record? ∧
      (w.reportOf c files).failures =
        (files.map ((w.workshop c).outcome c.maxFileSize)).filterMap Outcome.failure? := by
  have hopen : (Session.new (poolSize w c)).IsOpen (poolSize w c) := ⟨.new, rfl, rfl⟩
  have hreport := Session.reports_extractPaths hopen (w.workshop c) c files
  exact ⟨(hreport.eq hopen).1, (hreport.eq hopen).2.1⟩

theorem stats_reportOf (w : World) (c : Config) (files : List String) :
    let report := w.reportOf c files
    report.stats.files = report.results.length ∧
      report.stats.symbols = (report.results.map (·.symbols.length)).foldr (· + ·) 0 ∧
      report.stats.imports = (report.results.map (·.imports.length)).foldr (· + ·) 0 ∧
      report.stats.exports = (report.results.map (·.exports.length)).foldr (· + ·) 0 ∧
      report.stats.failures = report.failures.length :=
  ⟨rfl, List.foldr_map.symm, List.foldr_map.symm, List.foldr_map.symm, rfl⟩

/-! ## `extract` -/

/-- What `extract` does with some paths, which stand for the given files. -/
structure Extracts (w : World) (c : Config) (paths files : List String)
    (outcomes : List Outcome) : Prop where
  /-- Every file has the outcome that it calls for. -/
  fits : List.Forall₂ (Outcome.Fits (w.workshop c) c) files outcomes
  /-- JSON output has a line for each record and then one for each failure. -/
  out : ∀ json exportedOnly elapsed, formatFor json c = .json →
    (run w elapsed ⟨.extract paths exportedOnly, json⟩).out =
      (((outcomes.filterMap Outcome.record?).map fun r =>
          (if exportedOnly then r.exportedOnly else r).toJson) ++
        (outcomes.filterMap Outcome.failure?).map Failure.toJson).map Json.line
  /-- So it has a line for each file that is not too large. -/
  lines : ∀ json exportedOnly elapsed, formatFor json c = .json →
    (String.join (run w elapsed ⟨.extract paths exportedOnly, json⟩).out).toList.count '\n' =
      files.length - files.countP fun path => (w.workshop c).TooLarge c path
  exitCode : ∀ json exportedOnly elapsed,
    let code := (run w elapsed ⟨.extract paths exportedOnly, json⟩).exitCode
    (code = 1 ↔ ∃ path ∈ files, (w.workshop c).Fails c path) ∧
      (code = 0 ↔ ∀ path ∈ files, ¬ (w.workshop c).Fails c path)

/-- What the commands ask of the world and the configuration before they look for files: the working
    directory is there, its configuration is the given one, and a session can be set up. -/
structure World.IsReady (w : World) (c : Config) : Prop where
  config : ∃ here, w.files.currentDirectory = .ok here ∧ loadConfig w here = .ok c
  setsUp : w.machine.setsUp (poolSize w c) = true

theorem World.IsReady.openSession_eq (h : w.IsReady c) :
    openSession w c = .ok (.new (poolSize w c)) :=
  if_pos h.setsUp

theorem perform_extract (h : w.IsReady c)
    {paths files : List String} (hfiles : expandAll w c paths = .ok files)
    (json exportedOnly : Bool) :
    perform w ⟨.extract paths exportedOnly, json⟩ =
      .ok ⟨none, exportedOnly, formatFor json c, w.reportOf c files⟩ := by
  show extract w json exportedOnly paths = _
  obtain ⟨here, hhere, hconfig⟩ := h.config
  have hcurrent : currentDirectory w = .ok here := by
    rw [currentDirectory, hhere]
    rfl
  unfold extract
  rw [hcurrent]
  simp only [bind, Except.bind, hconfig, hfiles, h.openSession_eq]
  rfl

theorem exitCode_of_perform {a : Arguments} {done : Done} (h : perform w a = .ok done)
    (elapsed : Nat) :
    (run w elapsed a).exitCode = if done.report.failures.isEmpty then 0 else 1 := by
  rw [run, h]
  rfl

theorem out_extract (h : w.IsReady c)
    {paths files : List String} (hfiles : expandAll w c paths = .ok files)
    {json : Bool} (hjson : formatFor json c = .json) (exportedOnly : Bool) (elapsed : Nat) :
    (run w elapsed ⟨.extract paths exportedOnly, json⟩).out =
      (((w.reportOf c files).results.map fun r =>
          (if exportedOnly then r.exportedOnly else r).toJson) ++
        (w.reportOf c files).failures.map Failure.toJson).map Json.line := by
  rw [run, perform_extract h hfiles, hjson, List.map_append, List.map_map, List.map_map,
    List.map_eq_flatMap, List.map_eq_flatMap]
  exact List.append_nil _

theorem extracts_of_expandAll (hw : w.frontend.IsTotal) (h : w.IsReady c)
    {paths files : List String} (hfiles : expandAll w c paths = .ok files) :
    Extracts w c paths files (files.map ((w.workshop c).outcome c.maxFileSize)) := by
  have hw' : (w.workshop c).frontend.IsTotal := hw
  obtain ⟨hresults, hfailures⟩ := lists_reportOf w c files
  have hout : ∀ json exportedOnly elapsed, formatFor json c = .json → _ :=
    fun json exportedOnly elapsed hjson =>
      out_extract h hfiles hjson exportedOnly elapsed
  rw [hresults, hfailures] at hout
  refine ⟨Session.forall₂_fits hw' c files, hout, ?_, ?_⟩
  · -- What is not told is what was skipped.
    intro json exportedOnly elapsed hjson
    have hall := Outcome.length_eq (files.map ((w.workshop c).outcome c.maxFileSize))
    have hskipped : ((files.map ((w.workshop c).outcome c.maxFileSize)).filterMap
        Outcome.skipped?).length = files.countP fun path => (w.workshop c).TooLarge c path := by
      rw [List.filterMap_map, List.length_filterMap_eq_countP]
      refine List.countP_congr fun path _ => ?_
      rw [Function.comp_apply, Workshop.skipped?_outcome hw']
    rw [hout json exportedOnly elapsed hjson, Json.count_lines, List.length_append, List.length_map,
      List.length_map, ← hskipped]
    rw [List.length_map] at hall
    omega
  · intro json exportedOnly elapsed code
    have hcode : code = if (w.reportOf c files).failures.isEmpty then 0 else 1 :=
      exitCode_of_perform (perform_extract h hfiles json exportedOnly) elapsed
    have hfails : (w.reportOf c files).failures.isEmpty = true ↔
        ∀ path ∈ files, ¬ (w.workshop c).Fails c path := by
      rw [hfailures, List.isEmpty_iff, List.filterMap_eq_nil_iff, List.forall_mem_map]
      refine forall₂_congr fun path _ => ?_
      rw [← Workshop.failure?_outcome hw', Option.not_isSome_iff_eq_none]
    have hsome : (∃ path ∈ files, (w.workshop c).Fails c path) ↔
        ¬ (w.reportOf c files).failures.isEmpty = true := by
      rw [hfails]
      simp only [not_forall, not_not, exists_prop]
    rw [← hfails, hsome, hcode]
    cases (w.reportOf c files).failures.isEmpty <;> simp

/-! ## `scan` -/

/-- `scan` sums up the working directory as `extract` tells it. -/
structure SumsUp (w : World) (c : Config) : Prop where
  exitCode : ∀ json json' exportedOnly elapsed elapsed',
    (run w elapsed ⟨.scan ".", json⟩).exitCode =
      (run w elapsed' ⟨.extract ["."] exportedOnly, json'⟩).exitCode
  /-- The summary has the numbers of the objects that JSON output shows. -/
  summary : ∀ json elapsed elapsed', ∃ (records : List FileRecord) (failures : List Failure)
      (stats : Stats),
    (run w elapsed' ⟨.extract ["."] false, true⟩).out =
        (records.map FileRecord.toJson ++ failures.map Failure.toJson).map Json.line ∧
      (run w elapsed ⟨.scan ".", json⟩).out =
        failures.flatMap (formatFor json c).failure ++ (formatFor json c).summary "." stats ∧
      stats.files = records.length ∧
      stats.symbols = (records.map (·.symbols.length)).foldr (· + ·) 0 ∧
      stats.imports = (records.map (·.imports.length)).foldr (· + ·) 0 ∧
      stats.exports = (records.map (·.exports.length)).foldr (· + ·) 0 ∧
      stats.failures = failures.length

theorem sumsUp_of_isReady (h : w.IsReady c)
    (hpatterns : Walk.exclusions? (Walk.exclusionLines c.patterns) = some exclusions) :
    SumsUp w c := by
  obtain ⟨here, hhere, hconfig⟩ := h.config
  have hdirectory := FileSystem.isDirectory_here hhere
  obtain ⟨files, hwalk⟩ : ∃ files, walk w c "." = .ok files := by
    rw [walk, Walk.sources?_eq hpatterns]
    exact ⟨_, rfl⟩
  have hfiles : expandAll w c ["."] = .ok files := by
    rw [expandAll, expand, if_pos hdirectory, hwalk]
    exact congrArg Except.ok (List.append_nil files)
  -- `scan` reads the configuration under `.`, `extract` under the path from the root directory.
  have hscan : ∀ json, perform w ⟨.scan ".", json⟩ =
      .ok ⟨some ".", false, formatFor json c, w.reportOf c files⟩ := by
    intro json
    show scan w json "." = _
    unfold scan
    rw [hdirectory, loadConfig_here hhere hconfig]
    simp only [bind, Except.bind, hwalk, h.openSession_eq]
    rfl
  refine ⟨?_, ?_⟩
  · intro json json' exportedOnly elapsed elapsed'
    rw [exitCode_of_perform (hscan json), exitCode_of_perform (perform_extract h hfiles ..)]
  · intro json elapsed elapsed'
    refine ⟨_, _, { (w.reportOf c files).stats with elapsed },
      out_extract h hfiles rfl false elapsed', ?_, stats_reportOf w c files⟩
    rw [run, hscan]
    rfl

/-! ## The contract -/

/-- Where the configuration and the patterns load, `extract` tells every file that its paths stand
    for, except that it passes over directories under the path `-`, and `scan` sums up what
    `extract` tells. -/
theorem run_extract_scan (hw : w.frontend.IsTotal) (h : w.IsReady c)
    (hpatterns : Walk.exclusions? (Walk.exclusionLines c.patterns) = some exclusions) :
    (∀ paths, ∃ files outcomes, Extracts w c paths files outcomes ∧
        files = (paths.flatMap fun path =>
          if w.passesOver path then [] else w.filesOf exclusions path) ∧
        (files = paths.flatMap (w.filesOf exclusions) ↔
          ∀ path ∈ paths, w.passesOver path = true → w.filesOf exclusions path = [])) ∧
      (∀ path, let sources := Walk.sourcesBelow w.files w.home exclusions path
        sources.Perm ((Walk.filesFrom w.files w.home path exclusions).filter Walk.isSource) ∧
          sources.Pairwise fun p q => pathLe p q = true) ∧
      SumsUp w c := by
  refine ⟨fun paths => ?_, fun path => ⟨Walk.sourcesBelow_perm, Walk.pairwise_sourcesBelow⟩,
    sumsUp_of_isReady h hpatterns⟩
  exact ⟨_, _, extracts_of_expandAll hw h (expandAll_eq hpatterns paths), rfl,
    flatMap_ite_eq_iff ..⟩

/-- A command in the given root directory, where every source is an empty file. -/
def World.blank (entries : List Entry) : World :=
  ⟨⟨.directory "" entries, []⟩, none, .blank, 1⟩

/-- The exclusions without patterns. -/
def usualExclusions : List IgnoreRule :=
  (Walk.exclusions? (Walk.exclusionLines [])).getD []

theorem exclusions?_usual :
    Walk.exclusions? (Walk.exclusionLines Config.usual.patterns) = some usualExclusions := by
  obtain ⟨exclusions, h⟩ : ∃ exclusions, Walk.exclusions? (Walk.exclusionLines []) =
      some exclusions := Option.isSome_iff_exists.1 (by decide +kernel)
  rw [usualExclusions, h]
  exact h

/-- A directory with two source files, a text and a missing file. -/
theorem run_extract_scan_mixed :
    let w : World := .blank
      [.directory "src" [.file "b.ts" [], .file "a.js" []], .file "c.txt" []]
    w.IsReady .usual ∧
      (∃ outcomes, Extracts w .usual ["d.ts", "src", "c.txt"]
        ["d.ts", "src/a.js", "src/b.ts", "c.txt"] outcomes) ∧
      SumsUp w .usual := by
  intro w
  have hready : w.IsReady .usual := ⟨⟨"/", by decide +kernel, by decide +kernel⟩, rfl⟩
  obtain ⟨hextract, -, hsums⟩ :=
    run_extract_scan Frontend.isTotal_blank hready exclusions?_usual
  obtain ⟨files, outcomes, hextracts, hfiles, -⟩ := hextract ["d.ts", "src", "c.txt"]
  have hbelow : w.filesOf usualExclusions "src" = ["src/a.js", "src/b.ts"] := by
    have hfound : (Walk.filesFrom w.files w.home "src" usualExclusions).filter Walk.isSource =
        ["src/b.ts", "src/a.js"] := by
      decide +kernel
    have horder : pathLe "src/b.ts" "src/a.js" = false := by decide +kernel
    rw [World.filesOf, if_pos (by decide +kernel), Walk.sourcesBelow, hfound]
    simp [List.mergeSort, horder]
  have hmissing : w.filesOf usualExclusions "d.ts" = ["d.ts"] := by decide +kernel
  have htext : w.filesOf usualExclusions "c.txt" = ["c.txt"] := by decide +kernel
  have hpasses : ∀ path ∈ ["d.ts", "src", "c.txt"], w.passesOver path = false := by decide +kernel
  have hlisted : files = ["d.ts", "src/a.js", "src/b.ts", "c.txt"] := by
    rw [hfiles]
    simp [hpasses, hbelow, hmissing, htext]
  exact ⟨hready, ⟨outcomes, hlisted ▸ hextracts⟩, hsums⟩

/-- A source file in a directory under the path `-` is not told. -/
theorem not_extracts_dash :
    let w : World := .blank [.directory "-" [.file "a.ts" []]]
    w.files.currentDirectory = .ok "/" ∧ loadConfig w "/" = .ok .usual ∧
      w.filesOf usualExclusions "-" = ["-/a.ts"] ∧
      run w 0 ⟨.extract ["-"] false, true⟩ = ⟨0, [], []⟩ := by
  decide +kernel

end Command

end Outline
