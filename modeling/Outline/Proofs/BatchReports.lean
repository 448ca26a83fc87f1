import Outline.Config
import Outline.Proofs.BatchCounts

/-!
# Reports of batches

However many workers share a batch, and in whatever order they take their steps, the report has
every path once: as a record, as a failure or as skipped, each list in the order of the paths. What
becomes of a path does not depend on the other paths, nor on what the session did before.
-/

namespace Outline

/-! ## What becomes of a path -/

namespace Workshop

/-- The file has more bytes than the settings allow. -/
def TooLarge (w : Workshop) (config : Config) (path : String) : Prop :=
  ∃ size, w.files.size path = .ok size ∧ min (1024 * config.maxFileSizeKb) (Nat.pow 2 64 - 1) < size

/-- The size or the contents of the file cannot be read. -/
def Unreadable (w : Workshop) (path : String) : Prop :=
  (∃ e, w.files.size path = .error e) ∨ ∃ e, w.files.read path = .error e

end Workshop

/-- An outcome is the one that the size, the readability and the language of the file call for. -/
structure Outcome.Fits (w : Workshop) (config : Config) (path : String) (outcome : Outcome) :
    Prop where
  skipped_iff : outcome = .skipped path ↔ w.TooLarge config path
  failed_iff : (∃ error, outcome = .failed ⟨path, error⟩) ↔
    ¬ w.TooLarge config path ∧ (w.Unreadable path ∨ (Grammar.ofPath path).isKnown = false)
  /-- The record is that of the file alone, in a new session. -/
  extracted_iff : ∀ record, outcome = .extracted record ↔
    ¬ w.TooLarge config path ∧ ¬ w.Unreadable path ∧ (Grammar.ofPath path).isKnown = true ∧
      ∃ bytes, w.files.read path = .ok bytes ∧
        ∀ n, ((Session.new n).extract w path ⟨bytes⟩).1 = .ok record

namespace Outcome.Fits

variable {w : Workshop} {config : Config} {path : String}

theorem of_tooLarge (h : w.TooLarge config path) : Fits w config path (.skipped path) where
  skipped_iff := by simp [h]
  failed_iff := by simp [h]
  extracted_iff := by simp [h]

theorem of_unreadable (h : ¬ w.TooLarge config path) (hu : w.Unreadable path) (error : String) :
    Fits w config path (.failed ⟨path, error⟩) where
  skipped_iff := by simp [h]
  failed_iff := by simp [h, hu]
  extracted_iff := by simp [hu]

theorem of_unknown (h : ¬ w.TooLarge config path) (hg : (Grammar.ofPath path).isKnown = false)
    (error : String) : Fits w config path (.failed ⟨path, error⟩) where
  skipped_iff := by simp [h]
  failed_iff := by simp [h, hg]
  extracted_iff := by simp [hg]

theorem of_record (h : ¬ w.TooLarge config path) (hu : ¬ w.Unreadable path)
    (hg : (Grammar.ofPath path).isKnown = true) {bytes : List UInt8}
    (hread : w.files.read path = .ok bytes) {record : FileRecord}
    (halone : ∀ n, ((Session.new n).extract w path ⟨bytes⟩).1 = .ok record) :
    Fits w config path (.extracted record) where
  skipped_iff := by simp [h]
  failed_iff := by simp [hu, hg]
  extracted_iff := by
    intro record'
    constructor
    · intro heq
      cases heq
      exact ⟨h, hu, hg, bytes, hread, halone⟩
    · rintro ⟨-, -, -, bytes', hread', halone'⟩
      rw [hread] at hread'
      cases hread'
      have hsame := (halone 0).symm.trans (halone' 0)
      cases hsame
      rfl

end Outcome.Fits

theorem Config.maxFileSize_eq (config : Config) :
    config.maxFileSize = min (1024 * config.maxFileSizeKb) (Nat.pow 2 64 - 1) := by
  rw [maxFileSize, Nat.mul_comm]
  rfl

theorem Workshop.fits_outcome {w : Workshop} (hw : w.frontend.IsTotal) (config : Config)
    (path : String) : (w.outcome config.maxFileSize path).Fits w config path := by
  cases hsize : w.files.size path with
  | error e =>
    have hsmall : ¬ w.TooLarge config path := by simp [TooLarge, hsize]
    have houtcome : w.outcome config.maxFileSize path = Session.unreadable path e := by
      simp [outcome, Session.extractPath, hsize]
    rw [houtcome]
    exact .of_unreadable hsmall (Or.inl ⟨e, hsize⟩) _
  | ok size =>
    by_cases hlimit : config.maxFileSize < size
    · have houtcome : w.outcome config.maxFileSize path = .skipped path := by
        simp [outcome, Session.extractPath, hsize, hlimit]
      rw [houtcome]
      rw [Config.maxFileSize_eq] at hlimit
      exact .of_tooLarge ⟨size, hsize, hlimit⟩
    have hsmall : ¬ w.TooLarge config path := by
      rintro ⟨size', hsize', hlt⟩
      rw [hsize] at hsize'
      cases hsize'
      rw [Config.maxFileSize_eq] at hlimit
      exact hlimit hlt
    cases hread : w.files.read path with
    | error e =>
      have houtcome : w.outcome config.maxFileSize path = Session.unreadable path e := by
        simp [outcome, Session.extractPath, hsize, hlimit, hread]
      rw [houtcome]
      exact .of_unreadable hsmall (Or.inr ⟨e, hread⟩) _
    | ok bytes =>
      have hreads : w.Reads config.maxFileSize path ⟨bytes⟩ := ⟨⟨size, hsize, hlimit⟩, hread⟩
      cases hg : (Grammar.ofPath path).isKnown with
      | false =>
        rw [outcome, Session.extractPath_of_reads hreads, Session.extract_of_unknown hg]
        exact .of_unknown hsmall hg _
      | true =>
        obtain ⟨t, ht⟩ := hw _ ⟨bytes⟩ hg
        have hreadable : ¬ w.Unreadable path := by simp [Unreadable, hsize, hread]
        rw [outcome_of_tree hreads hg ht]
        exact .of_record hsmall hreadable hg hread (Session.extract_new hg ht)

/-! ## Open sessions -/

namespace Session

/-- What a session may come to, by actions and, while nothing is closed, by whole batches. -/
inductive Reachable (n : Nat) : Session → Prop where
  | new : Reachable n (new n)
  | act {s : Session} (action : Action) : Reachable n s → Reachable n (s.act action)
  | batch {s : Session} {w : Workshop} {limit workers : Nat} {paths : List String}
      {c : Crowd Session Job} : Reachable n s → s.parsers.closed = false →
      s.queries.closed = false → s.Completes w limit workers paths c → Reachable n c.shared

/-- The session is open, whatever it has done before. -/
structure IsOpen (n : Nat) (s : Session) : Prop where
  reachable : Reachable n s
  parsers : s.parsers.closed = false
  queries : s.queries.closed = false

theorem Reachable.atRest {n : Nat} {s : Session} (h : Reachable n s) : s.AtRest (max n 1) := by
  induction h with
  | new => exact atRest_new n
  | act action _ ih => exact ih.act action
  | batch _ hparsers hqueries hc ih =>
    have hready := ih.isReady hparsers hqueries
    exact ((hc.inOrder hready).isReady hc.2).atRest

theorem IsOpen.isReady {n : Nat} {s : Session} (h : s.IsOpen n) : s.IsReady (max n 1) :=
  h.reachable.atRest.isReady h.parsers h.queries

/-! ## Reports -/

/-- A report that as many workers as a pool has parsers may give on some paths. -/
def Reports (n : Nat) (w : Workshop) (config : Config) (s : Session) (paths : List String)
    (report : Report) : Prop :=
  ∃ c elapsed, s.Completes w config.maxFileSize (max n 1) paths c ∧
    report = .of (c.members.filterMap Job.outcome?) c.shared.parsers elapsed

/-- What may be relied on for a batch. -/
structure Delivers (n : Nat) (w : Workshop) (config : Config) (s : Session) (paths : List String) :
    Prop where
  /-- As long as a job is not done, the workers can go on. -/
  goes_on : ∀ c, Crowd.RunsWithin (Job.next? w config.maxFileSize) Job.isBusy (max n 1)
      ⟨s, paths.map Job.new⟩ c → (∃ job ∈ c.members, job.outcome? = none) →
    ∃ c', Crowd.StepWithin (Job.next? w config.maxFileSize) Job.isBusy (max n 1) c c'
  /-- They do not go on for ever. -/
  ends : ∀ run : Nat → Crowd Session Job, run 0 = ⟨s, paths.map Job.new⟩ →
    ¬ ∀ k, Crowd.Step (Job.next? w config.maxFileSize) (run k) (run (k + 1))
  /-- To take the paths one after the other is one way. -/
  extractPaths : Reports n w config s paths (s.extractPaths w config.maxFileSize paths).1
  /-- Every path has one outcome, and the report has the outcomes in the order of the paths. -/
  sorted : ∀ report, Reports n w config s paths report →
    ∃ outcomes, List.Forall₂ (Outcome.Fits w config) paths outcomes ∧
      report.results = outcomes.filterMap Outcome.record? ∧
      report.failures = outcomes.filterMap Outcome.failure? ∧
      report.skipped = outcomes.filterMap Outcome.skipped?
  append : ∀ xs ys, paths = xs ++ ys → ∀ s₁ s₂ report report₁ report₂, IsOpen n s₁ → IsOpen n s₂ →
    Reports n w config s paths report → Reports n w config s₁ xs report₁ →
    Reports n w config s₂ ys report₂ →
    report.results = report₁.results ++ report₂.results ∧
      report.failures = report₁.failures ++ report₂.failures ∧
      report.skipped = report₁.skipped ++ report₂.skipped
  stats : ∀ report, Reports n w config s paths report →
    report.stats.files = report.results.length ∧
      report.stats.failures = report.failures.length ∧
      report.stats.skipped = report.skipped.length ∧
      report.stats.symbols = (report.results.map (·.symbols.length)).foldr (· + ·) 0 ∧
      report.stats.imports = (report.results.map (·.imports.length)).foldr (· + ·) 0 ∧
      report.stats.exports = (report.results.map (·.exports.length)).foldr (· + ·) 0
  /-- In a new session every record stands for one parse, and one worker has one parser for each
      grammar. -/
  fresh : s = new n → ∀ report, Reports n w config s paths report →
    report.stats.parsesCalled = report.stats.files ∧
      (n ≤ 1 → report.stats.parsersCreated =
        (report.results.map fun r => Grammar.ofPath r.path).dedup.length)

variable {n : Nat} {w : Workshop} {config : Config} {s : Session} {paths : List String}
  {report : Report}

/-- The lists of a report depend on the paths only. -/
theorem Reports.eq (hr : Reports n w config s paths report) (h : s.IsOpen n) :
    report.results = (paths.map (w.outcome config.maxFileSize)).filterMap Outcome.record? ∧
      report.failures = (paths.map (w.outcome config.maxFileSize)).filterMap Outcome.failure? ∧
      report.skipped = (paths.map (w.outcome config.maxFileSize)).filterMap Outcome.skipped? := by
  obtain ⟨c, elapsed, hc, rfl⟩ := hr
  rw [hc.outcomes_eq h.isReady]
  exact ⟨rfl, rfl, rfl⟩

theorem forall₂_fits (hw : w.frontend.IsTotal) (config : Config) (paths : List String) :
    List.Forall₂ (Outcome.Fits w config) paths (paths.map (w.outcome config.maxFileSize)) := by
  rw [List.forall₂_map_right_iff, List.forall₂_same]
  exact fun path _ => Workshop.fits_outcome hw config path

theorem reports_extractPaths (h : s.IsOpen n) (w : Workshop) (config : Config)
    (paths : List String) :
    Reports n w config s paths (s.extractPaths w config.maxFileSize paths).1 := by
  obtain ⟨members, hc, hmembers⟩ := completes_extractEach h.isReady w config.maxFileSize paths
  refine ⟨_, 0, ⟨hc.1.mono (by omega), hc.2⟩, ?_⟩
  rw [hmembers]
  rfl

theorem fresh_counts (hw : w.frontend.IsTotal) (hr : Reports n w config (new n) paths report) :
    report.stats.parsesCalled = report.stats.files ∧
      (n ≤ 1 → report.stats.parsersCreated =
        (report.results.map fun r => Grammar.ofPath r.path).dedup.length) := by
  obtain ⟨c, elapsed, hc, rfl⟩ := hr
  have hready : (new n).IsReady (max n 1) := (atRest_new n).isReady rfl rfl
  have hrecords : (c.members.filterMap Job.outcome?).filterMap Outcome.record? =
      c.members.filterMap Job.record? := List.filterMap_filterMap
  refine ⟨?_, fun hn => ?_⟩
  · show c.shared.parsers.calls =
      ((c.members.filterMap Job.outcome?).filterMap Outcome.record?).length
    rw [hc.calls_eq hready hw, hrecords]
    exact Nat.zero_add _
  · show c.shared.parsers.created =
      (((c.members.filterMap Job.outcome?).filterMap Outcome.record?).map _).dedup.length
    have hone : max n 1 = 1 := by omega
    rw [hone] at hready
    rw [hrecords, hc.created_eq hready hw rfl]

/-- Every batch in an open session comes to its end, and its report loses no path, repeats none and
    keeps their order. -/
theorem batch_delivers (n : Nat) (w : Workshop) (hw : w.frontend.IsTotal) (config : Config)
    (s : Session) (h : s.IsOpen n) (paths : List String) : Delivers n w config s paths where
  goes_on := by
    rintro c hr ⟨job, hjob, hopen⟩
    have horder := (InOrder.of_isReady h.isReady w config.maxFileSize paths).runs hr.runs
    refine horder.exists_step (hr.countP_le ?_) hjob hopen
    show (paths.map Job.new).countP Job.isBusy ≤ max n 1
    rw [Job.countP_new paths fun _ => rfl]
    exact Nat.zero_le _
  ends := fun run _ => Crowd.not_forall_step (fun _ _ _ _ => Job.rank_next) run
  extractPaths := reports_extractPaths h w config paths
  sorted := fun _ hr => ⟨_, forall₂_fits hw config paths, hr.eq h⟩
  append := by
    rintro xs ys rfl s₁ s₂ report report₁ report₂ h₁ h₂ hr hr₁ hr₂
    obtain ⟨hres, hfail, hskip⟩ := hr.eq h
    obtain ⟨hres₁, hfail₁, hskip₁⟩ := hr₁.eq h₁
    obtain ⟨hres₂, hfail₂, hskip₂⟩ := hr₂.eq h₂
    rw [hres, hfail, hskip, hres₁, hfail₁, hskip₁, hres₂, hfail₂, hskip₂]
    simp
  stats := by
    rintro report ⟨c, elapsed, -, rfl⟩
    exact ⟨rfl, rfl, rfl, List.foldr_map.symm, List.foldr_map.symm, List.foldr_map.symm⟩
  fresh := by
    rintro rfl report hr
    exact fresh_counts hw hr

/-- A session that has read a file gets a batch with a file twice, one that is too large, one that
    does not exist and one in no known language. -/
theorem batch_delivers_mixed :
    let w : Workshop := ⟨.blank,
      ⟨.directory "" [.file "a.ts" [], .file "b.ts" [10], .file "c.txt" []], []⟩, .usual⟩
    let config : Config := { Config.usual with maxFileSizeKb := 0 }
    let s := (new 1).act (.extract w "a.js" ⟨[]⟩)
    let paths := ["b.ts", "a.ts", "d.ts", "c.txt", "a.ts"]
    let report := (s.extractPaths w config.maxFileSize paths).1
    w.frontend.IsTotal ∧ s.IsOpen 1 ∧ report.results.map (·.path) = ["a.ts", "a.ts"] ∧
      report.failures.map (·.path) = ["d.ts", "c.txt"] ∧ report.skipped = ["b.ts"] ∧
      Delivers 1 w config s paths := by
  intro w config s paths report
  have hw : w.frontend.IsTotal := Frontend.isTotal_blank
  have hs : s.IsOpen 1 := ⟨.act _ .new, rfl, rfl⟩
  exact ⟨hw, hs, by decide +kernel, by decide +kernel, by decide +kernel,
    batch_delivers 1 w hw config s hs paths⟩

end Session

end Outline
