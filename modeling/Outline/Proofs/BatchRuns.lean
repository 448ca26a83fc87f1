import Outline.Proofs.JobRuns

/-!
# Runs of batches

A batch is a run from jobs that nobody has begun to jobs that are all done, with no more jobs under
way than there are workers. It cannot get stuck and it cannot go on for ever, and one worker does
what `Session.extractEach` does.
-/

namespace Outline

/-- Nothing is closed, and no job is under way. -/
structure Session.IsReady (size : Nat) (s : Session) : Prop where
  orderly : Parsers.Orderly size s.parsers []
  right : s.queries.AreRight
  isOpen : s.queries.closed = false

theorem Session.AtRest.isReady {size : Nat} {s : Session} (h : s.AtRest size)
    (hparsers : s.parsers.closed = false) (hqueries : s.queries.closed = false) :
    s.IsReady size :=
  ⟨h.parsers.orderly hparsers, h.queries, hqueries⟩

theorem Session.IsReady.atRest {size : Nat} {s : Session} (h : s.IsReady size) : s.AtRest size :=
  ⟨Or.inr h.orderly, h.right⟩

/-- The workers have worked off some paths, in a session. -/
def Session.Completes (w : Workshop) (limit workers : Nat) (s : Session) (paths : List String)
    (c : Crowd Session Job) : Prop :=
  Crowd.RunsWithin (Job.next? w limit) Job.isBusy workers ⟨s, paths.map Job.new⟩ c ∧
    ∀ job ∈ c.members, job.outcome?.isSome = true

variable {w : Workshop} {limit size workers : Nat} {s : Session} {paths : List String}
  {c c' : Crowd Session Job}

/-! ## Beginning and end -/

namespace InOrder

theorem of_isReady (h : s.IsReady size) (w : Workshop) (limit : Nat) (paths : List String) :
    InOrder w limit size ⟨s, paths.map Job.new⟩ := by
  refine ⟨h.orderly.of_ready ?_, h.right, h.isOpen, ?_⟩
  · intro call hcall
    obtain ⟨job, hjob, rfl⟩ := List.mem_map.1 hcall
    obtain ⟨path, -, rfl⟩ := List.mem_map.1 hjob
    rfl
  · intro job hjob
    obtain ⟨path, -, rfl⟩ := List.mem_map.1 hjob
    trivial

theorem isReady (h : InOrder w limit size c)
    (hdone : ∀ job ∈ c.members, job.outcome?.isSome = true) : c.shared.IsReady size := by
  refine ⟨h.orderly.of_isOver ?_, h.right, h.isOpen⟩
  intro call hcall
  obtain ⟨job, hjob, rfl⟩ := List.mem_map.1 hcall
  have hjobDone := hdone job hjob
  cases hstage : job.stage with
  | done outcome => simp [Parsers.Call.isOver, Job.call, Stage.parse, hstage]
  | _ => simp [Job.outcome?, hstage] at hjobDone

/-- A job under way has a next step, if there are no more of them than a pool has parsers. -/
theorem exists_next (h : InOrder w limit size c) (hfew : c.members.countP Job.isBusy ≤ size)
    {job : Job} (hjob : job ∈ c.members) (hbusy : job.isBusy = true) :
    ∃ s' job', job.next? w limit c.shared = some (s', job') := by
  have hnext : (job.stage.next? w limit c.shared job.path).isSome = true := by
    cases hstage : job.stage with
    | waiting => rfl
    | done outcome => simp [Job.isBusy, hstage] at hbusy
    | parsing src pt =>
      cases hr : pt.answer? w.frontend (.ofPath job.path) src with
      | some r => simp [Stage.next?, hr]
      | none =>
        have hmem : job.call ∈ c.members.map Job.call := List.mem_map_of_mem hjob
        have hover : job.call.isOver = false := by
          cases pt with
          | parsed => cases hr
          | failed e => cases hr
          | _ => simp [Parsers.Call.isOver, Job.call, Stage.parse, hstage]
        have hrunning : (c.members.map Job.call).countP Parsers.Call.isRunning ≤ size := by
          rw [List.countP_map]
          refine Nat.le_trans (List.countP_mono_left ?_) hfew
          intro other _ hrun
          cases hother : other.stage <;>
            simp_all [Parsers.Call.isRunning, Job.call, Stage.parse, Job.isBusy]
        obtain ⟨parsers, call, hcall⟩ := h.orderly.exists_next hmem hover
          (h.orderly.not_isBlocked hmem hrunning)
        obtain ⟨pt', hpt, -⟩ := Parsers.Call.next_eq_some_iff.1 hcall
        simp only [Job.call, hstage, Stage.parse] at hpt
        simp [Stage.next?, hr, hpt]
    | asking src parsed got pt =>
      cases pt with
      | done r => rfl
      | ready =>
        simp only [Stage.next?, Queries.Point.next?]
        repeat' split
        all_goals rfl
      | looking q =>
        simp only [Stage.next?, Queries.Point.next?]
        split <;> rfl
      | missing q =>
        simp only [Stage.next?, Queries.Point.next?]
        split <;> rfl
  obtain ⟨⟨s', stage⟩, hstage⟩ := Option.isSome_iff_exists.1 hnext
  exact ⟨s', _, Job.next_eq_some_iff.2 ⟨stage, hstage, rfl⟩⟩

/-- As long as a job is not done, the workers can go on. -/
theorem exists_step (h : InOrder w limit size c) (hfew : c.members.countP Job.isBusy ≤ size)
    {job : Job} (hjob : job ∈ c.members) (hopen : job.outcome? = none) :
    ∃ c', Crowd.StepWithin (Job.next? w limit) Job.isBusy size c c' := by
  by_cases hbusy : ∃ other ∈ c.members, other.isBusy = true
  · -- somebody is busy, and goes on without one more being busy
    obtain ⟨other, hmem, hother⟩ := hbusy
    obtain ⟨k, hk⟩ := List.mem_iff_getElem?.1 hmem
    obtain ⟨s', other', hn⟩ := h.exists_next hfew hmem hother
    refine ⟨_, Crowd.step_of_next hk hn, ?_⟩
    have hcount := Crowd.countP_set_add hk Job.isBusy other'
    have hone : (Job.isBusy other').toNat ≤ 1 := Bool.toNat_le _
    rw [hother, Bool.toNat_true] at hcount
    show (c.members.set k other').countP Job.isBusy ≤ size
    omega
  · -- nobody is busy, so that a worker can begin
    have hwaiting : job.stage = .waiting := by
      cases hstage : job.stage with
      | waiting => rfl
      | done outcome => simp [Job.outcome?, hstage] at hopen
      | _ => exact absurd ⟨job, hjob, by simp [Job.isBusy, hstage]⟩ hbusy
    obtain ⟨k, hk⟩ := List.mem_iff_getElem?.1 hjob
    have hn : job.next? w limit c.shared =
        some (c.shared, { job with stage := .start w limit job.path }) := by
      simp [Job.next?, hwaiting, Stage.next?]
    refine ⟨_, Crowd.step_of_next hk hn, ?_⟩
    have hcount := Crowd.countP_set_add hk Job.isBusy { job with stage := .start w limit job.path }
    have hone : (Job.isBusy { job with stage := .start w limit job.path }).toNat ≤ 1 :=
      Bool.toNat_le _
    have hzero : c.members.countP Job.isBusy = 0 := by
      rw [List.countP_eq_zero]
      intro other hmem hother
      exact hbusy ⟨other, hmem, hother⟩
    have hpos := h.orderly.size_pos
    show (c.members.set k _).countP Job.isBusy ≤ size
    omega

end InOrder

/-! ## Outcomes -/

theorem Job.map_path_of_runs (hr : Crowd.Runs (Job.next? w limit) c c') :
    c'.members.map Job.path = c.members.map Job.path := by
  refine hr.keeps (P := fun d => d.members.map Job.path = c.members.map Job.path) ?_ rfl
  rintro d d' hd ⟨k, hk⟩
  obtain ⟨job, s', job', hjob, hn, rfl⟩ := Crowd.move_eq_some_iff.1 hk
  obtain ⟨stage, -, rfl⟩ := Job.next_eq_some_iff.1 hn
  show (d.members.set k _).map Job.path = _
  rw [List.map_set, Crowd.set_eq_self (by simp [hjob]), hd]

theorem Session.Completes.inOrder (hc : Completes w limit workers s paths c) (h : s.IsReady size) :
    InOrder w limit size c :=
  (InOrder.of_isReady h w limit paths).runs hc.1.runs

/-- Every file has the outcome that it has in a new session. -/
theorem Session.Completes.outcome?_eq (hc : Completes w limit workers s paths c)
    (h : s.IsReady size) {job : Job} (hjob : job ∈ c.members) :
    job.outcome? = some (w.outcome limit job.path) := by
  have hright := (hc.inOrder h).stages job hjob
  have hdone := hc.2 job hjob
  cases hstage : job.stage with
  | done outcome =>
    rw [hstage] at hright
    have heq : outcome = w.outcome limit job.path := hright
    simp [Job.outcome?, hstage, heq]
  | _ => simp [Job.outcome?, hstage] at hdone

theorem Session.Completes.outcomes_eq (hc : Completes w limit workers s paths c)
    (h : s.IsReady size) :
    c.members.filterMap Job.outcome? = paths.map (w.outcome limit) := by
  calc c.members.filterMap Job.outcome?
      = c.members.filterMap fun job => some (w.outcome limit job.path) :=
        List.filterMap_congr fun job hjob => hc.outcome?_eq h hjob
    _ = (c.members.map Job.path).map (w.outcome limit) := by
        rw [List.filterMap_eq_map', List.map_map]
        rfl
    _ = paths.map (w.outcome limit) := by
        rw [Job.map_path_of_runs hc.1.runs, List.map_map]
        simp [Job.new, Function.comp_def]

/-! ## One worker -/

theorem Session.IsReady.extractPath (h : s.IsReady size) (w : Workshop) (limit : Nat)
    (path : String) : (s.extractPath w limit path).2.IsReady size := by
  have hslot : ([path].map Job.new)[0]? = some (Job.new path) := rfl
  have hruns := Crowd.runs_of_alone (Job.alone_extractPath h.orderly w limit path) hslot
  have horder := (InOrder.of_isReady h w limit [path]).runs hruns
  refine horder.isReady ?_
  simp [Job.outcome?]

theorem Session.length_extractEach (w : Workshop) (limit : Nat) (s : Session)
    (paths : List String) : (s.extractEach w limit paths).1.length = paths.length := by
  induction paths generalizing s with
  | nil => rfl
  | cons path paths ih => simp [extractEach, ih]

/-- One worker takes the paths in their order. -/
theorem Session.runsWithin_extractEach (h : s.IsReady size) (w : Workshop) (limit : Nat)
    (paths : List String) (finished : List Job) (hidle : finished.countP Job.isBusy = 0) :
    Crowd.RunsWithin (Job.next? w limit) Job.isBusy 1 ⟨s, finished ++ paths.map Job.new⟩
      ⟨(s.extractEach w limit paths).2, finished ++
        (paths.zip (s.extractEach w limit paths).1).map fun x => ⟨x.1, .done x.2⟩⟩ := by
  -- the jobs that are done stand in front, and the worker takes the one after them
  induction paths generalizing s finished with
  | nil => exact .refl
  | cons path paths ih =>
    have hcount : (finished ++ Job.new path :: paths.map Job.new).countP Job.isBusy = 0 := by
      have hnew : (paths.map Job.new).countP Job.isBusy = 0 := by
        rw [List.countP_map]
        exact List.countP_eq_zero.2 (by simp [Job.new, Job.isBusy])
      simp [hidle, hnew, Job.new, Job.isBusy]
    have hslot : (finished ++ Job.new path :: paths.map Job.new)[finished.length]? =
        some (Job.new path) := by simp
    have hfirst := Crowd.runsWithin_of_alone (Job.alone_extractPath h.orderly w limit path) hslot
      Job.isBusy
    rw [hcount] at hfirst
    have hrest := ih (h.extractPath w limit path)
      (finished ++ [⟨path, .done (s.extractPath w limit path).1⟩]) (by simp [hidle, Job.isBusy])
    refine hfirst.trans ?_
    simpa [Session.extractEach, List.set_append] using hrest

/-- What one worker does is a batch, with the outcomes of `extractEach`. -/
theorem Session.completes_extractEach (h : s.IsReady size) (w : Workshop) (limit : Nat)
    (paths : List String) :
    ∃ members, Completes w limit 1 s paths ⟨(s.extractEach w limit paths).2, members⟩ ∧
      members.filterMap Job.outcome? = (s.extractEach w limit paths).1 := by
  refine ⟨(paths.zip (s.extractEach w limit paths).1).map fun x => ⟨x.1, .done x.2⟩, ⟨?_, ?_⟩, ?_⟩
  · exact runsWithin_extractEach h w limit paths [] rfl
  · intro job hjob
    obtain ⟨x, -, rfl⟩ := List.mem_map.1 hjob
    rfl
  · rw [List.filterMap_map]
    show (paths.zip (s.extractEach w limit paths).1).filterMap (fun x => some x.2) = _
    rw [List.filterMap_eq_map', List.map_snd_zip]
    exact Nat.le_of_eq (length_extractEach w limit s paths)

end Outline
