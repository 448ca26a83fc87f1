import Outline.Proofs.BatchRuns

/-!
# Counts of a batch

How many parses a batch asks for, and for which grammars there are pools after it. A job is followed
by the point that its parse has reached. Once its file is read, a job in a known language ends with
a record, and so its parse counts.
-/

namespace Outline

namespace Parsers.Point

/-- Whether the parse has been counted. -/
def isCounted : Point → Bool
  | .ready => false
  | _ => true

/-- Whether the parse has a pool. -/
def hasPool : Point → Bool
  | .borrowing .. | .parsed => true
  | _ => false

theorem isCounted_ofBorrower (slot : Nat) (g : Grammar) (pt : Pool.Point) :
    (ofBorrower slot g pt).isCounted = true := by
  cases pt <;> rfl

theorem next_calls {ps ps' : Parsers} {language : Language} {jsx : Bool} {pt pt' : Point}
    (h : pt.next? ps language jsx = some (ps', pt')) :
    ps'.calls + pt.isCounted.toNat = ps.calls + pt'.isCounted.toNat := by
  rcases next_cases h with ⟨rfl, rfl, rfl⟩ | ⟨rfl, rfl, hor⟩ | ⟨i, rfl | rfl, -, rfl, rfl⟩ |
    ⟨rfl, -, rfl, rfl⟩ | ⟨p, rfl, -, -, rfl, rfl⟩ | ⟨e, rfl, -, rfl, rfl⟩ |
    ⟨i, b, p, p', b', rfl, -, -, rfl, rfl⟩
  · rfl
  · rcases hor with ⟨-, rfl⟩ | ⟨-, rfl⟩ | ⟨-, -, rfl⟩ <;> rfl
  · rfl
  · rfl
  · rfl
  · rfl
  · rfl
  · rw [isCounted_ofBorrower]
    rfl

/-- A step changes the grammars that have a pool only if a parse comes to the pool of its own
    grammar. -/
theorem next_grammars {ps ps' : Parsers} {language : Language} {jsx : Bool} {pt pt' : Point}
    (hopen : ∀ p ∈ ps.pools, p.closed = false) (h : pt.next? ps language jsx = some (ps', pt')) :
    (pt'.hasPool = pt.hasPool ∧ ps'.pools.map (·.grammar) = ps.pools.map (·.grammar)) ∨
    (pt.hasPool = false ∧ pt'.hasPool = true ∧ ∀ g, g ∈ ps'.pools.map (·.grammar) ↔
      g ∈ ps.pools.map (·.grammar) ∨ g = .of language jsx) := by
  rcases next_cases h with ⟨rfl, rfl, rfl⟩ | ⟨rfl, rfl, hor⟩ | ⟨i, hor, hs, rfl, rfl⟩ |
    ⟨rfl, -, rfl, rfl⟩ | ⟨p, rfl, -, hnew, rfl, rfl⟩ | ⟨e, rfl, -, rfl, rfl⟩ |
    ⟨i, b, p, p', b', rfl, hp, hb, rfl, rfl⟩
  · exact Or.inl ⟨rfl, rfl⟩
  · rcases hor with ⟨-, rfl⟩ | ⟨-, rfl⟩ | ⟨-, -, rfl⟩ <;> exact Or.inl ⟨rfl, rfl⟩
  · -- the pool is there
    obtain ⟨p, hp, hg⟩ := slot?_eq_some hs
    have hmem : Grammar.of language jsx ∈ ps'.pools.map (·.grammar) :=
      List.mem_map.2 ⟨p, List.mem_of_getElem? hp, hg⟩
    refine Or.inr ⟨?_, rfl, ?_⟩
    · rcases hor with rfl | rfl <;> rfl
    · rintro g
      refine ⟨Or.inl, ?_⟩
      rintro (hold | rfl)
      · exact hold
      · exact hmem
  · exact Or.inl ⟨rfl, rfl⟩
  · -- the pool is made
    have hg : p.grammar = .of language jsx := by
      unfold Pool.new at hnew
      split at hnew
      · cases hnew
        rfl
      · cases hnew
    refine Or.inr ⟨rfl, rfl, ?_⟩
    simp [hg]
  · exact Or.inl ⟨rfl, rfl⟩
  · -- the pool stays, and an open pool refuses nobody
    have hpool := hopen p (List.mem_of_getElem? hp)
    refine Or.inl ⟨?_, ?_⟩
    · have hb' : b' ≠ .refused := by
        rcases Pool.next_cases hpool hb with ⟨-, rfl, -⟩ | ⟨-, rfl, -⟩ | ⟨-, rfl, -⟩ | ⟨-, rfl, -⟩ |
          ⟨-, rfl, -⟩ | ⟨-, rfl, -⟩ | ⟨-, rfl, -⟩ <;> simp
      cases b' with
      | refused => exact absurd rfl hb'
      | _ => rfl
    · show (ps.pools.set i p').map (·.grammar) = _
      rw [List.map_set]
      refine Crowd.set_eq_self ?_
      simp [hp, Pool.next_grammar hb]

end Parsers.Point

/-- A property of the point that the parse of a job has reached. A job that is done has it if it has
    a record. -/
def Job.meets (f : Parsers.Point → Bool) (job : Job) : Bool :=
  match job.stage with
  | .done outcome => outcome.record?.isSome
  | stage => f stage.parse

variable {w : Workshop} {limit size : Nat} {c c' : Crowd Session Job}

/-- A step is a step of a parse, or it leaves the parsers and what the job has reached. -/
theorem InOrder.step_cases (h : InOrder w limit size c) (hw : w.frontend.IsTotal)
    (hs : Crowd.Step (Job.next? w limit) c c') :
    ∃ (k : Nat) (job job' : Job), c.members[k]? = some job ∧ c'.members = c.members.set k job' ∧
      job'.path = job.path ∧
      ((c'.shared.parsers = c.shared.parsers ∧
          ∀ f : Parsers.Point → Bool, f .ready = false → f .parsed = true →
            job'.meets f = job.meets f) ∨
        ∃ pt pt' : Parsers.Point, (∀ f, job.meets f = f pt) ∧ (∀ f, job'.meets f = f pt') ∧
          pt.next? c.shared.parsers (Grammar.ofPath job.path).language
            (Grammar.ofPath job.path).jsx = some (c'.shared.parsers, pt')) := by
  obtain ⟨k, hk⟩ := hs
  obtain ⟨job, s', job', hjob, hn, rfl⟩ := Crowd.move_eq_some_iff.1 hk
  obtain ⟨stage, hstage, rfl⟩ := Job.next_eq_some_iff.1 hn
  have hmem := List.mem_of_getElem? hjob
  have hright := h.stages job hmem
  refine ⟨k, job, _, hjob, rfl, rfl, ?_⟩
  rcases Stage.next_cases hstage with ⟨hold, rfl, rfl⟩ | ⟨src, pt, r, hold, hr, rfl, rfl⟩ |
    ⟨src, pt, parsers, pt', hold, hpt, rfl, rfl⟩ | ⟨src, parsed, got, r, hold, rfl, rfl⟩ |
    ⟨src, parsed, got, pt, queries, pt', hold, -, rfl, rfl⟩
  · refine Or.inl ⟨rfl, fun f hready _ => ?_⟩
    rcases Stage.start_cases w limit job.path with ⟨outcome, hstart, hnone, -⟩ | ⟨src, hstart, -, -⟩
    · simp [Job.meets, hold, hstart, hnone, Stage.parse, hready]
    · simp [Job.meets, hold, hstart, Stage.parse]
  · refine Or.inl ⟨rfl, fun f _ hparsed => ?_⟩
    cases h.eq_parsed hmem hold hr
    cases hr
    rw [hold] at hright
    obtain ⟨t, ht⟩ := hw (.ofPath job.path) src hright.2
    simp [Job.meets, hold, Parsers.answer, ht, Stage.afterParse, Stage.parse]
  · exact Or.inr ⟨pt, pt', by simp [Job.meets, hold, Stage.parse], by simp [Job.meets, Stage.parse],
      hpt⟩
  · refine Or.inl ⟨rfl, fun f _ hparsed => ?_⟩
    rw [hold] at hright
    have hafter := Stage.isRight_afterQuery hright
    have hparse := Stage.parse_afterQuery w job.path src parsed got r
    obtain ⟨hreads, hg, ⟨t, ht, -⟩, -⟩ := hright
    cases hstage' : Stage.afterQuery w job.path src parsed got r with
    | done outcome =>
      -- with its last query the job has its record
      rw [hstage'] at hafter
      have houtcome : outcome = _ := hafter.trans (Workshop.outcome_of_tree hreads hg ht)
      simp [Job.meets, hold, Stage.parse, houtcome, Outcome.record?, hparsed]
    | _ =>
      rw [hstage'] at hparse
      simp_all [Job.meets, Stage.parse]
  · refine Or.inl ⟨rfl, fun f _ _ => ?_⟩
    simp [Job.meets, hold, Stage.parse]

/-- Every parse that a batch asks for is counted. -/
theorem InOrder.calls_step (h : InOrder w limit size c) (hw : w.frontend.IsTotal)
    (hs : Crowd.Step (Job.next? w limit) c c') {before : Nat}
    (hcalls : c.shared.parsers.calls =
      before + c.members.countP (Job.meets Parsers.Point.isCounted)) :
    c'.shared.parsers.calls = before + c'.members.countP (Job.meets Parsers.Point.isCounted) := by
  obtain ⟨k, job, job', hk, hmembers, -, hstep⟩ := h.step_cases hw hs
  have hcount := Crowd.countP_set_add hk (Job.meets Parsers.Point.isCounted) job'
  rw [hmembers]
  rcases hstep with ⟨hparsers, hmeets⟩ | ⟨pt, pt', hpt, hpt', hn⟩
  · rw [hmeets Parsers.Point.isCounted rfl rfl] at hcount
    rw [hparsers]
    omega
  · have hnext := Parsers.Point.next_calls hn
    rw [hpt, hpt'] at hcount
    omega

/-- The job has a pool for its grammar. -/
def Job.hasPoolFor (g : Grammar) (job : Job) : Bool :=
  job.meets Parsers.Point.hasPool && Grammar.ofPath job.path == g

/-- The grammars that have a pool are those of the jobs that have come to one. -/
theorem InOrder.grammars_step (h : InOrder w limit size c) (hw : w.frontend.IsTotal)
    (hs : Crowd.Step (Job.next? w limit) c c')
    (hpools : ∀ g, g ∈ c.shared.parsers.pools.map (·.grammar) ↔
      0 < c.members.countP (Job.hasPoolFor g)) (g : Grammar) :
    g ∈ c'.shared.parsers.pools.map (·.grammar) ↔ 0 < c'.members.countP (Job.hasPoolFor g) := by
  obtain ⟨k, job, job', hk, hmembers, hpath, hstep⟩ := h.step_cases hw hs
  have hcount := Crowd.countP_set_add hk (Job.hasPoolFor g) job'
  have hbefore := hpools g
  rw [hmembers]
  rcases hstep with ⟨hparsers, hmeets⟩ | ⟨pt, pt', hpt, hpt', hn⟩
  · have hsame : job'.hasPoolFor g = job.hasPoolFor g := by
      simp only [Job.hasPoolFor, hmeets Parsers.Point.hasPool rfl rfl, hpath]
    rw [hsame] at hcount
    rw [hparsers, hbefore]
    omega
  · have hopen : ∀ p ∈ c.shared.parsers.pools, p.closed = false :=
      fun p hp => (h.orderly.regular p hp).isOpen
    rcases Parsers.Point.next_grammars hopen hn with ⟨hsame, hgrammars⟩ | ⟨hold, hnew, hgrammars⟩
    · have hsame' : job'.hasPoolFor g = job.hasPoolFor g := by
        simp only [Job.hasPoolFor, hpt, hpt', hsame, hpath]
      rw [hsame'] at hcount
      rw [hgrammars, hbefore]
      omega
    · rw [hgrammars, hbefore, Grammar.of_ofPath]
      simp only [Job.hasPoolFor, hpt, hpt', hold, hnew, hpath, Bool.false_and, Bool.true_and,
        Bool.toNat_false] at hcount
      by_cases hg : Grammar.ofPath job.path = g
      · simp only [hg, beq_self_eq_true, Bool.toNat_true] at hcount
        simp only [hg, or_true, true_iff]
        omega
      · have hne : (Grammar.ofPath job.path == g) = false := by simpa using hg
        simp only [hne, Bool.toNat_false] at hcount
        simp only [Ne.symm hg, or_false]
        omega

/-! ## Whole batches -/

theorem InOrder.calls_runs (h : InOrder w limit size c) (hw : w.frontend.IsTotal)
    (hr : Crowd.Runs (Job.next? w limit) c c') {before : Nat}
    (hcalls : c.shared.parsers.calls =
      before + c.members.countP (Job.meets Parsers.Point.isCounted)) :
    c'.shared.parsers.calls = before + c'.members.countP (Job.meets Parsers.Point.isCounted) := by
  refine (hr.keeps (P := fun d => InOrder w limit size d ∧ d.shared.parsers.calls =
    before + d.members.countP (Job.meets Parsers.Point.isCounted)) ?_ ⟨h, hcalls⟩).2
  intro d d' hd hs
  exact ⟨hd.1.step hs, hd.1.calls_step hw hs hd.2⟩

theorem InOrder.grammars_runs (h : InOrder w limit size c) (hw : w.frontend.IsTotal)
    (hr : Crowd.Runs (Job.next? w limit) c c')
    (hpools : ∀ g, g ∈ c.shared.parsers.pools.map (·.grammar) ↔
      0 < c.members.countP (Job.hasPoolFor g)) :
    ∀ g, g ∈ c'.shared.parsers.pools.map (·.grammar) ↔
      0 < c'.members.countP (Job.hasPoolFor g) := by
  refine (hr.keeps (P := fun d => InOrder w limit size d ∧
    ∀ g, g ∈ d.shared.parsers.pools.map (·.grammar) ↔
      0 < d.members.countP (Job.hasPoolFor g)) ?_ ⟨h, hpools⟩).2
  intro d d' hd hs
  exact ⟨hd.1.step hs, hd.1.grammars_step hw hs hd.2⟩

/-- The record that a job has come to. -/
def Job.record? (job : Job) : Option FileRecord :=
  job.outcome?.bind Outcome.record?

theorem Job.meets_of_done {job : Job} (h : job.outcome?.isSome = true)
    (f : Parsers.Point → Bool) : job.meets f = job.record?.isSome := by
  cases hstage : job.stage with
  | done outcome => simp [meets, record?, outcome?, hstage]
  | _ => simp [outcome?, hstage] at h

theorem Job.countP_new (paths : List String) {p : Job → Bool}
    (hp : ∀ path, p (Job.new path) = false) : (paths.map Job.new).countP p = 0 := by
  rw [List.countP_map]
  exact List.countP_eq_zero.2 (by simp [hp])

theorem Workshop.path_of_outcome {path : String} {r : FileRecord}
    (h : (w.outcome limit path).record? = some r) : r.path = path := by
  rcases Stage.start_cases w limit path with ⟨o, -, hnone, heq⟩ | ⟨src, -, hreads, hg⟩
  · rw [outcome, heq, hnone] at h
    cases h
  · cases ht : w.frontend.parse (.ofPath path) src with
    | none =>
      rw [outcome_of_noTree hreads hg ht] at h
      cases h
    | some t =>
      rw [outcome_of_tree hreads hg ht] at h
      cases h
      rfl

theorem Parsers.created_eq_length {pools : List Pool} (h : ∀ p ∈ pools, p.created = 1) :
    pools.foldr (fun p n => p.created + n) 0 = pools.length := by
  induction pools with
  | nil => rfl
  | cons p pools ih =>
    have hp := h p List.mem_cons_self
    have hrest := ih fun q hq => h q (List.mem_cons_of_mem p hq)
    simp only [List.foldr_cons, List.length_cons]
    omega

namespace Session.Completes

variable {workers : Nat} {s : Session} {paths : List String}

theorem path_eq (hc : Completes w limit workers s paths c) (h : s.IsReady size) {job : Job}
    (hjob : job ∈ c.members) {r : FileRecord} (hr : job.record? = some r) : r.path = job.path := by
  rw [Job.record?, hc.outcome?_eq h hjob] at hr
  exact Workshop.path_of_outcome hr

/-- A batch asks for as many parses as it has records. -/
theorem calls_eq (hc : Completes w limit workers s paths c) (h : s.IsReady size)
    (hw : w.frontend.IsTotal) :
    c.shared.parsers.calls = s.parsers.calls + (c.members.filterMap Job.record?).length := by
  have hstart : s.parsers.calls = s.parsers.calls +
      (paths.map Job.new).countP (Job.meets Parsers.Point.isCounted) := by
    rw [Job.countP_new paths fun _ => rfl]
    rfl
  have hend := (InOrder.of_isReady h w limit paths).calls_runs hw hc.1.runs hstart
  rw [hend, List.length_filterMap_eq_countP]
  congr 1
  refine List.countP_congr ?_
  intro job hjob
  rw [Job.meets_of_done (hc.2 job hjob)]

/-- After a first batch, the grammars that have a pool are those of the records. -/
theorem mem_grammars_iff (hc : Completes w limit workers s paths c) (h : s.IsReady size)
    (hw : w.frontend.IsTotal) (hfresh : s.parsers.pools = []) (g : Grammar) :
    g ∈ c.shared.parsers.pools.map (·.grammar) ↔
      g ∈ (c.members.filterMap Job.record?).map fun r => Grammar.ofPath r.path := by
  have hstart : ∀ g, g ∈ s.parsers.pools.map (·.grammar) ↔
      0 < (paths.map Job.new).countP (Job.hasPoolFor g) := by
    intro g
    rw [Job.countP_new paths fun _ => rfl, hfresh]
    simp
  have hend := (InOrder.of_isReady h w limit paths).grammars_runs hw hc.1.runs hstart g
  rw [hend, List.countP_pos_iff, List.mem_map]
  constructor
  · rintro ⟨job, hjob, hpool⟩
    simp only [Job.hasPoolFor, Job.meets_of_done (hc.2 job hjob), Bool.and_eq_true,
      beq_iff_eq] at hpool
    obtain ⟨r, hr⟩ := Option.isSome_iff_exists.1 hpool.1
    refine ⟨r, List.mem_filterMap.2 ⟨job, hjob, hr⟩, ?_⟩
    rw [hc.path_eq h hjob hr, hpool.2]
  · rintro ⟨r, hr, rfl⟩
    obtain ⟨job, hjob, hrecord⟩ := List.mem_filterMap.1 hr
    refine ⟨job, hjob, ?_⟩
    simp [Job.hasPoolFor, Job.meets_of_done (hc.2 job hjob), hrecord, hc.path_eq h hjob hrecord]

/-- After a first batch with pools of one parser each, there are as many parsers as grammars among
    the records. -/
theorem created_eq (hc : Completes w limit workers s paths c) (h : s.IsReady 1)
    (hw : w.frontend.IsTotal) (hfresh : s.parsers.pools = []) :
    c.shared.parsers.created =
      ((c.members.filterMap Job.record?).map fun r => Grammar.ofPath r.path).dedup.length := by
  have hrest := ((hc.inOrder h).isReady hc.2).orderly
  -- no pool is without a parser, and none has room for a second one
  have hone : ∀ p ∈ c.shared.parsers.pools, p.created = 1 := by
    intro p hp
    have hpos := (hrest.idle_eq hp).2
    have hle := (hrest.regular p hp).created_le
    omega
  have hperm := (List.perm_ext_iff_of_nodup hrest.distinct (List.nodup_dedup _)).2 fun g =>
    (hc.mem_grammars_iff h hw hfresh g).trans List.mem_dedup.symm
  rw [← hperm.length_eq, List.length_map]
  exact Parsers.created_eq_length hone

end Session.Completes

end Outline
