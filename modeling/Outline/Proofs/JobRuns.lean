import Outline.Proofs.Jobs

/-!
# Runs of jobs

Jobs share the parsers and the queries of a session, and take their steps in any order. The parses
of all jobs together are in order, as parses are in any run, and the queries stay right. So what
comes of a job does not depend on the other jobs.
-/

namespace Outline

/-- What comes of the file at a path in a new session. -/
def Workshop.outcome (w : Workshop) (limit : Nat) (path : String) : Outcome :=
  ((Session.new 1).extractPath w limit path).1

/-- The queries of a grammar, in the order in which a job asks for them. -/
def Grammar.queries (g : Grammar) : List Query :=
  Topic.all.map fun topic => ⟨g, topic, topic.rules g.language⟩

variable {w : Workshop} {limit : Nat} {path : String} {src : Source}

theorem Workshop.outcome_of_tree {t : Tree} (h : w.Reads limit path src)
    (hg : (Grammar.ofPath path).isKnown = true)
    (ht : w.frontend.parse (.ofPath path) src = some t) :
    w.outcome limit path = .extracted (.ofTree w path src t) := by
  rw [outcome, Session.extractPath_of_reads h, Session.extract_new hg ht]
  rfl

theorem Workshop.outcome_of_noTree (h : w.Reads limit path src)
    (hg : (Grammar.ofPath path).isKnown = true)
    (ht : w.frontend.parse (.ofPath path) src = none) :
    w.outcome limit path = .ofResult path (.error (.parse .noTree)) := by
  have hparse := (Parsers.orderly_new 1 []).parse_eq ((Grammar.isKnown_iff _).1 hg)
    (Grammar.ofPath path).jsx w.frontend src
  rw [Grammar.of_ofPath, Parsers.answer, ht] at hparse
  rw [outcome, Session.extractPath_of_reads h, Session.extract_of_parse_error hg hparse]

/-- What a job relies on at the stage where it is. What has come of a job that is done is what
    would have come of it in a new session. -/
def Stage.IsRight (w : Workshop) (limit : Nat) (path : String) : Stage → Prop
  | waiting => True
  | parsing src _ => w.Reads limit path src ∧ (Grammar.ofPath path).isKnown = true
  | asking src parsed got pt =>
    w.Reads limit path src ∧ (Grammar.ofPath path).isKnown = true ∧
      (∃ t, w.frontend.parse (.ofPath path) src = some t ∧ parsed = ⟨t, .ofPath path, src⟩) ∧
      got <+: (Grammar.ofPath path).queries ∧ got.length < 3 ∧
      pt.IsRight (.ofPath path) (topic got) ∧ ∀ e, pt ≠ .done (.error e)
  | done outcome => outcome = w.outcome limit path

theorem Stage.isRight_start (w : Workshop) (limit : Nat) (path : String) :
    (start w limit path).IsRight w limit path := by
  rcases start_cases w limit path with ⟨outcome, hstart, -, heq⟩ | ⟨src, hstart, hreads, hg⟩
  · rw [hstart]
    show outcome = w.outcome limit path
    rw [Workshop.outcome, heq]
  · rw [hstart]
    exact ⟨hreads, hg⟩

theorem Stage.isRight_afterParse (h : w.Reads limit path src)
    (hg : (Grammar.ofPath path).isKnown = true) :
    (afterParse path src (Parsers.answer w.frontend (.ofPath path) src)).IsRight w limit path := by
  cases ht : w.frontend.parse (.ofPath path) src with
  | none =>
    simp only [Parsers.answer, ht]
    exact (Workshop.outcome_of_noTree h hg ht).symm
  | some t =>
    simp only [Parsers.answer, ht]
    exact ⟨h, hg, ⟨t, ht, rfl⟩, List.nil_prefix, by simp, trivial, by simp⟩

theorem Stage.parse_afterQuery (w : Workshop) (path : String) (src : Source) (parsed : Parsed)
    (got : List Query) (r : Except QueryError Compiled) :
    (afterQuery w path src parsed got r).parse = .parsed := by
  cases r with
  | error e => rfl
  | ok a =>
    match got with
    | [] => rfl
    | [_] => rfl
    | _ :: _ :: _ => rfl

theorem Stage.isRight_afterQuery {parsed : Parsed} {got : List Query}
    {r : Except QueryError Compiled}
    (h : (asking src parsed got (.done r)).IsRight w limit path) :
    (afterQuery w path src parsed got r).IsRight w limit path := by
  obtain ⟨hreads, hg, ⟨t, ht, rfl⟩, hgot, hlen, hright, hok⟩ := h
  cases r with
  | error e => exact absurd rfl (hok e)
  | ok c =>
    have hq : Query.of? (.ofPath path) (topic got) = some c.query := hright
    rw [Query.of?_eq hg, Option.some.injEq] at hq
    match got with
    | [] =>
      refine ⟨hreads, hg, ⟨t, ht, rfl⟩, ?_, by simp, trivial, by simp⟩
      simp [← hq, Grammar.queries, Topic.all, topic]
    | [symbols] =>
      refine ⟨hreads, hg, ⟨t, ht, rfl⟩, ?_, by simp, trivial, by simp⟩
      simpa [← hq, Grammar.queries, Topic.all, topic] using hgot
    | [symbols, modules] =>
      obtain ⟨rfl, rfl⟩ :
          symbols = ⟨.ofPath path, .symbols, Topic.rules .symbols (Grammar.ofPath path).language⟩ ∧
          modules = ⟨.ofPath path, .modules, Topic.rules .modules (Grammar.ofPath path).language⟩ :=
        by simpa [Grammar.queries, Topic.all] using hgot
      show Outcome.ofResult path (Session.record w path _ src ⟨_, _, c.query⟩) =
        w.outcome limit path
      rw [Workshop.outcome_of_tree hreads hg ht, ← hq]
      simp only [Session.record, Session.run_eq, topic]
      rfl
    | _ :: _ :: _ :: rest =>
      simp only [List.length_cons] at hlen
      omega

/-! ## What every step keeps -/

/-- A parse that has not begun or is over has nothing to do with a pool. -/
theorem Parsers.Call.away_of_not_isRunning {c : Parsers.Call} (h : c.isRunning = false) (i : Nat) :
    c.holdsAt i = false ∧ c.arrivesAt i = false := by
  cases hpt : c.point <;> simp_all [isRunning, holdsAt, arrivesAt]

/-- The parses of all jobs are in order, the queries are right, and every job is where it can be. -/
structure InOrder (w : Workshop) (limit size : Nat) (c : Crowd Session Job) : Prop where
  orderly : Parsers.Orderly size c.shared.parsers (c.members.map Job.call)
  right : c.shared.queries.AreRight
  isOpen : c.shared.queries.closed = false
  stages : ∀ job ∈ c.members, job.stage.IsRight w limit job.path

namespace InOrder

variable {size k : Nat} {c c' : Crowd Session Job} {job : Job} {stage : Stage}

/-- A step outside of the parse. -/
theorem orderly_set (h : InOrder w limit size c) (hk : c.members[k]? = some job)
    (hold : job.call.isRunning = false) (hnew : stage.parse = .ready ∨ stage.parse = .parsed) :
    Parsers.Orderly size c.shared.parsers
      ((c.members.set k { job with stage }).map Job.call) := by
  have hcall : (c.members.map Job.call)[k]? = some job.call := by simp [hk]
  have hrest : ({ job with stage } : Job).call.isRunning = false := by
    rcases hnew with hp | hp <;> simp [Parsers.Call.isRunning, Job.call, hp]
  rw [List.map_set]
  refine h.orderly.replace hcall rfl rfl rfl ?_ ?_ ?_
  · intro i
    rw [(Parsers.Call.away_of_not_isRunning hold i).1,
      (Parsers.Call.away_of_not_isRunning hrest i).1]
  · intro i p _ _ harr
    rw [(Parsers.Call.away_of_not_isRunning hold i).2] at harr
    cases harr
  · rcases hnew with hp | hp <;> simp [Parsers.Call.IsPlaced, Job.call, hp]

theorem stages_set (h : InOrder w limit size c) (hstage : stage.IsRight w limit job.path) :
    ∀ other ∈ c.members.set k { job with stage }, other.stage.IsRight w limit other.path := by
  intro other hmem
  rcases List.mem_or_eq_of_mem_set hmem with hold | rfl
  · exact h.stages other hold
  · exact hstage

theorem start (h : InOrder w limit size c) (hk : c.members[k]? = some job)
    (hstage : job.stage = .waiting) :
    InOrder w limit size
      ⟨c.shared, c.members.set k { job with stage := .start w limit job.path }⟩ := by
  refine ⟨h.orderly_set hk ?_ ?_, h.right, h.isOpen, h.stages_set (Stage.isRight_start _ _ _)⟩
  · simp [Parsers.Call.isRunning, Job.call, Stage.parse, hstage]
  · rcases Stage.start_cases w limit job.path with ⟨outcome, hstart, -⟩ | ⟨src, hstart, -, -⟩
    · exact Or.inr (by rw [hstart]; rfl)
    · exact Or.inl (by rw [hstart]; rfl)

/-- The parse of a job does not fail: its language is known. -/
theorem eq_parsed (h : InOrder w limit size c) (hjob : job ∈ c.members) {src : Source}
    {pt : Parsers.Point} (hstage : job.stage = .parsing src pt) {r : Except ParseError Parsed}
    (hr : pt.answer? w.frontend (.ofPath job.path) src = some r) : pt = .parsed := by
  have hright := h.stages job hjob
  rw [hstage] at hright
  cases pt with
  | parsed => rfl
  | failed e =>
    have hplaced := h.orderly.placed job.call (List.mem_map_of_mem hjob)
    simp only [Parsers.Call.IsPlaced, Job.call, hstage, Stage.parse] at hplaced
    exact absurd hplaced.1 ((Grammar.isKnown_iff _).1 hright.2)
  | _ => cases hr

theorem afterParse (h : InOrder w limit size c) (hk : c.members[k]? = some job) {src : Source}
    {pt : Parsers.Point} (hstage : job.stage = .parsing src pt) {r : Except ParseError Parsed}
    (hr : pt.answer? w.frontend (.ofPath job.path) src = some r) :
    InOrder w limit size
      ⟨c.shared, c.members.set k { job with stage := .afterParse job.path src r }⟩ := by
  have hmem := List.mem_of_getElem? hk
  have hright := h.stages job hmem
  rw [hstage] at hright
  obtain ⟨hreads, hg⟩ := hright
  cases h.eq_parsed hmem hstage hr
  cases hr
  refine ⟨h.orderly_set hk ?_ ?_, h.right, h.isOpen, h.stages_set ?_⟩
  · simp [Parsers.Call.isRunning, Job.call, Stage.parse, hstage]
  · refine Or.inr ?_
    cases Parsers.answer w.frontend (.ofPath job.path) src <;> rfl
  · exact Stage.isRight_afterParse hreads hg

theorem parsing (h : InOrder w limit size c) (hk : c.members[k]? = some job) {src : Source}
    {pt pt' : Parsers.Point} (hstage : job.stage = .parsing src pt) {parsers : Parsers}
    (hn : pt.next? c.shared.parsers (Grammar.ofPath job.path).language
      (Grammar.ofPath job.path).jsx = some (parsers, pt')) :
    InOrder w limit size
      ⟨{ c.shared with parsers }, c.members.set k { job with stage := .parsing src pt' }⟩ := by
  have hright := h.stages job (List.mem_of_getElem? hk)
  rw [hstage] at hright
  have hcall : (c.members.map Job.call)[k]? = some job.call := by simp [hk]
  have hnext : job.call.next? c.shared.parsers =
      some (parsers, { job.call with point := pt' }) := by
    refine Parsers.Call.next_eq_some_iff.2 ⟨pt', ?_, rfl⟩
    simp only [Job.call, hstage, Stage.parse]
    exact hn
  refine ⟨?_, h.right, h.isOpen, h.stages_set hright⟩
  show Parsers.Orderly size parsers ((c.members.set k _).map Job.call)
  rw [List.map_set]
  exact h.orderly.step hcall hnext

theorem afterQuery (h : InOrder w limit size c) (hk : c.members[k]? = some job) {src : Source}
    {parsed : Parsed} {got : List Query} {r : Except QueryError Compiled}
    (hstage : job.stage = .asking src parsed got (.done r)) :
    InOrder w limit size ⟨c.shared,
      c.members.set k { job with stage := .afterQuery w job.path src parsed got r }⟩ := by
  have hright := h.stages job (List.mem_of_getElem? hk)
  rw [hstage] at hright
  refine ⟨h.orderly_set hk ?_ ?_, h.right, h.isOpen,
    h.stages_set (Stage.isRight_afterQuery hright)⟩
  · simp [Parsers.Call.isRunning, Job.call, Stage.parse, hstage]
  · exact Or.inr (Stage.parse_afterQuery w job.path src parsed got r)

theorem asking (h : InOrder w limit size c) (hk : c.members[k]? = some job) {src : Source}
    {parsed : Parsed} {got : List Query} {pt pt' : Queries.Point}
    (hstage : job.stage = .asking src parsed got pt) {queries : Queries}
    (hn : pt.next? c.shared.queries (.ofPath job.path) (Stage.topic got) = some (queries, pt')) :
    InOrder w limit size ⟨{ c.shared with queries },
      c.members.set k { job with stage := .asking src parsed got pt' }⟩ := by
  have hright := h.stages job (List.mem_of_getElem? hk)
  rw [hstage] at hright
  obtain ⟨hreads, hg, ht, hgot, hlen, hpt, -⟩ := hright
  obtain ⟨hqueries, hpt'⟩ := h.right.next hpt hn
  refine ⟨h.orderly_set hk ?_ (Or.inr rfl), hqueries, (Queries.Point.next_closed hn).trans h.isOpen,
    h.stages_set ⟨hreads, hg, ht, hgot, hlen, hpt', ?_⟩⟩
  · simp [Parsers.Call.isRunning, Job.call, Stage.parse, hstage]
  · rintro e rfl
    rcases hpt' with rfl | ⟨hunknown, -⟩
    · -- nobody has closed the queries
      rcases Queries.Point.next_cases hn with ⟨-, hclosed, -⟩ | ⟨-, -, -, -, heq⟩ |
        ⟨_, -, -, -, -, heq⟩ | ⟨_, _, -, -, -, heq⟩ | ⟨_, -, -, -, heq⟩ | ⟨_, -, -, -, heq⟩
      · rw [h.isOpen] at hclosed
        cases hclosed
      all_goals cases heq
    · rw [hg] at hunknown
      cases hunknown

theorem step (h : InOrder w limit size c) (hs : Crowd.Step (Job.next? w limit) c c') :
    InOrder w limit size c' := by
  obtain ⟨k, hk⟩ := hs
  obtain ⟨job, s', job', hjob, hn, rfl⟩ := Crowd.move_eq_some_iff.1 hk
  obtain ⟨stage, hstage, rfl⟩ := Job.next_eq_some_iff.1 hn
  rcases Stage.next_cases hstage with ⟨hold, rfl, rfl⟩ | ⟨src, pt, r, hold, hr, rfl, rfl⟩ |
    ⟨src, pt, parsers, pt', hold, hpt, rfl, rfl⟩ | ⟨src, parsed, got, r, hold, rfl, rfl⟩ |
    ⟨src, parsed, got, pt, queries, pt', hold, hpt, rfl, rfl⟩
  · exact h.start hjob hold
  · exact h.afterParse hjob hold hr
  · exact h.parsing hjob hold hpt
  · exact h.afterQuery hjob hold
  · exact h.asking hjob hold hpt

theorem runs (h : InOrder w limit size c) (hr : Crowd.Runs (Job.next? w limit) c c') :
    InOrder w limit size c' :=
  hr.keeps (fun _ _ hd hs => hd.step hs) h

end InOrder

end Outline
