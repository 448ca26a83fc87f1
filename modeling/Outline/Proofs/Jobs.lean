import Outline.Proofs.SessionStates
import Outline.Session.Batch

/-!
# Jobs

Several workers may share the files of a batch. A job is the extraction of one file: it reads the
file, parses it, and asks for three queries, one after the other. What other jobs can notice happens
in the steps of a parse and of a request; what they cannot notice is done in one step.

A job that meets no other job does what `Session.extractPath` does. Every step brings a job nearer
to its end.
-/

namespace Outline

/-- The outcome that a result of an extraction stands for. -/
def Outcome.ofResult (path : String) : Except ExtractError FileRecord → Outcome
  | .ok record => .extracted record
  | .error e => .failed ⟨path, e.message⟩

/-- How far a job has come. -/
inductive Stage where
  /-- Nobody has begun it. -/
  | waiting
  | parsing (src : Source) (point : Parsers.Point)
  /-- Has a tree and some of its queries, and asks for the next one. -/
  | asking (src : Source) (parsed : Parsed) (got : List Query) (point : Queries.Point)
  | done (outcome : Outcome)

/-- The extraction of the file at a path. -/
structure Job where
  path : String
  stage : Stage

namespace Stage

/-- The topic to ask for after some queries. -/
def topic : List Query → Topic
  | [] => .symbols
  | [_] => .modules
  | _ => .types

/-- The file is read, unless it has more bytes than the limit. -/
def start (w : Workshop) (limit : Nat) (path : String) : Stage :=
  match w.files.size path, w.files.read path with
  | .error e, _ => .done (Session.unreadable path e)
  | .ok size, contents =>
    if limit < size then .done (.skipped path)
    else match contents with
      | .error e => .done (Session.unreadable path e)
      | .ok bytes =>
        if !(Grammar.ofPath path).isKnown then
          .done (.ofResult path (.error (.unsupportedLanguage path)))
        else .parsing ⟨bytes⟩ .ready

/-- The parse is over. -/
def afterParse (path : String) (src : Source) : Except ParseError Parsed → Stage
  | .error e => .done (.ofResult path (.error (.parse e)))
  | .ok parsed => .asking src parsed [] .ready

/-- The request for a query is over. With the third query the record can be made. -/
def afterQuery (w : Workshop) (path : String) (src : Source) (parsed : Parsed) (got : List Query) :
    Except QueryError Compiled → Stage
  | .error e => .done (.ofResult path (.error (.getQuery (topic got) e)))
  | .ok c =>
    match got with
    | symbols :: modules :: _ =>
      .done (.ofResult path (Session.record w path parsed src ⟨symbols, modules, c.query⟩))
    | _ => .asking src parsed (got ++ [c.query]) .ready

/-- The next step of a job, from the stage where it is. -/
def next? (w : Workshop) (limit : Nat) (s : Session) (path : String) :
    Stage → Option (Session × Stage)
  | waiting => some (s, start w limit path)
  | parsing src pt =>
    match pt.answer? w.frontend (.ofPath path) src with
    | some r => some (s, afterParse path src r)
    | none =>
      (pt.next? s.parsers (Grammar.ofPath path).language (Grammar.ofPath path).jsx).map fun r =>
        ({ s with parsers := r.1 }, parsing src r.2)
  | asking src parsed got (.done r) => some (s, afterQuery w path src parsed got r)
  | asking src parsed got pt =>
    (pt.next? s.queries (.ofPath path) (topic got)).map fun r =>
      ({ s with queries := r.1 }, asking src parsed got r.2)
  | done _ => none

/-- How far the parse of the job has come. -/
def parse : Stage → Parsers.Point
  | waiting => .ready
  | parsing _ pt => pt
  | asking .. | done _ => .parsed

end Stage

namespace Job

/-- A job that nobody has begun. -/
def new (path : String) : Job :=
  ⟨path, .waiting⟩

/-- The next step of a job. -/
def next? (w : Workshop) (limit : Nat) (s : Session) (job : Job) : Option (Session × Job) :=
  (job.stage.next? w limit s job.path).map fun r => (r.1, { job with stage := r.2 })

/-- The parse that is part of the job. -/
def call (job : Job) : Parsers.Call :=
  ⟨(Grammar.ofPath job.path).language, (Grammar.ofPath job.path).jsx, job.stage.parse⟩

/-- Whether a worker is busy with the job. -/
def isBusy (job : Job) : Bool :=
  match job.stage with
  | .parsing .. | .asking .. => true
  | _ => false

/-- What has come of a job that is done. -/
def outcome? (job : Job) : Option Outcome :=
  match job.stage with
  | .done outcome => some outcome
  | _ => none

end Job

/-! ## Steps -/

variable {w : Workshop} {limit : Nat} {s s' : Session} {path : String}

/-- What a step of a job can do. -/
theorem Stage.next_cases {stage stage' : Stage}
    (h : stage.next? w limit s path = some (s', stage')) :
    (stage = waiting ∧ s' = s ∧ stage' = start w limit path) ∨
    (∃ src pt r, stage = parsing src pt ∧ pt.answer? w.frontend (.ofPath path) src = some r ∧
      s' = s ∧ stage' = afterParse path src r) ∨
    (∃ src pt parsers pt', stage = parsing src pt ∧
      pt.next? s.parsers (Grammar.ofPath path).language (Grammar.ofPath path).jsx =
        some (parsers, pt') ∧
      s' = { s with parsers } ∧ stage' = parsing src pt') ∨
    (∃ src parsed got r, stage = asking src parsed got (.done r) ∧ s' = s ∧
      stage' = afterQuery w path src parsed got r) ∨
    (∃ src parsed got pt queries pt', stage = asking src parsed got pt ∧
      pt.next? s.queries (.ofPath path) (topic got) = some (queries, pt') ∧
      s' = { s with queries } ∧ stage' = asking src parsed got pt') := by
  cases stage with
  | waiting =>
    cases h
    exact Or.inl ⟨rfl, rfl, rfl⟩
  | parsing src pt =>
    cases ha : pt.answer? w.frontend (.ofPath path) src with
    | some r =>
      simp only [next?, ha, Option.some.injEq, Prod.mk.injEq] at h
      exact Or.inr (Or.inl ⟨src, pt, r, rfl, ha, h.1.symm, h.2.symm⟩)
    | none =>
      simp only [next?, ha] at h
      obtain ⟨⟨parsers, pt'⟩, hn, heq⟩ := Option.map_eq_some_iff.1 h
      cases heq
      exact Or.inr (Or.inr (Or.inl ⟨src, pt, parsers, pt', rfl, hn, rfl, rfl⟩))
  | asking src parsed got pt =>
    cases pt with
    | done r =>
      cases h
      exact Or.inr (Or.inr (Or.inr (Or.inl ⟨src, parsed, got, r, rfl, rfl, rfl⟩)))
    | _ =>
      obtain ⟨⟨queries, pt'⟩, hn, heq⟩ := Option.map_eq_some_iff.1 h
      cases heq
      exact Or.inr (Or.inr (Or.inr (Or.inr ⟨src, parsed, got, _, queries, pt', rfl, hn, rfl, rfl⟩)))
  | done outcome => cases h

theorem Job.next_eq_some_iff {job job' : Job} :
    job.next? w limit s = some (s', job') ↔
      ∃ stage, job.stage.next? w limit s job.path = some (s', stage) ∧
        job' = { job with stage } := by
  simp only [next?, Option.map_eq_some_iff, Prod.exists, Prod.mk.injEq]
  constructor
  · rintro ⟨_, stage, hn, rfl, rfl⟩
    exact ⟨stage, hn, rfl⟩
  · rintro ⟨stage, hn, rfl⟩
    exact ⟨s', stage, hn, rfl, rfl⟩

/-- The file can be read and has no more bytes than the limit, and this is its source. -/
def Workshop.Reads (w : Workshop) (limit : Nat) (path : String) (src : Source) : Prop :=
  (∃ size, w.files.size path = .ok size ∧ ¬ limit < size) ∧ w.files.read path = .ok src.bytes

theorem Session.extractPath_of_reads {src : Source} (h : w.Reads limit path src) (s : Session) :
    s.extractPath w limit path =
      (.ofResult path (s.extract w path src).1, (s.extract w path src).2) := by
  obtain ⟨⟨size, hsize, hlimit⟩, hread⟩ := h
  simp only [extractPath, hsize, hlimit, hread, if_false]
  rfl

/-- A job is done once the file is read, or it goes on to parse what was read. -/
theorem Stage.start_cases (w : Workshop) (limit : Nat) (path : String) :
    (∃ outcome, start w limit path = done outcome ∧ outcome.record? = none ∧
      ∀ s : Session, s.extractPath w limit path = (outcome, s)) ∨
    (∃ src, start w limit path = parsing src .ready ∧ w.Reads limit path src ∧
      (Grammar.ofPath path).isKnown = true) := by
  cases hsize : w.files.size path with
  | error e =>
    refine Or.inl ⟨Session.unreadable path e, ?_, rfl, fun s => ?_⟩
    · simp [start, hsize]
    · simp [Session.extractPath, hsize]
  | ok size =>
    by_cases hlimit : limit < size
    · refine Or.inl ⟨.skipped path, ?_, rfl, fun s => ?_⟩
      · simp [start, hsize, hlimit]
      · simp [Session.extractPath, hsize, hlimit]
    cases hread : w.files.read path with
    | error e =>
      refine Or.inl ⟨Session.unreadable path e, ?_, rfl, fun s => ?_⟩
      · simp [start, hsize, hlimit, hread]
      · simp [Session.extractPath, hsize, hlimit, hread]
    | ok bytes =>
      have hreads : w.Reads limit path ⟨bytes⟩ := ⟨⟨size, hsize, hlimit⟩, hread⟩
      cases hg : (Grammar.ofPath path).isKnown with
      | false =>
        refine Or.inl ⟨.ofResult path (.error (.unsupportedLanguage path)), ?_, rfl, fun s => ?_⟩
        · simp [start, hsize, hlimit, hread, hg]
        · rw [Session.extractPath_of_reads hreads, Session.extract_of_unknown hg]
      | true => exact Or.inr ⟨⟨bytes⟩, by simp [start, hsize, hlimit, hread, hg], hreads, rfl⟩

/-! ## Every step brings the end nearer -/

/-- A bound on the number of steps that are left, for a borrower. -/
def Pool.Point.rank : Pool.Point → Nat
  | .asking => 6
  | .looking => 5
  | .creating => 4
  | .waiting => 3
  | .holding => 2
  | .returning => 1
  | .refused | .left => 0

/-- A bound on the number of steps that are left, for a parse. -/
def Parsers.Point.rank : Parsers.Point → Nat
  | .ready => 11
  | .counted => 10
  | .seeking => 9
  | .missing => 8
  | .borrowing _ pt => pt.rank + 1
  | .failed _ | .parsed => 0

/-- A bound on the number of steps that are left, for a request. -/
def Queries.Point.rank : Queries.Point → Nat
  | .ready => 3
  | .looking _ => 2
  | .missing _ => 1
  | .done _ => 0

/-- A bound on the number of steps that are left, for a job. -/
def Job.rank (job : Job) : Nat :=
  match job.stage with
  | .waiting => 28
  | .parsing _ pt => 16 + pt.rank
  | .asking _ _ got pt => 5 * (2 - got.length) + pt.rank + 1
  | .done _ => 0

theorem Pool.rank_next {p p' : Pool} {pt pt' : Pool.Point} (h : p.next? pt = some (p', pt')) :
    pt'.rank < pt.rank := by
  cases pt with
  | asking =>
    cases h
    split <;> decide
  | looking =>
    simp only [Pool.next?] at h
    split at h <;> cases h <;> decide
  | creating =>
    simp only [Pool.next?] at h
    split at h <;> cases h <;> decide
  | waiting =>
    obtain ⟨_, -, heq⟩ := Option.map_eq_some_iff.1 h
    cases heq
    decide
  | holding =>
    cases h
    split <;> decide
  | returning =>
    cases h
    decide
  | refused => cases h
  | left => cases h

theorem Parsers.Point.rank_ofBorrower (slot : Nat) (g : Grammar) (pt : Pool.Point) :
    (Parsers.Point.ofBorrower slot g pt).rank ≤ pt.rank + 1 := by
  cases pt <;> simp [ofBorrower, rank]

theorem Parsers.Point.rank_next {ps ps' : Parsers} {language : Language} {jsx : Bool}
    {pt pt' : Parsers.Point} (h : pt.next? ps language jsx = some (ps', pt')) :
    pt'.rank < pt.rank := by
  rcases next_cases h with ⟨rfl, -, rfl⟩ | ⟨rfl, -, hor⟩ | ⟨i, rfl | rfl, -, -, rfl⟩ |
    ⟨rfl, -, -, rfl⟩ | ⟨p, rfl, -, -, -, rfl⟩ | ⟨e, rfl, -, -, rfl⟩ |
    ⟨i, b, p, p', b', rfl, -, hb, -, rfl⟩
  · decide
  · rcases hor with ⟨-, rfl⟩ | ⟨-, rfl⟩ | ⟨-, -, rfl⟩ <;> simp [rank]
  · simp [rank, Pool.Point.rank]
  · simp [rank, Pool.Point.rank]
  · decide
  · simp [rank, Pool.Point.rank]
  · simp [rank]
  · have hlt := Pool.rank_next hb
    have hle := rank_ofBorrower i p.grammar b'
    show (ofBorrower i p.grammar b').rank < b.rank + 1
    omega

theorem Queries.Point.rank_next {qs qs' : Queries} {g : Grammar} {topic : Topic}
    {pt pt' : Queries.Point} (h : pt.next? qs g topic = some (qs', pt')) : pt'.rank < pt.rank := by
  rcases next_cases h with ⟨rfl, -, -, rfl⟩ | ⟨rfl, -, -, -, rfl⟩ | ⟨_, rfl, -, -, -, rfl⟩ |
    ⟨_, _, rfl | rfl, -, -, rfl⟩ | ⟨_, rfl, -, -, rfl⟩ | ⟨_, rfl, -, -, rfl⟩ <;> simp [rank]

theorem Job.rank_next {job job' : Job} (h : job.next? w limit s = some (s', job')) :
    job'.rank < job.rank := by
  obtain ⟨path, stage⟩ := job
  obtain ⟨stage', hn, rfl⟩ := next_eq_some_iff.1 h
  rcases Stage.next_cases hn with ⟨rfl, -, rfl⟩ | ⟨src, pt, r, rfl, -, -, rfl⟩ |
    ⟨src, pt, _, pt', rfl, hpt, -, rfl⟩ | ⟨src, parsed, got, r, rfl, -, rfl⟩ |
    ⟨src, parsed, got, pt, _, pt', rfl, hpt, -, rfl⟩
  · rcases Stage.start_cases w limit path with ⟨outcome, hstart, -⟩ | ⟨src, hstart, -, -⟩
    · simp [rank, hstart]
    · simp [rank, hstart, Parsers.Point.rank]
  · cases r with
    | error e =>
      simp only [rank, Stage.afterParse]
      omega
    | ok parsed =>
      simp only [rank, Stage.afterParse, Queries.Point.rank, List.length_nil]
      omega
  · have hlt := Parsers.Point.rank_next hpt
    simp only [rank]
    omega
  · cases r with
    | error e => simp [rank, Stage.afterQuery]
    | ok c =>
      match got with
      | [] => simp [rank, Stage.afterQuery, Queries.Point.rank]
      | [_] => simp [rank, Stage.afterQuery, Queries.Point.rank]
      | _ :: _ :: _ => simp [rank, Stage.afterQuery]
  · have hlt := Queries.Point.rank_next hpt
    simp only [rank]
    omega

/-! ## One job alone -/

/-- The points of a parse that meets nobody. -/
theorem Parsers.Point.alone {size : Nat} {ps : Parsers} (h : Parsers.Orderly size ps [])
    (language : Language) (jsx : Bool) (frontend : Frontend) (src : Source) :
    ∃ pt, Crowd.Alone (fun ps => Parsers.Point.next? ps language jsx) (ps, .ready)
        ((ps.parse frontend language jsx src).2, pt) ∧
      pt.answer? frontend (.of language jsx) src = some (ps.parse frontend language jsx src).1 := by
  have hgrant : ∀ p ∈ ps.pools, ∃ lent, p.acquire = .granted lent :=
    fun _ hp => h.acquire_of_rest (by simp) hp
  obtain ⟨pt, hruns, hanswer⟩ := parse_alone hgrant language jsx frontend src
  have key : ∀ q, Crowd.Alone Call.next? (ps, ⟨language, jsx, .ready⟩) q →
      q.2.language = language ∧ q.2.jsx = jsx ∧
      Crowd.Alone (fun ps => Parsers.Point.next? ps language jsx) (ps, .ready)
        (q.1, q.2.point) := by
    intro q hq
    induction hq with
    | refl => exact ⟨rfl, rfl, .refl⟩
    | @tail q r _ hn ih =>
      obtain ⟨hl, hj, hr⟩ := ih
      obtain ⟨pt', hpt, hcall⟩ := Call.next_eq_some_iff.1 hn
      rw [hl, hj] at hpt
      rw [hcall]
      exact ⟨hl, hj, hr.tail hpt⟩
  exact ⟨pt, (key _ hruns).2.2, hanswer⟩

namespace Job

/-- A request of a job that meets nobody. -/
theorem alone_asking (got : List Query) {r : Except QueryError Compiled} {queries : Queries}
    (hget : s.queries.get (.ofPath path) (Stage.topic got) = (r, queries)) (w : Workshop)
    (limit : Nat) (src : Source) (parsed : Parsed) :
    Crowd.Alone (next? w limit) (s, ⟨path, .asking src parsed got .ready⟩)
      ({ s with queries }, ⟨path, .afterQuery w path src parsed got r⟩) := by
  have hpoints := Queries.Point.alone s.queries (.ofPath path) (Stage.topic got)
  rw [hget] at hpoints
  have hstep : ∀ p q : Queries × Queries.Point,
      p.2.next? p.1 (.ofPath path) (Stage.topic got) = some q →
      next? w limit { s with queries := p.1 } ⟨path, .asking src parsed got p.2⟩ =
        some ({ s with queries := q.1 }, ⟨path, .asking src parsed got q.2⟩) := by
    rintro ⟨qs, pt⟩ q hn
    cases pt with
    | done r => cases hn
    | _ => simp_all [next?, Stage.next?]
  exact (Crowd.alone_lift (fun p => (({ s with queries := p.1 } : Session),
    (⟨path, .asking src parsed got p.2⟩ : Job))) hstep hpoints).tail rfl

/-- A job that has its tree and meets nobody. -/
theorem alone_record (w : Workshop) (limit : Nat) (s : Session) (path : String) (src : Source)
    (parsed : Parsed) :
    Crowd.Alone (next? w limit) (s, ⟨path, .asking src parsed [] .ready⟩)
      (⟨s.parsers, (Session.querySet s.queries (.ofPath path)).2⟩,
        ⟨path, .done (.ofResult path ((Session.querySet s.queries (.ofPath path)).1.bind
          (Session.record w path parsed src)))⟩) := by
  simp only [Session.querySet]
  cases hget₁ : s.queries.get (.ofPath path) .symbols with | mk r₁ qs₁ =>
  have h₁ := alone_asking [] hget₁ w limit src parsed
  cases r₁ with
  | error e => exact h₁
  | ok c₁ =>
    refine h₁.trans ?_
    cases hget₂ : qs₁.get (.ofPath path) .modules with | mk r₂ qs₂ =>
    have h₂ := alone_asking (s := ⟨s.parsers, qs₁⟩) [c₁.query] hget₂ w limit src parsed
    cases r₂ with
    | error e => exact h₂
    | ok c₂ =>
      refine h₂.trans ?_
      cases hget₃ : qs₂.get (.ofPath path) .types with | mk r₃ qs₃ =>
      have h₃ := alone_asking (s := ⟨s.parsers, qs₂⟩) [c₁.query, c₂.query] hget₃ w limit src
        parsed
      cases r₃ with
      | error e => exact h₃
      | ok c₃ => exact h₃

/-- The parse of a job that meets nobody. -/
theorem alone_parsing {size : Nat} (h : Parsers.Orderly size s.parsers []) (w : Workshop)
    (limit : Nat) (src : Source) {r : Except ParseError Parsed} {parsers : Parsers}
    (hparse : s.parsers.parse w.frontend (Grammar.ofPath path).language (Grammar.ofPath path).jsx
      src = (r, parsers)) :
    Crowd.Alone (next? w limit) (s, ⟨path, .parsing src .ready⟩)
      ({ s with parsers }, ⟨path, .afterParse path src r⟩) := by
  obtain ⟨pt, hpoints, hanswer⟩ := Parsers.Point.alone h (Grammar.ofPath path).language
    (Grammar.ofPath path).jsx w.frontend src
  rw [hparse] at hpoints hanswer
  rw [Grammar.of_ofPath] at hanswer
  have hstep : ∀ p q : Parsers × Parsers.Point,
      p.2.next? p.1 (Grammar.ofPath path).language (Grammar.ofPath path).jsx = some q →
      next? w limit { s with parsers := p.1 } ⟨path, .parsing src p.2⟩ =
        some ({ s with parsers := q.1 }, ⟨path, .parsing src q.2⟩) := by
    rintro ⟨ps, pt⟩ q hn
    have hnone : pt.answer? w.frontend (.ofPath path) src = none := by
      cases pt with
      | parsed => cases hn
      | failed e => cases hn
      | _ => rfl
    simp_all [next?, Stage.next?]
  have hlast : next? w limit { s with parsers } ⟨path, .parsing src pt⟩ =
      some ({ s with parsers }, ⟨path, .afterParse path src r⟩) := by
    simp [next?, Stage.next?, hanswer]
  exact (Crowd.alone_lift (fun p => (({ s with parsers := p.1 } : Session),
    (⟨path, .parsing src p.2⟩ : Job))) hstep hpoints).tail hlast

/-- A job that has read its file and meets nobody does what `Session.extract` does. -/
theorem alone_extract {size : Nat} (h : Parsers.Orderly size s.parsers [])
    (hg : (Grammar.ofPath path).isKnown = true) (w : Workshop) (limit : Nat) (src : Source) :
    Crowd.Alone (next? w limit) (s, ⟨path, .parsing src .ready⟩)
      ((s.extract w path src).2, ⟨path, .done (.ofResult path (s.extract w path src).1)⟩) := by
  simp only [Session.extract, hg, Bool.not_true, Bool.false_eq_true, if_false]
  cases hparse : s.parsers.parse w.frontend (Grammar.ofPath path).language (Grammar.ofPath path).jsx
    src with | mk r parsers =>
  have hparsing := alone_parsing h w limit src hparse
  cases r with
  | error e => exact hparsing
  | ok parsed => exact hparsing.trans (alone_record w limit ⟨parsers, s.queries⟩ path src parsed)

/-- A job that meets nobody does what `Session.extractPath` does. -/
theorem alone_extractPath {size : Nat} (h : Parsers.Orderly size s.parsers []) (w : Workshop)
    (limit : Nat) (path : String) :
    Crowd.Alone (next? w limit) (s, new path)
      ((s.extractPath w limit path).2, ⟨path, .done (s.extractPath w limit path).1⟩) := by
  have hbegin : next? w limit s (new path) = some (s, ⟨path, .start w limit path⟩) := rfl
  rcases Stage.start_cases w limit path with ⟨outcome, hstart, -, heq⟩ | ⟨src, hstart, hreads, hg⟩
  · rw [hstart] at hbegin
    rw [heq]
    exact .single hbegin
  · rw [hstart] at hbegin
    rw [Session.extractPath_of_reads hreads]
    exact .head hbegin (alone_extract h hg w limit src)

end Job

end Outline
