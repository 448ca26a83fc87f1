import Mathlib.Data.List.Dedup
import Outline.Proofs.Crowds
import Outline.Proofs.FileRecords

/-!
# Requests for queries

A request for a query first sees whether queries are still given out, then looks into the cache, and
if it finds nothing it looks again with nobody else around and compiles the query. Closing has two
steps: from the first on requests are refused, and the second empties the cache.

Several requests may look into the cache before any of them has put the query there. It is the
second look that keeps a query from being compiled twice.
-/

namespace Outline.Queries

/-! ## Steps -/

/-- How far a request has come. -/
inductive Point where
  | ready
  /-- Looks into the cache. -/
  | looking (query : Query)
  /-- Found nothing; looks again, and compiles the query if it is still not there. -/
  | missing (query : Query)
  | done (result : Except QueryError Compiled)

/-- How far the closing has come. -/
inductive Closing where
  | ready
  /-- Requests are refused, and the cache is to be emptied. -/
  | refusing
  | done

/-- A request, or an order to close. -/
inductive Task where
  | get (grammar : Grammar) (topic : Topic) (point : Point)
  | close (point : Closing)

/-- The next step of a request. -/
def Point.next? (qs : Queries) (g : Grammar) (topic : Topic) : Point → Option (Queries × Point)
  | .ready =>
    if qs.closed then some (qs, .done (.error .closed))
    else match Query.of? g topic with
      | some q => some (qs, .looking q)
      | none => some (qs, .done (.error (.unsupported topic)))
  | .looking q =>
    match qs.find? g topic with
    | some c => some (qs, .done (.ok c))
    | none => some (qs, .missing q)
  | .missing q =>
    match qs.find? g topic with
    | some c => some (qs, .done (.ok c))
    | none => some ((qs.compile q).2, .done (.ok (qs.compile q).1))
  | .done _ => none

namespace Task

/-- The next step of a task. -/
def next? (qs : Queries) : Task → Option (Queries × Task)
  | get g topic pt => (pt.next? qs g topic).map fun r => (r.1, get g topic r.2)
  | close .ready => some ({ qs with closed := true }, close .refusing)
  | close .refusing => some ({ qs with cache := [] }, close .done)
  | close .done => none

/-- Whether the task has not begun. -/
def isReady : Task → Bool
  | get _ _ .ready | close .ready => true
  | _ => false

/-- Whether the task is a request that has begun and has no answer yet. -/
def isUnderWay : Task → Bool
  | get _ _ (.looking _) | get _ _ (.missing _) => true
  | _ => false

/-- What a successful request asked for. -/
def served? : Task → Option (Grammar × Topic)
  | get g topic (.done (.ok _)) => some (g, topic)
  | _ => none

end Task

theorem find?_eq_some {qs : Queries} {g : Grammar} {topic : Topic} {c : Compiled}
    (h : qs.find? g topic = some c) :
    c ∈ qs.cache ∧ c.query.grammar = g ∧ c.query.topic = topic := by
  have hkey := List.find?_some h
  simp only [Bool.and_eq_true, beq_iff_eq] at hkey
  exact ⟨List.mem_of_find?_eq_some h, hkey⟩

theorem find?_eq_none {qs : Queries} {g : Grammar} {topic : Topic} (h : qs.find? g topic = none)
    {c : Compiled} (hc : c ∈ qs.cache) : (c.query.grammar, c.query.topic) ≠ (g, topic) := by
  intro heq
  have hnot := List.find?_eq_none.1 h c hc
  simp_all

theorem of?_grammar {g : Grammar} {topic : Topic} {q : Query} (h : Query.of? g topic = some q) :
    q.grammar = g ∧ q.topic = topic := by
  obtain ⟨rules, -, rfl⟩ := Option.map_eq_some_iff.1 h
  exact ⟨rfl, rfl⟩

theorem of?_eq_none {g : Grammar} (hg : g.isKnown = false) (topic : Topic) :
    Query.of? g topic = none := by
  obtain ⟨language, jsx⟩ := g
  cases language with
  | unknown => cases topic <;> rfl
  | _ => simp [Grammar.isKnown] at hg

/-- What a step of a request can do. -/
theorem Point.next_cases {qs qs' : Queries} {g : Grammar} {topic : Topic} {pt pt' : Point}
    (h : pt.next? qs g topic = some (qs', pt')) :
    (pt = .ready ∧ qs.closed = true ∧ qs' = qs ∧ pt' = .done (.error .closed)) ∨
    (pt = .ready ∧ qs.closed = false ∧ Query.of? g topic = none ∧ qs' = qs ∧
      pt' = .done (.error (.unsupported topic))) ∨
    (∃ q, pt = .ready ∧ qs.closed = false ∧ Query.of? g topic = some q ∧ qs' = qs ∧
      pt' = .looking q) ∨
    (∃ q c, (pt = .looking q ∨ pt = .missing q) ∧ qs.find? g topic = some c ∧ qs' = qs ∧
      pt' = .done (.ok c)) ∨
    (∃ q, pt = .looking q ∧ qs.find? g topic = none ∧ qs' = qs ∧ pt' = .missing q) ∨
    (∃ q, pt = .missing q ∧ qs.find? g topic = none ∧ qs' = (qs.compile q).2 ∧
      pt' = .done (.ok (qs.compile q).1)) := by
  cases pt with
  | ready =>
    cases hc : qs.closed with
    | true =>
      simp only [next?, hc, if_true, Option.some.injEq, Prod.mk.injEq] at h
      exact Or.inl ⟨rfl, rfl, h.1.symm, h.2.symm⟩
    | false =>
      cases hq : Query.of? g topic with
      | none =>
        simp only [next?, hc, hq, Bool.false_eq_true, if_false, Option.some.injEq,
          Prod.mk.injEq] at h
        exact Or.inr (Or.inl ⟨rfl, rfl, rfl, h.1.symm, h.2.symm⟩)
      | some q =>
        simp only [next?, hc, hq, Bool.false_eq_true, if_false, Option.some.injEq,
          Prod.mk.injEq] at h
        exact Or.inr (Or.inr (Or.inl ⟨q, rfl, rfl, rfl, h.1.symm, h.2.symm⟩))
  | looking q =>
    cases hf : qs.find? g topic with
    | some c =>
      simp only [next?, hf, Option.some.injEq, Prod.mk.injEq] at h
      exact Or.inr (Or.inr (Or.inr (Or.inl ⟨q, c, Or.inl rfl, rfl, h.1.symm, h.2.symm⟩)))
    | none =>
      simp only [next?, hf, Option.some.injEq, Prod.mk.injEq] at h
      exact Or.inr (Or.inr (Or.inr (Or.inr (Or.inl ⟨q, rfl, rfl, h.1.symm, h.2.symm⟩))))
  | missing q =>
    cases hf : qs.find? g topic with
    | some c =>
      simp only [next?, hf, Option.some.injEq, Prod.mk.injEq] at h
      exact Or.inr (Or.inr (Or.inr (Or.inl ⟨q, c, Or.inr rfl, rfl, h.1.symm, h.2.symm⟩)))
    | none =>
      simp only [next?, hf, Option.some.injEq, Prod.mk.injEq] at h
      exact Or.inr (Or.inr (Or.inr (Or.inr (Or.inr ⟨q, rfl, rfl, h.1.symm, h.2.symm⟩))))
  | done r => simp [next?] at h

theorem Point.next_closed {qs qs' : Queries} {g : Grammar} {topic : Topic} {pt pt' : Point}
    (h : pt.next? qs g topic = some (qs', pt')) : qs'.closed = qs.closed := by
  rcases next_cases h with ⟨-, -, rfl, -⟩ | ⟨-, -, -, rfl, -⟩ | ⟨_, -, -, -, rfl, -⟩ |
    ⟨_, _, -, -, rfl, -⟩ | ⟨_, -, -, rfl, -⟩ | ⟨_, -, -, rfl, -⟩ <;> rfl

/-- What a step of a task can do. -/
theorem Task.next_cases {qs qs' : Queries} {t t' : Task} (h : t.next? qs = some (qs', t')) :
    (∃ g topic pt pt', t = get g topic pt ∧ t' = get g topic pt' ∧
      pt.next? qs g topic = some (qs', pt')) ∨
    (t = close .ready ∧ qs' = { qs with closed := true } ∧ t' = close .refusing) ∨
    (t = close .refusing ∧ qs' = { qs with cache := [] } ∧ t' = close .done) := by
  cases t with
  | get g topic pt =>
    obtain ⟨⟨_, pt'⟩, hn, hr⟩ := Option.map_eq_some_iff.1 h
    cases hr
    exact Or.inl ⟨g, topic, pt, pt', rfl, rfl, hn⟩
  | close pt =>
    cases pt with
    | ready =>
      cases h
      exact Or.inr (Or.inl ⟨rfl, rfl, rfl⟩)
    | refusing =>
      cases h
      exact Or.inr (Or.inr ⟨rfl, rfl, rfl⟩)
    | done => simp [next?] at h

/-- A request that meets nobody does what `get` does. -/
theorem Point.alone (qs : Queries) (g : Grammar) (topic : Topic) :
    Crowd.Alone (fun qs => Point.next? qs g topic) (qs, .ready)
      ((qs.get g topic).2, .done (qs.get g topic).1) := by
  by_cases hc : qs.closed = true
  · refine .single ?_
    simp [next?, get, hc]
  cases hq : Query.of? g topic with
  | none =>
    refine .single ?_
    simp [next?, get, hc, hq]
  | some q =>
    have hlook : Point.next? qs g topic .ready = some (qs, .looking q) := by
      simp [next?, hc, hq]
    cases hf : qs.find? g topic with
    | some c =>
      refine .head hlook (.single ?_)
      simp [next?, get, hc, hq, hf]
    | none =>
      have hmiss : Point.next? qs g topic (.looking q) = some (qs, .missing q) := by
        simp [next?, hf]
      refine .head hlook (.head hmiss (.single ?_))
      simp [next?, get, hc, hq, hf]

theorem get_alone (qs : Queries) (g : Grammar) (topic : Topic) :
    Crowd.Alone Task.next? (qs, .get g topic .ready)
      ((qs.get g topic).2, .get g topic (.done (qs.get g topic).1)) := by
  refine Crowd.alone_lift (fun p => (p.1, Task.get g topic p.2)) ?_ (Point.alone qs g topic)
  intro p q hn
  simp [Task.next?, hn]

/-- Closing, if it meets nobody, does what `close` does. -/
theorem close_alone (qs : Queries) :
    Crowd.Alone Task.next? (qs, .close .ready) (qs.close, .close .done) :=
  .head rfl (.single rfl)

/-! ## Queries that are what they should be -/

/-- The compiled queries are those that the rules make. -/
def AreRight (qs : Queries) : Prop :=
  ∀ c ∈ qs.cache, Query.of? c.query.grammar c.query.topic = some c.query

/-- A request looks for the right query, gets the right query, or fails for a reason. -/
def Point.IsRight (g : Grammar) (topic : Topic) : Point → Prop
  | .ready => True
  | .looking q | .missing q => Query.of? g topic = some q
  | .done (.ok c) => Query.of? g topic = some c.query
  | .done (.error e) => e = .closed ∨ (g.isKnown = false ∧ e = .unsupported topic)

theorem AreRight.compile {qs : Queries} (h : AreRight qs) {g : Grammar} {topic : Topic} {q : Query}
    (hq : Query.of? g topic = some q) : AreRight (qs.compile q).2 := by
  intro c hc
  rcases List.mem_append.1 hc with hmem | hmem
  · exact h c hmem
  · obtain ⟨hg, ht⟩ := of?_grammar hq
    rw [List.mem_singleton.1 hmem]
    show Query.of? q.grammar q.topic = some q
    rw [hg, ht, hq]

theorem AreRight.of?_find {qs : Queries} (h : AreRight qs) {g : Grammar} {topic : Topic}
    {c : Compiled} (hf : qs.find? g topic = some c) : Query.of? g topic = some c.query := by
  obtain ⟨hc, rfl, rfl⟩ := find?_eq_some hf
  exact h c hc

/-- A step of a request keeps the queries right, and the request as well. -/
theorem AreRight.next {qs qs' : Queries} (h : AreRight qs) {g : Grammar} {topic : Topic}
    {pt pt' : Point} (hpt : pt.IsRight g topic) (hn : pt.next? qs g topic = some (qs', pt')) :
    AreRight qs' ∧ pt'.IsRight g topic := by
  rcases Point.next_cases hn with ⟨-, -, rfl, rfl⟩ | ⟨-, -, hq, rfl, rfl⟩ |
    ⟨q, -, -, hq, rfl, rfl⟩ | ⟨q, c, -, hf, rfl, rfl⟩ | ⟨q, rfl, -, rfl, rfl⟩ |
    ⟨q, rfl, -, rfl, rfl⟩
  · exact ⟨h, Or.inl rfl⟩
  · refine ⟨h, Or.inr ⟨?_, rfl⟩⟩
    cases hg : g.isKnown with
    | false => rfl
    | true => simp [Query.of?_eq hg] at hq
  · exact ⟨h, hq⟩
  · exact ⟨h, h.of?_find hf⟩
  · exact ⟨h, hpt⟩
  · exact ⟨h.compile hpt, hpt⟩

end Outline.Queries
