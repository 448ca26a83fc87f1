import Outline.Session.Parsers

/-!
# Query cache

A query is compiled when it is first asked for, and everyone who asks gets the same one. Each
compiled query has a serial number, by which it is known.
-/

namespace Outline

/-- Run a query on a tree. The tree has to be of the query's grammar, and the source as long as the
    one that was parsed. -/
def Query.run (q : Query) (parsed : Parsed) (src : Source) : Except QueryError (List Match) :=
  if parsed.grammar ≠ q.grammar then
    .error (.grammarMismatch q.topic q.grammar parsed.grammar)
  else if src.size ≠ parsed.source.size then
    .error (.sourceMismatch parsed.source.size src.size)
  else .ok (Rule.matchesIn q.rules src parsed.tree)

/-- A compiled query. -/
structure Compiled where
  /-- The number of compilations before this one. -/
  serial : Nat
  query : Query

/-- The compiled queries of a session. -/
structure Queries where
  cache : List Compiled
  compilations : Nat
  closed : Bool

namespace Queries

/-- No queries yet. -/
def new : Queries :=
  ⟨[], 0, false⟩

/-- The compiled query for a topic in a grammar. -/
def find? (qs : Queries) (g : Grammar) (topic : Topic) : Option Compiled :=
  qs.cache.find? fun c => c.query.grammar == g && c.query.topic == topic

/-- Compile a query that is not in the cache. -/
def compile (qs : Queries) (q : Query) : Compiled × Queries :=
  let c : Compiled := ⟨qs.compilations, q⟩
  (c, { qs with cache := qs.cache ++ [c], compilations := qs.compilations + 1 })

/-- Get the query for a topic in a grammar. -/
def get (qs : Queries) (g : Grammar) (topic : Topic) : Except QueryError Compiled × Queries :=
  if qs.closed then (.error .closed, qs)
  else match Query.of? g topic with
    | none => (.error (.unsupported topic), qs)
    | some q =>
      match qs.find? g topic with
      | some c => (.ok c, qs)
      | none =>
        let (c, qs) := qs.compile q
        (.ok c, qs)

/-- Forget all queries. Those given out can still be run. -/
def close (qs : Queries) : Queries :=
  { qs with cache := [], closed := true }

end Queries

end Outline
