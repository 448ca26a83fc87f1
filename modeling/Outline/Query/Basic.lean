import Outline.Language
import Outline.Query.Modules
import Outline.Query.Symbols
import Outline.Query.Types

/-!
# Queries

A query asks one topic of the trees of one grammar. The rules that answer it are fixed for each
language; an unknown language has none.
-/

namespace Outline

/-- What a query asks for. -/
inductive Topic where
  | symbols
  | modules
  | types
deriving DecidableEq, Inhabited

namespace Topic

/-- The name in messages. -/
def name : Topic → String
  | symbols => "symbols"
  | modules => "imports"
  | types => "type-annotations"

/-- All topics. -/
def all : List Topic :=
  [symbols, modules, types]

/-- The rules for a topic in a language; none for an unknown language. -/
def rules? : Topic → Language → Option (List Rule)
  | symbols, .typescript => some SymbolRules.typescript
  | symbols, .javascript => some SymbolRules.javascript
  | modules, .typescript => some ModuleRules.typescript
  | modules, .javascript => some ModuleRules.javascript
  | types, .typescript => some TypeRules.typescript
  | types, .javascript => some TypeRules.javascript
  | _, .unknown => none

end Topic

/-- A query that is ready to run. -/
structure Query where
  grammar : Grammar
  topic : Topic
  rules : List Rule

namespace Query

/-- The query for a topic in a grammar. -/
def of? (grammar : Grammar) (topic : Topic) : Option Query :=
  (topic.rules? grammar.language).map (⟨grammar, topic, ·⟩)

/-- The tags of a pattern: its parts' first, then its own, as they are written down. -/
def tagsOf : Pattern → List Tag
  | .node _ _ _ tag children => tagsOfAll children ++ tag.toList
where
  /-- The tags of several patterns, one after the other. -/
  tagsOfAll : List Pattern → List Tag
    | [] => []
    | p :: ps => tagsOf p ++ tagsOfAll ps

/-- The tags that a query reports, each once, in the order in which the rules mention them. -/
def tags (q : Query) : List Tag :=
  (q.rules.flatMap fun r => tagsOf r.pattern).eraseDups

end Query

end Outline
