import Mathlib.Tactic.SplitIfs
import Outline.Session.Basic

/-!
# The record of a tree

Extraction reads a tree and then works on that tree alone. `FileRecord.ofTree` is the record of a
tree, without parsers and queries; a new session returns exactly this record for a file whose source
parses to the tree.
-/

namespace Outline

/-- The rules for a topic in a language; an unknown language has none. -/
def Topic.rules (topic : Topic) (language : Language) : List Rule :=
  (topic.rules? language).getD []

/-- Both languages have the rules that they share. -/
theorem Topic.mem_rules_of_mem {language : Language} (hknown : language ≠ .unknown) {r : Rule}
    (hr : r ∈ ModuleRules.javascript) : r ∈ Topic.modules.rules language := by
  cases language with
  | unknown => exact absurd rfl hknown
  | javascript => exact hr
  | typescript => exact List.mem_append_left _ hr

/-- The record of the file at a path, read off its tree. -/
def FileRecord.ofTree (w : Workshop) (path : String) (src : Source) (t : Tree) : FileRecord :=
  let language := Language.ofPath path
  let modules := Rule.matchesIn (Topic.rules .modules language) src t
  { path
    language
    symbols := Symbol.ofMatches src (Rule.matchesIn (Topic.rules .symbols language) src t)
    imports := Import.ofMatches w.files path src modules
    exports := Export.ofMatches w.files path src modules
    types := Typing.ofMatches w.priority (Rule.matchesIn (Topic.rules .types language) src t)
    hasSyntaxErrors := t.hasError }

/-- A workshop that reads every source as the given tree. -/
def Workshop.reading (w : Workshop) (t : Tree) : Workshop :=
  { w with frontend := ⟨fun _ _ => some t⟩ }

theorem Grammar.isKnown_iff (g : Grammar) : g.isKnown = true ↔ g.language ≠ .unknown := by
  simp [Grammar.isKnown]

theorem Grammar.of_ofPath (path : String) :
    Grammar.of (Grammar.ofPath path).language (Grammar.ofPath path).jsx = Grammar.ofPath path := by
  simp [Grammar.ofPath, Grammar.of]

theorem Query.of?_eq {g : Grammar} (hg : g.isKnown = true) (topic : Topic) :
    Query.of? g topic = some ⟨g, topic, topic.rules g.language⟩ := by
  rw [Grammar.isKnown_iff] at hg
  obtain ⟨language, jsx⟩ := g
  cases language with
  | unknown => exact absurd rfl hg
  | typescript => cases topic <;> rfl
  | javascript => cases topic <;> rfl

/-- The first parse of a session succeeds if the frontend has a tree. -/
theorem Parsers.parse_new {frontend : Frontend} {path : String} {src : Source} {t : Tree}
    (hg : (Grammar.ofPath path).isKnown = true)
    (ht : frontend.parse (Grammar.ofPath path) src = some t) (n : Nat) :
    let g := Grammar.ofPath path
    ((Parsers.new n).parse frontend g.language g.jsx src).1 = .ok ⟨t, g, src⟩ := by
  have hl : (Grammar.ofPath path).language ≠ .unknown := (Grammar.isKnown_iff _).1 hg
  have hpos : 0 < max n 1 := by omega
  simp [Parsers.parse, Parsers.new, hl, Grammar.of_ofPath, Parsers.poolFor, Parsers.pool?, Pool.new,
    hg, Parsers.parseWith, Pool.acquire, Pool.takeIdle?, Pool.create?, hpos, ht]

/-- New queries are compiled for each topic of a known grammar. -/
theorem Session.querySet_new {g : Grammar} (hg : g.isKnown = true) :
    (Session.querySet .new g).1 =
      .ok ⟨⟨g, .symbols, Topic.rules .symbols g.language⟩,
        ⟨g, .modules, Topic.rules .modules g.language⟩,
        ⟨g, .types, Topic.rules .types g.language⟩⟩ := by
  simp [Session.querySet, Queries.get, Queries.new, Query.of?_eq hg, Queries.find?, Queries.compile]

/-- A query of the tree's own grammar runs on the source that was parsed. -/
theorem Session.run_eq (g : Grammar) (topic : Topic) (rules : List Rule) (t : Tree) (src : Source) :
    Session.run ⟨g, topic, rules⟩ ⟨t, g, src⟩ src = .ok (Rule.matchesIn rules src t) := by
  simp [Session.run, Query.run, Except.mapError]

/-- A new session returns the record of the tree that the frontend gives. -/
theorem Session.extract_new {w : Workshop} {path : String} {src : Source} {t : Tree}
    (hg : (Grammar.ofPath path).isKnown = true)
    (ht : w.frontend.parse (Grammar.ofPath path) src = some t) (n : Nat) :
    (Session.extract w (.new n) path src).1 = .ok (.ofTree w path src t) := by
  have hparse := Parsers.parse_new hg ht n
  have hset := Session.querySet_new hg
  unfold Session.extract Session.new
  simp only [hg, Bool.not_true, Bool.false_eq_true, if_false]
  split
  · rename_i e he
    rw [hparse] at he
    cases he
  · rename_i parsed hp
    rw [hparse] at hp
    cases hp
    simp only [hset, Except.bind, Session.record, Session.run_eq]
    rfl

theorem Session.extract_reading {path : String} (hg : (Grammar.ofPath path).isKnown = true)
    (w : Workshop) (t : Tree) (src : Source) (n : Nat) :
    (Session.extract (w.reading t) (.new n) path src).1 = .ok (.ofTree w path src t) :=
  Session.extract_new (w := w.reading t) hg rfl n

end Outline
