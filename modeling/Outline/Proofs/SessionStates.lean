import Outline.Proofs.QueryRequests
import Outline.Proofs.RestingParsers

/-!
# States of a session

Parses, requests for queries, extractions and closings may come in any order. Whatever came before,
an extraction does one of four things, and which one it does depends on the language of the file and
on what is closed. If it makes a record, that is the record a new session makes.
-/

namespace Outline

/-! ## Requests one after the other -/

namespace Queries

variable {qs : Queries} {g : Grammar} {topic : Topic}

theorem get_of_closed (hc : qs.closed = true) (g : Grammar) (topic : Topic) :
    qs.get g topic = (.error .closed, qs) := by
  simp [get, hc]

/-- A request neither closes nor opens. -/
theorem closed_get (qs : Queries) (g : Grammar) (topic : Topic) :
    (qs.get g topic).2.closed = qs.closed := by
  unfold Queries.get
  split_ifs
  · rfl
  · split
    · rfl
    · split <;> rfl

theorem AreRight.get (h : AreRight qs) (g : Grammar) (topic : Topic) :
    AreRight (qs.get g topic).2 := by
  by_cases hc : qs.closed = true
  · rw [get_of_closed hc]
    exact h
  cases hq : Query.of? g topic with
  | none => simpa [Queries.get, hc, hq] using h
  | some q =>
    cases hf : qs.find? g topic with
    | some c => simpa [Queries.get, hc, hq, hf] using h
    | none =>
      have hcompile := h.compile hq
      simpa [Queries.get, hc, hq, hf] using hcompile

theorem find?_compile (qs : Queries) (q : Query) (g : Grammar) (topic : Topic) :
    (qs.compile q).2.find? g topic = (qs.find? g topic).or
      (if q.grammar = g ∧ q.topic = topic then some (qs.compile q).1 else none) := by
  by_cases hkey : q.grammar = g ∧ q.topic = topic <;>
    simp [compile, find?, List.find?_append, hkey]

/-- What a request that succeeds leaves: the queries that were there, and the one it asked for. -/
structure Extended (g : Grammar) (topic : Topic) (qs qs' : Queries) : Prop where
  right : AreRight qs'
  isOpen : qs'.closed = false
  kept : qs.cache <+: qs'.cache
  found : (qs'.find? g topic).isSome = true
  other : ∀ topic', topic' ≠ topic → qs'.find? g topic' = qs.find? g topic'
  compilations_eq : qs'.compilations = qs.compilations + (qs.find? g topic).isNone.toNat

/-- A request for a known language, while queries are given out. -/
theorem AreRight.get_eq (h : AreRight qs) (hopen : qs.closed = false) (hg : g.isKnown = true)
    (topic : Topic) :
    ∃ c qs', qs.get g topic = (.ok c, qs') ∧ c.query = ⟨g, topic, topic.rules g.language⟩ ∧
      Extended g topic qs qs' := by
  have hq := Query.of?_eq hg topic
  cases hf : qs.find? g topic with
  | some c =>
    have hget : qs.get g topic = (.ok c, qs) := by simp [Queries.get, hopen, hq, hf]
    have hc := h.of?_find hf
    rw [hq, Option.some.injEq] at hc
    exact ⟨c, qs, hget, hc.symm, h, hopen, List.prefix_refl _, by simp [hf], fun _ _ => rfl,
      by simp [hf]⟩
  | none =>
    have hget : qs.get g topic = (.ok (qs.compile ⟨g, topic, topic.rules g.language⟩).1,
        (qs.compile ⟨g, topic, topic.rules g.language⟩).2) := by
      simp [Queries.get, hopen, hq, hf]
    refine ⟨_, _, hget, rfl, h.compile hq, hopen, List.prefix_append _ _, ?_, ?_, ?_⟩
    · simp [find?_compile]
    · intro topic' hne
      simp [find?_compile, Ne.symm hne]
    · rw [hf]
      rfl

end Queries

/-! ## Extraction, case by case -/

theorem Topic.countP_all (p : Topic → Bool) :
    Topic.all.countP p = (p .symbols).toNat + (p .modules).toNat + (p .types).toNat := by
  cases hs : p .symbols <;> cases hm : p .modules <;> cases ht : p .types <;>
    simp [Topic.all, hs, hm, ht]

/-- A frontend that has a tree for every source in a known grammar. Faults in the source show in
    the tree. -/
def Frontend.IsTotal (frontend : Frontend) : Prop :=
  ∀ g src, g.isKnown = true → ∃ t, frontend.parse g src = some t

/-- The frontend to which every source is an empty file. -/
def Frontend.blank : Frontend :=
  ⟨fun _ src => some (.node ⟨.other "program", none, false, 0, src.size⟩ [])⟩

theorem Frontend.isTotal_blank : Frontend.blank.IsTotal :=
  fun _ _ _ => ⟨_, rfl⟩

namespace Session

variable {w : Workshop} {size : Nat} {s : Session} {path : String}

theorem querySet_of_closed {qs : Queries} (hc : qs.closed = true) (g : Grammar) :
    querySet qs g = (.error (.getQuery .symbols .closed), qs) := by
  simp [querySet, Queries.get_of_closed hc]

/-- The queries of a known grammar, while queries are given out. -/
theorem querySet_eq {qs : Queries} (h : qs.AreRight) (hopen : qs.closed = false) {g : Grammar}
    (hg : g.isKnown = true) :
    ∃ qs', querySet qs g =
        (.ok ⟨⟨g, .symbols, Topic.rules .symbols g.language⟩,
          ⟨g, .modules, Topic.rules .modules g.language⟩,
          ⟨g, .types, Topic.rules .types g.language⟩⟩, qs') ∧
      qs'.AreRight ∧ qs'.closed = false ∧ qs.cache <+: qs'.cache ∧
      (∀ topic, (qs'.find? g topic).isSome = true) ∧
      qs'.compilations =
        qs.compilations + Topic.all.countP fun topic => (qs.find? g topic).isNone := by
  obtain ⟨c₁, qs₁, hget₁, hc₁, h₁⟩ := h.get_eq hopen hg .symbols
  obtain ⟨c₂, qs₂, hget₂, hc₂, h₂⟩ := h₁.right.get_eq h₁.isOpen hg .modules
  obtain ⟨c₃, qs₃, hget₃, hc₃, h₃⟩ := h₂.right.get_eq h₂.isOpen hg .types
  refine ⟨qs₃, ?_, h₃.right, h₃.isOpen, h₁.kept.trans (h₂.kept.trans h₃.kept), ?_, ?_⟩
  · simp only [querySet, hget₁, hget₂, hget₃, hc₁, hc₂, hc₃]
  · intro topic
    cases topic with
    | symbols =>
      rw [h₃.other _ (by decide), h₂.other _ (by decide)]
      exact h₁.found
    | modules =>
      rw [h₃.other _ (by decide)]
      exact h₂.found
    | types => exact h₃.found
  · -- a request does not change whether the other topics have a query
    have hmodules := h₁.other .modules (by decide)
    have htypes : qs₂.find? g .types = qs.find? g .types :=
      (h₂.other .types (by decide)).trans (h₁.other .types (by decide))
    have hcount := Topic.countP_all fun topic => (qs.find? g topic).isNone
    have hcomp₁ := h₁.compilations_eq
    have hcomp₂ := h₂.compilations_eq
    have hcomp₃ := h₃.compilations_eq
    rw [hmodules] at hcomp₂
    rw [htypes] at hcomp₃
    omega

theorem extract_of_unknown (hg : (Grammar.ofPath path).isKnown = false) (src : Source) :
    s.extract w path src = (.error (.unsupportedLanguage path), s) := by
  simp [extract, hg]

theorem extract_of_parse_error {src : Source} {e : ParseError} {parsers : Parsers}
    (hg : (Grammar.ofPath path).isKnown = true)
    (hp : s.parsers.parse w.frontend (Grammar.ofPath path).language (Grammar.ofPath path).jsx src =
      (.error e, parsers)) :
    s.extract w path src = (.error (.parse e), { s with parsers }) := by
  simp [extract, hg, hp]

theorem extract_of_query_error {src : Source} {parsed : Parsed} {parsers : Parsers}
    {queries : Queries} {e : ExtractError} (hg : (Grammar.ofPath path).isKnown = true)
    (hp : s.parsers.parse w.frontend (Grammar.ofPath path).language (Grammar.ofPath path).jsx src =
      (.ok parsed, parsers))
    (hq : querySet s.queries (Grammar.ofPath path) = (.error e, queries)) :
    s.extract w path src = (.error e, ⟨parsers, queries⟩) := by
  simp [extract, hg, hp, hq, Except.bind]

theorem extract_of_ok {src : Source} {t : Tree} {parsers : Parsers} {queries : Queries}
    (hg : (Grammar.ofPath path).isKnown = true)
    (hp : s.parsers.parse w.frontend (Grammar.ofPath path).language (Grammar.ofPath path).jsx src =
      (.ok ⟨t, Grammar.ofPath path, src⟩, parsers))
    (hq : querySet s.queries (Grammar.ofPath path) =
      (.ok ⟨⟨Grammar.ofPath path, .symbols, Topic.rules .symbols (Grammar.ofPath path).language⟩,
        ⟨Grammar.ofPath path, .modules, Topic.rules .modules (Grammar.ofPath path).language⟩,
        ⟨Grammar.ofPath path, .types, Topic.rules .types (Grammar.ofPath path).language⟩⟩,
        queries)) :
    s.extract w path src = (.ok (.ofTree w path src t), ⟨parsers, queries⟩) := by
  simp only [extract, hg, hp, hq, Bool.not_true, Bool.false_eq_true, if_false, Except.bind, record,
    run_eq]
  rfl

/-! ## Sessions at rest -/

/-- No parse is under way, and the compiled queries are right. -/
structure AtRest (size : Nat) (s : Session) : Prop where
  parsers : Parsers.AtRest size s.parsers
  queries : s.queries.AreRight

theorem atRest_new (n : Nat) : AtRest (max n 1) (new n) :=
  ⟨Parsers.atRest_new n, by simp [Queries.AreRight, new, Queries.new]⟩

theorem areRight_querySet {qs : Queries} (h : qs.AreRight) (g : Grammar) :
    (querySet qs g).2.AreRight := by
  have h₁ := h.get g .symbols
  have h₂ := h₁.get g .modules
  have h₃ := h₂.get g .types
  simp only [querySet]
  split
  · exact h₁
  · split
    · exact h₂
    · split
      · exact h₃
      · exact h₃

theorem AtRest.extract (h : AtRest size s) (w : Workshop) (path : String) (src : Source) :
    AtRest size (s.extract w path src).2 := by
  have hparse := h.parsers.parse w.frontend (Grammar.ofPath path).language (Grammar.ofPath path).jsx
    src
  by_cases hg : (Grammar.ofPath path).isKnown = true
  · simp only [Session.extract, hg, Bool.not_true, Bool.false_eq_true, if_false]
    split
    · exact ⟨hparse, h.queries⟩
    · exact ⟨hparse, areRight_querySet h.queries _⟩
  · rw [extract_of_unknown (by simpa using hg)]
    exact h

/-! ## Every state -/

/-- What can be done with a session. -/
inductive Action where
  | parse (frontend : Frontend) (language : Language) (jsx : Bool) (src : Source)
  | getQuery (grammar : Grammar) (topic : Topic)
  | runQuery (query : Query) (parsed : Parsed) (src : Source)
  | extract (w : Workshop) (path : String) (src : Source)
  | closeParsers
  | closeQueries

/-- The session after an action. Running a query does not change it. -/
def act (s : Session) : Action → Session
  | .parse frontend language jsx src =>
    { s with parsers := (s.parsers.parse frontend language jsx src).2 }
  | .getQuery g topic => { s with queries := (s.queries.get g topic).2 }
  | .runQuery _ _ _ => s
  | .extract w path src => (s.extract w path src).2
  | .closeParsers => { s with parsers := s.parsers.close }
  | .closeQueries => { s with queries := s.queries.close }

theorem AtRest.act (h : AtRest size s) (action : Action) : AtRest size (s.act action) := by
  cases action with
  | parse frontend language jsx src => exact ⟨h.parsers.parse frontend language jsx src, h.queries⟩
  | getQuery g topic => exact ⟨h.parsers, h.queries.get g topic⟩
  | runQuery => exact h
  | extract w path src => exact h.extract w path src
  | closeParsers => exact ⟨h.parsers.close, h.queries⟩
  | closeQueries => exact ⟨h.parsers, by simp [Session.act, Queries.close, Queries.AreRight]⟩

theorem AtRest.foldl (h : AtRest size s) (actions : List Action) :
    AtRest size (actions.foldl Session.act s) := by
  induction actions generalizing s with
  | nil => exact h
  | cons action actions ih => exact ih (h.act action)

/-! ## What is closed -/

theorem closed_querySet (qs : Queries) (g : Grammar) : (querySet qs g).2.closed = qs.closed := by
  have h₁ := qs.closed_get g .symbols
  have h₂ := (qs.get g .symbols).2.closed_get g .modules
  have h₃ := ((qs.get g .symbols).2.get g .modules).2.closed_get g .types
  simp only [querySet]
  split
  · exact h₁
  · split
    · exact h₂.trans h₁
    · split
      · exact h₃.trans (h₂.trans h₁)
      · exact h₃.trans (h₂.trans h₁)

theorem closed_extract (s : Session) (w : Workshop) (path : String) (src : Source) :
    (s.extract w path src).2.parsers.closed = s.parsers.closed ∧
      (s.extract w path src).2.queries.closed = s.queries.closed := by
  have hparsers := s.parsers.closed_parse w.frontend (Grammar.ofPath path).language
    (Grammar.ofPath path).jsx src
  by_cases hg : (Grammar.ofPath path).isKnown = true
  · simp only [Session.extract, hg, Bool.not_true, Bool.false_eq_true, if_false]
    split
    · exact ⟨hparsers, rfl⟩
    · exact ⟨hparsers, closed_querySet ..⟩
  · rw [extract_of_unknown (by simpa using hg)]
    exact ⟨rfl, rfl⟩

/-- Each closing closes what it is for, and no other action closes or opens anything. -/
theorem closed_act (s : Session) (action : Action) :
    ((s.act action).parsers.closed = true ↔
        s.parsers.closed = true ∨ action = .closeParsers) ∧
      ((s.act action).queries.closed = true ↔
        s.queries.closed = true ∨ action = .closeQueries) := by
  cases action with
  | parse frontend language jsx src => simp [act, Parsers.closed_parse]
  | getQuery g topic => simp [act, Queries.closed_get]
  | runQuery => simp [act]
  | extract w path src => simp [act, closed_extract]
  | closeParsers => simp [act, Parsers.close]
  | closeQueries => simp [act, Queries.close]

theorem closed_foldl_act (s : Session) (actions : List Action) :
    ((actions.foldl act s).parsers.closed = true ↔
        s.parsers.closed = true ∨ .closeParsers ∈ actions) ∧
      ((actions.foldl act s).queries.closed = true ↔
        s.queries.closed = true ∨ .closeQueries ∈ actions) := by
  induction actions generalizing s with
  | nil => simp
  | cons action actions ih =>
    obtain ⟨hparsers, hqueries⟩ := ih (s.act action)
    obtain ⟨hparsers', hqueries'⟩ := s.closed_act action
    rw [List.foldl_cons, hparsers, hqueries, hparsers', hqueries']
    simp only [List.mem_cons, or_assoc, eq_comm, and_self]

/-! ## What an extraction does -/

/-- What an extraction does, in a session whatever its state. -/
structure AllOrNothing (w : Workshop) (s : Session) (path : String) (src : Source) : Prop where
  /-- The language is looked at first. -/
  unsupported : (Grammar.ofPath path).isKnown = false →
    s.extract w path src = (.error (.unsupportedLanguage path), s)
  parsersClosed : (Grammar.ofPath path).isKnown = true → s.parsers.closed = true →
    s.extract w path src = (.error (.parse .closed),
      { s with parsers := { s.parsers with calls := s.parsers.calls + 1 } })
  queriesClosed : (Grammar.ofPath path).isKnown = true → s.parsers.closed = false →
    s.queries.closed = true →
    ∃ parsers, s.extract w path src = (.error (.getQuery .symbols .closed), ⟨parsers, s.queries⟩) ∧
      Parsers.Served (Grammar.ofPath path) s.parsers parsers
  /-- The record is that of a new session, and the queries are compiled that were not yet. -/
  extracted : (Grammar.ofPath path).isKnown = true → s.parsers.closed = false →
    s.queries.closed = false →
    ∃ record s', s.extract w path src = (.ok record, s') ∧
      (∀ n, ((new n).extract w path src).1 = .ok record) ∧
      Parsers.Served (Grammar.ofPath path) s.parsers s'.parsers ∧
      s'.queries.closed = false ∧ s.queries.cache <+: s'.queries.cache ∧
      (∀ topic, (s'.queries.find? (Grammar.ofPath path) topic).isSome = true) ∧
      s'.queries.compilations = s.queries.compilations +
        Topic.all.countP fun topic => (s.queries.find? (Grammar.ofPath path) topic).isNone
  /-- There are no other errors. -/
  errors : ∀ e, (s.extract w path src).1 = .error e →
    e = .unsupportedLanguage path ∨ e = .parse .closed ∨ e = .getQuery .symbols .closed

/-- With open parsers there is a tree, and the parser is brought back. -/
theorem AtRest.parse_eq (h : AtRest size s) (hopen : s.parsers.closed = false)
    (hg : (Grammar.ofPath path).isKnown = true) {src : Source} {t : Tree}
    (ht : w.frontend.parse (Grammar.ofPath path) src = some t) :
    ∃ parsers, s.parsers.parse w.frontend (Grammar.ofPath path).language (Grammar.ofPath path).jsx
        src = (.ok ⟨t, Grammar.ofPath path, src⟩, parsers) ∧
      Parsers.Served (Grammar.ofPath path) s.parsers parsers := by
  have horderly := h.parsers.orderly hopen
  refine ⟨_, ?_, horderly.served _⟩
  rw [horderly.parse_eq ((Grammar.isKnown_iff _).1 hg), Grammar.of_ofPath]
  simp [Parsers.answer, ht]

theorem extract_parsersClosed (hc : s.parsers.closed = true)
    (hg : (Grammar.ofPath path).isKnown = true) (w : Workshop) (src : Source) :
    s.extract w path src = (.error (.parse .closed),
      { s with parsers := { s.parsers with calls := s.parsers.calls + 1 } }) :=
  extract_of_parse_error hg (Parsers.parse_of_closed hc ((Grammar.isKnown_iff _).1 hg) _ _ _)

theorem AtRest.extract_queriesClosed (h : AtRest size s) (hopen : s.parsers.closed = false)
    (hc : s.queries.closed = true) (hg : (Grammar.ofPath path).isKnown = true) {src : Source}
    {t : Tree} (ht : w.frontend.parse (Grammar.ofPath path) src = some t) :
    ∃ parsers, s.extract w path src = (.error (.getQuery .symbols .closed), ⟨parsers, s.queries⟩) ∧
      Parsers.Served (Grammar.ofPath path) s.parsers parsers := by
  obtain ⟨parsers, hp, hserved⟩ := h.parse_eq hopen hg ht
  exact ⟨parsers, extract_of_query_error hg hp (querySet_of_closed hc _), hserved⟩

theorem AtRest.extract_open (h : AtRest size s) (hopen : s.parsers.closed = false)
    (hqueries : s.queries.closed = false) (hg : (Grammar.ofPath path).isKnown = true) {src : Source}
    {t : Tree} (ht : w.frontend.parse (Grammar.ofPath path) src = some t) :
    ∃ s', s.extract w path src = (.ok (.ofTree w path src t), s') ∧
      Parsers.Served (Grammar.ofPath path) s.parsers s'.parsers ∧
      s'.queries.closed = false ∧ s.queries.cache <+: s'.queries.cache ∧
      (∀ topic, (s'.queries.find? (Grammar.ofPath path) topic).isSome = true) ∧
      s'.queries.compilations = s.queries.compilations +
        Topic.all.countP fun topic => (s.queries.find? (Grammar.ofPath path) topic).isNone := by
  obtain ⟨parsers, hp, hserved⟩ := h.parse_eq hopen hg ht
  obtain ⟨queries, hq, -, hopen', hkept, hfound, hcount⟩ := querySet_eq h.queries hqueries hg
  exact ⟨⟨parsers, queries⟩, extract_of_ok hg hp hq, hserved, hopen', hkept, hfound, hcount⟩

theorem AtRest.allOrNothing (h : AtRest size s) (hw : w.frontend.IsTotal) (path : String)
    (src : Source) : AllOrNothing w s path src where
  unsupported := fun hg => extract_of_unknown hg src
  parsersClosed := fun hg hc => extract_parsersClosed hc hg w src
  queriesClosed := by
    intro hg hopen hc
    obtain ⟨t, ht⟩ := hw _ src hg
    exact h.extract_queriesClosed hopen hc hg ht
  extracted := by
    intro hg hopen hqueries
    obtain ⟨t, ht⟩ := hw _ src hg
    obtain ⟨s', heq, hrest⟩ := h.extract_open hopen hqueries hg ht
    exact ⟨_, s', heq, extract_new hg ht, hrest⟩
  errors := by
    intro e he
    cases hg : (Grammar.ofPath path).isKnown with
    | false =>
      rw [extract_of_unknown hg] at he
      cases he
      exact Or.inl rfl
    | true =>
      obtain ⟨t, ht⟩ := hw _ src hg
      cases hp : s.parsers.closed with
      | true =>
        rw [extract_parsersClosed hp hg] at he
        cases he
        exact Or.inr (Or.inl rfl)
      | false =>
        cases hq : s.queries.closed with
        | true =>
          obtain ⟨parsers, heq, -⟩ := h.extract_queriesClosed hp hq hg ht
          rw [heq] at he
          cases he
          exact Or.inr (Or.inr rfl)
        | false =>
          obtain ⟨s', heq, -⟩ := h.extract_open hp hq hg ht
          rw [heq] at he
          cases he

/-- After any actions on a session, of whatever size its pools are, an extraction gives the record
    that a new session gives, or one of three errors, and the state tells which. Closed is what one
    of the actions closes. -/
theorem extract_allOrNothing (n : Nat) (actions : List Action) (w : Workshop)
    (hw : w.frontend.IsTotal) (path : String) (src : Source) :
    let s := actions.foldl act (new n)
    (s.parsers.closed = true ↔ .closeParsers ∈ actions) ∧
      (s.queries.closed = true ↔ .closeQueries ∈ actions) ∧ AllOrNothing w s path src := by
  have hclosed := closed_foldl_act (new n) actions
  have hparsers : (new n).parsers.closed = false := rfl
  have hqueries : (new n).queries.closed = false := rfl
  simp only [hparsers, hqueries, Bool.false_eq_true, false_or] at hclosed
  exact ⟨hclosed.1, hclosed.2, ((atRest_new n).foldl actions).allOrNothing hw path src⟩

/-- A session that has read a JavaScript file and has one of the TypeScript queries. It can read
    a TypeScript file, until first its queries and then its parsers are closed. -/
theorem extract_allOrNothing_mixed :
    let w : Workshop := ⟨.blank, .empty, .usual⟩
    let src := Source.ofString "\n"
    let actions := [Action.getQuery ⟨.typescript, false⟩ .modules, .extract w "a.js" src]
    let s := actions.foldl act (new 2)
    let s' := (actions ++ [Action.closeQueries]).foldl act (new 2)
    let s'' := (actions ++ [Action.closeQueries, .closeParsers]).foldl act (new 2)
    w.frontend.IsTotal ∧ (Grammar.ofPath "a.ts").isKnown = true ∧
      s.queries.compilations = 4 ∧ s.parsers.calls = 1 ∧
      (∃ record, (s.extract w "a.ts" src).1 = .ok record) ∧
      (s'.extract w "a.ts" src).1 = .error (.getQuery .symbols .closed) ∧
      s''.extract w "a.ts" src = (.error (.parse .closed),
        { s'' with parsers := { s''.parsers with calls := 2 } }) := by
  intro w src actions s s' s''
  have hw : w.frontend.IsTotal := Frontend.isTotal_blank
  have hg : (Grammar.ofPath "a.ts").isKnown = true := by decide
  have hs := (extract_allOrNothing 2 actions w hw "a.ts" src).2.2
  have hs' := (extract_allOrNothing 2 (actions ++ [.closeQueries]) w hw "a.ts" src).2.2
  have hs'' :=
    (extract_allOrNothing 2 (actions ++ [.closeQueries, .closeParsers]) w hw "a.ts" src).2.2
  obtain ⟨record, _, hrecord, -⟩ := hs.extracted hg rfl rfl
  obtain ⟨_, herror, -⟩ := hs'.queriesClosed hg rfl rfl
  exact ⟨hw, hg, rfl, rfl, ⟨record, congrArg Prod.fst hrecord⟩, congrArg Prod.fst herror,
    hs''.parsersClosed hg rfl⟩

end Session

end Outline
