import Outline.Proofs.QueryRequests

/-!
# Shared queries

However many requests are under way at the same time, there is one compiled query for each topic in
each grammar, and everyone who asks for it gets that one. A query that was given out outlasts the
closing of the cache.
-/

namespace Outline.Queries

/-! ## One query for each key -/

/-- What is kept as long as queries are given out. -/
structure Single (qs : Queries) (tasks : List Task) : Prop where
  distinct : (qs.cache.map fun c => (c.query.grammar, c.query.topic)).Nodup
  compilations_eq : qs.compilations = qs.cache.length
  /-- What was given out is in the cache. -/
  given : ∀ g topic c, .get g topic (.done (.ok c)) ∈ tasks → c ∈ qs.cache
  /-- What is in the cache was given out. -/
  asked : ∀ c ∈ qs.cache, .get c.query.grammar c.query.topic (.done (.ok c)) ∈ tasks
  failed : ∀ g topic e, .get g topic (.done (.error e)) ∈ tasks →
    g.isKnown = false ∧ e = .unsupported topic
  waiting : ∀ pt, .close pt ∈ tasks → pt = .ready

namespace Single

variable {qs : Queries} {tasks : List Task} {k : Nat} {g : Grammar} {topic : Topic}

/-- A request that has no answer takes a step that leaves the queries as they are. -/
theorem replace (h : Single qs tasks) {pt pt' : Point} (hk : tasks[k]? = some (.get g topic pt))
    (hpt : ∀ c, pt ≠ .done (.ok c)) (hok : ∀ c, pt' = .done (.ok c) → c ∈ qs.cache)
    (herror : ∀ e, pt' = .done (.error e) → g.isKnown = false ∧ e = .unsupported topic) :
    Single qs (tasks.set k (.get g topic pt')) where
  distinct := h.distinct
  compilations_eq := h.compilations_eq
  given := by
    intro g' topic' c hc
    rcases List.mem_or_eq_of_mem_set hc with hmem | heq
    · exact h.given g' topic' c hmem
    · cases heq
      exact hok c rfl
  asked := by
    intro c hc
    rcases Crowd.eq_or_mem_set hk (h.asked c hc) (.get g topic pt') with heq | hmem
    · cases heq
      exact absurd rfl (hpt c)
    · exact hmem
  failed := by
    intro g' topic' e he
    rcases List.mem_or_eq_of_mem_set he with hmem | heq
    · exact h.failed g' topic' e hmem
    · cases heq
      exact herror e rfl
  waiting := fun pt hpt => h.waiting pt (Crowd.mem_of_mem_set hpt (by simp))

/-- A request compiles a query that is not in the cache. -/
theorem compile (h : Single qs tasks) {q : Query}
    (hk : tasks[k]? = some (.get g topic (.missing q))) (hq : Query.of? g topic = some q)
    (hf : qs.find? g topic = none) :
    Single (qs.compile q).2 (tasks.set k (.get g topic (.done (.ok (qs.compile q).1)))) := by
  obtain ⟨hg, ht⟩ := of?_grammar hq
  refine ⟨?_, ?_, ?_, ?_, ?_, ?_⟩
  · show ((qs.cache ++ [(qs.compile q).1]).map _).Nodup
    rw [List.map_append, List.nodup_append]
    refine ⟨h.distinct, by simp, ?_⟩
    intro key hkey key' hkey'
    obtain ⟨c, hc, rfl⟩ := List.mem_map.1 hkey
    have hnew : key' = (q.grammar, q.topic) := List.mem_singleton.1 hkey'
    rw [hnew, hg, ht]
    exact find?_eq_none hf hc
  · show qs.compilations + 1 = (qs.cache ++ [(qs.compile q).1]).length
    simp [h.compilations_eq]
  · intro g' topic' c hc
    rcases List.mem_or_eq_of_mem_set hc with hmem | heq
    · exact List.mem_append_left _ (h.given g' topic' c hmem)
    · cases heq
      exact List.mem_append_right _ List.mem_cons_self
  · intro c hc
    rcases List.mem_append.1 hc with hmem | hmem
    · rcases Crowd.eq_or_mem_set hk (h.asked c hmem) (.get g topic (.done (.ok (qs.compile q).1)))
        with heq | hset
      · cases heq
      · exact hset
    · obtain rfl : c = (qs.compile q).1 := List.mem_singleton.1 hmem
      have hkey : Task.get (qs.compile q).1.query.grammar (qs.compile q).1.query.topic
          (.done (.ok (qs.compile q).1)) = .get g topic (.done (.ok (qs.compile q).1)) := by
        show Task.get q.grammar q.topic _ = _
        rw [hg, ht]
      rw [hkey]
      exact Crowd.mem_set_self hk _
  · intro g' topic' e he
    exact h.failed g' topic' e (Crowd.mem_of_mem_set he (by simp))
  · intro pt hpt
    exact h.waiting pt (Crowd.mem_of_mem_set hpt (by simp))

/-- A step of a request while queries are given out. -/
theorem next (h : Single qs tasks) (hopen : qs.closed = false) {qs' : Queries} {pt pt' : Point}
    (hk : tasks[k]? = some (.get g topic pt)) (hpt : pt.IsRight g topic)
    (hn : pt.next? qs g topic = some (qs', pt')) :
    Single qs' (tasks.set k (.get g topic pt')) := by
  rcases Point.next_cases hn with ⟨-, hclosed, -⟩ | ⟨rfl, -, hq, rfl, rfl⟩ |
    ⟨q, rfl, -, -, rfl, rfl⟩ | ⟨q, c, hor, hf, rfl, rfl⟩ | ⟨q, rfl, -, rfl, rfl⟩ |
    ⟨q, rfl, hf, rfl, rfl⟩
  · simp [hopen] at hclosed
  · refine h.replace hk (by simp) (by simp) ?_
    rintro e he
    cases he
    refine ⟨?_, rfl⟩
    cases hg : g.isKnown with
    | false => rfl
    | true => simp [Query.of?_eq hg] at hq
  · exact h.replace hk (by simp) (by simp) (by simp)
  · refine h.replace hk ?_ ?_ (by simp)
    · rcases hor with rfl | rfl <;> simp
    · rintro c' hc'
      cases hc'
      exact (find?_eq_some hf).1
  · exact h.replace hk (by simp) (by simp) (by simp)
  · exact h.compile hk hpt hf

/-- Two compiled queries of one key are one. -/
theorem eq_of_key (h : Single qs tasks) {a b : Compiled} (ha : a ∈ qs.cache) (hb : b ∈ qs.cache)
    (hg : a.query.grammar = b.query.grammar) (ht : a.query.topic = b.query.topic) : a = b :=
  List.inj_on_of_nodup_map h.distinct ha hb (by rw [hg, ht])

end Single

/-! ## Runs -/

/-- What every run keeps. -/
structure Orderly (c : Crowd Queries Task) : Prop where
  right : AreRight c.shared
  points : ∀ g topic pt, .get g topic pt ∈ c.members → pt.IsRight g topic
  single : c.shared.closed = false → Single c.shared c.members

theorem orderly_new {tasks : List Task} (h : ∀ t ∈ tasks, t.isReady = true) :
    Orderly ⟨.new, tasks⟩ := by
  have hpoint : ∀ g topic pt, .get g topic pt ∈ tasks → pt = .ready := by
    intro g topic pt hmem
    have hready := h _ hmem
    cases pt with
    | ready => rfl
    | _ => simp [Task.isReady] at hready
  have hclose : ∀ pt, .close pt ∈ tasks → pt = .ready := by
    intro pt hmem
    have hready := h _ hmem
    cases pt with
    | ready => rfl
    | _ => simp [Task.isReady] at hready
  refine ⟨by simp [AreRight, new], ?_, fun _ => ⟨by simp [new], rfl, ?_, by simp [new], ?_, hclose⟩⟩
  · intro g topic pt hmem
    rw [hpoint g topic pt hmem]
    trivial
  · intro g topic c hmem
    cases hpoint g topic _ hmem
  · intro g topic e hmem
    cases hpoint g topic _ hmem

namespace Orderly

variable {c c' : Crowd Queries Task}

theorem step (h : Orderly c) (hs : Crowd.Step Task.next? c c') : Orderly c' := by
  obtain ⟨k, hk⟩ := hs
  obtain ⟨t, qs', t', ht, hn, rfl⟩ := Crowd.move_eq_some_iff.1 hk
  rcases Task.next_cases hn with ⟨g, topic, pt, pt', rfl, rfl, hpt⟩ | ⟨rfl, rfl, rfl⟩ |
    ⟨rfl, rfl, rfl⟩
  · have hright := h.points g topic pt (List.mem_of_getElem? ht)
    obtain ⟨hqs, hright'⟩ := h.right.next hright hpt
    refine ⟨hqs, ?_, ?_⟩
    · intro g' topic' pt'' hmem
      rcases List.mem_or_eq_of_mem_set hmem with hold | heq
      · exact h.points g' topic' pt'' hold
      · cases heq
        exact hright'
    · intro hopen
      have hopen' : c.shared.closed = false := (Point.next_closed hpt).symm.trans hopen
      exact (h.single hopen').next hopen' ht hright hpt
  · refine ⟨h.right, ?_, by simp⟩
    intro g topic pt hmem
    exact h.points g topic pt (Crowd.mem_of_mem_set hmem (by simp))
  · refine ⟨by simp [AreRight], ?_, ?_⟩
    · intro g topic pt hmem
      exact h.points g topic pt (Crowd.mem_of_mem_set hmem (by simp))
    · intro hopen
      cases (h.single hopen).waiting .refusing (List.mem_of_getElem? ht)

theorem runs (h : Orderly c) (hr : Crowd.Runs Task.next? c c') : Orderly c' :=
  hr.keeps (fun _ _ hd hs => hd.step hs) h

/-- Those who asked for the same got the same. -/
theorem same (h : Orderly c) (hopen : c.shared.closed = false) {g : Grammar} {topic : Topic}
    {a b : Compiled} (ha : .get g topic (.done (.ok a)) ∈ c.members)
    (hb : .get g topic (.done (.ok b)) ∈ c.members) : a = b := by
  have hsingle := h.single hopen
  obtain ⟨hag, hat⟩ := of?_grammar (h.points g topic _ ha)
  obtain ⟨hbg, hbt⟩ := of?_grammar (h.points g topic _ hb)
  exact hsingle.eq_of_key (hsingle.given g topic a ha) (hsingle.given g topic b hb)
    (hag.trans hbg.symm) (hat.trans hbt.symm)

/-- The cache has one entry for each key that somebody got a query for. -/
theorem length_cache (h : Orderly c) (hopen : c.shared.closed = false) :
    c.shared.cache.length = (c.members.filterMap Task.served?).dedup.length := by
  have hsingle := h.single hopen
  -- neither list repeats a key, so that it is enough to compare their members
  have hmem : ∀ key, key ∈ c.shared.cache.map (fun c => (c.query.grammar, c.query.topic)) ↔
      key ∈ (c.members.filterMap Task.served?).dedup := by
    intro key
    rw [List.mem_dedup, List.mem_map, List.mem_filterMap]
    constructor
    · rintro ⟨a, ha, rfl⟩
      exact ⟨_, hsingle.asked a ha, rfl⟩
    · rintro ⟨t, ht, hserved⟩
      unfold Task.served? at hserved
      split at hserved
      · rename_i g topic a
        cases hserved
        obtain ⟨hg, htopic⟩ := of?_grammar (h.points g topic _ ht)
        exact ⟨a, hsingle.given g topic a ht, by rw [hg, htopic]⟩
      · cases hserved
  have hperm := (List.perm_ext_iff_of_nodup hsingle.distinct (List.nodup_dedup _)).2 hmem
  rw [← hperm.length_eq, List.length_map]

end Orderly

/-! ## Closing -/

/-- How a task may stand after queries are no longer given out, by how it stood when that began.
    Nothing is said of a request that was under way. -/
inductive Task.Outlasts : Task → Task → Prop
  | ready (g : Grammar) (topic : Topic) : Outlasts (get g topic .ready) (get g topic .ready)
  | refused (g : Grammar) (topic : Topic) :
      Outlasts (get g topic .ready) (get g topic (.done (.error .closed)))
  | answered (g : Grammar) (topic : Topic) (r : Except QueryError Compiled) :
      Outlasts (get g topic (.done r)) (get g topic (.done r))
  | close (pt pt' : Closing) : Outlasts (close pt) (close pt')

theorem Task.outlasts_self {t : Task} (h : t.isUnderWay = false) : t.Outlasts t := by
  cases t with
  | get g topic pt =>
    cases pt with
    | ready => exact .ready g topic
    | done r => exact .answered g topic r
    | _ => simp [isUnderWay] at h
  | close pt => exact .close pt pt

/-- What every run keeps from the closing on. -/
structure Shut (c d : Crowd Queries Task) : Prop where
  closed : d.shared.closed = true
  compilations_eq : d.shared.compilations = c.shared.compilations
  emptied : .close .done ∈ d.members → d.shared.cache = []
  length_eq : d.members.length = c.members.length
  outlasts : ∀ (j : Nat) (t t' : Task), c.members[j]? = some t → d.members[j]? = some t' →
    t.Outlasts t'

namespace Shut

variable {c d d' : Crowd Queries Task}

/-- A later task and the one that it was. -/
theorem exists_before (h : Shut c d) {j : Nat} {t' : Task} (ht : d.members[j]? = some t') :
    ∃ t, c.members[j]? = some t ∧ t.Outlasts t' := by
  obtain ⟨hj, -⟩ := List.getElem?_eq_some_iff.1 ht
  rw [h.length_eq] at hj
  exact ⟨_, List.getElem?_eq_getElem hj, h.outlasts j _ t' (List.getElem?_eq_getElem hj) ht⟩

theorem outlasts_set (h : Shut c d) {k : Nat} {u u' : Task} (hu : d.members[k]? = some u)
    (hkeeps : ∀ t : Task, t.Outlasts u → t.Outlasts u') (j : Nat) (t t' : Task)
    (ht : c.members[j]? = some t) (ht' : (d.members.set k u')[j]? = some t') : t.Outlasts t' := by
  by_cases hkj : k = j
  · subst hkj
    rw [List.getElem?_set_self (List.getElem?_eq_some_iff.1 hu).1] at ht'
    cases ht'
    exact hkeeps t (h.outlasts k t u ht hu)
  · rw [List.getElem?_set_ne hkj] at ht'
    exact h.outlasts j t t' ht ht'

theorem step (h : Shut c d) (hs : Crowd.Step Task.next? d d') : Shut c d' := by
  obtain ⟨k, hk⟩ := hs
  obtain ⟨u, qs', u', hu, hn, rfl⟩ := Crowd.move_eq_some_iff.1 hk
  rcases Task.next_cases hn with ⟨g, topic, pt, pt', rfl, rfl, hpt⟩ | ⟨rfl, rfl, rfl⟩ |
    ⟨rfl, rfl, rfl⟩
  · -- the only step of a request is that it is refused
    obtain ⟨t, -, hout⟩ := h.exists_before hu
    have hready : pt = .ready := by
      cases hout with
      | ready => rfl
      | refused => simp [Point.next?] at hpt
      | answered => simp [Point.next?] at hpt
    subst hready
    have hrefused : some (d.shared, Point.done (.error .closed)) = some (qs', pt') := by
      rw [← hpt]
      simp [Point.next?, h.closed]
    cases hrefused
    refine ⟨h.closed, h.compilations_eq, ?_, by simp [h.length_eq], h.outlasts_set hu ?_⟩
    · intro hmem
      exact h.emptied (Crowd.mem_of_mem_set hmem (by simp))
    · intro t hbefore
      cases hbefore
      exact .refused g topic
  · refine ⟨rfl, h.compilations_eq, ?_, by simp [h.length_eq], h.outlasts_set hu ?_⟩
    · intro hmem
      exact h.emptied (Crowd.mem_of_mem_set hmem (by simp))
    · intro t hbefore
      cases hbefore
      exact .close _ _
  · refine ⟨h.closed, h.compilations_eq, fun _ => rfl, by simp [h.length_eq],
      h.outlasts_set hu ?_⟩
    intro t hbefore
    cases hbefore
    exact .close _ _

theorem runs (h : Shut c d) (hr : Crowd.Runs Task.next? d d') : Shut c d' :=
  hr.keeps (fun _ _ hd hs => hd.step hs) h

end Shut

/-- The first step of a closing that meets no request under way. -/
theorem Orderly.shut {c d : Crowd Queries Task} (h : Orderly c) (hopen : c.shared.closed = false)
    (hrest : ∀ t ∈ c.members, t.isUnderWay = false) {k : Nat}
    (hk : c.members[k]? = some (.close .ready)) (hd : c.move? Task.next? k = some d) :
    Shut c d := by
  obtain ⟨t, qs', t', ht, hn, rfl⟩ := Crowd.move_eq_some_iff.1 hd
  rw [hk] at ht
  cases ht
  cases hn
  refine ⟨rfl, rfl, ?_, by simp, ?_⟩
  · intro hmem
    cases (h.single hopen).waiting .done (Crowd.mem_of_mem_set hmem (by simp))
  · intro j t t' ht ht'
    by_cases hkj : k = j
    · subst hkj
      rw [List.getElem?_set_self (List.getElem?_eq_some_iff.1 hk).1] at ht'
      rw [hk] at ht
      cases ht
      cases ht'
      exact .close _ _
    · rw [List.getElem?_set_ne hkj, ht] at ht'
      cases ht'
      exact Task.outlasts_self (hrest t (List.mem_of_getElem? ht))

/-! ## Every state of every run -/

/-- Running a query finds what the rules of its topic find, in a tree of its grammar whose source is
    as long as the one at hand. The grammar is looked at first. -/
structure Answers (g : Grammar) (topic : Topic) (q : Query) : Prop where
  ok_iff : ∀ parsed src, (∃ ms, q.run parsed src = .ok ms) ↔
    parsed.grammar = g ∧ src.size = parsed.source.size
  of_grammar_ne : ∀ parsed src, parsed.grammar ≠ g →
    q.run parsed src = .error (.grammarMismatch topic g parsed.grammar)
  of_size_ne : ∀ parsed src, parsed.grammar = g → src.size ≠ parsed.source.size →
    q.run parsed src = .error (.sourceMismatch parsed.source.size src.size)
  matches_eq : ∀ parsed src ms, q.run parsed src = .ok ms →
    ms = Rule.matchesIn (topic.rules g.language) src parsed.tree

theorem answers_of? {g : Grammar} {topic : Topic} {q : Query} (hq : Query.of? g topic = some q) :
    Answers g topic q := by
  have hknown : g.isKnown = true := by
    cases hg : g.isKnown with
    | true => rfl
    | false => simp [of?_eq_none hg] at hq
  rw [Query.of?_eq hknown, Option.some.injEq] at hq
  subst hq
  refine ⟨?_, ?_, ?_, ?_⟩
  · intro parsed src
    by_cases hg : parsed.grammar = g
    · by_cases hsize : src.size = parsed.source.size <;> simp [Query.run, hg, hsize]
    · simp [Query.run, hg]
  · intro parsed src hg
    simp [Query.run, hg]
  · intro parsed src hg hsize
    simp [Query.run, hg, hsize]
  · intro parsed src ms hrun
    by_cases hg : parsed.grammar = g
    · by_cases hsize : src.size = parsed.source.size
      · simp only [Query.run, hg, hsize, ne_eq, not_true_eq_false, if_false,
          Except.ok.injEq] at hrun
        exact hrun.symm
      · simp [Query.run, hg, hsize] at hrun
    · simp [Query.run, hg] at hrun

/-- What holds of `d`, at any time after the first step of a closing that was taken in `c`. -/
structure Closed (c d : Crowd Queries Task) : Prop where
  refuses : ∀ g topic, Task.next? d.shared (.get g topic .ready) =
    some (d.shared, .get g topic (.done (.error .closed)))
  cached_eq : .close .done ∈ d.members → d.shared.cache.length = 0
  compilations_eq : d.shared.compilations = c.shared.compilations
  /-- A request that had not begun is refused, if it has begun since. -/
  refused : ∀ (j : Nat) (g : Grammar) (topic : Topic), c.members[j]? = some (.get g topic .ready) →
    d.members[j]? = some (.get g topic .ready) ∨
      d.members[j]? = some (.get g topic (.done (.error .closed)))
  /-- What was given out before stays given out. -/
  kept : ∀ (j : Nat) (g : Grammar) (topic : Topic) (r : Except QueryError Compiled),
    c.members[j]? = some (.get g topic (.done r)) → d.members[j]? = some (.get g topic (.done r))
  same : ∀ g topic a b, .get g topic (.done (.ok a)) ∈ d.members →
    .get g topic (.done (.ok b)) ∈ d.members → a = b

/-- What holds of the queries, and of the tasks that work on them, at any time. -/
structure Sound (c : Crowd Queries Task) : Prop where
  /-- Those who asked for the same got the same. -/
  same : c.shared.closed = false → ∀ g topic a b, .get g topic (.done (.ok a)) ∈ c.members →
    .get g topic (.done (.ok b)) ∈ c.members → a = b
  compilations_eq : c.shared.closed = false → c.shared.compilations = c.shared.cache.length
  cached_eq : c.shared.closed = false →
    c.shared.cache.length = (c.members.filterMap Task.served?).dedup.length
  /-- A request for a known language succeeds. -/
  succeeds : c.shared.closed = false → ∀ g topic r, g.isKnown = true →
    .get g topic (.done r) ∈ c.members → ∃ a, r = .ok a
  /-- A request for an unknown language fails at once and changes nothing. -/
  unsupported : c.shared.closed = false → ∀ g topic, g.isKnown = false →
    Task.next? c.shared (.get g topic .ready) =
        some (c.shared, .get g topic (.done (.error (.unsupported topic)))) ∧
      ∀ pt, .get g topic pt ∈ c.members → pt = .ready ∨ pt = .done (.error (.unsupported topic))
  answers : ∀ g topic a, .get g topic (.done (.ok a)) ∈ c.members → Answers g topic a.query
  /-- A closing that begins while no request is under way. -/
  closes : c.shared.closed = false → (∀ t ∈ c.members, t.isUnderWay = false) →
    ∀ (k : Nat) (c' d : Crowd Queries Task), c.members[k]? = some (.close .ready) →
      c.move? Task.next? k = some c' → Crowd.Runs Task.next? c' d → Closed c d
  /-- A request that goes through without the others taking a step does what `get` does. -/
  get_alone : ∀ (k : Nat) (g : Grammar) (topic : Topic),
    c.members[k]? = some (.get g topic .ready) → Crowd.Runs Task.next? c ⟨(c.shared.get g topic).2,
      c.members.set k (.get g topic (.done (c.shared.get g topic).1))⟩
  close_alone : ∀ k : Nat, c.members[k]? = some (.close .ready) →
    Crowd.Runs Task.next? c ⟨c.shared.close, c.members.set k (.close .done)⟩

/-- Answers after the closing are answers from before it. -/
theorem Shut.mem_of_mem {c d : Crowd Queries Task} (h : Shut c d) {g : Grammar} {topic : Topic}
    {a : Compiled} (ha : .get g topic (.done (.ok a)) ∈ d.members) :
    .get g topic (.done (.ok a)) ∈ c.members := by
  obtain ⟨j, hj⟩ := List.mem_iff_getElem?.1 ha
  obtain ⟨t, ht, hout⟩ := h.exists_before hj
  cases hout
  exact List.mem_of_getElem? ht

/-- A task has a later state. -/
theorem Shut.exists_after {c d : Crowd Queries Task} (h : Shut c d) {j : Nat} {t : Task}
    (ht : c.members[j]? = some t) : ∃ t', d.members[j]? = some t' ∧ t.Outlasts t' := by
  obtain ⟨hj, -⟩ := List.getElem?_eq_some_iff.1 ht
  rw [← h.length_eq] at hj
  exact ⟨_, List.getElem?_eq_getElem hj, h.outlasts j t _ ht (List.getElem?_eq_getElem hj)⟩

theorem Orderly.closed {c d : Crowd Queries Task} (h : Orderly c) (hopen : c.shared.closed = false)
    (hs : Shut c d) : Closed c d where
  refuses := by
    intro g topic
    simp [Task.next?, Point.next?, hs.closed]
  cached_eq := by
    intro hdone
    rw [hs.emptied hdone]
    rfl
  compilations_eq := hs.compilations_eq
  refused := by
    intro j g topic hj
    obtain ⟨t', ht', hout⟩ := hs.exists_after hj
    cases hout with
    | ready => exact Or.inl ht'
    | refused => exact Or.inr ht'
  kept := by
    intro j g topic r hj
    obtain ⟨t', ht', hout⟩ := hs.exists_after hj
    cases hout
    exact ht'
  same := fun _ _ _ _ ha hb => h.same hopen (hs.mem_of_mem ha) (hs.mem_of_mem hb)

theorem Orderly.sound {c : Crowd Queries Task} (h : Orderly c) : Sound c where
  same := fun hopen _ _ _ _ ha hb => h.same hopen ha hb
  compilations_eq := fun hopen => (h.single hopen).compilations_eq
  cached_eq := h.length_cache
  succeeds := by
    intro hopen g topic r hg hmem
    cases r with
    | ok a => exact ⟨a, rfl⟩
    | error e =>
      obtain ⟨hunknown, -⟩ := (h.single hopen).failed g topic e hmem
      simp [hg] at hunknown
  unsupported := by
    intro hopen g topic hg
    have hnone := of?_eq_none hg topic
    refine ⟨by simp [Task.next?, Point.next?, hopen, hnone], ?_⟩
    intro pt hmem
    have hright := h.points g topic pt hmem
    cases pt with
    | ready => exact Or.inl rfl
    | looking q => simp [Point.IsRight, hnone] at hright
    | missing q => simp [Point.IsRight, hnone] at hright
    | done r =>
      cases r with
      | ok a => simp [Point.IsRight, hnone] at hright
      | error e =>
        obtain ⟨-, rfl⟩ := (h.single hopen).failed g topic e hmem
        exact Or.inr rfl
  answers := fun g topic _ hmem => answers_of? (h.points g topic _ hmem)
  closes := fun hopen hrest _ _ _ hk hc' hr => h.closed hopen ((h.shut hopen hrest hk hc').runs hr)
  get_alone := fun _ g topic hk => Crowd.runs_of_alone (get_alone c.shared g topic) hk
  close_alone := fun _ hk => Crowd.runs_of_alone (close_alone c.shared) hk

/-- Any number of requests and closings that take their steps in any order: each query is compiled
    once, everyone who asks for it gets the same one, and it can be run even after the closing. -/
theorem sound_of_requests (tasks : List Task) (hready : ∀ t ∈ tasks, t.isReady = true)
    (c : Crowd Queries Task) (hr : Crowd.Runs Task.next? ⟨.new, tasks⟩ c) : Sound c :=
  ((orderly_new hready).runs hr).sound

/-- Two requests both find the cache empty, and the second gets what the first has compiled. When
    the closing has begun, a request is refused, and in the end the cache is empty. -/
theorem sound_of_requests_race :
    let ts : Grammar := ⟨.typescript, false⟩
    let unknown : Grammar := ⟨.unknown, false⟩
    let a : Compiled := ⟨0, ⟨ts, .symbols, Topic.rules .symbols .typescript⟩⟩
    let c : Crowd Queries Task := ⟨⟨[a], 1, false⟩,
      [.get ts .symbols (.done (.ok a)), .get ts .symbols (.done (.ok a)),
        .get unknown .types (.done (.error (.unsupported .types))), .close .ready,
        .get ts .modules .ready]⟩
    let d : Crowd Queries Task := ⟨⟨[], 1, true⟩,
      [.get ts .symbols (.done (.ok a)), .get ts .symbols (.done (.ok a)),
        .get unknown .types (.done (.error (.unsupported .types))), .close .done,
        .get ts .modules (.done (.error .closed))]⟩
    Crowd.Runs Task.next? ⟨.new, [.get ts .symbols .ready, .get ts .symbols .ready,
        .get unknown .types .ready, .close .ready, .get ts .modules .ready]⟩ c ∧ Sound c ∧
      Crowd.Runs Task.next? c d ∧ Closed c d := by
  intro ts unknown a c d
  have hr : Crowd.Runs Task.next? ⟨.new, [.get ts .symbols .ready, .get ts .symbols .ready,
      .get unknown .types .ready, .close .ready, .get ts .modules .ready]⟩ c :=
    Crowd.runs_of_follow [0, 1, 2, 0, 1, 0, 1] rfl
  have hsound := sound_of_requests _ (by simp [Task.isReady]) c hr
  obtain ⟨c', hclose, hrest⟩ : ∃ c', c.move? Task.next? 3 = some c' ∧ Crowd.Runs Task.next? c' d :=
    ⟨_, rfl, Crowd.runs_of_follow [4, 3] rfl⟩
  exact ⟨hr, hsound, .head ⟨3, hclose⟩ hrest,
    hsound.closes rfl (by simp [c, Task.isUnderWay]) 3 c' d rfl hclose hrest⟩

end Outline.Queries
