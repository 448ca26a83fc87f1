import Outline.Proofs.Crowds
import Outline.Proofs.PoolRuns
import Outline.Session.Parsers

/-!
# Borrowers

A parse is made of indivisible steps: it looks for the pool of its grammar, looks again and makes
one if there is none, takes an idle parser, or else has one created, or else waits for one, and in
the end brings the parser back. Between two steps of a parse others may take theirs, so that what it
has seen may no longer be true.

`Pool.Point` says how far a borrower has come at a pool, and `Parsers.Point` how far a parse has
come.
-/

namespace Outline

/-! ## Steps of a borrower -/

namespace Pool

/-- How far a borrower has come. -/
inductive Point where
  /-- Asks whether the pool is open. -/
  | asking
  /-- Looks for an idle parser. -/
  | looking
  /-- Saw no idle parser, and asks for a new one. -/
  | creating
  /-- Was refused a new one, and waits until a parser is idle. -/
  | waiting
  | holding
  /-- Still holds the parser, and saw that the pool takes it back. -/
  | returning
  /-- Came to a closed pool. -/
  | refused
  | left
deriving DecidableEq

/-- Whether a borrower at this point has a parser. -/
def Point.holds : Point → Bool
  | holding | returning => true
  | _ => false

/-- Whether a borrower at this point has not yet been lent or refused anything. -/
def Point.arrives : Point → Bool
  | asking | looking | creating => true
  | _ => false

/-- Put a parser among the idle ones, or destroy it if there is no room. -/
def keep (p : Pool) : Pool :=
  if p.idle < p.maxSize then { p with idle := p.idle + 1 } else p

/-- The next step of a borrower. One who waits has none as long as no parser is idle. -/
def next? (p : Pool) : Point → Option (Pool × Point)
  | .asking => some (p, if p.closed then .refused else .looking)
  | .looking =>
    match p.takeIdle? with
    | some rest => some (rest, .holding)
    | none => some (p, .creating)
  | .creating =>
    match p.create? with
    | some rest => some (rest, .holding)
    | none => some (p, .waiting)
  | .waiting => p.takeIdle?.map (·, .holding)
  | .holding => some (p, if p.closed then .left else .returning)
  | .returning => some (p.keep, .left)
  | .refused | .left => none

theorem new_eq_ok {g : Grammar} (hg : g.isKnown = true) (size : Nat) :
    new g size = .ok ⟨g, max size 1, 0, 0, false⟩ := by
  simp [new, hg]

theorem takeIdle?_of_pos {p : Pool} (h : 0 < p.idle) :
    p.takeIdle? = some { p with idle := p.idle - 1 } := by
  have hne : p.idle ≠ 0 := by omega
  simp [takeIdle?, hne]

theorem takeIdle?_of_zero {p : Pool} (h : p.idle = 0) : p.takeIdle? = none := by
  simp [takeIdle?, h]

theorem create?_of_lt {p : Pool} (h : p.created < p.maxSize) :
    p.create? = some { p with created := p.created + 1 } := by
  simp [create?, h]

theorem create?_of_le {p : Pool} (h : p.maxSize ≤ p.created) : p.create? = none := by
  have hnot : ¬ p.created < p.maxSize := by omega
  simp [create?, hnot]

/-- What a borrower can do at an open pool. -/
theorem next_cases {p p' : Pool} {pt pt' : Point} (hc : p.closed = false)
    (h : p.next? pt = some (p', pt')) :
    (pt = .asking ∧ pt' = .looking ∧ p' = p) ∨
    ((pt = .looking ∨ pt = .waiting) ∧ pt' = .holding ∧ 0 < p.idle ∧
      p' = { p with idle := p.idle - 1 }) ∨
    (pt = .looking ∧ pt' = .creating ∧ p.idle = 0 ∧ p' = p) ∨
    (pt = .creating ∧ pt' = .holding ∧ p.created < p.maxSize ∧
      p' = { p with created := p.created + 1 }) ∨
    (pt = .creating ∧ pt' = .waiting ∧ p.maxSize ≤ p.created ∧ p' = p) ∨
    (pt = .holding ∧ pt' = .returning ∧ p' = p) ∨
    (pt = .returning ∧ pt' = .left ∧ p' = p.keep) := by
  cases pt with
  | asking =>
    simp only [next?, hc, Bool.false_eq_true, if_false, Option.some.injEq, Prod.mk.injEq] at h
    exact Or.inl ⟨rfl, h.2.symm, h.1.symm⟩
  | looking =>
    by_cases hi : p.idle = 0
    · simp only [next?, takeIdle?_of_zero hi, Option.some.injEq, Prod.mk.injEq] at h
      exact Or.inr (Or.inr (Or.inl ⟨rfl, h.2.symm, hi, h.1.symm⟩))
    · have hpos : 0 < p.idle := by omega
      simp only [next?, takeIdle?_of_pos hpos, Option.some.injEq, Prod.mk.injEq] at h
      exact Or.inr (Or.inl ⟨Or.inl rfl, h.2.symm, hpos, h.1.symm⟩)
  | creating =>
    by_cases hm : p.created < p.maxSize
    · simp only [next?, create?_of_lt hm, Option.some.injEq, Prod.mk.injEq] at h
      exact Or.inr (Or.inr (Or.inr (Or.inl ⟨rfl, h.2.symm, hm, h.1.symm⟩)))
    · have hle : p.maxSize ≤ p.created := by omega
      simp only [next?, create?_of_le hle, Option.some.injEq, Prod.mk.injEq] at h
      exact Or.inr (Or.inr (Or.inr (Or.inr (Or.inl ⟨rfl, h.2.symm, hle, h.1.symm⟩))))
  | waiting =>
    by_cases hi : p.idle = 0
    · simp [next?, takeIdle?_of_zero hi] at h
    · have hpos : 0 < p.idle := by omega
      simp only [next?, takeIdle?_of_pos hpos, Option.map_some, Option.some.injEq,
        Prod.mk.injEq] at h
      exact Or.inr (Or.inl ⟨Or.inr rfl, h.2.symm, hpos, h.1.symm⟩)
  | holding =>
    simp only [next?, hc, Bool.false_eq_true, if_false, Option.some.injEq, Prod.mk.injEq] at h
    exact Or.inr (Or.inr (Or.inr (Or.inr (Or.inr (Or.inl ⟨rfl, h.2.symm, h.1.symm⟩)))))
  | returning =>
    simp only [next?, Option.some.injEq, Prod.mk.injEq] at h
    exact Or.inr (Or.inr (Or.inr (Or.inr (Or.inr (Or.inr ⟨rfl, h.2.symm, h.1.symm⟩)))))
  | refused => simp [next?] at h
  | left => simp [next?] at h

theorem keep_of_lt {p : Pool} (h : p.idle < p.maxSize) :
    p.keep = { p with idle := p.idle + 1 } := by
  simp [keep, h]

theorem release_eq_keep {p : Pool} (hc : p.closed = false) : p.release = p.keep := by
  simp [release, keep, hc]

/-- A borrower who meets nobody does what `acquire` and `release` do. -/
theorem alone_of_granted {p lent : Pool} (h : p.acquire = .granted lent) :
    Crowd.Alone next? (p, .asking) (lent.release, .left) := by
  have back : ∀ q : Pool, q.closed = false →
      Crowd.Alone next? (q, .holding) (q.release, .left) := by
    intro q hq
    have h1 : next? q .holding = some (q, .returning) := by simp [next?, hq]
    have h2 : next? q .returning = some (q.release, .left) := by
      rw [release_eq_keep hq]
      rfl
    exact .head h1 (.single h2)
  rcases acquire_cases p with ⟨hc, ha⟩ | ⟨hc, hi, ha⟩ | ⟨hc, hi, hm, ha⟩ | ⟨hc, hi, hm, ha⟩
  · simp [ha] at h
  · rw [ha] at h
    cases h
    have h1 : next? p .asking = some (p, .looking) := by simp [next?, hc]
    have h2 : next? p .looking = some ({ p with idle := p.idle - 1 }, .holding) := by
      simp only [next?, takeIdle?_of_pos hi]
    exact .head h1 (.head h2 (back _ hc))
  · rw [ha] at h
    cases h
    have h1 : next? p .asking = some (p, .looking) := by simp [next?, hc]
    have h2 : next? p .looking = some (p, .creating) := by
      simp only [next?, takeIdle?_of_zero hi]
    have h3 : next? p .creating = some ({ p with created := p.created + 1 }, .holding) := by
      simp only [next?, create?_of_lt hm]
    exact .head h1 (.head h2 (.head h3 (back _ hc)))
  · simp [ha] at h

theorem next_grammar {p p' : Pool} {pt pt' : Point} (h : p.next? pt = some (p', pt')) :
    p'.grammar = p.grammar := by
  unfold next? takeIdle? create? keep at h
  split at h <;> grind

end Pool

/-! ## Steps of a parse -/

namespace Parsers

/-- How far a parse has come. -/
inductive Point where
  /-- Has not begun. -/
  | ready
  /-- Has been counted. -/
  | counted
  /-- Looks for the pool of its grammar. -/
  | seeking
  /-- Saw no such pool; looks again, and makes one unless somebody else has. -/
  | missing
  /-- Borrows a parser from the pool at a place in the list of pools. -/
  | borrowing (slot : Nat) (point : Pool.Point)
  | failed (error : ParseError)
  /-- Has parsed, and its parser is back. -/
  | parsed
deriving DecidableEq

/-- A parse in a language. -/
structure Call where
  language : Language
  jsx : Bool
  point : Point
deriving DecidableEq

namespace Call

/-- The grammar that the parse needs. -/
def grammar (c : Call) : Grammar :=
  .of c.language c.jsx

/-- Whether the parse has a parser of the pool at a place. -/
def holdsAt (slot : Nat) (c : Call) : Bool :=
  match c.point with
  | .borrowing i pt => i == slot && pt.holds
  | _ => false

/-- Whether the parse has just come to the pool at a place. -/
def arrivesAt (slot : Nat) (c : Call) : Bool :=
  match c.point with
  | .borrowing i pt => i == slot && pt.arrives
  | _ => false

/-- Whether the parse has begun and is not over. -/
def isRunning (c : Call) : Bool :=
  match c.point with
  | .ready | .failed _ | .parsed => false
  | _ => true

/-- Whether the parse is over. -/
def isOver (c : Call) : Bool :=
  match c.point with
  | .failed _ | .parsed => true
  | _ => false

end Call

/-- The place of the pool of a grammar. -/
def slot? (ps : Parsers) (g : Grammar) : Option Nat :=
  ps.pools.findIdx? (·.grammar == g)

/-- Where a parse is once its borrower has come to a point. -/
def Point.ofBorrower (slot : Nat) (g : Grammar) : Pool.Point → Point
  | .refused => .failed (.acquire (.poolClosed g))
  | .left => .parsed
  | pt => .borrowing slot pt

/-- The next step of a parse, from the point where it is. -/
def Point.next? (ps : Parsers) (language : Language) (jsx : Bool) : Point → Option (Parsers × Point)
  | .ready => some ({ ps with calls := ps.calls + 1 }, .counted)
  | .counted =>
    some (ps,
      if language = .unknown then .failed .unknownLanguage
      else if ps.closed then .failed .closed
      else .seeking)
  | .seeking =>
    match ps.slot? (.of language jsx) with
    | some i => some (ps, .borrowing i .asking)
    | none => some (ps, .missing)
  | .missing =>
    match ps.slot? (.of language jsx), Pool.new (.of language jsx) ps.poolSize with
    | some i, _ => some (ps, .borrowing i .asking)
    | none, .ok p => some ({ ps with pools := ps.pools ++ [p] }, .borrowing ps.pools.length .asking)
    | none, .error e => some (ps, .failed (.pool e))
  | .borrowing i pt =>
    (ps.pools[i]?).bind fun p =>
      (p.next? pt).map fun r =>
        ({ ps with pools := ps.pools.set i r.1 }, .ofBorrower i p.grammar r.2)
  | .failed _ | .parsed => none

/-- What a step of a parse can do. -/
theorem Point.next_cases {ps ps' : Parsers} {language : Language} {jsx : Bool} {pt pt' : Point}
    (h : pt.next? ps language jsx = some (ps', pt')) :
    (pt = .ready ∧ ps' = { ps with calls := ps.calls + 1 } ∧ pt' = .counted) ∨
    (pt = .counted ∧ ps' = ps ∧
      ((language = .unknown ∧ pt' = .failed .unknownLanguage) ∨
        (ps.closed = true ∧ pt' = .failed .closed) ∨
        (language ≠ .unknown ∧ ps.closed = false ∧ pt' = .seeking))) ∨
    (∃ i, (pt = .seeking ∨ pt = .missing) ∧ ps.slot? (.of language jsx) = some i ∧ ps' = ps ∧
      pt' = .borrowing i .asking) ∨
    (pt = .seeking ∧ ps.slot? (.of language jsx) = none ∧ ps' = ps ∧ pt' = .missing) ∨
    (∃ p, pt = .missing ∧ ps.slot? (.of language jsx) = none ∧
      Pool.new (.of language jsx) ps.poolSize = .ok p ∧
      ps' = { ps with pools := ps.pools ++ [p] } ∧ pt' = .borrowing ps.pools.length .asking) ∨
    (∃ e, pt = .missing ∧ Pool.new (.of language jsx) ps.poolSize = .error e ∧ ps' = ps ∧
      pt' = .failed (.pool e)) ∨
    (∃ i b p p' b', pt = .borrowing i b ∧ ps.pools[i]? = some p ∧ p.next? b = some (p', b') ∧
      ps' = { ps with pools := ps.pools.set i p' } ∧ pt' = .ofBorrower i p.grammar b') := by
  cases pt with
  | ready =>
    cases h
    exact Or.inl ⟨rfl, rfl, rfl⟩
  | counted =>
    simp only [next?, Option.some.injEq, Prod.mk.injEq] at h
    refine Or.inr (Or.inl ⟨rfl, h.1.symm, ?_⟩)
    by_cases hl : language = .unknown
    · rw [if_pos hl] at h
      exact Or.inl ⟨hl, h.2.symm⟩
    · rw [if_neg hl] at h
      cases hc : ps.closed with
      | true => exact Or.inr (Or.inl ⟨rfl, by simpa [hc] using h.2.symm⟩)
      | false => exact Or.inr (Or.inr ⟨hl, rfl, by simpa [hc] using h.2.symm⟩)
  | seeking =>
    cases hs : ps.slot? (.of language jsx) with
    | some i =>
      simp only [next?, hs, Option.some.injEq, Prod.mk.injEq] at h
      exact Or.inr (Or.inr (Or.inl ⟨i, Or.inl rfl, rfl, h.1.symm, h.2.symm⟩))
    | none =>
      simp only [next?, hs, Option.some.injEq, Prod.mk.injEq] at h
      exact Or.inr (Or.inr (Or.inr (Or.inl ⟨rfl, rfl, h.1.symm, h.2.symm⟩)))
  | missing =>
    cases hs : ps.slot? (.of language jsx) with
    | some i =>
      simp only [next?, hs, Option.some.injEq, Prod.mk.injEq] at h
      exact Or.inr (Or.inr (Or.inl ⟨i, Or.inr rfl, rfl, h.1.symm, h.2.symm⟩))
    | none =>
      cases hnew : Pool.new (.of language jsx) ps.poolSize with
      | ok p =>
        simp only [next?, hs, hnew, Option.some.injEq, Prod.mk.injEq] at h
        exact Or.inr (Or.inr (Or.inr (Or.inr (Or.inl ⟨p, rfl, rfl, rfl, h.1.symm, h.2.symm⟩))))
      | error e =>
        simp only [next?, hs, hnew, Option.some.injEq, Prod.mk.injEq] at h
        exact Or.inr (Or.inr (Or.inr (Or.inr (Or.inr (Or.inl ⟨e, rfl, rfl, h.1.symm, h.2.symm⟩)))))
  | borrowing i b =>
    obtain ⟨p, hp, hr⟩ := Option.bind_eq_some_iff.1 h
    obtain ⟨⟨p', b'⟩, hb, heq⟩ := Option.map_eq_some_iff.1 hr
    cases heq
    exact Or.inr (Or.inr (Or.inr (Or.inr (Or.inr (Or.inr
      ⟨i, b, p, p', b', rfl, hp, hb, rfl, rfl⟩)))))
  | failed e => cases h
  | parsed => cases h

/-- The next step of a parse. -/
def Call.next? (ps : Parsers) (c : Call) : Option (Parsers × Call) :=
  (c.point.next? ps c.language c.jsx).map fun r => (r.1, { c with point := r.2 })

theorem Call.next_eq_some_iff {ps ps' : Parsers} {c c' : Call} :
    c.next? ps = some (ps', c') ↔
      ∃ pt, c.point.next? ps c.language c.jsx = some (ps', pt) ∧ c' = { c with point := pt } := by
  simp only [Call.next?, Option.map_eq_some_iff, Prod.exists, Prod.mk.injEq]
  constructor
  · rintro ⟨_, pt, hn, rfl, rfl⟩
    exact ⟨pt, hn, rfl⟩
  · rintro ⟨pt, hn, rfl⟩
    exact ⟨ps', pt, hn, rfl, rfl⟩

theorem slot?_eq_some {ps : Parsers} {g : Grammar} {i : Nat} (h : ps.slot? g = some i) :
    ∃ p, ps.pools[i]? = some p ∧ p.grammar = g := by
  obtain ⟨hi, hp, -⟩ := List.findIdx?_eq_some_iff_getElem.1 h
  exact ⟨ps.pools[i], List.getElem?_eq_getElem hi, by simpa using hp⟩

theorem slot?_eq_none {ps : Parsers} {g : Grammar} (h : ps.slot? g = none) :
    ∀ p ∈ ps.pools, p.grammar ≠ g := by
  intro p hp
  simpa using List.findIdx?_eq_none_iff.1 h p hp

/-! ## One parse alone -/

/-- What comes of a parse that has been lent a parser. -/
def answer (frontend : Frontend) (g : Grammar) (src : Source) : Except ParseError Parsed :=
  match frontend.parse g src with
  | some tree => .ok ⟨tree, g, src⟩
  | none => .error .noTree

/-- The answer of a parse that is over. -/
def Point.answer? (frontend : Frontend) (g : Grammar) (src : Source) :
    Point → Option (Except ParseError Parsed)
  | .parsed => some (answer frontend g src)
  | .failed e => some (.error e)
  | _ => none

/-- A parse whose pool has a parser for it. -/
theorem parse_of_granted {ps : Parsers} {language : Language} {jsx : Bool} {p lent : Pool}
    (hl : language ≠ .unknown) (hc : ps.closed = false)
    (hp : ps.poolFor (.of language jsx) = .ok p) (hlent : p.acquire = .granted lent)
    (frontend : Frontend) (src : Source) :
    ps.parse frontend language jsx src =
      (answer frontend p.grammar src,
        { ps with calls := ps.calls + 1, pools := put ps.pools lent.release }) := by
  have hp' : poolFor { ps with calls := ps.calls + 1 } (.of language jsx) = .ok p := hp
  unfold parse
  simp only [hl, if_false, hc, Bool.false_eq_true]
  rw [hc] at hp'
  rw [hp']
  simp only [parseWith, hlent]
  rfl

theorem pool?_of_slot? {ps : Parsers} {g : Grammar} {i : Nat} {p : Pool} (h : ps.slot? g = some i)
    (hp : ps.pools[i]? = some p) : ps.pool? g = some p := by
  obtain ⟨hi, hg, hbefore⟩ := List.findIdx?_eq_some_iff_getElem.1 h
  have hpi : ps.pools[i] = p := by
    rw [List.getElem?_eq_getElem hi] at hp
    exact Option.some.inj hp
  rw [hpi] at hg
  refine List.find?_eq_some_iff_getElem.2 ⟨hg, i, hi, hpi, ?_⟩
  intro j hj
  simpa using hbefore j hj

theorem pool?_of_slot?_none {ps : Parsers} {g : Grammar} (h : ps.slot? g = none) :
    ps.pool? g = none := by
  refine List.find?_eq_none.2 ?_
  intro p hp
  simpa using slot?_eq_none h p hp

theorem put_of_findIdx {pools : List Pool} {p : Pool} {i : Nat}
    (h : pools.findIdx? (·.grammar == p.grammar) = some i) : put pools p = pools.set i p := by
  induction pools generalizing i with
  | nil => simp at h
  | cons q pools ih =>
    rw [List.findIdx?_cons] at h
    by_cases hq : q.grammar = p.grammar
    · have hi : i = 0 := by simpa [hq] using h.symm
      simp [put, hq, hi]
    · have hne : (q.grammar == p.grammar) = false := by simpa using hq
      simp only [hne, Bool.false_eq_true, if_false, Option.map_eq_some_iff] at h
      obtain ⟨j, hj, rfl⟩ := h
      simp [put, hq, ih hj]

theorem put_of_not_mem {pools : List Pool} {p : Pool} (h : ∀ q ∈ pools, q.grammar ≠ p.grammar) :
    put pools p = pools ++ [p] := by
  induction pools with
  | nil => rfl
  | cons q pools ih =>
    have hq := h q List.mem_cons_self
    simp [put, hq, ih fun r hr => h r (List.mem_cons_of_mem q hr)]

/-- The steps of a borrower are steps of its parse. -/
theorem alone_borrowing {p : Pool} {pt : Pool.Point} {q : Pool × Pool.Point}
    (h : Crowd.Alone Pool.next? (p, pt) q) {ps : Parsers} {i : Nat} (hp : ps.pools[i]? = some p)
    (language : Language) (jsx : Bool) :
    q.1.grammar = p.grammar ∧
    Crowd.Alone Call.next? (ps, ⟨language, jsx, .ofBorrower i p.grammar pt⟩)
      ({ ps with pools := ps.pools.set i q.1 }, ⟨language, jsx, .ofBorrower i p.grammar q.2⟩) := by
  have hi : i < ps.pools.length := (List.getElem?_eq_some_iff.1 hp).1
  induction h with
  | refl =>
    have hself : { ps with pools := ps.pools.set i p } = ps := by rw [Crowd.set_eq_self hp]
    rw [hself]
    exact ⟨rfl, .refl⟩
  | @tail q r _ hn ih =>
    obtain ⟨hg, hruns⟩ := ih
    have hnext : q.1.next? q.2 = some (r.1, r.2) := hn
    have hpoint : Point.ofBorrower i p.grammar q.2 = .borrowing i q.2 := by
      cases hq : q.2 with
      | refused => simp [hq, Pool.next?] at hnext
      | left => simp [hq, Pool.next?] at hnext
      | _ => rfl
    refine ⟨(Pool.next_grammar hnext).trans hg, hruns.tail ?_⟩
    refine Call.next_eq_some_iff.2 ⟨_, ?_, rfl⟩
    simp [hpoint, Point.next?, List.getElem?_set_self hi, hnext, List.set_set, hg]

/-- A parse in a known language finds the pool of its grammar, or makes it. -/
theorem alone_seeking {language : Language} (hl : language ≠ .unknown) (jsx : Bool)
    (ps : Parsers) :
    ∃ p pools i, ps.poolFor (.of language jsx) = .ok p ∧ p.grammar = .of language jsx ∧
      (p ∈ ps.pools ∨ p = ⟨.of language jsx, max ps.poolSize 1, 0, 0, false⟩) ∧
      pools[i]? = some p ∧
      (∀ q : Pool, q.grammar = .of language jsx → put ps.pools q = pools.set i q) ∧
      Crowd.Alone Call.next? (ps, ⟨language, jsx, .seeking⟩)
        ({ ps with pools }, ⟨language, jsx, .borrowing i .asking⟩) := by
  cases hs : ps.slot? (.of language jsx) with
  | some i =>
    obtain ⟨p, hp, hg⟩ := slot?_eq_some hs
    refine ⟨p, ps.pools, i, ?_, hg, Or.inl (List.mem_of_getElem? hp), hp, ?_, .single ?_⟩
    · simp [poolFor, pool?_of_slot? hs hp]
    · intro q hq
      apply put_of_findIdx
      rw [hq]
      exact hs
    · simp [Call.next?, Point.next?, hs]
  | none =>
    have hknown : (Grammar.of language jsx).isKnown = true := by
      simp [Grammar.isKnown, Grammar.of, hl]
    have hnew := Pool.new_eq_ok hknown ps.poolSize
    refine ⟨⟨.of language jsx, max ps.poolSize 1, 0, 0, false⟩,
      ps.pools ++ [⟨.of language jsx, max ps.poolSize 1, 0, 0, false⟩], ps.pools.length, ?_, rfl,
      Or.inr rfl, by simp, ?_, ?_⟩
    · simp [poolFor, pool?_of_slot?_none hs, hnew]
    · intro q hq
      rw [put_of_not_mem]
      · simp
      · rw [hq]
        exact slot?_eq_none hs
    · have hmiss : Call.next? ps ⟨language, jsx, .seeking⟩ =
          some (ps, ⟨language, jsx, .missing⟩) := by
        simp [Call.next?, Point.next?, hs]
      refine .head hmiss (.single ?_)
      simp [Call.next?, Point.next?, hs, hnew]

/-- A parse that meets nobody does what `parse` does, if the pool of its grammar has a parser for
    it. -/
theorem parse_alone {ps : Parsers} (hgrant : ∀ p ∈ ps.pools, ∃ lent, p.acquire = .granted lent)
    (language : Language) (jsx : Bool) (frontend : Frontend) (src : Source) :
    ∃ pt, Crowd.Alone Call.next? (ps, ⟨language, jsx, .ready⟩)
        ((ps.parse frontend language jsx src).2, ⟨language, jsx, pt⟩) ∧
      pt.answer? frontend (.of language jsx) src = some (ps.parse frontend language jsx src).1 := by
  have hcount : Call.next? ps ⟨language, jsx, .ready⟩ =
      some ({ ps with calls := ps.calls + 1 }, ⟨language, jsx, .counted⟩) := rfl
  by_cases hl : language = .unknown
  · refine ⟨.failed .unknownLanguage, .head hcount (.single ?_), ?_⟩
    · simp [Call.next?, Point.next?, parse, hl]
    · simp [Point.answer?, parse, hl]
  cases hc : ps.closed with
  | true =>
    refine ⟨.failed .closed, .head hcount (.single ?_), ?_⟩
    · simp [Call.next?, Point.next?, parse, hl, hc]
    · simp [Point.answer?, parse, hl, hc]
  | false =>
    have hseek : Call.next? { ps with calls := ps.calls + 1 } ⟨language, jsx, .counted⟩ =
        some ({ ps with calls := ps.calls + 1 }, ⟨language, jsx, .seeking⟩) := by
      simp [Call.next?, Point.next?, hl, hc]
    obtain ⟨p, pools, i, hfor, hg, hor, hp, hput, hfound⟩ :=
      alone_seeking hl jsx { ps with calls := ps.calls + 1 }
    have hlent : ∃ lent, p.acquire = .granted lent := by
      rcases hor with hmem | rfl
      · exact hgrant p hmem
      · have hpos : 0 < max ps.poolSize 1 := by omega
        simp [Pool.acquire, Pool.takeIdle?, Pool.create?, hpos]
    obtain ⟨lent, hlent⟩ := hlent
    have hslot : ({ ps with calls := ps.calls + 1, pools } : Parsers).pools[i]? = some p := hp
    obtain ⟨hlg, hruns⟩ := alone_borrowing (Pool.alone_of_granted hlent) hslot language jsx
    rw [parse_of_granted hl hc hfor hlent, hg]
    refine ⟨.parsed, .head hcount (.head hseek (hfound.trans ?_)), rfl⟩
    rw [hput _ (hlg.trans hg)]
    exact hruns

end Parsers

end Outline
