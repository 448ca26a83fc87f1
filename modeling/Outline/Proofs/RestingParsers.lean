import Outline.Proofs.LoanBounds

/-!
# Parsers at rest

While no parse is under way, every parser is idle. A parse that goes through then leaves everything
as it was, except that the pool of its grammar exists and has a parser.
-/

namespace Outline

/-- An idle parser that was lent and is brought back. -/
theorem Pool.release_of_taken {p : Pool} (hc : p.closed = false) (hpos : 0 < p.idle)
    (hle : p.idle ≤ p.maxSize) : ({ p with idle := p.idle - 1 } : Pool).release = p := by
  have hroom : p.idle - 1 < p.maxSize := by omega
  have hsum : p.idle - 1 + 1 = p.idle := by omega
  calc ({ p with idle := p.idle - 1 } : Pool).release
      = { p with idle := p.idle - 1 + 1 } := by simp [release, hc, hroom]
    _ = p := by rw [hsum]

namespace Parsers

/-- No parse is under way. Closed parsers have no pools. -/
def AtRest (size : Nat) (ps : Parsers) : Prop :=
  (ps.closed = true ∧ ps.pools = [] ∧ ps.poolSize = size) ∨ Orderly size ps []

theorem atRest_new (n : Nat) : AtRest (max n 1) (new n) :=
  Or.inr (orderly_new n [])

theorem AtRest.orderly {size : Nat} {ps : Parsers} (h : AtRest size ps)
    (hopen : ps.closed = false) : Orderly size ps [] := by
  rcases h with ⟨hclosed, -⟩ | horderly
  · simp [hopen] at hclosed
  · exact horderly

namespace Orderly

variable {size : Nat} {ps : Parsers} {calls : List Call}

/-- Parses that are over do not matter. -/
theorem of_isOver (h : Orderly size ps calls) (hover : ∀ c ∈ calls, c.isOver = true) :
    Orderly size ps [] := by
  refine ⟨h.isOpen, h.poolSize_eq, h.size_pos, h.distinct, h.regular, ?_, ?_, by simp⟩
  · intro i p hp
    have hb := h.balance i p hp
    have hzero : calls.countP (Call.holdsAt i) = 0 := by
      rw [List.countP_eq_zero]
      intro c hc
      have hco := hover c hc
      cases hpt : c.point <;> simp_all [Call.isOver, Call.holdsAt]
    rw [hzero] at hb
    exact hb
  · intro i p hp hz
    obtain ⟨c, hc, harr⟩ := h.used i p hp hz
    have hco := hover c hc
    cases hpt : c.point <;> simp_all [Call.isOver, Call.arrivesAt]

/-- Parses that have not begun do not matter. -/
theorem of_ready (h : Orderly size ps []) (hready : ∀ c ∈ calls, c.point = .ready) :
    Orderly size ps calls := by
  refine ⟨h.isOpen, h.poolSize_eq, h.size_pos, h.distinct, h.regular, ?_, ?_, ?_⟩
  · intro i p hp
    have hzero : calls.countP (Call.holdsAt i) = 0 := by
      rw [List.countP_eq_zero]
      intro c hc
      simp [Call.holdsAt, hready c hc]
    rw [hzero]
    exact h.balance i p hp
  · intro i p hp hz
    obtain ⟨c, hc, -⟩ := h.used i p hp hz
    simp at hc
  · intro c hc
    simp [Call.IsPlaced, hready c hc]

/-- All parsers are idle, and every pool has one. -/
theorem idle_eq (h : Orderly size ps []) {p : Pool} (hp : p ∈ ps.pools) :
    p.idle = p.created ∧ 0 < p.created := by
  obtain ⟨i, hi⟩ := List.mem_iff_getElem?.1 hp
  refine ⟨by simpa using h.balance i p hi, Nat.pos_of_ne_zero fun hz => ?_⟩
  obtain ⟨c, hc, -⟩ := h.used i p hi hz
  simp at hc

/-- A parse keeps the order: it is a run of one call. -/
theorem parse (h : Orderly size ps []) (frontend : Frontend) (language : Language) (jsx : Bool)
    (src : Source) : Orderly size (ps.parse frontend language jsx src).2 [] := by
  have hgrant : ∀ p ∈ ps.pools, ∃ lent, p.acquire = .granted lent :=
    fun _ hp => h.acquire_of_rest (by simp) hp
  obtain ⟨pt, hruns, hanswer⟩ := parse_alone hgrant language jsx frontend src
  have hcalls : Orderly size ps [⟨language, jsx, .ready⟩] := h.of_ready (by simp)
  have hlast := hcalls.runs (Crowd.runs_of_alone hruns (i := 0) rfl)
  refine hlast.of_isOver ?_
  intro c hc
  obtain rfl : c = ⟨language, jsx, pt⟩ := by simpa using hc
  cases pt <;> simp_all [Point.answer?, Call.isOver]

end Orderly

/-! ## What a parse leaves -/

/-- The pools after a parse in a grammar. -/
def stock (ps : Parsers) (g : Grammar) : List Pool :=
  if (ps.slot? g).isSome then ps.pools else ps.pools ++ [⟨g, ps.poolSize, 1, 1, false⟩]

/-- A parse in a known language gets what the frontend makes of the source, and brings its parser
    back. -/
theorem Orderly.parse_eq {size : Nat} {ps : Parsers} (h : Orderly size ps []) {language : Language}
    (hl : language ≠ .unknown) (jsx : Bool) (frontend : Frontend) (src : Source) :
    ps.parse frontend language jsx src =
      (answer frontend (.of language jsx) src,
        { ps with calls := ps.calls + 1, pools := ps.stock (.of language jsx) }) := by
  cases hs : ps.slot? (.of language jsx) with
  | some i =>
    -- an idle parser is lent and brought back, and its pool is put in its own place
    obtain ⟨p, hp, hg⟩ := slot?_eq_some hs
    obtain ⟨hidle, hpos⟩ := h.idle_eq (List.mem_of_getElem? hp)
    have hreg := h.regular p (List.mem_of_getElem? hp)
    have hlent : p.acquire = .granted { p with idle := p.idle - 1 } := by
      simp [Pool.acquire, hreg.isOpen, Pool.takeIdle?_of_pos (p := p) (by omega)]
    have hback : ({ p with idle := p.idle - 1 } : Pool).release = p := by
      have hle := hreg.created_le
      have hmax := hreg.maxSize_eq
      exact Pool.release_of_taken hreg.isOpen (by omega) (by omega)
    have hfor : ps.poolFor (.of language jsx) = .ok p := by
      simp [poolFor, pool?_of_slot? hs hp]
    have hput : put ps.pools p = ps.pools := by
      have hidx : ps.pools.findIdx? (·.grammar == p.grammar) = some i := by
        rw [hg]
        exact hs
      rw [put_of_findIdx hidx, Crowd.set_eq_self hp]
    rw [parse_of_granted hl h.isOpen hfor hlent, hback, hput, hg]
    simp [stock, hs]
  | none =>
    -- a pool is made, and it makes a parser
    have hknown : (Grammar.of language jsx).isKnown = true := by
      simp [Grammar.isKnown, Grammar.of, hl]
    have hsize : max ps.poolSize 1 = ps.poolSize := by
      have := h.poolSize_eq
      have := h.size_pos
      omega
    have hpos : 0 < ps.poolSize := by omega
    have hfor : ps.poolFor (.of language jsx) =
        .ok ⟨.of language jsx, ps.poolSize, 0, 0, false⟩ := by
      simp [poolFor, pool?_of_slot?_none hs, Pool.new_eq_ok hknown, hsize]
    have hlent : (⟨.of language jsx, ps.poolSize, 0, 0, false⟩ : Pool).acquire =
        .granted ⟨.of language jsx, ps.poolSize, 1, 0, false⟩ := by
      simp [Pool.acquire, Pool.takeIdle?, Pool.create?, hpos]
    have hback : (⟨.of language jsx, ps.poolSize, 1, 0, false⟩ : Pool).release =
        ⟨.of language jsx, ps.poolSize, 1, 1, false⟩ := by
      simp [Pool.release, hpos]
    rw [parse_of_granted hl h.isOpen hfor hlent, hback, put_of_not_mem]
    · simp [stock, hs]
    · exact slot?_eq_none hs

/-- A parse neither closes nor opens. -/
theorem closed_parse (ps : Parsers) (frontend : Frontend) (language : Language) (jsx : Bool)
    (src : Source) : (ps.parse frontend language jsx src).2.closed = ps.closed := by
  simp only [parse]
  split_ifs
  · rfl
  · rfl
  · split
    · unfold parseWith
      split <;> rfl
    · rfl

theorem parse_of_closed {ps : Parsers} (hc : ps.closed = true) {language : Language}
    (hl : language ≠ .unknown) (jsx : Bool) (frontend : Frontend) (src : Source) :
    ps.parse frontend language jsx src = (.error .closed, { ps with calls := ps.calls + 1 }) := by
  simp [parse, hl, hc]

theorem AtRest.parse {size : Nat} {ps : Parsers} (h : AtRest size ps) (frontend : Frontend)
    (language : Language) (jsx : Bool) (src : Source) :
    AtRest size (ps.parse frontend language jsx src).2 := by
  rcases h with ⟨hclosed, hrest⟩ | horderly
  · left
    by_cases hl : language = .unknown
    · simp [Parsers.parse, hl, hclosed, hrest]
    · rw [parse_of_closed hclosed hl]
      exact ⟨hclosed, hrest⟩
  · exact Or.inr (horderly.parse frontend language jsx src)

theorem AtRest.poolSize_eq {size : Nat} {ps : Parsers} (h : AtRest size ps) :
    ps.poolSize = size := by
  rcases h with ⟨-, -, hsize⟩ | horderly
  · exact hsize
  · exact horderly.poolSize_eq

theorem AtRest.close {size : Nat} {ps : Parsers} (h : AtRest size ps) : AtRest size ps.close :=
  Or.inl ⟨rfl, rfl, h.poolSize_eq⟩

/-- What a parse in a grammar leaves: it is counted, every pool is as it was, the grammar has one,
    and no parser is on loan. -/
structure Served (g : Grammar) (ps ps' : Parsers) : Prop where
  calls_eq : ps'.calls = ps.calls + 1
  poolSize_eq : ps'.poolSize = ps.poolSize
  closed_eq : ps'.closed = ps.closed
  kept : ps.pools <+: ps'.pools
  length_eq : ps'.pools.length = ps.pools.length + if (ps.slot? g).isSome then 0 else 1
  returned : ∃ p ∈ ps'.pools, p.grammar = g ∧ 0 < p.idle ∧ p.idle = p.created
  idle_eq : ∀ p ∈ ps'.pools, p.idle = p.created

theorem Orderly.served {size : Nat} {ps : Parsers} (h : Orderly size ps []) (g : Grammar) :
    Served g ps { ps with calls := ps.calls + 1, pools := ps.stock g } := by
  cases hs : ps.slot? g with
  | some i =>
    obtain ⟨p, hp, hg⟩ := slot?_eq_some hs
    have hmem := List.mem_of_getElem? hp
    obtain ⟨hidle, hpos⟩ := h.idle_eq hmem
    have hstock : ps.stock g = ps.pools := by simp [stock, hs]
    rw [hstock]
    exact ⟨rfl, rfl, rfl, List.prefix_refl _, by simp [hs], ⟨p, hmem, hg, by omega, hidle⟩,
      fun q hq => (h.idle_eq hq).1⟩
  | none =>
    have hstock : ps.stock g = ps.pools ++ [⟨g, ps.poolSize, 1, 1, false⟩] := by simp [stock, hs]
    rw [hstock]
    refine ⟨rfl, rfl, rfl, List.prefix_append _ _, by simp [hs], ?_, ?_⟩
    · exact ⟨_, List.mem_append_right _ List.mem_cons_self, rfl, Nat.one_pos, rfl⟩
    intro q hq
    rcases List.mem_append.1 hq with hold | hnew
    · exact (h.idle_eq hold).1
    · rw [List.mem_singleton.1 hnew]

end Parsers

end Outline
