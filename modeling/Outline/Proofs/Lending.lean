import Outline.Proofs.Borrowers

/-!
# Lending

`Orderly` is what holds of the pools and of all parses together, whatever the order of their steps:
a grammar has one pool at most, each parser of a pool is idle or with one parse, and each parse is
where the pools let it be. Every step of every parse keeps this order.
-/

namespace Outline

/-- An open pool of the given size, for a grammar that exists. -/
structure Pool.IsRegular (size : Nat) (p : Pool) : Prop where
  isOpen : p.closed = false
  maxSize_eq : p.maxSize = size
  created_le : p.created ≤ size
  known : p.grammar.isKnown = true
  normal : Grammar.of p.grammar.language p.grammar.jsx = p.grammar

namespace Parsers

/-- What a parse relies on at the point where it is. One who waits has seen the pool full, and a
    pool that was full stays so. -/
def Call.IsPlaced (ps : Parsers) (c : Call) : Prop :=
  match c.point with
  | .ready | .counted | .parsed => True
  | .seeking | .missing => c.language ≠ .unknown
  | .borrowing i pt => ∃ p, ps.pools[i]? = some p ∧ p.grammar = c.grammar ∧
      (pt = .waiting → p.maxSize ≤ p.created) ∧ pt ≠ .refused ∧ pt ≠ .left
  | .failed e => c.language = .unknown ∧ e = .unknownLanguage

/-- The pools and the parses that use them are in order. -/
structure Orderly (size : Nat) (ps : Parsers) (calls : List Call) : Prop where
  isOpen : ps.closed = false
  poolSize_eq : ps.poolSize = size
  size_pos : 0 < size
  distinct : (ps.pools.map (·.grammar)).Nodup
  regular : ∀ p ∈ ps.pools, p.IsRegular size
  balance : ∀ i p, ps.pools[i]? = some p → p.idle + calls.countP (Call.holdsAt i) = p.created
  /-- Nobody makes a pool without wanting a parser from it. -/
  used : ∀ i p, ps.pools[i]? = some p → p.created = 0 → ∃ c ∈ calls, c.arrivesAt i = true
  placed : ∀ c ∈ calls, c.IsPlaced ps

/-- Every pool keeps its place, its grammar and its size, and loses no parser. -/
def Grow (ps ps' : Parsers) : Prop :=
  ∀ (i : Nat) (p : Pool), ps.pools[i]? = some p → ∃ p', ps'.pools[i]? = some p' ∧
    p'.grammar = p.grammar ∧ p'.maxSize = p.maxSize ∧ p.created ≤ p'.created

theorem Call.IsPlaced.mono {ps ps' : Parsers} {c : Call} (h : c.IsPlaced ps)
    (hgrow : Grow ps ps') : c.IsPlaced ps' := by
  unfold Call.IsPlaced at h ⊢
  split at h
  · trivial
  · trivial
  · trivial
  · exact h
  · exact h
  · obtain ⟨p, hp, hg, hw, hr, hl⟩ := h
    obtain ⟨p', hp', hg', hm', hc'⟩ := hgrow _ p hp
    refine ⟨p', hp', hg'.trans hg, ?_, hr, hl⟩
    intro hpt
    have := hw hpt
    omega
  · exact h

theorem Call.IsPlaced.holdsAt_of_le {ps : Parsers} {c : Call} (h : c.IsPlaced ps) {i : Nat}
    (hi : ps.pools.length ≤ i) : c.holdsAt i = false := by
  unfold Call.holdsAt
  unfold Call.IsPlaced at h
  split
  · rename_i j pt hpt
    simp only [hpt] at h
    obtain ⟨p, hp, -⟩ := h
    have hj : j < ps.pools.length := (List.getElem?_eq_some_iff.1 hp).1
    have hne : j ≠ i := by omega
    simp [hne]
  · rfl

namespace Orderly

variable {size : Nat} {ps : Parsers} {calls : List Call} {k : Nat} {c : Call}

/-- A step that moves no parser and makes no pool. -/
theorem replace (h : Orderly size ps calls) (hk : calls[k]? = some c) {ps' : Parsers} {c' : Call}
    (hpools : ps'.pools = ps.pools) (hsize : ps'.poolSize = ps.poolSize)
    (hclosed : ps'.closed = ps.closed) (hheld : ∀ i, c'.holdsAt i = c.holdsAt i)
    (harr : ∀ i p, ps.pools[i]? = some p → p.created = 0 → c.arrivesAt i = true →
      c'.arrivesAt i = true)
    (hplaced : c'.IsPlaced ps) : Orderly size ps' (calls.set k c') := by
  refine ⟨hclosed.trans h.isOpen, hsize.trans h.poolSize_eq, h.size_pos, ?_, ?_, ?_, ?_, ?_⟩
  · rw [hpools]
    exact h.distinct
  · rw [hpools]
    exact h.regular
  · intro i p hp
    rw [hpools] at hp
    have hb := h.balance i p hp
    have hcount := Crowd.countP_set_add hk (Call.holdsAt i) c'
    rw [hheld i] at hcount
    omega
  · intro i p hp hz
    rw [hpools] at hp
    obtain ⟨d, hd, ha⟩ := h.used i p hp hz
    rcases Crowd.eq_or_mem_set hk hd c' with rfl | hmem
    · exact ⟨c', Crowd.mem_set_self hk c', harr i p hp hz ha⟩
    · exact ⟨d, hmem, ha⟩
  · have hgrow : Grow ps ps' := by
      intro i p hp
      rw [hpools]
      exact ⟨p, hp, rfl, rfl, Nat.le_refl _⟩
    intro d hd
    rcases List.mem_or_eq_of_mem_set hd with hmem | rfl
    · exact (h.placed d hmem).mono hgrow
    · exact hplaced.mono hgrow

/-- A step that changes one pool. -/
theorem update (h : Orderly size ps calls) (hk : calls[k]? = some c) {i : Nat} {p p' : Pool}
    {c' : Call} (hp : ps.pools[i]? = some p) (hg : p'.grammar = p.grammar)
    (hreg : p'.IsRegular size) (hle : p.created ≤ p'.created)
    (hbal : p'.idle + (c'.holdsAt i).toNat + p.created =
      p.idle + (c.holdsAt i).toNat + p'.created)
    (hheld : ∀ j, j ≠ i → c'.holdsAt j = c.holdsAt j)
    (harr : ∀ j, c.arrivesAt j = true → j = i ∧ 0 < p'.created)
    (hplaced : c'.IsPlaced { ps with pools := ps.pools.set i p' }) :
    Orderly size { ps with pools := ps.pools.set i p' } (calls.set k c') := by
  have hi : i < ps.pools.length := (List.getElem?_eq_some_iff.1 hp).1
  have hold := h.regular p (List.mem_of_getElem? hp)
  -- the pool at a place is the new one there, and the old one anywhere else
  have hat : ∀ j q, (ps.pools.set i p')[j]? = some q →
      (j = i ∧ q = p') ∨ (j ≠ i ∧ ps.pools[j]? = some q) := by
    intro j q hq
    by_cases hj : j = i
    · subst hj
      rw [List.getElem?_set_self hi] at hq
      exact Or.inl ⟨rfl, (Option.some.inj hq).symm⟩
    · rw [List.getElem?_set_ne (Ne.symm hj)] at hq
      exact Or.inr ⟨hj, hq⟩
  refine ⟨h.isOpen, h.poolSize_eq, h.size_pos, ?_, ?_, ?_, ?_, ?_⟩
  · have hself : (ps.pools.map (·.grammar)).set i p'.grammar = ps.pools.map (·.grammar) := by
      apply Crowd.set_eq_self
      simp [hp, hg]
    show ((ps.pools.set i p').map (·.grammar)).Nodup
    rw [List.map_set, hself]
    exact h.distinct
  · intro q hq
    rcases List.mem_or_eq_of_mem_set hq with hmem | rfl
    · exact h.regular q hmem
    · exact hreg
  · intro j q hq
    have hcount := Crowd.countP_set_add hk (Call.holdsAt j) c'
    rcases hat j q hq with ⟨rfl, rfl⟩ | ⟨hj, hq'⟩
    · have hb := h.balance j p hp
      omega
    · have hb := h.balance j q hq'
      rw [hheld j hj] at hcount
      omega
  · intro j q hq hz
    rcases hat j q hq with ⟨rfl, rfl⟩ | ⟨hj, hq'⟩
    · obtain ⟨d, hd, ha⟩ := h.used j p hp (by omega)
      rcases Crowd.eq_or_mem_set hk hd c' with rfl | hmem
      · have := (harr j ha).2
        omega
      · exact ⟨d, hmem, ha⟩
    · obtain ⟨d, hd, ha⟩ := h.used j q hq' hz
      rcases Crowd.eq_or_mem_set hk hd c' with rfl | hmem
      · exact absurd (harr j ha).1 hj
      · exact ⟨d, hmem, ha⟩
  · have hgrow : Grow ps { ps with pools := ps.pools.set i p' } := by
      intro j q hq
      by_cases hj : j = i
      · subst hj
        rw [hp] at hq
        cases hq
        exact ⟨p', List.getElem?_set_self hi, hg, hreg.maxSize_eq.trans hold.maxSize_eq.symm, hle⟩
      · exact ⟨q, by rw [List.getElem?_set_ne (Ne.symm hj), hq], rfl, rfl, Nat.le_refl _⟩
    intro d hd
    rcases List.mem_or_eq_of_mem_set hd with hmem | rfl
    · exact (h.placed d hmem).mono hgrow
    · exact hplaced

/-- A step that makes a pool, for a grammar that has none. -/
theorem append (h : Orderly size ps calls) (hk : calls[k]? = some c) (hpt : c.point = .missing)
    {p : Pool} (hnone : ∀ q ∈ ps.pools, q.grammar ≠ c.grammar) (hg : p.grammar = c.grammar)
    (hreg : p.IsRegular size) (hidle : p.idle = 0) (hcreated : p.created = 0) :
    Orderly size { ps with pools := ps.pools ++ [p] }
      (calls.set k { c with point := .borrowing ps.pools.length .asking }) := by
  have hholds : ∀ i, Call.holdsAt i { c with point := .borrowing ps.pools.length .asking } =
      c.holdsAt i := by
    intro i
    simp [Call.holdsAt, Pool.Point.holds, hpt]
  have hat : ∀ j q, (ps.pools ++ [p])[j]? = some q →
      (j = ps.pools.length ∧ q = p) ∨ ps.pools[j]? = some q := by
    intro j q hq
    by_cases hj : j < ps.pools.length
    · rw [List.getElem?_append_left hj] at hq
      exact Or.inr hq
    · have hlt := (List.getElem?_eq_some_iff.1 hq).1
      have hlen : j = ps.pools.length := by
        simp only [List.length_append, List.length_singleton] at hlt
        omega
      subst hlen
      exact Or.inl ⟨rfl, by simpa using hq.symm⟩
  refine ⟨h.isOpen, h.poolSize_eq, h.size_pos, ?_, ?_, ?_, ?_, ?_⟩
  · show ((ps.pools ++ [p]).map (·.grammar)).Nodup
    rw [List.map_append, List.nodup_append]
    refine ⟨h.distinct, by simp, ?_⟩
    intro a ha b hb hab
    obtain ⟨q, hq, rfl⟩ := List.mem_map.1 ha
    have hb' : b = p.grammar := by simpa using hb
    exact hnone q hq (hab.trans (hb'.trans hg))
  · intro q hq
    rcases List.mem_append.1 hq with hmem | hmem
    · exact h.regular q hmem
    · rw [List.mem_singleton.1 hmem]
      exact hreg
  · intro j q hq
    have hcount := Crowd.countP_set_add hk (Call.holdsAt j)
      { c with point := .borrowing ps.pools.length .asking }
    rw [hholds j] at hcount
    rcases hat j q hq with ⟨rfl, rfl⟩ | hq'
    · have hzero : calls.countP (Call.holdsAt ps.pools.length) = 0 := by
        rw [List.countP_eq_zero]
        intro d hd
        simp [(h.placed d hd).holdsAt_of_le (Nat.le_refl _)]
      omega
    · have hb := h.balance j q hq'
      omega
  · intro j q hq hz
    rcases hat j q hq with ⟨rfl, rfl⟩ | hq'
    · exact ⟨_, Crowd.mem_set_self hk _, by simp [Call.arrivesAt, Pool.Point.arrives]⟩
    · obtain ⟨d, hd, ha⟩ := h.used j q hq' hz
      rcases Crowd.eq_or_mem_set hk hd { c with point := .borrowing ps.pools.length .asking } with
        rfl | hmem
      · simp [Call.arrivesAt, hpt] at ha
      · exact ⟨d, hmem, ha⟩
  · intro d hd
    rcases List.mem_or_eq_of_mem_set hd with hmem | rfl
    · refine (h.placed d hmem).mono ?_
      intro i q hq
      have hi : i < ps.pools.length := (List.getElem?_eq_some_iff.1 hq).1
      exact ⟨q, by rw [List.getElem?_append_left hi, hq], rfl, rfl, Nat.le_refl _⟩
    · exact ⟨p, by simp, hg, by simp, by simp, by simp⟩

/-- One step of a borrower keeps the order. -/
theorem step_borrowing (h : Orderly size ps calls) (hk : calls[k]? = some c) {i : Nat}
    {pt pt' : Pool.Point} {p p' : Pool} (hpt : c.point = .borrowing i pt)
    (hp : ps.pools[i]? = some p) (hn : p.next? pt = some (p', pt')) :
    Orderly size { ps with pools := ps.pools.set i p' }
      (calls.set k { c with point := .ofBorrower i p.grammar pt' }) := by
  have hreg := h.regular p (List.mem_of_getElem? hp)
  have hm := hreg.maxSize_eq
  have hle := hreg.created_le
  have hself : ps.pools.set i p = ps.pools := Crowd.set_eq_self hp
  have hlt : i < ps.pools.length := (List.getElem?_eq_some_iff.1 hp).1
  have hpl : ∃ q, ps.pools[i]? = some q ∧ q.grammar = c.grammar ∧
      (pt = .waiting → q.maxSize ≤ q.created) ∧ pt ≠ .refused ∧ pt ≠ .left := by
    have hplaced := h.placed c (List.mem_of_getElem? hk)
    simpa only [Call.IsPlaced, hpt] using hplaced
  obtain ⟨q, hq, hg, hw, -, -⟩ := hpl
  rw [hp] at hq
  cases hq
  have hb := h.balance i p hp
  rcases Pool.next_cases hreg.isOpen hn with ⟨rfl, rfl, rfl⟩ | ⟨hor, rfl, hpos, rfl⟩ |
    ⟨rfl, rfl, hz, rfl⟩ | ⟨rfl, rfl, hroom, rfl⟩ | ⟨rfl, rfl, hfull, rfl⟩ | ⟨rfl, rfl, rfl⟩ |
    ⟨rfl, rfl, rfl⟩
  · -- the pool is open
    refine h.replace hk hself rfl rfl ?_ ?_ ?_
    · simp [Call.holdsAt, hpt, Point.ofBorrower, Pool.Point.holds]
    · simp [Call.arrivesAt, hpt, Point.ofBorrower, Pool.Point.arrives]
    · exact ⟨p', hp, hg, by simp, by simp, by simp⟩
  · -- an idle parser is lent
    refine h.update hk hp rfl ⟨hreg.isOpen, hm, hle, hreg.known, hreg.normal⟩ (Nat.le_refl _)
      ?_ ?_ ?_ ?_
    · have hnot : c.holdsAt i = false := by
        rcases hor with rfl | rfl <;> simp [Call.holdsAt, hpt, Pool.Point.holds]
      have hnow : Call.holdsAt i { c with point := .ofBorrower i p.grammar .holding } = true := by
        simp [Call.holdsAt, Point.ofBorrower, Pool.Point.holds]
      rw [hnot, hnow]
      show p.idle - 1 + 1 + p.created = p.idle + 0 + p.created
      omega
    · intro j hj
      have hij : (i == j) = false := by simpa using Ne.symm hj
      simp [Call.holdsAt, hpt, Point.ofBorrower, hij]
    · intro j ha
      have hj : i = j := by
        have : i = j ∧ pt.arrives = true := by simpa [Call.arrivesAt, hpt] using ha
        exact this.1
      have hcreated : 0 < p.created := by omega
      exact ⟨hj.symm, hcreated⟩
    · exact ⟨_, List.getElem?_set_self hlt, hg, by simp, by simp, by simp⟩
  · -- none is idle
    refine h.replace hk hself rfl rfl ?_ ?_ ?_
    · simp [Call.holdsAt, hpt, Point.ofBorrower, Pool.Point.holds]
    · simp [Call.arrivesAt, hpt, Point.ofBorrower, Pool.Point.arrives]
    · exact ⟨p', hp, hg, by simp, by simp, by simp⟩
  · -- a new parser is lent
    refine h.update hk hp rfl ⟨hreg.isOpen, hm, ?_, hreg.known, hreg.normal⟩ ?_ ?_ ?_ ?_ ?_
    · show p.created + 1 ≤ size
      omega
    · show p.created ≤ p.created + 1
      omega
    · simp [Call.holdsAt, hpt, Point.ofBorrower, Pool.Point.holds]
      omega
    · intro j hj
      have hij : (i == j) = false := by simpa using Ne.symm hj
      simp [Call.holdsAt, hpt, Point.ofBorrower, hij]
    · intro j ha
      have hj : i = j ∧ Pool.Point.creating.arrives = true := by
        simpa [Call.arrivesAt, hpt] using ha
      exact ⟨hj.1.symm, Nat.succ_pos _⟩
    · exact ⟨_, List.getElem?_set_self hlt, hg, by simp, by simp, by simp⟩
  · -- the pool is full
    refine h.replace hk hself rfl rfl ?_ ?_ ?_
    · simp [Call.holdsAt, hpt, Point.ofBorrower, Pool.Point.holds]
    · intro j q hq hz ha
      have hj : i = j ∧ Pool.Point.creating.arrives = true := by
        simpa [Call.arrivesAt, hpt] using ha
      rw [← hj.1, hp] at hq
      cases hq
      have hpos := h.size_pos
      omega
    · exact ⟨p', hp, hg, fun _ => hfull, by simp, by simp⟩
  · -- the pool takes the parser back
    refine h.replace hk hself rfl rfl ?_ ?_ ?_
    · simp [Call.holdsAt, hpt, Point.ofBorrower, Pool.Point.holds]
    · simp [Call.arrivesAt, hpt, Point.ofBorrower, Pool.Point.arrives]
    · exact ⟨p', hp, hg, by simp, by simp, by simp⟩
  · -- the parser is back; the pool has room for it, since it is not yet counted as idle
    have hheld : 0 < calls.countP (Call.holdsAt i) :=
      List.countP_pos_iff.2 ⟨c, List.mem_of_getElem? hk, by
        simp [Call.holdsAt, hpt, Pool.Point.holds]⟩
    have hkeep := Pool.keep_of_lt (p := p) (by omega)
    rw [hkeep]
    refine h.update hk hp rfl ⟨hreg.isOpen, hm, hle, hreg.known, hreg.normal⟩ (Nat.le_refl _)
      ?_ ?_ ?_ ?_
    · simp [Call.holdsAt, hpt, Point.ofBorrower, Pool.Point.holds]
    · intro j hj
      have hij : (i == j) = false := by simpa using Ne.symm hj
      simp [Call.holdsAt, hpt, Point.ofBorrower, hij]
    · intro j ha
      simp [Call.arrivesAt, hpt, Pool.Point.arrives] at ha
    · trivial

/-- One step of a parse keeps the order. -/
theorem step (h : Orderly size ps calls) (hk : calls[k]? = some c) {ps' : Parsers} {c' : Call}
    (hnext : c.next? ps = some (ps', c')) : Orderly size ps' (calls.set k c') := by
  obtain ⟨pt, hn, rfl⟩ := Call.next_eq_some_iff.1 hnext
  have hplaced := h.placed c (List.mem_of_getElem? hk)
  rcases Point.next_cases hn with ⟨hpt, rfl, rfl⟩ | ⟨hpt, rfl, hor⟩ | ⟨i, hor, hs, rfl, rfl⟩ |
    ⟨hpt, -, rfl, rfl⟩ | ⟨p, hpt, hs, hnew, rfl, rfl⟩ | ⟨e, hpt, hnew, -, -⟩ |
    ⟨i, b, p, p', b', hpt, hp, hb, rfl, rfl⟩
  · exact h.replace hk rfl rfl rfl (by simp [Call.holdsAt, hpt]) (by simp [Call.arrivesAt, hpt])
      trivial
  · rcases hor with ⟨hl, rfl⟩ | ⟨hclosed, -⟩ | ⟨hl, -, rfl⟩
    · exact h.replace hk rfl rfl rfl (by simp [Call.holdsAt, hpt]) (by simp [Call.arrivesAt, hpt])
        ⟨hl, rfl⟩
    · simp [h.isOpen] at hclosed
    · exact h.replace hk rfl rfl rfl (by simp [Call.holdsAt, hpt]) (by simp [Call.arrivesAt, hpt])
        hl
  · obtain ⟨p, hp, hg⟩ := slot?_eq_some hs
    have haway : (∀ j, c.holdsAt j = false) ∧ ∀ j, c.arrivesAt j = false := by
      rcases hor with hpt | hpt <;> simp [Call.holdsAt, Call.arrivesAt, hpt]
    refine h.replace hk rfl rfl rfl ?_ ?_ ⟨p, hp, hg, by simp, by simp, by simp⟩
    · intro j
      rw [haway.1 j]
      simp [Call.holdsAt, Pool.Point.holds]
    · intro j _ _ _ ha
      simp [haway.2 j] at ha
  · have hl : c.language ≠ .unknown := by simpa only [Call.IsPlaced, hpt] using hplaced
    exact h.replace hk rfl rfl rfl (by simp [Call.holdsAt, hpt]) (by simp [Call.arrivesAt, hpt]) hl
  · have hl : c.language ≠ .unknown := by simpa only [Call.IsPlaced, hpt] using hplaced
    have hknown : c.grammar.isKnown = true := by
      simp [Grammar.isKnown, Call.grammar, Grammar.of, hl]
    have hpool := Pool.new_eq_ok hknown ps.poolSize
    simp only [Call.grammar, hnew, Except.ok.injEq] at hpool
    subst hpool
    have hsize : max ps.poolSize 1 = size := by
      have := h.poolSize_eq
      have := h.size_pos
      omega
    refine h.append hk hpt (slot?_eq_none hs) rfl ⟨rfl, hsize, Nat.zero_le _, hknown, ?_⟩ rfl rfl
    simp [Grammar.of]
  · have hl : c.language ≠ .unknown := by simpa only [Call.IsPlaced, hpt] using hplaced
    have hknown : c.grammar.isKnown = true := by
      simp [Grammar.isKnown, Call.grammar, Grammar.of, hl]
    have hpool := Pool.new_eq_ok hknown ps.poolSize
    simp [Call.grammar, hnew] at hpool
  · exact h.step_borrowing hk hpt hp hb

end Orderly

end Parsers

end Outline
