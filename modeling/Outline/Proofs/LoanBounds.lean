import Outline.Proofs.Lending

/-!
# Bounds of lending

What a caller may rely on, in whatever order the parses take their steps: how many parsers there
are, who has them, and who has to wait for whom. A caller with several sources stands for several
parses, and begins one when the one before it is over.
-/

namespace Outline.Parsers

/-- The parse waits at a pool that has no idle parser. -/
def Call.IsBlocked (ps : Parsers) (c : Call) : Prop :=
  ∃ i p, c.point = .borrowing i .waiting ∧ ps.pools[i]? = some p ∧ p.idle = 0

theorem created_le_mul {pools : List Pool} {size : Nat} (h : ∀ p ∈ pools, p.created ≤ size) :
    pools.foldr (fun p n => p.created + n) 0 ≤ size * pools.length := by
  induction pools with
  | nil => simp
  | cons p pools ih =>
    have hp := h p List.mem_cons_self
    have hrest := ih fun q hq => h q (List.mem_cons_of_mem p hq)
    simp only [List.foldr_cons, List.length_cons, Nat.mul_add, Nat.mul_one]
    omega

namespace Orderly

variable {size : Nat} {ps : Parsers} {calls : List Call} {c : Call}

/-- At a pool where somebody waits, all parsers that it may create are idle or on loan. -/
theorem created_of_waiting (h : Orderly size ps calls) (hc : c ∈ calls) {i : Nat} {p : Pool}
    (hpt : c.point = .borrowing i .waiting) (hp : ps.pools[i]? = some p) :
    p.created = size := by
  have hreg := h.regular p (List.mem_of_getElem? hp)
  have hplaced := h.placed c hc
  simp only [Call.IsPlaced, hpt] at hplaced
  obtain ⟨q, hq, -, hfull, -⟩ := hplaced
  rw [hp] at hq
  cases hq
  have hle := hfull trivial
  have hm := hreg.maxSize_eq
  have hcr := hreg.created_le
  omega

theorem held_of_isBlocked (h : Orderly size ps calls) (hc : c ∈ calls) {i : Nat} {p : Pool}
    (hpt : c.point = .borrowing i .waiting) (hp : ps.pools[i]? = some p) (hidle : p.idle = 0) :
    calls.countP (Call.holdsAt i) = size := by
  have hfull := h.created_of_waiting hc hpt hp
  have hb := h.balance i p hp
  omega

/-- The parsers that a blocked parse waits for are with others. -/
theorem exists_holder (h : Orderly size ps calls) {k : Nat} (hk : calls[k]? = some c) {i : Nat}
    {p : Pool} (hpt : c.point = .borrowing i .waiting) (hp : ps.pools[i]? = some p)
    (hidle : p.idle = 0) : ∃ j d, j ≠ k ∧ calls[j]? = some d ∧ d.holdsAt i = true := by
  have hheld := h.held_of_isBlocked (List.mem_of_getElem? hk) hpt hp hidle
  have hpos : 0 < calls.countP (Call.holdsAt i) := by
    have := h.size_pos
    omega
  obtain ⟨d, hd, hholds⟩ := List.countP_pos_iff.1 hpos
  obtain ⟨j, hj⟩ := List.mem_iff_getElem?.1 hd
  refine ⟨j, d, ?_, hj, hholds⟩
  rintro rfl
  rw [hk] at hj
  cases hj
  simp [Call.holdsAt, hpt, Pool.Point.holds] at hholds

/-- With no more parses than a pool has parsers, nobody waits. -/
theorem not_isBlocked (h : Orderly size ps calls) (hc : c ∈ calls)
    (hfew : calls.countP Call.isRunning ≤ size) : ¬ c.IsBlocked ps := by
  rintro ⟨i, p, hpt, hp, hidle⟩
  have hheld := h.held_of_isBlocked hc hpt hp hidle
  -- those who hold the parsers are running, and so is the one who waits for them
  have hlt : calls.countP (Call.holdsAt i) < calls.countP Call.isRunning := by
    refine Crowd.countP_lt_countP ?_ hc ?_ ?_
    · intro d _ hd
      unfold Call.holdsAt at hd
      unfold Call.isRunning
      split at hd
      · rename_i hdpt
        simp [hdpt]
      · simp at hd
    · simp [Call.isRunning, hpt]
    · simp [Call.holdsAt, hpt, Pool.Point.holds]
  omega

/-- A parse that is not over and not blocked has a next step. -/
theorem exists_next (h : Orderly size ps calls) (hc : c ∈ calls) (hover : c.isOver = false)
    (hfree : ¬ c.IsBlocked ps) : ∃ ps' c', c.next? ps = some (ps', c') := by
  have hstep : (c.point.next? ps c.language c.jsx).isSome = true := by
    have hplaced := h.placed c hc
    cases hpt : c.point with
    | ready => rfl
    | counted => rfl
    | seeking =>
      simp only [Point.next?]
      split <;> rfl
    | missing =>
      simp only [Point.next?]
      split <;> rfl
    | borrowing i pt =>
      simp only [Call.IsPlaced, hpt] at hplaced
      obtain ⟨p, hp, -, -, hrefused, hleft⟩ := hplaced
      have hpool : (p.next? pt).isSome = true := by
        cases pt with
        | asking => rfl
        | looking =>
          simp only [Pool.next?]
          split <;> rfl
        | creating =>
          simp only [Pool.next?]
          split <;> rfl
        | waiting =>
          have hpos : 0 < p.idle := Nat.pos_of_ne_zero fun hz => hfree ⟨i, p, hpt, hp, hz⟩
          simp [Pool.next?, Pool.takeIdle?_of_pos hpos]
        | holding => rfl
        | returning => rfl
        | refused => exact absurd rfl hrefused
        | left => exact absurd rfl hleft
      simpa [Point.next?, hp] using hpool
    | failed e => simp [Call.isOver, hpt] at hover
    | parsed => simp [Call.isOver, hpt] at hover
  obtain ⟨⟨ps', pt⟩, hn⟩ := Option.isSome_iff_exists.1 hstep
  exact ⟨ps', _, Call.next_eq_some_iff.2 ⟨pt, hn, rfl⟩⟩

/-- As long as a parse is not over, some parse can go on. -/
theorem exists_step (h : Orderly size ps calls) (hc : c ∈ calls) (hover : c.isOver = false) :
    ∃ (k : Nat) (d : Call) (ps' : Parsers) (d' : Call),
      calls[k]? = some d ∧ d.next? ps = some (ps', d') := by
  by_cases hblocked : c.IsBlocked ps
  · obtain ⟨k, hk⟩ := List.mem_iff_getElem?.1 hc
    obtain ⟨i, p, hpt, hp, hidle⟩ := hblocked
    obtain ⟨j, d, -, hj, hholds⟩ := h.exists_holder hk hpt hp hidle
    have hd := List.mem_of_getElem? hj
    have hgoes : d.isOver = false ∧ ¬ d.IsBlocked ps := by
      cases hdpt : d.point with
      | borrowing i' pt =>
        refine ⟨by simp [Call.isOver, hdpt], ?_⟩
        rintro ⟨_, _, hw, -⟩
        rw [hdpt] at hw
        cases hw
        simp [Call.holdsAt, hdpt, Pool.Point.holds] at hholds
      | _ => simp [Call.holdsAt, hdpt] at hholds
    obtain ⟨ps', d', hn⟩ := h.exists_next hd hgoes.1 hgoes.2
    exact ⟨j, d, ps', d', hj, hn⟩
  · obtain ⟨k, hk⟩ := List.mem_iff_getElem?.1 hc
    obtain ⟨ps', c', hn⟩ := h.exists_next hc hover hblocked
    exact ⟨k, c, ps', c', hk, hn⟩

/-- With no parser on loan, every pool has one to lend. -/
theorem acquire_of_rest (h : Orderly size ps calls) (hrest : ∀ c ∈ calls, ∀ i, c.holdsAt i = false)
    {p : Pool} (hp : p ∈ ps.pools) : ∃ lent, p.acquire = .granted lent := by
  have hreg := h.regular p hp
  have hm := hreg.maxSize_eq
  have hpos := h.size_pos
  obtain ⟨i, hi⟩ := List.mem_iff_getElem?.1 hp
  have hb := h.balance i p hi
  have hzero : calls.countP (Call.holdsAt i) = 0 := by
    rw [List.countP_eq_zero]
    intro c hc
    simp [hrest c hc i]
  rcases Pool.acquire_cases p with ⟨hc, -⟩ | ⟨-, -, ha⟩ | ⟨-, -, -, ha⟩ | ⟨-, hi, hfull, -⟩
  · simp [hreg.isOpen] at hc
  · exact ⟨_, ha⟩
  · exact ⟨_, ha⟩
  · omega

end Orderly

theorem orderly_new (n : Nat) (requests : List (Language × Bool)) :
    Orderly (max n 1) (.new n) (requests.map fun r => ⟨r.1, r.2, .ready⟩) := by
  refine ⟨rfl, rfl, by omega, by simp [new], by simp [new], by simp [new], by simp [new], ?_⟩
  intro c hc
  obtain ⟨r, -, rfl⟩ := List.mem_map.1 hc
  trivial

theorem Orderly.runs {size : Nat} {c c' : Crowd Parsers Call} (h : Orderly size c.shared c.members)
    (hr : Crowd.Runs Call.next? c c') : Orderly size c'.shared c'.members := by
  refine hr.keeps (P := fun d => Orderly size d.shared d.members) ?_ h
  rintro d d' hd ⟨k, hk⟩
  obtain ⟨call, ps', call', hcall, hn, rfl⟩ := Crowd.move_eq_some_iff.1 hk
  exact hd.step hcall hn

/-! ## Every state of every run -/

/-- What holds of pools of the given size, and of the parses that use them, at any time. -/
structure Sound (size : Nat) (c : Crowd Parsers Call) : Prop where
  /-- No two pools have the same grammar. -/
  distinct : (c.shared.pools.map (·.grammar)).Nodup
  normal : ∀ p ∈ c.shared.pools, Grammar.of p.grammar.language p.grammar.jsx = p.grammar
  created_le : ∀ p ∈ c.shared.pools, p.created ≤ size
  /-- A parser that a pool has created is idle or with one parse. -/
  balance : ∀ (i : Nat) (p : Pool), c.shared.pools[i]? = some p →
    p.idle + c.members.countP (Call.holdsAt i) = p.created
  total_le : c.shared.created ≤ size * c.shared.pools.length
  /-- Who waits for a parser waits for somebody else who has one of that pool. -/
  other_holds : ∀ (k : Nat) (call : Call) (i : Nat) (p : Pool), c.members[k]? = some call →
    call.point = .borrowing i .waiting → c.shared.pools[i]? = some p → p.idle = 0 →
    ∃ (j : Nat) (other : Call), j ≠ k ∧ c.members[j]? = some other ∧ other.holdsAt i = true
  /-- As many parses as a pool has parsers never wait. -/
  never_blocked : c.members.countP Call.isRunning ≤ size →
    ∀ call ∈ c.members, ¬ call.IsBlocked c.shared
  goes_on : ∀ call ∈ c.members, call.isOver = false → ∃ c', Crowd.Step Call.next? c c'
  /-- While no parser is on loan, a parse that goes through without the others taking a step does
      what `parse` does. -/
  alone : (∀ call ∈ c.members, ∀ i, call.holdsAt i = false) →
    ∀ (k : Nat) (call : Call), c.members[k]? = some call → call.point = .ready →
      ∀ frontend src, ∃ pt, Crowd.Runs Call.next? c
          ⟨(c.shared.parse frontend call.language call.jsx src).2,
            c.members.set k { call with point := pt }⟩ ∧
        pt.answer? frontend call.grammar src =
          some (c.shared.parse frontend call.language call.jsx src).1

theorem Orderly.sound {size : Nat} {c : Crowd Parsers Call}
    (h : Orderly size c.shared c.members) : Sound size c where
  distinct := h.distinct
  normal := fun p hp => (h.regular p hp).normal
  created_le := fun p hp => (h.regular p hp).created_le
  balance := h.balance
  total_le := created_le_mul fun p hp => (h.regular p hp).created_le
  other_holds := fun _ _ _ _ hk hpt hp hidle => h.exists_holder hk hpt hp hidle
  never_blocked := fun hfew _ hc => h.not_isBlocked hc hfew
  goes_on := by
    intro call hc hover
    obtain ⟨k, d, ps', d', hk, hn⟩ := h.exists_step hc hover
    exact ⟨_, Crowd.step_of_next hk hn⟩
  alone := by
    intro hrest k call hk hready frontend src
    obtain ⟨pt, hruns, hanswer⟩ := parse_alone (fun p hp => h.acquire_of_rest hrest hp)
      call.language call.jsx frontend src
    have hcall : (⟨call.language, call.jsx, .ready⟩ : Call) = call := by rw [← hready]
    rw [hcall] at hruns
    exact ⟨pt, Crowd.runs_of_alone hruns hk, hanswer⟩

/-- Any number of parses, in any languages, that take their steps in any order: no grammar gets two
    pools, no pool gets too large, no parser is lost, and nobody waits without need. -/
theorem sound_of_parses (n : Nat) (requests : List (Language × Bool)) (c : Crowd Parsers Call)
    (hr : Crowd.Runs Call.next? ⟨.new n, requests.map fun r => ⟨r.1, r.2, .ready⟩⟩ c) :
    Sound (max n 1) c :=
  ((orderly_new n requests).runs hr).sound

/-- Two parses that both see no pool share one parser, and the second waits for it. -/
theorem sound_of_parses_blocked :
    ∃ c, Crowd.Runs Call.next?
        ⟨.new 1, [(.typescript, false), (.typescript, false)].map fun r => ⟨r.1, r.2, .ready⟩⟩ c ∧
      (∃ call ∈ c.members, call.IsBlocked c.shared) ∧ Sound 1 c := by
  have hr : Crowd.Runs Call.next?
      ⟨.new 1, [(.typescript, false), (.typescript, false)].map fun r => ⟨r.1, r.2, .ready⟩⟩
      ⟨⟨[⟨⟨.typescript, false⟩, 1, 1, 0, false⟩], 1, 2, false⟩,
        [⟨.typescript, false, .borrowing 0 .holding⟩,
          ⟨.typescript, false, .borrowing 0 .waiting⟩]⟩ :=
    Crowd.runs_of_follow [0, 1, 0, 1, 0, 1, 0, 1, 0, 1, 0, 1, 0, 1] rfl
  refine ⟨_, hr, ⟨_, List.mem_cons_of_mem _ List.mem_cons_self, 0, _, rfl, rfl, rfl⟩, ?_⟩
  exact sound_of_parses 1 [(.typescript, false), (.typescript, false)] _ hr

end Outline.Parsers
