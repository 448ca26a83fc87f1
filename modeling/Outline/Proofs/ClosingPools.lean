import Outline.Proofs.PoolCallers

/-!
# Closing a pool while others use it

A closed pool destroys what is brought back, and nothing but a parser wakes a borrower who waits. So
closing can leave a borrower waiting for ever (`Stranded`). This can happen exactly if, as the pool
is closed, the callers who found it open and have no parser yet are more than the pool may still
create parsers for (`IsOverrun`). Otherwise each of them gets a parser, and nobody has to wait.
-/

namespace Outline.Pool

/-! ## Stranded borrowers -/

/-- A borrower waits at a closed pool, and nobody has a parser that could wake them. -/
def Stranded (c : Crowd Pool Caller) : Prop :=
  c.shared.closed = true ∧ c.shared.idle = 0 ∧ (∀ m ∈ c.members, m.holds = false) ∧
    .borrower .waiting ∈ c.members

/-- The callers who found the pool open and have no parser are too many for the parsers that the
    pool may still create. -/
def IsOverrun (c : Crowd Pool Caller) : Prop :=
  c.shared.maxSize < c.shared.created + c.members.countP Caller.isPending

instance (c : Crowd Pool Caller) : Decidable (IsOverrun c) :=
  inferInstanceAs (Decidable (_ < _))

/-- At an open pool, somebody has a parser for whoever waits. -/
theorem Orderly.served {c : Crowd Pool Caller} (h : Orderly c) (hopen : c.shared.closed = false)
    (hw : .borrower .waiting ∈ c.members) :
    0 < c.shared.idle ∨ ∃ m ∈ c.members, m.holds = true := by
  have hbal := h.balance hopen
  have hfull := h.full hw
  have hpos := h.size_pos
  by_cases hi : 0 < c.shared.idle
  · exact .inl hi
  · have hheld : 0 < c.members.countP Caller.holds := by omega
    exact .inr (List.countP_pos_iff.1 hheld)

/-- Who is stranded stays so: the pool does not change any more. -/
theorem Stranded.move {c : Crowd Pool Caller} (h : Stranded c) (horder : Orderly c) {k : Nat}
    {m m' : Caller} {p' : Pool} (hk : c.members[k]? = some m)
    (hmoves : Caller.Moves c.shared m p' m') :
    p' = c.shared ∧ m'.holds = false ∧ m ≠ .borrower .waiting := by
  obtain ⟨hclosed, hidle, hfree, hw⟩ := h
  have hfull := horder.full hw
  have hm := hfree m (List.mem_of_getElem? hk)
  obtain ⟨p, members⟩ := c
  dsimp only at hclosed hidle hfull
  cases hmoves with
  | enter ho => simp [hclosed] at ho
  | take _ hi => exact absurd hidle (Nat.ne_of_gt hi)
  | create hlt => exact absurd hfull (Nat.not_le.2 hlt)
  | destroy => cases hm
  | offer => cases hm
  | keep => cases hm
  | overflow => cases hm
  | drain hi => exact absurd hidle (Nat.ne_of_gt hi)
  | close =>
    refine ⟨?_, rfl, by simp⟩
    show { p with closed := true } = p
    rw [← hclosed]
  | _ => exact ⟨rfl, rfl, by simp⟩

theorem Stranded.runs {c c' : Crowd Pool Caller} (h : Stranded c) (horder : Orderly c)
    (hr : Crowd.Runs Caller.next? c c') :
    Stranded c' ∧ ∀ k : Nat, c.members[k]? = some (Caller.borrower .waiting) →
      c'.members[k]? = some (Caller.borrower .waiting) := by
  induction hr with
  | refl => exact ⟨h, fun k hk => hk⟩
  | @tail d e hrd hs ih =>
    obtain ⟨hd, hkept⟩ := ih
    obtain ⟨j, hj⟩ := hs
    obtain ⟨m, p', m', hm, hn, rfl⟩ := Crowd.move_eq_some_iff.1 hj
    obtain ⟨rfl, hfree, hne⟩ := hd.move (horder.runs hrd) hm (Caller.next?_eq_some_iff.1 hn)
    obtain ⟨hclosed, hidle, hall, hw⟩ := hd
    have hstay : ∀ k : Nat, d.members[k]? = some (Caller.borrower .waiting) →
        (d.members.set j m')[k]? = some (Caller.borrower .waiting) := by
      intro k hk
      have hjk : j ≠ k := by
        rintro rfl
        rw [hm] at hk
        exact hne (Option.some.inj hk)
      rw [List.getElem?_set_ne hjk, hk]
    refine ⟨⟨hclosed, hidle, ?_, ?_⟩, fun k hk => hstay k (hkept k hk)⟩
    · intro u hu
      rcases List.mem_or_eq_of_mem_set hu with hu | rfl
      · exact hall u hu
      · exact hfree
    · obtain ⟨k, hk⟩ := List.mem_iff_getElem?.1 hw
      exact List.mem_of_getElem? (hstay k hk)

/-! ## Closing a pool that is not overrun -/

theorem not_isOverrun_move {c : Crowd Pool Caller} (h : ¬ IsOverrun c)
    (hclosed : c.shared.closed = true) {k : Nat} {m m' : Caller} {p' : Pool}
    (hk : c.members[k]? = some m) (hmoves : Caller.Moves c.shared m p' m') :
    ¬ IsOverrun ⟨p', c.members.set k m'⟩ := by
  have hsize := hmoves.maxSize_eq
  have hpending := hmoves.pending_le hclosed
  have hcount := Crowd.countP_set_add hk Caller.isPending m'
  unfold IsOverrun at h ⊢
  dsimp only
  omega

/-- Once the pool is closed, no more callers come in. -/
theorem not_isOverrun_runs {c c' : Crowd Pool Caller} (h : ¬ IsOverrun c)
    (hclosed : c.shared.closed = true) (hr : Crowd.Runs Caller.next? c c') :
    ¬ IsOverrun c' ∧ c'.shared.closed = true := by
  refine hr.keeps (P := fun d => ¬ IsOverrun d ∧ d.shared.closed = true) ?_ ⟨h, hclosed⟩
  rintro d d' ⟨hd, hdc⟩ ⟨j, hj⟩
  obtain ⟨m, p', m', hm, hn, rfl⟩ := Crowd.move_eq_some_iff.1 hj
  have hmoves := Caller.next?_eq_some_iff.1 hn
  exact ⟨not_isOverrun_move hd hdc hm hmoves, hmoves.closed hdc⟩

theorem Stranded.isOverrun {c : Crowd Pool Caller} (h : Stranded c) (horder : Orderly c) :
    IsOverrun c := by
  have hfull := horder.full h.2.2.2
  have hpos : 0 < c.members.countP Caller.isPending :=
    List.countP_pos_iff.2 ⟨_, h.2.2.2, rfl⟩
  unfold IsOverrun
  omega

/-! ## Closing a pool that is overrun -/

/-- A closed pool that is still drained, with more callers than it can serve. -/
structure Doomed (c : Crowd Pool Caller) : Prop where
  closed : c.shared.closed = true
  created_le : c.shared.created ≤ c.shared.maxSize
  drains : ∃ (k n : Nat), c.members[k]? = some (.draining n)
  overrun : IsOverrun c

/-- How far a caller is from waiting or leaving, at a closed pool. A parser that comes back is
    counted once more, as it has to be destroyed. -/
def Caller.distance : Caller → Nat
  | borrower .looking => 3
  | borrower .creating => 2
  | borrower .returning => 2
  | borrower .holding => 1
  | _ => 0

/-- How far the pool is from a standstill. -/
def unrest (c : Crowd Pool Caller) : Nat :=
  Crowd.total Caller.distance c.members + c.shared.idle

namespace Doomed

variable {c : Crowd Pool Caller} (h : Doomed c)

include h

/-- A borrower goes on, and none of the others gets a parser. -/
theorem move {k : Nat} {pt pt' : Point} {p' : Pool} (hk : c.members[k]? = some (.borrower pt))
    (hmoves : Caller.Moves c.shared (.borrower pt) p' (.borrower pt'))
    (hpending : c.shared.created + (Caller.isPending (.borrower pt)).toNat ≤
      p'.created + (Caller.isPending (.borrower pt')).toNat)
    (hdistance : Caller.distance (.borrower pt') + p'.idle <
      Caller.distance (.borrower pt) + c.shared.idle) :
    ∃ c', Crowd.Step Caller.next? c c' ∧ Doomed c' ∧ unrest c' < unrest c := by
  have hsize := hmoves.maxSize_eq
  have hcount := Crowd.countP_set_add hk Caller.isPending (.borrower pt')
  have htotal := Crowd.total_set_add hk Caller.distance (.borrower pt')
  refine ⟨_, Crowd.step_of_next hk hmoves.next?, ⟨hmoves.closed h.closed, ?_, ?_, ?_⟩, ?_⟩
  · exact (hmoves.created_le h.created_le).2
  · obtain ⟨j, n, hj⟩ := h.drains
    have hjk : k ≠ j := by
      rintro rfl
      rw [hk] at hj
      cases hj
    refine ⟨j, n, ?_⟩
    show (c.members.set k _)[j]? = _
    rw [List.getElem?_set_ne hjk, hj]
  · have hover := h.overrun
    unfold IsOverrun at hover ⊢
    dsimp only
    omega
  · unfold unrest
    dsimp only
    omega

/-- Somebody goes on until a borrower is stranded. Those who have parsers go first, then the pool is
    drained, and only then do the others look for parsers. -/
theorem exists_step :
    Stranded c ∨ ∃ c', Crowd.Step Caller.next? c c' ∧ Doomed c' ∧ unrest c' < unrest c := by
  obtain ⟨k, n, hk⟩ := h.drains
  by_cases hholding : .borrower .holding ∈ c.members
  · obtain ⟨j, hj⟩ := List.mem_iff_getElem?.1 hholding
    exact .inr (h.move hj (.destroy h.closed) (Nat.le_refl _) (by simp [Caller.distance]))
  by_cases hreturning : .borrower .returning ∈ c.members
  · obtain ⟨j, hj⟩ := List.mem_iff_getElem?.1 hreturning
    right
    by_cases hroom : c.shared.idle < c.shared.maxSize
    · refine h.move hj (.keep hroom) (Nat.le_refl _) ?_
      simp [Caller.distance]
      omega
    · exact h.move hj (.overflow (by omega)) (Nat.le_refl _) (by simp [Caller.distance])
  by_cases hidle : 0 < c.shared.idle
  · have hmoves : Caller.Moves c.shared (.draining n) _ _ := .drain hidle
    have hcount := Crowd.countP_set_add hk Caller.isPending (.draining (n + 1))
    have htotal := Crowd.total_set_add hk Caller.distance (.draining (n + 1))
    refine .inr ⟨_, Crowd.step_of_next hk hmoves.next?, ⟨h.closed, h.created_le, ?_, ?_⟩, ?_⟩
    · exact ⟨k, n + 1, List.getElem?_set_self (List.getElem?_eq_some_iff.1 hk).1⟩
    · have hover := h.overrun
      unfold IsOverrun at hover ⊢
      simp only [Caller.isPending, Bool.toNat_false] at hcount
      dsimp only
      omega
    · unfold unrest
      simp only [Caller.distance] at htotal
      dsimp only
      omega
  have hzero : c.shared.idle = 0 := by omega
  by_cases hlooking : .borrower .looking ∈ c.members
  · obtain ⟨j, hj⟩ := List.mem_iff_getElem?.1 hlooking
    exact .inr (h.move hj (.miss hzero) (Nat.le_refl _) (by simp [Caller.distance]))
  by_cases hcreating : .borrower .creating ∈ c.members
  · obtain ⟨j, hj⟩ := List.mem_iff_getElem?.1 hcreating
    right
    by_cases hroom : c.shared.created < c.shared.maxSize
    · exact h.move hj (.create hroom) (Nat.le_refl _) (by simp [Caller.distance])
    · exact h.move hj (.wait (by omega)) (Nat.le_refl _) (by simp [Caller.distance])
  -- nobody is left but those who wait, and they are too many
  left
  have hpos : 0 < c.members.countP Caller.isPending := by
    have hover := h.overrun
    have hle := h.created_le
    unfold IsOverrun at hover
    omega
  obtain ⟨m, hm, hpending⟩ := List.countP_pos_iff.1 hpos
  have hwaiting : m = .borrower .waiting := by
    unfold Caller.isPending at hpending
    split at hpending
    · exact absurd hm hlooking
    · exact absurd hm hcreating
    · rfl
    · cases hpending
  refine ⟨h.closed, hzero, ?_, hwaiting ▸ hm⟩
  intro u hu
  cases u with
  | borrower pt =>
    cases pt with
    | holding => exact absurd hu hholding
    | returning => exact absurd hu hreturning
    | _ => rfl
  | _ => rfl

theorem exists_stranded : ∃ c', Crowd.Runs Caller.next? c c' ∧ Stranded c' := by
  induction hn : unrest c using Nat.strongRecOn generalizing c with
  | ind n ih =>
    rcases h.exists_step with hs | ⟨d, hstep, hd, hlt⟩
    · exact ⟨c, .refl, hs⟩
    · obtain ⟨e, hruns, hs⟩ := ih (unrest d) (by omega) hd rfl
      exact ⟨e, .head hstep hruns, hs⟩

end Doomed

/-! ## Every closing of every run -/

/-- The pool is closed by the caller at a position. -/
def shutBy (c : Crowd Pool Caller) (k : Nat) : Crowd Pool Caller :=
  ⟨{ c.shared with closed := true }, c.members.set k (.draining 0)⟩

/-- Closing strands a borrower in some run exactly if the pool is overrun. -/
theorem Orderly.strands_iff {c : Crowd Pool Caller} (h : Orderly c) {k : Nat}
    (hk : c.members[k]? = some .closing) :
    (∃ c', Crowd.Runs Caller.next? (shutBy c k) c' ∧ Stranded c') ↔ IsOverrun c := by
  have hcount := Crowd.countP_set_add hk Caller.isPending (.draining 0)
  have hsame : IsOverrun (shutBy c k) ↔ IsOverrun c := by
    unfold IsOverrun shutBy
    simp only [Caller.isPending, Bool.toNat_false] at hcount
    dsimp only
    omega
  have horder : Orderly (shutBy c k) := h.move hk .close
  constructor
  · rintro ⟨c', hr, hs⟩
    by_cases hover : IsOverrun c
    · exact hover
    · exact absurd (hs.isOverrun (horder.runs hr))
        (not_isOverrun_runs (mt hsame.1 hover) rfl hr).1
  · intro hover
    have hlt : k < c.members.length := (List.getElem?_eq_some_iff.1 hk).1
    have hdoomed : Doomed (shutBy c k) :=
      ⟨rfl, h.created_le, ⟨k, 0, List.getElem?_set_self hlt⟩, hsame.2 hover⟩
    exact hdoomed.exists_stranded

/-- A pool that is closed in the course of a run is closed by one step of one caller. -/
theorem exists_shutBy {c c' : Crowd Pool Caller} (hopen : c.shared.closed = false)
    (hr : Crowd.Runs Caller.next? c c') (hclosed : c'.shared.closed = true) :
    ∃ (d : Crowd Pool Caller) (k : Nat), Crowd.Runs Caller.next? c d ∧ d.shared.closed = false ∧
      d.members[k]? = some .closing ∧ Crowd.Runs Caller.next? (shutBy d k) c' := by
  induction hr with
  | refl => simp [hopen] at hclosed
  | @tail d e hrd hs ih =>
    cases hd : d.shared.closed with
    | true =>
      obtain ⟨f, k, hf, hfo, hk, hrest⟩ := ih hd
      exact ⟨f, k, hf, hfo, hk, hrest.tail hs⟩
    | false =>
      obtain ⟨j, hj⟩ := hs
      obtain ⟨m, p', m', hm, hn, rfl⟩ := Crowd.move_eq_some_iff.1 hj
      cases Caller.next?_eq_some_iff.1 hn with
      | close => exact ⟨d, j, hrd, hd, hm, .refl⟩
      | _ => simp [hd] at hclosed

/-- What callers can rely on while pools are closed, in all runs from a state. -/
structure Closings (start : Crowd Pool Caller) : Prop where
  /-- Nobody is ever stranded exactly if the pool is never closed while it is overrun. -/
  never_iff : (∀ c, Crowd.Runs Caller.next? start c → ¬ Stranded c) ↔
    ∀ c, Crowd.Runs Caller.next? start c → c.shared.closed = false → .closing ∈ c.members →
      ¬ IsOverrun c
  /-- At an open pool, who waits waits for a parser that is there. -/
  served : ∀ c, Crowd.Runs Caller.next? start c → c.shared.closed = false →
    .borrower .waiting ∈ c.members → 0 < c.shared.idle ∨ ∃ m ∈ c.members, m.holds = true
  /-- Each closing strands somebody, in one of the ways to go on, exactly if the pool is overrun. -/
  strands_iff : ∀ (c : Crowd Pool Caller) (k : Nat), Crowd.Runs Caller.next? start c →
    c.shared.closed = false → c.members[k]? = some .closing →
      ((∃ c', Crowd.Runs Caller.next? (shutBy c k) c' ∧ Stranded c') ↔ IsOverrun c)
  /-- Nobody is stranded in another way. -/
  stranded_by : ∀ c', Crowd.Runs Caller.next? start c' → Stranded c' →
    ∃ (c : Crowd Pool Caller) (k : Nat), Crowd.Runs Caller.next? start c ∧
      c.shared.closed = false ∧ c.members[k]? = some .closing ∧ IsOverrun c ∧
      Crowd.Runs Caller.next? (shutBy c k) c'
  /-- Who is stranded is never woken. -/
  forever : ∀ c, Crowd.Runs Caller.next? start c → Stranded c →
    ∀ c', Crowd.Runs Caller.next? c c' → Stranded c' ∧
      ∀ k : Nat, c.members[k]? = some (.borrower .waiting) →
        c'.members[k]? = some (.borrower .waiting)
  /-- Calls that go through while the others rest do what they say. -/
  acquires : ∀ (c : Crowd Pool Caller) (k : Nat), c.members[k]? = some (.borrower .asking) →
    Crowd.Runs Caller.next? c ⟨c.shared.afterAcquire.1, c.members.set k c.shared.afterAcquire.2⟩
  releases : ∀ (c : Crowd Pool Caller) (k : Nat), c.members[k]? = some (.borrower .holding) →
    Crowd.Runs Caller.next? c ⟨c.shared.release, c.members.set k (.borrower .left)⟩
  closes : ∀ (c : Crowd Pool Caller) (k : Nat), c.members[k]? = some .closing →
    Crowd.Runs Caller.next? c ⟨c.shared.close, c.members.set k (.finished c.shared.shut.1)⟩

theorem Orderly.closings {start : Crowd Pool Caller} (h : Orderly start)
    (hopen : start.shared.closed = false) : Closings start := by
  have hby : ∀ c', Crowd.Runs Caller.next? start c' → Stranded c' →
      ∃ (c : Crowd Pool Caller) (k : Nat), Crowd.Runs Caller.next? start c ∧
        c.shared.closed = false ∧ c.members[k]? = some .closing ∧ IsOverrun c ∧
        Crowd.Runs Caller.next? (shutBy c k) c' := by
    intro c' hr hs
    obtain ⟨c, k, hc, hco, hk, hrest⟩ := exists_shutBy hopen hr hs.1
    exact ⟨c, k, hc, hco, hk, ((h.runs hc).strands_iff hk).1 ⟨c', hrest, hs⟩, hrest⟩
  refine ⟨⟨?_, ?_⟩, ?_, ?_, hby, ?_, ?_, ?_, ?_⟩
  · intro hnever c hc hco hmem hover
    obtain ⟨k, hk⟩ := List.mem_iff_getElem?.1 hmem
    obtain ⟨c', hr, hs⟩ := ((h.runs hc).strands_iff hk).2 hover
    have hstep : Crowd.Step Caller.next? c (shutBy c k) :=
      Crowd.step_of_next hk Caller.Moves.close.next?
    exact hnever c' ((hc.tail hstep).trans hr) hs
  · intro hcalm c' hr hs
    obtain ⟨c, k, hc, hco, hk, hover, -⟩ := hby c' hr hs
    exact hcalm c hc hco (List.mem_of_getElem? hk) hover
  · intro c hc hco hw
    exact (h.runs hc).served hco hw
  · intro c k hc _ hk
    exact (h.runs hc).strands_iff hk
  · intro c hc hs c' hr
    exact hs.runs (h.runs hc) hr
  · intro c k hk
    exact Crowd.runs_of_alone (alone_acquire c.shared) hk
  · intro c k hk
    exact Crowd.runs_of_alone (alone_release c.shared) hk
  · intro c k hk
    exact Crowd.runs_of_alone (alone_close c.shared) hk

/-- Any callers of a new pool, who take their steps in any order: closing strands borrowers exactly
    if the pool is overrun. -/
theorem closings_of_new (grammar : Grammar) (n : Nat) (hg : grammar.isKnown = true)
    (callers : List Caller) (hnew : ∀ m ∈ callers, m.isNew = true) :
    ∃ p, Pool.new grammar n = .ok p ∧ Closings ⟨p, callers⟩ := by
  have hp := new_eq_ok hg n
  exact ⟨_, hp, (orderly_of_new hp hnew).closings rfl⟩

/-- Two borrowers share one parser, and a third caller closes the pool: at the start this strands
    nobody, and once the second borrower waits it does. -/
theorem closings_of_pair :
    let callers : List Caller := [.borrower .asking, .borrower .asking, .closing]
    Grammar.isKnown ⟨.typescript, false⟩ = true ∧ (∀ m ∈ callers, m.isNew = true) ∧
      ∃ p, Pool.new ⟨.typescript, false⟩ 1 = .ok p ∧ Closings ⟨p, callers⟩ ∧
        ¬ IsOverrun ⟨p, callers⟩ ∧
        ∃ c, Crowd.Runs Caller.next? ⟨p, callers⟩ c ∧ .closing ∈ c.members ∧ IsOverrun c := by
  intro callers
  have hnew : ∀ m ∈ callers, m.isNew = true := by decide
  obtain ⟨p, hp, hclosings⟩ := closings_of_new ⟨.typescript, false⟩ 1 rfl callers hnew
  cases hp
  refine ⟨rfl, hnew, _, rfl, hclosings, by decide, ?_⟩
  exact ⟨⟨⟨⟨.typescript, false⟩, 1, 1, 0, false⟩,
      [.borrower .holding, .borrower .waiting, .closing]⟩,
    Crowd.runs_of_follow [0, 1, 0, 1, 0, 1] rfl, by decide, by decide⟩

/-- A borrower waits for the one parser of a pool, the pool is closed, and then the parser is
    brought back: it is destroyed, and the borrower is stranded. -/
theorem exists_stranded_pair :
    ∃ p c, Pool.new ⟨.typescript, false⟩ 1 = .ok p ∧
      Crowd.Runs Caller.next? ⟨p, [.borrower .asking, .borrower .asking, .closing]⟩ c ∧
      Stranded c := by
  refine ⟨⟨⟨.typescript, false⟩, 1, 0, 0, false⟩,
    ⟨⟨⟨.typescript, false⟩, 1, 1, 0, true⟩,
      [.borrower .left, .borrower .waiting, .draining 0]⟩, rfl, ?_, rfl, rfl, by decide, by decide⟩
  exact Crowd.runs_of_follow [0, 0, 0, 1, 1, 1, 2, 0] rfl

end Outline.Pool
