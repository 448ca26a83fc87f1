import Outline.Proofs.Borrowers

/-!
# Callers of a pool

Some callers borrow a parser, some bring one, and some close the pool. `Caller.Moves` says once what
a step of any of them can do; `Orderly` is what holds of the pool and all callers together, whatever
the order of their steps. A caller that goes through while the others rest does what `acquire`,
`release` and `close` do.
-/

namespace Outline.Pool

/-! ## Callers and their steps -/

/-- How far a caller has come. -/
inductive Caller where
  | borrower (point : Point)
  /-- Is about to close the pool. -/
  | closing
  /-- Has closed the pool and destroyed this many idle parsers; looks for another one. -/
  | draining (count : Nat)
  /-- Found no more of them. -/
  | finished (count : Nat)
deriving DecidableEq

namespace Caller

/-- Whether the caller has not begun. One that holds a parser then brings one that the pool never
    lent. -/
def isNew : Caller → Bool
  | borrower .asking | borrower .holding | closing => true
  | _ => false

def holds : Caller → Bool
  | borrower pt => pt.holds
  | _ => false

/-- Whether the caller found the pool open, and has no parser yet. -/
def isPending : Caller → Bool
  | borrower .looking | borrower .creating | borrower .waiting => true
  | _ => false

/-- The next step of a caller. -/
def next? (p : Pool) : Caller → Option (Pool × Caller)
  | borrower pt => (p.next? pt).map fun r => (r.1, borrower r.2)
  | closing => some ({ p with closed := true }, draining 0)
  | draining n =>
    match p.takeIdle? with
    | some rest => some (rest, draining (n + 1))
    | none => some (p, finished n)
  | finished _ => none

/-- What a step of a caller can do. -/
inductive Moves (p : Pool) : Caller → Pool → Caller → Prop
  | refuse : p.closed = true → Moves p (borrower .asking) p (borrower .refused)
  | enter : p.closed = false → Moves p (borrower .asking) p (borrower .looking)
  | take {pt : Point} : pt = .looking ∨ pt = .waiting → 0 < p.idle →
      Moves p (borrower pt) { p with idle := p.idle - 1 } (borrower .holding)
  | miss : p.idle = 0 → Moves p (borrower .looking) p (borrower .creating)
  | create : p.created < p.maxSize →
      Moves p (borrower .creating) { p with created := p.created + 1 } (borrower .holding)
  | wait : p.maxSize ≤ p.created → Moves p (borrower .creating) p (borrower .waiting)
  | destroy : p.closed = true → Moves p (borrower .holding) p (borrower .left)
  | offer : p.closed = false → Moves p (borrower .holding) p (borrower .returning)
  | keep : p.idle < p.maxSize →
      Moves p (borrower .returning) { p with idle := p.idle + 1 } (borrower .left)
  | overflow : p.maxSize ≤ p.idle → Moves p (borrower .returning) p (borrower .left)
  | close : Moves p closing { p with closed := true } (draining 0)
  | drain {n : Nat} : 0 < p.idle →
      Moves p (draining n) { p with idle := p.idle - 1 } (draining (n + 1))
  | finish {n : Nat} : p.idle = 0 → Moves p (draining n) p (finished n)

theorem Moves.next? {p p' : Pool} {m m' : Caller} (h : Moves p m p' m') :
    m.next? p = some (p', m') := by
  cases h with
  | refuse hc => simp [Caller.next?, Pool.next?, hc]
  | enter hc => simp [Caller.next?, Pool.next?, hc]
  | take hpt hi =>
    rcases hpt with rfl | rfl <;> simp [Caller.next?, Pool.next?, takeIdle?_of_pos hi]
  | miss hi => simp [Caller.next?, Pool.next?, takeIdle?_of_zero hi]
  | create hm => simp [Caller.next?, Pool.next?, create?_of_lt hm]
  | wait hm => simp [Caller.next?, Pool.next?, create?_of_le hm]
  | destroy hc => simp [Caller.next?, Pool.next?, hc]
  | offer hc => simp [Caller.next?, Pool.next?, hc]
  | keep hi => simp [Caller.next?, Pool.next?, keep_of_lt hi]
  | overflow hi => simp [Caller.next?, Pool.next?, Pool.keep, Nat.not_lt.2 hi]
  | close => rfl
  | drain hi => simp [Caller.next?, takeIdle?_of_pos hi]
  | finish hi => simp [Caller.next?, takeIdle?_of_zero hi]

theorem exists_moves {p : Pool} {m : Caller} (h : (m.next? p).isSome = true) :
    ∃ p' m', Moves p m p' m' := by
  cases m with
  | borrower pt =>
    cases pt with
    | asking =>
      cases hc : p.closed with
      | true => exact ⟨_, _, .refuse hc⟩
      | false => exact ⟨_, _, .enter hc⟩
    | looking =>
      by_cases hi : p.idle = 0
      · exact ⟨_, _, .miss hi⟩
      · exact ⟨_, _, .take (.inl rfl) (by omega)⟩
    | creating =>
      by_cases hm : p.created < p.maxSize
      · exact ⟨_, _, .create hm⟩
      · exact ⟨_, _, .wait (by omega)⟩
    | waiting =>
      by_cases hi : p.idle = 0
      · simp [Caller.next?, Pool.next?, takeIdle?_of_zero hi] at h
      · exact ⟨_, _, .take (.inr rfl) (by omega)⟩
    | holding =>
      cases hc : p.closed with
      | true => exact ⟨_, _, .destroy hc⟩
      | false => exact ⟨_, _, .offer hc⟩
    | returning =>
      by_cases hi : p.idle < p.maxSize
      · exact ⟨_, _, .keep hi⟩
      · exact ⟨_, _, .overflow (by omega)⟩
    | refused => simp [Caller.next?, Pool.next?] at h
    | left => simp [Caller.next?, Pool.next?] at h
  | closing => exact ⟨_, _, .close⟩
  | draining n =>
    by_cases hi : p.idle = 0
    · exact ⟨_, _, .finish hi⟩
    · exact ⟨_, _, .drain (by omega)⟩
  | finished n => simp [Caller.next?] at h

theorem next?_eq_some_iff {p p' : Pool} {m m' : Caller} :
    m.next? p = some (p', m') ↔ Moves p m p' m' := by
  constructor
  · intro h
    obtain ⟨q, m₁, hmoves⟩ := exists_moves (p := p) (m := m) (by rw [h]; rfl)
    have heq := hmoves.next?
    rw [h] at heq
    cases heq
    exact hmoves
  · exact Moves.next?

namespace Moves

variable {p p' : Pool} {m m' : Caller}

theorem maxSize_eq (h : Moves p m p' m') : p'.maxSize = p.maxSize := by
  cases h <;> rfl

theorem closed (h : Moves p m p' m') (hc : p.closed = true) : p'.closed = true := by
  cases h with
  | close => rfl
  | _ => exact hc

/-- A pool creates no more parsers than it may, and forgets none that it has created. -/
theorem created_le (h : Moves p m p' m') (hle : p.created ≤ p.maxSize) :
    p.created ≤ p'.created ∧ p'.created ≤ p'.maxSize := by
  cases h with
  | create hm => exact ⟨Nat.le_succ _, hm⟩
  | _ => exact ⟨Nat.le_refl _, hle⟩

theorem full_of_waiting (h : Moves p m p' (borrower .waiting)) : p.maxSize ≤ p.created := by
  cases h with
  | wait hm => exact hm

/-- A parser moves between an open pool and the caller, unless there is no room for it. -/
theorem balance (h : Moves p m p' m') (hopen : p'.closed = false)
    (hdrains : ∀ n, m = draining n → p.closed = true) :
    p'.created + p.idle + m.holds.toNat = p'.idle + m'.holds.toNat + p.created ∨
      p'.created = p.created ∧ p.maxSize ≤ p'.idle := by
  cases h with
  | destroy hc => simp [hc] at hopen
  | close => cases hopen
  | drain => simp [hdrains _ rfl] at hopen
  | overflow hi => exact .inr ⟨rfl, hi⟩
  | @take pt hpt hi =>
    left
    have hfree : (borrower pt).holds.toNat = 0 := by
      rcases hpt with rfl | rfl <;> rfl
    show p.created + p.idle + _ = p.idle - 1 + 1 + p.created
    omega
  | _ =>
    left
    simp only [holds, Point.holds, Bool.toNat_true, Bool.toNat_false]
    omega

theorem pending_le (h : Moves p m p' m') (hc : p.closed = true) :
    p'.created + m'.isPending.toNat ≤ p.created + m.isPending.toNat := by
  cases h with
  | enter ho => simp [hc] at ho
  | take hpt hi =>
    show p.created + 0 ≤ _
    omega
  | _ =>
    simp only [isPending, Bool.toNat_true, Bool.toNat_false]
    omega

end Moves

end Caller

/-! ## Calls that meet nobody -/

/-- The pool and the borrower once the pool has answered. -/
def afterAcquire (p : Pool) : Pool × Caller :=
  match p.acquire with
  | .granted rest => (rest, .borrower .holding)
  | .poolClosed => (p, .borrower .refused)
  | .wait => (p, .borrower .waiting)

theorem alone_acquire (p : Pool) :
    Crowd.Alone Caller.next? (p, .borrower .asking) p.afterAcquire := by
  unfold afterAcquire
  rcases acquire_cases p with ⟨hc, ha⟩ | ⟨hc, hi, ha⟩ | ⟨hc, hi, hm, ha⟩ | ⟨hc, hi, hm, ha⟩
  · rw [ha]
    exact .single (Caller.Moves.refuse hc).next?
  · rw [ha]
    exact .head (Caller.Moves.enter hc).next? (.single (Caller.Moves.take (.inl rfl) hi).next?)
  · rw [ha]
    exact .head (Caller.Moves.enter hc).next? (.head (Caller.Moves.miss hi).next?
      (.single (Caller.Moves.create hm).next?))
  · rw [ha]
    exact .head (Caller.Moves.enter hc).next? (.head (Caller.Moves.miss hi).next?
      (.single (Caller.Moves.wait hm).next?))

theorem alone_release (p : Pool) :
    Crowd.Alone Caller.next? (p, .borrower .holding) (p.release, .borrower .left) := by
  cases hc : p.closed with
  | true =>
    have hr : p.release = p := by simp [release, hc]
    rw [hr]
    exact .single (Caller.Moves.destroy hc).next?
  | false =>
    rw [release_eq_keep hc]
    have hback : Caller.next? p (.borrower .returning) = some (p.keep, .borrower .left) := rfl
    exact .head (Caller.Moves.offer hc).next? (.single hback)

theorem alone_close (p : Pool) :
    Crowd.Alone Caller.next? (p, .closing) (p.close, .finished p.shut.1) := by
  -- by induction on the idle parsers, whatever was destroyed before
  have hdrain : ∀ (i : Nat) (q : Pool) (n : Nat), q.idle = i →
      Crowd.Alone Caller.next? (q, .draining n) ({ q with idle := 0 }, .finished (n + i)) := by
    intro i
    induction i with
    | zero =>
      intro q n hi
      have hq : { q with idle := 0 } = q := by rw [← hi]
      rw [hq]
      exact .single (Caller.Moves.finish hi).next?
    | succ i ih =>
      intro q n hi
      have hrest := ih { q with idle := q.idle - 1 } (n + 1) (by simp [hi])
      rw [Nat.add_assoc, Nat.add_comm 1 i] at hrest
      have hpos : 0 < q.idle := by omega
      exact .head (Caller.Moves.drain hpos).next? hrest
  rw [close, shut_eq]
  have h := hdrain p.idle { p with closed := true } 0 rfl
  rw [Nat.zero_add] at h
  exact .head Caller.Moves.close.next? h

/-! ## What holds at any time -/

/-- The pool and its callers are in order. -/
structure Orderly (c : Crowd Pool Caller) : Prop where
  size_pos : 0 < c.shared.maxSize
  created_le : c.shared.created ≤ c.shared.maxSize
  /-- Who waits has seen the pool full, and a pool that was full stays so. -/
  full : .borrower .waiting ∈ c.members → c.shared.maxSize ≤ c.shared.created
  drained : ∀ n, .draining n ∈ c.members → c.shared.closed = true
  /-- An open pool loses no parser. Where there is no room for one that is brought back, as many are
      idle as the pool may ever create. -/
  balance : c.shared.closed = false →
    c.shared.created ≤ c.shared.idle + c.members.countP Caller.holds

theorem orderly_of_new {p : Pool} {grammar : Grammar} {n : Nat} (h : Pool.new grammar n = .ok p)
    {callers : List Caller} (hnew : ∀ m ∈ callers, m.isNew = true) : Orderly ⟨p, callers⟩ := by
  unfold Pool.new at h
  split at h
  · cases h
    refine ⟨?_, Nat.zero_le _, ?_, ?_, fun _ => Nat.zero_le _⟩
    · show 0 < max n 1
      omega
    · intro hmem
      cases hnew _ hmem
    · intro n hmem
      cases hnew _ hmem
  · cases h

namespace Orderly

variable {c c' : Crowd Pool Caller}

theorem move (h : Orderly c) {k : Nat} {m m' : Caller} {p' : Pool} (hk : c.members[k]? = some m)
    (hmoves : Caller.Moves c.shared m p' m') : Orderly ⟨p', c.members.set k m'⟩ := by
  have hmem : m ∈ c.members := List.mem_of_getElem? hk
  have hsize := hmoves.maxSize_eq
  obtain ⟨hgrow, hle⟩ := hmoves.created_le h.created_le
  refine ⟨?_, hle, ?_, ?_, ?_⟩
  · show 0 < p'.maxSize
    rw [hsize]
    exact h.size_pos
  · intro hw
    have hfull : c.shared.maxSize ≤ c.shared.created := by
      rcases List.mem_or_eq_of_mem_set hw with hw | rfl
      · exact h.full hw
      · exact hmoves.full_of_waiting
    show p'.maxSize ≤ p'.created
    omega
  · intro n hd
    rcases List.mem_or_eq_of_mem_set hd with hd | rfl
    · exact hmoves.closed (h.drained n hd)
    · cases hmoves with
      | close => rfl
      | drain => exact h.drained _ hmem
  · intro hopen
    have hcount := Crowd.countP_set_add hk Caller.holds m'
    have hwas : c.shared.closed = false := by
      cases hc : c.shared.closed with
      | false => rfl
      | true =>
        have := hmoves.closed hc
        simp [this] at hopen
    have hbal := h.balance hwas
    have hbound := h.created_le
    show p'.created ≤ p'.idle + (c.members.set k m').countP Caller.holds
    rcases hmoves.balance hopen (fun n hn => h.drained n (hn ▸ hmem)) with hkeep | ⟨hsame, hroom⟩
    · omega
    · omega

theorem step (h : Orderly c) (hs : Crowd.Step Caller.next? c c') : Orderly c' := by
  obtain ⟨k, hk⟩ := hs
  obtain ⟨m, p', m', hm, hn, rfl⟩ := Crowd.move_eq_some_iff.1 hk
  exact h.move hm (Caller.next?_eq_some_iff.1 hn)

theorem runs (h : Orderly c) (hr : Crowd.Runs Caller.next? c c') : Orderly c' :=
  hr.keeps (fun _ _ hd hs => hd.step hs) h

end Orderly

end Outline.Pool
