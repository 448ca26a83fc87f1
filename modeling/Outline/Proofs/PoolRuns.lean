import Mathlib.Logic.Relation
import Mathlib.Tactic.SplitIfs
import Outline.Session.Pool

/-!
# Runs of a parser pool

A pool knows how many parsers it has created and how many are idle, and nothing of the others. A
`Ledger` keeps books beside it: the parsers on loan, those destroyed, and those that were brought to
the pool though it never lent them. An action is one call on the pool; it has no step where a caller
would have to wait, or has nothing to bring back. What one step can do is said once, in
`Ledger.step_cases`; that the books balance after every run follows from it.
-/

namespace Outline.Pool

open Relation

/-! ## The operations -/

/-- Draining takes all idle parsers. -/
theorem drain_eq (p : Pool) : p.drain = (p.idle, { p with idle := 0 }) := by
  fun_induction drain p with
  | case1 p h =>
    obtain ⟨g, m, c, i, b⟩ := p
    simp_all
  | case2 p h count rest hd ih =>
    rw [hd] at ih
    obtain ⟨rfl, rfl⟩ := Prod.mk.inj ih
    have hidle : p.idle - 1 + 1 = p.idle := by omega
    simp [hidle]

theorem shut_eq (p : Pool) : p.shut = (p.idle, { p with idle := 0, closed := true }) := by
  simp [shut, drain_eq]

/-- Whether a parser that is brought to the pool stays there. -/
def hasRoom (p : Pool) : Bool :=
  !p.closed && p.idle < p.maxSize

theorem release_of_hasRoom {p : Pool} (h : p.hasRoom = true) :
    p.release = { p with idle := p.idle + 1 } := by
  simp only [hasRoom, Bool.and_eq_true, Bool.not_eq_true', decide_eq_true_eq] at h
  simp [release, h.1, h.2]

theorem release_of_not_hasRoom {p : Pool} (h : p.hasRoom = false) : p.release = p := by
  unfold release
  split_ifs with hc hr
  · rfl
  · simp [hasRoom, hc, hr] at h
  · rfl

/-- The four answers to a borrower. -/
theorem acquire_cases (p : Pool) :
    (p.closed = true ∧ p.acquire = .poolClosed) ∨
    (p.closed = false ∧ 0 < p.idle ∧ p.acquire = .granted { p with idle := p.idle - 1 }) ∨
    (p.closed = false ∧ p.idle = 0 ∧ p.created < p.maxSize ∧
      p.acquire = .granted { p with created := p.created + 1 }) ∨
    (p.closed = false ∧ p.idle = 0 ∧ p.maxSize ≤ p.created ∧ p.acquire = .wait) := by
  cases hc : p.closed with
  | true => exact Or.inl ⟨rfl, by simp [acquire, hc]⟩
  | false =>
    right
    by_cases hi : p.idle = 0
    · right
      by_cases hm : p.created < p.maxSize
      · exact Or.inl ⟨rfl, hi, hm, by simp [acquire, hc, takeIdle?, create?, hi, hm]⟩
      · exact Or.inr ⟨rfl, hi, by omega, by simp [acquire, hc, takeIdle?, create?, hi, hm]⟩
    · exact Or.inl ⟨rfl, by omega, by simp [acquire, hc, takeIdle?, hi]⟩

/-! ## The books -/

/-- A pool with what became of the parsers that it does not hold. -/
structure Ledger where
  pool : Pool
  /-- Parsers that the pool has lent and that have not come back. -/
  onLoan : Nat
  /-- Parsers that were destroyed, when they came back or when the pool was closed. -/
  destroyed : Nat
  /-- Parsers that were brought to the pool though it never lent them. -/
  strays : Nat
deriving DecidableEq

/-- A call on the pool. -/
inductive Action where
  | acquire
  /-- Bring back a parser on loan. -/
  | release
  /-- Bring a parser that the pool never lent. -/
  | releaseStray
  | close
deriving DecidableEq

/-- What a call returns, or does to the parser that is brought. -/
inductive Answer where
  | lent
  | poolClosed
  | kept
  | destroyed
  /-- The pool is closed, and this many idle parsers are destroyed. -/
  | closed (count : Nat)
deriving DecidableEq

namespace Ledger

/-- The books of a pool that has done nothing yet. -/
def opening (p : Pool) : Ledger :=
  ⟨p, 0, 0, 0⟩

/-- Bring a parser to the pool. -/
def bring (l : Ledger) : Answer × Ledger :=
  if l.pool.hasRoom then (.kept, { l with pool := l.pool.release })
  else (.destroyed, { l with pool := l.pool.release, destroyed := l.destroyed + 1 })

/-- One call on the pool. There is none if the caller would have to wait, or has no loan to bring
    back. -/
def step? (l : Ledger) : Action → Option (Answer × Ledger)
  | .acquire =>
    match l.pool.acquire with
    | .granted rest => some (.lent, { l with pool := rest, onLoan := l.onLoan + 1 })
    | .poolClosed => some (.poolClosed, l)
    | .wait => none
  | .release => if l.onLoan = 0 then none else some (bring { l with onLoan := l.onLoan - 1 })
  | .releaseStray => some (bring { l with strays := l.strays + 1 })
  | .close =>
    some (.closed l.pool.shut.1,
      { l with pool := l.pool.shut.2, destroyed := l.destroyed + l.pool.shut.1 })

/-- A run: any number of calls, in any order. -/
abbrev Runs : Ledger → Ledger → Prop :=
  ReflTransGen fun l l' => ∃ action answer, l.step? action = some (answer, l')

/-! ## What one step can do -/

theorem bring_cases (l : Ledger) :
    (l.pool.hasRoom = true ∧
      l.bring = (.kept, { l with pool := { l.pool with idle := l.pool.idle + 1 } })) ∨
    (l.pool.hasRoom = false ∧ l.bring = (.destroyed, { l with destroyed := l.destroyed + 1 })) := by
  cases hr : l.pool.hasRoom with
  | true => exact Or.inl ⟨rfl, by simp [bring, hr, release_of_hasRoom hr]⟩
  | false => exact Or.inr ⟨rfl, by simp [bring, hr, release_of_not_hasRoom hr]⟩

/-- Bringing a parser to a pool neither closes it nor creates anything. -/
theorem bring_frame {l l' : Ledger} {answer : Answer} (h : (answer, l') = l.bring) :
    l'.pool.closed = l.pool.closed ∧ l'.pool.created = l.pool.created := by
  rcases bring_cases l with ⟨-, he⟩ | ⟨-, he⟩
  · rw [he] at h
    obtain ⟨-, rfl⟩ := Prod.mk.inj h
    exact ⟨rfl, rfl⟩
  · rw [he] at h
    obtain ⟨-, rfl⟩ := Prod.mk.inj h
    exact ⟨rfl, rfl⟩

/-- Every step is a refusal, the loan of an idle parser, the loan of a new parser, the return of a
    loan, the arrival of a stray parser, or the closing of the pool. -/
theorem step_cases {l l' : Ledger} {action : Action} {answer : Answer}
    (h : l.step? action = some (answer, l')) :
    (action = .acquire ∧ l.pool.closed = true ∧ answer = .poolClosed ∧ l' = l) ∨
    (action = .acquire ∧ l.pool.closed = false ∧ 0 < l.pool.idle ∧ answer = .lent ∧
      l' = { l with pool := { l.pool with idle := l.pool.idle - 1 }, onLoan := l.onLoan + 1 }) ∨
    (action = .acquire ∧ l.pool.closed = false ∧ l.pool.idle = 0 ∧
      l.pool.created < l.pool.maxSize ∧ answer = .lent ∧
      l' = { l with
        pool := { l.pool with created := l.pool.created + 1 }, onLoan := l.onLoan + 1 }) ∨
    (action = .release ∧ 0 < l.onLoan ∧ (answer, l') = bring { l with onLoan := l.onLoan - 1 }) ∨
    (action = .releaseStray ∧ (answer, l') = bring { l with strays := l.strays + 1 }) ∨
    (action = .close ∧ answer = .closed l.pool.idle ∧
      l' = { l with
        pool := { l.pool with idle := 0, closed := true }
        destroyed := l.destroyed + l.pool.idle }) := by
  cases action with
  | acquire =>
    rcases acquire_cases l.pool with ⟨hc, ha⟩ | ⟨hc, hi, ha⟩ | ⟨hc, hi, hm, ha⟩ | ⟨hc, hi, hm, ha⟩
    · simp only [step?, ha, Option.some.injEq, Prod.mk.injEq] at h
      exact Or.inl ⟨rfl, hc, h.1.symm, h.2.symm⟩
    · simp only [step?, ha, Option.some.injEq, Prod.mk.injEq] at h
      exact Or.inr (Or.inl ⟨rfl, hc, hi, h.1.symm, h.2.symm⟩)
    · simp only [step?, ha, Option.some.injEq, Prod.mk.injEq] at h
      exact Or.inr (Or.inr (Or.inl ⟨rfl, hc, hi, hm, h.1.symm, h.2.symm⟩))
    · simp [step?, ha] at h
  | release =>
    by_cases hl : l.onLoan = 0
    · simp [step?, hl] at h
    · simp only [step?, hl, if_false, Option.some.injEq] at h
      exact Or.inr (Or.inr (Or.inr (Or.inl ⟨rfl, by omega, h.symm⟩)))
  | releaseStray =>
    simp only [step?, Option.some.injEq] at h
    exact Or.inr (Or.inr (Or.inr (Or.inr (Or.inl ⟨rfl, h.symm⟩))))
  | close =>
    simp only [step?, shut_eq, Option.some.injEq, Prod.mk.injEq] at h
    exact Or.inr (Or.inr (Or.inr (Or.inr (Or.inr ⟨rfl, h.1.symm, h.2.symm⟩))))

/-! ## The invariant -/

/-- The books of a pool of the given size balance. -/
structure Balanced (size : Nat) (l : Ledger) : Prop where
  maxSize_eq : l.pool.maxSize = size
  created_le : l.pool.created ≤ l.pool.maxSize
  idle_le : l.pool.idle ≤ l.pool.maxSize
  balance : l.pool.idle + l.onLoan + l.destroyed = l.pool.created + l.strays
  idle_of_closed : l.pool.closed = true → l.pool.idle = 0
  /-- As long as the pool is open, only a stray parser can overflow it. -/
  destroyed_of_open : l.pool.closed = false → l.strays = 0 → l.destroyed = 0

theorem balanced_opening (grammar : Grammar) (size : Nat) :
    Balanced size (opening ⟨grammar, size, 0, 0, false⟩) :=
  ⟨rfl, Nat.zero_le _, Nat.zero_le _, rfl, fun _ => rfl, fun _ _ => rfl⟩

/-- A loan of an open pool that never saw a stray parser finds room when it comes back. -/
theorem Balanced.hasRoom {size : Nat} {l : Ledger} (h : Balanced size l)
    (hc : l.pool.closed = false) (hs : l.strays = 0) (hl : 0 < l.onLoan) :
    l.pool.hasRoom = true := by
  have hd := h.destroyed_of_open hc hs
  have hb := h.balance
  have hle := h.created_le
  have hroom : l.pool.idle < l.pool.maxSize := by omega
  simp [Pool.hasRoom, hc, hroom]

/-- The invariant survives a parser that is brought to the pool, if the books already miss it: it is
    counted neither as idle, nor on loan, nor destroyed. -/
theorem balanced_bring {size : Nat} {l l' : Ledger} {answer : Answer}
    (h : (answer, l') = l.bring) (hm : l.pool.maxSize = size)
    (hcr : l.pool.created ≤ l.pool.maxSize) (hi : l.pool.idle ≤ l.pool.maxSize)
    (hb : l.pool.idle + l.onLoan + l.destroyed + 1 = l.pool.created + l.strays)
    (hcl : l.pool.closed = true → l.pool.idle = 0)
    (hd : l.pool.closed = false → l.strays = 0 → l.destroyed = 0 ∧ l.pool.hasRoom = true) :
    Balanced size l' := by
  rcases bring_cases l with ⟨hr, he⟩ | ⟨hr, he⟩
  · rw [he] at h
    obtain ⟨-, rfl⟩ := Prod.mk.inj h
    have hr' : l.pool.closed = false ∧ l.pool.idle < l.pool.maxSize := by
      simpa [Pool.hasRoom] using hr
    refine ⟨hm, hcr, hr'.2, ?_, ?_, fun hc hs => (hd hc hs).1⟩
    · show l.pool.idle + 1 + l.onLoan + l.destroyed = l.pool.created + l.strays
      omega
    · intro hc
      simp [hr'.1] at hc
  · rw [he] at h
    obtain ⟨-, rfl⟩ := Prod.mk.inj h
    refine ⟨hm, hcr, hi, ?_, hcl, ?_⟩
    · show l.pool.idle + l.onLoan + (l.destroyed + 1) = l.pool.created + l.strays
      omega
    · intro hc hs
      have := (hd hc hs).2
      simp [hr] at this

/-- One step keeps the books balanced. -/
theorem Balanced.step {size : Nat} {l l' : Ledger} {action : Action} {answer : Answer}
    (h : Balanced size l) (hs : l.step? action = some (answer, l')) : Balanced size l' := by
  have hb := h.balance
  have hle := h.created_le
  have hi := h.idle_le
  rcases step_cases hs with ⟨-, -, -, rfl⟩ | ⟨-, hc, hpos, -, rfl⟩ | ⟨-, hc, hz, hlt, -, rfl⟩ |
    ⟨-, hpos, hbr⟩ | ⟨-, hbr⟩ | ⟨-, -, rfl⟩
  · exact h
  · refine ⟨h.maxSize_eq, hle, ?_, ?_, ?_, h.destroyed_of_open⟩
    · show l.pool.idle - 1 ≤ l.pool.maxSize
      omega
    · show l.pool.idle - 1 + (l.onLoan + 1) + l.destroyed = l.pool.created + l.strays
      omega
    · intro hcl
      simp [hc] at hcl
  · refine ⟨h.maxSize_eq, hlt, hi, ?_, h.idle_of_closed, h.destroyed_of_open⟩
    show l.pool.idle + (l.onLoan + 1) + l.destroyed = l.pool.created + 1 + l.strays
    omega
  · refine balanced_bring hbr h.maxSize_eq hle hi ?_ h.idle_of_closed ?_
    · show l.pool.idle + (l.onLoan - 1) + l.destroyed + 1 = l.pool.created + l.strays
      omega
    · intro hc hst
      exact ⟨h.destroyed_of_open hc hst, h.hasRoom hc hst hpos⟩
  · refine balanced_bring hbr h.maxSize_eq hle hi ?_ h.idle_of_closed ?_
    · show l.pool.idle + l.onLoan + l.destroyed + 1 = l.pool.created + (l.strays + 1)
      omega
    · intro _ hst
      simp at hst
  · refine ⟨h.maxSize_eq, hle, Nat.zero_le _, ?_, fun _ => rfl, ?_⟩
    · show 0 + l.onLoan + (l.destroyed + l.pool.idle) = l.pool.created + l.strays
      omega
    · intro hc
      simp at hc

/-- Every run keeps the books balanced. -/
theorem Balanced.runs {size : Nat} {l l' : Ledger} (h : Balanced size l) (hr : Runs l l') :
    Balanced size l' := by
  induction hr with
  | refl => exact h
  | tail _ hstep ih =>
    obtain ⟨action, answer, hs⟩ := hstep
    exact ih.step hs

/-! ## Closed pools -/

theorem closed_step {l l' : Ledger} {action : Action} {answer : Answer}
    (h : l.pool.closed = true) (hs : l.step? action = some (answer, l')) :
    l'.pool.closed = true := by
  rcases step_cases hs with ⟨-, -, -, rfl⟩ | ⟨-, hc, -⟩ | ⟨-, hc, -⟩ | ⟨-, -, hbr⟩ | ⟨-, hbr⟩ |
    ⟨-, -, rfl⟩
  · exact h
  · simp [h] at hc
  · simp [h] at hc
  · exact (bring_frame hbr).1.trans h
  · exact (bring_frame hbr).1.trans h
  · rfl

/-- A closed pool is never opened again. -/
theorem closed_runs {l l' : Ledger} (h : l.pool.closed = true) (hr : Runs l l') :
    l'.pool.closed = true := by
  induction hr with
  | refl => exact h
  | tail _ hstep ih =>
    obtain ⟨action, answer, hs⟩ := hstep
    exact closed_step ih hs

/-- What is brought to a closed pool is destroyed. -/
theorem bring_of_closed {l : Ledger} (h : l.pool.closed = true) :
    l.bring = (.destroyed, { l with destroyed := l.destroyed + 1 }) := by
  rcases bring_cases l with ⟨hr, -⟩ | ⟨-, he⟩
  · simp [Pool.hasRoom, h] at hr
  · exact he

/-! ## Creation -/

/-- A step creates a parser exactly when it borrows from an open pool that has none idle and may
    create one more. -/
theorem created_step {l l' : Ledger} {action : Action} {answer : Answer}
    (hs : l.step? action = some (answer, l')) :
    l'.pool.created =
      if action = .acquire ∧ l.pool.closed = false ∧ l.pool.idle = 0 ∧
          l.pool.created < l.pool.maxSize
      then l.pool.created + 1 else l.pool.created := by
  rcases step_cases hs with ⟨rfl, hc, -, rfl⟩ | ⟨rfl, -, hpos, -, rfl⟩ |
    ⟨rfl, hc, hz, hlt, -, rfl⟩ | ⟨rfl, -, hbr⟩ | ⟨rfl, hbr⟩ | ⟨rfl, -, rfl⟩
  · simp [hc]
  · have hne : l.pool.idle ≠ 0 := by omega
    simp [hne]
  · simp [hc, hz, hlt]
  · simpa using (bring_frame hbr).2
  · simpa using (bring_frame hbr).2
  · simp

/-- A borrower would wait exactly if the pool is open, has no idle parser and may create none. -/
theorem acquire_eq_wait_iff (p : Pool) :
    p.acquire = .wait ↔ p.closed = false ∧ p.idle = 0 ∧ p.maxSize ≤ p.created := by
  rcases acquire_cases p with ⟨hc, ha⟩ | ⟨hc, hi, ha⟩ | ⟨hc, hi, hm, ha⟩ | ⟨hc, hi, hm, ha⟩
  · simp [ha, hc]
  · have hne : p.idle ≠ 0 := by omega
    simp [ha, hne]
  · have hlt : ¬ p.maxSize ≤ p.created := by omega
    simp [ha, hlt]
  · simp [ha, hc, hi, hm]

/-! ## Every state of every run -/

/-- What holds of a pool of the given size and of its books at any time. -/
structure Sound (size : Nat) (l : Ledger) : Prop where
  maxSize_eq : l.pool.maxSize = size
  created_le : l.pool.created ≤ l.pool.maxSize
  idle_le : l.pool.idle ≤ l.pool.maxSize
  balance : l.pool.idle + l.onLoan + l.destroyed = l.pool.created + l.strays
  /-- The next step creates one parser or none. -/
  created_step : ∀ action answer l', l.step? action = some (answer, l') →
    l'.pool.created =
      if action = .acquire ∧ l.pool.closed = false ∧ l.pool.idle = 0 ∧
          l.pool.created < l.pool.maxSize
      then l.pool.created + 1 else l.pool.created
  /-- Closing tells the number of idle parsers, and destroys them. It leaves the loans alone. -/
  close_step : l.step? .close = some (.closed l.pool.idle,
    { l with
      pool := { l.pool with idle := 0, closed := true }
      destroyed := l.destroyed + l.pool.idle })
  closed_forever : l.pool.closed = true →
    ∀ l', Runs l l' → l'.pool.closed = true ∧ l'.pool.idle = 0
  acquire_of_closed : l.pool.closed = true → l.step? .acquire = some (.poolClosed, l)
  release_of_closed : l.pool.closed = true → 0 < l.onLoan →
    l.step? .release = some (.destroyed,
      { l with onLoan := l.onLoan - 1, destroyed := l.destroyed + 1 })
  stray_of_closed : l.pool.closed = true →
    l.step? .releaseStray = some (.destroyed,
      { l with strays := l.strays + 1, destroyed := l.destroyed + 1 })
  /-- An idle parser is lent before a new one is created. -/
  lend_of_open : l.pool.closed = false → 0 < l.pool.idle →
    l.step? .acquire = some (.lent,
      { l with pool := { l.pool with idle := l.pool.idle - 1 }, onLoan := l.onLoan + 1 })
  create_of_open : l.pool.closed = false → l.pool.idle = 0 → l.pool.created < l.pool.maxSize →
    l.step? .acquire = some (.lent,
      { l with pool := { l.pool with created := l.pool.created + 1 }, onLoan := l.onLoan + 1 })
  /-- A stray parser stays if there is room for it. -/
  stray_of_open : l.pool.closed = false →
    l.step? .releaseStray = some
      (if l.pool.idle < l.pool.maxSize then
        (.kept, { l with
          pool := { l.pool with idle := l.pool.idle + 1 }, strays := l.strays + 1 })
      else (.destroyed, { l with strays := l.strays + 1, destroyed := l.destroyed + 1 }))
  created_of_open : l.pool.closed = false → l.strays = 0 →
    l.pool.idle + l.onLoan = l.pool.created
  release_of_open : l.pool.closed = false → l.strays = 0 → 0 < l.onLoan →
    l.step? .release = some (.kept,
      { l with pool := { l.pool with idle := l.pool.idle + 1 }, onLoan := l.onLoan - 1 })
  wait_of_open : l.pool.closed = false → l.strays = 0 →
    (l.step? .acquire = none ↔ l.onLoan = l.pool.maxSize)

theorem acquire_step_eq_none_iff (l : Ledger) :
    l.step? .acquire = none ↔ l.pool.acquire = .wait := by
  cases ha : l.pool.acquire <;> simp [step?, ha]

theorem Balanced.sound {size : Nat} {l : Ledger} (h : Balanced size l) : Sound size l where
  maxSize_eq := h.maxSize_eq
  created_le := h.created_le
  idle_le := h.idle_le
  balance := h.balance
  created_step := fun _ _ _ hs => Ledger.created_step hs
  close_step := by simp [step?, shut_eq]
  closed_forever := by
    intro hc l' hr
    have hc' := closed_runs hc hr
    exact ⟨hc', (h.runs hr).idle_of_closed hc'⟩
  acquire_of_closed := by
    intro hc
    simp [step?, Pool.acquire, hc]
  release_of_closed := by
    intro hc hl
    have hne : l.onLoan ≠ 0 := by omega
    have hbr := bring_of_closed (l := { l with onLoan := l.onLoan - 1 }) hc
    simp [step?, hne, hbr]
  stray_of_closed := by
    intro hc
    have hbr := bring_of_closed (l := { l with strays := l.strays + 1 }) hc
    simp [step?, hbr]
  lend_of_open := by
    intro hc hi
    have hne : l.pool.idle ≠ 0 := by omega
    simp [step?, acquire, takeIdle?, hc, hne]
  create_of_open := by
    intro hc hi hlt
    simp [step?, acquire, takeIdle?, create?, hc, hi, hlt]
  stray_of_open := by
    intro hc
    by_cases hroom : l.pool.idle < l.pool.maxSize
    · simp [step?, bring, Pool.hasRoom, release, hc, hroom]
    · simp [step?, bring, Pool.hasRoom, release, hc, hroom]
  created_of_open := by
    intro hc hs
    have hd := h.destroyed_of_open hc hs
    have hb := h.balance
    omega
  release_of_open := by
    intro hc hs hl
    have hne : l.onLoan ≠ 0 := by omega
    have hroom := h.hasRoom hc hs hl
    simp [step?, hne, bring, hroom, release_of_hasRoom hroom]
  wait_of_open := by
    intro hc hs
    have hd := h.destroyed_of_open hc hs
    have hb := h.balance
    have hle := h.created_le
    rw [acquire_step_eq_none_iff, acquire_eq_wait_iff]
    constructor
    · rintro ⟨-, hi, hm⟩
      omega
    · intro hl
      exact ⟨hc, by omega, by omega⟩

end Ledger

/-- A pool for a known grammar opens without parsers and with room for at least one. After any calls
    in any order its books balance, it keeps its bounds, and it stays closed once it is closed. -/
theorem sound_of_runs (grammar : Grammar) (n : Nat) (hg : grammar.isKnown = true) :
    Pool.new grammar n = .ok ⟨grammar, max n 1, 0, 0, false⟩ ∧
      ∀ l, Ledger.Runs (.opening ⟨grammar, max n 1, 0, 0, false⟩) l →
        Ledger.Sound (max n 1) l := by
  refine ⟨by simp [Pool.new, hg], fun l hr => ?_⟩
  exact ((Ledger.balanced_opening grammar (max n 1)).runs hr).sound

/-- Even a pool of size zero has room for one parser. If the pool is closed while the parser is on
    loan, the parser is destroyed when it comes back, and it is not lent again. -/
theorem sound_of_runs_closedOnLoan :
    let grammar : Grammar := ⟨.typescript, true⟩
    let opened : Pool := ⟨grammar, 1, 0, 0, false⟩
    let lent : Pool := ⟨grammar, 1, 1, 0, false⟩
    let closed : Pool := ⟨grammar, 1, 1, 0, true⟩
    grammar.isKnown = true ∧ Pool.new grammar 0 = .ok opened ∧
      Ledger.step? (.opening opened) .acquire = some (.lent, ⟨lent, 1, 0, 0⟩) ∧
      Ledger.step? ⟨lent, 1, 0, 0⟩ .close = some (.closed 0, ⟨closed, 1, 0, 0⟩) ∧
      Ledger.step? ⟨closed, 1, 0, 0⟩ .release = some (.destroyed, ⟨closed, 0, 1, 0⟩) ∧
      Ledger.step? ⟨closed, 0, 1, 0⟩ .acquire = some (.poolClosed, ⟨closed, 0, 1, 0⟩) ∧
      Ledger.Sound 1 ⟨closed, 0, 1, 0⟩ := by
  intro grammar opened lent closed
  obtain ⟨hnew, hsound⟩ := sound_of_runs grammar 0 rfl
  -- Each state is sound, so it says what the next step does.
  have hlend := (hsound _ .refl).create_of_open rfl rfl Nat.zero_lt_one
  have hlent : Ledger.Runs (.opening opened) ⟨lent, 1, 0, 0⟩ := .single ⟨_, _, hlend⟩
  have hclose := (hsound _ hlent).close_step
  have hclosed : Ledger.Runs (.opening opened) ⟨closed, 1, 0, 0⟩ := hlent.tail ⟨_, _, hclose⟩
  have hdestroy := (hsound _ hclosed).release_of_closed rfl Nat.zero_lt_one
  have hdestroyed : Ledger.Runs (.opening opened) ⟨closed, 0, 1, 0⟩ :=
    hclosed.tail ⟨_, _, hdestroy⟩
  have hrefuse := (hsound _ hdestroyed).acquire_of_closed rfl
  exact ⟨rfl, hnew, hlend, hclose, hdestroy, hrefuse, hsound _ hdestroyed⟩

end Outline.Pool
