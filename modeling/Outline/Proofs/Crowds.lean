import Mathlib.Logic.Relation

/-!
# Crowds

Several members work at the same time on something that they share. A member is given by how far it
has come. A function `next?` says what a member does next, to itself and to what is shared, in one
indivisible step; it is `none` if the member is finished or has to wait. The members take their
steps in any order, and a run is any number of such steps.
-/

namespace Outline

/-- Something shared, and those who work on it. -/
structure Crowd (σ τ : Type) where
  shared : σ
  members : List τ
deriving DecidableEq

namespace Crowd

open Relation

variable {σ τ : Type} (next? : σ → τ → Option (σ × τ))

/-- The member at a position takes its next step. -/
def move? (c : Crowd σ τ) (i : Nat) : Option (Crowd σ τ) :=
  (c.members[i]?).bind fun t =>
    (next? c.shared t).map fun r => ⟨r.1, c.members.set i r.2⟩

/-- The members at some positions take their steps, one after the other. -/
def follow? (c : Crowd σ τ) : List Nat → Option (Crowd σ τ)
  | [] => some c
  | i :: schedule => (c.move? next? i).bind (·.follow? schedule)

/-- Some member takes its next step. -/
def Step (c c' : Crowd σ τ) : Prop :=
  ∃ i, c.move? next? i = some c'

/-- Any number of steps, in any order. -/
abbrev Runs : Crowd σ τ → Crowd σ τ → Prop :=
  ReflTransGen (Step next?)

/-- A step after which at most `n` members are busy. -/
def StepWithin (busy : τ → Bool) (n : Nat) (c c' : Crowd σ τ) : Prop :=
  Step next? c c' ∧ c'.members.countP busy ≤ n

/-- Any number of steps, in any order, with at most `n` members busy at any time. -/
abbrev RunsWithin (busy : τ → Bool) (n : Nat) : Crowd σ τ → Crowd σ τ → Prop :=
  ReflTransGen (StepWithin next? busy n)

/-- The steps of one member while the others rest. -/
abbrev Alone : σ × τ → σ × τ → Prop :=
  ReflTransGen fun p q => next? p.1 p.2 = some q

variable {next?}

/-! ## Steps -/

theorem move_eq_some_iff {c c' : Crowd σ τ} {i : Nat} :
    c.move? next? i = some c' ↔ ∃ t s' t', c.members[i]? = some t ∧
      next? c.shared t = some (s', t') ∧ c' = ⟨s', c.members.set i t'⟩ := by
  constructor
  · intro h
    obtain ⟨t, ht, hmap⟩ := Option.bind_eq_some_iff.1 h
    obtain ⟨⟨s', t'⟩, hn, rfl⟩ := Option.map_eq_some_iff.1 hmap
    exact ⟨t, s', t', ht, hn, rfl⟩
  · rintro ⟨t, s', t', ht, hn, rfl⟩
    simp [move?, ht, hn]

theorem step_of_next {c : Crowd σ τ} {i : Nat} {t t' : τ} {s' : σ} (ht : c.members[i]? = some t)
    (hn : next? c.shared t = some (s', t')) : Step next? c ⟨s', c.members.set i t'⟩ :=
  ⟨i, move_eq_some_iff.2 ⟨t, s', t', ht, hn, rfl⟩⟩

theorem runs_of_follow {c c' : Crowd σ τ} (schedule : List Nat)
    (h : c.follow? next? schedule = some c') : Runs next? c c' := by
  induction schedule generalizing c with
  | nil =>
    cases h
    exact .refl
  | cons i schedule ih =>
    obtain ⟨d, hd, hrest⟩ := Option.bind_eq_some_iff.1 h
    exact .head ⟨i, hd⟩ (ih hrest)

/-- What every step keeps, every run keeps. -/
theorem Runs.keeps {P : Crowd σ τ → Prop} {c c' : Crowd σ τ} (hr : Runs next? c c')
    (hstep : ∀ d d', P d → Step next? d d' → P d') (hc : P c) : P c' := by
  induction hr with
  | refl => exact hc
  | tail _ hs ih => exact hstep _ _ ih hs

theorem RunsWithin.runs {busy : τ → Bool} {n : Nat} {c c' : Crowd σ τ}
    (h : RunsWithin next? busy n c c') : Runs next? c c' :=
  ReflTransGen.mono (fun _ _ hs => hs.1) _ _ h

theorem RunsWithin.mono {busy : τ → Bool} {m n : Nat} (hmn : m ≤ n) {c c' : Crowd σ τ}
    (h : RunsWithin next? busy m c c') : RunsWithin next? busy n c c' :=
  ReflTransGen.mono (fun _ _ hs => ⟨hs.1, Nat.le_trans hs.2 hmn⟩) _ _ h

/-- With a bound on the busy members that holds at the start, it holds at any time. -/
theorem RunsWithin.countP_le {busy : τ → Bool} {n : Nat} {c c' : Crowd σ τ}
    (h : RunsWithin next? busy n c c') (hc : c.members.countP busy ≤ n) :
    c'.members.countP busy ≤ n := by
  induction h with
  | refl => exact hc
  | tail _ hs _ => exact hs.2

/-! ## One member in a list -/

theorem set_eq_self {l : List τ} {i : Nat} {t : τ} (ht : l[i]? = some t) : l.set i t = l := by
  obtain ⟨hi, rfl⟩ := List.getElem?_eq_some_iff.1 ht
  exact List.set_getElem_self hi

theorem mem_set_self {l : List τ} {i : Nat} {t : τ} (ht : l[i]? = some t) (t' : τ) :
    t' ∈ l.set i t' :=
  List.mem_set (List.getElem?_eq_some_iff.1 ht).1 t'

/-- All but the member that is replaced stay. -/
theorem eq_or_mem_set {l : List τ} {i : Nat} {t u : τ} (ht : l[i]? = some t) (hu : u ∈ l) (t' : τ) :
    u = t ∨ u ∈ l.set i t' := by
  obtain ⟨j, hj⟩ := List.mem_iff_getElem?.1 hu
  by_cases hij : i = j
  · subst hij
    rw [ht] at hj
    exact Or.inl (Option.some.inj hj).symm
  · refine Or.inr (List.mem_iff_getElem?.2 ⟨j, ?_⟩)
    rw [List.getElem?_set_ne hij, hj]

/-- What is there after a member is replaced, and is not the new one, was there before. -/
theorem mem_of_mem_set {l : List τ} {i : Nat} {t' u : τ} (hu : u ∈ l.set i t') (hne : u ≠ t') :
    u ∈ l :=
  (List.mem_or_eq_of_mem_set hu).resolve_right hne

/-- How a count changes with one member. -/
theorem countP_set_add {l : List τ} {i : Nat} {t : τ} (ht : l[i]? = some t) (p : τ → Bool)
    (t' : τ) : (l.set i t').countP p + (p t).toNat = l.countP p + (p t').toNat := by
  induction l generalizing i with
  | nil => simp at ht
  | cons u l ih =>
    cases i with
    | zero =>
      obtain rfl : u = t := by simpa using ht
      cases hu : p u <;> cases ht' : p t' <;> simp [hu, ht']
    | succ i =>
      have hrest := ih (i := i) (by simpa using ht)
      simp only [List.set_cons_succ, List.countP_cons]
      omega

/-- One member that meets the wider condition only makes a difference. -/
theorem countP_lt_countP {l : List τ} {p q : τ → Bool} (hpq : ∀ t ∈ l, p t = true → q t = true)
    {t : τ} (ht : t ∈ l) (hq : q t = true) (hp : p t = false) : l.countP p < l.countP q := by
  induction l with
  | nil => simp at ht
  | cons u l ih =>
    have hle : l.countP p ≤ l.countP q :=
      List.countP_mono_left fun v hv => hpq v (List.mem_cons_of_mem u hv)
    have hu := hpq u List.mem_cons_self
    rcases List.mem_cons.1 ht with rfl | hmem
    · rw [List.countP_cons_of_pos hq, List.countP_cons_of_neg (by simp [hp])]
      omega
    · have hlt := ih (fun v hv => hpq v (List.mem_cons_of_mem u hv)) hmem
      by_cases h : p u = true
      · rw [List.countP_cons_of_pos h, List.countP_cons_of_pos (hu h)]
        omega
      · have hcons : l.countP q ≤ (u :: l).countP q :=
          List.Sublist.countP_le (List.sublist_cons_self u l)
        rw [List.countP_cons_of_neg h]
        omega

/-! ## One member alone -/

/-- What is a step in one view of a member is a step in another. -/
theorem alone_lift {σ' τ' : Type} {next?' : σ' → τ' → Option (σ' × τ')} (f : σ × τ → σ' × τ')
    (hf : ∀ p q, next? p.1 p.2 = some q → next?' (f p).1 (f p).2 = some (f q)) {p q : σ × τ}
    (h : Alone next? p q) : Alone next?' (f p) (f q) :=
  h.lift f hf

/-- The steps of one member while the others rest make it busy, and nobody else. -/
theorem runsWithin_of_alone {s s' : σ} {t t' : τ} (h : Alone next? (s, t) (s', t'))
    {members : List τ} {i : Nat} (ht : members[i]? = some t) (busy : τ → Bool) :
    RunsWithin next? busy (members.countP busy + 1) ⟨s, members⟩ ⟨s', members.set i t'⟩ := by
  -- by induction on the steps of the member, which change the list at its place only
  have key : ∀ q, Alone next? (s, t) q →
      RunsWithin next? busy (members.countP busy + 1) ⟨s, members⟩ ⟨q.1, members.set i q.2⟩ := by
    intro q hq
    have hlt : i < members.length := (List.getElem?_eq_some_iff.1 ht).1
    induction hq with
    | refl =>
      rw [set_eq_self ht]
    | @tail q r _ hn ih =>
      have hmem : (members.set i q.2)[i]? = some q.2 := List.getElem?_set_self hlt
      have hs := step_of_next (c := ⟨q.1, members.set i q.2⟩) hmem hn
      rw [List.set_set] at hs
      refine ih.tail ⟨hs, ?_⟩
      have hcount := countP_set_add ht busy r.2
      have hone : (busy r.2).toNat ≤ 1 := Bool.toNat_le _
      show (members.set i r.2).countP busy ≤ members.countP busy + 1
      omega
  exact key _ h

theorem runs_of_alone {s s' : σ} {t t' : τ} (h : Alone next? (s, t) (s', t')) {members : List τ}
    {i : Nat} (ht : members[i]? = some t) : Runs next? ⟨s, members⟩ ⟨s', members.set i t'⟩ :=
  (runsWithin_of_alone h ht fun _ => false).runs

/-! ## Runs that end -/

/-- The ranks of all members together. -/
def total (rank : τ → Nat) (members : List τ) : Nat :=
  members.foldr (fun t n => rank t + n) 0

theorem total_set_add {l : List τ} {i : Nat} {t : τ} (ht : l[i]? = some t) (rank : τ → Nat)
    (t' : τ) : total rank (l.set i t') + rank t = total rank l + rank t' := by
  induction l generalizing i with
  | nil => simp at ht
  | cons u l ih =>
    cases i with
    | zero =>
      obtain rfl : u = t := by simpa using ht
      simp only [List.set_cons_zero, total, List.foldr_cons]
      omega
    | succ i =>
      have hrest := ih (i := i) (by simpa using ht)
      simp only [List.set_cons_succ, total, List.foldr_cons] at hrest ⊢
      omega

/-- If every step brings the member that takes it nearer to its end, no run goes on for ever. -/
theorem not_forall_step {rank : τ → Nat}
    (hrank : ∀ s t s' t', next? s t = some (s', t') → rank t' < rank t) (run : Nat → Crowd σ τ) :
    ¬ ∀ k, Step next? (run k) (run (k + 1)) := by
  intro hsteps
  -- each step lowers the total by one at least
  have hdown : ∀ k, total rank (run k).members + k ≤ total rank (run 0).members := by
    intro k
    induction k with
    | zero => exact Nat.le_refl _
    | succ k ih =>
      obtain ⟨i, hi⟩ := hsteps k
      obtain ⟨t, s', t', ht, hn, heq⟩ := move_eq_some_iff.1 hi
      have hlt := hrank _ t s' t' hn
      have hsum := total_set_add ht rank t'
      rw [heq]
      show total rank ((run k).members.set i t') + (k + 1) ≤ _
      omega
  have hlast := hdown (total rank (run 0).members + 1)
  omega

end Crowd

end Outline
