import Outline.Text.Regex

/-!
# Words of regular expressions

Matching by derivatives accepts exactly the words that an expression describes (`accepts_iff`),
where `Describes` says constructor by constructor what these are. The derivative of an expression
describes the words that it describes with one symbol in front (`describes_deriv`).
-/

namespace Outline.Text.Regex

variable {α : Type}

/-- Whether an expression describes a word. -/
def Describes : Regex α → List α → Prop
  | never, _ => False
  | empty, w => w = []
  | symbol p, w => ∃ a, p a = true ∧ w = [a]
  | seq r s, w => ∃ u v, w = u ++ v ∧ r.Describes u ∧ s.Describes v
  | alt r s, w => r.Describes w ∨ s.Describes w
  | star r, w => ∃ us : List (List α), w = us.flatten ∧ ∀ u ∈ us, r.Describes u

/-! ## Derivatives -/

theorem nullable_iff (r : Regex α) : r.nullable = true ↔ r.Describes [] := by
  induction r with
  | never => simp [nullable, Describes]
  | empty => simp [nullable, Describes]
  | symbol p => simp [nullable, Describes]
  | seq r s ihr ihs =>
    rw [nullable, Bool.and_eq_true, ihr, ihs, Describes]
    constructor
    · rintro ⟨hr, hs⟩
      exact ⟨[], [], rfl, hr, hs⟩
    · rintro ⟨u, v, huv, hr, hs⟩
      obtain ⟨rfl, rfl⟩ := List.append_eq_nil_iff.1 huv.symm
      exact ⟨hr, hs⟩
  | alt r s ihr ihs => rw [nullable, Bool.or_eq_true, ihr, ihs, Describes]
  | star r => exact ⟨fun _ => ⟨[], rfl, by simp⟩, fun _ => rfl⟩

/-- Behind an expression for a single word stands what is left after that word. -/
theorem describes_seq_of_single {r : Regex α} {u : List α} (hr : ∀ w, r.Describes w ↔ w = u)
    (s : Regex α) (w : List α) :
    (seq r s).Describes w ↔ ∃ v, w = u ++ v ∧ s.Describes v := by
  constructor
  · rintro ⟨u', v, hw, hu', hv⟩
    exact ⟨v, (hr u').1 hu' ▸ hw, hv⟩
  · rintro ⟨v, hw, hv⟩
    exact ⟨u, v, hw, (hr u).2 rfl, hv⟩

theorem describes_join (r s : Regex α) (w : List α) :
    (join r s).Describes w ↔ (seq r s).Describes w := by
  cases r with
  | empty => simp [join, describes_seq_of_single (r := empty) fun _ => Iff.rfl]
  | never => simp [join, Describes]
  | symbol | seq | alt | star => rfl

theorem describes_either (r s : Regex α) (w : List α) :
    (either r s).Describes w ↔ r.Describes w ∨ s.Describes w := by
  cases r <;> cases s <;> simp [either, Describes]

theorem describes_seq_cons (r s : Regex α) (a : α) (w : List α) :
    (seq r s).Describes (a :: w) ↔
      (∃ u v, w = u ++ v ∧ r.Describes (a :: u) ∧ s.Describes v) ∨
        r.Describes [] ∧ s.Describes (a :: w) := by
  constructor
  · rintro ⟨u, v, huv, hr, hs⟩
    cases u with
    | nil => exact .inr ⟨hr, huv ▸ hs⟩
    | cons b u =>
      obtain ⟨rfl, rfl⟩ := List.cons.inj huv
      exact .inl ⟨u, v, rfl, hr, hs⟩
  · rintro (⟨u, v, rfl, hr, hs⟩ | ⟨hr, hs⟩)
    · exact ⟨a :: u, v, rfl, hr, hs⟩
    · exact ⟨[], a :: w, rfl, hr, hs⟩

theorem describes_star_cons (r : Regex α) (a : α) (w : List α) :
    (star r).Describes (a :: w) ↔
      ∃ u v, w = u ++ v ∧ r.Describes (a :: u) ∧ (star r).Describes v := by
  constructor
  · rintro ⟨us, hus, hr⟩
    -- The symbol stands in the first of the words that is not empty.
    induction us with
    | nil => cases hus
    | cons u us ih =>
      rw [List.forall_mem_cons] at hr
      cases u with
      | nil => exact ih hus hr.2
      | cons b u =>
        obtain ⟨rfl, rfl⟩ := List.cons.inj hus
        exact ⟨u, us.flatten, rfl, hr.1, us, rfl, hr.2⟩
  · rintro ⟨u, v, rfl, hu, us, rfl, hus⟩
    exact ⟨(a :: u) :: us, rfl, List.forall_mem_cons.2 ⟨hu, hus⟩⟩

theorem describes_deriv (a : α) (r : Regex α) (w : List α) :
    (r.deriv a).Describes w ↔ r.Describes (a :: w) := by
  induction r generalizing w with
  | never => rfl
  | empty => simp [deriv, Describes]
  | symbol p =>
    rw [deriv]
    by_cases hp : p a = true
    · rw [if_pos hp]
      constructor
      · rintro rfl
        exact ⟨a, hp, rfl⟩
      · rintro ⟨b, -, heq⟩
        exact (List.cons.inj heq).2
    · rw [if_neg hp]
      constructor
      · exact False.elim
      · rintro ⟨b, hb, heq⟩
        exact absurd ((List.cons.inj heq).1 ▸ hb) hp
  | seq r s ihr ihs =>
    have hjoin : (join (r.deriv a) s).Describes w ↔
        ∃ u v, w = u ++ v ∧ r.Describes (a :: u) ∧ s.Describes v := by
      rw [describes_join]
      simp only [Describes, ihr]
    rw [describes_seq_cons, deriv, ← hjoin, ← nullable_iff]
    by_cases hr : r.nullable = true
    · rw [if_pos hr, describes_either, ihs]
      simp [hr]
    · rw [if_neg hr]
      simp [hr]
  | alt r s ihr ihs => rw [deriv, describes_either, ihr, ihs, Describes]
  | star r ih =>
    rw [deriv, describes_join, describes_star_cons]
    simp only [Describes, ih]

/-- Matching accepts the words that the expression describes. -/
theorem accepts_iff (r : Regex α) (w : List α) : r.accepts w = true ↔ r.Describes w := by
  induction w generalizing r with
  | nil => exact nullable_iff r
  | cons a w ih => exact (ih (r.deriv a)).trans (describes_deriv a r w)

/-! ## Particular expressions -/

theorem describes_exactly [BEq α] [LawfulBEq α] (a : α) (w : List α) :
    (exactly a).Describes w ↔ w = [a] := by
  simp [exactly, Describes]

theorem describes_word [BEq α] [LawfulBEq α] (u w : List α) :
    (word u).Describes w ↔ w = u := by
  induction u generalizing w with
  | nil => rfl
  | cons a u ih =>
    rw [show word (a :: u) = seq (exactly a) (word u) from rfl,
      describes_seq_of_single (describes_exactly a)]
    simp [ih]

theorem describes_optional (r : Regex α) (w : List α) :
    (optional r).Describes w ↔ r.Describes w ∨ w = [] := Iff.rfl

theorem describes_anything (w : List α) : (anything : Regex α).Describes w := by
  refine ⟨w.map ([·]), ?_, fun u hu => ?_⟩
  · induction w with
    | nil => rfl
    | cons a w ih => simpa using ih
  · obtain ⟨a, -, rfl⟩ := List.mem_map.1 hu
    exact ⟨a, rfl, rfl⟩

end Outline.Text.Regex
