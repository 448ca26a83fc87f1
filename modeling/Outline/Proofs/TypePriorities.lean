import Mathlib.Data.List.Induction
import Mathlib.Data.List.Nodup
import Outline.Typing

/-!
# Priorities among slots

A list of slots stands for a complete order of them (`completes_of`): the listed ones come first,
and those that are missing follow. So no slot is ever left out.
-/

namespace Outline

theorem TypeSlot.ofText?_eq_some_iff {text : String} {s : TypeSlot} :
    ofText? text = some s ↔ text = s.text := by
  constructor
  · intro h
    have hs := List.find?_some h
    exact (beq_iff_eq.1 hs).symm
  · rintro rfl
    cases s <;> rfl

namespace TypePriority

/-- Every slot counts at some point. -/
def IsComplete (p : TypePriority) : Prop :=
  ∀ s, s ∈ p.slots

/-- A priority has each slot once: first the listed ones in the order in which they are first
    listed, and then the others in their usual order. -/
structure Completes (p : TypePriority) (listed : List TypeSlot) : Prop where
  nodup : p.slots.Nodup
  perm : p.slots.Perm TypeSlot.all
  order : ∃ first, p.slots = first ++ TypeSlot.all.filter (· ∉ listed) ∧
    (∀ s, s ∈ first ↔ s ∈ listed) ∧ first.Pairwise fun s t => listed.idxOf s < listed.idxOf t

theorem mem_foldl_add {slots xs : List TypeSlot} {s : TypeSlot} :
    s ∈ xs.foldl add slots ↔ s ∈ slots ∨ s ∈ xs := by
  induction xs generalizing slots with
  | nil => simp
  | cons x xs ih =>
    rw [List.foldl_cons, ih, add]
    by_cases hx : x ∈ slots
    · rw [if_pos hx, List.mem_cons]
      constructor
      · rintro (h | h)
        · exact .inl h
        · exact .inr (.inr h)
      · rintro (h | rfl | h)
        · exact .inl h
        · exact .inl hx
        · exact .inr h
    · rw [if_neg hx]
      simp [or_assoc]

/-- Different slots are added in their order, as far as they are not there yet. -/
theorem foldl_add_of_nodup {slots xs : List TypeSlot} (h : xs.Nodup) :
    xs.foldl add slots = slots ++ xs.filter (· ∉ slots) := by
  induction xs generalizing slots with
  | nil => simp
  | cons x xs ih =>
    obtain ⟨hx, hxs⟩ := List.nodup_cons.1 h
    rw [List.foldl_cons, ih hxs, add]
    by_cases hmem : x ∈ slots
    · simp [hmem]
    · have hrest : xs.filter (· ∉ slots ++ [x]) = xs.filter (· ∉ slots) := by
        refine List.filter_congr fun s hs => ?_
        have hne : s ≠ x := by
          rintro rfl
          exact hx hs
        simp [hne]
      rw [if_neg hmem, hrest, List.filter_cons_of_pos (by simpa using hmem)]
      simp

/-- Slots are added in the order of their first occurrences. -/
theorem pairwise_foldl_add (xs : List TypeSlot) :
    (xs.foldl add []).Pairwise fun s t => xs.idxOf s < xs.idxOf t := by
  induction xs using List.reverseRecOn with
  | nil => exact List.Pairwise.nil
  | append_singleton xs x ih =>
    have hold : (xs.foldl add []).Pairwise fun s t =>
        (xs ++ [x]).idxOf s < (xs ++ [x]).idxOf t := by
      refine ih.imp_of_mem fun {s t} hs ht hlt => ?_
      have hs' : s ∈ xs := (mem_foldl_add.1 hs).resolve_left List.not_mem_nil
      have ht' : t ∈ xs := (mem_foldl_add.1 ht).resolve_left List.not_mem_nil
      rwa [List.idxOf_append_of_mem hs', List.idxOf_append_of_mem ht']
    rw [List.foldl_append, List.foldl_cons, List.foldl_nil, add]
    by_cases hx : x ∈ xs.foldl add []
    · rwa [if_pos hx]
    · rw [if_neg hx]
      refine List.pairwise_append.2 ⟨hold, List.pairwise_singleton .., fun s hs t ht => ?_⟩
      obtain rfl := List.mem_singleton.1 ht
      have hs' : s ∈ xs := (mem_foldl_add.1 hs).resolve_left List.not_mem_nil
      have ht' : t ∉ xs := fun hmem => hx (mem_foldl_add.2 (.inr hmem))
      rw [List.idxOf_append_of_mem hs', List.idxOf_append_of_notMem ht']
      have := List.idxOf_lt_length_of_mem hs'
      omega

theorem isComplete_of (listed : List TypeSlot) : (of listed).IsComplete := by
  intro s
  rw [of, mem_foldl_add, List.mem_append]
  right
  right
  cases s <;> decide

theorem slots_of (listed : List TypeSlot) :
    (of listed).slots = listed.foldl add [] ++ TypeSlot.all.filter (· ∉ listed) := by
  have hrest : TypeSlot.all.filter (· ∉ listed.foldl add []) = TypeSlot.all.filter (· ∉ listed) :=
    List.filter_congr fun s _ => by simp [mem_foldl_add]
  show (listed ++ TypeSlot.all).foldl add [] = _
  rw [List.foldl_append, foldl_add_of_nodup (by decide), hrest]

theorem completes_of (listed : List TypeSlot) : (of listed).Completes listed := by
  have hfirst : (listed.foldl add []).Nodup :=
    (pairwise_foldl_add listed).imp fun hlt heq => by
      rw [heq] at hlt
      exact Nat.lt_irrefl _ hlt
  have hnodup : (of listed).slots.Nodup := by
    rw [slots_of]
    refine List.nodup_append.2 ⟨hfirst, List.Nodup.filter _ (by decide), ?_⟩
    rintro s hs t ht rfl
    have hlisted : s ∈ listed := (mem_foldl_add.1 hs).resolve_left List.not_mem_nil
    exact of_decide_eq_true (List.mem_filter.1 ht).2 hlisted
  refine ⟨hnodup, ?_, listed.foldl add [], slots_of listed, ?_, pairwise_foldl_add listed⟩
  · refine (List.perm_ext_iff_of_nodup hnodup (by decide)).2 fun s => ?_
    refine ⟨fun _ => ?_, fun _ => isComplete_of listed s⟩
    cases s <;> decide
  · intro s
    simp [mem_foldl_add]

example : of [] = usual := rfl

/-- A priority that has each slot once is the one that lists its slots. -/
theorem of_slots {p : TypePriority} (hnodup : p.slots.Nodup) (hcomplete : p.IsComplete) :
    of p.slots = p := by
  have hnone : TypeSlot.all.filter (· ∉ p.slots) = [] := by
    refine List.filter_eq_nil_iff.2 fun s _ => ?_
    simpa using hcomplete s
  have hslots : (of p.slots).slots = p.slots := by
    rw [slots_of, hnone, foldl_add_of_nodup hnodup]
    simp
  cases p
  exact congrArg mk hslots

end TypePriority

end Outline
