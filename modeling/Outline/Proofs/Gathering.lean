import Mathlib.Data.List.Basic
import Mathlib.Tactic.SplitIfs

/-!
# Gathering and sorting

Records are collected in two moves. Entries with one key are gathered into the first of them, and
the result is sorted by where it starts, so that entries with one start keep their order. Both moves
are described here by what they do to lists that are joined or thinned out.
-/

namespace Outline

section Sorting

variable {α : Type} {le : α → α → Bool} (trans : ∀ a b c : α, le a b → le b c → le a c)
  (total : ∀ a b : α, le a b || le b a)

include trans total

/-- Sorting puts the first element of a list behind the smaller ones of the others, and before all
    that are as large. -/
theorem mergeSort_cons_split (a : α) (l : List α) :
    (a :: l).mergeSort le =
        (l.mergeSort le).filter (fun b => !le a b) ++ a :: (l.mergeSort le).filter (le a) ∧
      l.mergeSort le =
        (l.mergeSort le).filter (fun b => !le a b) ++ (l.mergeSort le).filter (le a) := by
  obtain ⟨l₁, l₂, hcons, hl, hlt⟩ := List.mergeSort_cons trans total a l
  have hsorted := List.pairwise_mergeSort trans total (a :: l)
  rw [hcons] at hsorted
  have hge : ∀ b ∈ l₂, le a b = true := by
    have := (List.pairwise_append.1 hsorted).2.1
    exact fun b hb => (List.pairwise_cons.1 this).1 b hb
  have h₁ : l₁.filter (fun b => !le a b) = l₁ := List.filter_eq_self.2 hlt
  have h₁' : l₁.filter (le a) = [] := by
    refine List.filter_eq_nil_iff.2 fun b hb => ?_
    simpa using hlt b hb
  have h₂ : l₂.filter (le a) = l₂ := List.filter_eq_self.2 hge
  have h₂' : l₂.filter (fun b => !le a b) = [] := by
    refine List.filter_eq_nil_iff.2 fun b hb => ?_
    simp [hge b hb]
  rw [hcons, hl, List.filter_append, List.filter_append, h₁, h₁', h₂, h₂']
  simp

/-- Sorting commutes with leaving elements out. -/
theorem mergeSort_filter (p : α → Bool) (l : List α) :
    (l.filter p).mergeSort le = (l.mergeSort le).filter p := by
  induction l with
  | nil => simp
  | cons a l ih =>
    obtain ⟨hcons, hsplit⟩ := mergeSort_cons_split trans total a l
    have hcomm : ∀ q : α → Bool,
        ((l.mergeSort le).filter q).filter p = ((l.mergeSort le).filter p).filter q := by
      intro q
      simp only [List.filter_filter, Bool.and_comm]
    rw [hcons, List.filter_append, List.filter_cons, List.filter_cons]
    by_cases hp : p a = true
    · rw [if_pos hp, if_pos hp, (mergeSort_cons_split trans total a _).1, ih, hcomm, hcomm]
    · rw [if_neg hp, if_neg hp, ih, ← List.filter_append, ← hsplit]

/-- What is left out of a list is left out of the sorted list, and nothing else changes. -/
theorem mergeSort_sublist {l m : List α} (h : l.Sublist m) :
    (l.mergeSort le).Sublist (m.mergeSort le) := by
  induction h with
  | slnil => exact List.Sublist.refl _
  | @cons l m a h ih =>
    obtain ⟨hcons, hsplit⟩ := mergeSort_cons_split trans total a m
    rw [hsplit] at ih
    rw [hcons]
    exact ih.trans ((List.sublist_cons_self ..).append_left _)
  | @cons_cons l m a h ih =>
    rw [(mergeSort_cons_split trans total a l).1, (mergeSort_cons_split trans total a m).1]
    exact (ih.filter _).append ((ih.filter _).cons_cons a)

/-- Two lists of which the first has nothing larger than the second are sorted one by one. -/
theorem mergeSort_append {l m : List α} (h : ∀ a ∈ l, ∀ b ∈ m, le a b = true) :
    (l ++ m).mergeSort le = l.mergeSort le ++ m.mergeSort le := by
  induction l with
  | nil => simp
  | cons a l ih =>
    have hl : ∀ b ∈ l, ∀ c ∈ m, le b c = true := fun b hb => h b (List.mem_cons_of_mem _ hb)
    have hm : ∀ b ∈ m.mergeSort le, le a b = true := fun b hb =>
      h a (List.mem_cons_self ..) b (List.mem_mergeSort.1 hb)
    have hge : (m.mergeSort le).filter (le a) = m.mergeSort le := List.filter_eq_self.2 hm
    have hlt : (m.mergeSort le).filter (fun b => !le a b) = [] := by
      refine List.filter_eq_nil_iff.2 fun b hb => ?_
      simp [hm b hb]
    rw [List.cons_append, (mergeSort_cons_split trans total a _).1, ih hl,
      (mergeSort_cons_split trans total a l).1, List.filter_append, List.filter_append, hge, hlt]
    simp

end Sorting

section Thinned

variable {α β : Type} {f g : α → Option β}

theorem length_filterMap_le {xs : List α} (h : ∀ x ∈ xs, g x = none ∨ g x = f x) :
    (xs.filterMap g).length ≤ (xs.filterMap f).length := by
  induction xs with
  | nil => exact Nat.le_refl _
  | cons x xs ih =>
    have ih' := ih fun y hy => h y (List.mem_cons_of_mem _ hy)
    rcases h x (List.mem_cons_self ..) with hx | hx
    · cases hf : f x with
      | none => simpa [List.filterMap_cons, hx, hf] using ih'
      | some b =>
        simp only [List.filterMap_cons, hx, hf, List.length_cons]
        omega
    · cases hf : f x with
      | none => simpa [List.filterMap_cons, hx, hf] using ih'
      | some b => simpa [List.filterMap_cons, hx, hf] using ih'

/-- Results that are left out are missed, however the rest is sorted. -/
theorem mergeSort_filterMap_eq_iff {xs : List α} (h : ∀ x ∈ xs, g x = none ∨ g x = f x)
    (le : β → β → Bool) :
    (xs.filterMap g).mergeSort le = (xs.filterMap f).mergeSort le ↔ ∀ x ∈ xs, g x = f x := by
  constructor
  · intro heq
    have hlength : (xs.filterMap g).length = (xs.filterMap f).length := by
      simpa only [List.length_mergeSort] using congrArg List.length heq
    clear heq
    induction xs with
    | nil => simp
    | cons x xs ih =>
      have hxs : ∀ y ∈ xs, g y = none ∨ g y = f y := fun y hy => h y (List.mem_cons_of_mem _ hy)
      have hle := length_filterMap_le hxs
      have hx : g x = f x := by
        rcases h x (List.mem_cons_self ..) with hx | hx
        · cases hf : f x with
          | none => exact hx
          | some b =>
            simp only [List.filterMap_cons, hx, hf, List.length_cons] at hlength
            omega
        · exact hx
      refine List.forall_mem_cons.2 ⟨hx, ih hxs ?_⟩
      cases hf : f x with
      | none => simpa [List.filterMap_cons, hx, hf] using hlength
      | some b => simpa [List.filterMap_cons, hx, hf] using hlength
  · intro heq
    rw [List.filterMap_congr heq]

end Thinned

section Gathering

variable {α κ : Type} [DecidableEq κ] (key : α → κ) (join : α → α → α)

/-- Join an entry with the first one that has its key, or put it behind all others. -/
def put (x : α) : List α → List α
  | [] => [x]
  | y :: ys => if key y = key x then join y x :: ys else y :: put x ys

/-- Put the entries of a list one after the other. -/
def gather (xs : List α) : List α :=
  xs.foldl (fun ys x => put key join x ys) []

variable {key join}

theorem put_append {x : α} {ys zs : List α} (h : ∀ y ∈ ys, key y ≠ key x) :
    put key join x (ys ++ zs) = ys ++ put key join x zs := by
  induction ys with
  | nil => rfl
  | cons y ys ih =>
    have hy : key y ≠ key x := h y (List.mem_cons_self ..)
    have hys : ∀ z ∈ ys, key z ≠ key x := fun z hz => h z (List.mem_cons_of_mem _ hz)
    simp [put, hy, ih hys]

theorem foldl_put_append {xs ys zs : List α} (h : ∀ y ∈ ys, ∀ x ∈ xs, key y ≠ key x) :
    xs.foldl (fun ys x => put key join x ys) (ys ++ zs) =
      ys ++ xs.foldl (fun ys x => put key join x ys) zs := by
  induction xs generalizing zs with
  | nil => rfl
  | cons x xs ih =>
    have hx : ∀ y ∈ ys, key y ≠ key x := fun y hy => h y hy x (List.mem_cons_self ..)
    rw [List.foldl_cons, List.foldl_cons, put_append hx]
    exact ih fun y hy z hz => h y hy z (List.mem_cons_of_mem _ hz)

/-- A map that keeps keys and joins may be applied before or after entries are gathered. -/
theorem map_gather {β : Type} {key' : β → κ} {join' : β → β → β} {g : α → β}
    (hkey : ∀ a, key' (g a) = key a) (hjoin : ∀ a b, g (join a b) = join' (g a) (g b))
    (xs : List α) : (gather key join xs).map g = gather key' join' (xs.map g) := by
  have hput : ∀ x ys, (put key join x ys).map g = put key' join' (g x) (ys.map g) := by
    intro x ys
    induction ys with
    | nil => rfl
    | cons y ys ih =>
      simp only [put, List.map_cons, hkey]
      split
      · rw [List.map_cons, hjoin]
      · rw [List.map_cons, ih]
  have hfold : ∀ ys, (xs.foldl (fun ys x => put key join x ys) ys).map g =
      (xs.map g).foldl (fun ys x => put key' join' x ys) (ys.map g) := by
    induction xs with
    | nil => intro ys; rfl
    | cons x xs ih =>
      intro ys
      rw [List.foldl_cons, ih, List.map_cons, List.foldl_cons, hput]
  exact hfold []

section KeyKept

variable (hjoin : ∀ a b, key (join a b) = key a)

include hjoin

/-- All entries with the key of the first one end up in it, and the others are gathered behind. -/
theorem foldl_put_cons (x : α) (xs ys : List α) :
    xs.foldl (fun ys x => put key join x ys) (x :: ys) =
      (xs.filter fun y => key y = key x).foldl join x ::
        (xs.filter fun y => key y ≠ key x).foldl (fun ys x => put key join x ys) ys := by
  induction xs generalizing x ys with
  | nil => rfl
  | cons z zs ih =>
    rw [List.foldl_cons]
    by_cases hz : key x = key z
    · have hput : put key join z (x :: ys) = join x z :: ys := by simp [put, hz]
      rw [hput, ih, hjoin]
      simp [hz]
    · have hput : put key join z (x :: ys) = x :: put key join z ys := by simp [put, hz]
      have hz' : ¬ key z = key x := fun h => hz h.symm
      rw [hput, ih]
      simp [hz']

theorem gather_cons (x : α) (xs : List α) :
    gather key join (x :: xs) =
      (xs.filter fun y => key y = key x).foldl join x ::
        gather key join (xs.filter fun y => key y ≠ key x) :=
  foldl_put_cons hjoin x xs []

omit [DecidableEq κ] in
theorem key_foldl_join (x : α) (xs : List α) : key (xs.foldl join x) = key x := by
  induction xs generalizing x with
  | nil => rfl
  | cons y ys ih => rw [List.foldl_cons, ih, hjoin]

/-- What is gathered: for each key the first entry that has it, joined with the later ones. -/
theorem mem_gather_iff {xs : List α} {z : α} :
    z ∈ gather key join xs ↔
      ∃ pre x post, xs = pre ++ x :: post ∧ (∀ y ∈ pre, key y ≠ key x) ∧
        z = (post.filter fun y => key y = key x).foldl join x := by
  -- Each step removes all entries with the key of the first one, so the length decreases.
  induction hn : xs.length using Nat.strongRecOn generalizing xs with
  | ind n ih =>
    cases xs with
    | nil => simp [gather]
    | cons x xs =>
      have hlen : (xs.filter fun y => key y ≠ key x).length < n := by
        have := List.length_filter_le (fun y => decide (key y ≠ key x)) xs
        simp only [List.length_cons] at hn
        omega
      rw [gather_cons hjoin, List.mem_cons, ih _ hlen rfl]
      constructor
      · rintro (rfl | ⟨pre, x', post, hxs, hpre, rfl⟩)
        · exact ⟨[], x, xs, rfl, by simp, rfl⟩
        · obtain ⟨pre₀, rest, rfl, rfl, hrest⟩ := List.filter_eq_append_iff.1 hxs
          obtain ⟨skip, post₀, rfl, hskip, hx', rfl⟩ := List.filter_eq_cons_iff.1 hrest
          have hne : key x' ≠ key x := by simpa using hx'
          refine ⟨x :: (pre₀ ++ skip), x', post₀, by simp, ?_, ?_⟩
          · intro y hy
            rcases List.mem_cons.1 hy with rfl | hy
            · exact hne.symm
            · by_cases hyx : key y = key x
              · rw [hyx]
                exact hne.symm
              · rcases List.mem_append.1 hy with hy | hy
                · exact hpre y (List.mem_filter.2 ⟨hy, by simpa using hyx⟩)
                · exact absurd (by simpa using hyx) (hskip y hy)
          · rw [List.filter_filter]
            congr 1
            refine List.filter_congr fun y _ => ?_
            by_cases hy : key y = key x' <;> simp [hy, hne]
      · rintro ⟨pre, x', post, hxs, hpre, rfl⟩
        cases pre with
        | nil =>
          obtain ⟨rfl, rfl⟩ := List.cons.inj hxs
          exact Or.inl rfl
        | cons y pre =>
          obtain ⟨rfl, rfl⟩ := List.cons.inj hxs
          have hne : key x ≠ key x' := hpre x (List.mem_cons_self ..)
          right
          refine ⟨pre.filter fun y => key y ≠ key x, x', post.filter fun y => key y ≠ key x,
            ?_, ?_, ?_⟩
          · simp [List.filter_append, hne.symm]
          · intro y hy
            exact hpre y (List.mem_cons_of_mem _ (List.mem_filter.1 hy).1)
          · rw [List.filter_filter]
            congr 1
            refine List.filter_congr fun y _ => ?_
            by_cases hy : key y = key x' <;> simp [hy, hne.symm]

/-- Gathering does not invent keys. -/
theorem exists_key_of_mem_gather {xs : List α} {z : α} (h : z ∈ gather key join xs) :
    ∃ x ∈ xs, key z = key x := by
  obtain ⟨pre, x, post, rfl, -, rfl⟩ := (mem_gather_iff hjoin).1 h
  exact ⟨x, by simp, key_foldl_join hjoin x _⟩

/-- No key is left twice. -/
theorem nodup_keys_gather (xs : List α) : ((gather key join xs).map key).Nodup := by
  induction hn : xs.length using Nat.strongRecOn generalizing xs with
  | ind n ih =>
    cases xs with
    | nil => exact List.nodup_nil
    | cons x xs =>
      have hlen : (xs.filter fun y => key y ≠ key x).length < n := by
        have := List.length_filter_le (fun y => decide (key y ≠ key x)) xs
        simp only [List.length_cons] at hn
        omega
      rw [gather_cons hjoin, List.map_cons, List.nodup_cons, key_foldl_join hjoin]
      refine ⟨fun hmem => ?_, ih _ hlen _ rfl⟩
      obtain ⟨z, hz, hzx⟩ := List.mem_map.1 hmem
      obtain ⟨y, hy, hzy⟩ := exists_key_of_mem_gather hjoin hz
      exact of_decide_eq_true (List.mem_filter.1 hy).2 (hzy.symm.trans hzx)

/-- Each entry goes into one of the gathered entries, with all others of its key. -/
theorem exists_mem_gather {xs : List α} {x : α} (hx : x ∈ xs) :
    ∃ y post, (∀ z ∈ y :: post, z ∈ xs ∧ key z = key x) ∧ x ∈ y :: post ∧
      post.foldl join y ∈ gather key join xs := by
  have hsome : (xs.find? fun y => key y = key x).isSome = true :=
    List.find?_isSome.2 ⟨x, hx, by simp⟩
  obtain ⟨y, hy⟩ := Option.isSome_iff_exists.1 hsome
  obtain ⟨hkey, pre, post, rfl, hpre⟩ := List.find?_eq_some_iff_append.1 hy
  have hkey : key y = key x := by simpa using hkey
  have hpre : ∀ z ∈ pre, key z ≠ key y := by
    intro z hz
    simpa [hkey] using hpre z hz
  refine ⟨y, post.filter fun z => key z = key y, ?_, ?_, ?_⟩
  · intro z hz
    rcases List.mem_cons.1 hz with rfl | hz
    · exact ⟨by simp, hkey⟩
    · obtain ⟨hz, hzkey⟩ := List.mem_filter.1 hz
      exact ⟨by simp [hz], (of_decide_eq_true hzkey).trans hkey⟩
  · rcases List.mem_append.1 hx with hx | hx
    · exact absurd hkey.symm (hpre x hx)
    · rcases List.mem_cons.1 hx with rfl | hx
      · exact List.mem_cons_self ..
      · exact List.mem_cons_of_mem _ (List.mem_filter.2 ⟨hx, by simp [hkey]⟩)
  · exact (mem_gather_iff hjoin).2 ⟨pre, y, post, rfl, hpre, rfl⟩

/-- Lists without a common key are gathered one by one. -/
theorem gather_append {xs ys : List α} (h : ∀ x ∈ xs, ∀ y ∈ ys, key x ≠ key y) :
    gather key join (xs ++ ys) = gather key join xs ++ gather key join ys := by
  have hkeys : ∀ z ∈ gather key join xs, ∀ y ∈ ys, key z ≠ key y := by
    intro z hz y hy
    obtain ⟨x, hx, hzx⟩ := exists_key_of_mem_gather hjoin hz
    rw [hzx]
    exact h x hx y hy
  have hput : ys.foldl (fun zs y => put key join y zs) (gather key join xs ++ []) =
      gather key join xs ++ gather key join ys := foldl_put_append hkeys
  rw [gather, List.foldl_append]
  simpa [gather] using hput

/-- Leaving out whole keys commutes with gathering. -/
theorem gather_filter {p : α → Bool} (hp : ∀ a b, key a = key b → p a = p b) (xs : List α) :
    gather key join (xs.filter p) = (gather key join xs).filter p := by
  induction hn : xs.length using Nat.strongRecOn generalizing xs with
  | ind n ih =>
    cases xs with
    | nil => simp [gather]
    | cons x xs =>
      have hlen : (xs.filter fun y => key y ≠ key x).length < n := by
        have := List.length_filter_le (fun y => decide (key y ≠ key x)) xs
        simp only [List.length_cons] at hn
        omega
      have hcomm : (xs.filter p).filter (fun y => key y ≠ key x) =
          (xs.filter fun y => key y ≠ key x).filter p := by
        simp only [List.filter_filter, Bool.and_comm]
      have hhead : p ((xs.filter fun y => key y = key x).foldl join x) = p x :=
        hp _ _ (key_foldl_join hjoin x _)
      rw [gather_cons hjoin x xs, List.filter_cons, List.filter_cons, hhead, ← ih _ hlen _ rfl,
        ← hcomm]
      by_cases hpx : p x = true
      · rw [if_pos hpx, if_pos hpx, gather_cons hjoin]
        congr 2
        rw [List.filter_filter]
        refine List.filter_congr fun y _ => ?_
        by_cases hy : key y = key x <;> simp [hy, hp y x, hpx]
      · rw [if_neg hpx, if_neg hpx]
        congr 1
        refine (List.filter_eq_self.2 fun y hy => ?_).symm
        have hpy : p y = true := (List.mem_filter.1 hy).2
        have hne : key y ≠ key x := fun h => hpx (hp y x h ▸ hpy)
        simpa using hne

end KeyKept

end Gathering

end Outline
