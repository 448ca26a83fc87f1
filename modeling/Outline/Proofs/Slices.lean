import Outline.Proofs.Layout

/-!
# Slices of a source

Two stretches of a source that start at one place and have the same text end at one place
(`Source.stop_eq`): what the longer one has beyond the shorter one would be read as no characters at
all, and only nothing is read so.
-/

namespace Outline

namespace Text

/-- Bytes behind a text are read on their own. -/
theorem decode?_append {xs : List UInt8} {cs : List Char} (h : decode? xs = some cs)
    (ys : List UInt8) : decode? (xs ++ ys) = (decode? ys).map (cs ++ ·) := by
  have hcons : ∀ {r : List UInt8} {c : Char} {cs : List Char},
      (∀ {ds}, decode? r = some ds → decode? (r ++ ys) = (decode? ys).map (ds ++ ·)) →
      (decode? r).map (c :: ·) = some cs →
        (decode? (r ++ ys)).map (c :: ·) = (decode? ys).map (cs ++ ·) := by
    intro r c cs ih h
    obtain ⟨ds, hds, rfl⟩ := Option.map_eq_some_iff.1 h
    rw [ih hds, Option.map_map]
    rfl
  -- Four of the cases read a character, which is the same whatever follows.
  fun_induction decode? xs generalizing cs with
  | case1 =>
    cases h
    simp
  | case2 a r ha ih =>
    rw [List.cons_append, decode?.eq_def]
    simp only [ha, if_true]
    exact hcons ih h
  | case5 a ha b r hb hshort ih =>
    simp only [List.cons_append]
    rw [decode?.eq_def]
    simp only [ha, hb, hshort, if_true, if_false]
    exact hcons ih h
  | case9 a ha b hb hshort c r hc hmiddle point hpoint =>
    rename_i ih
    simp only [List.cons_append]
    rw [decode?.eq_def]
    simp only [ha, hb, hshort, hc, hmiddle, if_true, if_false]
    rw [if_neg hpoint]
    exact hcons ih h
  | case12 a ha b hb hshort c hc hmiddle d r point hpoint =>
    rename_i ih
    simp only [List.cons_append]
    rw [decode?.eq_def]
    simp only [ha, hb, hshort, hc, hmiddle, if_false]
    rw [if_neg hpoint]
    exact hcons ih h
  | case3 | case4 | case6 | case7 | case8 | case10 | case11 => cases h

theorem eq_nil_of_decode? {xs : List UInt8} (h : decode? xs = some []) : xs = [] := by
  fun_induction decode? xs with
  | case1 => rfl
  | case2 | case5 | case9 | case12 => simp at h
  | case3 | case4 | case6 | case7 | case8 | case10 | case11 => cases h

end Text

namespace Source

variable {src : Source} {start stop stop' : Nat}

theorem slice_append (hstart : start ≤ stop) (hstop : stop ≤ stop') :
    src.slice start stop' = src.slice start stop ++ src.slice stop stop' := by
  unfold slice
  have hdrop : src.bytes.drop stop = (src.bytes.drop start).drop (stop - start) := by
    rw [List.drop_drop]
    congr 1
    omega
  rw [hdrop, show stop' - start = (stop - start) + (stop' - stop) by omega, List.take_add]

theorem length_slice (hstop : stop ≤ src.size) : (src.slice start stop).length = stop - start := by
  have hsize : stop ≤ src.bytes.length := hstop
  simp only [slice, List.length_take, List.length_drop]
  omega

/-- The text from a place tells where it ends. -/
theorem stop_eq (hstop : stop ≤ src.size) (hstop' : stop' ≤ src.size)
    (htext : src.text start stop = src.text start stop') (hne : src.text start stop ≠ "") :
    stop = stop' := by
  have hle : ∀ {stop stop' : Nat}, stop' ≤ src.size → src.text start stop = src.text start stop' →
      src.text start stop ≠ "" → stop ≤ stop' → stop' ≤ stop := by
    intro stop stop' hstop' htext hne hle
    have hstart : start ≤ stop := by
      by_contra hlt
      exact hne (src.text_eq_empty (Nat.le_of_not_le hlt))
    cases hread : Text.decode? (src.slice start stop) with
    | none => exact absurd (by rw [text, hread]) hne
    | some cs =>
      -- The longer stretch has the same characters, so there are none in what it has beyond.
      have hboth : Text.decode? (src.slice start stop') = some cs := by
        cases hread' : Text.decode? (src.slice start stop') with
        | none => exact absurd (htext.trans (by rw [text, hread'])) hne
        | some cs' =>
          rw [text, text, hread, hread'] at htext
          rw [String.ofList_inj.1 htext]
      rw [slice_append hstart hle, Text.decode?_append hread] at hboth
      obtain ⟨ds, hds, heq⟩ := Option.map_eq_some_iff.1 hboth
      obtain rfl : ds = [] := List.append_right_eq_self.1 heq
      have hlength : (src.slice stop stop').length = stop' - stop := length_slice hstop'
      rw [Text.eq_nil_of_decode? hds, List.length_nil] at hlength
      omega
  rcases Nat.le_total stop stop' with h | h
  · exact Nat.le_antisymm h (hle hstop' htext hne h)
  · exact Nat.le_antisymm (hle hstop htext.symm (htext ▸ hne) h) h

end Source

end Outline
