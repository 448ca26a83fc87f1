import Outline.Proofs.Gathering
import Outline.Symbol.Extract
import Outline.Typing

/-!
# Collecting symbols and types

Symbols and types are both collected from what single matches offer: a match offers a symbol, or a
binding with types, at the span of an identifier; what is offered at one span is gathered, and the
result is sorted by its start. The types of names are then noted one after the other, so that the
first binding of a name with a type counts.
-/

namespace Outline

/-! ## Sorting by start -/

section ByStart

variable {α : Type} (start : α → Nat)

theorem start_trans (a b c : α) (hab : decide (start a ≤ start b) = true)
    (hbc : decide (start b ≤ start c) = true) : decide (start a ≤ start c) = true := by
  simp only [decide_eq_true_eq] at hab hbc ⊢
  omega

theorem start_total (a b : α) :
    (decide (start a ≤ start b) || decide (start b ≤ start a)) = true := by
  simp only [Bool.or_eq_true, decide_eq_true_eq]
  omega

/-- Entries that start no later than others are sorted before them. -/
theorem mergeSort_start_append {xs ys : List α} (h : ∀ x ∈ xs, ∀ y ∈ ys, start x ≤ start y) :
    (xs ++ ys).mergeSort (fun a b => decide (start a ≤ start b)) =
      xs.mergeSort (fun a b => decide (start a ≤ start b)) ++
        ys.mergeSort (fun a b => decide (start a ≤ start b)) :=
  mergeSort_append (start_trans start) (start_total start) fun x hx y hy => by
    simpa using h x hx y hy

theorem mergeSort_start_filter (p : α → Bool) (xs : List α) :
    (xs.filter p).mergeSort (fun a b => decide (start a ≤ start b)) =
      (xs.mergeSort fun a b => decide (start a ≤ start b)).filter p :=
  mergeSort_filter (start_trans start) (start_total start) p xs

/-- What is gathered from entries that start before others is sorted before what is gathered from
    those. -/
theorem mergeSort_gather_append {κ : Type} [DecidableEq κ] {key : α → κ} {join : α → α → α}
    (hjoin : ∀ a b, key (join a b) = key a) (hstart : ∀ a b, key a = key b → start a = start b)
    {xs ys : List α} (h : ∀ x ∈ xs, ∀ y ∈ ys, start x < start y) :
    (gather key join (xs ++ ys)).mergeSort (fun a b => decide (start a ≤ start b)) =
      (gather key join xs).mergeSort (fun a b => decide (start a ≤ start b)) ++
        (gather key join ys).mergeSort (fun a b => decide (start a ≤ start b)) := by
  have hkeys : ∀ x ∈ xs, ∀ y ∈ ys, key x ≠ key y := by
    intro x hx y hy heq
    exact absurd (hstart x y heq) (Nat.ne_of_lt (h x hx y hy))
  rw [gather_append hjoin hkeys]
  refine mergeSort_start_append start fun a ha b hb => ?_
  obtain ⟨x, hx, hax⟩ := exists_key_of_mem_gather hjoin ha
  obtain ⟨y, hy, hby⟩ := exists_key_of_mem_gather hjoin hb
  rw [hstart a x hax, hstart b y hby]
  exact Nat.le_of_lt (h x hx y hy)

end ByStart

/-! ## Symbols -/

namespace Symbol

/-- The symbol that a match offers. -/
def found? (src : Source) (m : Match) : Option Found :=
  (nameOf? m).map fun c =>
    ⟨c.site.label.start, c.site.label.stop, ofName src c.site c.text (.ofCategory c.tag.category)⟩

/-- The span of the name. -/
def Found.span (f : Found) : Nat × Nat :=
  (f.start, f.stop)

/-- A symbol that is found again, perhaps as another kind. -/
def Found.settle (first later : Found) : Found :=
  { first with symbol.kind := settleKind first.symbol.kind later.symbol.kind }

theorem Found.span_settle (first later : Found) : (first.settle later).span = first.span := rfl

theorem Found.start_of_span (f g : Found) (h : f.span = g.span) : f.start = g.start :=
  congrArg Prod.fst h

theorem addFound_eq (src : Source) (c : Capture) (fs : List Found) :
    addFound src c fs =
      put Found.span Found.settle ⟨c.site.label.start, c.site.label.stop,
        ofName src c.site c.text (.ofCategory c.tag.category)⟩ fs := by
  induction fs with
  | nil => rfl
  | cons f fs ih =>
    simp only [addFound, put, Found.span, Prod.mk.injEq, ih]
    rfl

/-- Symbols are gathered by the spans of their names, and sorted by where these start. -/
theorem ofMatches_eq (src : Source) (ms : List Match) :
    ofMatches src ms =
      ((gather Found.span Found.settle (ms.filterMap (found? src))).mergeSort fun a b =>
        a.start ≤ b.start).map (·.symbol) := by
  have hfound : ms.filterMap (found? src) = (ms.filterMap nameOf?).map fun c =>
      (⟨c.site.label.start, c.site.label.stop,
        ofName src c.site c.text (.ofCategory c.tag.category)⟩ : Found) := by
    rw [List.map_filterMap]
    rfl
  unfold ofMatches gather
  rw [hfound, List.foldl_map]
  simp only [addFound_eq]

end Symbol

/-! ## Types -/

namespace Typing

/-- The binding that a match offers. -/
def binding? (m : Match) : Option Binding :=
  (m.firstOf? binderFields).map fun c =>
    ⟨c.text, c.site.label.start, c.site.label.stop, offersOf m⟩

/-- The span of the bound identifier. -/
def Binding.span (b : Binding) : Nat × Nat :=
  (b.start, b.stop)

/-- A binding with the types that another one offers. -/
def Binding.join (b later : Binding) : Binding :=
  { b with offers := b.offers ++ later.offers }

theorem Binding.span_join (b later : Binding) : (b.join later).span = b.span := rfl

theorem Binding.start_of_span (a b : Binding) (h : a.span = b.span) : a.start = b.start :=
  congrArg Prod.fst h

theorem pool_eq (c : Capture) (offers : List (TypeSlot × String)) (bs : List Binding) :
    pool c offers bs =
      put Binding.span Binding.join ⟨c.text, c.site.label.start, c.site.label.stop, offers⟩ bs := by
  induction bs with
  | nil => rfl
  | cons b bs ih =>
    simp only [pool, put, Binding.span, Prod.mk.injEq, ih]
    rfl

/-- Bindings are gathered by the spans of the identifiers. -/
theorem bindings_eq (ms : List Match) :
    bindings ms = gather Binding.span Binding.join (ms.filterMap binding?) := by
  unfold bindings gather
  rw [List.foldl_filterMap]
  congr 1
  funext bs m
  unfold binding?
  cases m.firstOf? binderFields with
  | none => rfl
  | some c => exact pool_eq c (offersOf m) bs

end Typing

/-! ## Dictionaries -/

namespace Dict

theorem lookup_cons_eq (key value name : String) (es : List (String × String)) :
    ((key, value) :: es).lookup name = if name = key then some value else es.lookup name := by
  rw [List.lookup_cons]
  by_cases h : name = key
  · rw [if_pos h, beq_iff_eq.2 h]
  · rw [if_neg h, beq_false_of_ne h]

theorem lookup_insertEntry (key value name : String) (es : List (String × String)) :
    (insertEntry key value es).lookup name = if name = key then some value else es.lookup name := by
  induction es with
  | nil => exact lookup_cons_eq key value name []
  | cons e es ih =>
    obtain ⟨k, v⟩ := e
    unfold insertEntry
    split
    · exact lookup_cons_eq key value name _
    · rename_i hlt
      split
      · rename_i hgt
        rw [lookup_cons_eq, ih, lookup_cons_eq]
        by_cases hk : name = k
        · have hne : ¬ name = key := by
            rintro rfl
            exact String.lt_irrefl name (hk ▸ hgt)
          rw [if_pos hk, if_neg hne, if_pos hk]
        · rw [if_neg hk, if_neg hk]
      · rename_i hgt
        have hkey : key = k := eq_of_not_lt hlt hgt
        rw [lookup_cons_eq, lookup_cons_eq, hkey]
        by_cases hk : name = k
        · rw [if_pos hk, if_pos hk]
        · rw [if_neg hk, if_neg hk, if_neg hk]

theorem get?_insert (d : Dict) (key value name : String) :
    (d.insert key value).get? name = if name = key then some value else d.get? name :=
  lookup_insertEntry key value name d.entries

theorem get?_empty (name : String) : empty.get? name = none := rfl

end Dict

namespace Typing

/-- The type that a binding gives to a name, if it binds the name and offers a type. -/
def typeFor? (priority : TypePriority) (name : String) (b : Binding) : Option String :=
  if b.name = name ∧ name ≠ "" then pick? priority b else none

theorem get?_note (priority : TypePriority) (d : Dict) (b : Binding) (name : String) :
    (note priority d b).get? name = (d.get? name).or (typeFor? priority name b) := by
  unfold note typeFor?
  by_cases hname : b.name = name
  · subst hname
    by_cases hempty : b.name = ""
    · simp [hempty]
    · cases hd : d.get? b.name with
      | some v => simp [Dict.contains, hd, hempty]
      | none =>
        cases hp : pick? priority b with
        | none => simp [Dict.contains, hd, hempty]
        | some v => simp [Dict.contains, hd, hempty, Dict.get?_insert]
  · have hname' : ¬ name = b.name := fun h => hname h.symm
    split
    · simp [hname]
    · cases pick? priority b <;> simp [Dict.get?_insert, hname, hname']

/-- The noted type of a name comes from the first binding that gives one. -/
theorem get?_foldl_note (priority : TypePriority) (d : Dict) (bs : List Binding) (name : String) :
    (bs.foldl (note priority) d).get? name =
      (d.get? name).or (bs.findSome? (typeFor? priority name)) := by
  induction bs generalizing d with
  | nil => simp
  | cons b bs ih =>
    rw [List.foldl_cons, ih, get?_note, List.findSome?_cons, Option.or_assoc]
    cases typeFor? priority name b <;> rfl

theorem get?_ofMatches (priority : TypePriority) (ms : List Match) (name : String) :
    (ofMatches priority ms).get? name =
      ((gather Binding.span Binding.join (ms.filterMap binding?)).mergeSort fun a b =>
        a.start ≤ b.start).findSome? (typeFor? priority name) := by
  unfold ofMatches
  rw [get?_foldl_note, bindings_eq, Dict.get?_empty, Option.none_or]

end Typing

end Outline
