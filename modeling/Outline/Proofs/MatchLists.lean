import Mathlib.Data.List.Basic
import Mathlib.Tactic.SplitIfs
import Outline.Proofs.Captures

/-!
# How often patterns are met

`Takes` says what a pattern takes at a node, but not how often. `taken` lists all ways in which a
node meets a pattern, so that records can be counted. The matches at a node are what the patterns of
the rules take there, up to their order (`captures_matchesAt_perm`).

Two lemmas make such lists short. Children that no part of a pattern fits do not count
(`takenBelow_filter`), and if the last part fits a single child, only the children before it matter
for the other parts (`takenBelow_concat`).
-/

namespace Outline

namespace Pattern

theorem choices_map {α β : Type} (f : α → β) (xs : List α) :
    choices (xs.map f) = (choices xs).map fun x => (f x.1, x.2.map f) := by
  induction xs with
  | nil => rfl
  | cons a as ih => simp [choices, ih]

theorem choices_append {α : Type} (xs ys : List α) :
    choices (xs ++ ys) = ((choices xs).map fun x => (x.1, x.2 ++ ys)) ++ choices ys := by
  induction xs with
  | nil => rfl
  | cons a as ih => simp [choices, ih]

theorem flatMap_choices {α β : Type} (f : α → List β) (xs : List α) :
    ((choices xs).flatMap fun x => f x.1) = xs.flatMap f := by
  induction xs with
  | nil => rfl
  | cons a as ih => rw [choices, List.flatMap_cons, List.flatMap_cons, ih]

mutual

/-- All ways in which a node meets a pattern, each with the tagged nodes. -/
def taken : Pattern → Cursor → List (List (Tag × Cursor))
  | .node field test without tag children, c =>
    if admits field test without c then
      (takenBelow children c.children).map ((tag.map (·, c)).toList ++ ·)
    else []

/-- All ways in which some of the nodes meet the patterns, in order. -/
def takenBelow : List Pattern → List Cursor → List (List (Tag × Cursor))
  | [], _ => [[]]
  | p :: ps, cs =>
    (choices cs).flatMap fun x =>
      (p.taken x.1).flatMap fun ys => (takenBelow ps x.2).map (ys ++ ·)

end

mutual

theorem captures_hits : ∀ (p : Pattern) (c : Cursor), (p.hits c).map (·.captures) = p.taken c
  | .node field test without tag children, c => by
    rw [hits, taken]
    split_ifs with ha
    · have hbelow := captures_hitsBelow children c.children.zipIdx
      rw [List.zipIdx_map_fst] at hbelow
      rw [← hbelow, List.map_map, List.map_map]
      rfl
    · rfl

theorem captures_hitsBelow : ∀ (ps : List Pattern) (cs : List (Cursor × Nat)),
    (hitsBelow ps cs).map (·.captures) = takenBelow ps (cs.map Prod.fst)
  | [], cs => by
    rw [hitsBelow, takenBelow]
    rfl
  | p :: ps, cs => by
    rw [hitsBelow, takenBelow, choices_map, List.flatMap_map, List.map_flatMap]
    refine List.flatMap_congr fun choice _ => ?_
    rw [← captures_hits p choice.1.1, List.flatMap_map, List.map_flatMap]
    refine List.flatMap_congr fun first _ => ?_
    rw [← captures_hitsBelow ps choice.2, List.map_map, List.map_map]
    rfl

end

theorem takenBelow_cons_cons (p : Pattern) (ps : List Pattern) (d : Cursor) (cs : List Cursor) :
    takenBelow (p :: ps) (d :: cs) =
      ((p.taken d).flatMap fun ys => (takenBelow ps cs).map (ys ++ ·)) ++
        takenBelow (p :: ps) cs := by
  simp [takenBelow, choices]

theorem takenBelow_cons_eq_nil {p : Pattern} {ps : List Pattern} {cs : List Cursor}
    (h : ∀ d ∈ cs, p.taken d = []) : takenBelow (p :: ps) cs = [] := by
  rw [takenBelow]
  refine List.flatMap_eq_nil_iff.2 fun x hx => ?_
  obtain ⟨pre, rfl⟩ := mem_choices_iff.1 hx
  rw [h x.1 (by simp)]
  rfl

theorem takenBelow_singleton (p : Pattern) (cs : List Cursor) :
    takenBelow [p] cs = cs.flatMap p.taken := by
  have hnil : ∀ zs : List (List (Tag × Cursor)), zs.flatMap (fun ys => [ys ++ []]) = zs := by
    intro zs
    simp
  simp only [takenBelow, List.map_cons, List.map_nil, hnil]
  exact flatMap_choices p.taken cs

/-- Children that none of the patterns fits do not count. -/
theorem takenBelow_filter {q : Cursor → Bool} {ps : List Pattern} {cs : List Cursor}
    (h : ∀ d ∈ cs, q d = false → ∀ p ∈ ps, p.taken d = []) :
    takenBelow ps cs = takenBelow ps (cs.filter q) := by
  induction cs generalizing ps with
  | nil => rfl
  | cons d cs ih =>
    cases ps with
    | nil => simp [takenBelow]
    | cons p ps =>
      have hall : takenBelow (p :: ps) cs = takenBelow (p :: ps) (cs.filter q) :=
        ih fun e he => h e (List.mem_cons_of_mem _ he)
      have hlater : takenBelow ps cs = takenBelow ps (cs.filter q) := by
        refine ih fun e he hq p' hp' => ?_
        exact h e (List.mem_cons_of_mem _ he) hq p' (List.mem_cons_of_mem _ hp')
      rw [takenBelow_cons_cons, hall]
      by_cases hq : q d = true
      · rw [List.filter_cons_of_pos hq, takenBelow_cons_cons, hlater]
      · have hnone := h d (List.mem_cons_self ..) (Bool.eq_false_iff.2 hq) p (List.mem_cons_self ..)
        rw [List.filter_cons_of_neg hq, hnone]
        rfl

theorem takenBelow_concat_eq_nil {ps : List Pattern} {q : Pattern} {cs : List Cursor}
    (h : ∀ d ∈ cs, q.taken d = []) : takenBelow (ps ++ [q]) cs = [] := by
  induction ps generalizing cs with
  | nil =>
    rw [List.nil_append, takenBelow_singleton]
    exact List.flatMap_eq_nil_iff.2 h
  | cons p ps ih =>
    rw [List.cons_append, takenBelow]
    refine List.flatMap_eq_nil_iff.2 fun x hx => List.flatMap_eq_nil_iff.2 fun ys _ => ?_
    obtain ⟨pre, rfl⟩ := mem_choices_iff.1 hx
    rw [ih fun d hd => h d (by simp [hd])]
    rfl

/-- If the last pattern fits one child only, the others are met before it. -/
theorem takenBelow_concat {ps : List Pattern} {q : Pattern} {pre post : List Cursor} {s : Cursor}
    {zs : List (Tag × Cursor)} (hpre : ∀ d ∈ pre, q.taken d = []) (hs : q.taken s = [zs])
    (hpost : ∀ d ∈ post, q.taken d = []) :
    takenBelow (ps ++ [q]) (pre ++ s :: post) = (takenBelow ps pre).map (· ++ zs) := by
  induction ps generalizing pre with
  | nil =>
    have hbefore : pre.flatMap q.taken = [] := List.flatMap_eq_nil_iff.2 hpre
    have hafter : post.flatMap q.taken = [] := List.flatMap_eq_nil_iff.2 hpost
    rw [List.nil_append, takenBelow_singleton, List.flatMap_append, List.flatMap_cons, hbefore, hs,
      hafter]
    simp [takenBelow]
  | cons p ps ih =>
    rw [List.cons_append, takenBelow, choices_append, List.flatMap_append, List.flatMap_map,
      takenBelow, List.map_flatMap]
    -- A choice at or behind `s` leaves nothing for the last pattern.
    have hlate : ((choices (s :: post)).flatMap fun x =>
        (p.taken x.1).flatMap fun ys => (takenBelow (ps ++ [q]) x.2).map (ys ++ ·)) = [] := by
      refine List.flatMap_eq_nil_iff.2 fun x hx => List.flatMap_eq_nil_iff.2 fun ys _ => ?_
      have hsub : ∀ d ∈ x.2, d ∈ post := by
        intro d hd
        obtain ⟨before, hsplit⟩ := mem_choices_iff.1 hx
        cases before with
        | nil => exact (List.cons.inj hsplit).2 ▸ hd
        | cons e before => exact (List.cons.inj hsplit).2 ▸ by simp [hd]
      rw [takenBelow_concat_eq_nil fun d hd => hpost d (hsub d hd)]
      rfl
    rw [hlate, List.append_nil]
    refine List.flatMap_congr fun x hx => ?_
    obtain ⟨before, rfl⟩ := mem_choices_iff.1 hx
    have hrest : takenBelow (ps ++ [q]) (x.2 ++ s :: post) = (takenBelow ps x.2).map (· ++ zs) :=
      ih fun d hd => hpre d (by simp [hd])
    rw [List.map_flatMap]
    refine List.flatMap_congr fun ys _ => ?_
    rw [hrest, List.map_map, List.map_map]
    refine List.map_congr_left fun zs' _ => ?_
    exact (List.append_assoc ..).symm

/-! ## Parts of patterns -/

theorem taken_eq_nil {field : Option Field} {test : NodeTest} {without : List Field}
    {tag : Option Tag} {children : List Pattern} {c : Cursor}
    (h : admits field test without c = false) :
    (Pattern.node field test without tag children).taken c = [] := by
  rw [taken, h]
  rfl

theorem taken_of_admits {field : Option Field} {test : NodeTest} {without : List Field}
    {tag : Option Tag} {children : List Pattern} {c : Cursor}
    (h : admits field test without c = true) :
    (Pattern.node field test without tag children).taken c =
      (takenBelow children c.children).map ((tag.map (·, c)).toList ++ ·) := by
  rw [taken, if_pos h]

/-- A leaf is met once by each node that it admits. -/
theorem taken_leaf {field : Option Field} {test : NodeTest} {without : List Field}
    {tag : Option Tag} {c : Cursor} :
    (Pattern.node field test without tag []).taken c =
      if admits field test without c then [(tag.map (·, c)).toList] else [] := by
  rw [taken]
  simp [takenBelow]

theorem admits_ofKind {kind : Kind} {c : Cursor} :
    admits none (.oneOf [kind]) [] c = (c.kind == kind) := by
  rw [Bool.eq_iff_iff]
  simp [admits, NodeTest.accepts]

theorem admits_underField {field : Field} {kind : Kind} {c : Cursor} :
    admits (some field) (.oneOf [kind]) [] c =
      (c.label.field == some field && c.kind == kind) := by
  rw [Bool.eq_iff_iff]
  simp [admits, NodeTest.accepts]

theorem admits_named {field : Field} {c : Cursor} :
    admits (some field) .anyNamed [] c =
      (c.label.field == some field && (c.kind.isNamed && c.kind != .error)) := by
  rw [Bool.eq_iff_iff]
  simp [admits, NodeTest.accepts]

theorem taken_ofKind {kind : Kind} {tag : Option Tag} {children : List Pattern} {c : Cursor} :
    (Pattern.node none (.oneOf [kind]) [] tag children).taken c =
      if c.kind == kind then
        (takenBelow children c.children).map ((tag.map (·, c)).toList ++ ·)
      else [] := by
  rw [taken, admits_ofKind]

/-- Only nodes of its kind meet a part. -/
theorem flatMap_taken_filter {field : Option Field} {kind : Kind} {without : List Field}
    {tag : Option Tag} {children : List Pattern} (cs : List Cursor) :
    cs.flatMap (Pattern.node field (.oneOf [kind]) without tag children).taken =
      (cs.filter (·.kind == kind)).flatMap
        (Pattern.node field (.oneOf [kind]) without tag children).taken := by
  induction cs with
  | nil => rfl
  | cons d cs ih =>
    rw [List.flatMap_cons, ih]
    by_cases hd : (d.kind == kind) = true
    · rw [List.filter_cons_of_pos (by exact hd), List.flatMap_cons]
    · have hne : d.kind ≠ kind := by simpa using hd
      have hadmits : admits field (.oneOf [kind]) without d = false := by
        simp [admits, NodeTest.accepts, hne]
      rw [taken_eq_nil hadmits, List.filter_cons_of_neg (by exact hd), List.nil_append]

/-- A part of a kind is met as often as its own parts are, at each node of the kind. -/
theorem flatMap_taken_ofKind {kind : Kind} {children : List Pattern} (cs : List Cursor) :
    cs.flatMap (Pattern.node none (.oneOf [kind]) [] none children).taken =
      (cs.filter (·.kind == kind)).flatMap fun d => takenBelow children d.children := by
  rw [flatMap_taken_filter]
  refine List.flatMap_congr fun d hd => ?_
  have hkind : (d.kind == kind) = true := (List.mem_filter.1 hd).2
  rw [taken_ofKind, hkind]
  simp

end Pattern

/-! ## Matches -/

namespace Rule

/-- What a rule takes at a node, as captures. -/
def captured (src : Source) (c : Cursor) (r : Rule) : List (List Capture) :=
  ((r.pattern.taken c).filter fun xs => r.allows src ⟨xs, []⟩).map (capturesOf src)

/-- The matches at a node are what the rules take there, as often as they take it. -/
theorem captures_matchesAt_perm (rules : List Rule) (src : Source) (c : Cursor) :
    ((matchesAt rules src c).map (·.captures)).Perm (rules.flatMap (captured src c)) := by
  have hrule : ∀ x : Rule × Nat,
      (((x.1.hits src c).map ((x.2, ·))).map fun y => (toMatch src y.1 y.2).captures) =
        captured src c x.1 := by
    intro x
    rw [captured, ← Pattern.captures_hits, List.filter_map, List.map_map, List.map_map]
    rfl
  have hall : (rules.zipIdx.flatMap fun x => captured src c x.1) =
      rules.flatMap (captured src c) := by
    have hfst := congrArg (List.flatMap (captured src c)) (List.zipIdx_map_fst 0 rules)
    rwa [List.flatMap_map] at hfst
  rw [matchesAt, List.map_map]
  refine ((List.mergeSort_perm _ _).map _).trans (List.Perm.of_eq ?_)
  rw [List.map_flatMap, ← hall]
  exact List.flatMap_congr fun x _ => hrule x

theorem captured_of_guard {src : Source} {c : Cursor} {r : Rule} (h : r.guard = none) :
    captured src c r = (r.pattern.taken c).map (capturesOf src) := by
  rw [captured, List.filter_eq_self.2]
  intro xs _
  rw [allows, h]
  rfl

theorem captured_eq_nil {src : Source} {c : Cursor} {r : Rule} (h : r.startsAt c.kind = false) :
    captured src c r = [] := by
  have hnone : r.pattern.taken c = [] := by
    unfold startsAt at h
    cases hp : r.pattern with
    | node field test without tag children =>
      rw [hp] at h
      have haccepts : test.accepts c.kind = false := h
      refine Pattern.taken_eq_nil ?_
      simp [Pattern.admits, haccepts]
  rw [captured, hnone]
  rfl

theorem flatMap_captured_eq_nil {src : Source} {c : Cursor} {kind : Kind} (hkind : c.kind = kind)
    {rules : List Rule} (h : (rules.all fun r => !r.startsAt kind) = true) :
    rules.flatMap (captured src c) = [] := by
  refine List.flatMap_eq_nil_iff.2 fun r hr => captured_eq_nil ?_
  rw [hkind]
  simpa using List.all_eq_true.1 h r hr

end Rule

end Outline
