import Outline.Proofs.CursorMaps
import Outline.Proofs.Gathering
import Outline.Query.Pattern

/-!
# Matches in a thinned tree

A tree is thinned by leaving out some nodes, all of which are comments under no field. This module
compares the matches of rules in a tree and in its thinned copy. A pattern that reports every
comment it meets finds in the copy exactly the hits it finds in the tree, except those that report a
node that was left out; and it finds them in the same order, though their ways down the tree are
numbered anew.
-/

namespace Outline

open Cursor

/-! ## Thinned trees -/

/-- A map from the nodes of a tree to those of a thinned copy. The nodes in `inside` are those whose
    children are compared; `seen` tells which nodes are left. -/
structure Thinning (seen : Tree → Bool) (φ : Cursor → Cursor) (inside : Cursor → Prop) : Prop
    extends Faithful φ where
  seen_of_inside : ∀ {c}, inside c → seen c.node = true
  children : ∀ {c}, inside c → (φ c).children = (c.children.filter (seen ·.node)).map φ
  below : ∀ {c}, inside c → ∀ d ∈ c.children, seen d.node = true → inside d
  /-- What is left out are comments under no field. -/
  bare : ∀ {c}, inside c → ∀ d ∈ c.children, seen d.node = false →
    d.kind = .comment ∧ d.label.field = none

theorem Cursor.child?_isNone_iff (c : Cursor) (f : Field) :
    (c.node.child? f).isNone = true ↔ ∀ d ∈ c.children, d.label.field ≠ some f := by
  simp only [Tree.child?, Option.isNone_iff_eq_none, List.find?_eq_none, Cursor.children,
    List.mem_map, Cursor.label]
  constructor
  · rintro h d ⟨t, ht, rfl⟩
    simpa using h t ht
  · intro h t ht
    simpa using h _ ⟨t, ht, rfl⟩

section Admission

variable {seen : Tree → Bool} {φ : Cursor → Cursor} {inside : Cursor → Prop}
  (hφ : Thinning seen φ inside)

include hφ

/-- A field has a child in the thinned tree exactly if it has one in the tree. -/
theorem Thinning.child?_isNone {c : Cursor} (hc : inside c) (f : Field) :
    ((φ c).node.child? f).isNone = (c.node.child? f).isNone := by
  rw [Bool.eq_iff_iff, child?_isNone_iff, child?_isNone_iff, hφ.children hc]
  constructor
  · intro h d hd
    cases hs : seen d.node with
    | true =>
      have := h (φ d) (List.mem_map.2 ⟨d, List.mem_filter.2 ⟨hd, hs⟩, rfl⟩)
      rwa [hφ.label] at this
    | false =>
      rw [(hφ.bare hc d hd hs).2]
      simp
  · intro h d hd
    obtain ⟨e, he, rfl⟩ := List.mem_map.1 hd
    rw [hφ.label]
    exact h e (List.mem_filter.1 he).1

theorem Thinning.admits {c : Cursor} (hc : inside c) (field : Option Field) (test : NodeTest)
    (without : List Field) :
    Pattern.admits field test without (φ c) = Pattern.admits field test without c := by
  have hwithout : (fun f => ((φ c).node.child? f).isNone) = fun f => (c.node.child? f).isNone :=
    funext fun f => hφ.child?_isNone hc f
  simp only [Pattern.admits, hφ.label, hφ.kind, hwithout]

end Admission

/-! ## Patterns that report comments -/

mutual

/-- Whether each part of a pattern that a comment under no field could meet is reported. -/
def Pattern.reportsComments : Pattern → Bool
  | .node field test _ tag children =>
    (field.isSome || !test.accepts .comment || tag.isSome) && allReportComments children

/-- Whether several patterns report the comments they could meet. -/
def Pattern.allReportComments : List Pattern → Bool
  | [] => true
  | p :: ps => p.reportsComments && allReportComments ps

end

namespace Hit

/-- Whether all reported nodes are left in the thinned tree. -/
def isSeen (seen : Tree → Bool) (h : Hit) : Bool :=
  h.captures.all fun x => seen x.2.node

theorem isSeen_follow (seen : Tree → Bool) (i : Nat) (first later : Hit) :
    (Pattern.follow i first later).isSeen seen = (first.isSeen seen && later.isSeen seen) := by
  simp [isSeen, Pattern.follow]

end Hit

/-- A pattern that reports comments reports the comment at which it is met. -/
theorem Pattern.isSeen_of_comment {seen : Tree → Bool} {p : Pattern} {d : Cursor} {h : Hit}
    (hp : p.reportsComments = true) (hd : seen d.node = false) (hk : d.kind = .comment)
    (hf : d.label.field = none) (hh : h ∈ p.hits d) : h.isSeen seen = false := by
  cases p with
  | node field test without tag children =>
    rw [Pattern.hits] at hh
    split_ifs at hh with ha
    · obtain ⟨g, -, rfl⟩ := List.mem_map.1 hh
      simp only [Pattern.admits, Bool.and_eq_true] at ha
      have hnone : field = none := by
        cases field with
        | none => rfl
        | some f => simp [hf] at ha
      have htest : test.accepts .comment = true := hk ▸ ha.1.2
      simp only [Pattern.reportsComments, hnone, htest, Option.isSome_none, Bool.not_true,
        Bool.or_self, Bool.false_or, Bool.and_eq_true] at hp
      obtain ⟨tag, rfl⟩ := Option.isSome_iff_exists.1 hp.1
      simp [Hit.isSeen, hd]
    · simp at hh

/-! ## Ways down the tree -/

/-- The way in the thinned tree that corresponds to a way down a tree: each child is counted among
    those that are left. -/
def renumber (seen : Tree → Bool) : Tree → List Nat → List Nat
  | _, [] => []
  | t, i :: is =>
    (t.children.take i).countP seen ::
      match t.children[i]? with
      | some u => renumber seen u is
      | none => is

/-- Whether a way down a tree leads through nodes that are left. -/
def Trodden (seen : Tree → Bool) : Tree → List Nat → Prop
  | _, [] => True
  | t, i :: is => ∃ u, t.children[i]? = some u ∧ seen u = true ∧ Trodden seen u is

theorem renumber_isEmpty (seen : Tree → Bool) (t : Tree) (is : List Nat) :
    (renumber seen t is).isEmpty = is.isEmpty := by
  cases is <;> rfl

/-- A child that is left is counted before every later child. -/
theorem countP_take_lt {seen : Tree → Bool} {ts : List Tree} {i j : Nat} {u : Tree}
    (hu : ts[i]? = some u) (hs : seen u = true) (hij : i < j) :
    (ts.take i).countP seen < (ts.take j).countP seen := by
  have hmono : (ts.take (i + 1)).countP seen ≤ (ts.take j).countP seen :=
    (List.take_sublist_take_left hij).countP_le
  rw [List.take_add_one, hu, List.countP_append] at hmono
  simp only [Option.toList_some, List.countP_singleton, hs, if_true] at hmono
  omega

/-- Numbering anew keeps the order of the ways through nodes that are left. -/
theorem reachedBy_renumber {seen : Tree → Bool} {t : Tree} {is js : List Nat}
    (hi : Trodden seen t is) (hj : Trodden seen t js) :
    Rule.reachedBy (renumber seen t is) (renumber seen t js) = Rule.reachedBy is js := by
  induction is generalizing t js with
  | nil => simp [renumber, Rule.reachedBy]
  | cons i is ih =>
    cases js with
    | nil => simp [renumber, Rule.reachedBy]
    | cons j js =>
      obtain ⟨u, hu, hus, hi'⟩ := hi
      obtain ⟨v, hv, hvs, hj'⟩ := hj
      rcases Nat.lt_trichotomy i j with hlt | rfl | hgt
      · have := countP_take_lt hu hus hlt
        simp [renumber, Rule.reachedBy, this, hlt]
      · obtain rfl : u = v := by simpa [hu] using hv
        simp [renumber, Rule.reachedBy, hu, ih hi' hj']
      · have := countP_take_lt hv hvs hgt
        have hne : ¬ (t.children.take i).countP seen < (t.children.take j).countP seen := by omega
        have hne' : ((t.children.take i).countP seen == (t.children.take j).countP seen) = false :=
          beq_false_of_ne (by omega)
        have hij : ¬ i < j := by omega
        have hij' : (i == j) = false := beq_false_of_ne (by omega)
        simp only [renumber, Rule.reachedBy, hne, hne', hij, hij', Bool.false_and]

/-! ## Hits -/

namespace Pattern

theorem hitsBelow_cons_nil (p : Pattern) (ps : List Pattern) : hitsBelow (p :: ps) [] = [] := by
  simp [hitsBelow, choices]

theorem hitsBelow_cons_cons (p : Pattern) (ps : List Pattern) (d : Cursor) (i : Nat)
    (cs : List (Cursor × Nat)) :
    hitsBelow (p :: ps) ((d, i) :: cs) =
      ((p.hits d).flatMap fun first => (hitsBelow ps cs).map fun later => follow i first later) ++
        hitsBelow (p :: ps) cs := by
  simp [hitsBelow, choices]

end Pattern

/-- A hit in the thinned tree. -/
def Hit.through (seen : Tree → Bool) (φ : Cursor → Cursor) (t : Tree) (h : Hit) : Hit :=
  ⟨h.captures.map fun x => (x.1, φ x.2), renumber seen t h.finish⟩

theorem filter_flatMap_map {α β γ : Type} {p : γ → Bool} {pa : α → Bool} {pb : β → Bool}
    {g : α → β → γ} (hp : ∀ a b, p (g a b) = (pa a && pb b)) (as : List α) (bs : List β) :
    (as.flatMap fun a => bs.map (g a)).filter p =
      (as.filter pa).flatMap fun a => (bs.filter pb).map (g a) := by
  induction as with
  | nil => rfl
  | cons a as ih =>
    have hcomp : p ∘ g a = fun b => pa a && pb b := funext fun b => hp a b
    rw [List.flatMap_cons, List.filter_append, ih, List.filter_cons, List.filter_map, hcomp]
    cases pa a <;> simp

section Hits

variable {seen : Tree → Bool} {φ : Cursor → Cursor} {inside : Cursor → Prop}

/-- A hit at child `i` and a later hit correspond to the same pair in the thinned tree. -/
theorem follow_through {c d : Cursor} {pre suf : List Cursor}
    (hsplit : c.children = pre ++ d :: suf) (first later : Hit) :
    Pattern.follow (pre.countP (seen ·.node)) (first.through seen φ d.node)
        (later.through seen φ c.node) =
      (Pattern.follow pre.length first later).through seen φ c.node := by
  have hnodes : c.node.children = pre.map (·.node) ++ d.node :: suf.map (·.node) := by
    have := congrArg (List.map (·.node)) hsplit
    simpa [Cursor.children, Function.comp_def] using this
  have hd : c.node.children[pre.length]? = some d.node := by
    rw [hnodes, List.getElem?_append_right (by simp)]
    simp
  have hcount : (c.node.children.take pre.length).countP seen = pre.countP (seen ·.node) := by
    rw [hnodes, List.take_append_of_le_length (by simp), List.take_of_length_le (by simp),
      List.countP_map]
    rfl
  simp only [Pattern.follow, Hit.through, renumber_isEmpty, List.map_append, Hit.mk.injEq, true_and]
  split_ifs with he
  · simp [renumber, hd, hcount]
  · rfl

mutual

/-- The hits of a pattern in the thinned tree are those in the tree that report nothing that was
    left out. -/
theorem Thinning.hits (hφ : Thinning seen φ inside) :
    ∀ (p : Pattern), p.reportsComments = true → ∀ (c : Cursor), inside c →
      p.hits (φ c) = ((p.hits c).filter (Hit.isSeen seen)).map (Hit.through seen φ c.node)
  | .node field test without tag children, hp, c, hc => by
    simp only [Pattern.reportsComments, Bool.and_eq_true] at hp
    have hbelow := hφ.hitsBelow children hp.2 c hc [] c.children rfl
    rw [Pattern.hits, Pattern.hits, hφ.admits hc]
    split_ifs with ha
    · rw [hφ.children hc]
      simp only [List.countP_nil, List.length_nil] at hbelow
      rw [hbelow, List.filter_map, List.map_map, List.map_map]
      have hsame : (Hit.isSeen seen ∘ fun h : Hit =>
          (⟨(tag.map (·, c)).toList ++ h.captures, h.finish⟩ : Hit)) = Hit.isSeen seen := by
        funext h
        have := hφ.seen_of_inside hc
        cases tag <;> simp [Hit.isSeen, this]
      rw [hsame]
      refine List.map_congr_left fun h _ => ?_
      cases tag <;> simp [Hit.through]
    · rfl

/-- The same for a list of patterns and the children of a node from some child on. -/
theorem Thinning.hitsBelow (hφ : Thinning seen φ inside) :
    ∀ (ps : List Pattern), Pattern.allReportComments ps = true → ∀ (c : Cursor), inside c →
      ∀ (pre suf : List Cursor), c.children = pre ++ suf →
        Pattern.hitsBelow ps
            (((suf.filter (seen ·.node)).map φ).zipIdx (pre.countP (seen ·.node))) =
          ((Pattern.hitsBelow ps (suf.zipIdx pre.length)).filter (Hit.isSeen seen)).map
            (Hit.through seen φ c.node)
  | [], _, _, _, _, _, _ => by
    rw [Pattern.hitsBelow, Pattern.hitsBelow]
    rfl
  | p :: ps, hps, c, hc, pre, suf, hsplit => by
    simp only [Pattern.allReportComments, Bool.and_eq_true] at hps
    induction suf generalizing pre with
    | nil => simp [Pattern.hitsBelow_cons_nil]
    | cons d suf ih =>
      have hsplit' : c.children = (pre ++ [d]) ++ suf := by simpa using hsplit
      have hd : d ∈ c.children := by simp [hsplit]
      have hrest := ih (pre ++ [d]) hsplit'
      have hps' := hφ.hitsBelow ps hps.2 c hc (pre ++ [d]) suf hsplit'
      rw [List.zipIdx_cons, Pattern.hitsBelow_cons_cons, List.filter_append, List.map_append]
      simp only [List.countP_append, List.countP_singleton, List.length_append,
        List.length_singleton] at hrest hps'
      cases hs : seen d.node with
      | true =>
        simp only [hs, if_true] at hrest hps'
        rw [List.filter_cons, if_pos hs, List.map_cons, List.zipIdx_cons,
          Pattern.hitsBelow_cons_cons, hrest, hps', hφ.hits p hps.1 d (hφ.below hc d hd hs),
          filter_flatMap_map (Hit.isSeen_follow seen pre.length)]
        congr 1
        rw [List.flatMap_map, List.map_flatMap]
        refine List.flatMap_congr fun first _ => ?_
        rw [List.map_map, List.map_map]
        refine List.map_congr_left fun later _ => ?_
        exact follow_through hsplit first later
      | false =>
        -- Every hit at `d` reports `d` itself, which the thinned tree lacks.
        obtain ⟨hk, hf⟩ := hφ.bare hc d hd hs
        have hnone : (p.hits d).filter (Hit.isSeen seen) = [] := by
          refine List.filter_eq_nil_iff.2 fun h hh => ?_
          simp [Pattern.isSeen_of_comment hps.1 hs hk hf hh]
        rw [filter_flatMap_map (Hit.isSeen_follow seen pre.length), hnone, List.filter_cons]
        simp only [hs, Bool.false_eq_true, if_false, Nat.add_zero] at hrest ⊢
        simpa using hrest

end

mutual

/-- A hit that reports nothing that was left out goes through nodes that are left. -/
theorem Thinning.trodden (hφ : Thinning seen φ inside) :
    ∀ (p : Pattern), p.reportsComments = true → ∀ (c : Cursor), inside c →
      ∀ h ∈ p.hits c, h.isSeen seen = true → Trodden seen c.node h.finish
  | .node field test without tag children, hp, c, hc, h, hh, hs => by
    simp only [Pattern.reportsComments, Bool.and_eq_true] at hp
    rw [Pattern.hits] at hh
    split_ifs at hh with ha
    · obtain ⟨g, hg, rfl⟩ := List.mem_map.1 hh
      have hgs : g.isSeen seen = true := by
        simp only [Hit.isSeen, List.all_append, Bool.and_eq_true] at hs
        exact hs.2
      exact hφ.troddenBelow children hp.2 c hc [] c.children rfl g hg hgs
    · simp at hh

/-- The same for a list of patterns and the children of a node from some child on. -/
theorem Thinning.troddenBelow (hφ : Thinning seen φ inside) :
    ∀ (ps : List Pattern), Pattern.allReportComments ps = true → ∀ (c : Cursor), inside c →
      ∀ (pre suf : List Cursor), c.children = pre ++ suf →
        ∀ h ∈ Pattern.hitsBelow ps (suf.zipIdx pre.length), h.isSeen seen = true →
          Trodden seen c.node h.finish
  | [], _, _, _, _, _, _, h, hh, _ => by
    rw [Pattern.hitsBelow, List.mem_singleton] at hh
    rw [hh]
    trivial
  | p :: ps, hps, c, hc, pre, suf, hsplit, h, hh, hs => by
    simp only [Pattern.allReportComments, Bool.and_eq_true] at hps
    induction suf generalizing pre with
    | nil => simp [Pattern.hitsBelow_cons_nil] at hh
    | cons d suf ih =>
      have hsplit' : c.children = (pre ++ [d]) ++ suf := by simpa using hsplit
      have hd : d ∈ c.children := by simp [hsplit]
      rw [List.zipIdx_cons, Pattern.hitsBelow_cons_cons, List.mem_append] at hh
      rcases hh with hh | hh
      · obtain ⟨first, hfirst, hh⟩ := List.mem_flatMap.1 hh
        obtain ⟨later, hlater, rfl⟩ := List.mem_map.1 hh
        rw [Hit.isSeen_follow, Bool.and_eq_true] at hs
        have hds : seen d.node = true := by
          cases hds : seen d.node with
          | true => rfl
          | false =>
            obtain ⟨hk, hf⟩ := hφ.bare hc d hd hds
            have := Pattern.isSeen_of_comment hps.1 hds hk hf hfirst
            simp [hs.1] at this
        have hnode : c.node.children[pre.length]? = some d.node := by
          have := congrArg (fun l => (l.map (·.node))[pre.length]?) hsplit
          simpa [Cursor.children, Function.comp_def] using this
        unfold Pattern.follow
        dsimp only
        split_ifs with he
        · exact ⟨d.node, hnode, hds,
            hφ.trodden p hps.1 d (hφ.below hc d hd hds) first hfirst hs.1⟩
        · have hlater' : later ∈ Pattern.hitsBelow ps (suf.zipIdx (pre ++ [d]).length) := by
            simpa using hlater
          exact hφ.troddenBelow ps hps.2 c hc (pre ++ [d]) suf hsplit' later hlater' hs.2
      · exact ih (pre ++ [d]) hsplit' (by simpa using hh)

end

end Hits

/-! ## Matches -/

theorem reachedBy_trans :
    ∀ is js ks : List Nat, Rule.reachedBy is js = true → Rule.reachedBy js ks = true →
      Rule.reachedBy is ks = true := by
  intro is
  induction is with
  | nil => intros; simp [Rule.reachedBy]
  | cons i is ih =>
    intro js ks hij hjk
    cases js with
    | nil => simp [Rule.reachedBy] at hij
    | cons j js =>
      cases ks with
      | nil => simp [Rule.reachedBy] at hjk
      | cons k ks =>
        simp only [Rule.reachedBy, Bool.or_eq_true, decide_eq_true_eq, Bool.and_eq_true,
          beq_iff_eq] at hij hjk ⊢
        rcases hij with hij | ⟨rfl, hij⟩
        · rcases hjk with hjk | ⟨rfl, -⟩
          · exact Or.inl (by omega)
          · exact Or.inl hij
        · rcases hjk with hjk | ⟨rfl, hjk⟩
          · exact Or.inl hjk
          · exact Or.inr ⟨rfl, ih js ks hij hjk⟩

theorem reachedBy_total :
    ∀ is js : List Nat, (Rule.reachedBy is js || Rule.reachedBy js is) = true := by
  intro is
  induction is with
  | nil => simp [Rule.reachedBy]
  | cons i is ih =>
    intro js
    cases js with
    | nil => simp [Rule.reachedBy]
    | cons j js =>
      have := ih js
      simp only [Rule.reachedBy, Bool.or_eq_true, decide_eq_true_eq, Bool.and_eq_true,
        beq_iff_eq] at this ⊢
      rcases Nat.lt_trichotomy i j with hlt | rfl | hgt
      · exact Or.inl (Or.inl hlt)
      · exact this.imp (fun h => Or.inr ⟨rfl, h⟩) (fun h => Or.inr ⟨rfl, h⟩)
      · exact Or.inr (Or.inl hgt)

/-- A capture in the thinned tree. -/
def Capture.through (φ : Cursor → Cursor) (c : Capture) : Capture :=
  ⟨c.tag, c.text, φ c.site⟩

namespace Match

/-- Whether all captured nodes are left in the thinned tree. -/
def isSeen (seen : Tree → Bool) (m : Match) : Bool :=
  m.captures.all fun c => seen c.site.node

/-- A match in the thinned tree. -/
def through (φ : Cursor → Cursor) (m : Match) : Match :=
  ⟨m.rule, m.captures.map (Capture.through φ)⟩

end Match

/-- At a comment under no field, all matches capture the comment. -/
theorem isSeen_of_mem_matchesAt {seen : Tree → Bool} {rules : List Rule}
    (hrules : ∀ r ∈ rules, r.pattern.reportsComments = true) {src : Source} {d : Cursor}
    (hd : seen d.node = false) (hk : d.kind = .comment) (hf : d.label.field = none) {m : Match}
    (hm : m ∈ Rule.matchesAt rules src d) : m.isSeen seen = false := by
  unfold Rule.matchesAt at hm
  obtain ⟨x, hx, rfl⟩ := List.mem_map.1 hm
  obtain ⟨y, hy, hx⟩ := List.mem_flatMap.1 (List.mem_mergeSort.1 hx)
  obtain ⟨h, hh, rfl⟩ := List.mem_map.1 hx
  have hy' : y.1 ∈ rules := List.fst_mem_of_mem_zipIdx hy
  have := Pattern.isSeen_of_comment (hrules y.1 hy') hd hk hf (List.mem_filter.1 hh).1
  simpa [Match.isSeen, Rule.toMatch, Hit.isSeen, Function.comp_def] using this

section Matches

variable {seen : Tree → Bool} {φ : Cursor → Cursor} {inside : Cursor → Prop}
  (hφ : Thinning seen φ inside)

include hφ

theorem Thinning.ruleHits {r : Rule} (hr : r.pattern.reportsComments = true) (src : Source)
    {c : Cursor} (hc : inside c) :
    r.hits src (φ c) =
      ((r.hits src c).filter (Hit.isSeen seen)).map (Hit.through seen φ c.node) := by
  have hallows : r.allows src ∘ Hit.through seen φ c.node = r.allows src := by
    funext h
    simp only [Function.comp_def, Rule.allows, Hit.through, List.all_map, hφ.label]
  unfold Rule.hits
  rw [hφ.hits r.pattern hr c hc, List.filter_map, hallows, List.filter_filter, List.filter_filter]
  simp only [Bool.and_comm]

theorem Thinning.toMatch (src : Source) (t : Tree) (i : Nat) (h : Hit) :
    Rule.toMatch src i (h.through seen φ t) = (Rule.toMatch src i h).through φ := by
  simp only [Rule.toMatch, Hit.through, Match.through, List.map_map, Match.mk.injEq, true_and]
  refine List.map_congr_left fun x _ => ?_
  simp [Capture.through, hφ.text]

/-- The matches at a node of the thinned tree are those at the node that capture nothing that was
    left out, in the same order. -/
theorem Thinning.matchesAt {rules : List Rule}
    (hrules : ∀ r ∈ rules, r.pattern.reportsComments = true) (src : Source) {c : Cursor}
    (hc : inside c) :
    Rule.matchesAt rules src (φ c) =
      ((Rule.matchesAt rules src c).filter (Match.isSeen seen)).map (Match.through φ) := by
  set found := rules.zipIdx.flatMap fun x => (x.1.hits src c).map (x.2, ·) with hfound
  set ahead := fun a b : Nat × Hit => Rule.reachedBy a.2.finish b.2.finish with hahead
  set keep := fun x : Nat × Hit => x.2.isSeen seen with hkeep
  set move := fun x : Nat × Hit => (x.1, x.2.through seen φ c.node) with hmove
  have hthin : (rules.zipIdx.flatMap fun x => (x.1.hits src (φ c)).map (x.2, ·)) =
      (found.filter keep).map move := by
    rw [hfound, List.filter_flatMap, List.map_flatMap]
    refine List.flatMap_congr fun x hx => ?_
    have hx' : x.1 ∈ rules := List.fst_mem_of_mem_zipIdx hx
    rw [hφ.ruleHits (hrules x.1 hx') src hc, List.filter_map, List.map_map, List.map_map]
    rfl
  have hmem : ∀ a ∈ found, keep a = true → Trodden seen c.node a.2.finish := by
    intro a ha hka
    obtain ⟨x, hx, ha⟩ := List.mem_flatMap.1 ha
    obtain ⟨h, hh, rfl⟩ := List.mem_map.1 ha
    have hx' : x.1 ∈ rules := List.fst_mem_of_mem_zipIdx hx
    exact hφ.trodden x.1.pattern (hrules x.1 hx') c hc h (List.mem_filter.1 hh).1 hka
  have horder : ∀ a ∈ found.filter keep, ∀ b ∈ found.filter keep,
      ahead a b = ahead (move a) (move b) := by
    intro a ha b hb
    obtain ⟨ha, hka⟩ := List.mem_filter.1 ha
    obtain ⟨hb, hkb⟩ := List.mem_filter.1 hb
    exact (reachedBy_renumber (hmem a ha hka) (hmem b hb hkb)).symm
  have hsort : ((found.filter keep).map move).mergeSort ahead =
      ((found.mergeSort ahead).filter keep).map move := by
    have htrans : ∀ a b c, ahead a b = true → ahead b c = true → ahead a c = true :=
      fun a b c => reachedBy_trans a.2.finish b.2.finish c.2.finish
    have htotal : ∀ a b, (ahead a b || ahead b a) = true :=
      fun a b => reachedBy_total a.2.finish b.2.finish
    rw [← List.map_mergeSort horder, mergeSort_filter htrans htotal]
  have hseen : (Match.isSeen seen ∘ fun x : Nat × Hit => Rule.toMatch src x.1 x.2) = keep := by
    funext x
    simp [Match.isSeen, Rule.toMatch, hkeep, Hit.isSeen, Function.comp_def]
  show ((rules.zipIdx.flatMap fun x => (x.1.hits src (φ c)).map (x.2, ·)).mergeSort ahead).map
      (fun x => Rule.toMatch src x.1 x.2) =
    (((found.mergeSort ahead).map fun x => Rule.toMatch src x.1 x.2).filter
      (Match.isSeen seen)).map (Match.through φ)
  rw [hthin, hsort, List.filter_map, hseen, List.map_map, List.map_map]
  refine List.map_congr_left fun x _ => ?_
  exact hφ.toMatch src c.node x.1 x.2

/-- The matches at some nodes of the thinned tree. -/
theorem Thinning.flatMap_matchesAt {rules : List Rule}
    (hrules : ∀ r ∈ rules, r.pattern.reportsComments = true) (src : Source) {cs : List Cursor}
    (hin : ∀ c ∈ cs, seen c.node = true → inside c)
    (hbare : ∀ c ∈ cs, seen c.node = false → c.kind = .comment ∧ c.label.field = none) :
    ((cs.filter (seen ·.node)).map φ).flatMap (Rule.matchesAt rules src) =
      ((cs.flatMap (Rule.matchesAt rules src)).filter (Match.isSeen seen)).map
        (Match.through φ) := by
  induction cs with
  | nil => rfl
  | cons c cs ih =>
    have ih' := ih (fun d hd => hin d (List.mem_cons_of_mem _ hd))
      (fun d hd => hbare d (List.mem_cons_of_mem _ hd))
    rw [List.flatMap_cons, List.filter_append, List.map_append, ← ih', List.filter_cons]
    cases hs : seen c.node with
    | true =>
      rw [if_pos rfl, List.map_cons, List.flatMap_cons,
        hφ.matchesAt hrules src (hin c (List.mem_cons_self ..) hs)]
    | false =>
      obtain ⟨hk, hf⟩ := hbare c (List.mem_cons_self ..) hs
      have hnone : (Rule.matchesAt rules src c).filter (Match.isSeen seen) = [] := by
        refine List.filter_eq_nil_iff.2 fun m hm => ?_
        simp [isSeen_of_mem_matchesAt hrules hs hk hf hm]
      rw [hnone]
      rfl

end Matches

end Outline
