import Mathlib.Tactic.SplitIfs
import Outline.Query.Basic

/-!
# The nodes that matches capture

What a pattern takes at a node is a relation (`Takes`), which forgets in which order hits are found.
A match at a node captures this node and nodes below it, with their texts. So a property that passes
from a node to its children, and holds of the nodes at which a walk starts, holds of everything that
is captured on the walk.
-/

namespace Outline

theorem Pattern.mem_choices_iff {α : Type} {xs : List α} {x : α × List α} :
    x ∈ choices xs ↔ ∃ pre, xs = pre ++ x.1 :: x.2 := by
  induction xs with
  | nil => simp [choices]
  | cons a as ih =>
    rw [choices, List.mem_cons, ih]
    constructor
    · rintro (rfl | ⟨pre, rfl⟩)
      · exact ⟨[], rfl⟩
      · exact ⟨a :: pre, rfl⟩
    · rintro ⟨pre, hpre⟩
      cases pre with
      | nil =>
        obtain ⟨rfl, rfl⟩ := List.cons.inj hpre
        exact .inl rfl
      | cons b pre => exact .inr ⟨pre, (List.cons.inj hpre).2⟩

/-- Whether a tree that passes one test is followed, at some distance, by one that passes
    another. -/
def isFollowed (p q : Tree → Bool) : List Tree → Bool
  | [] => false
  | t :: ts => (p t && ts.any q) || isFollowed p q ts

theorem isFollowed_iff {p q : Tree → Bool} {ts : List Tree} :
    isFollowed p q ts = true ↔
      ∃ pre t suf, ts = pre ++ t :: suf ∧ p t = true ∧ ∃ u ∈ suf, q u = true := by
  induction ts with
  | nil => simp [isFollowed]
  | cons t ts ih =>
    rw [isFollowed, Bool.or_eq_true, Bool.and_eq_true, List.any_eq_true, ih]
    constructor
    · rintro (⟨hp, hq⟩ | ⟨pre, u, suf, rfl, hp, hq⟩)
      · exact ⟨[], t, ts, rfl, hp, hq⟩
      · exact ⟨t :: pre, u, suf, rfl, hp, hq⟩
    · rintro ⟨pre, u, suf, hts, hp, hq⟩
      cases pre with
      | nil =>
        obtain ⟨rfl, rfl⟩ := List.cons.inj hts
        exact .inl ⟨hp, hq⟩
      | cons v pre => exact .inr ⟨pre, u, suf, (List.cons.inj hts).2, hp, hq⟩

/-! ## What patterns take -/

theorem Cursor.node_children (c : Cursor) : c.children.map (·.node) = c.node.children := by
  simp [Cursor.children, Function.comp_def]

theorem Cursor.any_node_children (p : Tree → Bool) (c : Cursor) :
    c.node.children.any p = true ↔ ∃ d ∈ c.children, p d.node = true := by
  rw [← c.node_children, List.any_map, List.any_eq_true]
  rfl

theorem Cursor.isFollowed_node_children (p q : Tree → Bool) (c : Cursor) :
    isFollowed p q c.node.children = true ↔
      ∃ pre d suf, c.children = pre ++ d :: suf ∧ p d.node = true ∧ ∃ e ∈ suf, q e.node = true := by
  rw [isFollowed_iff, ← c.node_children]
  constructor
  · rintro ⟨_, t, _, hsplit, hp, u, hu, hq⟩
    obtain ⟨pre, rest, hchildren, rfl, hrest⟩ := List.map_eq_append_iff.1 hsplit
    obtain ⟨d, suf, rfl, rfl, rfl⟩ := List.map_eq_cons_iff.1 hrest
    obtain ⟨e, he, rfl⟩ := List.mem_map.1 hu
    exact ⟨pre, d, suf, hchildren, hp, e, he, hq⟩
  · rintro ⟨pre, d, suf, hchildren, hp, e, he, hq⟩
    refine ⟨pre.map (·.node), d.node, suf.map (·.node), ?_, hp, e.node, List.mem_map_of_mem he, hq⟩
    rw [hchildren, List.map_append, List.map_cons]

namespace Pattern

mutual

/-- A node meets a pattern, and these are the tagged nodes. -/
def Takes : Pattern → Cursor → List (Tag × Cursor) → Prop
  | .node field test without tag children, c, xs =>
    admits field test without c = true ∧
      ∃ ys, TakesBelow children c.children ys ∧ xs = (tag.map (·, c)).toList ++ ys

/-- Some of the nodes meet the patterns, in order, and these are the tagged nodes. -/
def TakesBelow : List Pattern → List Cursor → List (Tag × Cursor) → Prop
  | [], _, xs => xs = []
  | p :: ps, cs, xs =>
    ∃ pre d suf, cs = pre ++ d :: suf ∧
      ∃ ys, p.Takes d ys ∧ ∃ zs, TakesBelow ps suf zs ∧ xs = ys ++ zs

end

mutual

/-- The hits of a pattern report what the pattern takes. -/
theorem takes_iff : ∀ (p : Pattern) (c : Cursor) (xs : List (Tag × Cursor)),
    p.Takes c xs ↔ ∃ h ∈ p.hits c, h.captures = xs
  | .node field test without tag children, c, xs => by
    rw [Takes, hits]
    split_ifs with ha
    · have hbelow := takesBelow_iff children c.children.zipIdx
      rw [List.zipIdx_map_fst] at hbelow
      constructor
      · rintro ⟨-, ys, hys, rfl⟩
        obtain ⟨g, hg, rfl⟩ := (hbelow ys).1 hys
        exact ⟨_, List.mem_map.2 ⟨g, hg, rfl⟩, rfl⟩
      · rintro ⟨h, hh, rfl⟩
        obtain ⟨g, hg, rfl⟩ := List.mem_map.1 hh
        exact ⟨ha, g.captures, (hbelow g.captures).2 ⟨g, hg, rfl⟩, rfl⟩
    · constructor
      · rintro ⟨ha', -⟩
        exact absurd ha' ha
      · rintro ⟨h, hh, -⟩
        cases hh

theorem takesBelow_iff : ∀ (ps : List Pattern) (cs : List (Cursor × Nat))
    (xs : List (Tag × Cursor)),
    TakesBelow ps (cs.map Prod.fst) xs ↔ ∃ h ∈ hitsBelow ps cs, h.captures = xs
  | [], cs, xs => by
    rw [TakesBelow, hitsBelow]
    constructor
    · rintro rfl
      exact ⟨_, List.mem_singleton.2 rfl, rfl⟩
    · rintro ⟨h, hh, rfl⟩
      rw [List.mem_singleton.1 hh]
  | p :: ps, cs, xs => by
    rw [TakesBelow, hitsBelow]
    constructor
    · rintro ⟨pre, d, suf, hcs, ys, hys, zs, hzs, rfl⟩
      obtain ⟨pre', rest, rfl, rfl, hrest⟩ := List.map_eq_append_iff.1 hcs
      obtain ⟨⟨d', i⟩, suf', rfl, rfl, rfl⟩ := List.map_eq_cons_iff.1 hrest
      obtain ⟨first, hfirst, rfl⟩ := (takes_iff p d' ys).1 hys
      obtain ⟨later, hlater, rfl⟩ := (takesBelow_iff ps suf' zs).1 hzs
      refine ⟨follow i first later, List.mem_flatMap.2 ⟨((d', i), suf'), ?_, ?_⟩, rfl⟩
      · exact mem_choices_iff.2 ⟨pre', rfl⟩
      · exact List.mem_flatMap.2 ⟨first, hfirst, List.mem_map.2 ⟨later, hlater, rfl⟩⟩
    · rintro ⟨h, hh, rfl⟩
      obtain ⟨choice, hchoice, hh⟩ := List.mem_flatMap.1 hh
      obtain ⟨first, hfirst, hh⟩ := List.mem_flatMap.1 hh
      obtain ⟨later, hlater, rfl⟩ := List.mem_map.1 hh
      obtain ⟨pre, rfl⟩ := mem_choices_iff.1 hchoice
      refine ⟨pre.map Prod.fst, choice.1.1, choice.2.map Prod.fst, by simp, first.captures, ?_,
        later.captures, ?_, rfl⟩
      · exact (takes_iff p _ _).2 ⟨first, hfirst, rfl⟩
      · exact (takesBelow_iff ps choice.2 _).2 ⟨later, hlater, rfl⟩

end

theorem takesBelow_singleton {p : Pattern} {cs : List Cursor} {xs : List (Tag × Cursor)} :
    TakesBelow [p] cs xs ↔ ∃ d ∈ cs, p.Takes d xs := by
  simp only [TakesBelow]
  constructor
  · rintro ⟨pre, d, suf, rfl, ys, hys, -, rfl, rfl⟩
    exact ⟨d, by simp, by simpa using hys⟩
  · rintro ⟨d, hd, hxs⟩
    obtain ⟨pre, suf, rfl⟩ := List.append_of_mem hd
    exact ⟨pre, d, suf, rfl, xs, hxs, [], rfl, by simp⟩

theorem takesBelow_cons_cons {p q : Pattern} {ps : List Pattern} {cs : List Cursor}
    {xs : List (Tag × Cursor)} :
    TakesBelow (p :: q :: ps) cs xs ↔
      ∃ pre d suf, cs = pre ++ d :: suf ∧
        ∃ ys, p.Takes d ys ∧ ∃ zs, TakesBelow (q :: ps) suf zs ∧ xs = ys ++ zs := by
  rw [TakesBelow]

theorem takes_leaf {field : Option Field} {test : NodeTest} {tag : Option Tag} {c : Cursor}
    {xs : List (Tag × Cursor)} :
    (Pattern.node field test [] tag []).Takes c xs ↔
      (∀ f, field = some f → c.label.field = some f) ∧ test.accepts c.kind = true ∧
        xs = (tag.map (·, c)).toList := by
  simp only [Takes, TakesBelow, admits, List.all_nil, Bool.and_true, Bool.and_eq_true]
  constructor
  · rintro ⟨⟨hfield, htest⟩, -, rfl, rfl⟩
    refine ⟨fun f hf => ?_, htest, List.append_nil _⟩
    simpa [hf] using hfield
  · rintro ⟨hfield, htest, rfl⟩
    refine ⟨⟨?_, htest⟩, [], rfl, (List.append_nil _).symm⟩
    cases field with
    | none => rfl
    | some f => simpa using hfield f rfl

/-- A node of a kind, wherever it hangs. -/
theorem takes_ofKind {kind : Kind} {tag : Option Tag} {children : List Pattern} {c : Cursor}
    {xs : List (Tag × Cursor)} :
    (Pattern.node none (.oneOf [kind]) [] tag children).Takes c xs ↔
      c.kind = kind ∧ ∃ ys, TakesBelow children c.children ys ∧
        xs = (tag.map (·, c)).toList ++ ys := by
  simp [Takes, admits, NodeTest.accepts]

theorem takes_ofKindUnder {field : Field} {kind : Kind} {tag : Option Tag}
    {children : List Pattern} {c : Cursor} {xs : List (Tag × Cursor)} :
    (Pattern.node (some field) (.oneOf [kind]) [] tag children).Takes c xs ↔
      c.label.field = some field ∧ c.kind = kind ∧
        ∃ ys, TakesBelow children c.children ys ∧ xs = (tag.map (·, c)).toList ++ ys := by
  simp [Takes, admits, NodeTest.accepts, and_assoc]

end Pattern

/-! ## Properties that pass from a node to its children -/

namespace Cursor

/-- A property of nodes that passes on to their children. -/
def Hereditary (P : Cursor → Prop) : Prop :=
  ∀ c, P c → ∀ d ∈ c.children, P d

variable {P : Cursor → Prop}

mutual

theorem Hereditary.preorderFrom (hP : Hereditary P) (above : List Tree) :
    ∀ (t : Tree), P ⟨t, above⟩ → ∀ c ∈ Cursor.preorderFrom above t, P c
  | .node l cs => by
    intro ht c hc
    rw [Cursor.preorderFrom] at hc
    rcases List.mem_cons.1 hc with rfl | hc
    · exact ht
    · refine hP.preorderBelow _ cs (fun t hmem => ?_) c hc
      exact hP _ ht _ (List.mem_map.2 ⟨t, hmem, rfl⟩)

theorem Hereditary.preorderBelow (hP : Hereditary P) (above : List Tree) :
    ∀ (ts : List Tree), (∀ t ∈ ts, P ⟨t, above⟩) → ∀ c ∈ Cursor.preorderBelow above ts, P c
  | [] => by
    intro _ c hc
    simp [Cursor.preorderBelow] at hc
  | t :: ts => by
    intro hts c hc
    rw [Cursor.preorderBelow] at hc
    rcases List.mem_append.1 hc with hc | hc
    · exact hP.preorderFrom above t (hts t (List.mem_cons_self ..)) c hc
    · exact hP.preorderBelow above ts (fun u hu => hts u (List.mem_cons_of_mem _ hu)) c hc

end

mutual

theorem Hereditary.takes (hP : Hereditary P) :
    ∀ (p : Pattern) (c : Cursor) (xs : List (Tag × Cursor)), P c → p.Takes c xs →
      ∀ x ∈ xs, P x.2
  | .node field test without tag children, c, xs => by
    rw [Pattern.Takes]
    rintro hc ⟨-, ys, hys, rfl⟩ x hx
    rcases List.mem_append.1 hx with hx | hx
    · obtain ⟨t, -, rfl⟩ := Option.map_eq_some_iff.1 (Option.mem_toList.1 hx)
      exact hc
    · exact hP.takesBelow children c.children ys (hP c hc) hys x hx

theorem Hereditary.takesBelow (hP : Hereditary P) :
    ∀ (ps : List Pattern) (cs : List Cursor) (xs : List (Tag × Cursor)), (∀ c ∈ cs, P c) →
      Pattern.TakesBelow ps cs xs → ∀ x ∈ xs, P x.2
  | [], cs, xs => by
    rw [Pattern.TakesBelow]
    rintro - rfl x hx
    cases hx
  | p :: ps, cs, xs => by
    rw [Pattern.TakesBelow]
    rintro hcs ⟨pre, d, suf, rfl, ys, hys, zs, hzs, rfl⟩ x hx
    rcases List.mem_append.1 hx with hx | hx
    · exact hP.takes p d ys (hcs d (by simp)) hys x hx
    · exact hP.takesBelow ps suf zs (fun c hc => hcs c (by simp [hc])) hzs x hx

end

end Cursor

/-! ## Matches -/

namespace Rule

/-- The matches at a node are what the patterns of the rules take there, as far as the rules allow
    it. -/
theorem mem_matchesAt_iff {rules : List Rule} {src : Source} {c : Cursor} {m : Match} :
    m ∈ matchesAt rules src c ↔
      ∃ x ∈ rules.zipIdx, ∃ xs, x.1.pattern.Takes c xs ∧ x.1.allows src ⟨xs, []⟩ = true ∧
        m = toMatch src x.2 ⟨xs, []⟩ := by
  simp only [matchesAt, List.mem_map, List.mem_mergeSort, List.mem_flatMap, hits, List.mem_filter,
    Pattern.takes_iff]
  constructor
  · rintro ⟨-, ⟨x, hx, h, ⟨hh, hallows⟩, rfl⟩, rfl⟩
    exact ⟨x, hx, h.captures, ⟨h, hh, rfl⟩, hallows, rfl⟩
  · rintro ⟨x, hx, -, ⟨h, hh, rfl⟩, hallows, rfl⟩
    exact ⟨_, ⟨x, hx, h, ⟨hh, hallows⟩, rfl⟩, rfl⟩

/-- The captures of what a pattern takes. -/
def capturesOf (src : Source) (xs : List (Tag × Cursor)) : List Capture :=
  xs.map fun x => ⟨x.1, x.2.text src, x.2⟩

theorem exists_match_iff {rules : List Rule} {src : Source} {c : Cursor} {ks : List Capture} :
    (∃ m ∈ matchesAt rules src c, m.captures = ks) ↔
      ∃ r ∈ rules, ∃ xs, r.pattern.Takes c xs ∧ r.allows src ⟨xs, []⟩ = true ∧
        ks = capturesOf src xs := by
  simp only [mem_matchesAt_iff]
  constructor
  · rintro ⟨-, ⟨x, hx, xs, hxs, hallows, rfl⟩, rfl⟩
    exact ⟨x.1, List.fst_mem_of_mem_zipIdx hx, xs, hxs, hallows, rfl⟩
  · rintro ⟨r, hr, xs, hxs, hallows, rfl⟩
    obtain ⟨i, hi⟩ := List.getElem?_of_mem hr
    exact ⟨_, ⟨(r, i), List.mk_mem_zipIdx_iff_getElem?.2 hi, xs, hxs, hallows, rfl⟩, rfl⟩

/-- A property that passes on to children holds of all that a match captures, if it holds of the
    node of the match. -/
theorem matchesAt_hereditary {P : Cursor → Prop} (hP : Cursor.Hereditary P) {rules : List Rule}
    {src : Source} {c : Cursor} (hc : P c) {m : Match} (hm : m ∈ matchesAt rules src c) :
    ∀ k ∈ m.captures, P k.site := by
  obtain ⟨x, -, xs, hxs, -, rfl⟩ := mem_matchesAt_iff.1 hm
  intro k hk
  obtain ⟨y, hy, rfl⟩ := List.mem_map.1 hk
  exact hP.takes x.1.pattern c xs hc hxs y hy

theorem text_of_mem_captures {rules : List Rule} {src : Source} {c : Cursor} {m : Match}
    (hm : m ∈ matchesAt rules src c) {k : Capture} (hk : k ∈ m.captures) :
    k.text = k.site.text src := by
  obtain ⟨x, -, xs, -, -, rfl⟩ := mem_matchesAt_iff.1 hm
  obtain ⟨y, -, rfl⟩ := List.mem_map.1 hk
  rfl

/-- Whether a rule may match at nodes of a kind. -/
def startsAt (r : Rule) (k : Kind) : Bool :=
  match r.pattern with
  | .node _ test _ _ _ => test.accepts k

theorem matchesAt_eq_nil {rules : List Rule} {c : Cursor}
    (h : ∀ r ∈ rules, r.startsAt c.kind = false) (src : Source) : matchesAt rules src c = [] := by
  refine List.eq_nil_iff_forall_not_mem.2 fun m hm => ?_
  obtain ⟨x, hx, xs, hxs, -, -⟩ := mem_matchesAt_iff.1 hm
  have hstart := h x.1 (List.fst_mem_of_mem_zipIdx hx)
  unfold startsAt at hstart
  cases hp : x.1.pattern with
  | node field test without tag children =>
    rw [hp] at hstart hxs
    rw [Pattern.Takes] at hxs
    have hadmits := hxs.1
    simp only [Pattern.admits, Bool.and_eq_true] at hadmits
    exact Bool.false_ne_true (hstart.symm.trans hadmits.1.2)

end Rule

end Outline
