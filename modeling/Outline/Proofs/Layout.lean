import Outline.Proofs.Captures
import Outline.Proofs.CursorMaps

/-!
# Where nodes lie

A node lies within its parent, and children follow one another. So two nodes of a tree are the same,
or one is above the other, or one ends before the other starts (`comparable`). In particular, a leaf
that is not empty is told by where it starts (`eq_of_start_eq`).
-/

namespace Outline

open Cursor

/-! ## Spans -/

theorem Source.text_eq_empty (src : Source) {start stop : Nat} (h : stop ≤ start) :
    src.text start stop = "" := by
  simp [Source.text, Source.slice, Nat.sub_eq_zero_of_le h, Text.decode?]

mutual

/-- Whether each node of a tree lies within its parent and does not end before it starts. -/
def Tree.nests : Tree → Bool
  | .node l cs => decide (l.start ≤ l.stop) && Tree.nestBelow l cs

/-- Whether trees that hang below a node lie within it, and so on below them. -/
def Tree.nestBelow (l : Label) : List Tree → Bool
  | [] => true
  | t :: ts =>
    decide (l.start ≤ t.label.start) && decide (t.label.stop ≤ l.stop) && t.nests &&
      Tree.nestBelow l ts

end

theorem Tree.nestBelow_iff {l : Label} {ts : List Tree} :
    Tree.nestBelow l ts = true ↔
      ∀ t ∈ ts, l.start ≤ t.label.start ∧ t.label.stop ≤ l.stop ∧ t.nests = true := by
  induction ts with
  | nil => simp [Tree.nestBelow]
  | cons t ts ih =>
    simp only [Tree.nestBelow, Bool.and_eq_true, decide_eq_true_eq, ih, List.forall_mem_cons,
      and_assoc]

theorem Tree.nests_iff {t : Tree} :
    t.nests = true ↔ t.label.start ≤ t.label.stop ∧ Tree.nestBelow t.label t.children = true := by
  obtain ⟨l, cs⟩ := t
  simp [Tree.nests, Tree.label, Tree.children]

mutual

/-- Whether the children of each node of a tree follow one another. -/
def Tree.inOrder : Tree → Bool
  | .node _ cs => Tree.followInOrder cs

/-- Whether some trees follow one another, and so do the children of their nodes. -/
def Tree.followInOrder : List Tree → Bool
  | [] => true
  | t :: ts =>
    t.inOrder && ts.all (fun u => decide (t.label.stop ≤ u.label.start)) && Tree.followInOrder ts

end

theorem Tree.followInOrder_iff {ts : List Tree} :
    Tree.followInOrder ts = true ↔
      (∀ t ∈ ts, t.inOrder = true) ∧ ts.Pairwise fun t u => t.label.stop ≤ u.label.start := by
  induction ts with
  | nil => simp [Tree.followInOrder]
  | cons t ts ih =>
    simp only [Tree.followInOrder, Bool.and_eq_true, List.all_eq_true, decide_eq_true_eq, ih,
      List.forall_mem_cons, List.pairwise_cons]
    constructor
    · rintro ⟨⟨ht, hfirst⟩, hts, horder⟩
      exact ⟨⟨ht, hts⟩, hfirst, horder⟩
    · rintro ⟨⟨ht, hts⟩, hfirst, horder⟩
      exact ⟨⟨ht, hfirst⟩, hts, horder⟩

mutual

/-- Induction on a tree, with a hypothesis for each child. -/
theorem Tree.induction {P : Tree → Prop} (h : ∀ l cs, (∀ t ∈ cs, P t) → P (.node l cs)) :
    ∀ t, P t
  | .node l cs => h l cs (Tree.inductionAmong h cs)

theorem Tree.inductionAmong {P : Tree → Prop} (h : ∀ l cs, (∀ t ∈ cs, P t) → P (.node l cs)) :
    ∀ ts : List Tree, ∀ t ∈ ts, P t
  | [] => by simp
  | u :: us => List.forall_mem_cons.2 ⟨Tree.induction h u, Tree.inductionAmong h us⟩

end

/-! ## Parents and children -/

theorem mem_preorderBelow_iff {above : List Tree} {ts : List Tree} {c : Cursor} :
    c ∈ preorderBelow above ts ↔ ∃ t ∈ ts, c ∈ preorderFrom above t := by
  induction ts with
  | nil => simp [preorderBelow]
  | cons t ts ih => simp only [preorderBelow, List.mem_append, ih, List.exists_mem_cons_iff]

theorem mem_preorderFrom_iff {above : List Tree} {t : Tree} {c : Cursor} :
    c ∈ preorderFrom above t ↔
      c = ⟨t, above⟩ ∨ ∃ u ∈ t.children, c ∈ preorderFrom (t :: above) u := by
  obtain ⟨l, cs⟩ := t
  rw [preorderFrom, List.mem_cons, mem_preorderBelow_iff]
  rfl

theorem mem_children_iff {c d : Cursor} :
    d ∈ c.children ↔ d.parent? = some c ∧ d.node ∈ c.node.children := by
  constructor
  · intro hd
    obtain ⟨t, ht, rfl⟩ := List.mem_map.1 hd
    exact ⟨rfl, ht⟩
  · rintro ⟨hp, hd⟩
    obtain ⟨t, above⟩ := d
    cases above with
    | nil => cases hp
    | cons p ps =>
      obtain rfl := Option.some.inj hp
      exact List.mem_map.2 ⟨t, hd, rfl⟩

theorem eq_of_mem_children {a b c : Cursor} (hb : a ∈ b.children) (hc : a ∈ c.children) : b = c :=
  Option.some.inj ((mem_children_iff.1 hb).1.symm.trans (mem_children_iff.1 hc).1)

/-- The nodes of a tree are closed under children. -/
theorem mem_preorder_of_mem_children {t : Tree} {c d : Cursor} (hc : c ∈ preorder t)
    (hd : d ∈ c.children) : d ∈ preorder t := by
  suffices ∀ (t : Tree) (above : List Tree),
      c ∈ preorderFrom above t → d ∈ preorderFrom above t from this t [] hc
  intro t
  induction t using Tree.induction with
  | h l cs ih =>
    intro above hc
    rcases mem_preorderFrom_iff.1 hc with rfl | ⟨u, hu, hc⟩
    · obtain ⟨u, hu, rfl⟩ := List.mem_map.1 hd
      exact mem_preorderFrom_iff.2 (.inr ⟨u, hu, mem_preorderFrom_iff.2 (.inl rfl)⟩)
    · exact mem_preorderFrom_iff.2 (.inr ⟨u, hu, ih u hu _ hc⟩)

/-- The parent of a node of a tree is a node of the tree, with the node among its children. -/
theorem mem_preorder_of_parent {t : Tree} {c p : Cursor} (hc : c ∈ preorder t)
    (hp : c.parent? = some p) : p ∈ preorder t ∧ c ∈ p.children := by
  have hcases : ∀ (t : Tree) (above : List Tree), c ∈ preorderFrom above t →
      c = ⟨t, above⟩ ∨ p ∈ preorderFrom above t ∧ c ∈ p.children := by
    intro t
    induction t using Tree.induction with
    | h l cs ih =>
      intro above hc
      rcases mem_preorderFrom_iff.1 hc with rfl | ⟨u, hu, hc⟩
      · exact .inl rfl
      · rcases ih u hu _ hc with rfl | ⟨hp', hc'⟩
        · obtain rfl := Option.some.inj hp
          exact .inr ⟨mem_preorderFrom_iff.2 (.inl rfl), List.mem_map.2 ⟨u, hu, rfl⟩⟩
        · exact .inr ⟨mem_preorderFrom_iff.2 (.inr ⟨u, hu, hp'⟩), hc'⟩
  rcases hcases t [] hc with rfl | h
  · cases hp
  · exact h

theorem mem_preorder_of_mem_ancestors {t : Tree} {c a : Cursor} (hc : c ∈ preorder t)
    (ha : a ∈ c.ancestors) : a ∈ preorder t := by
  obtain ⟨u, above⟩ := c
  induction above generalizing u with
  | nil => cases ha
  | cons p ps ih =>
    have hp := (mem_preorder_of_parent hc rfl).1
    rcases List.mem_cons.1 ha with rfl | ha
    · exact hp
    · exact ih p hp ha

/-- Whatever lies above a node lies above one of the children of each node in between. -/
theorem exists_child_of_mem_ancestors {t : Tree} {c a : Cursor} (hc : c ∈ preorder t)
    (ha : a ∈ c.ancestors) : ∃ d ∈ a.children, d = c ∨ d ∈ c.ancestors := by
  obtain ⟨u, above⟩ := c
  induction above generalizing u with
  | nil => cases ha
  | cons p ps ih =>
    obtain ⟨hp, hchild⟩ := mem_preorder_of_parent hc rfl
    rcases List.mem_cons.1 ha with rfl | ha
    · exact ⟨_, hchild, .inl rfl⟩
    · obtain ⟨d, hd, rfl | hd'⟩ := ih p hp ha
      · exact ⟨_, hd, .inr (List.mem_cons_self ..)⟩
      · exact ⟨d, hd, .inr (List.mem_cons_of_mem _ hd')⟩

/-! ## Nodes above and beside each other -/

/-- One of two nodes ends before the other starts. -/
def Apart (a b : Cursor) : Prop :=
  a.label.stop ≤ b.label.start ∨ b.label.stop ≤ a.label.start

/-- A node lies within another one. -/
def Within (c a : Cursor) : Prop :=
  a.label.start ≤ c.label.start ∧ c.label.stop ≤ a.label.stop

theorem Within.trans {c b a : Cursor} (hcb : Within c b) (hba : Within b a) : Within c a :=
  ⟨Nat.le_trans hba.1 hcb.1, Nat.le_trans hcb.2 hba.2⟩

theorem within_of_mem_children {c d : Cursor} (hc : c.node.nests = true) (hd : d ∈ c.children) :
    Within d c ∧ d.node.nests = true := by
  obtain ⟨t, ht, rfl⟩ := List.mem_map.1 hd
  obtain ⟨hstart, hstop, hnests⟩ := Tree.nestBelow_iff.1 (Tree.nests_iff.1 hc).2 t ht
  exact ⟨⟨hstart, hstop⟩, hnests⟩

/-- A node with a text has a span that is not empty. -/
theorem start_lt_stop_of_text {src : Source} {c : Cursor} (h : c.text src ≠ "") :
    c.label.start < c.label.stop := by
  by_contra hempty
  exact h (src.text_eq_empty (Nat.le_of_not_lt hempty))

/-- What lies below a node lies within it. -/
theorem within_of_mem_preorderFrom {above : List Tree} {t : Tree} (ht : t.nests = true) {c : Cursor}
    (hc : c ∈ preorderFrom above t) : Within c ⟨t, above⟩ := by
  have hhereditary : Hereditary fun c => c.node.nests = true ∧ Within c ⟨t, above⟩ := by
    rintro c ⟨hnests, hwithin⟩ d hd
    obtain ⟨hdc, hd'⟩ := within_of_mem_children hnests hd
    exact ⟨hd', hdc.trans hwithin⟩
  exact (hhereditary.preorderFrom above t ⟨ht, Nat.le_refl _, Nat.le_refl _⟩ c hc).2

/-- If children lie within their parents, a node lies within all nodes above it. -/
theorem within_of_above {t : Tree}
    (hwithin : ∀ p ∈ preorder t, ∀ c ∈ p.children, Within c p) {c a : Cursor}
    (hc : c ∈ preorder t) (ha : a ∈ c.ancestors) : Within c a := by
  obtain ⟨u, above⟩ := c
  induction above generalizing u with
  | nil => cases ha
  | cons p ps ih =>
    obtain ⟨hp, hchild⟩ := mem_preorder_of_parent hc rfl
    have hup := hwithin _ hp _ hchild
    rcases List.mem_cons.1 ha with rfl | ha
    · exact hup
    · exact hup.trans (ih p hp ha)

section Layout

variable {t : Tree} (hnests : t.nests = true)

include hnests

theorem nests_of_mem_preorder {c : Cursor} (hc : c ∈ preorder t) : c.node.nests = true := by
  have hhereditary : Hereditary fun c => c.node.nests = true :=
    fun c hc d hd => (within_of_mem_children hc hd).2
  exact hhereditary.preorderFrom [] t hnests c hc

omit hnests in
theorem inOrder_of_mem_preorder (horder : t.inOrder = true) {c : Cursor} (hc : c ∈ preorder t) :
    c.node.inOrder = true := by
  have hhereditary : Hereditary fun c => c.node.inOrder = true := by
    rintro ⟨⟨l, cs⟩, above⟩ hc d hd
    obtain ⟨u, hu, rfl⟩ := List.mem_map.1 hd
    rw [Tree.inOrder] at hc
    exact (Tree.followInOrder_iff.1 hc).1 u hu
  exact hhereditary.preorderFrom [] t horder c hc

theorem within_of_mem_ancestors {c a : Cursor} (hc : c ∈ preorder t) (ha : a ∈ c.ancestors) :
    Within c a := by
  refine within_of_above (fun p hp c hchild => ?_) hc ha
  exact (within_of_mem_children (nests_of_mem_preorder hnests hp) hchild).1

/-- Two nodes of a tree are the same, or one is above the other, or they lie apart. -/
theorem comparable (horder : t.inOrder = true) {a b : Cursor} (ha : a ∈ preorder t)
    (hb : b ∈ preorder t) : a = b ∨ a ∈ b.ancestors ∨ b ∈ a.ancestors ∨ Apart a b := by
  have hroot : ∀ {p u : Tree} {ps : List Tree} {c : Cursor}, c ∈ preorderFrom (p :: ps) u →
      ⟨p, ps⟩ ∈ c.ancestors := by
    intro p u ps c hc
    have hhereditary : Hereditary fun c => (⟨p, ps⟩ : Cursor) ∈ c.ancestors := by
      intro c hc d hd
      obtain ⟨v, -, rfl⟩ := List.mem_map.1 hd
      exact List.mem_cons_of_mem _ hc
    exact hhereditary.preorderFrom _ u (List.mem_cons_self ..) c hc
  suffices ∀ (t : Tree) (above : List Tree), t.nests = true → t.inOrder = true →
      a ∈ preorderFrom above t → b ∈ preorderFrom above t →
      a = b ∨ a ∈ b.ancestors ∨ b ∈ a.ancestors ∨ Apart a b from
    this t [] hnests horder ha hb
  clear ha hb hnests horder
  intro t
  induction t using Tree.induction with
  | h l cs ih =>
    intro above hnests horder ha hb
    obtain ⟨hinner, hpairs⟩ := Tree.followInOrder_iff.1 (by rwa [Tree.inOrder] at horder)
    rcases mem_preorderFrom_iff.1 ha with rfl | ⟨u, hu, ha⟩
    · rcases mem_preorderFrom_iff.1 hb with rfl | ⟨v, hv, hb⟩
      · exact .inl rfl
      · exact .inr (.inl (hroot hb))
    · rcases mem_preorderFrom_iff.1 hb with rfl | ⟨v, hv, hb⟩
      · exact .inr (.inr (.inl (hroot ha)))
      · have hchild : ∀ w ∈ cs, w.nests = true := fun w hw =>
          (Tree.nestBelow_iff.1 (Tree.nests_iff.1 hnests).2 w hw).2.2
        -- The two nodes lie in one child, or in two that follow each other.
        have hpair : u = v ∨ u.label.stop ≤ v.label.start ∨ v.label.stop ≤ u.label.start := by
          refine List.Pairwise.forall_of_forall_of_flip
            (R := fun u v : Tree => u = v ∨ u.label.stop ≤ v.label.start ∨
              v.label.stop ≤ u.label.start) (fun _ _ => .inl rfl) ?_ ?_ hu hv
          · exact hpairs.imp fun h => .inr (.inl h)
          · exact hpairs.imp fun h => .inr (.inr h)
        have hau := within_of_mem_preorderFrom (hchild u hu) ha
        have hbv := within_of_mem_preorderFrom (hchild v hv) hb
        rcases hpair with rfl | h | h
        · exact ih u hu _ (hchild u hu) (hinner u hu) ha hb
        · exact .inr (.inr (.inr (.inl (Nat.le_trans hau.2 (Nat.le_trans h hbv.1)))))
        · exact .inr (.inr (.inr (.inr (Nat.le_trans hbv.2 (Nat.le_trans h hau.1)))))

omit hnests in
theorem children_ne_nil_of_mem_ancestors {c a : Cursor} (hc : c ∈ preorder t)
    (ha : a ∈ c.ancestors) : a.node.children ≠ [] := by
  obtain ⟨d, hd, -⟩ := exists_child_of_mem_ancestors hc ha
  exact List.ne_nil_of_mem (mem_children_iff.1 hd).2

/-- Leaves that start at one place are the same, unless they are empty. -/
theorem eq_of_start_eq (horder : t.inOrder = true) {a b : Cursor} (ha : a ∈ preorder t)
    (hb : b ∈ preorder t) (hleaf : a.node.children = []) (hleaf' : b.node.children = [])
    (hstart : a.label.start = b.label.start) (hwide : a.label.start < a.label.stop)
    (hwide' : b.label.start < b.label.stop) : a = b := by
  rcases comparable hnests horder ha hb with h | h | h | h | h
  · exact h
  · exact absurd hleaf (children_ne_nil_of_mem_ancestors hb h)
  · exact absurd hleaf' (children_ne_nil_of_mem_ancestors ha h)
  · omega
  · omega

end Layout

end Outline
