import Outline.Module.Export
import Outline.Proofs.Layout

/-!
# What export statements declare

An export statement wraps a declaration, directly or around `declare` wrappers (`Wraps`). The walk
up from a name finds that its declaration is exported exactly if a statement wraps it
(`exportWithin_iff`), and the walk down from the statement finds what the declaration declares
(`exists_declaration`, `exists_child`). The two walks take any number of wrappers. The
statement that a declaration is part of, however, is looked for past one wrapper only
(`wrapper?_of_wraps`, `wrapper?_of_isStacked`).
-/

namespace Outline

open Cursor

/-! ## Kinds of declarations -/

namespace Kind

theorem ne_of_isDeclaration {k j : Kind} (hk : k.isDeclaration = true)
    (hj : j.isDeclaration = false) : k ≠ j := by
  rintro rfl
  rw [hk] at hj
  cases hj

theorem isDeclaration_of_isVariables {k : Kind} (h : k.isVariables = true) :
    k.isDeclaration = true := by
  cases k <;> simp_all [isVariables, isDeclaration]

theorem isNamed_of_isDeclaration {k : Kind} (h : k.isDeclaration = true) : k.isNamed = true := by
  cases k <;> simp_all [isNamed, isDeclaration]

end Kind

/-! ## Children under a field -/

/-- Whether a tree hangs under a field. -/
def Tree.isUnder (f : Field) (t : Tree) : Bool :=
  t.label.field == some f

/-- At most one tree passes the test, so this is the first. -/
theorem find?_eq_of_not_isFollowed {p : Tree → Bool} {ts : List Tree} {t : Tree}
    (h : isFollowed p p ts = false) (ht : t ∈ ts) (hp : p t = true) : ts.find? p = some t := by
  induction ts with
  | nil => cases ht
  | cons u us ih =>
    simp only [isFollowed, Bool.or_eq_false_iff, Bool.and_eq_false_iff, List.any_eq_false] at h
    rcases List.mem_cons.1 ht with rfl | ht
    · exact List.find?_cons_of_pos hp
    · have hu : ¬ p u = true := by
        intro hu
        rcases h.1 with h | h
        · rw [hu] at h
          cases h
        · exact h t ht hp
      rw [List.find?_cons_of_neg hu]
      exact ih h.2 ht

namespace Cursor

theorem mem_children_of_child? {c n : Cursor} {f : Field} (h : c.child? f = some n) :
    n ∈ c.children ∧ n.label.field = some f := by
  obtain ⟨u, hu, rfl⟩ := Option.map_eq_some_iff.1 h
  refine ⟨List.mem_map_of_mem (List.mem_of_find?_eq_some hu), ?_⟩
  have hfield := List.find?_some hu
  exact beq_iff_eq.1 hfield

theorem any_child?_iff {c : Cursor} {f : Field} {p : Tree → Bool} :
    (c.node.child? f).any p = true ↔ ∃ n, c.child? f = some n ∧ p n.node = true := by
  rw [Option.any_eq_true]
  constructor
  · rintro ⟨u, hu, hp⟩
    exact ⟨_, Option.map_eq_some_iff.2 ⟨u, hu, rfl⟩, hp⟩
  · rintro ⟨n, hn, hp⟩
    obtain ⟨u, hu, rfl⟩ := Option.map_eq_some_iff.1 hn
    exact ⟨u, hu, hp⟩

theorem hasToken_iff {d : Cursor} {text : String} :
    d.node.hasToken text = true ↔ ∃ k ∈ d.children, k.kind = .token text := by
  rw [Tree.hasToken, Tree.hasChild, d.any_node_children]
  simp only [beq_iff_eq]
  rfl

theorem child?_eq_of_not_isFollowed {c n : Cursor} {f : Field}
    (h : isFollowed (Tree.isUnder f) (Tree.isUnder f) c.node.children = false)
    (hn : n ∈ c.children) (hf : n.label.field = some f) : c.child? f = some n := by
  obtain ⟨u, hu, rfl⟩ := List.mem_map.1 hn
  have hfind : c.node.child? f = some u := find?_eq_of_not_isFollowed h hu (beq_iff_eq.2 hf)
  rw [child?, hfind]
  rfl

/-! ## Statements around declarations -/

/-- An export statement is the parent of a node, or of `declare` wrappers around the node. -/
inductive Wraps (e : Cursor) : Cursor → Prop
  | parent {d : Cursor} : e.kind = .exportStatement → d.parent? = some e → Wraps e d
  | ambient {d a : Cursor} : a.kind = .ambientDeclaration → d.parent? = some a → Wraps e a →
      Wraps e d

theorem exportWithin_iff {d : Cursor} : exportWithin 1 d.ancestors = true ↔ ∃ e, Wraps e d := by
  obtain ⟨u, above⟩ := d
  induction above generalizing u with
  | nil =>
    constructor
    · intro h
      cases h
    · rintro ⟨e, ⟨-, h⟩ | ⟨-, h, -⟩⟩ <;> cases h
  | cons p ps ih =>
    have hparent : (⟨u, p :: ps⟩ : Cursor).parent? = some ⟨p, ps⟩ := rfl
    rw [ancestors_of_parent hparent, exportWithin]
    by_cases hexport : (⟨p, ps⟩ : Cursor).kind = .exportStatement
    · simp only [hexport, beq_self_eq_true, if_true, true_iff]
      exact ⟨_, .parent hexport hparent⟩
    · rw [if_neg (fun h => hexport (beq_iff_eq.1 h))]
      by_cases hambient : (⟨p, ps⟩ : Cursor).kind = .ambientDeclaration
      · rw [if_pos (beq_iff_eq.2 hambient), ih]
        constructor
        · rintro ⟨e, he⟩
          exact ⟨e, .ambient hambient hparent he⟩
        · rintro ⟨e, ⟨he, h⟩ | ⟨-, h, he⟩⟩
          · obtain rfl := Option.some.inj h
            exact absurd he hexport
          · obtain rfl := Option.some.inj h
            exact ⟨e, he⟩
      · rw [if_neg (fun h => hambient (beq_iff_eq.1 h)), if_pos (Nat.le_refl 1)]
        simp only [Bool.false_eq_true, false_iff]
        rintro ⟨e, ⟨he, h⟩ | ⟨ha, h, -⟩⟩
        · obtain rfl := Option.some.inj h
          exact hexport he
        · obtain rfl := Option.some.inj h
          exact hambient ha

/-- Whether a declaration stands directly within two `declare` wrappers, one in the other. -/
def isStacked (d : Cursor) : Bool :=
  (d.ambient?.bind ambient?).isSome

theorem ambient?_eq_some_iff {d a : Cursor} :
    d.ambient? = some a ↔ d.parent? = some a ∧ a.kind = .ambientDeclaration := by
  rw [ambient?, Option.filter_eq_some_iff, beq_iff_eq]

/-- The statement around a declaration is found past one wrapper. -/
theorem wrapper?_of_wraps {e d : Cursor} (h : Wraps e d) (hstacked : d.isStacked = false) :
    d.wrapper? = some e := by
  have hnone : ∀ {c : Cursor}, e.kind = .exportStatement → c.parent? = some e →
      c.ambient? = none ∧ (c.parent?.filter (·.kind == .exportStatement)) = some e := by
    intro c he hparent
    rw [ambient?, hparent, Option.filter_some, Option.filter_some, he]
    exact ⟨rfl, rfl⟩
  cases h with
  | parent he hparent =>
    obtain ⟨hambient, hexport⟩ := hnone he hparent
    rw [wrapper?, hambient, Option.getD_none, hexport]
    rfl
  | @ambient _ a ha hparent hwraps =>
    have hambient : d.ambient? = some a := ambient?_eq_some_iff.2 ⟨hparent, ha⟩
    rw [isStacked, hambient, Option.bind_some] at hstacked
    cases hwraps with
    | parent he hparent' =>
      rw [wrapper?, hambient, Option.getD_some, (hnone he hparent').2]
      rfl
    | ambient hb hparent' =>
      rw [ambient?_eq_some_iff.2 ⟨hparent', hb⟩] at hstacked
      cases hstacked

/-- Past two wrappers the inner one is taken for the statement. -/
theorem wrapper?_of_isStacked {d : Cursor} (h : d.isStacked = true) :
    ∃ a b, d.ambient? = some a ∧ a.ambient? = some b ∧ d.wrapper? = some a := by
  obtain ⟨b, hb⟩ := Option.isSome_iff_exists.1 h
  obtain ⟨a, ha, hb⟩ := Option.bind_eq_some_iff.1 hb
  refine ⟨a, b, ha, hb, ?_⟩
  obtain ⟨hparent, hkind⟩ := ambient?_eq_some_iff.1 hb
  rw [wrapper?, ha, Option.getD_some, hparent, Option.filter_some, hkind]
  rfl

end Cursor

/-! ## Declared names -/

namespace Export

variable {src : Source} {t : Tree}

theorem mem_declaredBelow_iff {ts : List Tree} {x : String × String} :
    x ∈ declaredBelow src ts ↔
      ∃ u ∈ ts, (u.kind.isNamed && u.kind != .comment) = true ∧ x ∈ declaredNames src u := by
  induction ts with
  | nil => simp [declaredBelow]
  | cons u us ih =>
    rw [declaredBelow, List.exists_mem_cons_iff, ← ih]
    split
    · simp [*]
    · simp [*]

theorem mem_declaredNames_ambient {a : Tree} (ha : a.kind = .ambientDeclaration)
    {x : String × String} :
    x ∈ declaredNames src a ↔
      (∃ u ∈ a.children, (u.kind.isNamed && u.kind != .comment) = true ∧ x ∈ declaredNames src u) ∧
        x.1 ≠ "" := by
  obtain ⟨l, cs⟩ := a
  have hl : l.kind = .ambientDeclaration := ha
  rw [declaredNames, hl, beq_self_eq_true, if_pos rfl, List.mem_filter, mem_declaredBelow_iff,
    bne_iff_ne]
  rfl

theorem declaredNames_variables {d : Tree} (hd : d.kind.isVariables = true) :
    declaredNames src d = variableNames src d := by
  obtain ⟨l, cs⟩ := d
  have hl : l.kind.isVariables = true := hd
  have hambient : ¬ (l.kind == .ambientDeclaration) = true := by
    intro h
    rw [beq_iff_eq.1 h] at hl
    cases hl
  rw [declaredNames, if_neg hambient, if_pos hl]

theorem declaredNames_single {d : Tree} (hd : d.kind.isVariables = false)
    (hambient : d.kind ≠ .ambientDeclaration) :
    declaredNames src d =
      [(((d.child? .name).map fun n => Text.stripQuotes (n.text src)).getD "",
        labelOf d.kind)] := by
  obtain ⟨l, cs⟩ := d
  have hl : l.kind.isVariables = false := hd
  have hambient' : ¬ (l.kind == .ambientDeclaration) = true := fun h => hambient (beq_iff_eq.1 h)
  rw [declaredNames, if_neg hambient', hl, if_neg Bool.false_ne_true]
  rfl

/-- What a declarator of a declaration of variables declares. -/
def boundLabel (d v : Tree) : String :=
  if (v.child? .value).any (·.kind.isFunctionValue) then "function"
  else if d.hasToken "const" then "constant" else "variable"

/-- A declaration declares a name, as what the label says: the name is its own, or that of one of
    its declarators. -/
inductive Declares (d : Cursor) : String → Cursor → Prop
  | named {n : Cursor} : d.kind.isVariables = false → d.child? .name = some n →
      Declares d (labelOf d.kind) n
  | bound {v n : Cursor} : d.kind.isVariables = true → v ∈ d.children →
      v.kind = .variableDeclarator → v.child? .name = some n →
      Declares d (boundLabel d.node v.node) n

theorem Declares.mem_preorder {d n : Cursor} {label : String} (h : Declares d label n)
    (hd : d ∈ preorder t) : n ∈ preorder t := by
  cases h with
  | named _ hn => exact mem_preorder_of_mem_children hd (mem_children_of_child? hn).1
  | bound _ hv _ hn =>
    exact mem_preorder_of_mem_children (mem_preorder_of_mem_children hd hv)
      (mem_children_of_child? hn).1

theorem mem_declaredNames_variables {d : Cursor} (hd : d.kind.isVariables = true)
    {x : String × String} :
    x ∈ declaredNames src d.node ↔ ∃ n, Declares d x.2 n ∧ x.1 = n.text src := by
  rw [declaredNames_variables hd, variableNames]
  simp only [List.mem_filterMap, List.mem_filter, Tree.namedChildren]
  constructor
  · rintro ⟨v, ⟨⟨hv, -⟩, hkind⟩, hx⟩
    obtain ⟨n, hn, rfl⟩ := Option.map_eq_some_iff.1 hx
    refine ⟨⟨n, v :: d.node :: d.above⟩, ?_, rfl⟩
    have hname : (⟨v, d.node :: d.above⟩ : Cursor).child? .name =
        some ⟨n, v :: d.node :: d.above⟩ := by
      rw [child?, hn]
      rfl
    exact .bound hd (List.mem_map_of_mem hv) (beq_iff_eq.1 hkind) hname
  · rintro ⟨n, hdeclares, htext⟩
    obtain ⟨name, label⟩ := x
    cases hdeclares with
    | named hd' =>
      rw [hd] at hd'
      cases hd'
    | @bound v n _ hv hkind hn =>
      obtain ⟨u, hu, rfl⟩ := Option.map_eq_some_iff.1 hn
      have hkind : v.node.kind = .variableDeclarator := hkind
      refine ⟨v.node, ⟨⟨(mem_children_iff.1 hv).2, by rw [hkind]; rfl⟩, beq_iff_eq.2 hkind⟩, ?_⟩
      rw [declaratorName?, hu]
      exact congrArg some (Prod.ext htext.symm rfl)

theorem exportWithin_declaration {d : Cursor} (hd : d.kind.isDeclaration = true)
    (as : List Cursor) : exportWithin 2 (d :: as) = exportWithin 1 as := by
  rw [exportWithin, if_neg, if_neg, if_neg (by decide)]
  · exact fun h => Kind.ne_of_isDeclaration hd rfl (beq_iff_eq.1 h)
  · exact fun h => Kind.ne_of_isDeclaration hd rfl (beq_iff_eq.1 h)

/-- The walk up from a child of a declaration comes to the declaration, and to its export. -/
theorem declaration?_of_mem_children {d n : Cursor} (hd : d.kind.isDeclaration = true)
    (hn : n ∈ d.children) :
    n.declaration? = some d ∧ n.isExported = exportWithin 1 d.ancestors := by
  have hparent := (mem_children_iff.1 hn).1
  have hanchor : n.exportAnchor = n := by
    rw [exportAnchor, hparent, Option.filter_some, if_neg, Option.getD_none]
    exact fun h => Kind.ne_of_isDeclaration hd rfl (beq_iff_eq.1 h)
  constructor
  · rw [Cursor.declaration?, ancestors_of_parent hparent]
    exact List.find?_cons_of_pos hd
  · rw [isExported, hanchor, ancestors_of_parent hparent, exportWithin_declaration hd]

/-- So does the walk up from a child of one of its declarators. -/
theorem declaration?_of_declarator {d v n : Cursor} (hd : d.kind.isDeclaration = true)
    (hv : v ∈ d.children) (hkind : v.kind = .variableDeclarator) (hn : n ∈ v.children) :
    n.declaration? = some d ∧ n.isExported = exportWithin 1 d.ancestors := by
  have hparent := (mem_children_iff.1 hn).1
  have hparent' := (mem_children_iff.1 hv).1
  have hanchor : n.exportAnchor = v := by
    rw [exportAnchor, hparent, Option.filter_some, if_pos (beq_iff_eq.2 hkind), Option.getD_some]
  constructor
  · rw [Cursor.declaration?, ancestors_of_parent hparent, ancestors_of_parent hparent',
      declarationReach, List.take_succ_cons,
      List.find?_cons_of_neg (by simp [hkind, Kind.isDeclaration])]
    exact List.find?_cons_of_pos hd
  · rw [isExported, hanchor, ancestors_of_parent hparent', exportWithin_declaration hd]

theorem Declares.declaration? {d n : Cursor} {label : String} (h : Declares d label n)
    (hd : d.kind.isDeclaration = true) :
    n.declaration? = some d ∧ n.isExported = exportWithin 1 d.ancestors := by
  cases h with
  | named _ hn => exact declaration?_of_mem_children hd (mem_children_of_child? hn).1
  | bound _ hv hkind hn =>
    exact declaration?_of_declarator hd hv hkind (mem_children_of_child? hn).1

/-! ## From statements to declarations and back -/

/-- What is declared under a statement is declared by a declaration that the statement wraps. -/
theorem exists_declaration {e d : Cursor} (hd : d ∈ preorder t) (he : Wraps e d)
    {x : String × String} (hx : x ∈ declaredNames src d.node) :
    ∃ b ∈ preorder t, Wraps e b ∧ (b = d ∨ b.ambient?.isSome = true) ∧
      b.kind ≠ .ambientDeclaration ∧ x ∈ declaredNames src b.node := by
  obtain ⟨u, above⟩ := d
  induction u using Tree.induction generalizing above with
  | h l cs ih =>
    by_cases hambient : (⟨.node l cs, above⟩ : Cursor).kind = .ambientDeclaration
    · obtain ⟨⟨v, hv, -, hxv⟩, -⟩ := (mem_declaredNames_ambient hambient).1 hx
      have hchild : (⟨v, .node l cs :: above⟩ : Cursor) ∈
          (⟨.node l cs, above⟩ : Cursor).children := List.mem_map_of_mem hv
      have hparent := (mem_children_iff.1 hchild).1
      obtain ⟨b, hb, hwraps, hcases, hrest⟩ := ih v hv _
        (mem_preorder_of_mem_children hd hchild) (.ambient hambient hparent he) hxv
      refine ⟨b, hb, hwraps, .inr ?_, hrest⟩
      rcases hcases with rfl | hcases
      · rw [ambient?_eq_some_iff.2 ⟨hparent, hambient⟩]
        rfl
      · exact hcases
    · exact ⟨_, hd, he, .inl rfl, hambient, hx⟩

/-- What a wrapped declaration declares is declared under the statement, in the child that holds
    the declaration. -/
theorem exists_child {e d : Cursor} (hd : d ∈ preorder t) (he : Wraps e d)
    (hnamed : (d.kind.isNamed && d.kind != .comment) = true) {x : String × String}
    (hx : x ∈ declaredNames src d.node) (hne : x.1 ≠ "") :
    e ∈ preorder t ∧ e.kind = .exportStatement ∧ ∃ c ∈ e.children,
      (c = d ∨ c.kind = .ambientDeclaration) ∧ x ∈ declaredNames src c.node := by
  induction he with
  | parent hexport hparent =>
    obtain ⟨he, hchild⟩ := mem_preorder_of_parent hd hparent
    exact ⟨he, hexport, _, hchild, .inl rfl, hx⟩
  | @ambient d a hambient hparent _ ih =>
    obtain ⟨ha, hchild⟩ := mem_preorder_of_parent hd hparent
    have hxa : x ∈ declaredNames src a.node :=
      (mem_declaredNames_ambient hambient).2
        ⟨⟨d.node, (mem_children_iff.1 hchild).2, hnamed, hx⟩, hne⟩
    have hnamed' : (a.kind.isNamed && a.kind != .comment) = true := by
      rw [hambient]
      rfl
    obtain ⟨he, hexport, c, hc, hcases, hxc⟩ := ih ha hnamed' hxa
    refine ⟨he, hexport, c, hc, .inr ?_, hxc⟩
    rcases hcases with rfl | hcases
    · exact hambient
    · exact hcases

end Export

end Outline
