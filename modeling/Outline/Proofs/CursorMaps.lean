import Mathlib.Data.List.Basic
import Outline.Symbol.Scope

/-!
# Maps between cursors

A map between the nodes of two trees that keeps labels and parents. Every walk towards the root that
reads labels only finds corresponding nodes in both trees: this is said here for the declaration
around a name, the statement around a declaration, the search for an export, and qualified names.
-/

namespace Outline

namespace Cursor

theorem ancestors_eq (c : Cursor) :
    c.ancestors = (c.parent?.map fun p => p :: p.ancestors).getD [] := by
  obtain ⟨t, above⟩ := c
  cases above with
  | nil => rfl
  | cons p ps => rfl

theorem ancestors_of_parent {c p : Cursor} (h : c.parent? = some p) :
    c.ancestors = p :: p.ancestors := by
  rw [ancestors_eq, h]
  rfl

theorem mem_ancestors_of_parent {c p : Cursor} (h : c.parent? = some p) : p ∈ c.ancestors := by
  rw [ancestors_of_parent h]
  exact List.mem_cons_self ..

theorem mem_ancestors_trans {a b c : Cursor} (hb : b ∈ c.ancestors) (ha : a ∈ b.ancestors) :
    a ∈ c.ancestors := by
  obtain ⟨t, above⟩ := c
  induction above generalizing t with
  | nil => cases hb
  | cons p ps ih =>
    rcases List.mem_cons.1 hb with rfl | hb
    · exact List.mem_cons_of_mem _ ha
    · exact List.mem_cons_of_mem _ (ih p hb)

theorem mem_of_declaration? {c d : Cursor} (h : c.declaration? = some d) :
    d ∈ c.ancestors ∧ d.kind.isDeclaration = true := by
  unfold declaration? at h
  exact ⟨List.mem_of_mem_take (List.mem_of_find?_eq_some h),
    by simpa using List.find?_some h⟩

/-- A map between cursors that keeps labels and parents. -/
structure Faithful (φ : Cursor → Cursor) : Prop where
  label : ∀ c, (φ c).label = c.label
  parent : ∀ c, (φ c).parent? = c.parent?.map φ

namespace Faithful

variable {φ : Cursor → Cursor} (hφ : Faithful φ)

include hφ

theorem kind (c : Cursor) : (φ c).kind = c.kind :=
  congrArg Label.kind (hφ.label c)

theorem text (src : Source) (c : Cursor) : (φ c).text src = c.text src := by
  have h := hφ.label c
  unfold Cursor.label at h
  simp only [Cursor.text, Tree.text, h]

theorem location (src : Source) (c : Cursor) : (φ c).location src = c.location src := by
  have h := hφ.label c
  unfold Cursor.label at h
  simp only [Cursor.location, Tree.location, h]

theorem ancestors (c : Cursor) : (φ c).ancestors = c.ancestors.map φ := by
  obtain ⟨t, above⟩ := c
  induction above generalizing t with
  | nil =>
    have hp := hφ.parent ⟨t, []⟩
    rw [ancestors_eq, hp]
    rfl
  | cons p ps ih =>
    have hp : (φ ⟨t, p :: ps⟩).parent? = some (φ ⟨p, ps⟩) := hφ.parent ⟨t, p :: ps⟩
    rw [ancestors_of_parent hp, ih p]
    rfl

/-! ## Walks towards the root -/

theorem declaration? (c : Cursor) : (φ c).declaration? = c.declaration?.map φ := by
  unfold Cursor.declaration?
  have hkind : ((fun a : Cursor => a.kind.isDeclaration) ∘ φ) = fun a => a.kind.isDeclaration :=
    funext fun a => congrArg Kind.isDeclaration (hφ.kind a)
  rw [hφ.ancestors, ← List.map_take, List.find?_map, hkind]

theorem parent_filter (c : Cursor) (p : Kind → Bool) :
    (φ c).parent?.filter (fun a => p a.kind) = (c.parent?.filter fun a => p a.kind).map φ := by
  rw [hφ.parent]
  cases c.parent? with
  | none => rfl
  | some a =>
    rw [Option.map_some, Option.filter_some, Option.filter_some, hφ.kind]
    cases p a.kind <;> rfl

theorem ambient? (c : Cursor) : (φ c).ambient? = c.ambient?.map φ :=
  hφ.parent_filter c (· == .ambientDeclaration)

theorem wrapper? (c : Cursor) : (φ c).wrapper? = c.wrapper?.map φ := by
  have hinner : ((φ c).ambient?.getD (φ c)) = φ (c.ambient?.getD c) := by
    rw [hφ.ambient?, Option.getD_map]
  unfold Cursor.wrapper?
  rw [hinner, hφ.parent_filter _ (· == .exportStatement), hφ.ambient?]
  cases ((c.ambient?.getD c).parent?.filter fun a => a.kind == .exportStatement) <;> rfl

theorem exportWithin_map (levels : Nat) (cs : List Cursor) :
    exportWithin levels (cs.map φ) = exportWithin levels cs := by
  induction cs generalizing levels with
  | nil => simp [exportWithin]
  | cons c cs ih => simp only [List.map_cons, exportWithin, hφ.kind, ih]

theorem exportAnchor (c : Cursor) : (φ c).exportAnchor = φ c.exportAnchor := by
  unfold Cursor.exportAnchor
  rw [hφ.parent_filter c (· == .variableDeclarator), Option.getD_map]

theorem isExported (c : Cursor) : (φ c).isExported = c.isExported := by
  unfold Cursor.isExported
  rw [hφ.exportAnchor, hφ.ancestors, hφ.exportWithin_map]

/-- Qualified names agree if the scopes on the way to the root do. -/
theorem qualify {src : Source} {c : Cursor}
    (hscope : ∀ a ∈ c.ancestors, scopeName? src (φ a) = scopeName? src a) (name : String) :
    (φ c).qualify src name = c.qualify src name := by
  unfold Cursor.qualify
  have hnames : ((φ c).ancestors.take scopeReach).filterMap (scopeName? src) =
      (c.ancestors.take scopeReach).filterMap (scopeName? src) := by
    rw [hφ.ancestors, ← List.map_take, List.filterMap_map]
    refine List.filterMap_congr fun a ha => ?_
    exact hscope a (List.mem_of_mem_take ha)
  simp only [hnames]

end Faithful

end Cursor

end Outline
