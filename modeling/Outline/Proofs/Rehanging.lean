import Outline.Proofs.Captures
import Outline.Proofs.MatchMaps

/-!
# Other statements below the root of a file

What a file declares is read off the nodes below its root. Here the children of the root are
replaced by others, and a node that hangs below one of the old children is looked at in the new
tree. Rules do not match at the root, and no walk to the root reads more of it than its kind, so a
match below the root gives the same symbol, import and export in both trees.
-/

namespace Outline

open Cursor

/-! ## Roots of files -/

/-- Whether nodes of a kind are roots of files: programs, and what could not be read as one. -/
def Kind.isFile (k : Kind) : Bool :=
  k == .other "program" || k == .error

theorem Kind.isFile_iff {k : Kind} : k.isFile = true ↔ k = .other "program" ∨ k = .error := by
  simp [isFile]

theorem Kind.isSpecifier_of_isFile {k : Kind} (h : k.isFile = true) : k.isSpecifier = false := by
  rcases isFile_iff.1 h with rfl | rfl <;> rfl

theorem Kind.isScope_of_isFile {k : Kind} (h : k.isFile = true) : k.isScope = false := by
  rcases isFile_iff.1 h with rfl | rfl <;> rfl

theorem Kind.isDeclaration_of_isFile {k : Kind} (h : k.isFile = true) :
    k.isDeclaration = false := by
  rcases isFile_iff.1 h with rfl | rfl <;> rfl

/-- No rule matches at the root of a file. -/
theorem Topic.startsAt_of_isFile {k : Kind} (h : k.isFile = true) (topic : Topic)
    (language : Language) : ∀ r ∈ topic.rules language, r.startsAt k = false := by
  rcases Kind.isFile_iff.1 h with rfl | rfl <;> cases topic <;> cases language <;> decide

/-! ## Other children for the root -/

/-- The chain of nodes above a node, with other children for the root. -/
def rehangLast (cs : List Tree) : List Tree → List Tree
  | [] => []
  | [r] => [.node r.label cs]
  | p :: q :: ps => p :: rehangLast cs (q :: ps)

/-- A node in the tree whose root has other children. -/
def rehang (cs : List Tree) : Cursor → Cursor
  | ⟨t, []⟩ => ⟨.node t.label cs, []⟩
  | ⟨t, p :: ps⟩ => ⟨t, rehangLast cs (p :: ps)⟩

theorem rehangLast_cons {cs : List Tree} (p : Tree) {ps : List Tree} (h : ps ≠ []) :
    rehangLast cs (p :: ps) = p :: rehangLast cs ps := by
  cases ps with
  | nil => exact absurd rfl h
  | cons q ps => rfl

theorem rehang_eq {cs : List Tree} {c : Cursor} (h : c.above ≠ []) :
    rehang cs c = ⟨c.node, rehangLast cs c.above⟩ := by
  obtain ⟨t, above⟩ := c
  cases above with
  | nil => exact absurd rfl h
  | cons p ps => rfl

theorem rehang_node {cs : List Tree} {c : Cursor} (h : c.above ≠ []) :
    (rehang cs c).node = c.node := by
  rw [rehang_eq h]

theorem faithful_rehang (cs : List Tree) : Faithful (rehang cs) where
  label c := by
    obtain ⟨t, above⟩ := c
    cases above <;> rfl
  parent c := by
    obtain ⟨t, above⟩ := c
    match above with
    | [] => rfl
    | [_] => rfl
    | _ :: _ :: _ => rfl

theorem thinning_rehang (cs : List Tree) :
    Thinning (fun _ => true) (rehang cs) (fun c => c.above ≠ []) where
  toFaithful := faithful_rehang cs
  seen_of_inside _ := rfl
  children {c} hc := by
    rw [rehang_eq hc, List.filter_true]
    simp only [Cursor.children, List.map_map]
    refine List.map_congr_left fun t _ => ?_
    rw [Function.comp_apply, rehang_eq (List.cons_ne_nil _ _), rehangLast_cons _ hc]
  below _ d hd _ := by
    obtain ⟨t, -, rfl⟩ := List.mem_map.1 hd
    exact List.cons_ne_nil _ _
  bare _ _ _ h := by cases h

mutual

theorem preorderFrom_rehang {cs above : List Tree} (h : above ≠ []) :
    ∀ t : Tree, (preorderFrom above t).map (rehang cs) = preorderFrom (rehangLast cs above) t
  | .node l ts => by
    rw [preorderFrom, preorderFrom, List.map_cons, preorderBelow_rehang (List.cons_ne_nil _ _) ts,
      rehangLast_cons _ h, rehang_eq h]

theorem preorderBelow_rehang {cs above : List Tree} (h : above ≠ []) :
    ∀ ts : List Tree,
      (preorderBelow above ts).map (rehang cs) = preorderBelow (rehangLast cs above) ts
  | [] => by simp [preorderBelow]
  | t :: ts => by
    rw [preorderBelow, preorderBelow, List.map_append, preorderFrom_rehang h t,
      preorderBelow_rehang h ts]

end

/-! ## Nodes below the root of a file -/

/-- A node hangs below the root of a file. -/
structure Hangs (c : Cursor) : Prop where
  inner : c.above ≠ []
  root : ∀ a ∈ c.ancestors, a.above = [] → a.kind.isFile = true

theorem hereditary_hangs : Hereditary Hangs := by
  intro c hc d hd
  obtain ⟨t, -, rfl⟩ := List.mem_map.1 hd
  refine ⟨List.cons_ne_nil _ _, fun a ha hroot => ?_⟩
  rcases List.mem_cons.1 ha with rfl | ha
  · exact absurd hroot hc.inner
  · exact hc.root a ha hroot

namespace Hangs

variable {c : Cursor} (hc : Hangs c) (cs : List Tree)

include hc

/-- Whatever is above a node and is no root of a file stays the same. -/
theorem rehang_node {a : Cursor} (ha : a ∈ c.ancestors) (hk : a.kind.isFile = false) :
    (rehang cs a).node = a.node := by
  refine Outline.rehang_node fun hroot => ?_
  rw [hc.root a ha hroot] at hk
  cases hk

theorem scopeName? (src : Source) {a : Cursor} (ha : a ∈ c.ancestors) :
    Cursor.scopeName? src (rehang cs a) = Cursor.scopeName? src a := by
  have hkind := (faithful_rehang cs).kind a
  unfold Cursor.scopeName?
  cases hk : a.kind.isFile with
  | true =>
    rw [hkind, Kind.isScope_of_isFile hk]
    rfl
  | false => rw [hkind, hc.rehang_node cs ha hk]

theorem signatureOf (src : Source) :
    Symbol.signatureOf src (rehang cs c) = Symbol.signatureOf src c := by
  have hφ := faithful_rehang cs
  unfold Symbol.signatureOf
  rw [hφ.declaration?]
  cases hd : c.declaration? with
  | none => rfl
  | some d =>
    obtain ⟨hmem, hdecl⟩ := mem_of_declaration? hd
    have hfile : d.kind.isFile = false := by
      cases hk : d.kind.isFile with
      | false => rfl
      | true => rw [Kind.isDeclaration_of_isFile hk] at hdecl; cases hdecl
    have hholder : ((rehang cs c).parent?.filter (·.kind == .variableDeclarator)).map (·.node) =
        (c.parent?.filter (·.kind == .variableDeclarator)).map (·.node) := by
      rw [hφ.parent_filter c (· == .variableDeclarator), Option.map_map]
      refine Option.map_congr fun p hp => ?_
      obtain ⟨hparent, hkind⟩ := Option.filter_eq_some_iff.1 hp
      refine hc.rehang_node cs (mem_ancestors_of_parent hparent) ?_
      rw [beq_iff_eq.1 hkind]
      rfl
    have hnode := hc.rehang_node cs hmem hfile
    have hvalue : Signature.functionValue? (rehang cs d) (rehang cs c) =
        Signature.functionValue? d c := by
      unfold Signature.functionValue?
      rw [hholder, hφ.kind, hnode]
    have hheld : Signature.isHeld (rehang cs d) = Signature.isHeld d := by
      unfold Signature.isHeld
      rw [hφ.kind]
    simp only [Option.map_some, Option.getD_some, Signature.ofDeclaration, hheld, hvalue, hnode]

end Hangs

/-! ## Records of matches below the root -/

section Builders

variable {m : Match} (hm : ∀ k ∈ m.captures, Hangs k.site) (cs : List Tree)

include hm

theorem tokensAgree_rehang :
    ∀ k ∈ m.captures, Tree.TokensAgree (rehang cs k.site).node k.site.node := by
  intro k hk text
  rw [rehang_node (hm k hk).inner]

theorem specifiers_rehang : ∀ k ∈ m.captures, ∀ p, k.site.parent? = some p →
    p.kind.isSpecifier = true → Tree.TokensAgree (rehang cs p).node p.node := by
  intro k hk p hp hspec text
  have hfile : p.kind.isFile = false := by
    cases h : p.kind.isFile with
    | false => rfl
    | true => rw [Kind.isSpecifier_of_isFile h] at hspec; cases hspec
  rw [(hm k hk).rehang_node cs (mem_ancestors_of_parent hp) hfile]

theorem Symbol.found?_rehang (src : Source) :
    Symbol.found? src (m.through (rehang cs)) = Symbol.found? src m := by
  refine Symbol.found?_through (faithful_rehang cs) (fun k hk a ha => ?_)
    fun k hk => (hm k hk).signatureOf cs src
  cases hd : k.site.declaration? with
  | none =>
    rw [hd] at ha
    exact (hm k hk).scopeName? cs src ha
  | some d =>
    rw [hd] at ha
    exact (hm k hk).scopeName? cs src (mem_ancestors_trans (mem_of_declaration? hd).1 ha)

theorem Import.ofMatch?_rehang (fs : FileSystem) (importer : String) (src : Source) :
    Import.ofMatch? fs importer src (m.through (rehang cs)) =
      Import.ofMatch? fs importer src m := by
  refine Import.ofMatch?_through (faithful_rehang cs) (tokensAgree_rehang hm cs)
    (specifiers_rehang hm cs) (fun _ _ _ s hs => ?_) fs importer src
  rw [rehang_node (hm s (Match.mem_of_field? hs)).inner]

theorem Export.ofMatch?_rehang (fs : FileSystem) (importer : String) (src : Source) :
    Export.ofMatch? fs importer src (m.through (rehang cs)) =
      Export.ofMatch? fs importer src m := by
  refine Export.ofMatch?_through (faithful_rehang cs) (fun k hk => ?_)
    (specifiers_rehang hm cs) fs importer
  rw [rehang_node (hm k hk).inner]
  exact ⟨fun _ => rfl, rfl, rfl, rfl⟩

end Builders

section Records

variable {ms : List Match} (hms : ∀ m ∈ ms, ∀ k ∈ m.captures, Hangs k.site) (cs : List Tree)

include hms

theorem Symbol.ofMatches_rehang (src : Source) :
    Symbol.ofMatches src (ms.map (Match.through (rehang cs))) = Symbol.ofMatches src ms := by
  have hfound : (ms.map (Match.through (rehang cs))).filterMap (Symbol.found? src) =
      ms.filterMap (Symbol.found? src) := by
    rw [List.filterMap_map]
    exact List.filterMap_congr fun m hm => Symbol.found?_rehang (hms m hm) cs src
  rw [Symbol.ofMatches_eq, hfound, ← Symbol.ofMatches_eq]

theorem Import.ofMatches_rehang (fs : FileSystem) (importer : String) (src : Source) :
    Import.ofMatches fs importer src (ms.map (Match.through (rehang cs))) =
      Import.ofMatches fs importer src ms := by
  unfold Import.ofMatches
  rw [filterMap_category_through fun m hm => Import.ofMatch?_rehang (hms m hm) cs fs importer src]

theorem Export.ofMatches_rehang (fs : FileSystem) (importer : String) (src : Source) :
    Export.ofMatches fs importer src (ms.map (Match.through (rehang cs))) =
      Export.ofMatches fs importer src ms := by
  unfold Export.ofMatches
  rw [filterMap_category_through fun m hm => Export.ofMatch?_rehang (hms m hm) cs fs importer src]

end Records

end Outline
