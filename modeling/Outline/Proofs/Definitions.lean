import Outline.Proofs.QualifiedNames
import Outline.Proofs.SymbolSpans

/-!
# Definitions and declarations

A match of a rule for symbols captures a definition and a name in it. The symbol is built without
the definition: a walk from the name looks for the nearest node whose kind is one of declarations.
The rules and the kinds of declarations are two lists, and they fit together: the walk comes to the
captured definition, or to the declaration around a captured declarator, after two steps at most.
-/

namespace Outline

open Cursor SymbolRules

/-- The declaration that a captured definition stands for: the definition itself, or the declaration
    of variables around a declarator. -/
inductive Cursor.Defines (definition : Cursor) : Cursor → Prop
  | whole : definition.kind ≠ .variableDeclarator → Defines definition definition
  | declarator {d : Cursor} : definition.kind = .variableDeclarator →
      definition.parent? = some d → d.kind.isVariables = true → Defines definition d

/-- A name hangs in a declaration, or in a declarator of it. -/
def Cursor.HangsIn (n d : Cursor) : Prop :=
  n ∈ d.children ∨ ∃ v ∈ d.children, v.kind = .variableDeclarator ∧ n ∈ v.children

section Trees

variable {language : Language} {t : Tree}

theorem Cursor.Defines.mem_preorder {c d : Cursor} (h : c.Defines d) (hc : c ∈ preorder t) :
    d ∈ preorder t := by
  cases h with
  | whole => exact hc
  | declarator _ hparent => exact (mem_preorder_of_parent hc hparent).1

theorem Cursor.exists_defines
    (hdeclarators : ∀ v ∈ preorder t, v.kind = .variableDeclarator →
      (v.parent?.any fun d => d.kind.isVariables) = true)
    {c : Cursor} (hc : c ∈ preorder t) : ∃ d, c.Defines d := by
  by_cases hkind : c.kind = .variableDeclarator
  · obtain ⟨d, hparent, hvars⟩ := (Option.any_eq_true ..).1 (hdeclarators c hc hkind)
    exact ⟨d, .declarator hkind hparent hvars⟩
  · exact ⟨c, .whole hkind⟩

/-- A name hangs in what its definition stands for, and that is a declaration. -/
theorem SymbolRules.Names.hangsIn {c d n : Cursor} {category : String}
    (h : Names language c category n) (hc : c ∈ preorder t) (hd : c.Defines d) :
    d.kind.isDeclaration = true ∧ n.HangsIn d := by
  have hinner : ∀ {v : Cursor}, c.kind.isVariables = true → v ∈ c.children →
      v.kind = .variableDeclarator → n ∈ v.children →
      d.kind.isDeclaration = true ∧ n.HangsIn d := by
    intro v hvars hv hkind hn
    cases hd with
    | whole => exact ⟨Kind.isDeclaration_of_isVariables hvars, .inr ⟨v, hv, hkind, hn⟩⟩
    | declarator hdeclarator =>
      rw [hdeclarator] at hvars
      cases hvars
  cases h with
  | direct hx hkind hn =>
    have hdeclaration : c.kind.isDeclaration = true := by
      rw [hkind]
      exact (isDeclaration_of_direct hx).1
    cases hd with
    | whole => exact ⟨hdeclaration, .inl hn⟩
    | declarator hdeclarator =>
      rw [hdeclarator] at hdeclaration
      cases hdeclaration
  | function hkind hchildren =>
    cases hd with
    | whole hne => exact absurd hkind hne
    | declarator _ hparent hvars =>
      have hchild := (mem_preorder_of_parent hc hparent).2
      exact ⟨Kind.isDeclaration_of_isVariables hvars, .inr ⟨c, hchild, hkind, by simp [hchildren]⟩⟩
  | lexical _ hkind hchildren _ hv hvkind hn =>
    exact hinner (by rw [hkind]; rfl) (by simp [hchildren, hv]) hvkind hn
  | var hkind hv hvkind hn => exact hinner (by rw [hkind]; rfl) hv hvkind hn

/-- The walks from a name come to the declaration that it hangs in, and to the export of it. -/
theorem Cursor.HangsIn.declaration? {n d : Cursor} (h : n.HangsIn d)
    (hd : d.kind.isDeclaration = true) :
    n.declaration? = some d ∧ n.isExported = exportWithin 1 d.ancestors := by
  rcases h with hn | ⟨v, hv, hkind, hn⟩
  · exact Export.declaration?_of_mem_children hd hn
  · exact Export.declaration?_of_declarator hd hv hkind hn

theorem Cursor.HangsIn.mem_take {n d : Cursor} (h : n.HangsIn d) : d ∈ n.ancestors.take 2 := by
  rcases h with hn | ⟨v, hv, -, hn⟩
  · rw [ancestors_of_parent (mem_children_iff.1 hn).1]
    exact List.mem_cons_self ..
  · rw [ancestors_of_parent (mem_children_iff.1 hn).1,
      ancestors_of_parent (mem_children_iff.1 hv).1]
    exact List.mem_cons_of_mem _ (List.mem_cons_self ..)

end Trees

/-! ## Symbols -/

namespace Symbol

/-- A symbol is read off the declaration `d` of its name `n`: no bound on the walk hides `d`, it is
    among the two nearest nodes above the name, and the symbol has its span with the statement
    around it, its signature and its scopes. -/
structure ReadsOff (src : Source) (n d : Cursor) (s : Symbol) : Prop where
  declaration : n.declaration? = some d
  unbounded : n.ancestors.find? (·.kind.isDeclaration) = some d
  near : d ∈ n.ancestors.take 2
  location : s.location = (d.wrapper?.getD d).location src
  signature : (⟨s.visibility, s.modifiers, s.parameters.zip s.parameterTypes, s.returnType⟩ :
    Signature) = Signature.ofDeclaration src d n
  qualified : s.qualifiedName = d.qualify src s.name

variable {language : Language} {src : Source} {t : Tree}

theorem readsOff_ofName {n d : Cursor} (hd : d.kind.isDeclaration = true) (hn : n.HangsIn d)
    (name : String) (kind : SymbolKind) : ReadsOff src n d (ofName src n name kind) := by
  have hdecl := (hn.declaration? hd).1
  refine ⟨hdecl, ?_, hn.mem_take, location_ofName hdecl name kind, ?_, ?_⟩
  · exact (List.take_prefix declarationReach n.ancestors).find?_eq_some hdecl
  · simp only [ofName, hdecl, Option.map_some, Option.getD_some, ← List.zip_of_prod rfl rfl]
  · simp only [ofName, hdecl, Option.getD_some]

theorem readsOff_of_match {m : Match}
    (hm : m ∈ Rule.matchesIn (Topic.symbols.rules language) src t) :
    ∃ definition ∈ m.field? "definition", ∃ name ∈ m.field? "name",
      definition.site ∈ preorder t ∧ ∀ d, definition.site.Defines d →
        ∀ kind, ReadsOff src name.site d (ofName src name.site name.text kind) := by
  obtain ⟨c, hc, category, n, hnames, hks⟩ := exists_names_of_match hm
  have hdefinition : m.field? "definition" = some ⟨⟨category, "definition"⟩, c.text src, c⟩ := by
    rw [Match.field?, hks]
    rfl
  refine ⟨_, hdefinition, _, field?_of_captures hks, hc, fun d hd kind => ?_⟩
  obtain ⟨hdeclaration, hhangs⟩ := hnames.hangsIn hc hd
  exact readsOff_ofName hdeclaration hhangs _ kind

/-- Every match of the rules for symbols captures a definition and a name, and what is built from
    the name is read off what the definition stands for. So is every symbol of the tree, and if the
    declarators of the tree stand in declarations of variables, every symbol has such a
    declaration. -/
theorem readsOff_definition (language : Language) (src : Source) (t : Tree) :
    let ms := Rule.matchesIn (Topic.symbols.rules language) src t
    (∀ m ∈ ms, ∃ definition ∈ m.field? "definition", ∃ name ∈ m.field? "name",
      ∀ d, definition.site.Defines d →
        ∀ kind, ReadsOff src name.site d (ofName src name.site name.text kind)) ∧
    (∀ s ∈ ofMatches src ms, ∃ m ∈ ms, ∃ definition ∈ m.field? "definition",
      ∃ name ∈ m.field? "name", s = ofName src name.site name.text s.kind ∧
        ∀ d, definition.site.Defines d → ReadsOff src name.site d s) ∧
    ((∀ v ∈ preorder t, v.kind = .variableDeclarator →
        (v.parent?.any fun d => d.kind.isVariables) = true) →
      ∀ s ∈ ofMatches src ms, ∃ n d, ReadsOff src n d s) := by
  intro ms
  have hsymbols : ∀ s ∈ ofMatches src ms, ∃ m ∈ ms, ∃ definition ∈ m.field? "definition",
      ∃ name ∈ m.field? "name", definition.site ∈ preorder t ∧
        s = ofName src name.site name.text s.kind ∧
        ∀ d, definition.site.Defines d → ReadsOff src name.site d s := by
    intro s hs
    obtain ⟨m, hm, c, kind, hname, rfl⟩ := exists_match_of_mem hs
    obtain ⟨definition, hdefinition, name, hname', hmem, hreads⟩ := readsOff_of_match hm
    obtain rfl := Option.some.inj (hname.symm.trans hname')
    exact ⟨m, hm, definition, hdefinition, c, hname, hmem, rfl, fun d hd => hreads d hd kind⟩
  refine ⟨?_, ?_, ?_⟩
  · intro m hm
    obtain ⟨definition, hdefinition, name, hname, -, hreads⟩ := readsOff_of_match hm
    exact ⟨definition, hdefinition, name, hname, hreads⟩
  · intro s hs
    obtain ⟨m, hm, definition, hdefinition, name, hname, -, hrest⟩ := hsymbols s hs
    exact ⟨m, hm, definition, hdefinition, name, hname, hrest⟩
  · intro hdeclarators s hs
    obtain ⟨m, -, definition, -, name, -, hmem, -, hreads⟩ := hsymbols s hs
    obtain ⟨d, hd⟩ := exists_defines hdeclarators hmem
    exact ⟨name.site, d, hreads d hd⟩

/-- The constant in the method is captured twice, with its declaration and with its declarator, and
    the walk comes to the declaration each time. It passes by the method and the class. -/
theorem readsOff_definition_nestedConstant :
    let ms := Rule.matchesIn (Topic.symbols.rules .typescript) nestedSource nestedTree
    (ms.filterMap (·.field? "definition")).map (·.site.kind) =
        [.classDeclaration, .methodDefinition, .lexicalDeclaration, .variableDeclarator] ∧
      (∀ m ∈ ms, ∃ definition ∈ m.field? "definition", ∃ name ∈ m.field? "name",
        ∃ d, definition.site.Defines d ∧ name.site.declaration? = some d) ∧
      (ms.filterMap fun m => (m.field? "name").bind (·.site.declaration?)).map (·.kind) =
        [.classDeclaration, .methodDefinition, .lexicalDeclaration, .lexicalDeclaration] ∧
      ∀ s ∈ ofMatches nestedSource ms, ∃ n d, ReadsOff nestedSource n d s := by
  intro ms
  have hdefines : ∀ m ∈ ms, ∀ definition ∈ m.field? "definition",
      definition.site.kind ≠ .variableDeclarator ∨
        (definition.site.parent?.any fun d => d.kind.isVariables) = true := by decide +kernel
  obtain ⟨hmatches, -, hsymbols⟩ := readsOff_definition .typescript nestedSource nestedTree
  refine ⟨by decide +kernel, ?_, by decide +kernel, hsymbols (by decide +kernel)⟩
  intro m hm
  obtain ⟨definition, hdefinition, name, hname, hreads⟩ := hmatches m hm
  refine ⟨definition, hdefinition, name, hname, ?_⟩
  by_cases hkind : definition.site.kind = .variableDeclarator
  · have hvars := (hdefines m hm definition hdefinition).resolve_left fun hne => hne hkind
    obtain ⟨d, hparent, hvars⟩ := (Option.any_eq_true ..).1 hvars
    have hd : definition.site.Defines d := .declarator hkind hparent hvars
    exact ⟨d, hd, (hreads d hd .constant).declaration⟩
  · have hd : definition.site.Defines definition.site := .whole hkind
    exact ⟨_, hd, (hreads _ hd .constant).declaration⟩

end Symbol

end Outline
