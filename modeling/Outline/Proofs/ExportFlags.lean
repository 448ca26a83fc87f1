import Outline.Proofs.Definitions
import Outline.Proofs.ExportAgreement

/-!
# Flags and spans of exported symbols

Three walks lead up from a name: one to its declaration, one that counts levels to see whether the
declaration is exported, and one that takes a fixed number of steps to the statement around it. They
agree on the nearest node around the declaration that is no `declare` wrapper (`context?`), unless
such wrappers are stacked.
-/

namespace Outline

open Cursor SymbolRules

namespace Cursor

/-- The nearest node around a declaration that is no `declare` wrapper. -/
def context? (d : Cursor) : Option Cursor :=
  d.ancestors.find? (·.kind != .ambientDeclaration)

theorem Wraps.context? {e d : Cursor} (h : Wraps e d) :
    d.context? = some e ∧ e.kind = .exportStatement := by
  induction h with
  | parent he hparent =>
    rw [Cursor.context?, ancestors_of_parent hparent]
    exact ⟨List.find?_cons_of_pos (by simp [he]), he⟩
  | ambient ha hparent _ ih =>
    rw [Cursor.context?, ancestors_of_parent hparent, List.find?_cons_of_neg (by simp [ha])]
    exact ih

theorem wraps_of_context? {e d : Cursor} (h : d.context? = some e)
    (he : e.kind = .exportStatement) : Wraps e d := by
  obtain ⟨u, above⟩ := d
  induction above generalizing u with
  | nil => cases h
  | cons p ps ih =>
    have hparent : (⟨u, p :: ps⟩ : Cursor).parent? = some ⟨p, ps⟩ := rfl
    rw [Cursor.context?, ancestors_of_parent hparent] at h
    by_cases hambient : (⟨p, ps⟩ : Cursor).kind = .ambientDeclaration
    · rw [List.find?_cons_of_neg (by simp [hambient])] at h
      exact .ambient hambient hparent (ih p h)
    · rw [List.find?_cons_of_pos (by simp [hambient])] at h
      obtain rfl := Option.some.inj h
      exact .parent he hparent

theorem wraps_iff {e d : Cursor} :
    Wraps e d ↔ d.context? = some e ∧ e.kind = .exportStatement :=
  ⟨Wraps.context?, fun h => wraps_of_context? h.1 h.2⟩

/-- The two steps to an export statement lead to one that wraps the declaration. -/
theorem wraps_of_parent {e d : Cursor}
    (h : ((d.ambient?.getD d).parent?).filter (·.kind == .exportStatement) = some e) :
    Wraps e d := by
  obtain ⟨hparent, he⟩ := Option.filter_eq_some_iff.1 h
  have he : e.kind = .exportStatement := beq_iff_eq.1 he
  cases hambient : d.ambient? with
  | none =>
    rw [hambient, Option.getD_none] at hparent
    exact .parent he hparent
  | some a =>
    rw [hambient, Option.getD_some] at hparent
    obtain ⟨hparent', ha⟩ := ambient?_eq_some_iff.1 hambient
    exact .ambient ha hparent' (.parent he hparent)

theorem wraps_of_wrapper? {e d : Cursor} (h : d.wrapper? = some e)
    (he : e.kind = .exportStatement) : Wraps e d := by
  rcases Option.or_eq_some_iff.1 h with h | ⟨-, h⟩
  · exact wraps_of_parent h
  · rw [(ambient?_eq_some_iff.1 h).2] at he
    cases he

/-- A declaration that no statement wraps is part of a `declare` wrapper, if of anything. -/
theorem wrapper?_of_not_wraps {d : Cursor} (h : ∀ e, ¬ Wraps e d) : d.wrapper? = d.ambient? := by
  rw [wrapper?]
  cases hparent : ((d.ambient?.getD d).parent?).filter (·.kind == .exportStatement) with
  | none => exact Option.none_or
  | some e => exact absurd (wraps_of_parent hparent) (h e)

end Cursor

/-! ## Names of symbols -/

/-- The walks from the name `n` of a symbol with the declaration `d` agree: the symbol is exported
    exactly if the nearest node around the declaration, past a wrapper, is an export statement, and
    exactly if the statement that the declaration is part of is one. Then it is the same statement,
    and the symbol has its span. Otherwise the symbol has the span of the wrapper around the
    declaration, or else of the declaration. -/
structure Symbol.AgreesAt (src : Source) (n d : Cursor) (s : Symbol) : Prop where
  flag : s.exported = n.isExported
  declaration : n.declaration? = some d
  context : n.isExported = true ↔ ∃ e, d.context? = some e ∧ e.kind = .exportStatement
  wrapper : n.isExported = true ↔ ∃ e, d.wrapper? = some e ∧ e.kind = .exportStatement
  exported : n.isExported = true →
    ∃ e, d.context? = some e ∧ d.wrapper? = some e ∧ s.location = e.location src
  internal : n.isExported = false → s.location = (d.ambient?.getD d).location src

theorem Symbol.agreesAt_of_not_isStacked {src : Source} {n d : Cursor}
    (hd : n.declaration? = some d) (hexported : n.isExported = exportWithin 1 d.ancestors)
    (hstacked : d.isStacked = false) (name : String) (kind : SymbolKind) :
    AgreesAt src n d (ofName src n name kind) := by
  have hwraps : n.isExported = true ↔ ∃ e, Wraps e d := by
    rw [hexported, exportWithin_iff]
  have hwrapper : ∀ {e}, Wraps e d ↔ d.wrapper? = some e ∧ e.kind = .exportStatement :=
    ⟨fun h => ⟨wrapper?_of_wraps h hstacked, h.context?.2⟩, fun h => wraps_of_wrapper? h.1 h.2⟩
  refine ⟨rfl, hd, ?_, ?_, ?_, ?_⟩
  · simp only [hwraps, wraps_iff]
  · simp only [hwraps, hwrapper]
  · intro h
    obtain ⟨e, he⟩ := hwraps.1 h
    refine ⟨e, he.context?.1, (hwrapper.1 he).1, ?_⟩
    rw [location_ofName hd, (hwrapper.1 he).1, Option.getD_some]
  · intro h
    have hnone : ∀ e, ¬ Wraps e d := by
      intro e he
      rw [hwraps.2 ⟨e, he⟩] at h
      cases h
    rw [location_ofName hd, wrapper?_of_not_wraps hnone]

namespace SymbolRules

variable {language : Language} {t : Tree}

/-- The walks from a name in a tree come to its declaration, and to its export. -/
theorem Names.exists_declaration
    (hdeclarators : ∀ v ∈ preorder t, v.kind = .variableDeclarator →
      (v.parent?.any fun d => d.kind.isVariables) = true)
    {c n : Cursor} {category : String} (hc : c ∈ preorder t) (h : Names language c category n) :
    ∃ d ∈ preorder t, n.declaration? = some d ∧ n.isExported = exportWithin 1 d.ancestors := by
  obtain ⟨d, hdefines⟩ := exists_defines hdeclarators hc
  obtain ⟨hdeclaration, hhangs⟩ := h.hangsIn hc hdefines
  exact ⟨d, hdefines.mem_preorder hc, hhangs.declaration? hdeclaration⟩

end SymbolRules

namespace Symbol

variable {language : Language} {src : Source} {t : Tree}

/-- In a tree without stacked wrappers whose declarators stand in declarations of variables, the
    walks agree for whatever symbol the rules for symbols name. -/
theorem exported_agrees_with_span
    (hambients : ∀ a ∈ preorder t, a.kind = .ambientDeclaration → a.ambient? = none)
    (hdeclarators : ∀ v ∈ preorder t, v.kind = .variableDeclarator →
      (v.parent?.any fun d => d.kind.isVariables) = true) :
    (∀ m ∈ Rule.matchesIn (Topic.symbols.rules language) src t, ∃ c d, m.field? "name" = some c ∧
      ∀ kind, AgreesAt src c.site d (ofName src c.site c.text kind)) ∧
    ∀ s ∈ ofMatches src (Rule.matchesIn (Topic.symbols.rules language) src t),
      ∃ m ∈ Rule.matchesIn (Topic.symbols.rules language) src t, ∃ c d,
        m.field? "name" = some c ∧ AgreesAt src c.site d s := by
  have hmatch : ∀ m ∈ Rule.matchesIn (Topic.symbols.rules language) src t,
      ∃ c d, m.field? "name" = some c ∧
        ∀ kind, AgreesAt src c.site d (ofName src c.site c.text kind) := by
    intro m hm
    obtain ⟨c, hc, category, n, hnames, hks⟩ := exists_names_of_match hm
    obtain ⟨d, hd, hdecl, hexported⟩ := hnames.exists_declaration hdeclarators hc
    have hstacked : d.isStacked = false := by
      rw [isStacked]
      cases hambient : d.ambient? with
      | none => rfl
      | some a =>
        obtain ⟨hparent, ha⟩ := ambient?_eq_some_iff.1 hambient
        rw [Option.bind_some, hambients a (mem_preorder_of_parent hd hparent).1 ha]
        rfl
    exact ⟨_, d, field?_of_captures hks,
      fun kind => agreesAt_of_not_isStacked hdecl hexported hstacked _ kind⟩
  refine ⟨hmatch, fun s hs => ?_⟩
  obtain ⟨m, hm, c, kind, hname, rfl⟩ := exists_match_of_mem hs
  obtain ⟨c', d, hname', hagrees⟩ := hmatch m hm
  obtain rfl := Option.some.inj (hname.symm.trans hname')
  exact ⟨m, hm, c, d, hname, hagrees kind⟩

/-- The constant in a wrapper is exported, with the span of the statement around the wrapper. -/
theorem exported_agrees_with_span_wrappedConstant :
    let ms := Rule.matchesIn (Topic.symbols.rules .typescript) wrappedSource wrappedConstant
    (∀ a ∈ preorder wrappedConstant, a.kind = .ambientDeclaration → a.ambient? = none) ∧
      (∀ v ∈ preorder wrappedConstant, v.kind = .variableDeclarator →
        (v.parent?.any fun d => d.kind.isVariables) = true) ∧
      ms.length = 1 ∧
      ∀ m ∈ ms, ∃ c d, m.field? "name" = some c ∧ c.site.isExported = true ∧
        ∀ kind, AgreesAt wrappedSource c.site d (ofName wrappedSource c.site c.text kind) := by
  intro ms
  have hambients : ∀ a ∈ preorder wrappedConstant, a.kind = .ambientDeclaration →
      a.ambient? = none := by decide +kernel
  have hdeclarators : ∀ v ∈ preorder wrappedConstant, v.kind = .variableDeclarator →
      (v.parent?.any fun d => d.kind.isVariables) = true := by decide +kernel
  have hexported : ∀ m ∈ ms, (m.field? "name").any (·.site.isExported) = true := by decide +kernel
  refine ⟨hambients, hdeclarators, by decide +kernel, fun m hm => ?_⟩
  obtain ⟨c, d, hname, hagrees⟩ := (exported_agrees_with_span hambients hdeclarators).1 m hm
  have hc := hexported m hm
  rw [hname] at hc
  exact ⟨c, d, hname, hc, hagrees⟩

end Symbol

end Outline
