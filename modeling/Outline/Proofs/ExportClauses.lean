import Outline.Proofs.ExportRecords
import Outline.Proofs.Specifiers

/-!
# What export clauses expose

For an `export` statement with specifiers in braces, four rules may match: for a specifier with or
without an alias, in a statement with or without a source. Each specifier with a name has exactly
one record, from one of them, and the statement has no other record.
-/

namespace Outline

open Cursor

/-! ## Proper statements -/

namespace Tree

/-- Whether a child of an `export` statement says what is exported, or from where. -/
def isExportPart (t : Tree) : Bool :=
  t.kind == .exportClause || t.kind == .namespaceExport || t.kind == .token "*" ||
    t.kind == .token "=" ||
    [Field.declaration, .value, .source].any fun f => t.label.field == some f

/-- A statement that exports the specifiers in braces, of this module or of a source. -/
structure IsExportClause (t : Tree) (source : Option Tree) : Prop where
  kind : t.kind = .exportStatement
  isModuleName : ∀ s ∈ source, s.isModuleName = true
  /-- There are only clauses, and the source behind them. In a specifier with a name, at most an
      alias follows the name. -/
  parts : ∃ clauses, t.children.filter isExportPart = clauses ++ source.toList ∧
    ∀ k ∈ clauses, k.kind = .exportClause ∧ k.label.field = none ∧
      ∀ p ∈ k.children, p.kind = .exportSpecifier → (p.child? .name).isSome = true →
        p.isSpecifier NodeTest.anyNamed.accepts = true

namespace IsExportClause

variable {t : Tree} {source : Option Tree}

theorem part_cases (h : t.IsExportClause source) {d : Tree} (hd : d ∈ t.children)
    (hpart : d.isExportPart = true) :
    (d.kind = .exportClause ∧ d.label.field = none) ∨
      (d.kind = .stringLiteral ∧ d.label.field = some .source ∧ source = some d) := by
  obtain ⟨clauses, hparts, hclauses⟩ := h.parts
  have hmem : d ∈ clauses ++ source.toList := by
    rw [← hparts]
    exact List.mem_filter.2 ⟨hd, hpart⟩
  rcases List.mem_append.1 hmem with hmem | hmem
  · exact .inl ⟨(hclauses d hmem).1, (hclauses d hmem).2.1⟩
  · have hsource : source = some d := Option.mem_toList.1 hmem
    obtain ⟨hfield, hkind⟩ := Bool.and_eq_true_iff.1 (h.isModuleName d hsource)
    exact .inr ⟨beq_iff_eq.1 hkind, beq_iff_eq.1 hfield, hsource⟩

theorem isSpecifier (h : t.IsExportClause source) {k p : Tree} (hk : k ∈ t.children)
    (hkind : k.kind = .exportClause) (hp : p ∈ k.children) (hspecifier : p.kind = .exportSpecifier)
    (hname : (p.child? .name).isSome = true) :
    p.isSpecifier NodeTest.anyNamed.accepts = true := by
  obtain ⟨clauses, hparts, hclauses⟩ := h.parts
  have hmem : k ∈ clauses ++ source.toList := by
    rw [← hparts]
    exact List.mem_filter.2 ⟨hk, by simp [isExportPart, hkind]⟩
  rcases List.mem_append.1 hmem with hmem | hmem
  · exact (hclauses k hmem).2.2 p hp hspecifier hname
  · have hstring := (Bool.and_eq_true_iff.1 (h.isModuleName k (Option.mem_toList.1 hmem))).2
    rw [hkind] at hstring
    cases hstring

theorem kind_ne (h : t.IsExportClause source) {d : Tree} (hd : d ∈ t.children) {k : Kind}
    (hk : k = .namespaceExport ∨ k = .token "*" ∨ k = .token "=") : d.kind ≠ k := by
  rintro rfl
  have hpart : d.isExportPart = true := by
    rcases hk with hk | hk | hk <;> simp [isExportPart, hk]
  rcases h.part_cases hd hpart with ⟨hkind, -⟩ | ⟨hkind, -⟩ <;> simp [hkind] at hk

theorem field_ne (h : t.IsExportClause source) {d : Tree} (hd : d ∈ t.children) {f : Field}
    (hf : f = .declaration ∨ f = .value) : d.label.field ≠ some f := by
  intro hfield
  have hpart : d.isExportPart = true := by
    rcases hf with rfl | rfl <;> simp [isExportPart, hfield]
  rcases h.part_cases hd hpart with ⟨-, hnone⟩ | ⟨-, hsource, -⟩
  · simp [hfield] at hnone
  · rcases hf with rfl | rfl <;> simp [hfield] at hsource

/-- The source is the only child under its field. -/
theorem child?_source (h : t.IsExportClause source) : t.child? .source = source := by
  have hall : ∀ d ∈ t.children, d.label.field = some .source → source = some d := by
    intro d hd hfield
    have hpart : d.isExportPart = true := by simp [isExportPart, hfield]
    rcases h.part_cases hd hpart with ⟨-, hnone⟩ | ⟨-, -, hsource⟩
    · simp [hfield] at hnone
    · exact hsource
  cases hfound : t.child? .source with
  | some d =>
    have hfield : d.label.field = some .source := by simpa using List.find?_some hfound
    exact (hall d (List.mem_of_find?_eq_some hfound) hfield).symm
  | none =>
    cases hsource : source with
    | none => rfl
    | some s =>
      obtain ⟨clauses, hparts, -⟩ := h.parts
      have hs : s ∈ t.children := by
        have hmem : s ∈ t.children.filter isExportPart := by
          rw [hparts, hsource]
          simp
        exact (List.mem_filter.1 hmem).1
      have hfield := (Bool.and_eq_true_iff.1 (h.isModuleName s hsource)).1
      exact absurd hfield (List.find?_eq_none.1 hfound s hs)

end IsExportClause

end Tree

namespace Export

/-- The specifiers with names in the clauses of a statement. -/
def specifiers (statement : Tree) : List Tree :=
  (statement.inside .exportClause).filter fun p =>
    p.kind == .exportSpecifier && (p.child? .name).isSome

/-- The record of a specifier. Its alias, or its name, is exported; the aliases tell the name where
    it differs. -/
def ofSpecifier (fs : FileSystem) (importer : String) (src : Source) (statement : Tree)
    (source : Option Tree) (p : Tree) : Export :=
  let inner := Text.stripQuotes (((p.child? .name).map (·.text src)).getD "")
  let outer := ((p.child? .asName).map fun a => Text.stripQuotes (a.text src)).getD inner
  let origin := source.map fun s => Text.stripQuotes (s.text src)
  let form : ExportForm := if source.isSome then .reExport else .named
  { source := origin
    resolvedPath := origin.bind (Module.resolve? fs importer)
    names := .single outer "binding"
    aliases := if outer = inner then .empty else .single outer inner
    form := if statement.hasToken "type" || p.hasToken "type" then form.typeOnly else form
    commonjs := false
    location := statement.location src }

/-! ## What the rules take -/

section Statement

variable {c : Cursor} {source : Option Tree}

/-- A way to meet a specifier, with the statement before it and the source behind it. -/
def framed (c : Cursor) (source : Option Tree) (ys : List (Tag × Cursor)) : List (Tag × Cursor) :=
  (ModuleRules.exportAs "statement", c) ::
    (ys ++ source.toList.map fun s => (ModuleRules.exportAs "source", ⟨s, c.node :: c.above⟩))

/-- The pattern for specifiers without an alias. -/
def plain : Pattern :=
  .plainSpecifier .exportSpecifier (ModuleRules.exportAs "name")

/-- The pattern for specifiers with an alias. -/
def aliased : Pattern :=
  .aliasedSpecifier .exportSpecifier (ModuleRules.exportAs "name") .anyNamed
    (ModuleRules.exportAs "alias")

/-- The rule for specifiers in a statement without a source. -/
def localRule (p : Pattern) : Rule :=
  ModuleRules.exportStatement [.source] [ModuleRules.part .exportClause [p]]

/-- The rule for specifiers in a statement with a source. -/
def sourceRule (p : Pattern) : Rule :=
  ModuleRules.exportStatement [] [ModuleRules.part .exportClause [p], ModuleRules.exportSource]

theorem exports_eq :
    ModuleRules.exports =
      [ModuleRules.exportStatement []
         [ModuleRules.anyUnder .declaration (ModuleRules.exportAs "declaration")],
       ModuleRules.exportStatement [] [ModuleRules.anyUnder .value (ModuleRules.exportAs "value")],
       localRule plain, localRule aliased, sourceRule plain, sourceRule aliased,
       ModuleRules.exportStatement []
         [ModuleRules.found (.token "*") (ModuleRules.exportAs "wildcard"),
          ModuleRules.exportSource],
       namespaceRule] :=
  rfl

theorem taken_localRule (h : c.node.IsExportClause source) (p : Pattern) :
    (localRule p).pattern.taken c =
      if source.isNone then ((c.inside .exportClause).flatMap p.taken).map (framed c source)
      else [] := by
  have hadmits : Pattern.admits none (.oneOf [.exportStatement]) [.source] c = source.isNone := by
    rw [Bool.eq_iff_iff]
    simp [Pattern.admits, NodeTest.accepts, h.child?_source,
      show c.kind = .exportStatement from h.kind]
  rw [localRule, ModuleRules.exportStatement, Pattern.taken, hadmits, Pattern.takenBelow_singleton,
    ModuleRules.part, Pattern.flatMap_taken_ofKind, Cursor.inside, List.flatMap_assoc]
  cases source with
  | none => simp [Pattern.takenBelow_singleton, framed]
  | some s => rfl

theorem taken_sourceRule (h : c.node.IsExportClause source) (p : Pattern) :
    (sourceRule p).pattern.taken c =
      if source.isSome then ((c.inside .exportClause).flatMap p.taken).map (framed c source)
      else [] := by
  have hadmits : Pattern.admits none (.oneOf [.exportStatement]) [] c = true := by
    rw [Pattern.admits_ofKind]
    exact beq_iff_eq.2 h.kind
  rw [sourceRule, ModuleRules.exportStatement, Pattern.taken_of_admits hadmits]
  cases source with
  | none =>
    have hnone : ∀ d ∈ c.children, ModuleRules.exportSource.taken d = [] := by
      intro d hd
      obtain ⟨t, ht, rfl⟩ := List.mem_map.1 hd
      have hfield := List.find?_eq_none.1 h.child?_source t ht
      rw [ModuleRules.exportSource, Pattern.taken_source, Tree.isModuleName,
        Bool.eq_false_iff.2 hfield]
      rfl
    have htaken : Pattern.takenBelow
        ([ModuleRules.part .exportClause [p]] ++ [ModuleRules.exportSource]) c.children = [] :=
      Pattern.takenBelow_concat_eq_nil hnone
    rw [List.singleton_append] at htaken
    rw [htaken]
    rfl
  | some s =>
    obtain ⟨clauses, hparts, hclauses⟩ := h.parts
    have htaken := Pattern.takenBelow_source (by decide)
      (fun t ht => by
        rcases ht with ht | ht
        · simp [Tree.isExportPart, ht]
        · simp [Tree.isExportPart, beq_iff_eq.1 (Bool.and_eq_true_iff.1 ht).1])
      (h.isModuleName s rfl) hparts (fun k hk => (hclauses k hk).1)
      (fun q hq => ⟨[p], List.mem_singleton.1 hq⟩) (ModuleRules.exportAs "source")
    rw [List.singleton_append] at htaken
    rw [ModuleRules.exportSource, htaken, Pattern.takenBelow_singleton, ModuleRules.part,
      Pattern.flatMap_taken_ofKind, List.filter_filter, Cursor.inside, List.flatMap_assoc,
      List.map_map]
    simp only [Pattern.takenBelow_singleton, Bool.and_self]
    rfl

theorem captured_exportStatement_eq_nil {src : Source} {without : List Field} {p : Pattern}
    {ps : List Pattern} (h : ∀ d ∈ c.children, p.taken d = []) :
    Rule.captured src c (ModuleRules.exportStatement without (p :: ps)) = [] := by
  rw [Rule.captured_of_guard rfl, ModuleRules.exportStatement, Pattern.taken,
    Pattern.takenBelow_cons_eq_nil h]
  simp

/-- At a statement with specifiers, only the rules for specifiers take something. -/
theorem captured_rules {language : Language} (hknown : language ≠ .unknown) {src : Source}
    (h : c.node.IsExportClause source) :
    (Topic.modules.rules language).flatMap (Rule.captured src c) =
      ((c.inside .exportClause).flatMap plain.taken ++
        (c.inside .exportClause).flatMap aliased.taken).map
          (Rule.capturesOf src ∘ framed c source) := by
  have hkind : c.kind = .exportStatement := h.kind
  have hfield : ∀ (f : Field) (tag : Tag), f = .declaration ∨ f = .value →
      ∀ d ∈ c.children, (ModuleRules.anyUnder f tag).taken d = [] := by
    intro f tag hf d hd
    obtain ⟨t, ht, rfl⟩ := List.mem_map.1 hd
    refine Pattern.taken_eq_nil (Pattern.admits_named.trans ?_)
    exact Bool.and_eq_false_iff.2 (.inl (beq_eq_false_iff_ne.2 (h.field_ne ht hf)))
  have hpart : ∀ (k : Kind) (tag : Option Tag) (ps : List Pattern),
      k = .namespaceExport ∨ k = .token "*" ∨ k = .token "=" →
      ∀ d ∈ c.children, (Pattern.node none (.oneOf [k]) [] tag ps).taken d = [] := by
    intro k tag ps hk d hd
    obtain ⟨t, ht, rfl⟩ := List.mem_map.1 hd
    refine Pattern.taken_eq_nil (Pattern.admits_ofKind.trans ?_)
    exact beq_eq_false_iff_ne.2 (h.kind_ne ht hk)
  have hreplacement : Rule.captured src c replacementRule = [] := by
    rw [Rule.captured_of_guard rfl, replacementRule, ModuleRules.part, Pattern.taken,
      Pattern.takenBelow_cons_eq_nil (hpart _ none [] (by simp))]
    simp
  have hrequire : Rule.captured src c Import.requireClauseRule = [] :=
    Rule.captured_eq_nil (by rw [hkind]; decide)
  rw [captured_javascript hknown hrequire hreplacement, ModuleRules.javascript,
    List.flatMap_append, List.flatMap_append, List.flatMap_append,
    Rule.flatMap_captured_eq_nil hkind (show (ModuleRules.imports.all _) = true by decide),
    Rule.flatMap_captured_eq_nil hkind (show (ModuleRules.requires.all _) = true by decide),
    Rule.flatMap_captured_eq_nil hkind (show (ModuleRules.assignments.all _) = true by decide),
    exports_eq]
  simp only [List.flatMap_cons, List.flatMap_nil, namespaceRule, ModuleRules.found,
    ModuleRules.part, captured_exportStatement_eq_nil (hfield .declaration _ (.inl rfl)),
    captured_exportStatement_eq_nil (hfield .value _ (.inr rfl)),
    captured_exportStatement_eq_nil (hpart (.token "*") _ [] (by simp)),
    captured_exportStatement_eq_nil (hpart .namespaceExport _ _ (by simp))]
  -- Of the four rules that are left, the source picks two.
  have hlocal : ∀ p, Rule.captured src c (localRule p) = _ := fun p =>
    (Rule.captured_of_guard rfl).trans (congrArg _ (taken_localRule h p))
  have hsource : ∀ p, Rule.captured src c (sourceRule p) = _ := fun p =>
    (Rule.captured_of_guard rfl).trans (congrArg _ (taken_sourceRule h p))
  simp only [hlocal, hsource]
  cases source <;> simp

end Statement

/-! ## Records -/

section Records

variable (fs : FileSystem) (importer : String) (src : Source) {c : Cursor} {source : Option Tree}

/-- The record of a match, if it is one of an export. -/
def record? (m : Match) : Option Export :=
  if m.hasCategory "export" then ofMatch? fs importer src m else none

/-- What a match of a specifier tells, as a record of the statement. -/
def ofExposed (fs : FileSystem) (importer : String) (src : Source) (statement : Tree)
    (source : Option Tree) (x : Exposed) : Export :=
  let origin := source.map fun s => Text.stripQuotes (s.text src)
  { source := origin
    resolvedPath := origin.bind (Module.resolve? fs importer)
    names := x.names
    aliases := x.aliases
    form := if statement.hasToken "type" then x.form.typeOnly else x.form
    commonjs := false
    location := statement.location src }

theorem ofExposed_exposeSpecifier {p : Cursor} (hkind : p.kind = .exportSpecifier) {n : Tree}
    (hn : p.node.child? .name = some n) (tag aliasTag : Tag) :
    ofExposed fs importer src c.node source (exposeSpecifier source.isSome
        ⟨tag, n.text src, ⟨n, p.node :: p.above⟩⟩
        ((p.node.child? .asName).map fun a => ⟨aliasTag, a.text src, ⟨a, p.node :: p.above⟩⟩)) =
      ofSpecifier fs importer src c.node source p.node := by
  have hparent : (Cursor.parent? ⟨n, p.node :: p.above⟩).any (fun s =>
      s.kind == .exportSpecifier && s.node.hasToken "type") = p.node.hasToken "type" := by
    show (p.kind == .exportSpecifier && p.node.hasToken "type") = _
    rw [beq_iff_eq.2 hkind, Bool.true_and]
  -- The statement and the specifier may both say `type`.
  have htwice : ∀ form : ExportForm, form.typeOnly.typeOnly = form.typeOnly := by
    intro form
    cases form <;> rfl
  simp only [ofExposed, exposeSpecifier, ofSpecifier, hparent, hn, Option.map_map, Option.map_some,
    Option.getD_some]
  congr 1
  cases c.node.hasToken "type" <;> cases p.node.hasToken "type" <;> simp [htwice]

/-- The match of a specifier is not one of an assignment. -/
theorem isAssignment_framed {ys : List (Tag × Cursor)}
    (hys : ∀ y ∈ ys, y.1 = ModuleRules.exportAs "name" ∨ y.1 = ModuleRules.exportAs "alias")
    (i : Nat) : isAssignment ⟨i, Rule.capturesOf src (framed c source ys)⟩ = false := by
  have hnone : ∀ field ∈ ["statement", "name", "alias", "source"],
      ¬ isAssignmentTag (ModuleRules.exportAs field) = true := by decide
  refine List.any_eq_false.2 fun k hk => ?_
  obtain ⟨y, hy, rfl⟩ := List.mem_map.1 hk
  rcases List.mem_cons.1 hy with rfl | hy
  · exact hnone "statement" (by simp)
  · rcases List.mem_append.1 hy with hy | hy
    · rcases hys y hy with hname | hname
      · exact hname ▸ hnone "name" (by simp)
      · exact hname ▸ hnone "alias" (by simp)
    · obtain ⟨s, -, rfl⟩ := List.mem_map.1 hy
      exact hnone "source" (by simp)

theorem record?_called {p : Cursor} (hkind : p.kind = .exportSpecifier)
    (hname : (p.node.child? .name).isSome = true) :
    record? fs importer src ⟨0, Rule.capturesOf src (framed c source
        (Pattern.called (ModuleRules.exportAs "name") (ModuleRules.exportAs "alias") p))⟩ =
      some (ofSpecifier fs importer src c.node source p.node) := by
  obtain ⟨n, hn⟩ := Option.isSome_iff_exists.1 hname
  have htags : ∀ y ∈ Pattern.called (ModuleRules.exportAs "name") (ModuleRules.exportAs "alias") p,
      y.1 = ModuleRules.exportAs "name" ∨ y.1 = ModuleRules.exportAs "alias" := by
    intro y hy
    rcases List.mem_append.1 hy with hy | hy
    · obtain ⟨_, -, rfl⟩ := Option.map_eq_some_iff.1 (Option.mem_toList.1 hy)
      exact .inl rfl
    · obtain ⟨_, -, rfl⟩ := Option.map_eq_some_iff.1 (Option.mem_toList.1 hy)
      exact .inr rfl
  rw [record?, ofMatch?, isAssignment_framed src htags, if_neg Bool.false_ne_true,
    ← ofExposed_exposeSpecifier fs importer src hkind hn (ModuleRules.exportAs "name")
      (ModuleRules.exportAs "alias"), Pattern.called, Cursor.child?, Cursor.child?, hn]
  cases source <;> cases p.node.child? .asName <;> rfl

theorem records_exportClause {language : Language} (hknown : language ≠ .unknown)
    (h : c.node.IsExportClause source) :
    (((Topic.modules.rules language).flatMap (Rule.captured src c)).filterMap
        fun ks => record? fs importer src ⟨0, ks⟩).Perm
      ((specifiers c.node).map (ofSpecifier fs importer src c.node source)) := by
  have hspecifier : ∀ p ∈ c.inside .exportClause, p.kind = .exportSpecifier →
      (p.node.child? .name).isSome = true →
      p.node.isSpecifier NodeTest.anyNamed.accepts = true := by
    intro p hp hkind hname
    obtain ⟨k, hk, hclause, hp⟩ := Cursor.exists_of_mem_inside hp
    exact h.isSpecifier hk hclause hp hkind hname
  have hrecord : ∀ p ∈ (c.inside .exportClause).filter (fun p =>
      p.kind == .exportSpecifier && (p.node.child? .name).isSome),
      record? fs importer src ⟨0, Rule.capturesOf src (framed c source
        (Pattern.called (ModuleRules.exportAs "name") (ModuleRules.exportAs "alias") p))⟩ =
      some (ofSpecifier fs importer src c.node source p.node) := by
    intro p hp
    obtain ⟨hkind, hname⟩ := Bool.and_eq_true_iff.1 (List.mem_filter.1 hp).2
    exact record?_called fs importer src (beq_iff_eq.1 hkind) hname
  rw [captured_rules hknown h, List.filterMap_map]
  refine ((Pattern.taken_specifiers_perm hspecifier).filterMap _).trans (.of_eq ?_)
  rw [List.filterMap_map, specifiers, ← Cursor.node_inside, List.filter_map, List.map_map]
  refine (List.filterMap_congr hrecord).trans ?_
  rw [List.filterMap_eq_map']
  rfl

theorem ofMatches_perm (ms : List Match) :
    (ofMatches fs importer src ms).Perm (ms.filterMap (record? fs importer src)) := by
  refine (List.mergeSort_perm _ _).trans (.of_eq ?_)
  rw [List.filterMap_filter]
  rfl

/-- Whether nodes of a kind may be exports. -/
def isExporting (k : Kind) : Bool :=
  k == .exportStatement || k == .assignmentExpression

theorem location_of_record? {language : Language} {m : Match}
    (hm : m ∈ Rule.matchesAt (Topic.modules.rules language) src c) {r : Export}
    (hr : record? fs importer src m = some r) :
    isExporting c.kind = true ∧ r.location = c.location src := by
  obtain ⟨rule, hrule, xs, hxs, -, hks⟩ := Rule.exists_match_iff.1 ⟨m, hm, rfl⟩
  unfold record? at hr
  split_ifs at hr with hcategory
  obtain ⟨hkind, hlocation⟩ :=
    location_of_isAnchored (isAnchored_of_mem hrule) hxs hks hcategory hr
  exact ⟨by simpa [isExporting] using hkind, hlocation⟩

/-- Every specifier with a name has one record: the exports of a tree are those of the specifiers of
    a statement and those of the other nodes, which lie there. So if no other export lies where the
    statement lies, the exports at this location are those of the specifiers. -/
theorem ofMatches_exportClause {language : Language} (hknown : language ≠ .unknown) {t : Tree}
    {pre post : List Cursor} (ht : preorder t = pre ++ c :: post)
    (h : c.node.IsExportClause source) :
    let rules := Topic.modules.rules language
    let exports := ofMatches fs importer src (Rule.matchesIn rules src t)
    let own := (specifiers c.node).map (ofSpecifier fs importer src c.node source)
    exports.Perm (own ++ (pre ++ post).flatMap fun d =>
        ofMatches fs importer src (Rule.matchesAt rules src d)) ∧
      (∀ d, ∀ r ∈ ofMatches fs importer src (Rule.matchesAt rules src d),
        isExporting d.kind = true ∧ r.location = d.location src) ∧
      ((∀ d ∈ pre ++ post, isExporting d.kind = true → d.location src ≠ c.location src) →
        (exports.filter (·.location == c.location src)).Perm own) := by
  intro rules exports own
  refine records_of_node (fun _ => rfl) (ofMatches_perm fs importer src) ?_
    (records_exportClause fs importer src hknown h) ht
  intro d m hm r hr
  exact location_of_record? fs importer src hm hr

/-- The statement `export { a as b, type d } from './m';`. -/
def mixedStatement : Tree :=
  .node ⟨.exportStatement, none, false, 0, 37⟩
    [.node ⟨.token "export", none, false, 0, 6⟩ [],
     .node ⟨.exportClause, none, false, 7, 25⟩
      [.node ⟨.token "\x7b", none, false, 7, 8⟩ [],
       .node ⟨.exportSpecifier, none, false, 9, 15⟩
        [.node ⟨.identifier, some .name, false, 9, 10⟩ [],
         .node ⟨.token "as", none, false, 11, 13⟩ [],
         .node ⟨.identifier, some .asName, false, 14, 15⟩ []],
       .node ⟨.token ",", none, false, 15, 16⟩ [],
       .node ⟨.exportSpecifier, none, false, 17, 23⟩
        [.node ⟨.token "type", none, false, 17, 21⟩ [],
         .node ⟨.identifier, some .name, false, 22, 23⟩ []],
       .node ⟨.token "\x7d", none, false, 24, 25⟩ []],
     .node ⟨.token "from", none, false, 26, 30⟩ [],
     .node ⟨.stringLiteral, some .source, false, 31, 36⟩ [],
     .node ⟨.token ";", none, false, 36, 37⟩ []]

/-- A file with this statement. -/
def mixedExport : Tree :=
  .node ⟨.other "program", none, false, 0, 37⟩ [mixedStatement]

theorem ofMatches_mixedExport :
    let src := Source.ofString "export \x7b a as b, type d \x7d from './m';"
    let c : Cursor := ⟨mixedStatement, [mixedExport]⟩
    let source : Tree := .node ⟨.stringLiteral, some .source, false, 31, 36⟩ []
    c ∈ preorder mixedExport ∧ c.node.IsExportClause (some source) ∧
      (((ofMatches .empty "/p/main.ts" src
            (Rule.matchesIn (Topic.modules.rules .typescript) src mixedExport)).filter
          (·.location == c.location src)).map
        fun r => (r.form, r.names.entries, r.aliases.entries, r.source)).Perm
        [(.reExport, [("b", "binding")], [("b", "a")], some "./m"),
         (.typeReExport, [("d", "binding")], [], some "./m")] := by
  intro src c source
  have hstatement : c.node.IsExportClause (some source) :=
    ⟨rfl, by decide, (mixedStatement.children.take 2).drop 1, rfl, by decide⟩
  have hsplit : preorder mixedExport =
      [⟨mixedExport, []⟩] ++ c :: (preorder mixedExport).drop 2 :=
    rfl
  have hrecords := (ofMatches_exportClause .empty "/p/main.ts" src
    (show Language.typescript ≠ .unknown by decide) hsplit hstatement).2.2 (by decide)
  have hown : ((specifiers c.node).map
      (ofSpecifier .empty "/p/main.ts" src c.node (some source))).map
      (fun r => (r.form, r.names.entries, r.aliases.entries, r.source)) =
        [(.reExport, [("b", "binding")], [("b", "a")], some "./m"),
         (.typeReExport, [("d", "binding")], [], some "./m")] := by
    decide +kernel
  refine ⟨?_, hstatement, hown ▸ hrecords.map _⟩
  rw [hsplit]
  simp

end Records

end Export

end Outline
