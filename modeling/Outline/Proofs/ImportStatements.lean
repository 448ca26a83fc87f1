import Outline.Proofs.ExportRecords
import Outline.Proofs.StrippedMatches
import Outline.Proofs.Specifiers

/-!
# What import statements bind

Five rules match the same `import` statement. For a statement with proper clauses and a source, they
give one record for each name that is bound, and one record without a name if there is none. What is
bound is read off the parts of the clauses (`Import.bindings`), without rules.
-/

namespace Outline

open Cursor

/-! ## Proper statements -/

namespace Tree

/-- Whether a part of an import clause is a name, a namespace with a name, or specifiers in
    braces. -/
def isImportPart (t : Tree) : Bool :=
  match t.kind with
  | .identifier => true
  | .namespaceImport => (t.children.filter (·.kind == .identifier)).length == 1
  | .namedImports =>
    t.namedChildren.all fun p => p.kind == .importSpecifier && p.isSpecifier (· == .identifier)
  | _ => false

/-- A statement that imports a module by its source. -/
structure IsImport (t source : Tree) : Prop where
  kind : t.kind = .importStatement
  isModuleName : source.isModuleName = true
  /-- There is no `name = require(…)`, and the clauses stand in front of the source. -/
  parts : ∃ clauses, (t.children.filter fun d =>
      d.kind == .importClause || d.kind == .importRequireClause || d.isModuleName) =
    clauses ++ [source] ∧ ∀ k ∈ clauses, k.kind = .importClause ∧
      ∀ p ∈ k.namedChildren, p.isImportPart = true

/-- What a child of an import clause may be. -/
theorem isImportPart_cases {t : Tree} (h : t.kind.isNamed = true → t.isImportPart = true) :
    t.kind = .identifier ∨
      t.kind = .namespaceImport ∧ (∃ x, t.children.filter (·.kind == .identifier) = [x]) ∨
      t.kind = .namedImports ∧ (∀ p ∈ t.namedChildren, p.kind = .importSpecifier ∧
        p.isSpecifier (· == .identifier) = true) ∨
      ∃ text, t.kind = .token text := by
  cases hnamed : t.kind.isNamed with
  | false =>
    obtain ⟨text, htext⟩ : ∃ text, t.kind = .token text := by
      cases hkind : t.kind <;> simp_all [Kind.isNamed]
    exact .inr (.inr (.inr ⟨text, htext⟩))
  | true =>
    have hpart := h hnamed
    unfold isImportPart at hpart
    split at hpart
    · exact .inl ‹_›
    · exact .inr (.inl ⟨‹_›, List.length_eq_one_iff.1 (beq_iff_eq.1 hpart)⟩)
    · refine .inr (.inr (.inl ⟨‹_›, fun p hp => ?_⟩))
      obtain ⟨hkind, hspecifier⟩ := Bool.and_eq_true_iff.1 (List.all_eq_true.1 hpart p hp)
      exact ⟨beq_iff_eq.1 hkind, hspecifier⟩
    · cases hpart

theorem mem_namedChildren_of_kind {t p : Tree} (hp : p ∈ t.children)
    (hkind : p.kind = .importSpecifier) : p ∈ t.namedChildren := by
  refine List.mem_filter.2 ⟨hp, ?_⟩
  rw [hkind]
  rfl

namespace IsImport

variable {t source : Tree}

theorem source_kind (h : t.IsImport source) : source.kind = .stringLiteral :=
  beq_iff_eq.1 (Bool.and_eq_true_iff.1 h.isModuleName).2

/-- All clauses have proper parts, and there is no clause with `require`. -/
theorem clause_of_mem (h : t.IsImport source) {k : Tree} (hk : k ∈ t.children)
    (hkind : k.kind = .importClause ∨ k.kind = .importRequireClause) :
    k.kind = .importClause ∧ ∀ p ∈ k.namedChildren, p.isImportPart = true := by
  obtain ⟨clauses, hparts, hclauses⟩ := h.parts
  have hmem : k ∈ clauses ++ [source] := by
    rw [← hparts]
    refine List.mem_filter.2 ⟨hk, ?_⟩
    rcases hkind with hkind | hkind <;> simp [hkind]
  rcases List.mem_append.1 hmem with hmem | hmem
  · exact hclauses k hmem
  · rw [List.mem_singleton.1 hmem, h.source_kind] at hkind
    rcases hkind with hkind | hkind <;> cases hkind

end IsImport

end Tree

namespace Import

/-- The binding of a specifier: its alias or its name, for what is called so in the module. -/
def bindingOfSpecifier (src : Source) (p : Tree) : Binding :=
  let name := ((p.child? .name).map (·.text src)).getD ""
  ⟨.named, .single (((p.child? .asName).map (·.text src)).getD name) name, some p⟩

/-- What a part of an import clause binds. -/
def bindingsOfPart (src : Source) (t : Tree) : List Binding :=
  match t.kind with
  | .identifier => [⟨.default, .single (t.text src) "default", none⟩]
  | .namespaceImport =>
    [⟨.namespaced, .single
      (((t.children.find? (·.kind == .identifier)).map (·.text src)).getD "") "*", none⟩]
  | .namedImports => (t.children.filter (·.kind == .importSpecifier)).map (bindingOfSpecifier src)
  | _ => []

/-- What a statement binds: what the parts of its clauses bind, and otherwise nothing, for the
    effects of the module. -/
def bindings (src : Source) (statement : Tree) : List Binding :=
  let bound := (statement.inside .importClause).flatMap (bindingsOfPart src)
  if bound.isEmpty then [⟨.sideEffect, .empty, none⟩] else bound

/-- The record of a binding. It is for types only if the statement or the specifier says so. -/
def ofBinding (fs : FileSystem) (importer : String) (src : Source) (statement source : Tree)
    (b : Binding) : Import where
  source := Text.stripQuotes (source.text src)
  resolvedPath := Module.resolve? fs importer (Text.stripQuotes (source.text src))
  isExternal := Module.isExternal (Text.stripQuotes (source.text src))
  names := b.names
  form := if statement.hasToken "type" || b.specifier.any (·.hasToken "type") then b.form.typeOnly
    else b.form
  commonjs := false
  location := statement.location src

/-! ## The rules -/

/-- The patterns for parts of import clauses. -/
def partPatterns : List Pattern :=
  [ModuleRules.found .identifier (ModuleRules.importAs "default"),
   ModuleRules.part .namespaceImport
     [ModuleRules.found .identifier (ModuleRules.importAs "namespace")],
   ModuleRules.part .namedImports
     [.plainSpecifier .importSpecifier (ModuleRules.importAs "named")],
   ModuleRules.part .namedImports
     [.aliasedSpecifier .importSpecifier (ModuleRules.importAs "named") (.oneOf [.identifier])
       (ModuleRules.importAs "alias")]]

theorem imports_eq :
    ModuleRules.imports =
      (partPatterns.map fun p =>
          ModuleRules.importStatement [ModuleRules.part .importClause [p]]) ++
        [ModuleRules.importStatement []] :=
  rfl

/-- The rules that may match at `import` statements. -/
theorem captured_rules {language : Language} (hknown : language ≠ .unknown) {src : Source}
    {c : Cursor} (hkind : c.kind = .importStatement)
    (hrequire : Rule.captured src c requireClauseRule = []) :
    (Topic.modules.rules language).flatMap (Rule.captured src c) =
      ModuleRules.imports.flatMap (Rule.captured src c) := by
  have hreplacement : Rule.captured src c Export.replacementRule = [] :=
    Rule.captured_eq_nil (by rw [hkind]; decide)
  rw [captured_javascript hknown hrequire hreplacement, ModuleRules.javascript,
    List.flatMap_append, List.flatMap_append, List.flatMap_append,
    Rule.flatMap_captured_eq_nil hkind (show (ModuleRules.requires.all _) = true by decide),
    Rule.flatMap_captured_eq_nil hkind (show (ModuleRules.exports.all _) = true by decide),
    Rule.flatMap_captured_eq_nil hkind (show (ModuleRules.assignments.all _) = true by decide),
    List.append_nil, List.append_nil, List.append_nil]

/-! ## What the rules take -/

section Statement

variable {c : Cursor} {source : Tree}

/-- A way to meet a part of a clause, with the statement before it and the source behind it. -/
def framed (c : Cursor) (source : Tree) (ys : List (Tag × Cursor)) : List (Tag × Cursor) :=
  (ModuleRules.importAs "statement", c) ::
    (ys ++ [(ModuleRules.importAs "source", ⟨source, c.node :: c.above⟩)])

theorem taken_importStatement (h : c.node.IsImport source) {ps : List Pattern}
    (hps : ∀ p ∈ ps, ∃ qs, p = ModuleRules.part .importClause qs) :
    (ModuleRules.importStatement ps).pattern.taken c =
      (Pattern.takenBelow ps (c.children.filter (·.kind == .importClause))).map
        (framed c source) := by
  obtain ⟨clauses, hparts, hclauses⟩ := h.parts
  have hadmits : Pattern.admits none (.oneOf [.importStatement]) [] c = true := by
    rw [Pattern.admits_ofKind]
    exact beq_iff_eq.2 h.kind
  have htaken := Pattern.takenBelow_source (by decide)
    (fun t ht => by rcases ht with ht | ht <;> simp [ht]) h.isModuleName hparts
    (fun k hk => (hclauses k hk).1) hps (ModuleRules.importAs "source")
  rw [ModuleRules.importStatement, Pattern.taken_of_admits hadmits, htaken, List.map_map]
  rfl

theorem taken_part (h : c.node.IsImport source) (p : Pattern) :
    (ModuleRules.importStatement [ModuleRules.part .importClause [p]]).pattern.taken c =
      ((c.inside .importClause).flatMap p.taken).map (framed c source) := by
  rw [taken_importStatement h (by simp), Pattern.takenBelow_singleton, ModuleRules.part,
    Pattern.flatMap_taken_ofKind, List.filter_filter, Cursor.inside, List.flatMap_assoc]
  simp only [Pattern.takenBelow_singleton, Bool.and_self]

theorem taken_bare (h : c.node.IsImport source) :
    (ModuleRules.importStatement []).pattern.taken c = [framed c source []] := by
  rw [taken_importStatement h (by simp), Pattern.takenBelow]
  rfl

theorem taken_requireClauseRule (h : c.node.IsImport source) :
    requireClauseRule.pattern.taken c = [] := by
  have hnone : c.node.children.filter (·.kind == .importRequireClause) = [] := by
    refine List.filter_eq_nil_iff.2 fun d hd hkind => ?_
    have hkind : d.kind = .importRequireClause := beq_iff_eq.1 hkind
    have hclause := (h.clause_of_mem hd (.inr hkind)).1
    rw [hkind] at hclause
    cases hclause
  rw [requireClauseRule, Pattern.taken_ofKind, Pattern.takenBelow_singleton, ModuleRules.part,
    Pattern.flatMap_taken_ofKind, Cursor.children_ofKind, hnone]
  simp

end Statement

/-! ## Records of parts -/

section Parts

variable (fs : FileSystem) (importer : String) (src : Source) {c : Cursor} {source : Tree}

/-- The record of a match, if it is one of an import. -/
def record? (m : Match) : Option Import :=
  if m.hasCategory "import" then ofMatch? fs importer src m else none

/-- The record of a way to meet a part of a clause. -/
def recordOf? (c : Cursor) (source : Tree) (ys : List (Tag × Cursor)) : Option Import :=
  record? fs importer src ⟨0, Rule.capturesOf src (framed c source ys)⟩

/-- Fields under which parts of clauses are not reported. -/
def frameFields : List String :=
  ["statement", "source", "require_fn", "require_source"]

theorem hasField_framed {ys : List (Tag × Cursor)}
    (hys : (ys.all fun y => !frameFields.contains y.1.field) = true) {field : String}
    (hfield : field = "require_fn" ∨ field = "require_source") :
    (Match.mk 0 (Rule.capturesOf src (framed c source ys))).hasField field = false := by
  refine List.any_eq_false.2 fun k hk => ?_
  obtain ⟨y, hy, rfl⟩ := List.mem_map.1 hk
  rcases List.mem_cons.1 hy with rfl | hy
  · rcases hfield with rfl | rfl <;> simp [ModuleRules.importAs]
  · rcases List.mem_append.1 hy with hy | hy
    · have hnot := List.all_eq_true.1 hys y hy
      intro heq
      obtain rfl : y.1.field = field := beq_iff_eq.1 heq
      rcases hfield with h | h <;> simp [frameFields, h] at hnot
    · obtain rfl := List.mem_singleton.1 hy
      rcases hfield with rfl | rfl <;> simp [ModuleRules.importAs]

theorem source_framed {ys : List (Tag × Cursor)}
    (hys : (ys.all fun y => !frameFields.contains y.1.field) = true) :
    (Match.mk 0 (Rule.capturesOf src (framed c source ys))).firstOf? sourceFields =
      some ⟨ModuleRules.importAs "source", source.text src, ⟨source, c.node :: c.above⟩⟩ := by
  have hskip : (Rule.capturesOf src ys).find? (·.tag.field == "source") = none := by
    refine List.find?_eq_none.2 fun k hk => ?_
    obtain ⟨y, hy, rfl⟩ := List.mem_map.1 hk
    have hnot := List.all_eq_true.1 hys y hy
    intro heq
    have hfield : y.1.field = "source" := beq_iff_eq.1 heq
    simp [frameFields, hfield] at hnot
  have hfield : (Match.mk 0 (Rule.capturesOf src (framed c source ys))).field? "source" =
      some ⟨ModuleRules.importAs "source", source.text src, ⟨source, c.node :: c.above⟩⟩ := by
    rw [Match.field?, framed, Rule.capturesOf, List.map_cons, List.map_append,
      List.find?_cons_of_neg (by simp [ModuleRules.importAs]), List.find?_append]
    show Option.or ((Rule.capturesOf src ys).find? _) _ = _
    rw [hskip]
    rfl
  rw [Match.firstOf?, sourceFields, List.findSome?_cons, hfield]

/-- The record of a part is that of the binding that the match tells. -/
theorem recordOf?_of_binding {ys : List (Tag × Cursor)}
    (hys : (ys.all fun y => !frameFields.contains y.1.field) = true) {b : Binding}
    (hbinding : binding? ⟨0, Rule.capturesOf src (framed c source ys)⟩ = some b)
    (hspecifier : ∀ p, b.specifier = some p → p.kind = .importSpecifier) :
    recordOf? fs importer src c source ys = some (ofBinding fs importer src c.node source b) := by
  have htype : isTypeOnly ⟨0, Rule.capturesOf src (framed c source ys)⟩ b.specifier =
      (c.node.hasToken "type" || b.specifier.any (·.hasToken "type")) := by
    show (c.node.hasToken "type" || b.specifier.any _) = _
    cases hp : b.specifier with
    | none => rfl
    | some p => simp [hspecifier p hp]
  have hrecord : recordOf? fs importer src c source ys =
      ofMatch? fs importer src ⟨0, Rule.capturesOf src (framed c source ys)⟩ := rfl
  rw [hrecord, ofMatch?, source_framed src hys, hbinding]
  simp only [Option.bind_eq_bind, Option.bind_some, hasField_framed src hys (.inl rfl),
    hasField_framed src hys (.inr rfl), htype]
  rfl

theorem recordOf?_default (d : Cursor) :
    recordOf? fs importer src c source [(ModuleRules.importAs "default", d)] =
      some (ofBinding fs importer src c.node source
        ⟨.default, .single (d.text src) "default", none⟩) :=
  recordOf?_of_binding fs importer src rfl rfl (by simp)

theorem recordOf?_namespace (d : Cursor) :
    recordOf? fs importer src c source [(ModuleRules.importAs "namespace", d)] =
      some (ofBinding fs importer src c.node source
        ⟨.namespaced, .single (d.text src) "*", none⟩) :=
  recordOf?_of_binding fs importer src rfl rfl (by simp)

theorem recordOf?_specifier {p : Cursor} (hkind : p.kind = .importSpecifier)
    (hname : (p.node.child? .name).isSome = true) :
    recordOf? fs importer src c source
        (Pattern.called (ModuleRules.importAs "named") (ModuleRules.importAs "alias") p) =
      some (ofBinding fs importer src c.node source (bindingOfSpecifier src p.node)) := by
  obtain ⟨n, hn⟩ := Option.isSome_iff_exists.1 hname
  have hspecifier : ∀ q, some p.node = some q → q.kind = .importSpecifier := by
    intro q hq
    obtain rfl := Option.some.inj hq
    exact hkind
  rw [Pattern.called, Cursor.child?, Cursor.child?, bindingOfSpecifier, hn]
  cases p.node.child? .asName with
  | none => exact recordOf?_of_binding fs importer src rfl rfl hspecifier
  | some a => exact recordOf?_of_binding fs importer src rfl rfl hspecifier

/-- The bare statement has a record unless its clauses bind something. -/
theorem recordOf?_nil :
    recordOf? fs importer src c source [] =
      if bindsNames c.node then none
      else some (ofBinding fs importer src c.node source ⟨.sideEffect, .empty, none⟩) := by
  have hbinding : binding? ⟨0, Rule.capturesOf src (framed c source [])⟩ =
      if bindsNames c.node then none else some ⟨.sideEffect, .empty, none⟩ := rfl
  split_ifs at hbinding ⊢ with hbinds
  · show ofMatch? fs importer src ⟨0, Rule.capturesOf src (framed c source [])⟩ = none
    rw [ofMatch?, source_framed src rfl, hbinding]
    rfl
  · exact recordOf?_of_binding fs importer src rfl hbinding (by simp)

/-- Each specifier in braces has one record, from one of the two patterns for specifiers. -/
theorem records_specifiers {d : Cursor}
    (h : ∀ p ∈ d.node.children, p.kind = .importSpecifier →
      p.isSpecifier (· == .identifier) = true) :
    ((d.children.flatMap
          (Pattern.plainSpecifier .importSpecifier (ModuleRules.importAs "named")).taken ++
        d.children.flatMap (Pattern.aliasedSpecifier .importSpecifier (ModuleRules.importAs "named")
          (.oneOf [.identifier]) (ModuleRules.importAs "alias")).taken).filterMap
      (recordOf? fs importer src c source)).Perm
      (((d.node.children.filter (·.kind == .importSpecifier)).map (bindingOfSpecifier src)).map
        (ofBinding fs importer src c.node source)) := by
  have haccepts : (NodeTest.oneOf [.identifier]).accepts = (· == .identifier) := by
    funext k
    rw [Bool.eq_iff_iff]
    simp [NodeTest.accepts]
  have hspecifier : ∀ p ∈ d.children, p.kind = .importSpecifier →
      p.node.isSpecifier (NodeTest.oneOf [.identifier]).accepts = true := by
    intro p hp hkind
    obtain ⟨t, ht, rfl⟩ := List.mem_map.1 hp
    rw [haccepts]
    exact h t ht hkind
  have hname : ∀ p ∈ d.children, p.kind = .importSpecifier →
      (p.node.child? .name).isSome = true := by
    intro p hp hkind
    obtain ⟨n, -, hn, -⟩ := Tree.isSpecifier_cases (hspecifier p hp hkind)
    rw [hn]
    rfl
  -- All specifiers have names.
  have hfilter : (d.children.filter fun p =>
      p.kind == .importSpecifier && (p.node.child? .name).isSome) =
        d.children.filter (·.kind == .importSpecifier) := by
    refine List.filter_congr fun p hp => ?_
    by_cases hkind : p.kind = .importSpecifier
    · simp [hname p hp hkind]
    · simp [hkind]
  refine ((Pattern.taken_specifiers_perm fun p hp hkind _ => hspecifier p hp hkind).filterMap
    _).trans (.of_eq ?_)
  rw [hfilter, List.filterMap_map, List.map_map]
  have hrecord : ∀ p ∈ d.children.filter (·.kind == .importSpecifier),
      (recordOf? fs importer src c source ∘
        Pattern.called (ModuleRules.importAs "named") (ModuleRules.importAs "alias")) p =
        some (ofBinding fs importer src c.node source (bindingOfSpecifier src p.node)) := by
    intro p hp
    obtain ⟨hmem, hkind⟩ := List.mem_filter.1 hp
    have hkind : p.kind = .importSpecifier := beq_iff_eq.1 hkind
    exact recordOf?_specifier fs importer src hkind (hname p hmem hkind)
  rw [List.filterMap_congr hrecord, List.filterMap_eq_map',
    Cursor.children_ofKind, List.map_map]
  rfl

/-- What the patterns for parts take at a node. -/
theorem taken_partPatterns (d : Cursor) :
    partPatterns.flatMap (·.taken d) =
      (if d.kind == .identifier then [[(ModuleRules.importAs "default", d)]] else []) ++
      ((if d.kind == .namespaceImport then
          (d.children.filter (·.kind == .identifier)).map
            fun x => [(ModuleRules.importAs "namespace", x)]
        else []) ++
      (if d.kind == .namedImports then
        d.children.flatMap
          (Pattern.plainSpecifier .importSpecifier (ModuleRules.importAs "named")).taken ++
        d.children.flatMap (Pattern.aliasedSpecifier .importSpecifier (ModuleRules.importAs "named")
          (.oneOf [.identifier]) (ModuleRules.importAs "alias")).taken
      else [])) := by
  have hfound : ∀ tag : Tag, (ModuleRules.found .identifier tag).taken =
      fun x => if x.kind == .identifier then [[(tag, x)]] else [] := by
    intro tag
    funext x
    rw [ModuleRules.found, Pattern.taken_leaf, Pattern.admits_ofKind]
    rfl
  have hpart : ∀ (kind : Kind) (p : Pattern), (ModuleRules.part kind [p]).taken d =
      if d.kind == kind then d.children.flatMap p.taken else [] := by
    intro kind p
    rw [ModuleRules.part, Pattern.taken_ofKind, Pattern.takenBelow_singleton]
    simp
  rw [partPatterns]
  simp only [List.flatMap_cons, List.flatMap_nil, List.append_nil, hpart, hfound,
    map_filter_eq_flatMap]
  by_cases hnamed : d.kind == .namedImports <;> simp [hnamed]

/-- A part of a clause has one record for each of its bindings. -/
theorem records_part {d : Cursor} (h : d.kind.isNamed = true → d.node.isImportPart = true) :
    ((partPatterns.flatMap (·.taken d)).filterMap (recordOf? fs importer src c source)).Perm
      ((bindingsOfPart src d.node).map (ofBinding fs importer src c.node source)) := by
  rw [taken_partPatterns]
  rcases Tree.isImportPart_cases h with hkind | ⟨hkind, x, hx⟩ | ⟨hkind, hall⟩ | ⟨text, hkind⟩
  · have hbindings : bindingsOfPart src d.node =
        [⟨.default, .single (d.text src) "default", none⟩] := by
      rw [bindingsOfPart, hkind]
      rfl
    simp [Cursor.kind, hkind, hbindings, recordOf?_default]
  · have hfind : d.node.children.find? (·.kind == .identifier) = some x := by
      rw [← List.head?_filter, hx]
      rfl
    have hbindings : bindingsOfPart src d.node =
        [⟨.namespaced, .single (x.text src) "*", none⟩] := by
      rw [bindingsOfPart, hkind, hfind]
      rfl
    have hfilter : d.children.filter (·.kind == .identifier) = [⟨x, d.node :: d.above⟩] := by
      rw [Cursor.children_ofKind, hx]
      rfl
    simp [show d.kind = .namespaceImport from hkind, hbindings, hfilter, recordOf?_namespace,
      Cursor.text]
  · have hbindings : bindingsOfPart src d.node =
        (d.node.children.filter (·.kind == .importSpecifier)).map (bindingOfSpecifier src) := by
      rw [bindingsOfPart, hkind]
    have hspecifiers : ∀ p ∈ d.node.children, p.kind = .importSpecifier →
        p.isSpecifier (· == .identifier) = true := by
      intro p hp hp'
      exact (hall p (Tree.mem_namedChildren_of_kind hp hp')).2
    rw [hbindings]
    simpa [Cursor.kind, hkind] using records_specifiers fs importer src hspecifiers
  · -- Tokens bind nothing.
    have hbindings : bindingsOfPart src d.node = [] := by
      rw [bindingsOfPart, hkind]
    simp [Cursor.kind, hkind, hbindings]

/-! ## Records of statements -/

/-- A part binds nothing just if it is a token or empty braces. -/
theorem bindingsOfPart_eq_nil {t : Tree} (h : t.kind.isNamed = true → t.isImportPart = true) :
    bindingsOfPart src t = [] ↔ (t.kind.isNamed && isBinder t) = false := by
  rcases Tree.isImportPart_cases h with hkind | ⟨hkind, -⟩ | ⟨hkind, hall⟩ | ⟨text, hkind⟩
  · simp [bindingsOfPart, isBinder, Kind.isNamed, hkind]
  · simp [bindingsOfPart, isBinder, Kind.isNamed, hkind]
  · have hsame : t.children.filter (·.kind == .importSpecifier) = t.namedChildren := by
      refine List.filter_congr fun p hp => ?_
      rw [Bool.eq_iff_iff]
      constructor
      · intro hp'
        rw [beq_iff_eq.1 hp']
        rfl
      · intro hnamed
        exact beq_iff_eq.2 (hall p (List.mem_filter.2 ⟨hp, hnamed⟩)).1
    simp [bindingsOfPart, isBinder, Kind.isNamed, hkind, hsame]
  · simp [bindingsOfPart, Kind.isNamed, hkind]

/-- A statement binds nothing just if it counts as one without bindings. -/
theorem bound_eq_nil {t : Tree} (h : t.IsImport source) :
    (t.inside .importClause).flatMap (bindingsOfPart src) = [] ↔ bindsNames t = false := by
  have hpart : ∀ k ∈ t.children.filter (·.kind == .importClause), ∀ d ∈ k.children,
      (bindingsOfPart src d = [] ↔ (d.kind.isNamed && isBinder d) = false) := by
    intro k hk d hd
    obtain ⟨hmem, hkind⟩ := List.mem_filter.1 hk
    refine bindingsOfPart_eq_nil src fun hnamed => ?_
    exact (h.clause_of_mem hmem (.inl (beq_iff_eq.1 hkind))).2 d (List.mem_filter.2 ⟨hd, hnamed⟩)
  rw [Tree.inside, bindsNames, List.flatMap_assoc, List.flatMap_eq_nil_iff, List.any_eq_false]
  refine forall₂_congr fun k hk => ?_
  rw [List.flatMap_eq_nil_iff, Tree.namedChildren, List.any_filter, Bool.not_eq_true,
    List.any_eq_false]
  refine forall₂_congr fun d hd => ?_
  rw [Bool.not_eq_true]
  exact hpart k hk d hd

theorem records_statement {language : Language} (hknown : language ≠ .unknown)
    (h : c.node.IsImport source) :
    (((Topic.modules.rules language).flatMap (Rule.captured src c)).filterMap
        fun ks => record? fs importer src ⟨0, ks⟩).Perm
      ((bindings src c.node).map (ofBinding fs importer src c.node source)) := by
  have hrequire : Rule.captured src c requireClauseRule = [] := by
    rw [Rule.captured_of_guard rfl, taken_requireClauseRule h]
    rfl
  let ways := partPatterns.flatMap fun p : Pattern => (c.inside .importClause).flatMap p.taken
  have hrules : (ModuleRules.imports.flatMap (Rule.captured src c)) =
      (ways ++ [[]]).map (Rule.capturesOf src ∘ framed c source) := by
    rw [imports_eq, List.flatMap_append, List.flatMap_map, List.map_append, List.map_flatMap,
      List.flatMap_singleton, Rule.captured_of_guard rfl, taken_bare h]
    refine congrArg (· ++ _) (List.flatMap_congr fun p _ => ?_)
    rw [Rule.captured_of_guard rfl, taken_part h, List.map_map]
  -- The rules for parts, part by part.
  have hparts : (ways.filterMap (recordOf? fs importer src c source)).Perm
      (((c.node.inside .importClause).flatMap (bindingsOfPart src)).map
        (ofBinding fs importer src c.node source)) := by
    have hswap := flatMap_swap_perm Pattern.taken partPatterns (c.inside .importClause)
    refine (hswap.filterMap _).trans ?_
    rw [List.filterMap_flatMap, ← Cursor.node_inside, List.flatMap_map, List.map_flatMap]
    refine List.Perm.flatMap_left _ fun d hd => records_part fs importer src fun hnamed => ?_
    obtain ⟨k, hk, hkind, hd⟩ := Cursor.exists_of_mem_inside hd
    exact (h.clause_of_mem hk (.inl hkind)).2 d.node (List.mem_filter.2 ⟨hd, hnamed⟩)
  rw [captured_rules hknown h.kind hrequire, hrules, List.filterMap_map]
  show ((ways ++ [[]]).filterMap (recordOf? fs importer src c source)).Perm _
  rw [List.filterMap_append, bindings]
  have hbound := bound_eq_nil src h
  cases hbinds : bindsNames c.node with
  | true =>
    have hne : (c.node.inside .importClause).flatMap (bindingsOfPart src) ≠ [] := by
      simp [hbound, hbinds]
    simp [recordOf?_nil, hbinds, List.isEmpty_eq_false_iff.2 hne, hparts]
  | false =>
    rw [hbinds] at hbound
    rw [hbound.2 rfl] at hparts ⊢
    rw [hparts.eq_nil]
    simp [recordOf?_nil, hbinds]

end Parts

/-! ## Where records lie -/

/-- Whether nodes of a kind may be imports. -/
def isImporting (k : Kind) : Bool :=
  k == .importStatement || k == .variableDeclarator || k == .expressionStatement

/-- Whether a rule reports no import, or an import at a statement or a declarator. -/
def isAnchored (r : Rule) : Bool :=
  (Query.tagsOf r.pattern).all (·.category != "import") ||
    match r.pattern with
    | .node _ (.oneOf [kind]) _ (some tag) _ => isImporting kind && tag.field == "statement"
    | _ => false

theorem location_of_record? {language : Language} {fs : FileSystem} {importer : String}
    {src : Source} {c : Cursor} {m : Match}
    (hm : m ∈ Rule.matchesAt (Topic.modules.rules language) src c) {r : Import}
    (hr : record? fs importer src m = some r) :
    isImporting c.kind = true ∧ r.location = c.location src := by
  obtain ⟨rule, hrule, xs, hxs, -, hks⟩ := Rule.exists_match_iff.1 ⟨m, hm, rfl⟩
  have hall : ∀ rule ∈ Topic.modules.rules language, isAnchored rule = true := by
    cases language <;> decide
  have hanchored := hall rule hrule
  unfold record? at hr
  split_ifs at hr with hcategory
  simp only [isAnchored, Bool.or_eq_true] at hanchored
  rcases hanchored with hnone | hroot
  · obtain ⟨k, hk, himport⟩ := List.any_eq_true.1 hcategory
    rw [hks] at hk
    obtain ⟨x, hx, rfl⟩ := List.mem_map.1 hk
    have hne := List.all_eq_true.1 hnone x.1 (Pattern.tag_mem_of_takes _ c xs hxs x hx)
    rw [bne, himport] at hne
    cases hne
  · split at hroot
    · rename_i field kind without tag children hpattern
      rw [hpattern] at hxs
      obtain ⟨rfl, ys, rfl⟩ := Pattern.takes_root hxs
      obtain ⟨hkind, htag⟩ := Bool.and_eq_true_iff.1 hroot
      have hstatement : m.field? "statement" = some ⟨tag, c.text src, c⟩ := by
        rw [Match.field?, hks, Rule.capturesOf, List.map_cons,
          List.find?_cons_of_pos (by exact htag)]
      obtain ⟨source, -, hr⟩ := Option.bind_eq_some_iff.1 hr
      obtain ⟨binding, -, hr⟩ := Option.bind_eq_some_iff.1 hr
      obtain rfl := Option.some.inj hr
      refine ⟨hkind, ?_⟩
      show locationOf src m = _
      rw [locationOf, hstatement]
      rfl
    · cases hroot

/-! ## Trees -/

section Trees

variable (fs : FileSystem) (importer : String) (src : Source)

theorem ofMatches_perm (ms : List Match) :
    (ofMatches fs importer src ms).Perm (ms.filterMap (record? fs importer src)) := by
  refine (List.mergeSort_perm _ _).trans (.of_eq ?_)
  rw [List.filterMap_filter]
  rfl

/-- Every import statement is accounted for once per binding: the imports of a tree are those of the
    statement's bindings and those of the other nodes, which lie there. So if no other import lies
    where the statement lies, the imports at this location are those of the bindings. -/
theorem ofMatches_importStatement {language : Language} (hknown : language ≠ .unknown) {t : Tree}
    {pre post : List Cursor} {c : Cursor} (ht : preorder t = pre ++ c :: post) {source : Tree}
    (h : c.node.IsImport source) :
    let rules := Topic.modules.rules language
    let imports := ofMatches fs importer src (Rule.matchesIn rules src t)
    let own := (bindings src c.node).map (ofBinding fs importer src c.node source)
    imports.Perm (own ++ (pre ++ post).flatMap fun d =>
        ofMatches fs importer src (Rule.matchesAt rules src d)) ∧
      (∀ d, ∀ r ∈ ofMatches fs importer src (Rule.matchesAt rules src d),
        isImporting d.kind = true ∧ r.location = d.location src) ∧
      ((∀ d ∈ pre ++ post, isImporting d.kind = true → d.location src ≠ c.location src) →
        (imports.filter (·.location == c.location src)).Perm own) := by
  intro rules imports own
  refine records_of_node (fun _ => rfl) (ofMatches_perm fs importer src) ?_
    (records_statement fs importer src hknown h) ht
  intro d m hm r hr
  exact location_of_record? hm hr

/-- The statement `import d, { type a as b } from './m';`. -/
def mixedStatement : Tree :=
  .node ⟨.importStatement, none, false, 0, 37⟩
    [.node ⟨.token "import", none, false, 0, 6⟩ [],
     .node ⟨.importClause, none, false, 7, 25⟩
      [.node ⟨.identifier, none, false, 7, 8⟩ [],
       .node ⟨.token ",", none, false, 8, 9⟩ [],
       .node ⟨.namedImports, none, false, 10, 25⟩
        [.node ⟨.token "\x7b", none, false, 10, 11⟩ [],
         .node ⟨.importSpecifier, none, false, 12, 23⟩
          [.node ⟨.token "type", none, false, 12, 16⟩ [],
           .node ⟨.identifier, some .name, false, 17, 18⟩ [],
           .node ⟨.token "as", none, false, 19, 21⟩ [],
           .node ⟨.identifier, some .asName, false, 22, 23⟩ []],
         .node ⟨.token "\x7d", none, false, 24, 25⟩ []]],
     .node ⟨.token "from", none, false, 26, 30⟩ [],
     .node ⟨.stringLiteral, some .source, false, 31, 36⟩ [],
     .node ⟨.token ";", none, false, 36, 37⟩ []]

/-- A file with this statement. -/
def mixedImport : Tree :=
  .node ⟨.other "program", none, false, 0, 37⟩ [mixedStatement]

theorem ofMatches_mixedImport :
    let src := Source.ofString "import d, \x7b type a as b \x7d from './m';"
    let c : Cursor := ⟨mixedStatement, [mixedImport]⟩
    let source : Tree := .node ⟨.stringLiteral, some .source, false, 31, 36⟩ []
    c ∈ preorder mixedImport ∧ c.node.IsImport source ∧
      (((ofMatches .empty "/p/main.ts" src
            (Rule.matchesIn (Topic.modules.rules .typescript) src mixedImport)).filter
          (·.location == c.location src)).map fun r => (r.form, r.names.entries)).Perm
        [(.default, [("d", "default")]), (.typeNamed, [("b", "a")])] := by
  intro src c source
  have hstatement : c.node.IsImport source :=
    ⟨rfl, by decide, (mixedStatement.children.take 2).drop 1, rfl, by decide⟩
  have hsplit : preorder mixedImport =
      [⟨mixedImport, []⟩] ++ c :: (preorder mixedImport).drop 2 :=
    rfl
  have hrecords := (ofMatches_importStatement .empty "/p/main.ts" src
    (show Language.typescript ≠ .unknown by decide) hsplit hstatement).2.2 (by decide)
  have hown : ((bindings src c.node).map (ofBinding .empty "/p/main.ts" src c.node source)).map
      (fun r => (r.form, r.names.entries)) =
        [(.default, [("d", "default")]), (.typeNamed, [("b", "a")])] := by
    decide +kernel
  refine ⟨?_, hstatement, hown ▸ hrecords.map _⟩
  rw [hsplit]
  simp

end Trees

end Import

end Outline
