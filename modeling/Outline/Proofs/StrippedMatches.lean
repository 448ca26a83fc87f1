import Outline.Proofs.RecordShapes
import Outline.Proofs.RegularWords
import Outline.Proofs.Stripping

/-!
# Matches in a stripped tree

The matches in a stripped tree are those in the tree that capture no comment. Most rules never
capture one, since no part of their patterns can be met by a comment; only two rules for exports
can, and they do so at the places that `Export.takesComment` describes. An import captures none,
but its statement may bind nothing else: `Import.loadsModule` and `Import.bindsComments` say where.
-/

namespace Outline

open Cursor

/-! ## Matches -/

namespace Pattern

mutual

/-- Whether no part of a pattern can be met by a comment under no field. -/
def skipsComments : Pattern → Bool
  | .node field test _ _ children =>
    (field.isSome || !test.accepts .comment) && allSkipComments children

/-- Whether several patterns cannot be met by comments. -/
def allSkipComments : List Pattern → Bool
  | [] => true
  | p :: ps => p.skipsComments && allSkipComments ps

end

end Pattern

/-- A comment hangs under no field, and the comments below a node are bare. -/
def IsPlain (c : Cursor) : Prop :=
  (c.node.isCode = false → c.label.field = none) ∧ c.node.bareComments = true

theorem hereditary_isPlain : Hereditary IsPlain := by
  rintro c ⟨-, hc⟩ d hd
  obtain ⟨t, ht, rfl⟩ := List.mem_map.1 hd
  obtain ⟨hleaf, hbare⟩ := Tree.bareComments_iff.1 hc t ht
  exact ⟨fun h => (hleaf h).1, hbare⟩

theorem isCode_of_admits {field : Option Field} {test : NodeTest} {without : List Field}
    {c : Cursor} (hc : IsPlain c) (hskip : (field.isSome || !test.accepts .comment) = true)
    (ha : Pattern.admits field test without c = true) : c.node.isCode = true := by
  cases hcode : c.node.isCode with
  | true => rfl
  | false =>
    have hkind : c.kind = .comment := Tree.kind_of_isCode hcode
    simp only [Pattern.admits, Bool.and_eq_true, hc.1 hcode, hkind] at ha
    cases field with
    | none => simp [ha.1.2] at hskip
    | some f => simp at ha

mutual

theorem Pattern.isCode_of_takes :
    ∀ (p : Pattern) (c : Cursor) (xs : List (Tag × Cursor)), p.skipsComments = true → IsPlain c →
      p.Takes c xs → ∀ x ∈ xs, x.2.node.isCode = true
  | .node field test without tag children, c, xs => by
    rw [Pattern.skipsComments, Bool.and_eq_true, Pattern.Takes]
    rintro ⟨hskip, hchildren⟩ hc ⟨ha, ys, hys, rfl⟩ x hx
    rcases List.mem_append.1 hx with hx | hx
    · obtain ⟨t, -, rfl⟩ := Option.map_eq_some_iff.1 (Option.mem_toList.1 hx)
      exact isCode_of_admits hc hskip ha
    · exact Pattern.isCode_of_takesBelow children c.children ys hchildren
        (hereditary_isPlain c hc) hys x hx

theorem Pattern.isCode_of_takesBelow :
    ∀ (ps : List Pattern) (cs : List Cursor) (xs : List (Tag × Cursor)),
      Pattern.allSkipComments ps = true → (∀ c ∈ cs, IsPlain c) → Pattern.TakesBelow ps cs xs →
      ∀ x ∈ xs, x.2.node.isCode = true
  | [], cs, xs => by
    rw [Pattern.TakesBelow]
    rintro - - rfl x hx
    cases hx
  | p :: ps, cs, xs => by
    rw [Pattern.allSkipComments, Bool.and_eq_true, Pattern.TakesBelow]
    rintro ⟨hp, hps⟩ hcs ⟨pre, d, suf, rfl, ys, hys, zs, hzs, rfl⟩ x hx
    rcases List.mem_append.1 hx with hx | hx
    · exact Pattern.isCode_of_takes p d ys hp (hcs d (by simp)) hys x hx
    · exact Pattern.isCode_of_takesBelow ps suf zs hps (fun c hc => hcs c (by simp [hc])) hzs x hx

end

theorem Rule.isSeen_of_skipsComments {rules : List Rule} {src : Source} {c : Cursor} {m : Match}
    (hrules : ∀ r ∈ rules, r.pattern.skipsComments = true) (hc : IsPlain c)
    (hm : m ∈ Rule.matchesAt rules src c) : m.isSeen Tree.isCode = true := by
  obtain ⟨x, hx, xs, hxs, -, rfl⟩ := Rule.mem_matchesAt_iff.1 hm
  have hskip := hrules x.1 (List.fst_mem_of_mem_zipIdx hx)
  refine List.all_eq_true.2 fun k hk => ?_
  obtain ⟨y, hy, rfl⟩ := List.mem_map.1 hk
  exact Pattern.isCode_of_takes _ c xs hskip hc hxs y hy

section Strip

variable {t : Tree} (hcode : t.isCode = true) (hbare : t.bareComments = true)

include hcode hbare

theorem isPlain_of_mem_preorder {c : Cursor} (hc : c ∈ preorder t) : IsPlain c := by
  refine hereditary_isPlain.preorderFrom [] t ⟨fun h => ?_, hbare⟩ c hc
  have hroot : t.isCode = false := h
  rw [hcode] at hroot
  cases hroot

/-- The matches in the stripped tree are those that capture no comment. -/
theorem matchesIn_strip (topic : Topic) (language : Language) (src : Source) :
    Rule.matchesIn (topic.rules language) src t.strip =
      ((Rule.matchesIn (topic.rules language) src t).filter (Match.isSeen Tree.isCode)).map
        (Match.through stripAt) := by
  unfold Rule.matchesIn
  rw [preorder_strip hcode hbare]
  refine thinning_strip.flatMap_matchesAt (Topic.reportsComments topic language) src
    (fun c hc h => ?_) fun c hc h => ?_
  · exact ⟨h, (isPlain_of_mem_preorder hcode hbare hc).2⟩
  · exact ⟨Tree.kind_of_isCode h, (isPlain_of_mem_preorder hcode hbare hc).1 h⟩

/-- Rules that skip comments find the same matches. -/
theorem matchesIn_strip_of_skips {topic : Topic} {language : Language}
    (hskip : ∀ r ∈ topic.rules language, r.pattern.skipsComments = true) (src : Source) :
    Rule.matchesIn (topic.rules language) src t.strip =
      (Rule.matchesIn (topic.rules language) src t).map (Match.through stripAt) := by
  rw [matchesIn_strip hcode hbare, List.filter_eq_self.2]
  intro m hm
  obtain ⟨c, hc, hm⟩ := List.mem_flatMap.1 hm
  exact Rule.isSeen_of_skipsComments hskip (isPlain_of_mem_preorder hcode hbare hc) hm

omit hcode in
theorem isBare_of_mem_matchesIn {rules : List Rule} {src : Source} {m : Match}
    (hm : m ∈ Rule.matchesIn rules src t) : ∀ k ∈ m.captures, IsBare k.site := by
  obtain ⟨c, hc, hm⟩ := List.mem_flatMap.1 hm
  have hroot : IsBare ⟨t, []⟩ := ⟨hbare, by simp [ancestors, chain]⟩
  have hnode : IsBare c := hereditary_isBare.preorderFrom [] t hroot c hc
  exact Rule.matchesAt_hereditary hereditary_isBare hnode hm

end Strip

theorem Topic.symbols_skipComments (language : Language) :
    ∀ r ∈ Topic.symbols.rules language, r.pattern.skipsComments = true := by
  cases language <;> decide

theorem Topic.types_skipComments (language : Language) :
    ∀ r ∈ Topic.types.rules language, r.pattern.skipsComments = true := by
  cases language <;> decide

/-! ## Imports of comments -/

namespace Import

/-- Whether a part of an import clause is a comment, or braces around comments. -/
def isIdle (part : Tree) : Bool :=
  part.kind == .comment ||
    part.kind == .namedImports && part.namedChildren.all (·.kind == .comment)

/-- Whether a statement seems to bind names, but its clauses bind only comments. -/
def bindsComments (statement : Tree) : Bool :=
  bindsNames statement &&
    (statement.children.filter (·.kind == .importClause)).all (·.namedChildren.all isIdle)

theorem isBinder_strip (part : Tree) : (part.isCode && isBinder part.strip) = !isIdle part := by
  have hinner : part.strip.namedChildren.isEmpty =
      part.namedChildren.all (·.kind == .comment) := by
    rw [Tree.namedChildren_strip, List.isEmpty_map, Bool.eq_iff_iff, List.isEmpty_iff,
      List.filter_eq_nil_iff, List.all_eq_true]
    simp [Tree.isCode]
  unfold isBinder isIdle
  rw [Tree.kind_strip, hinner, Bool.not_or, Bool.not_and]
  rfl

/-- So without its comments the statement binds nothing. -/
theorem bindsComments_eq (t : Tree) : bindsComments t = (bindsNames t && !bindsNames t.strip) := by
  have hclauses : t.strip.children.filter (·.kind == .importClause) =
      (t.children.filter (·.kind == .importClause)).map Tree.strip := by
    have hkind : ((fun u : Tree => u.kind == .importClause) ∘ Tree.strip) =
        fun u => u.kind == .importClause :=
      funext fun u => by rw [Function.comp_apply, Tree.kind_strip]
    rw [Tree.children_strip, List.filter_map, hkind, List.filter_filter]
    refine congrArg _ (List.filter_congr fun u _ => ?_)
    by_cases h : u.kind = .importClause <;> simp [Tree.isCode, h]
  have hparts : ∀ clause : Tree,
      clause.strip.namedChildren.any isBinder = !clause.namedChildren.all isIdle := by
    intro clause
    rw [Tree.namedChildren_strip, List.any_map, List.any_filter, List.not_all_eq_any_not]
    exact congrArg _ (funext isBinder_strip)
  have hstrip : bindsNames t.strip =
      !(t.children.filter (·.kind == .importClause)).all (·.namedChildren.all isIdle) := by
    rw [bindsNames, hclauses, List.any_map, List.not_all_eq_any_not]
    exact congrArg _ (funext hparts)
  rw [bindsComments, hstrip, Bool.not_not]

/-- Whether a node calls `require` with a string. -/
def callsRequire (src : Source) (call : Tree) : Bool :=
  call.kind == .callExpression &&
    isFollowed
      (fun f => f.label.field == some .function && f.kind == .identifier &&
        src.readable f.label.start f.label.stop == "require".toList)
      (fun a => a.label.field == some .arguments && a.kind == .arguments &&
        a.hasChild .stringLiteral) call.children

/-- Whether a statement imports a module even if it binds no names: an `import` statement with a
    source, or a call of `require`. -/
def loadsModule (src : Source) (statement : Tree) : Bool :=
  statement.kind == .importStatement &&
      statement.children.any (fun s => s.label.field == some .source && s.kind == .stringLiteral) ||
    statement.kind == .expressionStatement && statement.children.any (callsRequire src)

/-- The rule for all `import` statements with a source. -/
def statementRule : Rule :=
  ModuleRules.importStatement []

/-- The rule for calls of `require` that are statements. -/
def requireRule : Rule :=
  ⟨.node none (.oneOf [.expressionStatement]) [] (some (ModuleRules.importAs "statement"))
    [ModuleRules.part .callExpression ModuleRules.requireCall], some ModuleRules.isRequire⟩

/-- Whether a rule reports a bound name, or no import at all. -/
def isNaming (r : Rule) : Bool :=
  let tags := Query.tagsOf r.pattern
  tags.any (fun tag => ["namespace", "default", "named"].contains tag.field) ||
    tags.all (·.category != "import")

theorem eq_of_not_isNaming {language : Language} {r : Rule}
    (hr : r ∈ Topic.modules.rules language) (h : isNaming r = false) :
    r = statementRule ∨ r = requireRule := by
  have hnot : ∀ rs : List Rule, rs.all isNaming = true → r ∉ rs := by
    intro rs hall hmem
    rw [List.all_eq_true.1 hall r hmem] at h
    cases h
  have hjavascript : r ∈ ModuleRules.javascript → r = statementRule ∨ r = requireRule := by
    intro hr
    have himports : ModuleRules.imports = ModuleRules.imports.take 4 ++ [statementRule] := rfl
    have hrequires : ModuleRules.requires = ModuleRules.requires.take 3 ++ [requireRule] := rfl
    rw [ModuleRules.javascript, himports, hrequires] at hr
    simp only [List.mem_append, List.mem_singleton] at hr
    rcases hr with (((hr | rfl) | hr | rfl) | hr) | hr
    · exact absurd hr (hnot _ (by decide))
    · exact .inl rfl
    · exact absurd hr (hnot _ (by decide))
    · exact .inr rfl
    · exact absurd hr (hnot _ (by decide))
    · exact absurd hr (hnot _ (by decide))
  cases language with
  | unknown => cases hr
  | javascript => exact hjavascript hr
  | typescript =>
    rcases List.mem_append.1 (show r ∈ ModuleRules.typescript from hr) with hr | hr
    · exact hjavascript hr
    · exact absurd hr (hnot _ (by decide))

theorem takes_statementRule {c : Cursor} {xs : List (Tag × Cursor)} :
    statementRule.pattern.Takes c xs ↔
      c.kind = .importStatement ∧ ∃ s ∈ c.children, s.label.field = some .source ∧
        s.kind = .stringLiteral ∧
        xs = [(ModuleRules.importAs "statement", c), (ModuleRules.importAs "source", s)] := by
  simp only [statementRule, ModuleRules.importStatement, ModuleRules.foundUnder, List.nil_append,
    Pattern.takes_ofKind, Pattern.takesBelow_singleton, Pattern.takes_leaf, NodeTest.accepts]
  constructor
  · rintro ⟨hc, _, ⟨s, hs, hfield, hkind, rfl⟩, rfl⟩
    exact ⟨hc, s, hs, hfield _ rfl, by simpa using hkind, rfl⟩
  · rintro ⟨hc, s, hs, hfield, hkind, rfl⟩
    exact ⟨hc, _, ⟨s, hs, fun f hf => hfield.trans hf, by simp [hkind], rfl⟩, rfl⟩

theorem takes_requireRule {c : Cursor} {xs : List (Tag × Cursor)} :
    requireRule.pattern.Takes c xs ↔
      c.kind = .expressionStatement ∧ ∃ d ∈ c.children, d.kind = .callExpression ∧
        ∃ pre f suf, d.children = pre ++ f :: suf ∧ f.label.field = some .function ∧
          f.kind = .identifier ∧ ∃ a ∈ suf, a.label.field = some .arguments ∧
          a.kind = .arguments ∧ ∃ s ∈ a.children, s.kind = .stringLiteral ∧
          xs = [(ModuleRules.importAs "statement", c), (ModuleRules.importAs "require_fn", f),
            (ModuleRules.importAs "require_source", s)] := by
  simp only [requireRule, ModuleRules.requireCall, ModuleRules.part, ModuleRules.under,
    ModuleRules.foundUnder, ModuleRules.found, Pattern.takes_ofKind, Pattern.takesBelow_singleton,
    Pattern.takesBelow_cons_cons, Pattern.takes_ofKindUnder, Pattern.takes_leaf, NodeTest.accepts]
  constructor
  · rintro ⟨hc, _, ⟨d, hd, hcall, _, ⟨pre, f, suf, hsplit, _, ⟨hfield, hkind, rfl⟩, _,
      ⟨a, ha, hunder, harguments, _, ⟨s, hs, -, hstring, rfl⟩, rfl⟩, rfl⟩, rfl⟩, rfl⟩
    exact ⟨hc, d, hd, hcall, pre, f, suf, hsplit, hfield _ rfl, by simpa using hkind, a, ha, hunder,
      harguments, s, hs, by simpa using hstring, rfl⟩
  · rintro ⟨hc, d, hd, hcall, pre, f, suf, hsplit, hfield, hkind, a, ha, hunder, harguments, s, hs,
      hstring, rfl⟩
    refine ⟨hc, _, ⟨d, hd, hcall, _, ⟨pre, f, suf, hsplit, _,
      ⟨fun _ hf => hfield.trans hf, by simp [hkind], rfl⟩, _,
      ⟨a, ha, hunder, harguments, _, ⟨s, hs, ?_, by simp [hstring], rfl⟩, rfl⟩, rfl⟩, rfl⟩, rfl⟩
    intro g hg
    cases hg

/-- The rule for calls of `require` has a match where the statement is such a call. -/
theorem exists_takes_requireRule_iff {src : Source} {c : Cursor} :
    (∃ xs, requireRule.pattern.Takes c xs ∧ requireRule.allows src ⟨xs, []⟩ = true) ↔
      c.kind = .expressionStatement ∧ c.node.children.any (callsRequire src) = true := by
  have hallows : ∀ (f s : Cursor), requireRule.allows src ⟨[(ModuleRules.importAs "statement", c),
      (ModuleRules.importAs "require_fn", f), (ModuleRules.importAs "require_source", s)], []⟩ =
        true ↔ src.readable f.label.start f.label.stop = "require".toList := by
    intro f s
    rw [← Text.Regex.describes_word, ← Text.Regex.accepts_iff]
    simp [Rule.allows, requireRule, ModuleRules.isRequire, ModuleRules.importAs]
  simp only [takes_requireRule, Cursor.any_node_children, callsRequire, Bool.and_eq_true,
    Cursor.isFollowed_node_children, beq_iff_eq, Tree.hasChild]
  constructor
  · rintro ⟨_, ⟨hc, d, hd, hcall, pre, f, suf, hsplit, hfield, hkind, a, ha, hunder, harguments, s,
      hs, hstring, rfl⟩, hrequire⟩
    exact ⟨hc, d, hd, hcall, pre, f, suf, hsplit, ⟨⟨hfield, hkind⟩, (hallows f s).1 hrequire⟩, a,
      ha, ⟨hunder, harguments⟩, s, hs, hstring⟩
  · rintro ⟨hc, d, hd, hcall, pre, f, suf, hsplit, ⟨⟨hfield, hkind⟩, hrequire⟩, a, ha,
      ⟨hunder, harguments⟩, s, hs, hstring⟩
    exact ⟨_, ⟨hc, d, hd, hcall, pre, f, suf, hsplit, hfield, hkind, a, ha, hunder, harguments, s,
      hs, hstring, rfl⟩, (hallows f s).2 hrequire⟩

/-- The two rules have matches at the statements that load a module. -/
theorem loadsModule_iff {src : Source} {c : Cursor} :
    loadsModule src c.node = true ↔ (∃ xs, statementRule.pattern.Takes c xs) ∨
      ∃ xs, requireRule.pattern.Takes c xs ∧ requireRule.allows src ⟨xs, []⟩ = true := by
  rw [exists_takes_requireRule_iff, loadsModule, Bool.or_eq_true, Bool.and_eq_true,
    Bool.and_eq_true, beq_iff_eq, beq_iff_eq, Cursor.any_node_children]
  simp [takes_statementRule, Cursor.kind, Cursor.label]

end Import

/-! ## Exports of comments -/

namespace Export

/-- Whether a rule takes a comment for an export of a statement: for the name of an exported
    namespace, or for the value after `export =`. -/
def takesComment (language : Language) (statement : Tree) : Bool :=
  isFollowed (fun t => t.kind == .namespaceExport && t.hasChild .comment)
      (fun t => t.label.field == some .source && t.kind == .stringLiteral) statement.children ||
    (language == .typescript &&
      isFollowed (·.kind == .token "=") (·.kind == .comment) statement.children)

/-- The rule for the export of a module under a name. -/
def namespaceRule : Rule :=
  ModuleRules.exportStatement []
    [ModuleRules.part .namespaceExport
      [.node none .anyNamed [] (some (ModuleRules.exportAs "namespace")) []],
     ModuleRules.exportSource]

/-- The rule for the export of a value in place of the module. -/
def replacementRule : Rule :=
  ⟨.node none (.oneOf [.exportStatement]) [] (some (ModuleRules.exportAs "commonjs_statement"))
    [ModuleRules.part (.token "=") [],
     .node none .anyNamed [] (some (ModuleRules.exportAs "commonjs_value")) []], none⟩

/-- All rules for modules skip comments, except two. -/
theorem rule_cases {language : Language} {r : Rule} (hr : r ∈ Topic.modules.rules language) :
    r.pattern.skipsComments = true ∨ r = namespaceRule ∨
      (language = .typescript ∧ r = replacementRule) := by
  have hjavascript : ∀ r ∈ ModuleRules.javascript,
      r.pattern.skipsComments = true ∨ r = namespaceRule := by
    intro r hr
    have hexports : ModuleRules.exports = ModuleRules.exports.take 7 ++ [namespaceRule] := rfl
    have himports : ∀ r ∈ ModuleRules.imports, r.pattern.skipsComments = true := by decide
    have hrequires : ∀ r ∈ ModuleRules.requires, r.pattern.skipsComments = true := by decide
    have hothers : ∀ r ∈ ModuleRules.exports.take 7, r.pattern.skipsComments = true := by decide
    have hassignments : ∀ r ∈ ModuleRules.assignments, r.pattern.skipsComments = true := by decide
    rw [ModuleRules.javascript, hexports] at hr
    simp only [List.mem_append, List.mem_singleton] at hr
    rcases hr with ((hr | hr) | hr | rfl) | hr
    · exact .inl (himports r hr)
    · exact .inl (hrequires r hr)
    · exact .inl (hothers r hr)
    · exact .inr rfl
    · exact .inl (hassignments r hr)
  cases language with
  | unknown => cases hr
  | javascript => exact (hjavascript r hr).imp_right .inl
  | typescript =>
    have hr' : r ∈ ModuleRules.typescript := hr
    rw [ModuleRules.typescript, List.mem_append, List.mem_cons, List.mem_singleton] at hr'
    rcases hr' with hr' | rfl | rfl
    · exact (hjavascript r hr').imp_right .inl
    · exact .inl (by decide)
    · exact .inr (.inr ⟨rfl, rfl⟩)

/-- What the rule for namespaces takes. -/
theorem takes_namespaceRule {c : Cursor} {xs : List (Tag × Cursor)} :
    namespaceRule.pattern.Takes c xs ↔
      c.kind = .exportStatement ∧ ∃ pre d suf, c.children = pre ++ d :: suf ∧
        d.kind = .namespaceExport ∧ ∃ e ∈ d.children, (e.kind.isNamed && e.kind != .error) = true ∧
        ∃ s ∈ suf, s.label.field = some .source ∧ s.kind = .stringLiteral ∧
          xs = [(ModuleRules.exportAs "statement", c), (ModuleRules.exportAs "namespace", e),
            (ModuleRules.exportAs "source", s)] := by
  simp only [namespaceRule, ModuleRules.exportStatement, ModuleRules.part, ModuleRules.exportSource,
    ModuleRules.foundUnder, Pattern.takes_ofKind, Pattern.takesBelow_cons_cons,
    Pattern.takesBelow_singleton, Pattern.takes_leaf, NodeTest.accepts]
  constructor
  · rintro ⟨hc, ys, ⟨pre, d, suf, hsplit, zs, ⟨hd, _, ⟨e, he, -, hnamed, rfl⟩, rfl⟩, _,
      ⟨s, hs, hfield, hkind, rfl⟩, rfl⟩, rfl⟩
    exact ⟨hc, pre, d, suf, hsplit, hd, e, he, hnamed, s, hs, hfield _ rfl, by simpa using hkind,
      rfl⟩
  · rintro ⟨hc, pre, d, suf, hsplit, hd, e, he, hnamed, s, hs, hfield, hkind, rfl⟩
    refine ⟨hc, _, ⟨pre, d, suf, hsplit, _, ⟨hd, _, ⟨e, he, ?_, hnamed, rfl⟩, rfl⟩, _,
      ⟨s, hs, ?_, by simp [hkind], rfl⟩, rfl⟩, rfl⟩
    · intro f hf
      cases hf
    · intro f hf
      exact hfield.trans hf

/-- What the rule for replacements takes. -/
theorem takes_replacementRule {c : Cursor} {xs : List (Tag × Cursor)} :
    replacementRule.pattern.Takes c xs ↔
      c.kind = .exportStatement ∧ ∃ pre d suf, c.children = pre ++ d :: suf ∧
        d.kind = .token "=" ∧ ∃ e ∈ suf, (e.kind.isNamed && e.kind != .error) = true ∧
          xs = [(ModuleRules.exportAs "commonjs_statement", c),
            (ModuleRules.exportAs "commonjs_value", e)] := by
  simp only [replacementRule, ModuleRules.part, Pattern.takes_leaf, Pattern.takes_ofKind,
    Pattern.takesBelow_cons_cons, Pattern.takesBelow_singleton, NodeTest.accepts]
  constructor
  · rintro ⟨hc, ys, ⟨pre, d, suf, hsplit, zs, ⟨-, hd, rfl⟩, _, ⟨e, he, -, hnamed, rfl⟩, rfl⟩, rfl⟩
    exact ⟨hc, pre, d, suf, hsplit, by simpa using hd, e, he, hnamed, rfl⟩
  · rintro ⟨hc, pre, d, suf, hsplit, hd, e, he, hnamed, rfl⟩
    have hany : ∀ {c : Cursor} (f : Field), none = some f → c.label.field = some f := by
      intro c f hf
      cases hf
    exact ⟨hc, _, ⟨pre, d, suf, hsplit, _, ⟨hany, by simp [hd], rfl⟩, _,
      ⟨e, he, hany, hnamed, rfl⟩, rfl⟩, rfl⟩

/-- A match that captures a comment is one of an export that takes it. -/
theorem cases_of_not_isSeen {language : Language} {src : Source} {c : Cursor} {m : Match}
    (hc : IsPlain c) (hm : m ∈ Rule.matchesAt (Topic.modules.rules language) src c)
    (hseen : m.isSeen Tree.isCode = false) :
    (c.kind = .exportStatement ∧ takesComment language c.node = true) ∧
      ((∃ d e, m.captures = [⟨ModuleRules.exportAs "statement", c.text src, c⟩,
          ⟨ModuleRules.exportAs "namespace", d.text src, d⟩,
          ⟨ModuleRules.exportAs "source", e.text src, e⟩]) ∨
        ∃ d, m.captures = [⟨ModuleRules.exportAs "commonjs_statement", c.text src, c⟩,
          ⟨ModuleRules.exportAs "commonjs_value", d.text src, d⟩]) := by
  obtain ⟨r, hr, xs, hxs, -, hks⟩ := Rule.exists_match_iff.1 ⟨m, hm, rfl⟩
  have hunseen : ∃ y ∈ xs, y.2.node.isCode = false := by
    simpa [Match.isSeen, hks, Rule.capturesOf] using hseen
  have hnot : ∀ {d : Cursor} {k : Kind}, d.kind = k → k ≠ .comment → ¬ d.node.isCode = false :=
    fun hd hk hcode => hk (hd.symm.trans (Tree.kind_of_isCode hcode))
  rcases rule_cases hr with hskip | rfl | ⟨rfl, rfl⟩
  · obtain ⟨y, hy, hcode⟩ := hunseen
    rw [Pattern.isCode_of_takes _ c xs hskip hc hxs y hy] at hcode
    cases hcode
  · rw [takes_namespaceRule] at hxs
    obtain ⟨hkind, pre, d, suf, hsplit, hd, e, he, -, s, hs, hfield, hstring, rfl⟩ := hxs
    refine ⟨⟨hkind, ?_⟩, .inl ⟨e, s, hks⟩⟩
    have hcomment : e.node.kind = .comment := by
      simp only [List.exists_mem_cons_iff, hnot hkind (by decide), hnot hstring (by decide),
        Bool.true_eq_false, false_or, or_false, List.not_mem_nil, false_and,
        exists_false] at hunseen
      exact Tree.kind_of_isCode hunseen
    have hchild : d.node.hasChild .comment = true :=
      (d.any_node_children _).2 ⟨e, he, beq_iff_eq.2 hcomment⟩
    rw [takesComment, Bool.or_eq_true, c.isFollowed_node_children]
    refine .inl ⟨pre, d, suf, hsplit, ?_, s, hs, ?_⟩
    · rw [Bool.and_eq_true]
      exact ⟨beq_iff_eq.2 hd, hchild⟩
    · rw [Bool.and_eq_true]
      exact ⟨beq_iff_eq.2 hfield, beq_iff_eq.2 hstring⟩
  · rw [takes_replacementRule] at hxs
    obtain ⟨hkind, pre, d, suf, hsplit, hd, e, he, -, rfl⟩ := hxs
    refine ⟨⟨hkind, ?_⟩, .inr ⟨e, hks⟩⟩
    have hcomment : e.node.kind = .comment := by
      simp only [List.exists_mem_cons_iff, hnot hkind (by decide), Bool.true_eq_false, false_or,
        or_false, List.not_mem_nil, false_and, exists_false] at hunseen
      exact Tree.kind_of_isCode hunseen
    rw [takesComment, Bool.or_eq_true, Bool.and_eq_true]
    exact .inr ⟨rfl, (c.isFollowed_node_children ..).2
      ⟨pre, d, suf, hsplit, beq_iff_eq.2 hd, e, he, beq_iff_eq.2 hcomment⟩⟩

/-- Where an export takes a comment, there is a match that captures it. -/
theorem exists_not_isSeen {language : Language} (src : Source) {c : Cursor}
    (hknown : language ≠ .unknown) (hkind : c.kind = .exportStatement)
    (htakes : takesComment language c.node = true) :
    ∃ m ∈ Rule.matchesAt (Topic.modules.rules language) src c, m.isSeen Tree.isCode = false := by
  have hnamespace : namespaceRule ∈ Topic.modules.rules language := by
    refine Topic.mem_rules_of_mem hknown ?_
    simp [ModuleRules.javascript, ModuleRules.exports, namespaceRule]
  have hcapture : ∀ {r : Rule} {xs : List (Tag × Cursor)}, r ∈ Topic.modules.rules language →
      r.guard = none → r.pattern.Takes c xs → (∃ x ∈ xs, x.2.node.isCode = false) →
      ∃ m ∈ Rule.matchesAt (Topic.modules.rules language) src c,
        m.isSeen Tree.isCode = false := by
    intro r xs hr hguard hxs hunseen
    obtain ⟨m, hm, hks⟩ :=
      Rule.exists_match_iff.2 ⟨r, hr, xs, hxs, by simp [Rule.allows, hguard], rfl⟩
    exact ⟨m, hm, by simpa [Match.isSeen, hks, Rule.capturesOf] using hunseen⟩
  rw [takesComment, Bool.or_eq_true, Bool.and_eq_true] at htakes
  rcases htakes with htakes | ⟨hlanguage, htakes⟩
  · obtain ⟨pre, d, suf, hsplit, hd, s, hs, hsource⟩ := (c.isFollowed_node_children ..).1 htakes
    rw [Bool.and_eq_true] at hd hsource
    obtain ⟨e, he, hcomment⟩ := (d.any_node_children _).1 hd.2
    have hcode : e.node.isCode = false := by simpa [Tree.isCode] using hcomment
    refine hcapture hnamespace rfl (takes_namespaceRule.2 ⟨hkind, pre, d, suf, hsplit,
      beq_iff_eq.1 hd.1, e, he, ?_, s, hs, beq_iff_eq.1 hsource.1, beq_iff_eq.1 hsource.2, rfl⟩)
      ⟨_, List.mem_cons_of_mem _ (List.mem_cons_self ..), hcode⟩
    simp [Cursor.kind, Tree.kind_of_isCode hcode, Kind.isNamed]
  · obtain ⟨pre, d, suf, hsplit, hd, e, he, hcomment⟩ := (c.isFollowed_node_children ..).1 htakes
    have hcode : e.node.isCode = false := by simpa [Tree.isCode] using hcomment
    have hreplacement : replacementRule ∈ Topic.modules.rules language := by
      rw [beq_iff_eq.1 hlanguage]
      exact List.mem_append_right _ (List.mem_cons_of_mem _ (List.mem_cons_self ..))
    refine hcapture hreplacement rfl (takes_replacementRule.2 ⟨hkind, pre, d, suf, hsplit,
      beq_iff_eq.1 hd, e, he, ?_, rfl⟩) ⟨_, List.mem_cons_of_mem _ (List.mem_cons_self ..), hcode⟩
    simp [Cursor.kind, Tree.kind_of_isCode hcode, Kind.isNamed]

end Export

end Outline
