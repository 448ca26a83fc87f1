import Mathlib.Data.List.Perm.Basic
import Outline.Proofs.MatchLists
import Outline.Proofs.StrippedMatches

/-!
# Specifiers and the records of a statement

A specifier between braces has a name and may have an alias behind it. Two patterns look for
specifiers, one for those without an alias and one for the others; at each specifier exactly one of
them is met, and once (`taken_specifier`).

The records of a tree are those of its nodes, put in order. So if a node is the only one at its
location that has records at all, the records at this location are what the rules take at the node
(`records_of_node`).
-/

namespace Outline

open Cursor

/-! ## Order of rules and nodes -/

/-- To go through rules and then nodes, or through nodes and then rules, finds the same. -/
theorem flatMap_swap_perm {α β γ : Type} (f : α → β → List γ) (as : List α) (bs : List β) :
    (as.flatMap fun a => bs.flatMap (f a)).Perm (bs.flatMap fun b => as.flatMap (f · b)) := by
  induction as with
  | nil => simp
  | cons a as ih =>
    simp only [List.flatMap_cons]
    exact (ih.append_left _).trans (List.flatMap_append_perm bs (f a) _)

theorem map_filter_eq_flatMap {α β : Type} (q : α → Bool) (f : α → β) (xs : List α) :
    (xs.filter q).map f = xs.flatMap fun x => if q x then [f x] else [] := by
  induction xs with
  | nil => rfl
  | cons x xs ih =>
    rw [List.flatMap_cons, ← ih, List.filter_cons]
    split_ifs <;> rfl

theorem Cursor.filter_children (q : Tree → Bool) (c : Cursor) :
    (c.children.filter fun d => q d.node) =
      (c.node.children.filter q).map fun t => ⟨t, c.node :: c.above⟩ := by
  rw [Cursor.children, List.filter_map]
  rfl

theorem Cursor.children_ofKind (kind : Kind) (c : Cursor) :
    c.children.filter (·.kind == kind) =
      (c.node.children.filter (·.kind == kind)).map fun t => ⟨t, c.node :: c.above⟩ :=
  filter_children (·.kind == kind) c

/-! ## Clauses -/

/-- The children of the children of a kind. -/
def Tree.inside (kind : Kind) (t : Tree) : List Tree :=
  (t.children.filter (·.kind == kind)).flatMap Tree.children

/-- The children of the children of a kind, as nodes of the tree. -/
def Cursor.inside (kind : Kind) (c : Cursor) : List Cursor :=
  (c.children.filter (·.kind == kind)).flatMap Cursor.children

theorem Cursor.node_inside (kind : Kind) (c : Cursor) :
    (c.inside kind).map (·.node) = c.node.inside kind := by
  rw [Cursor.inside, Tree.inside, List.map_flatMap, Cursor.children_ofKind, List.flatMap_map]
  exact List.flatMap_congr fun k _ => Cursor.node_children _

theorem Cursor.exists_of_mem_inside {kind : Kind} {c d : Cursor} (hd : d ∈ c.inside kind) :
    ∃ k ∈ c.node.children, k.kind = kind ∧ d.node ∈ k.children := by
  obtain ⟨k, hk, hd⟩ := List.mem_flatMap.1 hd
  obtain ⟨hk, hkind⟩ := List.mem_filter.1 hk
  obtain ⟨clause, hclause, rfl⟩ := List.mem_map.1 hk
  obtain ⟨t, ht, rfl⟩ := List.mem_map.1 hd
  exact ⟨clause, hclause, beq_iff_eq.1 hkind, ht⟩

/-! ## Specifiers -/

namespace Tree

/-- The children of a specifier that say how it is called: its name and its alias. -/
def callings (t : Tree) : List Tree :=
  t.children.filter fun d => d.label.field == some .name || d.label.field == some .asName

/-- Whether a child is the name of a specifier. -/
def isNaming (t : Tree) : Bool :=
  t.label.field == some .name && (t.kind.isNamed && t.kind != .error)

/-- Whether a specifier has a name, and at most an alias of some kinds behind it. -/
def isSpecifier (kinds : Kind → Bool) (t : Tree) : Bool :=
  match t.callings with
  | [n] => n.isNaming
  | [n, a] => n.isNaming && (a.label.field == some .asName && kinds a.kind)
  | _ => false

/-- Whether a node is a string that names a module. -/
def isModuleName (t : Tree) : Bool :=
  t.label.field == some .source && t.kind == .stringLiteral

theorem child?_eq_find_callings (t : Tree) {f : Field} (hf : f = .name ∨ f = .asName) :
    t.child? f = t.callings.find? (·.label.field == some f) := by
  rw [child?, callings, List.find?_filter]
  congr 1
  funext d
  by_cases hd : d.label.field = some f
  · rcases hf with rfl | rfl <;> simp [hd]
  · simp [hd]

/-- A specifier has a name, and no alias or one behind the name. -/
theorem isSpecifier_cases {kinds : Kind → Bool} {t : Tree} (h : t.isSpecifier kinds = true) :
    ∃ n, n.isNaming = true ∧ t.child? .name = some n ∧
      (t.callings = [n] ∧ t.child? .asName = none ∨
        ∃ a, a.label.field = some .asName ∧ kinds a.kind = true ∧ t.callings = [n, a] ∧
          t.child? .asName = some a) := by
  have hname := t.child?_eq_find_callings (.inl rfl)
  have hasName := t.child?_eq_find_callings (.inr rfl)
  unfold isSpecifier at h
  split at h
  · rename_i n hcallings
    have hfield : n.label.field = some .name := beq_iff_eq.1 (Bool.and_eq_true_iff.1 h).1
    rw [hcallings] at hname hasName
    refine ⟨n, h, ?_, .inl ⟨hcallings, ?_⟩⟩
    · rw [hname]
      simp [hfield]
    · rw [hasName]
      simp [hfield]
  · rename_i n a hcallings
    obtain ⟨hn, ha⟩ := Bool.and_eq_true_iff.1 h
    obtain ⟨hafield, hkind⟩ := Bool.and_eq_true_iff.1 ha
    have hfield : n.label.field = some .name := beq_iff_eq.1 (Bool.and_eq_true_iff.1 hn).1
    rw [hcallings] at hname hasName
    refine ⟨n, hn, ?_, .inr ⟨a, beq_iff_eq.1 hafield, hkind, hcallings, ?_⟩⟩
    · rw [hname]
      simp [hfield]
    · rw [hasName]
      simp [hfield, beq_iff_eq.1 hafield]
  · cases h

end Tree

namespace Pattern

/-- The name of a specifier, reported. -/
def naming (tag : Tag) : Pattern :=
  .node (some .name) .anyNamed [] (some tag) []

/-- The alias of a specifier, reported. -/
def aliasing (test : NodeTest) (tag : Tag) : Pattern :=
  .node (some .asName) test [] (some tag) []

theorem taken_naming (tag : Tag) (d : Cursor) :
    (naming tag).taken d = if d.node.isNaming then [[(tag, d)]] else [] := by
  rw [naming, taken_leaf, admits_named]
  rfl

theorem taken_aliasing (test : NodeTest) (tag : Tag) (d : Cursor) :
    (aliasing test tag).taken d =
      if d.label.field == some .asName && test.accepts d.kind then [[(tag, d)]] else [] := by
  rw [aliasing, taken_leaf]
  congr 1
  simp [admits]

/-- Only names and aliases count among the children of a specifier. -/
theorem takenBelow_callings (nameTag aliasTag : Tag) (test : NodeTest) {ps : List Pattern}
    (hps : ∀ p ∈ ps, p = naming nameTag ∨ p = aliasing test aliasTag) (c : Cursor) :
    takenBelow ps c.children =
      takenBelow ps (c.node.callings.map fun t => ⟨t, c.node :: c.above⟩) := by
  rw [Tree.callings, ← Cursor.filter_children]
  refine takenBelow_filter fun d _ hd p hp => ?_
  have hnone : d.node.label.field ≠ some .name ∧ d.node.label.field ≠ some .asName := by
    simpa using hd
  have hasName : d.label.field ≠ some .asName := hnone.2
  rcases hps p hp with rfl | rfl
  · rw [taken_naming]
    simp [Tree.isNaming, hnone.1]
  · rw [taken_aliasing]
    simp [hasName]

/-- A specifier without an alias. -/
def plainSpecifier (kind : Kind) (nameTag : Tag) : Pattern :=
  .node none (.oneOf [kind]) [.asName] none [naming nameTag]

/-- A specifier with an alias. -/
def aliasedSpecifier (kind : Kind) (nameTag : Tag) (test : NodeTest) (aliasTag : Tag) : Pattern :=
  .node none (.oneOf [kind]) [] none [naming nameTag, aliasing test aliasTag]

/-- The name of a specifier and its alias, reported. -/
def called (nameTag aliasTag : Tag) (c : Cursor) : List (Tag × Cursor) :=
  ((c.child? .name).map (nameTag, ·)).toList ++ ((c.child? .asName).map (aliasTag, ·)).toList

variable {kind : Kind} {test : NodeTest} {nameTag aliasTag : Tag} {c : Cursor}

/-- At a specifier with a name, one of the two patterns for specifiers is met, and once. -/
theorem taken_specifier (hkind : c.kind = kind) (h : c.node.isSpecifier test.accepts = true) :
    (plainSpecifier kind nameTag).taken c ++
        (aliasedSpecifier kind nameTag test aliasTag).taken c =
      [called nameTag aliasTag c] := by
  obtain ⟨n, hn, hname, hcases⟩ := Tree.isSpecifier_cases h
  have hkind' : (c.kind == kind) = true := beq_iff_eq.2 hkind
  have hplain : admits none (.oneOf [kind]) [.asName] c = (c.node.child? .asName).isNone := by
    rw [Bool.eq_iff_iff]
    simp [admits, NodeTest.accepts, hkind]
  rw [plainSpecifier, taken, hplain, aliasedSpecifier, taken_ofKind, hkind', called, Cursor.child?,
    Cursor.child?, hname, takenBelow_callings nameTag aliasTag test (by simp),
    takenBelow_callings nameTag aliasTag test (by simp)]
  rcases hcases with ⟨hcallings, hasName⟩ | ⟨a, hafield, hakind, hcallings, hasName⟩
  · -- Without an alias the second pattern finds nothing behind the name.
    rw [hcallings, hasName]
    simp [takenBelow, choices, taken_naming, hn]
  · rw [hcallings, hasName]
    have hnotName : (⟨a, c.node :: c.above⟩ : Cursor).node.isNaming = false := by
      simp [Tree.isNaming, hafield]
    have haccepts : test.accepts (⟨a, c.node :: c.above⟩ : Cursor).kind = true := hakind
    have hfield : (⟨a, c.node :: c.above⟩ : Cursor).label.field = some .asName := hafield
    simp [takenBelow, choices, taken_naming, taken_aliasing, hn, hnotName, haccepts, hfield]

/-- Without a name, neither of the patterns is met. -/
theorem taken_nameless (h : c.node.child? .name = none) :
    (plainSpecifier kind nameTag).taken c ++
        (aliasedSpecifier kind nameTag test aliasTag).taken c = [] := by
  have hname : ∀ d ∈ c.children, (naming nameTag).taken d = [] := by
    intro d hd
    obtain ⟨t, ht, rfl⟩ := List.mem_map.1 hd
    have hfield := List.find?_eq_none.1 h t ht
    rw [taken_naming]
    simp [Tree.isNaming, beq_eq_false_iff_ne.1 (Bool.eq_false_iff.2 hfield)]
  rw [plainSpecifier, aliasedSpecifier, taken, taken, takenBelow_cons_eq_nil hname,
    takenBelow_cons_eq_nil hname]
  simp

/-- Among some nodes, the two patterns are met once for each specifier with a name. -/
theorem taken_specifiers_perm {cs : List Cursor}
    (h : ∀ d ∈ cs, d.kind = kind → (d.node.child? .name).isSome = true →
      d.node.isSpecifier test.accepts = true) :
    (cs.flatMap (plainSpecifier kind nameTag).taken ++
        cs.flatMap (aliasedSpecifier kind nameTag test aliasTag).taken).Perm
      ((cs.filter fun d => d.kind == kind && (d.node.child? .name).isSome).map
        (called nameTag aliasTag)) := by
  refine (List.flatMap_append_perm cs _ _).trans (.of_eq ?_)
  rw [map_filter_eq_flatMap]
  refine List.flatMap_congr fun d hd => ?_
  by_cases hkind : d.kind = kind
  · cases hname : d.node.child? .name with
    | none => simp [taken_nameless hname]
    | some n =>
      have hsome : (d.node.child? .name).isSome = true := by rw [hname]; rfl
      simp [taken_specifier hkind (h d hd hkind hsome), hkind]
  · have hadmits : ∀ without, admits none (.oneOf [kind]) without d = false := by
      simp [admits, NodeTest.accepts, hkind]
    simp [plainSpecifier, aliasedSpecifier, taken_eq_nil (hadmits _), hkind]

/-! ## Sources -/

theorem taken_source (tag : Tag) (d : Cursor) :
    (ModuleRules.foundUnder .source .stringLiteral tag).taken d =
      if d.node.isModuleName then [[(tag, d)]] else [] := by
  rw [ModuleRules.foundUnder, taken_leaf, admits_underField]
  rfl

/-- Clauses and the source behind them. -/
theorem takenBelow_source {kind : Kind} (hkind : kind ≠ .stringLiteral) {q : Tree → Bool}
    (hq : ∀ t, t.kind = kind ∨ t.isModuleName = true → q t = true) {c : Cursor}
    {clauses : List Tree} {source : Tree} (hsource : source.isModuleName = true)
    (hparts : c.node.children.filter q = clauses ++ [source])
    (hclauses : ∀ k ∈ clauses, k.kind = kind) {ps : List Pattern}
    (hps : ∀ p ∈ ps, ∃ children, p = ModuleRules.part kind children) (tag : Tag) :
    takenBelow (ps ++ [ModuleRules.foundUnder .source .stringLiteral tag]) c.children =
      (takenBelow ps (c.children.filter (·.kind == kind))).map
        (· ++ [(tag, ⟨source, c.node :: c.above⟩)]) := by
  have hstring : source.kind = .stringLiteral := beq_iff_eq.1 (Bool.and_eq_true_iff.1 hsource).2
  have hnot : ∀ k ∈ clauses, k.isModuleName = false := by
    intro k hk
    simp [Tree.isModuleName, hclauses k hk, hkind]
  -- The clauses are all children of that kind.
  have hall : c.node.children.filter (·.kind == kind) = clauses := by
    have hfilter := congrArg (List.filter fun d => d.kind == kind) hparts
    rw [List.filter_filter, List.filter_append,
      List.filter_eq_self.2 fun k hk => beq_iff_eq.2 (hclauses k hk)] at hfilter
    have hsame : ∀ d ∈ c.node.children, (d.kind == kind && q d) = (d.kind == kind) := by
      intro d _
      by_cases hd : d.kind = kind
      · simp [hq d (.inl hd)]
      · simp [hd]
    rw [List.filter_congr hsame] at hfilter
    simpa [hstring, hkind.symm] using hfilter
  have hchildren : (c.children.filter fun d => q d.node) =
      clauses.map (⟨·, c.node :: c.above⟩) ++ [⟨source, c.node :: c.above⟩] := by
    rw [Cursor.filter_children q, hparts, List.map_append]
    rfl
  rw [takenBelow_filter, hchildren, takenBelow_concat, Cursor.children_ofKind, hall]
  · intro d hd
    obtain ⟨k, hk, rfl⟩ := List.mem_map.1 hd
    rw [taken_source, hnot k hk]
    rfl
  · rw [taken_source, hsource]
    rfl
  · intro d hd
    cases hd
  · intro d _ hd p hp
    have hother : ¬ (d.node.kind = kind ∨ d.node.isModuleName = true) := by
      intro h
      rw [hq d.node h] at hd
      cases hd
    rw [not_or, Bool.not_eq_true] at hother
    rcases List.mem_append.1 hp with hp | hp
    · obtain ⟨children, rfl⟩ := hps p hp
      exact taken_eq_nil (admits_ofKind.trans (beq_eq_false_iff_ne.2 hother.1))
    · rw [List.mem_singleton.1 hp, taken_source, hother.2]
      rfl

end Pattern

/-! ## Rules -/

/-- The rule for `import name = require(…)`. -/
def Import.requireClauseRule : Rule :=
  ⟨.node none (.oneOf [.importStatement]) [] (some (ModuleRules.importAs "statement"))
     [ModuleRules.part .importRequireClause
       [ModuleRules.found .identifier (ModuleRules.importAs "default"),
        ModuleRules.foundUnder .source .stringLiteral (ModuleRules.importAs "require_source")]],
   none⟩

/-- Where the rules of TypeScript alone take nothing, both languages have the same rules. -/
theorem captured_javascript {language : Language} (hknown : language ≠ .unknown) {src : Source}
    {c : Cursor} (hrequire : Rule.captured src c Import.requireClauseRule = [])
    (hreplacement : Rule.captured src c Export.replacementRule = []) :
    (Topic.modules.rules language).flatMap (Rule.captured src c) =
      ModuleRules.javascript.flatMap (Rule.captured src c) := by
  cases language with
  | unknown => exact absurd rfl hknown
  | javascript => rfl
  | typescript =>
    have hsplit : Topic.modules.rules .typescript =
        ModuleRules.javascript ++ [Import.requireClauseRule, Export.replacementRule] := rfl
    rw [hsplit, List.flatMap_append, List.flatMap_cons, List.flatMap_singleton, hrequire,
      hreplacement, List.append_nil, List.append_nil]

/-! ## Records -/

section Records

variable {α : Type} {build : Match → Option α} (hbuild : ∀ m, build m = build ⟨0, m.captures⟩)
  {rules : List Rule} {src : Source} {t : Tree} {c : Cursor} {pre post : List Cursor}

include hbuild

/-- The records of a node are those of what the rules take there. -/
theorem filterMap_matchesAt_perm (c : Cursor) :
    ((Rule.matchesAt rules src c).filterMap build).Perm
      ((rules.flatMap (Rule.captured src c)).filterMap fun ks => build ⟨0, ks⟩) := by
  have hcaptures : (Rule.matchesAt rules src c).filterMap build =
      ((Rule.matchesAt rules src c).map (·.captures)).filterMap fun ks => build ⟨0, ks⟩ := by
    rw [List.filterMap_map]
    exact List.filterMap_congr fun m _ => hbuild m
  rw [hcaptures]
  exact (Rule.captures_matchesAt_perm rules src c).filterMap _

/-- The records of a tree are those of a node and those of the others. -/
theorem filterMap_matchesIn_perm (ht : preorder t = pre ++ c :: post) :
    ((Rule.matchesIn rules src t).filterMap build).Perm
      (((rules.flatMap (Rule.captured src c)).filterMap fun ks => build ⟨0, ks⟩) ++
        (pre ++ post).flatMap fun d => (Rule.matchesAt rules src d).filterMap build) := by
  rw [Rule.matchesIn, List.filterMap_flatMap, ht, List.flatMap_append, List.flatMap_cons,
    List.flatMap_append]
  refine (List.perm_append_comm_assoc _ _ _).trans ?_
  exact (filterMap_matchesAt_perm hbuild c).append_right _

/-- If records lie where their nodes lie, and no other node with records lies where a node lies,
    then the records there are those of the node. -/
theorem records_of_node {records : List Match → List α} {location : α → Location}
    {anchors : Kind → Bool} (hrecords : ∀ ms, (records ms).Perm (ms.filterMap build))
    (hplace : ∀ d, ∀ m ∈ Rule.matchesAt rules src d, ∀ r, build m = some r →
      anchors d.kind = true ∧ location r = d.location src)
    {own : List α} (hown : ((rules.flatMap (Rule.captured src c)).filterMap
      fun ks => build ⟨0, ks⟩).Perm own) (ht : preorder t = pre ++ c :: post) :
    (records (Rule.matchesIn rules src t)).Perm
        (own ++ (pre ++ post).flatMap fun d => records (Rule.matchesAt rules src d)) ∧
      (∀ d, ∀ r ∈ records (Rule.matchesAt rules src d),
        anchors d.kind = true ∧ location r = d.location src) ∧
      ((∀ d ∈ pre ++ post, anchors d.kind = true → d.location src ≠ c.location src) →
        ((records (Rule.matchesIn rules src t)).filter
          (location · == c.location src)).Perm own) := by
  have hnodes : ∀ d, ∀ r ∈ records (Rule.matchesAt rules src d),
      anchors d.kind = true ∧ location r = d.location src := by
    intro d r hr
    obtain ⟨m, hm, hr⟩ := List.mem_filterMap.1 ((hrecords _).mem_iff.1 hr)
    exact hplace d m hm r hr
  have hall : (records (Rule.matchesIn rules src t)).Perm
      (own ++ (pre ++ post).flatMap fun d => records (Rule.matchesAt rules src d)) := by
    refine (hrecords _).trans ((filterMap_matchesIn_perm hbuild ht).trans (hown.append ?_))
    exact List.Perm.flatMap_left _ fun d _ => (hrecords _).symm
  refine ⟨hall, hnodes, fun hothers => (hall.filter _).trans (.of_eq ?_)⟩
  have hhere : ∀ r ∈ own, (location r == c.location src) = true := by
    intro r hr
    have hmem := ((hrecords _).trans ((filterMap_matchesAt_perm hbuild c).trans hown)).mem_iff.2 hr
    exact beq_iff_eq.2 (hnodes c r hmem).2
  have helsewhere : ∀ r ∈ (pre ++ post).flatMap fun d => records (Rule.matchesAt rules src d),
      ¬ (location r == c.location src) = true := by
    intro r hr hlocation
    obtain ⟨d, hd, hr⟩ := List.mem_flatMap.1 hr
    obtain ⟨hanchor, hr⟩ := hnodes d r hr
    exact hothers d hd hanchor (hr.symm.trans (beq_iff_eq.1 hlocation))
  rw [List.filter_append, List.filter_eq_self.2 hhere, List.filter_eq_nil_iff.2 helsewhere,
    List.append_nil]

end Records

end Outline
