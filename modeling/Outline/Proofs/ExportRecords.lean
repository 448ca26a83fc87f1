import Outline.Proofs.Captures
import Outline.Proofs.Collecting
import Outline.Proofs.FileRecords
import Outline.Proofs.MatchMaps

/-!
# Which statements give export records

An exported declaration gives the record `Export.ofDeclaration`. Every other record exports values,
bindings or whole modules, or is a default export or an assignment (`exists_ofDeclaration`). All
records lie where an export statement or an assignment lies (`exists_location`).
-/

namespace Outline

open Cursor

/-! ## Dictionaries -/

namespace Dict

theorem mem_insertAll {d : Dict} {es : List (String × String)} {x : String × String}
    (h : x ∈ (d.insertAll es).entries) : x ∈ d.entries ∨ x ∈ es := by
  induction es generalizing d with
  | nil => exact .inl h
  | cons e es ih =>
    rcases ih h with h | h
    · rcases mem_insertEntry h with rfl | h
      · exact .inr (List.mem_cons_self ..)
      · exact .inl h
    · exact .inr (List.mem_cons_of_mem _ h)

theorem mem_ofList {es : List (String × String)} {x : String × String}
    (h : x ∈ (ofList es).entries) : x ∈ es := by
  rcases mem_insertAll h with h | h
  · cases h
  · exact h

theorem contains_insertAll {d : Dict} {es : List (String × String)} {key : String} :
    (d.insertAll es).contains key = true ↔ d.contains key = true ∨ ∃ e ∈ es, e.1 = key := by
  induction es generalizing d with
  | nil => simp [insertAll]
  | cons e es ih =>
    have hstep : (d.insertAll (e :: es)) = (d.insert e.1 e.2).insertAll es := rfl
    rw [hstep, ih, List.exists_mem_cons_iff]
    have hinsert : (d.insert e.1 e.2).contains key = true ↔ d.contains key = true ∨ e.1 = key := by
      unfold contains
      rw [get?_insert]
      by_cases h : key = e.1
      · simp [h]
      · simp [h, Ne.symm h]
    rw [hinsert, or_assoc]

theorem contains_ofList {es : List (String × String)} {e : String × String} (h : e ∈ es) :
    (ofList es).contains e.1 = true :=
  contains_insertAll.2 (.inr ⟨e, h, rfl⟩)

end Dict

/-! ## Tags -/

namespace Pattern

mutual

theorem tag_mem_of_takes :
    ∀ (p : Pattern) (c : Cursor) (xs : List (Tag × Cursor)), p.Takes c xs →
      ∀ x ∈ xs, x.1 ∈ Query.tagsOf p
  | .node field test without tag children, c, xs => by
    rw [Takes, Query.tagsOf]
    rintro ⟨-, ys, hys, rfl⟩ x hx
    rcases List.mem_append.1 hx with hx | hx
    · obtain ⟨t, ht, rfl⟩ := Option.map_eq_some_iff.1 (Option.mem_toList.1 hx)
      exact List.mem_append_right _ (Option.mem_toList.2 ht)
    · exact List.mem_append_left _ (tag_mem_of_takesBelow children c.children ys hys x hx)

theorem tag_mem_of_takesBelow :
    ∀ (ps : List Pattern) (cs : List Cursor) (xs : List (Tag × Cursor)), TakesBelow ps cs xs →
      ∀ x ∈ xs, x.1 ∈ Query.tagsOf.tagsOfAll ps
  | [], cs, xs => by
    rw [TakesBelow]
    rintro rfl x hx
    cases hx
  | p :: ps, cs, xs => by
    rw [TakesBelow, Query.tagsOf.tagsOfAll]
    rintro ⟨pre, d, suf, -, ys, hys, zs, hzs, rfl⟩ x hx
    rcases List.mem_append.1 hx with hx | hx
    · exact List.mem_append_left _ (tag_mem_of_takes p d ys hys x hx)
    · exact List.mem_append_right _ (tag_mem_of_takesBelow ps suf zs hzs x hx)

end

theorem takes_root {field : Option Field} {kind : Kind} {without : List Field} {tag : Tag}
    {children : List Pattern} {c : Cursor} {xs : List (Tag × Cursor)}
    (h : (Pattern.node field (.oneOf [kind]) without (some tag) children).Takes c xs) :
    c.kind = kind ∧ ∃ ys, xs = (tag, c) :: ys := by
  rw [Takes] at h
  obtain ⟨hadmits, ys, -, rfl⟩ := h
  simp only [admits, NodeTest.accepts, Bool.and_eq_true, List.contains_iff_mem,
    List.mem_singleton] at hadmits
  exact ⟨hadmits.1.2, ys, rfl⟩

end Pattern

namespace Export

/-! ## Exported declarations -/

/-- The record of an exported declaration. -/
def ofDeclaration (src : Source) (statement decl : Cursor) : Export :=
  let exposed := exposeDeclaration src statement.node decl.node
  { source := none
    resolvedPath := none
    names := exposed.names
    aliases := exposed.aliases
    form := if statement.node.hasToken "type" then exposed.form.typeOnly else exposed.form
    commonjs := false
    location := statement.location src }

/-- The rule for exported declarations. -/
def declarationRule : Rule :=
  ModuleRules.exportStatement []
    [ModuleRules.anyUnder .declaration (ModuleRules.exportAs "declaration")]

theorem takes_declarationRule {c : Cursor} {xs : List (Tag × Cursor)} :
    declarationRule.pattern.Takes c xs ↔
      c.kind = .exportStatement ∧ ∃ d ∈ c.children, d.label.field = some .declaration ∧
        (d.kind.isNamed && d.kind != .error) = true ∧
        xs = [(ModuleRules.exportAs "statement", c), (ModuleRules.exportAs "declaration", d)] := by
  simp only [declarationRule, ModuleRules.exportStatement, ModuleRules.anyUnder,
    Pattern.takes_ofKind, Pattern.takesBelow_singleton, Pattern.takes_leaf, NodeTest.accepts]
  constructor
  · rintro ⟨hc, _, ⟨d, hd, hfield, hnamed, rfl⟩, rfl⟩
    exact ⟨hc, d, hd, hfield _ rfl, hnamed, rfl⟩
  · rintro ⟨hc, d, hd, hfield, hnamed, rfl⟩
    refine ⟨hc, _, ⟨d, hd, ?_, hnamed, rfl⟩, rfl⟩
    intro f hf
    exact hfield.trans hf

variable {language : Language} {fs : FileSystem} {importer : String} {src : Source} {t : Tree}

theorem ofMatch?_declaration {m : Match} {e d : Cursor}
    (hm : m.captures = Rule.capturesOf src
      [(ModuleRules.exportAs "statement", e), (ModuleRules.exportAs "declaration", d)]) :
    m.hasCategory "export" = true ∧ ofMatch? fs importer src m = some (ofDeclaration src e d) := by
  have hassign : isAssignment m = false :=
    (isAssignment_eq [ModuleRules.exportAs "statement", ModuleRules.exportAs "declaration"]
      (by rw [hm]; rfl)).trans (by decide)
  rw [ofMatch?, hassign, if_neg Bool.false_ne_true]
  obtain ⟨i, ks⟩ := m
  obtain rfl : ks = _ := hm
  exact ⟨rfl, rfl⟩

theorem declarationRule_mem (hknown : language ≠ .unknown) :
    declarationRule ∈ Topic.modules.rules language := by
  have hmem : declarationRule ∈ ModuleRules.javascript :=
    List.mem_append_left _ (List.mem_append_right _ (List.mem_cons_self ..))
  exact Topic.mem_rules_of_mem hknown hmem

/-- Only the rule for exported declarations reports one. -/
theorem eq_declarationRule {r : Rule} (hr : r ∈ Topic.modules.rules language)
    (hreports : (Query.tagsOf r.pattern).any (·.field == "declaration") = true) :
    r = declarationRule := by
  have hnot : ∀ rs : List Rule,
      (rs.all fun r => (Query.tagsOf r.pattern).all (·.field != "declaration")) = true →
      r ∉ rs := by
    intro rs hall hmem
    have hall := List.all_eq_true.1 (List.all_eq_true.1 hall r hmem)
    obtain ⟨tag, htag, hfield⟩ := List.any_eq_true.1 hreports
    have hne := hall tag htag
    rw [bne, hfield] at hne
    cases hne
  have hjavascript : r ∈ ModuleRules.javascript → r = declarationRule := by
    intro hr
    have hexports : ModuleRules.exports = declarationRule :: ModuleRules.exports.tail := rfl
    rw [ModuleRules.javascript, hexports] at hr
    simp only [List.mem_append, List.mem_cons] at hr
    rcases hr with ((hr | hr) | rfl | hr) | hr
    · exact absurd hr (hnot _ (by decide))
    · exact absurd hr (hnot _ (by decide))
    · rfl
    · exact absurd hr (hnot _ (by decide))
    · exact absurd hr (hnot _ (by decide))
  cases language with
  | unknown => cases hr
  | javascript => exact hjavascript hr
  | typescript =>
    rcases List.mem_append.1 hr with hr | hr
    · exact hjavascript hr
    · exact absurd hr (hnot _ (by decide))

theorem mem_ofMatches_iff {e : Export} :
    e ∈ ofMatches fs importer src (Rule.matchesIn (Topic.modules.rules language) src t) ↔
      ∃ c ∈ preorder t, ∃ m ∈ Rule.matchesAt (Topic.modules.rules language) src c,
        m.hasCategory "export" = true ∧ ofMatch? fs importer src m = some e := by
  simp only [ofMatches, List.mem_mergeSort, List.mem_filterMap, List.mem_filter, Rule.matchesIn,
    List.mem_flatMap]
  constructor
  · rintro ⟨m, ⟨⟨c, hc, hm⟩, hcategory⟩, he⟩
    exact ⟨c, hc, m, hm, hcategory, he⟩
  · rintro ⟨c, hc, m, hm, hcategory, he⟩
    exact ⟨m, ⟨⟨c, hc, hm⟩, hcategory⟩, he⟩

/-- Every exported declaration has its record. -/
theorem ofDeclaration_mem (hknown : language ≠ .unknown) {e d : Cursor} (he : e ∈ preorder t)
    (hkind : e.kind = .exportStatement) (hd : d ∈ e.children)
    (hfield : d.label.field = some .declaration)
    (hnamed : (d.kind.isNamed && d.kind != .error) = true) :
    ofDeclaration src e d ∈
      ofMatches fs importer src (Rule.matchesIn (Topic.modules.rules language) src t) := by
  have htakes := takes_declarationRule.2 ⟨hkind, d, hd, hfield, hnamed, rfl⟩
  obtain ⟨m, hm, hks⟩ := Rule.exists_match_iff.2
    ⟨declarationRule, declarationRule_mem hknown, _, htakes, (rfl : _ = true), rfl⟩
  obtain ⟨hcategory, hrecord⟩ := ofMatch?_declaration hks
  exact mem_ofMatches_iff.2 ⟨e, he, m, hm, hcategory, hrecord⟩

/-- What declarations declare and symbols are, in the words of both. -/
def declaredKinds : List String :=
  ["function", "class", "interface", "type", "enum", "constant", "variable"]

theorem exposeValue_form (v : Capture) : (exposeValue src v).form = .default := by
  simp only [exposeValue]
  split_ifs <;> rfl

/-- Without a declaration, only values, bindings and modules are exposed, and values by default. -/
theorem exposed?_cases {statement : Tree} {m : Match} {x : Exposed}
    (hdeclaration : m.field? "declaration" = none) (hx : exposed? src statement m = some x) :
    x.form = .default ∨ ∀ entry ∈ x.names.entries, entry.2 = "*" ∨ entry.2 = "binding" := by
  have hsingle : ∀ {key value : String} {entry : String × String},
      entry ∈ (Dict.single key value).entries → entry.2 = value := by
    intro key value entry hentry
    rw [List.mem_singleton.1 hentry]
  unfold exposed? at hx
  rw [hdeclaration] at hx
  cases hvalue : m.field? "value" with
  | some v =>
    rw [hvalue] at hx
    obtain rfl := Option.some.inj hx
    exact .inl (exposeValue_form v)
  | none =>
    simp only [hvalue] at hx
    refine .inr fun entry hentry => ?_
    split_ifs at hx
    · obtain rfl := Option.some.inj hx
      exact .inl (hsingle hentry)
    · split at hx
      · obtain rfl := Option.some.inj hx
        exact .inl (hsingle hentry)
      · obtain rfl := Option.some.inj hx
        exact .inr (hsingle hentry)
      · cases hx

/-- A match that captures a declaration is one of an exported declaration. -/
theorem captures_of_declaration {c : Cursor} {m : Match}
    (hm : m ∈ Rule.matchesAt (Topic.modules.rules language) src c) {k : Capture}
    (hk : m.field? "declaration" = some k) :
    c.kind = .exportStatement ∧ ∃ d ∈ c.children, d.label.field = some .declaration ∧
      m.captures = Rule.capturesOf src
        [(ModuleRules.exportAs "statement", c), (ModuleRules.exportAs "declaration", d)] := by
  obtain ⟨r, hr, xs, hxs, -, hks⟩ := Rule.exists_match_iff.1 ⟨m, hm, rfl⟩
  have hmem : k ∈ Rule.capturesOf src xs := hks ▸ Match.mem_of_field? hk
  obtain ⟨x, hx, rfl⟩ := List.mem_map.1 hmem
  have hreports : (Query.tagsOf r.pattern).any (·.field == "declaration") = true := by
    refine List.any_eq_true.2 ⟨x.1, Pattern.tag_mem_of_takes _ c xs hxs x hx, ?_⟩
    simpa using List.find?_some hk
  obtain rfl := eq_declarationRule hr hreports
  obtain ⟨hkind, d, hd, hfield, -, rfl⟩ := takes_declarationRule.1 hxs
  exact ⟨hkind, d, hd, hfield, hks⟩

/-- A record that names what symbols are is that of an exported declaration, unless it is a default
    export or an assignment. -/
theorem exists_ofDeclaration {r : Export}
    (hr : r ∈ ofMatches fs importer src (Rule.matchesIn (Topic.modules.rules language) src t))
    (hcommonjs : r.commonjs = false) (hform : r.form ≠ .default) {x : String × String}
    (hx : x ∈ r.names.entries) (hkind : x.2 ∈ declaredKinds) :
    ∃ e ∈ preorder t, e.kind = .exportStatement ∧ ∃ d ∈ e.children,
      d.label.field = some .declaration ∧ r = ofDeclaration src e d := by
  obtain ⟨c, hc, m, hm, -, hrecord⟩ := mem_ofMatches_iff.1 hr
  cases hdeclaration : m.field? "declaration" with
  | some k =>
    obtain ⟨hexport, d, hd, hfield, hks⟩ := captures_of_declaration hm hdeclaration
    have hrecord' := (ofMatch?_declaration hks).2.symm.trans hrecord
    exact ⟨c, hc, hexport, d, hd, hfield, (Option.some.inj hrecord').symm⟩
  | none =>
    exfalso
    unfold ofMatch? at hrecord
    split at hrecord
    · obtain ⟨value, -, hrecord⟩ := Option.bind_eq_some_iff.1 hrecord
      obtain ⟨exposed, -, hrecord⟩ := Option.bind_eq_some_iff.1 hrecord
      obtain rfl := Option.some.inj hrecord
      cases hcommonjs
    · obtain ⟨s, -, hrecord⟩ := Option.bind_eq_some_iff.1 hrecord
      obtain ⟨exposed, hexposed, hrecord⟩ := Option.bind_eq_some_iff.1 hrecord
      obtain rfl := Option.some.inj hrecord
      rcases exposed?_cases hdeclaration hexposed with h | h
      · refine hform ?_
        show (if _ then exposed.form.typeOnly else exposed.form) = _
        rw [h]
        split <;> rfl
      · rcases h x hx with h | h <;> rw [h] at hkind <;> exact absurd hkind (by decide)

/-! ## Where records lie -/

theorem location_of_assignment {m : Match} {r : Export} {k : Capture}
    (hr : ofAssignment? src m = some r) (hk : m.field? "commonjs_statement" = some k) :
    r.location = k.site.location src := by
  obtain ⟨value, -, hr⟩ := Option.bind_eq_some_iff.1 hr
  obtain ⟨exposed, -, hr⟩ := Option.bind_eq_some_iff.1 hr
  obtain rfl := Option.some.inj hr
  rw [hk]
  rfl

theorem location_of_statement {m : Match} {r : Export} {k : Capture}
    (hr : ofStatement? fs importer src m = some r) (hk : m.field? "statement" = some k) :
    r.location = k.site.location src := by
  obtain ⟨s, hs, hr⟩ := Option.bind_eq_some_iff.1 hr
  obtain ⟨exposed, -, hr⟩ := Option.bind_eq_some_iff.1 hr
  obtain rfl := Option.some.inj hr
  obtain rfl := Option.some.inj (hs.symm.trans hk)
  rfl

/-- Whether a rule reports no export, or an export at a statement or an assignment. -/
def isAnchored (r : Rule) : Bool :=
  let tags := Query.tagsOf r.pattern
  tags.all (·.category != "export") ||
    match r.pattern with
    | .node _ (.oneOf [kind]) _ (some tag) _ =>
      (kind == .exportStatement || kind == .assignmentExpression) &&
        (tag.field == "commonjs_statement" && isAssignmentTag tag ||
          tag.field == "statement" && !tags.any isAssignmentTag)
    | _ => false

theorem isAnchored_of_mem {r : Rule} (hr : r ∈ Topic.modules.rules language) :
    isAnchored r = true := by
  have hall : ∀ r ∈ Topic.modules.rules language, isAnchored r = true := by
    cases language <;> decide
  exact hall r hr

/-- An anchored rule reports its exports at the node of the match. -/
theorem location_of_isAnchored {rule : Rule} (hrule : isAnchored rule = true) {c : Cursor}
    {xs : List (Tag × Cursor)} (hxs : rule.pattern.Takes c xs) {m : Match}
    (hks : m.captures = Rule.capturesOf src xs) (hcategory : m.hasCategory "export" = true)
    {r : Export} (hr : ofMatch? fs importer src m = some r) :
    (c.kind = .exportStatement ∨ c.kind = .assignmentExpression) ∧
      r.location = c.location src := by
  have htags : ∀ k ∈ m.captures, k.tag ∈ Query.tagsOf rule.pattern := by
    intro k hk
    rw [hks] at hk
    obtain ⟨x, hx, rfl⟩ := List.mem_map.1 hk
    exact Pattern.tag_mem_of_takes _ c xs hxs x hx
  simp only [isAnchored, Bool.or_eq_true] at hrule
  rcases hrule with hnone | hroot
  · exfalso
    obtain ⟨k, hk, hexport⟩ := List.any_eq_true.1 hcategory
    have hne := List.all_eq_true.1 hnone k.tag (htags k hk)
    rw [bne, hexport] at hne
    cases hne
  · split at hroot
    · rename_i field kind without tag children hpattern
      rw [hpattern] at hxs
      obtain ⟨rfl, ys, rfl⟩ := Pattern.takes_root hxs
      simp only [Bool.and_eq_true, Bool.or_eq_true, beq_iff_eq] at hroot
      refine ⟨hroot.1, ?_⟩
      have hhead : m.field? tag.field = some ⟨tag, c.text src, c⟩ := by
        rw [Match.field?, hks, Rule.capturesOf, List.map_cons, List.find?_cons_of_pos]
        exact beq_self_eq_true _
      unfold ofMatch? at hr
      rcases hroot.2 with ⟨htag, hassigns⟩ | ⟨htag, hfields⟩
      · rw [htag] at hhead
        have hassign : isAssignment m = true :=
          List.any_eq_true.2 ⟨_, Match.mem_of_field? hhead, hassigns⟩
        rw [if_pos hassign] at hr
        exact location_of_assignment hr hhead
      · rw [htag] at hhead
        have hassign : ¬ isAssignment m = true := by
          rw [isAssignment, List.any_eq_true]
          rintro ⟨k, hk, hassigns⟩
          rw [Bool.not_eq_true', List.any_eq_false] at hfields
          exact hfields k.tag (htags k hk) hassigns
        rw [if_neg hassign] at hr
        exact location_of_statement hr hhead
    · cases hroot

/-- Every record lies where an export statement or an assignment lies. -/
theorem exists_location {r : Export}
    (hr : r ∈ ofMatches fs importer src (Rule.matchesIn (Topic.modules.rules language) src t)) :
    ∃ c ∈ preorder t, (c.kind = .exportStatement ∨ c.kind = .assignmentExpression) ∧
      r.location = c.location src := by
  obtain ⟨c, hc, m, hm, hcategory, hrecord⟩ := mem_ofMatches_iff.1 hr
  obtain ⟨rule, hrule, xs, hxs, -, hks⟩ := Rule.exists_match_iff.1 ⟨m, hm, rfl⟩
  exact ⟨c, hc, location_of_isAnchored (isAnchored_of_mem hrule) hxs hks hcategory hrecord⟩

end Export

end Outline
