import Outline.Proofs.ExportRecords

/-!
# The shape of module records

The fields of an import or export record depend on each other: the form says how many names there
are and what they name, and whether there is a source. Each kind of record is built on its own, so
the dependencies hold for two reasons. The builders give the names that belong to a form
(`Import.binding?_suits`, `Export.exposed?_suits`), and the rules report together only what belongs
together (`hasField_of_mem`).
-/

namespace Outline

open Cursor

/-! ## What matches report -/

namespace Pattern

mutual

/-- Whoever meets a pattern meets all its tags. -/
theorem exists_of_tag_mem :
    ∀ (p : Pattern) (c : Cursor) (xs : List (Tag × Cursor)), p.Takes c xs →
      ∀ tag ∈ Query.tagsOf p, ∃ x ∈ xs, x.1 = tag
  | .node field test without tag children, c, xs => by
    rw [Takes, Query.tagsOf]
    rintro ⟨-, ys, hys, rfl⟩ tag' htag
    rcases List.mem_append.1 htag with htag | htag
    · obtain ⟨x, hx, rfl⟩ := exists_of_tag_mem_below children c.children ys hys tag' htag
      exact ⟨x, List.mem_append_right _ hx, rfl⟩
    · obtain rfl := Option.mem_toList.1 htag
      exact ⟨(tag', c), List.mem_append_left _ (by simp), rfl⟩

theorem exists_of_tag_mem_below :
    ∀ (ps : List Pattern) (cs : List Cursor) (xs : List (Tag × Cursor)), TakesBelow ps cs xs →
      ∀ tag ∈ Query.tagsOf.tagsOfAll ps, ∃ x ∈ xs, x.1 = tag
  | [], cs, xs => by
    intro _ tag htag
    cases htag
  | p :: ps, cs, xs => by
    rw [TakesBelow, Query.tagsOf.tagsOfAll]
    rintro ⟨pre, d, suf, -, ys, hys, zs, hzs, rfl⟩ tag htag
    rcases List.mem_append.1 htag with htag | htag
    · obtain ⟨x, hx, rfl⟩ := exists_of_tag_mem p d ys hys tag htag
      exact ⟨x, List.mem_append_left _ hx, rfl⟩
    · obtain ⟨x, hx, rfl⟩ := exists_of_tag_mem_below ps suf zs hzs tag htag
      exact ⟨x, List.mem_append_right _ hx, rfl⟩

end

end Pattern

/-- Whether a rule reports something under a field. -/
def Rule.reports (r : Rule) (field : String) : Bool :=
  (Query.tagsOf r.pattern).any (·.field == field)

/-- Every match has the tags of a rule. -/
theorem Rule.exists_rule_of_mem {rules : List Rule} {src : Source} {t : Tree} {m : Match}
    (hm : m ∈ matchesIn rules src t) :
    ∃ r ∈ rules, ∀ tag, tag ∈ Query.tagsOf r.pattern ↔ ∃ k ∈ m.captures, k.tag = tag := by
  obtain ⟨c, -, hm⟩ := List.mem_flatMap.1 hm
  obtain ⟨r, hr, xs, hxs, -, hks⟩ := Rule.exists_match_iff.1 ⟨m, hm, rfl⟩
  refine ⟨r, hr, fun tag => ?_⟩
  rw [hks]
  constructor
  · intro htag
    obtain ⟨x, hx, rfl⟩ := Pattern.exists_of_tag_mem _ c xs hxs tag htag
    exact ⟨_, List.mem_map_of_mem hx, rfl⟩
  · rintro ⟨k, hk, rfl⟩
    obtain ⟨x, hx, rfl⟩ := List.mem_map.1 hk
    exact Pattern.tag_mem_of_takes _ c xs hxs x hx

theorem Match.any_captures {m : Match} {r : Rule}
    (h : ∀ tag, tag ∈ Query.tagsOf r.pattern ↔ ∃ k ∈ m.captures, k.tag = tag) (q : Tag → Bool) :
    (m.captures.any fun k => q k.tag) = (Query.tagsOf r.pattern).any q := by
  rw [Bool.eq_iff_iff, List.any_eq_true, List.any_eq_true]
  constructor
  · rintro ⟨k, hk, hq⟩
    exact ⟨k.tag, (h _).2 ⟨k, hk, rfl⟩, hq⟩
  · rintro ⟨tag, htag, hq⟩
    obtain ⟨k, hk, rfl⟩ := (h tag).1 htag
    exact ⟨k, hk, hq⟩

/-- A match has the fields that its rule reports. -/
theorem Match.hasField_eq_reports {m : Match} {r : Rule}
    (h : ∀ tag, tag ∈ Query.tagsOf r.pattern ↔ ∃ k ∈ m.captures, k.tag = tag) :
    m.hasField = r.reports := by
  funext field
  exact any_captures h (·.field == field)

theorem Match.isSome_field? (m : Match) (field : String) :
    (m.field? field).isSome = m.hasField field := by
  rw [Bool.eq_iff_iff, field?, hasField, List.find?_isSome, List.any_eq_true]

/-- Sources of packages are not resolved, and all others are. -/
theorem Module.isSome_resolve? (fs : FileSystem) (importer source : String) :
    (resolve? fs importer source).isSome = !isExternal source := by
  unfold resolve?
  split_ifs with h <;> simp [h]

/-! ## Imports -/

/-- The names that belong to a form of imports. -/
structure ImportForm.Suits (form : ImportForm) (names : Dict) : Prop where
  sideEffect : names.entries = [] ↔ form = .sideEffect
  single : form ≠ .sideEffect → ∃ entry, names.entries = [entry]
  namespaced : form = .namespaced ∨ form = .typeNamespaced → ∀ e ∈ names.entries, e.2 = "*"
  default : form = .default ∨ form = .typeDefault → ∀ e ∈ names.entries, e.2 = "default"

theorem ImportForm.Suits.typeOnly {form : ImportForm} {names : Dict} (h : form.Suits names) :
    form.typeOnly.Suits names := by
  have hsideEffect : form.typeOnly = .sideEffect ↔ form = .sideEffect := by
    cases form <;> decide
  have hnamespaced : (form.typeOnly = .namespaced ∨ form.typeOnly = .typeNamespaced) ↔
      form = .namespaced ∨ form = .typeNamespaced := by
    cases form <;> decide
  have hdefault : (form.typeOnly = .default ∨ form.typeOnly = .typeDefault) ↔
      form = .default ∨ form = .typeDefault := by
    cases form <;> decide
  refine ⟨?_, ?_, ?_, ?_⟩
  · rw [hsideEffect]
    exact h.sideEffect
  · rw [Ne, hsideEffect]
    exact h.single
  · rw [hnamespaced]
    exact h.namespaced
  · rw [hdefault]
    exact h.default

theorem ImportForm.Suits.typeOnly_if {form : ImportForm} {names : Dict} (h : form.Suits names)
    (b : Bool) : (if b then form.typeOnly else form).Suits names := by
  cases b with
  | false => exact h
  | true => exact h.typeOnly

namespace Import

/-- The parts of an import that depend on each other agree. -/
structure IsWellFormed (r : Import) : Prop where
  suits : r.form.Suits r.names
  resolved : r.resolvedPath = none ↔ r.isExternal = true
  commonjs : r.commonjs = true → r.form = .named ∨ r.form = .default ∨ r.form = .sideEffect

theorem binding?_suits {m : Match} {b : Binding} (hb : binding? m = some b) :
    b.form.Suits b.names := by
  unfold binding? at hb
  split at hb
  · obtain rfl := Option.some.inj hb
    constructor <;> simp [Dict.single, Dict.insert, Dict.insertEntry, Dict.empty]
  · obtain rfl := Option.some.inj hb
    constructor <;> simp [Dict.single, Dict.insert, Dict.insertEntry, Dict.empty]
  · obtain rfl := Option.some.inj hb
    constructor <;> simp [Dict.single, Dict.insert, Dict.insertEntry, Dict.empty]
  · split_ifs at hb
    obtain rfl := Option.some.inj hb
    constructor <;> simp [Dict.empty]

/-- Without a namespace, a match binds names, a default or nothing. -/
theorem form_of_binding? {m : Match} {b : Binding} (hb : binding? m = some b)
    (hnamespace : m.field? "namespace" = none) :
    b.form = .named ∨ b.form = .default ∨ b.form = .sideEffect := by
  unfold binding? at hb
  rw [hnamespace] at hb
  split at hb
  · cases ‹none = some _›
  · obtain rfl := Option.some.inj hb
    exact .inr (.inl rfl)
  · obtain rfl := Option.some.inj hb
    exact .inl rfl
  · split_ifs at hb
    obtain rfl := Option.some.inj hb
    exact .inr (.inr rfl)

/-- Whether no namespace is reported together with a `require` call. -/
def isSeparate (hasField : String → Bool) : Bool :=
  !(hasField "namespace" && (hasField "require_fn" || hasField "require_source"))

theorem isWellFormed_of_ofMatch? {fs : FileSystem} {importer : String} {src : Source} {m : Match}
    (hm : isSeparate m.hasField = true) {r : Import} (hr : ofMatch? fs importer src m = some r) :
    r.IsWellFormed := by
  obtain ⟨source, -, hr⟩ := Option.bind_eq_some_iff.1 hr
  obtain ⟨b, hb, hr⟩ := Option.bind_eq_some_iff.1 hr
  obtain rfl := Option.some.inj hr
  have hsuits := binding?_suits hb
  refine ⟨?_, ?_, fun hcommonjs => ?_⟩
  · exact hsuits.typeOnly_if _
  · have hresolved := Module.isSome_resolve? fs importer (Text.stripQuotes source.text)
    rw [← Option.not_isSome_iff_eq_none, hresolved]
    simp
  · -- A `require` call is never for types, and no namespace is reported with it.
    have hcommonjs : (m.hasField "require_fn" || m.hasField "require_source") = true := hcommonjs
    have hnamespace : m.field? "namespace" = none := by
      rw [isSeparate, hcommonjs, Bool.and_true, ← Match.isSome_field?] at hm
      exact Option.not_isSome_iff_eq_none.1 (by simpa using hm)
    show (if _ then b.form.typeOnly else b.form) = _ ∨ (if _ then b.form.typeOnly else b.form) = _ ∨
      (if _ then b.form.typeOnly else b.form) = _
    simp only [hcommonjs, Bool.not_true, Bool.false_and, Bool.false_eq_true, if_false]
    exact form_of_binding? hb hnamespace

end Import

/-! ## Exports -/

/-- The names and aliases that belong to a form of exports, with or without a source. -/
structure ExportForm.Suits (form : ExportForm) (names aliases : Dict) (hasSource : Bool) :
    Prop where
  aliases : ∀ key ∈ aliases.keys, key ∈ names.keys
  default : form = .default → names.keys = ["default"]
  namespaced : form = .namespaced → ∃ key, names.entries = [(key, "*")]
  reExport : form = .reExport ∨ form = .typeReExport →
    names.entries = [("*", "*")] ∨ ∃ key, names.entries = [(key, "binding")]
  source : hasSource = true ↔ form = .reExport ∨ form = .typeReExport ∨ form = .namespaced

theorem ExportForm.Suits.typeOnly {form : ExportForm} {names aliases : Dict} {hasSource : Bool}
    (h : form.Suits names aliases hasSource) : form.typeOnly.Suits names aliases hasSource := by
  have hdefault : form.typeOnly = .default ↔ form = .default := by
    cases form <;> decide
  have hnamespaced : form.typeOnly = .namespaced ↔ form = .namespaced := by
    cases form <;> decide
  have hreExport : (form.typeOnly = .reExport ∨ form.typeOnly = .typeReExport) ↔
      form = .reExport ∨ form = .typeReExport := by
    cases form <;> decide
  refine ⟨h.aliases, ?_, ?_, ?_, ?_⟩
  · rw [hdefault]
    exact h.default
  · rw [hnamespaced]
    exact h.namespaced
  · rw [hreExport]
    exact h.reExport
  · rw [hnamespaced, ← or_assoc, hreExport, or_assoc]
    exact h.source

theorem ExportForm.Suits.typeOnly_if {form : ExportForm} {names aliases : Dict} {hasSource : Bool}
    (h : form.Suits names aliases hasSource) (b : Bool) :
    (if b then form.typeOnly else form).Suits names aliases hasSource := by
  cases b with
  | false => exact h
  | true => exact h.typeOnly

namespace Export

/-- The parts of an export that depend on each other agree. -/
structure IsWellFormed (r : Export) : Prop where
  suits : r.form.Suits r.names r.aliases r.source.isSome
  resolved : r.resolvedPath.isSome = true ↔ ∃ s, r.source = some s ∧ Module.isExternal s = false
  commonjs : r.commonjs = true → r.source = none ∧ r.resolvedPath = none ∧ r.aliases.entries = [] ∧
    (r.form = .named ∨ r.form = .default)

/-- What is exposed belongs to its form. -/
def Exposed.Suits (x : Exposed) (hasSource : Bool) : Prop :=
  x.form.Suits x.names x.aliases hasSource

theorem exposeDefault_suits (name kind : String) : (exposeDefault name kind).Suits false := by
  refine ⟨?_, fun _ => rfl, by simp [exposeDefault], by simp [exposeDefault],
    by simp [exposeDefault]⟩
  intro key hkey
  simp only [exposeDefault] at hkey
  split_ifs at hkey
  · cases hkey
  · exact hkey

theorem exposeDeclaration_suits (src : Source) (statement decl : Tree) :
    (exposeDeclaration src statement decl).Suits false := by
  rw [exposeDeclaration]
  split_ifs
  · exact exposeDefault_suits _ _
  · constructor <;> simp [Dict.keys, Dict.empty]

theorem exposeValue_suits (src : Source) (v : Capture) : (exposeValue src v).Suits false := by
  rw [exposeValue]
  split_ifs <;> exact exposeDefault_suits _ _

theorem exposeSpecifier_suits (hasSource : Bool) (name : Capture) (renamed : Option Capture) :
    (exposeSpecifier hasSource name renamed).Suits hasSource := by
  have hbase : ∀ outer inner : String,
      (if hasSource then ExportForm.reExport else .named).Suits (.single outer "binding")
        (if outer = inner then .empty else .single outer inner) hasSource := by
    intro outer inner
    refine ⟨?_, ?_, ?_, fun _ => .inr ⟨outer, rfl⟩, ?_⟩
    · intro key hkey
      split_ifs at hkey
      · cases hkey
      · exact hkey
    · cases hasSource <;> simp
    · cases hasSource <;> simp
    · cases hasSource <;> simp
  exact (hbase _ _).typeOnly_if _

/-- Whether a source is reported just with what comes from one. -/
def isSourced (hasField : String → Bool) : Bool :=
  (!(hasField "declaration" || hasField "value") || !hasField "source") &&
    (!(hasField "wildcard" || hasField "namespace") || hasField "source")

theorem exposed?_suits {src : Source} {statement : Tree} {m : Match}
    (hm : isSourced m.hasField = true) {x : Exposed} (hx : exposed? src statement m = some x) :
    x.Suits (m.hasField "source") := by
  have hfield : ∀ {field : String} {k : Capture}, m.field? field = some k →
      m.hasField field = true := by
    intro field k hk
    rw [← Match.isSome_field?, hk]
    rfl
  -- The cases are those of the definition, in its order; `isSourced` says which have a source.
  unfold exposed? at hx
  cases hdeclaration : m.field? "declaration" with
  | some d =>
    simp only [hdeclaration] at hx
    obtain rfl := Option.some.inj hx
    have hsource : m.hasField "source" = false := by
      simp_all [isSourced, hfield hdeclaration]
    rw [hsource]
    exact exposeDeclaration_suits ..
  | none =>
    cases hvalue : m.field? "value" with
    | some v =>
      simp only [hdeclaration, hvalue] at hx
      obtain rfl := Option.some.inj hx
      have hsource : m.hasField "source" = false := by
        simp_all [isSourced, hfield hvalue]
      rw [hsource]
      exact exposeValue_suits ..
    | none =>
      simp only [hdeclaration, hvalue] at hx
      split_ifs at hx with hwildcard
      · obtain rfl := Option.some.inj hx
        have hsource : m.hasField "source" = true := by
          simp_all [isSourced]
        rw [hsource]
        exact ⟨by simp [Dict.keys, Dict.empty], by simp, by simp, fun _ => .inl rfl, by simp⟩
      · split at hx
        · rename_i ns _ hnamespace
          obtain rfl := Option.some.inj hx
          have hsource : m.hasField "source" = true := by
            simp_all [isSourced, hfield hnamespace]
          rw [hsource]
          exact ⟨by simp [Dict.keys, Dict.empty], by simp, fun _ => ⟨_, rfl⟩, by simp, by simp⟩
        · obtain rfl := Option.some.inj hx
          exact exposeSpecifier_suits ..
        · cases hx

theorem exposeAssignment?_suits {src : Source} {target : List Char} {value : Tree} {x : Exposed}
    (hx : exposeAssignment? src target value = some x) :
    x.Suits false ∧ x.aliases = .empty ∧ (x.form = .named ∨ x.form = .default) := by
  have hnamed : ∀ names : Dict, (Exposed.mk .named names .empty).Suits false := by
    intro names
    constructor <;> simp [Dict.keys, Dict.empty]
  simp only [exposeAssignment?] at hx
  split_ifs at hx
  · obtain rfl := Option.some.inj hx
    rw [exposeModule]
    split_ifs
    · exact ⟨hnamed _, rfl, .inl rfl⟩
    · refine ⟨⟨?_, fun _ => rfl, by simp, by simp, by simp⟩, rfl, .inr rfl⟩
      simp [Dict.keys, Dict.empty]
  · obtain ⟨member, -, rfl⟩ := Option.map_eq_some_iff.1 hx
    exact ⟨hnamed _, rfl, .inl rfl⟩

theorem isWellFormed_of_ofMatch? {fs : FileSystem} {importer : String} {src : Source} {m : Match}
    (hm : isSourced m.hasField = true) {r : Export} (hr : ofMatch? fs importer src m = some r) :
    r.IsWellFormed := by
  unfold ofMatch? at hr
  split_ifs at hr
  · obtain ⟨value, -, hr⟩ := Option.bind_eq_some_iff.1 hr
    obtain ⟨x, hx, hr⟩ := Option.bind_eq_some_iff.1 hr
    obtain rfl := Option.some.inj hr
    obtain ⟨hsuits, haliases, hform⟩ := exposeAssignment?_suits hx
    exact ⟨hsuits, by simp, fun _ => ⟨rfl, rfl, congrArg Dict.entries haliases, hform⟩⟩
  · obtain ⟨statement, -, hr⟩ := Option.bind_eq_some_iff.1 hr
    obtain ⟨x, hx, hr⟩ := Option.bind_eq_some_iff.1 hr
    obtain rfl := Option.some.inj hr
    have hsuits := exposed?_suits hm hx
    refine ⟨?_, ?_, fun hcommonjs => by cases hcommonjs⟩
    · rw [← Match.isSome_field?] at hsuits
      show ExportForm.Suits _ _ _ ((m.field? "source").map _).isSome
      rw [Option.isSome_map]
      exact hsuits.typeOnly_if _
    · show (((m.field? "source").map _).bind _).isSome = true ↔
        ∃ s, (m.field? "source").map _ = _ ∧ _
      cases (m.field? "source").map fun k => Text.stripQuotes k.text with
      | none => simp
      | some s => simp [Module.isSome_resolve?]

/-- Whether a wildcard is reported at a statement, and not with anything else that is exported. -/
def isStarred (hasField : String → Bool) : Bool :=
  !hasField "wildcard" || (hasField "statement" && !(["declaration", "value"].any hasField))

/-- The match of a wildcard has a record, and the record exports the whole module. -/
theorem ofMatch?_wildcard {fs : FileSystem} {importer : String} {src : Source} {m : Match}
    (hm : isStarred m.hasField = true) (hwildcard : m.hasField "wildcard" = true)
    (hassign : isAssignment m = false) :
    ∃ r, ofMatch? fs importer src m = some r ∧ (r.form = .reExport ∨ r.form = .typeReExport) ∧
      r.names.entries = [("*", "*")] := by
  rw [isStarred, hwildcard, Bool.not_true, Bool.false_or, Bool.and_eq_true_iff,
    Bool.not_eq_true'] at hm
  obtain ⟨hstatement, hothers⟩ := hm
  have hnone : ∀ field ∈ ["declaration", "value"], m.field? field = none := by
    intro field hfield
    have hnot := List.any_eq_false.1 hothers field hfield
    rw [← Match.isSome_field?] at hnot
    exact Option.not_isSome_iff_eq_none.1 hnot
  rw [← Match.isSome_field?] at hstatement
  obtain ⟨statement, hstatement⟩ := Option.isSome_iff_exists.1 hstatement
  have hexposed : exposed? src statement.site.node m =
      some ⟨.reExport, .single "*" "*", .empty⟩ := by
    rw [exposed?, hnone _ (by simp), hnone _ (by simp)]
    simp [hwildcard]
  rw [ofMatch?, hassign, ofStatement?, hstatement]
  simp only [Bool.false_eq_true, if_false, Option.bind_eq_bind, Option.bind_some, hexposed]
  refine ⟨_, rfl, ?_, rfl⟩
  cases statement.site.node.hasToken "type" with
  | false => exact .inl rfl
  | true => exact .inr rfl

end Export

/-! ## Trees -/

/-- All rules for modules report together what belongs together. -/
theorem reports_of_mem {language : Language} {r : Rule} (hr : r ∈ Topic.modules.rules language) :
    Import.isSeparate r.reports = true ∧ Export.isSourced r.reports = true ∧
      Export.isStarred r.reports = true ∧
      (r.reports "wildcard" = true →
        (Query.tagsOf r.pattern).any (·.category == "export") = true ∧
          (Query.tagsOf r.pattern).any Export.isAssignmentTag = false) := by
  have hall : ∀ r ∈ Topic.modules.rules language, Import.isSeparate r.reports = true ∧
      Export.isSourced r.reports = true ∧ Export.isStarred r.reports = true ∧
      (r.reports "wildcard" = true →
        (Query.tagsOf r.pattern).any (·.category == "export") = true ∧
          (Query.tagsOf r.pattern).any Export.isAssignmentTag = false) := by
    -- There are finitely many rules, so this can be read off them.
    cases language <;> decide
  exact hall r hr

/-- So all matches do. -/
theorem hasField_of_mem {language : Language} {src : Source} {t : Tree} {m : Match}
    (hm : m ∈ Rule.matchesIn (Topic.modules.rules language) src t) :
    Import.isSeparate m.hasField = true ∧ Export.isSourced m.hasField = true ∧
      Export.isStarred m.hasField = true ∧
      (m.hasField "wildcard" = true →
        m.hasCategory "export" = true ∧ Export.isAssignment m = false) := by
  obtain ⟨rule, hrule, htags⟩ := Rule.exists_rule_of_mem hm
  have hreports := reports_of_mem hrule
  rw [← Match.hasField_eq_reports htags, ← Match.any_captures htags (·.category == "export"),
    ← Match.any_captures htags Export.isAssignmentTag] at hreports
  exact hreports

/-- The imports and exports of any tree are well-formed and listed by where they start, and every
    wildcard has an export of the whole module. -/
theorem isWellFormed_ofMatches (language : Language) (fs : FileSystem) (importer : String)
    (src : Source) (t : Tree) :
    let ms := Rule.matchesIn (Topic.modules.rules language) src t
    let imports := Import.ofMatches fs importer src ms
    let exports := Export.ofMatches fs importer src ms
    (∀ r ∈ imports, r.IsWellFormed) ∧ (∀ r ∈ exports, r.IsWellFormed) ∧
      (∀ m ∈ ms, m.hasField "wildcard" = true → ∃ r ∈ exports,
        Export.ofMatch? fs importer src m = some r ∧
        (r.form = .reExport ∨ r.form = .typeReExport) ∧ r.names.entries = [("*", "*")]) ∧
      (imports.Pairwise fun a b => a.location.startByte ≤ b.location.startByte) ∧
      (exports.Pairwise fun a b => a.location.startByte ≤ b.location.startByte) := by
  intro ms imports exports
  refine ⟨?_, ?_, ?_, ?_, ?_⟩
  · intro r hr
    obtain ⟨m, hm, hr⟩ := List.mem_filterMap.1 (List.mem_mergeSort.1 hr)
    obtain ⟨hseparate, -⟩ := hasField_of_mem (List.mem_filter.1 hm).1
    exact Import.isWellFormed_of_ofMatch? hseparate hr
  · intro r hr
    obtain ⟨m, hm, hr⟩ := List.mem_filterMap.1 (List.mem_mergeSort.1 hr)
    obtain ⟨-, hsourced, -⟩ := hasField_of_mem (List.mem_filter.1 hm).1
    exact Export.isWellFormed_of_ofMatch? hsourced hr
  · intro m hm hwildcard
    obtain ⟨-, -, hstarred, hexport⟩ := hasField_of_mem hm
    obtain ⟨hexport, hassign⟩ := hexport hwildcard
    obtain ⟨r, hr, hform, hnames⟩ := Export.ofMatch?_wildcard hstarred hwildcard hassign
    refine ⟨r, List.mem_mergeSort.2 (List.mem_filterMap.2 ⟨m, ?_, hr⟩), hr, hform, hnames⟩
    exact List.mem_filter.2 ⟨hm, hexport⟩
  · refine List.Pairwise.imp of_decide_eq_true ?_
    exact List.pairwise_mergeSort (start_trans fun r : Import => r.location.startByte)
      (start_total fun r : Import => r.location.startByte) _
  · refine List.Pairwise.imp of_decide_eq_true ?_
    exact List.pairwise_mergeSort (start_trans fun r : Export => r.location.startByte)
      (start_total fun r : Export => r.location.startByte) _

end Outline
