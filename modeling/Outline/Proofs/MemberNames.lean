import Mathlib.Data.List.TakeWhile
import Outline.Proofs.ExportClauses
import Outline.Proofs.ImportStatements
import Outline.Proofs.Layout

/-!
# Names of members

A specifier `a as b` gives a member of a module another name. The importing side records it under
the text that is written there, the exporting side without quotes. So two records call a member by
the same name exactly if its name is not written in quotes (`members_agree_iff`).

What a specifier is, is said by types: an `ImportedAs` or `ExportedAs` of a file is a specifier with
an alias in a statement of the file, at a place where the rules find it. Other nodes, comments among
them, may stand between its parts.
-/

namespace Outline

open Cursor

/-! ## Quotes -/

namespace Text

/-- Whether a text has no quote character at its ends. -/
def isBare (s : String) : Bool :=
  s.toList.head?.all (!isQuote ·) && s.toList.getLast?.all (!isQuote ·)

theorem dropWhile_eq_self {p : Char → Bool} {cs : List Char} :
    cs.dropWhile p = cs ↔ cs.head?.all (!p ·) = true := by
  rw [List.dropWhile_eq_self_iff]
  cases cs <;> simp

theorem trim_eq_self_iff {p : Char → Bool} {cs : List Char} :
    trim p cs = cs ↔ cs.dropWhile p = cs ∧ cs.reverse.dropWhile p = cs.reverse := by
  unfold trim trimEnd trimStart
  constructor
  · intro h
    -- Neither end can lose a character without making the text shorter.
    have hstart := List.length_dropWhile_le p cs
    have hend := List.length_dropWhile_le p (cs.dropWhile p).reverse
    have hlength := congrArg List.length h
    rw [List.length_reverse] at hend hlength
    have hfront : cs.dropWhile p = cs := (List.dropWhile_suffix p).eq_of_length (by omega)
    rw [hfront] at h
    exact ⟨hfront, by rw [← List.reverse_reverse (List.dropWhile _ _), h]⟩
  · rintro ⟨hfront, hback⟩
    rw [hfront, hback, List.reverse_reverse]

/-- Only texts without a quote at their ends stay as they are without quotes. -/
theorem stripQuotes_eq_self_iff {s : String} : stripQuotes s = s ↔ isBare s = true := by
  obtain ⟨cs, rfl⟩ : ∃ cs, s = String.ofList cs := ⟨s.toList, String.ofList_toList.symm⟩
  rw [stripQuotes, onChars, String.toList_ofList, String.ofList_inj, trim_eq_self_iff,
    dropWhile_eq_self, dropWhile_eq_self, List.head?_reverse, isBare, String.toList_ofList,
    Bool.and_eq_true]

end Text

/-! ## Specifiers with an alias -/

/-- One child stands, at some distance, before another. -/
def Cursor.Precedes (c x y : Cursor) : Prop :=
  ∃ pre suf, c.children = pre ++ x :: suf ∧ y ∈ suf

theorem Cursor.Precedes.mem {c x y : Cursor} (h : c.Precedes x y) :
    x ∈ c.children ∧ y ∈ c.children := by
  obtain ⟨pre, suf, hsplit, hy⟩ := h
  rw [hsplit]
  exact ⟨by simp, by simp [hy]⟩

theorem Cursor.Precedes.of_getElem? {c x y : Cursor} {i j : Nat} (hx : c.children[i]? = some x)
    (hy : c.children[j]? = some y) (hij : i < j) : c.Precedes x y := by
  obtain ⟨hi, rfl⟩ := List.getElem?_eq_some_iff.1 hx
  obtain ⟨k, rfl⟩ := Nat.exists_eq_add_of_lt hij
  refine ⟨c.children.take i, c.children.drop (i + 1), ?_, ?_⟩
  · rw [← List.drop_eq_getElem_cons hi, List.take_append_drop]
  · refine List.mem_of_getElem? (i := k) ?_
    rw [List.getElem?_drop, ← hy]
    congr 1
    omega

theorem Cursor.eq_below_of_mem {c d : Cursor} (h : d ∈ c.children) :
    d = ⟨d.node, c.node :: c.above⟩ := by
  obtain ⟨t, -, rfl⟩ := List.mem_map.1 h
  rfl

/-- A file in a known language, with its tree. -/
structure KnownFile where
  path : String
  src : Source
  tree : Tree
  isKnown : Language.ofPath path ≠ .unknown

def KnownFile.record (w : Workshop) (f : KnownFile) : FileRecord :=
  .ofTree w f.path f.src f.tree

/-- A specifier `name as renamed` in a statement of a file. -/
structure Renaming (f : KnownFile) where
  statement : Cursor
  specifier : Cursor
  name : Cursor
  renamed : Cursor
  mem : statement ∈ preorder f.tree
  isNaming : name.node.isNaming = true
  isRenaming : renamed.label.field = some .asName
  precedes : specifier.Precedes name renamed

/-- A specifier `name as renamed` in the braces of an `import` statement. -/
structure ImportedAs (f : KnownFile) extends Renaming f where
  clause : Cursor
  braces : Cursor
  source : Cursor
  statement_kind : statement.kind = .importStatement
  clause_kind : clause.kind = .importClause
  braces_kind : braces.kind = .namedImports
  specifier_kind : specifier.kind = .importSpecifier
  renamed_kind : renamed.kind = .identifier
  isModuleName : source.node.isModuleName = true
  clause_precedes : statement.Precedes clause source
  mem_clause : braces ∈ clause.children
  mem_braces : specifier ∈ braces.children

/-- A specifier `name as renamed` in the braces of an `export` statement, of this module or of a
    source. -/
structure ExportedAs (f : KnownFile) extends Renaming f where
  clause : Cursor
  source : Option Cursor
  statement_kind : statement.kind = .exportStatement
  clause_kind : clause.kind = .exportClause
  specifier_kind : specifier.kind = .exportSpecifier
  renamed_isNamed : NodeTest.anyNamed.accepts renamed.kind = true
  isModuleName : ∀ s ∈ source, s.node.isModuleName = true
  clause_precedes : ∀ s ∈ source, statement.Precedes clause s
  mem_statement : clause ∈ statement.children
  alone : source = none → statement.node.child? .source = none
  mem_clause : specifier ∈ clause.children

variable {f : KnownFile}

/-! ## What the rules take at them -/

namespace Pattern

theorem takes_under {field : Field} {test : NodeTest} {c : Cursor}
    (hfield : c.label.field = some field) (htest : test.accepts c.kind = true) (tag : Tag) :
    (Pattern.node (some field) test [] (some tag) []).Takes c [(tag, c)] := by
  refine takes_leaf.2 ⟨?_, htest, rfl⟩
  intro f hf
  exact hfield.trans hf

theorem takes_aliasedSpecifier (x : Renaming f) {kind : Kind} (hkind : x.specifier.kind = kind)
    {test : NodeTest} (htest : test.accepts x.renamed.kind = true) (nameTag aliasTag : Tag) :
    (aliasedSpecifier kind nameTag test aliasTag).Takes x.specifier
      [(nameTag, x.name), (aliasTag, x.renamed)] := by
  obtain ⟨pre, suf, hsplit, hmem⟩ := x.precedes
  obtain ⟨hfield, hnamed⟩ := Bool.and_eq_true_iff.1 x.isNaming
  have hnamed : NodeTest.anyNamed.accepts x.name.kind = true := hnamed
  have hname : (naming nameTag).Takes x.name [(nameTag, x.name)] :=
    takes_under (beq_iff_eq.1 hfield) hnamed nameTag
  have hrenamed : (aliasing test aliasTag).Takes x.renamed [(aliasTag, x.renamed)] :=
    takes_under x.isRenaming htest aliasTag
  exact takes_ofKind.2 ⟨hkind, _, takesBelow_cons_cons.2 ⟨pre, x.name, suf, hsplit, _, hname, _,
    takesBelow_singleton.2 ⟨x.renamed, hmem, hrenamed⟩, rfl⟩, rfl⟩

theorem takes_part {kind : Kind} {c d : Cursor} (hkind : c.kind = kind) (hd : d ∈ c.children)
    {p : Pattern} {xs : List (Tag × Cursor)} (h : p.Takes d xs) :
    (ModuleRules.part kind [p]).Takes c xs :=
  takes_ofKind.2 ⟨hkind, xs, takesBelow_singleton.2 ⟨d, hd, h⟩, rfl⟩

theorem takes_source {s : Cursor} (h : s.node.isModuleName = true) (tag : Tag) :
    (ModuleRules.foundUnder .source .stringLiteral tag).Takes s [(tag, s)] := by
  obtain ⟨hfield, hkind⟩ := Bool.and_eq_true_iff.1 h
  have hkind : s.kind = .stringLiteral := beq_iff_eq.1 hkind
  exact takes_under (beq_iff_eq.1 hfield) (by simp [NodeTest.accepts, hkind]) tag

/-- A part that meets a pattern, and a source somewhere behind it. -/
theorem takesBelow_part_source {c d s : Cursor} (h : c.Precedes d s)
    (hs : s.node.isModuleName = true) {p : Pattern} {xs : List (Tag × Cursor)} (hp : p.Takes d xs)
    (tag : Tag) :
    TakesBelow [p, ModuleRules.foundUnder .source .stringLiteral tag] c.children
      (xs ++ [(tag, s)]) := by
  obtain ⟨pre, suf, hsplit, hmem⟩ := h
  exact takesBelow_cons_cons.2 ⟨pre, d, suf, hsplit, xs, hp, _,
    takesBelow_singleton.2 ⟨s, hmem, takes_source hs tag⟩, rfl⟩

end Pattern

namespace ImportedAs

/-- The rule for specifiers with an alias. -/
def rule : Rule :=
  ModuleRules.importStatement [ModuleRules.importSpecifier []
    [ModuleRules.foundUnder .asName .identifier (ModuleRules.importAs "alias")]]

theorem takes_rule (x : ImportedAs f) :
    rule.pattern.Takes x.statement (Import.framed x.statement x.source.node
      [(ModuleRules.importAs "named", x.name), (ModuleRules.importAs "alias", x.renamed)]) := by
  have hspecifier := Pattern.takes_aliasedSpecifier x.toRenaming x.specifier_kind
    (show (NodeTest.oneOf [.identifier]).accepts x.renamed.kind = true by
      simp [NodeTest.accepts, x.renamed_kind])
    (ModuleRules.importAs "named") (ModuleRules.importAs "alias")
  have hclause := Pattern.takes_part x.clause_kind x.mem_clause
    (Pattern.takes_part x.braces_kind x.mem_braces hspecifier)
  rw [Import.framed, ← eq_below_of_mem x.clause_precedes.mem.2]
  exact Pattern.takes_ofKind.2 ⟨x.statement_kind, _,
    Pattern.takesBelow_part_source x.clause_precedes x.isModuleName hclause _, rfl⟩

/-- The record of the specifier. -/
def record (w : Workshop) (x : ImportedAs f) : Import :=
  .ofBinding w.files f.path f.src x.statement.node x.source.node
    ⟨.named, .single (x.renamed.text f.src) (x.name.text f.src), some x.specifier.node⟩

theorem recordOf?_eq (w : Workshop) (x : ImportedAs f) :
    Import.recordOf? w.files f.path f.src x.statement x.source.node
      [(ModuleRules.importAs "named", x.name), (ModuleRules.importAs "alias", x.renamed)] =
      some (x.record w) := by
  rw [eq_below_of_mem x.precedes.mem.1]
  refine Import.recordOf?_of_binding w.files f.path f.src rfl rfl fun p hp => ?_
  obtain rfl := Option.some.inj hp
  exact x.specifier_kind

theorem record_mem (w : Workshop) (x : ImportedAs f) : x.record w ∈ (f.record w).imports := by
  have hrule : rule ∈ ModuleRules.javascript := by
    rw [ModuleRules.javascript, ModuleRules.imports]
    simp [rule]
  obtain ⟨m, hm, hks⟩ := Rule.exists_match_iff.2
    ⟨rule, Topic.mem_rules_of_mem f.isKnown hrule, _, x.takes_rule, rfl, rfl⟩
  refine (Import.ofMatches_perm w.files f.path f.src _).mem_iff.2 (List.mem_filterMap.2 ⟨m, ?_, ?_⟩)
  · exact List.mem_flatMap.2 ⟨x.statement, x.mem, hm⟩
  · obtain ⟨i, ks⟩ := m
    obtain rfl : ks = _ := hks
    exact x.recordOf?_eq w

end ImportedAs

namespace ExportedAs

/-- The rule for specifiers with an alias, with or without a source behind them. -/
def rule (x : ExportedAs f) : Rule :=
  if x.source.isSome then Export.sourceRule Export.aliased else Export.localRule Export.aliased

theorem takes_rule (x : ExportedAs f) :
    x.rule.pattern.Takes x.statement (Export.framed x.statement (x.source.map (·.node))
      [(ModuleRules.exportAs "name", x.name), (ModuleRules.exportAs "alias", x.renamed)]) := by
  have hclause := Pattern.takes_part x.clause_kind x.mem_clause
    (Pattern.takes_aliasedSpecifier x.toRenaming x.specifier_kind x.renamed_isNamed
      (ModuleRules.exportAs "name") (ModuleRules.exportAs "alias"))
  rw [rule, Export.framed]
  cases hsource : x.source with
  | none =>
    -- The rule holds only where no child is a source.
    have hadmits :
        Pattern.admits none (.oneOf [.exportStatement]) [.source] x.statement = true := by
      simp [Pattern.admits, NodeTest.accepts, x.statement_kind, x.alone hsource]
    exact ⟨hadmits, _, Pattern.takesBelow_singleton.2 ⟨x.clause, x.mem_statement, hclause⟩, rfl⟩
  | some s =>
    have hs := x.clause_precedes s hsource
    rw [Option.map_some, Option.toList_some, List.map_singleton, ← eq_below_of_mem hs.mem.2]
    exact Pattern.takes_ofKind.2 ⟨x.statement_kind, _,
      Pattern.takesBelow_part_source hs (x.isModuleName s hsource) hclause _, rfl⟩

/-- What the specifier exposes. It is for types only if it says so. -/
def exposed (x : ExportedAs f) : Export.Exposed :=
  let inner := Text.stripQuotes (x.name.text f.src)
  let outer := Text.stripQuotes (x.renamed.text f.src)
  let form : ExportForm := if x.source.isSome then .reExport else .named
  ⟨if x.specifier.node.hasToken "type" then form.typeOnly else form, .single outer "binding",
    if outer = inner then .empty else .single outer inner⟩

/-- The record of the specifier. -/
def record (w : Workshop) (x : ExportedAs f) : Export :=
  .ofExposed w.files f.path f.src x.statement.node (x.source.map (·.node)) x.exposed

theorem record?_eq (w : Workshop) (x : ExportedAs f) (i : Nat) :
    Export.record? w.files f.path f.src ⟨i, Rule.capturesOf f.src
      (Export.framed x.statement (x.source.map (·.node))
        [(ModuleRules.exportAs "name", x.name), (ModuleRules.exportAs "alias", x.renamed)])⟩ =
      some (x.record w) := by
  have htype : (x.name.parent?).any (fun s => s.kind == .exportSpecifier && s.node.hasToken "type")
      = x.specifier.node.hasToken "type" := by
    rw [eq_below_of_mem x.precedes.mem.1]
    show (x.specifier.kind == .exportSpecifier && x.specifier.node.hasToken "type") = _
    rw [beq_iff_eq.2 x.specifier_kind, Bool.true_and]
  have hassign : Export.isAssignment ⟨i, Rule.capturesOf f.src
      (Export.framed x.statement (x.source.map (·.node))
        [(ModuleRules.exportAs "name", x.name), (ModuleRules.exportAs "alias", x.renamed)])⟩ =
      false := Export.isAssignment_framed f.src (by simp) i
  rw [record, exposed, ← htype, Export.record?, Export.ofMatch?, hassign,
    if_neg Bool.false_ne_true]
  cases x.source <;> rfl

theorem record_mem (w : Workshop) (x : ExportedAs f) : x.record w ∈ (f.record w).exports := by
  have hrule : x.rule ∈ ModuleRules.javascript := by
    rw [ModuleRules.javascript, Export.exports_eq, rule]
    split <;> simp
  have hguard : x.rule.guard = none := by
    rw [rule]
    split <;> rfl
  obtain ⟨m, hm, hks⟩ := Rule.exists_match_iff.2
    ⟨x.rule, Topic.mem_rules_of_mem f.isKnown hrule, _, x.takes_rule,
      by simp [Rule.allows, hguard], rfl⟩
  obtain ⟨i, ks⟩ := m
  obtain rfl : ks = _ := hks
  exact Export.mem_ofMatches_iff.2 ⟨x.statement, x.mem, _, hm, rfl, x.record?_eq w i⟩

end ExportedAs

/-! ## What records call a member -/

/-- The names that a record imports. -/
def Import.members (r : Import) : List String :=
  r.names.entries.map Prod.snd

/-- What the exported names are called where they come from. -/
def Export.members (r : Export) : List String :=
  r.names.keys.map fun name => (r.aliases.get? name).getD name

theorem ImportedAs.members_record (w : Workshop) (x : ImportedAs f) :
    (x.record w).members = [x.name.text f.src] :=
  rfl

theorem ExportedAs.keys_record (w : Workshop) (x : ExportedAs f) :
    (x.record w).names.keys = [Text.stripQuotes (x.renamed.text f.src)] :=
  rfl

theorem ExportedAs.members_record (w : Workshop) (x : ExportedAs f) :
    (x.record w).members = [Text.stripQuotes (x.name.text f.src)] := by
  rw [Export.members, keys_record, List.map_singleton]
  simp only [record, Export.ofExposed, exposed]
  by_cases hsame : Text.stripQuotes (x.renamed.text f.src) = Text.stripQuotes (x.name.text f.src)
  · rw [if_pos hsame, Dict.get?_empty, Option.getD_none, hsame]
  · rw [if_neg hsame, Dict.single, Dict.get?_insert, if_pos rfl, Option.getD_some]

/-- Records of an import `N as y`, of an export `x as N` and of a re-export `N as z` call the member
    alike exactly if `N` has no quote at its ends: the import keeps quotes, the exports drop
    them. -/
theorem members_agree_iff (w : Workshop) {f g h : KnownFile} (i : ImportedAs f) (e : ExportedAs g)
    (r : ExportedAs h) {N : String} (hi : i.name.text f.src = N) (he : e.renamed.text g.src = N)
    (hr : r.name.text h.src = N) {s : Cursor} (hs : r.source = some s) :
    i.record w ∈ (f.record w).imports ∧ e.record w ∈ (g.record w).exports ∧
      (r.record w ∈ (h.record w).exports ∧
        (r.record w).source = some (Text.stripQuotes (s.text h.src))) ∧
      (i.record w).members = [N] ∧ (e.record w).names.keys = [Text.stripQuotes N] ∧
      (r.record w).members = [Text.stripQuotes N] ∧
      ((i.record w).members = (e.record w).names.keys ∧
        (i.record w).members = (r.record w).members ↔ Text.isBare N = true) := by
  have himported := i.members_record w
  have hexported := e.keys_record w
  have hlocal := r.members_record w
  rw [hi] at himported
  rw [he] at hexported
  rw [hr] at hlocal
  have hsource : (r.record w).source = some (Text.stripQuotes (s.text h.src)) := by
    rw [ExportedAs.record, Export.ofExposed, hs]
    rfl
  refine ⟨i.record_mem w, e.record_mem w, ⟨r.record_mem w, hsource⟩, himported, hexported, hlocal,
    ?_⟩
  rw [himported, hexported, hlocal, and_self, List.singleton_inj, ← Text.stripQuotes_eq_self_iff]
  exact eq_comm

/-! ## A file that imports and exports one name -/

section Joined

variable (kind : Kind) (name : String)

/-- The statement `import { name as y } from './m';`. -/
def joinedImport : Tree :=
  let n := name.utf8ByteSize
  .node ⟨.importStatement, none, false, 0, 28 + n⟩
    [.node ⟨.token "import", none, false, 0, 6⟩ [],
     .node ⟨.importClause, none, false, 7, 16 + n⟩
      [.node ⟨.namedImports, none, false, 7, 16 + n⟩
        [.node ⟨.token "\x7b", none, false, 7, 8⟩ [],
         .node ⟨.importSpecifier, none, false, 9, 14 + n⟩
          [.node ⟨kind, some .name, false, 9, 9 + n⟩ [],
           .node ⟨.token "as", none, false, 10 + n, 12 + n⟩ [],
           .node ⟨.identifier, some .asName, false, 13 + n, 14 + n⟩ []],
         .node ⟨.token "\x7d", none, false, 15 + n, 16 + n⟩ []]],
     .node ⟨.token "from", none, false, 17 + n, 21 + n⟩ [],
     .node ⟨.stringLiteral, some .source, false, 22 + n, 27 + n⟩ [],
     .node ⟨.token ";", none, false, 27 + n, 28 + n⟩ []]

/-- The statement `export { x as name };`, behind the import. -/
def joinedExport : Tree :=
  let n := name.utf8ByteSize
  .node ⟨.exportStatement, none, false, 29 + n, 46 + 2 * n⟩
    [.node ⟨.token "export", none, false, 29 + n, 35 + n⟩ [],
     .node ⟨.exportClause, none, false, 36 + n, 45 + 2 * n⟩
      [.node ⟨.token "\x7b", none, false, 36 + n, 37 + n⟩ [],
       .node ⟨.exportSpecifier, none, false, 38 + n, 43 + 2 * n⟩
        [.node ⟨.identifier, some .name, false, 38 + n, 39 + n⟩ [],
         .node ⟨.token "as", none, false, 40 + n, 42 + n⟩ [],
         .node ⟨kind, some .asName, false, 43 + n, 43 + 2 * n⟩ []],
       .node ⟨.token "\x7d", none, false, 44 + 2 * n, 45 + 2 * n⟩ []],
     .node ⟨.token ";", none, false, 45 + 2 * n, 46 + 2 * n⟩ []]

/-- The statement `export { name as z } from './m';`, behind both. -/
def joinedReExport : Tree :=
  let n := name.utf8ByteSize
  .node ⟨.exportStatement, none, false, 47 + 2 * n, 75 + 3 * n⟩
    [.node ⟨.token "export", none, false, 47 + 2 * n, 53 + 2 * n⟩ [],
     .node ⟨.exportClause, none, false, 54 + 2 * n, 63 + 3 * n⟩
      [.node ⟨.token "\x7b", none, false, 54 + 2 * n, 55 + 2 * n⟩ [],
       .node ⟨.exportSpecifier, none, false, 56 + 2 * n, 61 + 3 * n⟩
        [.node ⟨kind, some .name, false, 56 + 2 * n, 56 + 3 * n⟩ [],
         .node ⟨.token "as", none, false, 57 + 3 * n, 59 + 3 * n⟩ [],
         .node ⟨.identifier, some .asName, false, 60 + 3 * n, 61 + 3 * n⟩ []],
       .node ⟨.token "\x7d", none, false, 62 + 3 * n, 63 + 3 * n⟩ []],
     .node ⟨.token "from", none, false, 64 + 3 * n, 68 + 3 * n⟩ [],
     .node ⟨.stringLiteral, some .source, false, 69 + 3 * n, 74 + 3 * n⟩ [],
     .node ⟨.token ";", none, false, 74 + 3 * n, 75 + 3 * n⟩ []]

/-- A file with these statements. -/
def joinedFile : KnownFile where
  path := "/abs/a.ts"
  src := .ofString ("import \x7b " ++ name ++ " as y \x7d from './m';\nexport \x7b x as " ++ name ++
    " \x7d;\nexport \x7b " ++ name ++ " as z \x7d from './m';\n")
  tree := .node ⟨.other "program", none, false, 0, 76 + 3 * name.utf8ByteSize⟩
    [joinedImport kind name, joinedExport kind name, joinedReExport kind name]
  isKnown := by decide +kernel

/-- The node to which a path of positions leads from the root of this file. -/
def joinedNode (path : List Nat) : Cursor :=
  path.foldl (fun c i => c.children.getD i c) ⟨(joinedFile kind name).tree, []⟩

theorem joinedNode_mem {c : Cursor} (h : c ∈ (joinedNode kind name []).children) :
    c ∈ preorder (joinedFile kind name).tree :=
  mem_preorder_of_mem_children (List.mem_cons_self ..) h

variable (hkind : NodeTest.anyNamed.accepts kind = true)

/-- The specifier of the import. -/
def joinedImported : ImportedAs (joinedFile kind name) where
  statement := joinedNode kind name [0]
  clause := joinedNode kind name [0, 1]
  braces := joinedNode kind name [0, 1, 0]
  specifier := joinedNode kind name [0, 1, 0, 1]
  name := joinedNode kind name [0, 1, 0, 1, 0]
  renamed := joinedNode kind name [0, 1, 0, 1, 2]
  source := joinedNode kind name [0, 3]
  mem := joinedNode_mem kind name (List.mem_of_getElem? (i := 0) rfl)
  isNaming := hkind
  isRenaming := rfl
  precedes := .of_getElem? (i := 0) (j := 2) rfl rfl (by decide)
  statement_kind := rfl
  clause_kind := rfl
  braces_kind := rfl
  specifier_kind := rfl
  renamed_kind := rfl
  isModuleName := rfl
  clause_precedes := .of_getElem? (i := 1) (j := 3) rfl rfl (by decide)
  mem_clause := List.mem_of_getElem? (i := 0) rfl
  mem_braces := List.mem_of_getElem? (i := 1) rfl

/-- The specifier of the export. -/
def joinedExported : ExportedAs (joinedFile kind name) where
  statement := joinedNode kind name [1]
  clause := joinedNode kind name [1, 1]
  specifier := joinedNode kind name [1, 1, 1]
  name := joinedNode kind name [1, 1, 1, 0]
  renamed := joinedNode kind name [1, 1, 1, 2]
  source := none
  mem := joinedNode_mem kind name (List.mem_of_getElem? (i := 1) rfl)
  isNaming := rfl
  isRenaming := rfl
  precedes := .of_getElem? (i := 0) (j := 2) rfl rfl (by decide)
  statement_kind := rfl
  clause_kind := rfl
  specifier_kind := rfl
  renamed_isNamed := hkind
  isModuleName := by simp
  clause_precedes := by simp
  mem_statement := List.mem_of_getElem? (i := 1) rfl
  alone _ := rfl
  mem_clause := List.mem_of_getElem? (i := 1) rfl

/-- The specifier of the re-export. -/
def joinedReExported : ExportedAs (joinedFile kind name) where
  statement := joinedNode kind name [2]
  clause := joinedNode kind name [2, 1]
  specifier := joinedNode kind name [2, 1, 1]
  name := joinedNode kind name [2, 1, 1, 0]
  renamed := joinedNode kind name [2, 1, 1, 2]
  source := some (joinedNode kind name [2, 3])
  mem := joinedNode_mem kind name (List.mem_of_getElem? (i := 2) rfl)
  isNaming := hkind
  isRenaming := rfl
  precedes := .of_getElem? (i := 0) (j := 2) rfl rfl (by decide)
  statement_kind := rfl
  clause_kind := rfl
  specifier_kind := rfl
  renamed_isNamed := rfl
  isModuleName := by
    rintro s ⟨rfl⟩
    rfl
  clause_precedes := by
    rintro s ⟨rfl⟩
    exact .of_getElem? (i := 1) (j := 3) rfl rfl (by decide)
  mem_statement := List.mem_of_getElem? (i := 1) rfl
  alone := by simp
  mem_clause := List.mem_of_getElem? (i := 1) rfl

end Joined

/-- An identifier is called alike on both sides. -/
theorem members_agree_identifier :
    let w : Workshop := ⟨⟨fun _ _ => none⟩, .empty, .usual⟩
    let i := joinedImported .identifier "a" rfl
    let e := joinedExported .identifier "a" rfl
    let r := joinedReExported .identifier "a" rfl
    (i.record w).members = (e.record w).names.keys ∧
      (i.record w).members = (r.record w).members := by
  intro w i e r
  have hnames : i.name.text (joinedFile .identifier "a").src = "a" ∧
      e.renamed.text (joinedFile .identifier "a").src = "a" ∧
      r.name.text (joinedFile .identifier "a").src = "a" := by
    decide +kernel
  have hagree := members_agree_iff w i e r hnames.1 hnames.2.1 hnames.2.2 rfl
  exact hagree.2.2.2.2.2.2.2 (by decide +kernel)

/-- A string literal is not: of `"a-b"`, only the import keeps the quotes. -/
theorem members_differ_stringLiteral :
    let w : Workshop := ⟨⟨fun _ _ => none⟩, .empty, .usual⟩
    let record := (joinedFile .stringLiteral "\"a-b\"").record w
    ∃ i ∈ record.imports, ∃ e ∈ record.exports, ∃ r ∈ record.exports,
      i.names.entries = [("y", "\"a-b\"")] ∧ e.names.keys = ["a-b"] ∧ e.members = ["x"] ∧
      r.names.keys = ["z"] ∧ r.members = ["a-b"] ∧
      i.members ≠ e.names.keys ∧ i.members ≠ r.members := by
  intro w record
  refine ⟨_, (joinedImported .stringLiteral "\"a-b\"" rfl).record_mem w,
    _, (joinedExported .stringLiteral "\"a-b\"" rfl).record_mem w,
    _, (joinedReExported .stringLiteral "\"a-b\"" rfl).record_mem w, ?_⟩
  decide +kernel

end Outline
