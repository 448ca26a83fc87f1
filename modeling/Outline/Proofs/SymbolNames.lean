import Outline.Proofs.Captures
import Outline.Proofs.Collecting
import Outline.Proofs.FileRecords
import Outline.Proofs.Layout

/-!
# Which nodes name symbols

The rules for symbols have two forms. A declaration has its name as a direct child (`Direct`), or it
is a declaration of variables, whose names are those of the declarators in it. `Names` says which
node of a tree is found as a name, from where, and as what. The symbols of a tree are then described
by the names in it (`exists_names_of_mem`, `mem_ofMatches_of_names`).
-/

namespace Outline

open Cursor

/-- Whether nodes of a kind are words that name something. -/
def Kind.isWord : Kind → Bool
  | identifier | typeIdentifier | propertyIdentifier | privatePropertyIdentifier => true
  | _ => false

namespace SymbolRules

/-- A kind of declaration that has its name as a direct child. -/
structure Direct where
  kind : Kind
  category : String
  /-- The field of the name. -/
  field : Field
  /-- The kinds that the name may have. -/
  names : List Kind

/-- The rule for declarations of this kind. -/
def Direct.rule (x : Direct) : Rule :=
  definition x.kind x.category [nameOf x.field x.names x.category]

/-- The kinds of declarations with names as direct children. -/
def directs : Language → List Direct
  | .typescript =>
    [⟨.functionDeclaration, "function", .name, [.identifier]⟩,
     ⟨.generatorFunctionDeclaration, "function", .name, [.identifier]⟩,
     ⟨.functionSignature, "function", .name, [.identifier]⟩,
     ⟨.classDeclaration, "class", .name, [.typeIdentifier]⟩,
     ⟨.abstractClassDeclaration, "class", .name, [.typeIdentifier]⟩,
     ⟨.interfaceDeclaration, "interface", .name, [.typeIdentifier]⟩,
     ⟨.typeAliasDeclaration, "type", .name, [.typeIdentifier]⟩,
     ⟨.enumDeclaration, "enum", .name, [.identifier]⟩,
     ⟨.methodDefinition, "method", .name, memberNames⟩,
     ⟨.methodSignature, "method", .name, [.propertyIdentifier]⟩,
     ⟨.abstractMethodSignature, "method", .name, [.propertyIdentifier]⟩,
     ⟨.publicFieldDefinition, "property", .name, memberNames⟩,
     ⟨.propertySignature, "property", .name, [.propertyIdentifier]⟩]
  | .javascript =>
    [⟨.functionDeclaration, "function", .name, [.identifier]⟩,
     ⟨.generatorFunctionDeclaration, "function", .name, [.identifier]⟩,
     ⟨.classDeclaration, "class", .name, [.identifier]⟩,
     ⟨.methodDefinition, "method", .name, memberNames⟩,
     ⟨.fieldDefinition, "property", .property, memberNames⟩]
  | .unknown => []

theorem rules_eq {language : Language} (hknown : language ≠ .unknown) :
    Topic.symbols.rules language = (directs language).map Direct.rule ++ variableRules := by
  cases language with
  | unknown => exact absurd rfl hknown
  | typescript => rfl
  | javascript => rfl

/-- The keywords of lexical declarations, with what they declare. -/
def keywords : List (String × String) :=
  [("const", "constant"), ("let", "variable")]

/-- At a node, another one is found as a name, for a symbol of a category. -/
inductive Names (language : Language) (c : Cursor) : String → Cursor → Prop
  | direct {x : Direct} {n : Cursor} : x ∈ directs language → c.kind = x.kind → n ∈ c.children →
      n.label.field = some x.field → n.kind ∈ x.names → Names language c x.category n
  | function {pre suf : List Cursor} {n v : Cursor} : c.kind = .variableDeclarator →
      c.children = pre ++ n :: suf → n.label.field = some .name → n.kind = .identifier →
      v ∈ suf → v.label.field = some .value → v.kind.isFunctionValue = true →
      Names language c "function" n
  | lexical {w : String × String} {pre suf : List Cursor} {k d n : Cursor} : w ∈ keywords →
      c.kind = .lexicalDeclaration → c.children = pre ++ k :: suf → k.kind = .token w.1 →
      d ∈ suf → d.kind = .variableDeclarator → n ∈ d.children → n.label.field = some .name →
      n.kind = .identifier → Names language c w.2 n
  | var {d n : Cursor} : c.kind = .variableDeclaration → d ∈ c.children →
      d.kind = .variableDeclarator → n ∈ d.children → n.label.field = some .name →
      n.kind = .identifier → Names language c "variable" n

theorem isWord_of_direct {language : Language} {x : Direct} (hx : x ∈ directs language) :
    ∀ k ∈ x.names, k.isWord = true := by
  have hall : ∀ x ∈ directs language, ∀ k ∈ x.names, k.isWord = true := by
    cases language <;> decide
  exact hall x hx

/-- Names are words of the tree. -/
theorem Names.mem_preorder {language : Language} {t : Tree} {c n : Cursor} {category : String}
    (h : Names language c category n) (hc : c ∈ preorder t) :
    n ∈ preorder t ∧ n.kind.isWord = true := by
  have hsplit : ∀ {pre suf : List Cursor} {d e : Cursor}, c.children = pre ++ d :: suf →
      e ∈ d :: suf → e ∈ preorder t := by
    intro pre suf d e hsplit he
    refine mem_preorder_of_mem_children hc ?_
    rw [hsplit]
    exact List.mem_append_right _ he
  cases h with
  | direct hx _ hn _ hkind =>
    exact ⟨mem_preorder_of_mem_children hc hn, isWord_of_direct hx _ hkind⟩
  | function _ hchildren _ hkind =>
    exact ⟨hsplit hchildren (List.mem_cons_self ..), by rw [hkind]; rfl⟩
  | lexical _ _ hchildren _ hd _ hn _ hkind =>
    have hd := hsplit hchildren (List.mem_cons_of_mem _ hd)
    exact ⟨mem_preorder_of_mem_children hd hn, by rw [hkind]; rfl⟩
  | var _ hd _ hn _ hkind =>
    have hd := mem_preorder_of_mem_children hc hd
    exact ⟨mem_preorder_of_mem_children hd hn, by rw [hkind]; rfl⟩

/-- What a rule for symbols takes: the declaration and its name. -/
def taken (c : Cursor) (category : String) (n : Cursor) : List (Tag × Cursor) :=
  [(⟨category, "definition"⟩, c), (⟨category, "name"⟩, n)]

theorem takes_nameOf {field : Field} {kinds : List Kind} {category : String} {n : Cursor}
    {xs : List (Tag × Cursor)} :
    (nameOf field kinds category).Takes n xs ↔
      n.label.field = some field ∧ n.kind ∈ kinds ∧ xs = [(⟨category, "name"⟩, n)] := by
  rw [nameOf, Pattern.takes_leaf]
  simp [NodeTest.accepts]

theorem takes_direct {x : Direct} {c : Cursor} {xs : List (Tag × Cursor)} :
    x.rule.pattern.Takes c xs ↔
      c.kind = x.kind ∧ ∃ n ∈ c.children, n.label.field = some x.field ∧ n.kind ∈ x.names ∧
        xs = taken c x.category n := by
  simp only [Direct.rule, definition, Pattern.takes_ofKind, Pattern.takesBelow_singleton,
    takes_nameOf]
  constructor
  · rintro ⟨hc, _, ⟨n, hn, hfield, hkind, rfl⟩, rfl⟩
    exact ⟨hc, n, hn, hfield, hkind, rfl⟩
  · rintro ⟨hc, n, hn, hfield, hkind, rfl⟩
    exact ⟨hc, _, ⟨n, hn, hfield, hkind, rfl⟩, rfl⟩

theorem takes_functionVariable {c : Cursor} {xs : List (Tag × Cursor)} :
    functionVariable.pattern.Takes c xs ↔
      c.kind = .variableDeclarator ∧ ∃ pre n suf, c.children = pre ++ n :: suf ∧
        n.label.field = some .name ∧ n.kind = .identifier ∧
        (∃ v ∈ suf, v.label.field = some .value ∧ v.kind.isFunctionValue = true) ∧
        xs = taken c "function" n := by
  have hvalue : ∀ k : Kind, k ∈ [Kind.arrowFunction, .functionExpression, .generatorFunction] ↔
      k.isFunctionValue = true := by
    intro k
    cases k <;> simp [Kind.isFunctionValue]
  simp only [functionVariable, definition, Pattern.takes_ofKind, Pattern.takesBelow_cons_cons,
    Pattern.takesBelow_singleton, takes_nameOf, Pattern.takes_leaf, NodeTest.accepts,
    List.contains_iff_mem, hvalue, List.mem_singleton]
  constructor
  · rintro ⟨hc, _, ⟨pre, n, suf, hsplit, _, ⟨hfield, hkind, rfl⟩, _, ⟨v, hv, hvfield, hvkind, rfl⟩,
      rfl⟩, rfl⟩
    exact ⟨hc, pre, n, suf, hsplit, hfield, hkind, ⟨v, hv, hvfield _ rfl, hvkind⟩, rfl⟩
  · rintro ⟨hc, pre, n, suf, hsplit, hfield, hkind, ⟨v, hv, hvfield, hvkind⟩, rfl⟩
    refine ⟨hc, _, ⟨pre, n, suf, hsplit, _, ⟨hfield, hkind, rfl⟩, _, ⟨v, hv, ?_, hvkind, rfl⟩, rfl⟩,
      rfl⟩
    intro f hf
    exact hvfield.trans hf

theorem takes_lexical {w : String × String} {c : Cursor} {xs : List (Tag × Cursor)} :
    (declarators .lexicalDeclaration w.2 (some w.1)).pattern.Takes c xs ↔
      c.kind = .lexicalDeclaration ∧ ∃ pre k suf, c.children = pre ++ k :: suf ∧
        k.kind = .token w.1 ∧ ∃ d ∈ suf, d.kind = .variableDeclarator ∧ ∃ n ∈ d.children,
          n.label.field = some .name ∧ n.kind = .identifier ∧ xs = taken c w.2 n := by
  simp only [declarators, definition, Option.map_some, Option.toList_some, List.singleton_append,
    Pattern.takes_ofKind, Pattern.takesBelow_cons_cons, Pattern.takesBelow_singleton, takes_nameOf,
    List.mem_singleton]
  constructor
  · rintro ⟨hc, _, ⟨pre, k, suf, hsplit, _, ⟨hk, _, hnone, rfl⟩, _,
      ⟨d, hd, hdkind, _, ⟨n, hn, hfield, hkind, rfl⟩, rfl⟩, rfl⟩, rfl⟩
    refine ⟨hc, pre, k, suf, hsplit, hk, d, hd, hdkind, n, hn, hfield, hkind, ?_⟩
    rw [Pattern.TakesBelow] at hnone
    rw [hnone]
    rfl
  · rintro ⟨hc, pre, k, suf, hsplit, hk, d, hd, hdkind, n, hn, hfield, hkind, rfl⟩
    exact ⟨hc, _, ⟨pre, k, suf, hsplit, [], ⟨hk, [], by rw [Pattern.TakesBelow], rfl⟩, _,
      ⟨d, hd, hdkind, _, ⟨n, hn, hfield, hkind, rfl⟩, rfl⟩, rfl⟩, rfl⟩

theorem takes_variable {category : String} {c : Cursor} {xs : List (Tag × Cursor)} :
    (declarators .variableDeclaration category none).pattern.Takes c xs ↔
      c.kind = .variableDeclaration ∧ ∃ d ∈ c.children, d.kind = .variableDeclarator ∧
        ∃ n ∈ d.children, n.label.field = some .name ∧ n.kind = .identifier ∧
          xs = taken c category n := by
  simp only [declarators, definition, Option.map_none, Option.toList_none, List.nil_append,
    Pattern.takes_ofKind, Pattern.takesBelow_singleton, takes_nameOf, List.mem_singleton]
  constructor
  · rintro ⟨hc, _, ⟨d, hd, hdkind, _, ⟨n, hn, hfield, hkind, rfl⟩, rfl⟩, rfl⟩
    exact ⟨hc, d, hd, hdkind, n, hn, hfield, hkind, rfl⟩
  · rintro ⟨hc, d, hd, hdkind, n, hn, hfield, hkind, rfl⟩
    exact ⟨hc, _, ⟨d, hd, hdkind, _, ⟨n, hn, hfield, hkind, rfl⟩, rfl⟩, rfl⟩

theorem variableRules_eq :
    variableRules = functionVariable ::
      (keywords.map fun w => declarators .lexicalDeclaration w.2 (some w.1)) ++
        [declarators .variableDeclaration "variable" none] := rfl

/-- What the rules for symbols take are the names of declarations. -/
theorem exists_takes_iff {language : Language} (hknown : language ≠ .unknown) {c : Cursor}
    {xs : List (Tag × Cursor)} :
    (∃ r ∈ Topic.symbols.rules language, r.pattern.Takes c xs) ↔
      ∃ category n, Names language c category n ∧ xs = taken c category n := by
  rw [rules_eq hknown, variableRules_eq]
  constructor
  · rintro ⟨r, hr, hxs⟩
    simp only [List.mem_append, List.mem_cons, List.mem_map, List.not_mem_nil, or_false] at hr
    rcases hr with ⟨x, hx, rfl⟩ | (rfl | ⟨w, hw, rfl⟩) | rfl
    · obtain ⟨hc, n, hn, hfield, hkind, rfl⟩ := takes_direct.1 hxs
      exact ⟨_, n, .direct hx hc hn hfield hkind, rfl⟩
    · obtain ⟨hc, pre, n, suf, hsplit, hfield, hkind, ⟨v, hv, hvfield, hvkind⟩, rfl⟩ :=
        takes_functionVariable.1 hxs
      exact ⟨_, n, .function hc hsplit hfield hkind hv hvfield hvkind, rfl⟩
    · obtain ⟨hc, pre, k, suf, hsplit, hk, d, hd, hdkind, n, hn, hfield, hkind, rfl⟩ :=
        takes_lexical.1 hxs
      exact ⟨_, n, .lexical hw hc hsplit hk hd hdkind hn hfield hkind, rfl⟩
    · obtain ⟨hc, d, hd, hdkind, n, hn, hfield, hkind, rfl⟩ := takes_variable.1 hxs
      exact ⟨_, n, .var hc hd hdkind hn hfield hkind, rfl⟩
  · rintro ⟨category, n, hnames, rfl⟩
    cases hnames with
    | direct hx hc hn hfield hkind =>
      refine ⟨_, List.mem_append_left _ (List.mem_map_of_mem hx), ?_⟩
      exact takes_direct.2 ⟨hc, n, hn, hfield, hkind, rfl⟩
    | function hc hsplit hfield hkind hv hvfield hvkind =>
      refine ⟨functionVariable, by simp, ?_⟩
      exact takes_functionVariable.2
        ⟨hc, _, n, _, hsplit, hfield, hkind, ⟨_, hv, hvfield, hvkind⟩, rfl⟩
    | @lexical w _ _ _ _ _ hw hc hsplit hk hd hdkind hn hfield hkind =>
      refine ⟨declarators .lexicalDeclaration w.2 (some w.1), ?_, ?_⟩
      · exact List.mem_append_right _
          (List.mem_append_left _ (List.mem_cons_of_mem _ (List.mem_map_of_mem hw)))
      · exact takes_lexical.2
          ⟨hc, _, _, _, hsplit, hk, _, hd, hdkind, n, hn, hfield, hkind, rfl⟩
    | var hc hd hdkind hn hfield hkind =>
      refine ⟨declarators .variableDeclaration "variable" none, by simp, ?_⟩
      exact takes_variable.2 ⟨hc, _, hd, hdkind, n, hn, hfield, hkind, rfl⟩

theorem guard_eq_none {language : Language} {r : Rule} (hr : r ∈ Topic.symbols.rules language) :
    r.guard.isNone = true := by
  have hall : ∀ r ∈ Topic.symbols.rules language, r.guard.isNone = true := by
    cases language <;> decide
  exact hall r hr

end SymbolRules

/-! ## Symbols -/

namespace Symbol

open SymbolRules

theorem location_ofName {src : Source} {n d : Cursor} (hd : n.declaration? = some d)
    (name : String) (kind : SymbolKind) :
    (ofName src n name kind).location = (d.wrapper?.getD d).location src := by
  simp only [ofName, hd]

/-- What is found for a name. -/
def Found.ofName (src : Source) (category : String) (n : Cursor) : Found :=
  ⟨n.label.start, n.label.stop, Symbol.ofName src n (n.text src) (.ofCategory category)⟩

theorem field?_of_captures {src : Source} {m : Match} {c n : Cursor} {category : String}
    (hm : m.captures = Rule.capturesOf src (taken c category n)) :
    m.field? "name" = some ⟨⟨category, "name"⟩, n.text src, n⟩ := by
  rw [Match.field?, hm]
  rfl

theorem nameOf?_of_captures {src : Source} {m : Match} {c n : Cursor} {category : String}
    (hm : m.captures = Rule.capturesOf src (taken c category n)) :
    nameOf? m =
      if n.text src = "" then none else some ⟨⟨category, "name"⟩, n.text src, n⟩ := by
  rw [nameOf?, field?_of_captures hm]
  by_cases h : n.text src = ""
  · simp [h]
  · simp [h]

theorem found?_of_captures {src : Source} {m : Match} {c n : Cursor} {category : String}
    (hm : m.captures = Rule.capturesOf src (taken c category n)) :
    found? src m = if n.text src = "" then none else some (.ofName src category n) := by
  rw [found?, nameOf?_of_captures hm]
  split
  · rfl
  · rfl

variable {language : Language} {src : Source} {t : Tree}

/-- What is found in a tree. -/
def foundIn (language : Language) (src : Source) (t : Tree) : List Found :=
  (Rule.matchesIn (Topic.symbols.rules language) src t).filterMap (found? src)

/-- What is captured in a tree are declarations with their names. -/
theorem exists_names_of_match {m : Match}
    (hm : m ∈ Rule.matchesIn (Topic.symbols.rules language) src t) :
    ∃ c ∈ preorder t, ∃ category n, Names language c category n ∧
      m.captures = Rule.capturesOf src (taken c category n) := by
  obtain ⟨c, hc, hm⟩ := List.mem_flatMap.1 hm
  obtain ⟨r, hr, xs, hxs, -, hks⟩ := Rule.exists_match_iff.1 ⟨m, hm, rfl⟩
  have hknown : language ≠ .unknown := by
    rintro rfl
    cases hr
  obtain ⟨category, n, hnames, rfl⟩ := (exists_takes_iff hknown).1 ⟨r, hr, hxs⟩
  exact ⟨c, hc, category, n, hnames, hks⟩

theorem mem_foundIn_iff (hknown : language ≠ .unknown) {f : Found} :
    f ∈ foundIn language src t ↔
      ∃ c ∈ preorder t, ∃ category n, Names language c category n ∧ n.text src ≠ "" ∧
        f = .ofName src category n := by
  rw [foundIn, List.mem_filterMap]
  constructor
  · rintro ⟨m, hm, hf⟩
    obtain ⟨c, hc, category, n, hnames, hks⟩ := exists_names_of_match hm
    rw [found?_of_captures hks] at hf
    split at hf
    · cases hf
    · exact ⟨c, hc, category, n, hnames, ‹_›, (Option.some.inj hf).symm⟩
  · rintro ⟨c, hc, category, n, hnames, htext, rfl⟩
    obtain ⟨r, hr, hxs⟩ := (exists_takes_iff hknown).2 ⟨category, n, hnames, rfl⟩
    have hallows : r.allows src ⟨taken c category n, []⟩ = true := by
      rw [Rule.allows, Option.isNone_iff_eq_none.1 (guard_eq_none hr)]
      rfl
    obtain ⟨m, hm, hks⟩ := Rule.exists_match_iff.2 ⟨r, hr, _, hxs, hallows, rfl⟩
    exact ⟨m, List.mem_flatMap.2 ⟨c, hc, hm⟩, by rw [found?_of_captures hks, if_neg htext]⟩

theorem mem_ofMatches_iff {s : Symbol} :
    s ∈ ofMatches src (Rule.matchesIn (Topic.symbols.rules language) src t) ↔
      ∃ f ∈ gather Found.span Found.settle (foundIn language src t), f.symbol = s := by
  rw [ofMatches_eq, List.mem_map]
  simp only [List.mem_mergeSort]
  rfl

theorem foldl_settle (f : Found) (fs : List Found) :
    (fs.foldl Found.settle f).symbol =
      { f.symbol with kind := (fs.map (·.symbol.kind)).foldl settleKind f.symbol.kind } := by
  induction fs generalizing f with
  | nil => rfl
  | cons g gs ih =>
    rw [List.foldl_cons, ih]
    rfl

/-- A name that is taken for one kind, or for a function and perhaps for a variable. -/
theorem foldl_settleKind {kind first : SymbolKind} {later : List SymbolKind}
    (hmem : kind ∈ first :: later)
    (hall : ∀ k ∈ first :: later,
      k = kind ∨ kind = .function ∧ (k = .plainVariable ∨ k = .constant)) :
    later.foldl settleKind first = kind := by
  induction later generalizing first with
  | nil => exact (List.mem_singleton.1 hmem).symm
  | cons k ks ih =>
    rw [List.foldl_cons]
    have hrest : ∀ j ∈ ks, j = kind ∨ kind = .function ∧ (j = .plainVariable ∨ j = .constant) :=
      fun j hj => hall j (by simp [hj])
    rcases hall first (List.mem_cons_self ..) with rfl | ⟨rfl, hfirst⟩
    · have hkeep : settleKind first k = first := by
        unfold settleKind
        split
        · rename_i h
          rcases hall k (by simp) with rfl | ⟨rfl, -⟩
          · exact h.1.symm
          · rfl
        · rfl
      rw [hkeep]
      exact ih (List.mem_cons_self ..) (List.forall_mem_cons.2 ⟨.inl rfl, hrest⟩)
    · by_cases hk : k = .function
      · rw [settleKind, if_pos ⟨hk, hfirst⟩]
        exact ih (List.mem_cons_self ..) (List.forall_mem_cons.2 ⟨.inl rfl, hrest⟩)
      · rw [settleKind, if_neg fun h => hk h.1]
        refine ih ?_ (List.forall_mem_cons.2 ⟨.inr ⟨rfl, hfirst⟩, hrest⟩)
        rcases List.mem_cons.1 hmem with rfl | hmem
        · exact List.mem_cons_self ..
        · rcases List.mem_cons.1 hmem with h | h
          · exact absurd h.symm hk
          · exact List.mem_cons_of_mem _ h

/-- Each symbol comes from a name. -/
theorem exists_names_of_mem (hknown : language ≠ .unknown) {s : Symbol}
    (hs : s ∈ ofMatches src (Rule.matchesIn (Topic.symbols.rules language) src t)) :
    ∃ c ∈ preorder t, ∃ category n, Names language c category n ∧ n.text src ≠ "" ∧
      ∃ kind, s = ofName src n (n.text src) kind := by
  obtain ⟨f, hf, rfl⟩ := mem_ofMatches_iff.1 hs
  obtain ⟨pre, x, post, hsplit, -, rfl⟩ := (mem_gather_iff Found.span_settle).1 hf
  have hx : x ∈ foundIn language src t := by simp [hsplit]
  obtain ⟨c, hc, category, n, hnames, htext, rfl⟩ := (mem_foundIn_iff hknown).1 hx
  exact ⟨c, hc, category, n, hnames, htext, _, foldl_settle _ _⟩

/-- A name gives a symbol of its category, if whatever else it is taken for gives way. -/
theorem mem_ofMatches_of_names (hknown : language ≠ .unknown) (hnests : t.nests = true)
    (horder : t.inOrder = true)
    (hleaf : ∀ c ∈ preorder t, c.kind.isWord = true → c.node.children = []) {c n : Cursor}
    {category : String} (hc : c ∈ preorder t) (hnames : Names language c category n)
    (htext : n.text src ≠ "")
    (hothers : ∀ d ∈ preorder t, ∀ other, Names language d other n →
      other = category ∨ category = "function" ∧ (other = "variable" ∨ other = "constant")) :
    ofName src n (n.text src) (.ofCategory category) ∈
      ofMatches src (Rule.matchesIn (Topic.symbols.rules language) src t) := by
  obtain ⟨hn, hword⟩ := hnames.mem_preorder hc
  have hwide := start_lt_stop_of_text htext
  -- Whatever is found at the span of the name is found for the name itself.
  have hsame : ∀ f ∈ foundIn language src t, f.span = (n.label.start, n.label.stop) →
      ∃ d ∈ preorder t, ∃ other, Names language d other n ∧ f = .ofName src other n := by
    intro f hf hspan
    obtain ⟨d, hd, other, m, hm, htext', rfl⟩ := (mem_foundIn_iff hknown).1 hf
    obtain ⟨hmem, hword'⟩ := hm.mem_preorder hd
    have hstart : n.label.start = m.label.start := (congrArg Prod.fst hspan).symm
    obtain rfl := eq_of_start_eq hnests horder hn hmem (hleaf n hn hword) (hleaf m hmem hword')
      hstart hwide (start_lt_stop_of_text htext')
    exact ⟨d, hd, other, hm, rfl⟩
  have hfound : Found.ofName src category n ∈ foundIn language src t :=
    (mem_foundIn_iff hknown).2 ⟨c, hc, category, n, hnames, htext, rfl⟩
  obtain ⟨f, fs, hall, hmem, hgather⟩ := exists_mem_gather Found.span_settle hfound
  refine mem_ofMatches_iff.2 ⟨_, hgather, ?_⟩
  have hkinds : (fs.map (·.symbol.kind)).foldl settleKind f.symbol.kind =
      SymbolKind.ofCategory category := by
    have hown : SymbolKind.ofCategory category ∈ (f :: fs).map (·.symbol.kind) :=
      List.mem_map.2 ⟨_, hmem, rfl⟩
    refine foldl_settleKind hown fun k hk => ?_
    have hk : k ∈ (f :: fs).map (·.symbol.kind) := hk
    obtain ⟨g, hg, rfl⟩ := List.mem_map.1 hk
    obtain ⟨hg, hspan⟩ := hall g hg
    obtain ⟨d, hd, other, hother, rfl⟩ := hsame g hg hspan
    rcases hothers d hd other hother with rfl | ⟨rfl, rfl | rfl⟩
    · exact .inl rfl
    · exact .inr ⟨by decide, .inl (show SymbolKind.ofCategory "variable" = _ by decide)⟩
    · exact .inr ⟨by decide, .inr (show SymbolKind.ofCategory "constant" = _ by decide)⟩
  rw [foldl_settle, hkinds]
  obtain ⟨hf, hspan⟩ := hall f (List.mem_cons_self ..)
  obtain ⟨-, -, -, -, rfl⟩ := hsame f hf hspan
  rfl

end Symbol

end Outline
