import Outline.Proofs.DeclaredNames
import Outline.Proofs.ExportRecords
import Outline.Proofs.SymbolNames

/-!
# Regular trees

What the grammars promise about the trees that extraction reads, as far as declarations and exports
are concerned. In a regular tree, what an exported declaration declares is a symbol of the kind that
the export says (`mem_symbols_of_declares`), and exported names are declared by exported
declarations (`exists_declares_of_names`).
-/

namespace Outline

open Cursor Export SymbolRules

/-- Whether nodes of a kind are members of classes and interfaces. -/
def Kind.isMember : Kind → Bool
  | methodDefinition | methodSignature | abstractMethodSignature | publicFieldDefinition
  | fieldDefinition | propertySignature => true
  | _ => false

/-- Whether nodes of a kind are the keywords of lexical declarations. -/
def Kind.isKeyword (k : Kind) : Bool :=
  k == .token "const" || k == .token "let"

/-- Whether a node hangs as a declaration in an export statement, or in a `declare` wrapper that
    does. -/
def Cursor.isExportedDeclaration (d : Cursor) : Bool :=
  exportWithin 1 d.ancestors && (d.label.field == some .declaration || d.ambient?.isSome)

/-- Whether a kind is one of declarations that name symbols, or of wrappers around them. -/
def SymbolRules.isDeclaring (language : Language) (k : Kind) : Bool :=
  (directs language).any (·.kind == k) || k.isVariables || k == .ambientDeclaration

/-- What the grammars say about the trees of a language, as far as declarations and exports are
    concerned. -/
structure Tree.IsRegular (language : Language) (src : Source) (t : Tree) : Prop where
  nests : t.nests = true
  inOrder : t.inOrder = true
  /-- Words are leaves without quotes. -/
  words : ∀ c ∈ preorder t, c.kind.isWord = true →
    c.node.children = [] ∧ Text.stripQuotes (c.text src) = c.text src
  /-- Declarations and declarators have at most one name. -/
  oneName : ∀ c ∈ preorder t, (c.kind.isDeclaration || c.kind == .variableDeclarator) = true →
    isFollowed (Tree.isUnder .name) (Tree.isUnder .name) c.node.children = false
  /-- Declarators stand in declarations of variables. -/
  declarators : ∀ v ∈ preorder t, v.kind = .variableDeclarator →
    (v.parent?.any fun d => d.kind.isVariables) = true
  /-- They have at most one value, behind the name. -/
  oneValue : ∀ v ∈ preorder t, v.kind = .variableDeclarator →
    isFollowed (Tree.isUnder .value) (Tree.isUnder .name) v.node.children = false ∧
      isFollowed (Tree.isUnder .value) (Tree.isUnder .value) v.node.children = false
  /-- Lexical declarations have one keyword, in front of the declarators. -/
  lexical : ∀ d ∈ preorder t, d.kind = .lexicalDeclaration →
    (d.node.children.filter (·.kind.isKeyword)).length = 1 ∧
      isFollowed (·.kind == .variableDeclarator) (·.kind.isKeyword) d.node.children = false
  /-- Other declarations of variables are not constant. -/
  vars : ∀ d ∈ preorder t, d.kind = .variableDeclaration → d.node.hasToken "const" = false
  /-- Members stand in the bodies of classes and interfaces. -/
  members : ∀ c ∈ preorder t, c.kind.isMember = true → exportWithin 1 c.ancestors = false
  /-- `declare` wrappers start with a keyword. -/
  ambients : ∀ a ∈ preorder t, a.kind = .ambientDeclaration →
    (a.node.children.head?.any fun k =>
      !k.kind.isNamed && decide (k.label.start < k.label.stop)) = true
  /-- Exported declarations hang under the field for them. -/
  hangs : ∀ d ∈ preorder t, isDeclaring language d.kind = true →
    (d.parent?.any fun e => e.kind == .exportStatement) = true → d.label.field = some .declaration
  /-- What they declare has a name that the rules for symbols find. -/
  named : ∀ d ∈ preorder t, d.isExportedDeclaration = true → labelOf d.kind ∈ declaredKinds →
    ∃ x ∈ directs language, x.kind = d.kind ∧
      ((d.node.child? .name).any fun n => x.names.contains n.kind && n.text src != "") = true
  bound : ∀ d ∈ preorder t, d.isExportedDeclaration = true → d.kind.isVariables = true →
    ∀ v ∈ d.children, v.kind = .variableDeclarator →
      ((v.node.child? .name).any fun n => n.kind == .identifier && n.text src != "") = true
  /-- Declarations that are exported by default declare one name. -/
  single : ∀ e ∈ preorder t, e.kind = .exportStatement → e.node.hasToken "default" = true →
    ∀ d ∈ e.children, d.label.field = some .declaration → (declaredNames src d.node).length = 1

/-! ## The rules for symbols -/

theorem SymbolRules.isDeclaration_of_direct {language : Language} {x : Direct}
    (hx : x ∈ directs language) : x.kind.isDeclaration = true ∧ x.kind.isVariables = false := by
  have hall : ∀ x ∈ directs language, x.kind.isDeclaration = true ∧ x.kind.isVariables = false := by
    cases language <;> decide
  exact hall x hx

/-- Rules and exports use the same words, except for members. -/
theorem SymbolRules.labelOf_of_direct {language : Language} {x : Direct}
    (hx : x ∈ directs language) (hmember : x.kind.isMember = false) :
    x.field = .name ∧ x.category = labelOf x.kind ∧ labelOf x.kind ∈ declaredKinds := by
  have hall : ∀ x ∈ directs language, x.kind.isMember = false →
      x.field = .name ∧ x.category = labelOf x.kind ∧ labelOf x.kind ∈ declaredKinds := by
    cases language <;> decide
  exact hall x hx hmember

theorem Kind.not_isMember_of_labelOf {k : Kind} (h : labelOf k ∈ declaredKinds) :
    k.isMember = false := by
  cases hk : k.isMember with
  | false => rfl
  | true => cases k <;> simp_all [Kind.isMember, labelOf, declaredKinds]

/-! ## Names in regular trees -/

/-- Of two children, the second test is passed behind the first. -/
theorem exists_split {p q : Tree → Bool} {c a b : Cursor}
    (h : isFollowed q p c.node.children = false) (ha : a ∈ c.children) (hb : b ∈ c.children)
    (hp : p a.node = true) (hq : q b.node = true) (hne : a ≠ b) :
    ∃ pre suf, c.children = pre ++ a :: suf ∧ b ∈ suf := by
  obtain ⟨pre, suf, hsplit⟩ := List.append_of_mem ha
  refine ⟨pre, suf, hsplit, ?_⟩
  rw [hsplit] at hb
  rcases List.mem_append.1 hb with hb | hb
  · exfalso
    obtain ⟨front, back, rfl⟩ := List.append_of_mem hb
    have hfollowed : isFollowed q p c.node.children = true := by
      refine (c.isFollowed_node_children q p).2 ⟨front, b, back ++ a :: suf, ?_, hq, a, ?_, hp⟩
      · rw [hsplit, List.append_assoc, List.cons_append]
      · exact List.mem_append_right _ (List.mem_cons_self ..)
    rw [h] at hfollowed
    cases hfollowed
  · rcases List.mem_cons.1 hb with rfl | hb
    · exact absurd rfl hne
    · exact hb

/-- How the name of a declarator may be found. -/
theorem SymbolRules.Names.cases_of_declarator {language : Language} {c d v n : Cursor}
    {category : String} (h : Names language c category n) (hv : v ∈ d.children)
    (hkind : v.kind = .variableDeclarator) (hn : n ∈ v.children) :
    (category = "function" ∧
        ∃ u ∈ v.children, u.label.field = some .value ∧ u.kind.isFunctionValue = true) ∨
      (d.kind = .lexicalDeclaration ∧
        ∃ w ∈ keywords, category = w.2 ∧ ∃ k ∈ d.children, k.kind = .token w.1) ∨
      (d.kind = .variableDeclaration ∧ category = "variable") := by
  cases h with
  | direct hx hc hn' =>
    obtain rfl := eq_of_mem_children hn hn'
    have hdeclaration := (isDeclaration_of_direct hx).1
    rw [← hc, hkind] at hdeclaration
    cases hdeclaration
  | function hc hchildren _ _ hu hfield hfunction =>
    have hn' : n ∈ c.children := by simp [hchildren]
    obtain rfl := eq_of_mem_children hn hn'
    exact .inl ⟨rfl, _, by simp [hchildren, hu], hfield, hfunction⟩
  | lexical hw hc hchildren hk hv' _ hn' =>
    obtain rfl := eq_of_mem_children hn hn'
    have hv' : v ∈ c.children := by simp [hchildren, hv']
    obtain rfl := eq_of_mem_children hv hv'
    exact .inr (.inl ⟨hc, _, hw, rfl, _, by simp [hchildren], hk⟩)
  | var hc hv' _ hn' =>
    obtain rfl := eq_of_mem_children hn hn'
    obtain rfl := eq_of_mem_children hv hv'
    exact .inr (.inr ⟨hc, rfl⟩)

namespace Tree.IsRegular

variable {language : Language} {src : Source} {t : Tree} (ht : t.IsRegular language src)

include ht

/-- The name of a declaration or a declarator is the only one. -/
theorem child?_name {c n : Cursor} (hc : c ∈ preorder t)
    (hkind : (c.kind.isDeclaration || c.kind == .variableDeclarator) = true) (hn : n ∈ c.children)
    (hfield : n.label.field = some .name) : c.child? .name = some n :=
  child?_eq_of_not_isFollowed (ht.oneName c hc hkind) hn hfield

/-- The value of a declarator is the only one. -/
theorem child?_value {v u : Cursor} (hv : v ∈ preorder t) (hkind : v.kind = .variableDeclarator)
    (hu : u ∈ v.children) (hfield : u.label.field = some .value) : v.child? .value = some u :=
  child?_eq_of_not_isFollowed (ht.oneValue v hv hkind).2 hu hfield

/-- A lexical declaration has a keyword, and all its keywords are the same. -/
theorem exists_keyword {d : Cursor} (hd : d ∈ preorder t) (hkind : d.kind = .lexicalDeclaration) :
    ∃ k ∈ d.children, k.kind.isKeyword = true ∧
      ∀ a ∈ d.children, a.kind.isKeyword = true → a.kind = k.kind := by
  obtain ⟨u, hu⟩ := List.length_eq_one_iff.1 (ht.lexical d hd hkind).1
  have hmem : u ∈ d.node.children.filter (·.kind.isKeyword) := by
    rw [hu]
    exact List.mem_singleton.2 rfl
  obtain ⟨hchild, hkeyword⟩ := List.mem_filter.1 hmem
  refine ⟨⟨u, d.node :: d.above⟩, List.mem_map_of_mem hchild, hkeyword, fun a ha hka => ?_⟩
  have ha : a.node ∈ d.node.children.filter (·.kind.isKeyword) :=
    List.mem_filter.2 ⟨(mem_children_iff.1 ha).2, hka⟩
  rw [hu] at ha
  exact congrArg Tree.kind (List.mem_singleton.1 ha)

/-- A bound name is found as what its declarator declares. -/
theorem exists_names_of_bound {d v n : Cursor} (hd : d ∈ preorder t)
    (hvars : d.kind.isVariables = true) (hv : v ∈ d.children) (hkind : v.kind = .variableDeclarator)
    (hn : n ∈ v.children) (hfield : n.label.field = some .name) (hword : n.kind = .identifier) :
    ∃ c ∈ preorder t, Names language c (boundLabel d.node v.node) n := by
  have hv' := mem_preorder_of_mem_children hd hv
  have hsplit : d.kind = .lexicalDeclaration → ∀ k ∈ d.children, k.kind.isKeyword = true →
      ∃ pre suf, d.children = pre ++ k :: suf ∧ v ∈ suf := by
    intro hlexical k hk hkeyword
    refine exists_split (ht.lexical d hd hlexical).2 hk hv hkeyword (beq_iff_eq.2 hkind) ?_
    rintro rfl
    rw [hkind] at hkeyword
    cases hkeyword
  have hkinds : d.kind = .lexicalDeclaration ∨ d.kind = .variableDeclaration := by
    cases hdk : d.kind <;> simp_all [Kind.isVariables]
  unfold boundLabel
  split_ifs with hvalue hconst
  · obtain ⟨u, hu, hfunction⟩ := any_child?_iff.1 hvalue
    obtain ⟨hu, hufield⟩ := mem_children_of_child? hu
    have hne : n ≠ u := by
      rintro rfl
      rw [hfield] at hufield
      cases hufield
    obtain ⟨pre, suf, hchildren, husuf⟩ := exists_split (ht.oneValue v hv' hkind).1 hn hu
      (beq_iff_eq.2 hfield) (beq_iff_eq.2 hufield) hne
    exact ⟨v, hv', .function hkind hchildren hfield hword husuf hufield hfunction⟩
  · obtain ⟨k, hk, hkconst⟩ := hasToken_iff.1 hconst
    rcases hkinds with hlexical | hvariable
    · obtain ⟨pre, suf, hchildren, hvsuf⟩ := hsplit hlexical k hk (by rw [hkconst]; rfl)
      exact ⟨d, hd, .lexical (w := ("const", "constant")) (by decide) hlexical hchildren hkconst
        hvsuf hkind hn hfield hword⟩
    · rw [ht.vars d hd hvariable] at hconst
      cases hconst
  · rcases hkinds with hlexical | hvariable
    · obtain ⟨k, hk, hkeyword, -⟩ := ht.exists_keyword hd hlexical
      have hklet : k.kind = .token "let" := by
        rcases Bool.or_eq_true_iff.1 hkeyword with h | h
        · exact absurd (hasToken_iff.2 ⟨k, hk, beq_iff_eq.1 h⟩) hconst
        · exact beq_iff_eq.1 h
      obtain ⟨pre, suf, hchildren, hvsuf⟩ := hsplit hlexical k hk hkeyword
      exact ⟨d, hd, .lexical (w := ("let", "variable")) (by decide) hlexical hchildren hklet hvsuf
        hkind hn hfield hword⟩
    · exact ⟨d, hd, .var hvariable hv hkind hn hfield hword⟩

/-- Whatever else a bound name is found as gives way. -/
theorem names_of_bound {c d v n : Cursor} {category : String} (hd : d ∈ preorder t)
    (hv : v ∈ d.children) (hkind : v.kind = .variableDeclarator) (hn : n ∈ v.children)
    (h : Names language c category n) :
    category = boundLabel d.node v.node ∨
      boundLabel d.node v.node = "function" ∧ (category = "variable" ∨ category = "constant") := by
  have hv' := mem_preorder_of_mem_children hd hv
  by_cases hvalue : (v.node.child? .value).any (·.kind.isFunctionValue) = true
  · rw [boundLabel, if_pos hvalue]
    rcases h.cases_of_declarator hv hkind hn with ⟨rfl, -⟩ | ⟨-, w, hw, rfl, -⟩ | ⟨-, rfl⟩
    · exact .inl rfl
    · refine .inr ⟨rfl, ?_⟩
      rcases List.mem_pair.1 hw with rfl | rfl
      · exact .inr rfl
      · exact .inl rfl
    · exact .inr ⟨rfl, .inl rfl⟩
  · rw [boundLabel, if_neg hvalue]
    rcases h.cases_of_declarator hv hkind hn with
      ⟨-, u, hu, hfield, hfunction⟩ | ⟨hlexical, w, hw, rfl, k, hk, hkw⟩ | ⟨hvariable, rfl⟩
    · exact absurd (any_child?_iff.2 ⟨u, ht.child?_value hv' hkind hu hfield, hfunction⟩) hvalue
    · rcases List.mem_pair.1 hw with rfl | rfl
      · rw [if_pos (hasToken_iff.2 ⟨k, hk, hkw⟩)]
        exact .inl rfl
      · have hconst : ¬ d.node.hasToken "const" = true := by
          intro hconst
          obtain ⟨a, ha, haconst⟩ := hasToken_iff.1 hconst
          obtain ⟨only, -, -, hsame⟩ := ht.exists_keyword hd hlexical
          have hkinds := (hsame a ha (by rw [haconst]; rfl)).trans
            (hsame k hk (by rw [hkw]; rfl)).symm
          rw [haconst, hkw] at hkinds
          exact absurd hkinds (by decide)
        rw [if_neg hconst]
        exact .inl rfl
    · rw [if_neg (by rw [ht.vars d hd hvariable]; exact Bool.false_ne_true)]
      exact .inl rfl

/-- The name of an exported declaration is found as what the declaration is. -/
theorem exists_names_of_named {d n : Cursor} (hd : d ∈ preorder t)
    (hexported : d.isExportedDeclaration = true) (hlabel : labelOf d.kind ∈ declaredKinds)
    (hn : d.child? .name = some n) : n.text src ≠ "" ∧ Names language d (labelOf d.kind) n := by
  obtain ⟨x, hx, hkind, hname⟩ := ht.named d hd hexported hlabel
  obtain ⟨n', hn', hname⟩ := any_child?_iff.1 hname
  obtain rfl := Option.some.inj (hn.symm.trans hn')
  rw [Bool.and_eq_true, bne_iff_ne, List.contains_iff_mem] at hname
  obtain ⟨hchild, hfield⟩ := mem_children_of_child? hn
  rw [← hkind] at hlabel ⊢
  obtain ⟨hxfield, hcategory, -⟩ := labelOf_of_direct hx (Kind.not_isMember_of_labelOf hlabel)
  rw [← hcategory]
  exact ⟨hname.2, .direct hx hkind.symm hchild (hfield.trans (congrArg some hxfield.symm)) hname.1⟩

omit ht in
/-- It is found as nothing else. -/
theorem names_of_named {c d n : Cursor} {category : String}
    (hdeclaration : d.kind.isDeclaration = true) (hlabel : labelOf d.kind ∈ declaredKinds)
    (hn : n ∈ d.children) (h : Names language c category n) : category = labelOf d.kind := by
  have hdeclarator : ∀ v : Cursor, v.kind = .variableDeclarator → n ∉ v.children := by
    intro v hkind hn'
    obtain rfl := eq_of_mem_children hn hn'
    rw [hkind] at hdeclaration
    cases hdeclaration
  cases h with
  | direct hx hc hn' =>
    obtain rfl := eq_of_mem_children hn hn'
    rw [hc] at hlabel ⊢
    exact (labelOf_of_direct hx (Kind.not_isMember_of_labelOf hlabel)).2.1
  | function hc hchildren => exact absurd (by simp [hchildren]) (hdeclarator c hc)
  | lexical _ _ _ _ _ hkind hn' => exact absurd hn' (hdeclarator _ hkind)
  | var _ _ hkind hn' => exact absurd hn' (hdeclarator _ hkind)

/-- What an exported declaration declares is a symbol, of the kind that the label says. -/
theorem mem_symbols_of_declares (hknown : language ≠ .unknown) {d n : Cursor} {label : String}
    (hd : d ∈ preorder t) (hdeclaration : d.kind.isDeclaration = true)
    (hexported : d.isExportedDeclaration = true) (hlabel : label ∈ declaredKinds)
    (h : Declares d label n) :
    n.text src ≠ "" ∧ Symbol.ofName src n (n.text src) (.ofCategory label) ∈
      Symbol.ofMatches src (Rule.matchesIn (Topic.symbols.rules language) src t) := by
  have hleaf : ∀ c ∈ preorder t, c.kind.isWord = true → c.node.children = [] :=
    fun c hc hword => (ht.words c hc hword).1
  cases h with
  | named _ hn =>
    obtain ⟨htext, hnames⟩ := ht.exists_names_of_named hd hexported hlabel hn
    refine ⟨htext, Symbol.mem_ofMatches_of_names hknown ht.nests ht.inOrder hleaf hd hnames
      htext ?_⟩
    intro c _ other hother
    exact .inl (names_of_named hdeclaration hlabel (mem_children_of_child? hn).1 hother)
  | @bound v n hvars hv hkind hn =>
    obtain ⟨n', hn', hname⟩ := any_child?_iff.1 (ht.bound d hd hexported hvars v hv hkind)
    obtain rfl := Option.some.inj (hn.symm.trans hn')
    rw [Bool.and_eq_true, bne_iff_ne, beq_iff_eq] at hname
    obtain ⟨hchild, hfield⟩ := mem_children_of_child? hn
    obtain ⟨c, hc, hnames⟩ :=
      ht.exists_names_of_bound hd hvars hv hkind hchild hfield hname.1
    refine ⟨hname.2, Symbol.mem_ofMatches_of_names hknown ht.nests ht.inOrder hleaf hc hnames
      hname.2 ?_⟩
    intro c _ other hother
    exact ht.names_of_bound hd hv hkind hchild hother

omit ht in
theorem boundLabel_mem (d v : Tree) : boundLabel d v ∈ declaredKinds := by
  unfold boundLabel
  split_ifs <;> decide

theorem isExportedDeclaration_of_isDeclaring {d : Cursor} (hd : d ∈ preorder t)
    (hdeclaring : isDeclaring language d.kind = true)
    (hexport : exportWithin 1 d.ancestors = true) : d.isExportedDeclaration = true := by
  rw [isExportedDeclaration, hexport, Bool.true_and, Bool.or_eq_true, beq_iff_eq]
  obtain ⟨e, he⟩ := exportWithin_iff.1 hexport
  cases he with
  | parent he hparent =>
    refine .inl (ht.hangs d hd hdeclaring ?_)
    rw [hparent, Option.any_some]
    exact beq_iff_eq.2 he
  | ambient ha hparent =>
    rw [ambient?_eq_some_iff.2 ⟨hparent, ha⟩]
    exact .inr rfl

/-- Exported names are declared by exported declarations. -/
theorem exists_declares_of_names {c n : Cursor} {category : String} (hc : c ∈ preorder t)
    (h : Names language c category n) (hexported : n.isExported = true) :
    ∃ d ∈ preorder t, d.kind.isDeclaration = true ∧ d.isExportedDeclaration = true ∧
      ∃ label ∈ declaredKinds, Declares d label n := by
  have hbound : ∀ {d v : Cursor}, d ∈ preorder t → d.kind.isVariables = true → v ∈ d.children →
      v.kind = .variableDeclarator → n ∈ v.children → n.label.field = some .name →
      ∃ d ∈ preorder t, d.kind.isDeclaration = true ∧ d.isExportedDeclaration = true ∧
        ∃ label ∈ declaredKinds, Declares d label n := by
    intro d v hd hvars hv hkind hn hfield
    have hname := ht.child?_name (mem_preorder_of_mem_children hd hv) (by simp [hkind]) hn hfield
    have hdeclares : Declares d _ n := .bound hvars hv hkind hname
    have hdeclaration := Kind.isDeclaration_of_isVariables hvars
    have hexport := (hdeclares.declaration? hdeclaration).2.symm.trans hexported
    have hdeclaring : isDeclaring language d.kind = true := by simp [isDeclaring, hvars]
    exact ⟨d, hd, hdeclaration, ht.isExportedDeclaration_of_isDeclaring hd hdeclaring hexport, _,
      boundLabel_mem _ _, hdeclares⟩
  cases h with
  | @direct x n hx hkind hn hfield _ =>
    obtain ⟨hdeclaration, hvars⟩ := isDeclaration_of_direct hx
    rw [← hkind] at hdeclaration hvars
    have hexport := (declaration?_of_mem_children hdeclaration hn).2.symm.trans hexported
    have hmember : x.kind.isMember = false := by
      refine Bool.eq_false_iff.2 fun hmember => ?_
      rw [← hkind] at hmember
      rw [ht.members c hc hmember] at hexport
      cases hexport
    obtain ⟨hxfield, -, hlabel⟩ := labelOf_of_direct hx hmember
    rw [hxfield] at hfield
    have hname := ht.child?_name hc (by simp [hdeclaration]) hn hfield
    have hdeclaring : isDeclaring language c.kind = true := by
      have hany : (directs language).any (·.kind == c.kind) = true :=
        List.any_eq_true.2 ⟨x, hx, beq_iff_eq.2 hkind.symm⟩
      rw [isDeclaring, hany, Bool.true_or, Bool.true_or]
    exact ⟨c, hc, hdeclaration, ht.isExportedDeclaration_of_isDeclaring hc hdeclaring hexport, _,
      hkind ▸ hlabel, .named hvars hname⟩
  | @function pre suf n v hkind hchildren hfield =>
    have hn : n ∈ c.children := by simp [hchildren]
    obtain ⟨d, hd, hvars⟩ := (Option.any_eq_true _ _).1 (ht.declarators c hc hkind)
    obtain ⟨hd, hchild⟩ := mem_preorder_of_parent hc hd
    exact hbound hd hvars hchild hkind hn hfield
  | lexical _ hkind hchildren _ hv hvkind hn hfield =>
    exact hbound hc (by rw [hkind]; rfl) (by simp [hchildren, hv]) hvkind hn hfield
  | var hkind hv hvkind hn hfield =>
    exact hbound hc (by rw [hkind]; rfl) hv hvkind hn hfield

end Tree.IsRegular

end Outline
