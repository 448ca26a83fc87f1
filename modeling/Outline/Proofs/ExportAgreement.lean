import Outline.Proofs.RegularTrees

/-!
# Symbols and exports agree

The symbols of a file and its exports are found by different rules and different walks. They agree
(`FileRecord.Agrees`) if what an export declares is a symbol of the same name, kind and location,
and if each exported symbol has its export. In regular trees this is so exactly if no exported
declaration stands within two `declare` wrappers: there the symbol lies at the inner wrapper, and
the export at the statement.
-/

namespace Outline

open Cursor Export SymbolRules

/-- The symbols and the exports of a file say the same about its exported declarations. -/
structure FileRecord.Agrees (r : FileRecord) : Prop where
  /-- What an export declares is an exported symbol. -/
  declared : ∀ e ∈ r.exports, e.commonjs = false → e.form ≠ .default → ∀ x ∈ e.names.entries,
    x.2 ∈ declaredKinds → ∃ s ∈ r.symbols, s.name = x.1 ∧ s.exported = true ∧ s.kind.name = x.2 ∧
      s.location = e.location
  /-- An exported symbol has an export, under its own name or by default. -/
  exported : ∀ s ∈ r.symbols, s.exported = true → ∃ e ∈ r.exports, e.location = s.location ∧
    (e.names.contains s.name = true ∨
      e.form = .default ∧ e.aliases.get? "default" = some s.name)

/-- Whether something that symbols are is declared and exported from within two `declare`
    wrappers. -/
def Export.isBuried (src : Source) (d : Cursor) : Bool :=
  d.kind.isDeclaration && exportWithin 1 d.ancestors && d.isStacked &&
    (declaredNames src d.node).any fun x => declaredKinds.contains x.2

theorem Export.isBuried_iff {src : Source} {d : Cursor} :
    isBuried src d = true ↔
      d.kind.isDeclaration = true ∧ exportWithin 1 d.ancestors = true ∧ d.isStacked = true ∧
        ∃ x ∈ declaredNames src d.node, x.2 ∈ declaredKinds := by
  simp only [isBuried, Bool.and_eq_true, List.any_eq_true, List.contains_iff_mem, and_assoc]

theorem Export.isStacked_of_not_isBuried {src : Source} {d : Cursor} (h : isBuried src d = false)
    (hdeclaration : d.kind.isDeclaration = true) (hwithin : exportWithin 1 d.ancestors = true)
    {x : String × String} (hx : x ∈ declaredNames src d.node) (hlabel : x.2 ∈ declaredKinds) :
    d.isStacked = false := by
  refine Bool.eq_false_iff.2 fun hstacked => ?_
  rw [isBuried_iff.2 ⟨hdeclaration, hwithin, hstacked, x, hx, hlabel⟩] at h
  cases h

theorem SymbolKind.name_ofCategory {label : String} (h : label ∈ declaredKinds) :
    (SymbolKind.ofCategory label).name = label := by
  have hall : ∀ label ∈ declaredKinds, (SymbolKind.ofCategory label).name = label := by decide
  exact hall label h

namespace Tree.IsRegular

variable {language : Language} {src : Source} {t : Tree} (ht : t.IsRegular language src)

include ht

/-! ## Declarations and what they declare -/

/-- The names that an exported declaration declares are those of its name nodes. -/
theorem mem_declaredNames_iff {d : Cursor} (hd : d ∈ preorder t)
    (hexported : d.isExportedDeclaration = true) (hambient : d.kind ≠ .ambientDeclaration)
    {x : String × String} (hx : x.2 ∈ declaredKinds) :
    x ∈ declaredNames src d.node ↔ ∃ n, Declares d x.2 n ∧ x.1 = n.text src := by
  cases hvars : d.kind.isVariables with
  | true => exact mem_declaredNames_variables hvars
  | false =>
    -- The export takes quotes away, and names have none.
    have hword : labelOf d.kind ∈ declaredKinds → ∀ {n : Cursor}, d.child? .name = some n →
        ((d.node.child? .name).map fun u => Text.stripQuotes (u.text src)).getD "" =
          n.text src := by
      intro hlabel n hn
      obtain ⟨-, hnames⟩ := ht.exists_names_of_named hd hexported hlabel hn
      obtain ⟨hmem, hword⟩ := hnames.mem_preorder hd
      obtain ⟨u, hu, rfl⟩ := Option.map_eq_some_iff.1 hn
      rw [hu, Option.map_some, Option.getD_some]
      exact (ht.words _ hmem hword).2
    obtain ⟨name, label⟩ := x
    rw [declaredNames_single hvars hambient, List.mem_singleton, Prod.mk.injEq]
    constructor
    · rintro ⟨rfl, rfl⟩
      obtain ⟨y, -, -, hname⟩ := ht.named d hd hexported hx
      obtain ⟨n, hn, -⟩ := any_child?_iff.1 hname
      exact ⟨n, .named hvars hn, hword hx hn⟩
    · rintro ⟨n, hdeclares, htext⟩
      cases hdeclares with
      | named _ hn => exact ⟨htext.trans (hword hx hn).symm, rfl⟩
      | bound hvars' =>
        rw [hvars] at hvars'
        cases hvars'

theorem isDeclaration_of_label {d : Cursor} (hd : d ∈ preorder t)
    (hexported : d.isExportedDeclaration = true) {label : String} {n : Cursor}
    (hlabel : label ∈ declaredKinds) (h : Declares d label n) : d.kind.isDeclaration = true := by
  cases h with
  | named =>
    obtain ⟨x, hx, hkind, -⟩ := ht.named d hd hexported hlabel
    rw [← hkind]
    exact (isDeclaration_of_direct hx).1
  | bound hvars => exact Kind.isDeclaration_of_isVariables hvars

/-- What an exported declaration declares is named by the record of the statement around it. -/
theorem exists_record {fs : FileSystem} {importer : String} (hknown : language ≠ .unknown)
    {e d : Cursor} (hd : d ∈ preorder t) (hdeclaration : d.kind.isDeclaration = true)
    (hexported : d.isExportedDeclaration = true) (he : Wraps e d) {x : String × String}
    (hx : x ∈ declaredNames src d.node) (hne : x.1 ≠ "") :
    ∃ r ∈ Export.ofMatches fs importer src (Rule.matchesIn (Topic.modules.rules language) src t),
      r.location = e.location src ∧
        (r.names.contains x.1 = true ∨
          r.form = .default ∧ r.aliases.get? "default" = some x.1) := by
  have hnamed : ∀ {k : Kind}, k.isDeclaration = false →
      (d.kind.isNamed && d.kind != k) = true := by
    intro k hk
    rw [Kind.isNamed_of_isDeclaration hdeclaration, Bool.true_and, bne_iff_ne]
    exact Kind.ne_of_isDeclaration hdeclaration hk
  obtain ⟨hmem, hexport, c, hc, hcases, hxc⟩ := exists_child hd he (hnamed rfl) hx hne
  have hparent := (mem_children_iff.1 hc).1
  -- The child of the statement that holds the declaration hangs where the rule looks for it.
  have hchild : c.label.field = some .declaration ∧
      (c.kind.isNamed && c.kind != .error) = true := by
    rcases hcases with rfl | hambient
    · refine ⟨?_, hnamed rfl⟩
      rw [isExportedDeclaration, Bool.and_eq_true, Bool.or_eq_true, beq_iff_eq] at hexported
      rcases hexported.2 with hfield | hambient
      · exact hfield
      · rw [ambient?, hparent, Option.filter_some, hexport] at hambient
        cases hambient
    · refine ⟨ht.hangs c (mem_preorder_of_mem_children hmem hc) ?_ ?_, by rw [hambient]; rfl⟩
      · simp [isDeclaring, hambient]
      · rw [hparent, Option.any_some]
        exact beq_iff_eq.2 hexport
  refine ⟨_, ofDeclaration_mem hknown hmem hexport hc hchild.1 hchild.2, rfl, ?_⟩
  by_cases hdefault : e.node.hasToken "default" = true
  · obtain ⟨y, hy⟩ := List.length_eq_one_iff.1 (ht.single e hmem hexport hdefault c hc hchild.1)
    rw [hy] at hxc
    obtain rfl := List.mem_singleton.1 hxc
    have hexposed : exposeDeclaration src e.node c.node = exposeDefault x.1 x.2 := by
      simp only [exposeDeclaration, hdefault, if_true, hy]
      rfl
    refine .inr ⟨?_, ?_⟩
    · simp only [ofDeclaration, hexposed, exposeDefault]
      split <;> rfl
    · simp only [ofDeclaration, hexposed, exposeDefault, if_neg hne]
      rfl
  · have hexposed : exposeDeclaration src e.node c.node =
        ⟨.named, .ofList (declaredNames src c.node), .empty⟩ := by
      simp only [exposeDeclaration, hdefault, if_false, Bool.false_eq_true]
    left
    simp only [ofDeclaration, hexposed]
    exact Dict.contains_ofList hxc

/-! ## Wrappers within wrappers -/

/-- A `declare` wrapper starts with its keyword, and what it wraps comes behind. -/
theorem exists_keyword_of_ambient {a : Cursor} (ha : a ∈ preorder t)
    (hkind : a.kind = .ambientDeclaration) :
    ∃ k ∈ a.children, k.kind.isNamed = false ∧ a.label.start ≤ k.label.start ∧
      k.label.start < k.label.stop ∧ ∀ c ∈ a.children, c = k ∨ k.label.stop ≤ c.label.start := by
  have hhead := ht.ambients a ha hkind
  have hnests := nests_of_mem_preorder ht.nests ha
  have horder := inOrder_of_mem_preorder ht.inOrder ha
  obtain ⟨⟨l, cs⟩, above⟩ := a
  cases cs with
  | nil => cases hhead
  | cons k ks =>
    simp only [Tree.children, List.head?_cons, Option.any_some, Bool.and_eq_true, Bool.not_eq_true',
      decide_eq_true_eq] at hhead
    rw [Tree.inOrder] at horder
    have hfollow := (List.pairwise_cons.1 (Tree.followInOrder_iff.1 horder).2).1
    have hk : (⟨k, .node l (k :: ks) :: above⟩ : Cursor) ∈
        (⟨.node l (k :: ks), above⟩ : Cursor).children := List.mem_cons_self ..
    refine ⟨_, hk, hhead.1, (within_of_mem_children hnests hk).1.1, hhead.2, fun c hc => ?_⟩
    rcases List.mem_cons.1 hc with rfl | hc
    · exact .inl rfl
    · obtain ⟨u, hu, rfl⟩ := List.mem_map.1 hc
      exact .inr (hfollow u hu)

/-- What a wrapper wraps starts later than the wrapper. -/
theorem start_lt_of_ambient {a c : Cursor} (ha : a ∈ preorder t)
    (hkind : a.kind = .ambientDeclaration) (hc : c ∈ a.children) (hnamed : c.kind.isNamed = true) :
    a.label.start < c.label.start := by
  obtain ⟨k, -, hk, hstart, hwide, hall⟩ := ht.exists_keyword_of_ambient ha hkind
  rcases hall c hc with rfl | hbehind
  · rw [hnamed] at hk
    cases hk
  · omega

/-- Nothing but the inner one of two wrappers lies where it lies. -/
theorem location_ne_of_ambient {a b d g : Cursor} (hd : d ∈ preorder t)
    (hnamed : d.kind.isNamed = true) (hwide : d.label.start < d.label.stop)
    (ha : d.ambient? = some a) (hb : a.ambient? = some b) (hg : g ∈ preorder t)
    (hkind : g.kind ≠ .ambientDeclaration) : g.location src ≠ a.location src := by
  obtain ⟨hparent, hakind⟩ := ambient?_eq_some_iff.1 ha
  obtain ⟨hparent', hbkind⟩ := ambient?_eq_some_iff.1 hb
  obtain ⟨ha, hda⟩ := mem_preorder_of_parent hd hparent
  obtain ⟨hb, hab⟩ := mem_preorder_of_parent ha hparent'
  have hbefore := ht.start_lt_of_ambient hb hbkind hab (by rw [hakind]; rfl)
  have hwithin := (within_of_mem_children (nests_of_mem_preorder ht.nests ha) hda).1
  intro hlocation
  have hstart : g.label.start = a.label.start := congrArg Location.startByte hlocation
  have hstop : g.label.stop = a.label.stop := congrArg Location.endByte hlocation
  unfold Within at hwithin
  rcases comparable ht.nests ht.inOrder ha hg with rfl | hag | hga | hapart
  · exact hkind hakind
  · -- Below the wrapper: in front of the declaration, or behind the keyword.
    obtain ⟨c, hc, hgc⟩ := exists_child_of_mem_ancestors hg hag
    have hgc : Within g c := by
      rcases hgc with rfl | hgc
      · exact ⟨Nat.le_refl _, Nat.le_refl _⟩
      · exact within_of_mem_ancestors ht.nests hg hgc
    unfold Within at hgc
    obtain ⟨k, -, hk, hkstart, hkwide, hall⟩ := ht.exists_keyword_of_ambient ha hakind
    rcases hall c hc with rfl | hbehind
    · rcases hall d hda with rfl | hbehind
      · rw [hnamed] at hk
        cases hk
      · omega
    · omega
  · -- Above the wrapper: the outer wrapper, or a node around it.
    rw [ancestors_of_parent hparent'] at hga
    rcases List.mem_cons.1 hga with rfl | hga
    · exact hkind hbkind
    · have hgb := within_of_mem_ancestors ht.nests hb hga
      unfold Within at hgb
      omega
  · unfold Apart at hapart
    omega

end Tree.IsRegular

/-! ## Agreement -/

namespace FileRecord

variable {w : Workshop} {path : String} {src : Source} {t : Tree}
  (ht : t.IsRegular (Language.ofPath path) src) (hknown : Language.ofPath path ≠ .unknown)

include ht hknown

/-- What an exported declaration declares is an exported symbol, at the statement around it unless
    it is buried. -/
theorem exists_symbol {e d : Cursor} (hd : d ∈ preorder t)
    (hexported : d.isExportedDeclaration = true) (he : Wraps e d) (hstacked : d.isStacked = false)
    {n : Cursor} {label : String} (hlabel : label ∈ declaredKinds) (h : Declares d label n) :
    ∃ s ∈ (FileRecord.ofTree w path src t).symbols, s.name = n.text src ∧ s.exported = true ∧
      s.kind.name = label ∧ s.location = e.location src := by
  have hdeclaration := ht.isDeclaration_of_label hd hexported hlabel h
  obtain ⟨hdecl, hisexported⟩ := h.declaration? hdeclaration
  obtain ⟨-, hs⟩ := ht.mem_symbols_of_declares hknown hd hdeclaration hexported hlabel h
  refine ⟨_, hs, rfl, hisexported.trans (exportWithin_iff.2 ⟨e, he⟩),
    SymbolKind.name_ofCategory hlabel, ?_⟩
  rw [Symbol.location_ofName hdecl, wrapper?_of_wraps he hstacked, Option.getD_some]

/-- Without buried declarations, what an export declares is an exported symbol. -/
theorem exists_symbol_of_mem_names (hburied : ∀ d ∈ preorder t, isBuried src d = false)
    {e : Export} (he : e ∈ (FileRecord.ofTree w path src t).exports)
    (hcommonjs : e.commonjs = false) (hform : e.form ≠ .default) {x : String × String}
    (hx : x ∈ e.names.entries) (hlabel : x.2 ∈ declaredKinds) :
    ∃ s ∈ (FileRecord.ofTree w path src t).symbols, s.name = x.1 ∧ s.exported = true ∧
      s.kind.name = x.2 ∧ s.location = e.location := by
  obtain ⟨c, hc, hexport, d, hd, hfield, rfl⟩ :=
    exists_ofDeclaration he hcommonjs hform hx hlabel
  have hdefault : ¬ c.node.hasToken "default" = true := by
    intro hdefault
    refine hform ?_
    simp only [ofDeclaration, exposeDeclaration, hdefault, if_true, exposeDefault]
    split <;> rfl
  have hnames : (ofDeclaration src c d).names = .ofList (declaredNames src d.node) := by
    simp only [ofDeclaration, exposeDeclaration, hdefault, if_false, Bool.false_eq_true]
  rw [hnames] at hx
  obtain ⟨b, hb, hwraps, hcases, hambient, hxb⟩ := exists_declaration
    (mem_preorder_of_mem_children hc hd) (.parent hexport (mem_children_iff.1 hd).1)
    (Dict.mem_ofList hx)
  have hwithin := exportWithin_iff.2 ⟨c, hwraps⟩
  have hexported : b.isExportedDeclaration = true := by
    rw [isExportedDeclaration, hwithin, Bool.true_and, Bool.or_eq_true, beq_iff_eq]
    rcases hcases with rfl | hcases
    · exact .inl hfield
    · exact .inr hcases
  obtain ⟨n, hdeclares, htext⟩ := (ht.mem_declaredNames_iff hb hexported hambient hlabel).1 hxb
  have hstacked : b.isStacked = false := isStacked_of_not_isBuried (hburied b hb)
    (ht.isDeclaration_of_label hb hexported hlabel hdeclares) hwithin hxb hlabel
  rw [htext]
  exact exists_symbol ht hknown hb hexported hwraps hstacked hlabel hdeclares

/-- Without buried declarations, exported symbols have their exports. -/
theorem exists_export_of_exported (hburied : ∀ d ∈ preorder t, isBuried src d = false)
    {s : Symbol} (hs : s ∈ (FileRecord.ofTree w path src t).symbols)
    (hexported : s.exported = true) :
    ∃ e ∈ (FileRecord.ofTree w path src t).exports, e.location = s.location ∧
      (e.names.contains s.name = true ∨
        e.form = .default ∧ e.aliases.get? "default" = some s.name) := by
  obtain ⟨c, hc, category, n, hnames, htext, kind, rfl⟩ := Symbol.exists_names_of_mem hknown hs
  obtain ⟨d, hd, hdeclaration, hd', label, hlabel, hdeclares⟩ :=
    ht.exists_declares_of_names hc hnames hexported
  obtain ⟨hdecl, hisexported⟩ := hdeclares.declaration? hdeclaration
  have hwithin := hisexported.symm.trans hexported
  obtain ⟨e, he⟩ := exportWithin_iff.1 hwithin
  have hambient : d.kind ≠ .ambientDeclaration := Kind.ne_of_isDeclaration hdeclaration rfl
  have hx : (n.text src, label) ∈ declaredNames src d.node :=
    (ht.mem_declaredNames_iff hd hd' hambient hlabel).2 ⟨n, hdeclares, rfl⟩
  have hstacked := isStacked_of_not_isBuried (hburied d hd) hdeclaration hwithin hx hlabel
  rw [Symbol.location_ofName hdecl, wrapper?_of_wraps he hstacked, Option.getD_some]
  exact ht.exists_record hknown hd hdeclaration hd' he hx htext

/-- The symbols of a buried declaration have no export. -/
theorem not_agrees_of_isBuried {d : Cursor} (hd : d ∈ preorder t)
    (hburied : isBuried src d = true) : ¬ (FileRecord.ofTree w path src t).Agrees := by
  obtain ⟨hdeclaration, hwithin, hstacked, x, hx, hlabel⟩ := isBuried_iff.1 hburied
  obtain ⟨a, b, ha, hb, hwrapper⟩ := wrapper?_of_isStacked hstacked
  have hexported : d.isExportedDeclaration = true := by
    rw [isExportedDeclaration, hwithin, ha]
    simp
  have hambient : d.kind ≠ .ambientDeclaration := Kind.ne_of_isDeclaration hdeclaration rfl
  obtain ⟨n, hdeclares, -⟩ := (ht.mem_declaredNames_iff hd hexported hambient hlabel).1 hx
  obtain ⟨hdecl, hisexported⟩ := hdeclares.declaration? hdeclaration
  obtain ⟨htext, hs⟩ :=
    ht.mem_symbols_of_declares hknown hd hdeclaration hexported hlabel hdeclares
  intro hagrees
  obtain ⟨e, he, hlocation, -⟩ := hagrees.exported _ hs (hisexported.trans hwithin)
  rw [Symbol.location_ofName hdecl, hwrapper, Option.getD_some] at hlocation
  obtain ⟨g, hg, hgkind, hglocation⟩ := exists_location he
  have hwide : d.label.start < d.label.stop := by
    have hn := start_lt_stop_of_text htext
    have hnd := within_of_mem_ancestors ht.nests (hdeclares.mem_preorder hd)
      (mem_of_declaration? hdecl).1
    unfold Within at hnd
    omega
  refine ht.location_ne_of_ambient hd (Kind.isNamed_of_isDeclaration hdeclaration) hwide ha hb hg ?_
    (hglocation.symm.trans hlocation)
  rintro hambient
  rw [hambient] at hgkind
  rcases hgkind with h | h <;> cases h

end FileRecord

/-- In a regular tree of a known grammar, symbols and exports agree exactly if no exported
    declaration stands within two `declare` wrappers. -/
theorem Session.extract_agrees_iff {path : String} (hpath : (Grammar.ofPath path).isKnown = true)
    {src : Source} {t : Tree} (ht : t.IsRegular (Language.ofPath path) src) (w : Workshop)
    (n : Nat) :
    ∃ r, (Session.extract (w.reading t) (.new n) path src).1 = .ok r ∧
      (r.Agrees ↔ ∀ d ∈ preorder t, isBuried src d = false) := by
  have hknown : Language.ofPath path ≠ .unknown := (Grammar.isKnown_iff _).1 hpath
  refine ⟨_, Session.extract_reading hpath w t src n, ?_⟩
  constructor
  · intro hagrees d hd
    refine Bool.eq_false_iff.2 fun hburied => ?_
    exact FileRecord.not_agrees_of_isBuried ht hknown hd hburied hagrees
  · intro hburied
    constructor
    · intro e he hcommonjs hform x hx hlabel
      exact FileRecord.exists_symbol_of_mem_names ht hknown hburied he hcommonjs hform hx hlabel
    · intro s hs hexported
      exact FileRecord.exists_export_of_exported ht hknown hburied hs hexported

/-! ## An exported constant within one wrapper, and within two -/

/-- The tree of `const x: number;`, from an offset on. -/
def constantAt (start : Nat) : Tree :=
  .node ⟨.lexicalDeclaration, none, false, start, start + 16⟩
    [.node ⟨.token "const", some (.other "kind"), false, start, start + 5⟩ [],
     .node ⟨.variableDeclarator, none, false, start + 6, start + 15⟩
      [.node ⟨.identifier, some .name, false, start + 6, start + 7⟩ [],
       .node ⟨.annotatedType, some .type, false, start + 7, start + 15⟩
        [.node ⟨.token ":", none, false, start + 7, start + 8⟩ [],
         .node ⟨.predefinedType, none, false, start + 9, start + 15⟩
          [.node ⟨.token "number", none, false, start + 9, start + 15⟩ []]]],
     .node ⟨.token ";", none, false, start + 15, start + 16⟩ []]

/-- A file that exports a constant from within a wrapper. -/
def wrappedSource : Source :=
  .ofString "export declare const x: number;\n"

/-- The tree of this file. -/
def wrappedConstant : Tree :=
  .node ⟨.other "program", none, false, 0, 32⟩
    [.node ⟨.exportStatement, none, false, 0, 31⟩
      [.node ⟨.token "export", none, false, 0, 6⟩ [],
       .node ⟨.ambientDeclaration, some .declaration, false, 7, 31⟩
        [.node ⟨.token "declare", none, false, 7, 14⟩ [], constantAt 15]]]

/-- With one wrapper, the symbol of the constant and its export agree. -/
theorem Session.extract_agrees_wrappedConstant :
    let w : Workshop := ⟨⟨fun _ _ => none⟩, .empty, .usual⟩
    (Grammar.ofPath "/abs/a.ts").isKnown = true ∧
      wrappedConstant.IsRegular (Language.ofPath "/abs/a.ts") wrappedSource ∧
      ∃ r, (Session.extract (w.reading wrappedConstant) (.new 1) "/abs/a.ts" wrappedSource).1 =
          .ok r ∧ r.Agrees := by
  intro w
  have hpath : (Grammar.ofPath "/abs/a.ts").isKnown = true := by decide
  have hregular : wrappedConstant.IsRegular (Language.ofPath "/abs/a.ts") wrappedSource := by
    constructor <;> decide +kernel
  obtain ⟨r, hr, hagrees⟩ := Session.extract_agrees_iff hpath hregular w 1
  exact ⟨hpath, hregular, r, hr, hagrees.2 (by decide +kernel)⟩

/-- A file that exports a constant from within two wrappers. -/
def stackedSource : Source :=
  .ofString "export declare declare const x: number;\n"

/-- The tree of this file. -/
def stackedConstant : Tree :=
  .node ⟨.other "program", none, false, 0, 40⟩
    [.node ⟨.exportStatement, none, false, 0, 39⟩
      [.node ⟨.token "export", none, false, 0, 6⟩ [],
       .node ⟨.ambientDeclaration, some .declaration, false, 7, 39⟩
        [.node ⟨.token "declare", none, false, 7, 14⟩ [],
         .node ⟨.ambientDeclaration, none, false, 15, 39⟩
          [.node ⟨.token "declare", none, false, 15, 22⟩ [], constantAt 23]]]]

/-- With two wrappers, they do not, though the tree is regular. -/
theorem Session.not_agrees_stackedConstant :
    let w : Workshop := ⟨⟨fun _ _ => none⟩, .empty, .usual⟩
    stackedConstant.IsRegular (Language.ofPath "/abs/a.ts") stackedSource ∧
      ∃ r, (Session.extract (w.reading stackedConstant) (.new 1) "/abs/a.ts" stackedSource).1 =
          .ok r ∧ ¬ r.Agrees := by
  intro w
  have hpath : (Grammar.ofPath "/abs/a.ts").isKnown = true := by decide
  have hregular : stackedConstant.IsRegular (Language.ofPath "/abs/a.ts") stackedSource := by
    constructor <;> decide +kernel
  have hburied : (preorder stackedConstant).any (isBuried stackedSource) = true := by decide +kernel
  obtain ⟨d, hd, hburied⟩ := List.any_eq_true.1 hburied
  refine ⟨hregular, _, Session.extract_reading hpath w _ _ 1, ?_⟩
  exact FileRecord.not_agrees_of_isBuried hregular ((Grammar.isKnown_iff _).1 hpath) hd hburied

end Outline
