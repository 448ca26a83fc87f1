import Outline.Proofs.StrippedMatches

/-!
# Which comments change what is extracted

The records of a tree and of the stripped tree have the same types. They have the same exports
unless an `export` statement takes a comment for something that is exported
(`Export.takesComment`), the same imports unless an `import` statement that binds nothing seems to
bind a comment (`Import.bindsComments`), and the same symbols unless a comment is taken for the
name of a parameter (`Signature.takesComment`).
-/

namespace Outline

open Cursor

/-! ## Symbols -/

namespace Symbol

/-- A capture is the first name of its span among some matches. -/
def Leads (ms : List Match) (c : Capture) : Prop :=
  ∃ pre post, ms.filterMap nameOf? = pre ++ c :: post ∧
    ∀ d ∈ pre, (d.site.label.start, d.site.label.stop) ≠ (c.site.label.start, c.site.label.stop)

/-- The symbol of a name, and its signature in the stripped tree. -/
def readBoth (src : Source) (c : Capture) : Found × Signature :=
  (⟨c.site.label.start, c.site.label.stop, ofName src c.site c.text (.ofCategory c.tag.category)⟩,
    signatureOf src (stripAt c.site))

/-- The symbol of a name in the stripped tree. -/
def strippedFound (x : Found × Signature) : Found :=
  { x.1 with symbol := x.1.symbol.withSignature x.2 }

/-- A name that is found again keeps its signature. -/
def settleBoth (first later : Found × Signature) : Found × Signature :=
  (first.1.settle later.1, first.2)

theorem withSignature_eq_self_iff {s : Symbol} {g : Signature} :
    s.withSignature g = s ↔
      g.visibility = s.visibility ∧ g.modifiers = s.modifiers ∧
        g.parameters.map Prod.fst = s.parameters ∧ g.parameters.map Prod.snd = s.parameterTypes ∧
        g.returnType = s.returnType := by
  obtain ⟨name, qualifiedName, kind, location, visibility, modifiers, parameters, types, result,
    exported⟩ := s
  simp [withSignature]

/-- Finding a name again does not decide whether its signature is the same in the stripped tree. -/
theorem foldl_settleBoth_iff (x : Found × Signature) (xs : List (Found × Signature)) :
    (xs.foldl settleBoth x).1.symbol.withSignature (xs.foldl settleBoth x).2 =
        (xs.foldl settleBoth x).1.symbol ↔ x.1.symbol.withSignature x.2 = x.1.symbol := by
  induction xs generalizing x with
  | nil => rfl
  | cons y ys ih =>
    rw [List.foldl_cons, ih, withSignature_eq_self_iff, withSignature_eq_self_iff]
    rfl

/-- The parameters of the function at a name that have a comment where their name is read are
    called the same without it. -/
def KeepsNames (src : Source) (c : Cursor) : Prop :=
  ∀ f, functionOf? c = some f → ∀ q ∈ Signature.patterns f, Signature.takesComment q = true →
    Signature.patternName src q.strip = Signature.patternName src q

theorem readBoth_iff {src : Source} {c : Capture} (hc : IsBare c.site) :
    (readBoth src c).1.symbol.withSignature (readBoth src c).2 = (readBoth src c).1.symbol ↔
      KeepsNames src c.site := by
  refine Iff.trans ?_ (parameters_strip_iff hc src)
  have hsame := signatureOf_strip hc src
  have hsymbol : (readBoth src c).1.symbol =
      (readBoth src c).1.symbol.withSignature (signatureOf src c.site) := rfl
  constructor
  · intro h
    obtain ⟨-, -, hnames, htypes, -⟩ := withSignature_eq_self_iff.1 h
    rw [hsymbol] at hnames htypes
    have hunzip : (signatureOf src (stripAt c.site)).parameters.unzip =
        (signatureOf src c.site).parameters.unzip := by
      rw [List.unzip_eq_map, List.unzip_eq_map]
      exact Prod.ext hnames htypes
    rw [← List.zip_unzip (signatureOf src (stripAt c.site)).parameters, hunzip, List.zip_unzip]
  · intro h
    have heq : (readBoth src c).2 = signatureOf src c.site := by
      rw [readBoth, hsame, h]
    rw [heq, ← hsymbol]

/-- Symbols are the same in the stripped tree exactly if no parameter changes its name. -/
theorem ofMatches_strip_iff {src : Source} {ms : List Match}
    (hms : ∀ m ∈ ms, ∀ k ∈ m.captures, IsBare k.site) :
    ofMatches src (ms.map (Match.through stripAt)) = ofMatches src ms ↔
      ∀ c, Leads ms c → KeepsNames src c.site := by
  set pairs := (ms.filterMap nameOf?).map (readBoth src) with hpairs
  have hfound : ms.filterMap (found? src) = pairs.map Prod.fst := by
    rw [hpairs, List.map_filterMap, List.map_filterMap]
    refine List.filterMap_congr fun m _ => ?_
    rw [found?, Option.map_map]
    rfl
  have hstripped : (ms.map (Match.through stripAt)).filterMap (found? src) =
      pairs.map strippedFound := by
    rw [hpairs, List.map_filterMap, List.map_filterMap, List.filterMap_map]
    refine List.filterMap_congr fun m hm => ?_
    rw [Function.comp_apply, found?, nameOf?_through, Option.map_map, Option.map_map]
    refine Option.map_congr fun c hc => ?_
    have hbare := hms m hm c (mem_of_nameOf? hc).1
    have hscope : ∀ a ∈ (c.site.declaration?.getD c.site).ancestors,
        scopeName? src (stripAt a) = scopeName? src a := by
      intro a ha
      refine scopeName?_strip (hbare.2 a ?_) src
      cases hd : c.site.declaration? with
      | none => rwa [hd] at ha
      | some d =>
        rw [hd] at ha
        exact mem_ancestors_trans (mem_of_declaration? hd).1 ha
    simp only [Function.comp_apply, Capture.through, faithful_stripAt.label,
      ofName_through faithful_stripAt hscope]
    rfl
  set found := gather (fun x => x.1.span) settleBoth pairs with hgather
  have hfst : gather Found.span Found.settle (pairs.map Prod.fst) = found.map Prod.fst :=
    (map_gather (fun _ => rfl) (fun _ _ => rfl) pairs).symm
  have hsnd : gather Found.span Found.settle (pairs.map strippedFound) = found.map strippedFound :=
    (map_gather (fun _ => rfl) (fun _ _ => rfl) pairs).symm
  rw [ofMatches_eq, ofMatches_eq, hfound, hstripped, hfst, hsnd,
    ← List.map_mergeSort (r := fun a b => decide (a.1.start ≤ b.1.start)) fun _ _ _ _ => rfl,
    ← List.map_mergeSort (r := fun a b => decide (a.1.start ≤ b.1.start)) fun _ _ _ _ => rfl,
    List.map_map, List.map_map, List.map_inj_left]
  have hjoin : ∀ a b : Found × Signature, (settleBoth a b).1.span = a.1.span := fun _ _ => rfl
  have hbare : ∀ c ∈ ms.filterMap nameOf?, IsBare c.site := by
    intro c hc
    obtain ⟨m, hm, hname⟩ := List.mem_filterMap.1 hc
    exact hms m hm c (mem_of_nameOf? hname).1
  constructor
  · rintro h c ⟨pre, post, hnames, hpre⟩
    have hmem : ((post.map (readBoth src)).filter fun y => y.1.span = (readBoth src c).1.span).foldl
        settleBoth (readBoth src c) ∈ found := by
      refine (mem_gather_iff hjoin).2
        ⟨pre.map (readBoth src), readBoth src c, post.map (readBoth src), ?_, ?_, rfl⟩
      · rw [hpairs, hnames, List.map_append, List.map_cons]
      · intro y hy
        obtain ⟨d, hd, rfl⟩ := List.mem_map.1 hy
        exact hpre d hd
    have hsame := (foldl_settleBoth_iff _ _).1 (h _ (List.mem_mergeSort.2 hmem))
    exact (readBoth_iff (hbare c (by simp [hnames]))).1 hsame
  · intro h z hz
    obtain ⟨pre', x, post', hsplit, hpre, rfl⟩ :=
      (mem_gather_iff hjoin).1 (List.mem_mergeSort.1 hz)
    obtain ⟨pre, rest, hnames, rfl, hrest⟩ := List.map_eq_append_iff.1 hsplit
    obtain ⟨c, post, rfl, rfl, rfl⟩ := List.map_eq_cons_iff.1 hrest
    refine (foldl_settleBoth_iff _ _).2 ((readBoth_iff (hbare c (by simp [hnames]))).2 ?_)
    exact h c ⟨pre, post, hnames, fun d hd => hpre _ (List.mem_map_of_mem hd)⟩

end Symbol

/-! ## Imports -/

namespace Import

/-- Whether an import match that names only a source gives no record because of comments: without
    them its statement binds nothing. -/
def countsComments (m : Match) : Bool :=
  m.hasCategory "import" && (m.firstOf? sourceFields).isSome &&
    (m.field? "namespace").isNone && (m.field? "default").isNone &&
    (m.withAlias? "named").isNone &&
    (m.field? "statement").any fun s => bindsComments s.site.node

variable {m : Match} (fs : FileSystem) (importer : String) (src : Source)

theorem ofMatch?_strip (hcategory : m.hasCategory "import" = true)
    (h : countsComments m = false) :
    ofMatch? fs importer src (m.through stripAt) = ofMatch? fs importer src m := by
  cases hsource : m.firstOf? sourceFields with
  | none => simp [ofMatch?, Match.firstOf?_through, hsource]
  | some source =>
    refine ofMatch?_through faithful_stripAt (fun k _ => k.site.node.tokensAgree_strip)
      (fun _ _ p _ _ => p.node.tokensAgree_strip) (fun hns hd hn s hs => ?_) fs importer src
    simp only [countsComments, hcategory, hsource, hns, hd, hn, hs, Option.isSome_some,
      Option.isNone_none, Option.any_some, Bool.true_and, bindsComments_eq, Bool.and_eq_false_iff,
      Bool.not_eq_false'] at h
    have hnode : (stripAt s.site).node = s.site.node.strip := rfl
    rw [hnode]
    rcases h with h | h
    · cases hstrip : bindsNames s.site.node.strip with
      | false => exact h.symm
      | true => rw [bindsNames_of_strip hstrip] at h; cases h
    · rw [h, bindsNames_of_strip h]

/-- Such a match gives a record in the stripped tree only. -/
theorem ofMatch?_of_countsComments (h : countsComments m = true) :
    ofMatch? fs importer src m = none ∧
      (ofMatch? fs importer src (m.through stripAt)).isSome = true := by
  simp only [countsComments, Bool.and_eq_true, Option.isNone_iff_eq_none] at h
  obtain ⟨⟨⟨⟨⟨-, hsource⟩, hns⟩, hd⟩, hn⟩, hstatement⟩ := h
  obtain ⟨source, hsource⟩ := Option.isSome_iff_exists.1 hsource
  cases hs : m.field? "statement" with
  | none => simp [hs] at hstatement
  | some s =>
    simp only [hs, Option.any_some, bindsComments_eq, Bool.and_eq_true,
      Bool.not_eq_true'] at hstatement
    have hnode : (stripAt s.site).node = s.site.node.strip := rfl
    constructor
    · simp [ofMatch?, binding?, hsource, hns, hd, hn, hs, hstatement.1]
    · simp [ofMatch?, binding?, Match.firstOf?_through, Match.field?_through,
        Match.withAlias?_through, hsource, hns, hd, hn, hs, Capture.through, hnode, hstatement.2]

/-- A match that gives no record because of comments is one of a rule that reports no name. -/
theorem not_isNaming_of_countsComments {r : Rule} {c : Cursor} {xs : List (Tag × Cursor)}
    (hxs : r.pattern.Takes c xs) (hks : m.captures = Rule.capturesOf src xs)
    (h : countsComments m = true) : isNaming r = false := by
  simp only [countsComments, Bool.and_eq_true, Option.isNone_iff_eq_none, Match.field?_eq_none_iff,
    Match.withAlias?_eq_none_iff, Match.hasCategory, List.any_eq_true, beq_iff_eq] at h
  obtain ⟨⟨⟨⟨⟨⟨k, hk, hcategory⟩, -⟩, hns⟩, hd⟩, hn⟩, -⟩ := h
  rw [isNaming, Bool.or_eq_false_iff]
  constructor
  · refine List.any_eq_false.2 fun tag htag => ?_
    obtain ⟨x, hx, rfl⟩ := Pattern.exists_of_tag_mem _ c xs hxs tag htag
    have hcapture : ⟨x.1, x.2.text src, x.2⟩ ∈ m.captures := hks ▸ List.mem_map_of_mem hx
    simp [hns _ hcapture, hd _ hcapture, hn _ hcapture]
  · rw [hks] at hk
    obtain ⟨x, hx, rfl⟩ := List.mem_map.1 hk
    have htag := Pattern.tag_mem_of_takes _ c xs hxs x hx
    exact List.all_eq_false.2 ⟨x.1, htag, by simpa using hcategory⟩

/-- What such a rule reports decides nothing beyond the statement. -/
theorem countsComments_eq {c : Cursor} {xs : List (Tag × Cursor)}
    (hks : m.captures = Rule.capturesOf src xs)
    (hxs : statementRule.pattern.Takes c xs ∨ requireRule.pattern.Takes c xs) :
    countsComments m = bindsComments c.node := by
  rcases hxs with hxs | hxs
  · obtain ⟨-, s, -, -, -, rfl⟩ := takes_statementRule.1 hxs
    simp [countsComments, Match.hasCategory, Match.firstOf?, Match.field?, Match.withAlias?,
      sourceFields, hks, Rule.capturesOf, ModuleRules.importAs]
  · obtain ⟨-, -, -, -, -, f, -, -, -, -, a, -, -, -, s, -, -, rfl⟩ := takes_requireRule.1 hxs
    simp [countsComments, Match.hasCategory, Match.firstOf?, Match.field?, Match.withAlias?,
      sourceFields, hks, Rule.capturesOf, ModuleRules.importAs]

/-- There are such matches at the statements that bind only comments. -/
theorem exists_countsComments_iff {language : Language} (hknown : language ≠ .unknown)
    {c : Cursor} :
    (∃ m ∈ Rule.matchesAt (Topic.modules.rules language) src c, countsComments m = true) ↔
      loadsModule src c.node = true ∧ bindsComments c.node = true := by
  rw [loadsModule_iff]
  constructor
  · rintro ⟨m, hm, h⟩
    obtain ⟨r, hr, xs, hxs, hallows, hks⟩ := Rule.exists_match_iff.1 ⟨m, hm, rfl⟩
    rcases eq_of_not_isNaming hr (not_isNaming_of_countsComments src hxs hks h) with rfl | rfl
    · exact ⟨.inl ⟨xs, hxs⟩, countsComments_eq src hks (.inl hxs) ▸ h⟩
    · exact ⟨.inr ⟨xs, hxs, hallows⟩, countsComments_eq src hks (.inr hxs) ▸ h⟩
  · rintro ⟨⟨xs, hxs⟩ | ⟨xs, hxs, hallows⟩, h⟩
    · have hrule : statementRule ∈ ModuleRules.javascript :=
        List.mem_of_getElem? (i := 4) rfl
      obtain ⟨m, hm, hks⟩ := Rule.exists_match_iff.2
        ⟨_, Topic.mem_rules_of_mem hknown hrule, xs, hxs, rfl, rfl⟩
      exact ⟨m, hm, (countsComments_eq src hks (.inl hxs)).trans h⟩
    · have hrule : requireRule ∈ ModuleRules.javascript :=
        List.mem_of_getElem? (i := 8) rfl
      obtain ⟨m, hm, hks⟩ := Rule.exists_match_iff.2
        ⟨_, Topic.mem_rules_of_mem hknown hrule, xs, hxs, hallows, rfl⟩
      exact ⟨m, hm, (countsComments_eq src hks (.inr hxs)).trans h⟩

/-- Imports are the same in the stripped tree exactly if no statement binds only comments. -/
theorem ofMatches_strip_iff (ms : List Match) :
    ofMatches fs importer src (ms.map (Match.through stripAt)) = ofMatches fs importer src ms ↔
      ∀ m ∈ ms, countsComments m = false := by
  have hcategory : ((·.hasCategory "import") ∘ Match.through stripAt) = (·.hasCategory "import") :=
    funext fun m => Match.hasCategory_through stripAt m "import"
  have hless : ∀ m ∈ ms.filter (·.hasCategory "import"), ofMatch? fs importer src m = none ∨
      ofMatch? fs importer src m = (ofMatch? fs importer src ∘ Match.through stripAt) m := by
    intro m hm
    cases h : countsComments m with
    | true => exact .inl (ofMatch?_of_countsComments fs importer src h).1
    | false => exact .inr (ofMatch?_strip fs importer src (List.mem_filter.1 hm).2 h).symm
  unfold ofMatches
  rw [List.filter_map, hcategory, List.filterMap_map, eq_comm, mergeSort_filterMap_eq_iff hless]
  constructor
  · intro heq m hm
    cases h : countsComments m with
    | false => rfl
    | true =>
      have himport : m.hasCategory "import" = true := by
        simp only [countsComments, Bool.and_eq_true] at h
        exact h.1.1.1.1.1
      obtain ⟨hnone, hsome⟩ := ofMatch?_of_countsComments fs importer src h
      have hboth : ofMatch? fs importer src m = ofMatch? fs importer src (m.through stripAt) :=
        heq m (List.mem_filter.2 ⟨hm, himport⟩)
      rw [← hboth, hnone] at hsome
      cases hsome
  · intro h m hm
    obtain ⟨hm, himport⟩ := List.mem_filter.1 hm
    exact (ofMatch?_strip fs importer src himport (h m hm)).symm

end Import

/-! ## Exports -/

namespace Export

variable (fs : FileSystem) (importer : String) {src : Source}

theorem exposeAssignment?_exports (src : Source) (value : Tree) :
    exposeAssignment? src "exports".toList value = some (exposeModule src value) := by
  have hpath : targetPath "exports".toList = "exports".toList := by decide
  unfold exposeAssignment?
  rw [hpath, if_pos rfl]

/-- A match that takes a comment is one of an export and gives a record. -/
theorem isSome_of_not_isSeen {language : Language} {c : Cursor} {m : Match} (hc : IsPlain c)
    (hm : m ∈ Rule.matchesAt (Topic.modules.rules language) src c)
    (hseen : m.isSeen Tree.isCode = false) :
    m.hasCategory "export" = true ∧ m.hasCategory "import" = false ∧
      (ofMatch? fs importer src m).isSome = true := by
  rcases (cases_of_not_isSeen hc hm hseen).2 with ⟨d, e, hks⟩ | ⟨d, hks⟩
  · refine ⟨?_, ?_, ?_⟩
    · simp [Match.hasCategory, hks, ModuleRules.exportAs]
    · simp [Match.hasCategory, hks, ModuleRules.exportAs]
    · have hassignment : isAssignment m = false :=
        (isAssignment_eq [ModuleRules.exportAs "statement", ModuleRules.exportAs "namespace",
          ModuleRules.exportAs "source"] (by rw [hks]; rfl)).trans (by decide)
      simp [ofMatch?, hassignment, ofStatement?, exposed?, Match.hasField, Match.field?, hks,
        ModuleRules.exportAs]
  · refine ⟨?_, ?_, ?_⟩
    · simp [Match.hasCategory, hks, ModuleRules.exportAs]
    · simp [Match.hasCategory, hks, ModuleRules.exportAs]
    · have hvalue : m.field? "commonjs_value" =
          some ⟨ModuleRules.exportAs "commonjs_value", d.text src, d⟩ := by
        rw [Match.field?, hks]
        rfl
      have htarget : m.field? "commonjs_target" = none := by
        rw [Match.field?, hks]
        rfl
      have hassignment : isAssignment m = true :=
        (isAssignment_eq [ModuleRules.exportAs "commonjs_statement",
          ModuleRules.exportAs "commonjs_value"] (by rw [hks]; rfl)).trans (by decide)
      rw [ofMatch?, if_pos hassignment, ofAssignment?, hvalue, htarget]
      simp only [Option.bind_eq_bind, Option.bind_some, Option.map_none, Option.getD_none,
        exposeAssignment?_exports]
      rfl

/-- Exports are the same in the stripped tree exactly if none captures a comment. -/
theorem ofMatches_strip_iff {ms : List Match} (hms : ∀ m ∈ ms, ∀ k ∈ m.captures, IsBare k.site)
    (hrecord : ∀ m ∈ ms, m.isSeen Tree.isCode = false →
      m.hasCategory "export" = true ∧ (ofMatch? fs importer src m).isSome = true) :
    ofMatches fs importer src ((ms.filter (Match.isSeen Tree.isCode)).map (Match.through stripAt)) =
        ofMatches fs importer src ms ↔ ∀ m ∈ ms, m.isSeen Tree.isCode = true := by
  have hthrough : ∀ m ∈ ms.filter (Match.isSeen Tree.isCode),
      ofMatch? fs importer src (m.through stripAt) = ofMatch? fs importer src m := by
    intro m hm
    refine ofMatch?_through faithful_stripAt (fun k hk => ?_)
      (fun _ _ p _ _ => p.node.tokensAgree_strip) fs importer
    exact Tree.readsAlike_strip (hms m (List.mem_filter.1 hm).1 k hk).1 src
  have hswap : (ms.filter (Match.isSeen Tree.isCode)).filter (·.hasCategory "export") =
      (ms.filter (·.hasCategory "export")).filter (Match.isSeen Tree.isCode) := by
    rw [List.filter_filter, List.filter_filter]
    simp only [Bool.and_comm]
  unfold ofMatches
  rw [filterMap_category_through hthrough, hswap, List.filterMap_filter,
    mergeSort_filterMap_eq_iff]
  · constructor
    · intro heq m hm
      cases hseen : m.isSeen Tree.isCode with
      | true => rfl
      | false =>
        obtain ⟨hexport, hsome⟩ := hrecord m hm hseen
        have hnone := heq m (List.mem_filter.2 ⟨hm, hexport⟩)
        rw [hseen, if_neg Bool.false_ne_true] at hnone
        rw [← hnone] at hsome
        cases hsome
    · intro h m hm
      rw [if_pos (h m (List.mem_filter.1 hm).1)]
  · intro m _
    cases m.isSeen Tree.isCode with
    | true => exact .inr (if_pos rfl)
    | false => exact .inl (if_neg Bool.false_ne_true)

end Export

/-! ## The record of a stripped tree -/

section Record

variable {t : Tree} (hcode : t.isCode = true) (hbare : t.bareComments = true)
  {language : Language} (fs : FileSystem) (importer : String) (src : Source)

include hcode hbare

theorem Import.ofMatches_matchesIn_strip_iff (hknown : language ≠ .unknown) :
    Import.ofMatches fs importer src
          (Rule.matchesIn (Topic.modules.rules language) src t.strip) =
        Import.ofMatches fs importer src (Rule.matchesIn (Topic.modules.rules language) src t) ↔
      ∀ c ∈ preorder t, Import.loadsModule src c.node = true →
        Import.bindsComments c.node = false := by
  set ms := Rule.matchesIn (Topic.modules.rules language) src t
  have hunseen : ∀ m ∈ ms, m.isSeen Tree.isCode = false → m.hasCategory "import" = false := by
    intro m hm hseen
    obtain ⟨c, hc, hm⟩ := List.mem_flatMap.1 hm
    have hplain := isPlain_of_mem_preorder hcode hbare hc
    exact (Export.isSome_of_not_isSeen fs importer hplain hm hseen).2.1
  have hsame : Import.ofMatches fs importer src (ms.filter (Match.isSeen Tree.isCode)) =
      Import.ofMatches fs importer src ms := by
    unfold Import.ofMatches
    rw [List.filter_filter]
    refine congrArg (fun xs => List.mergeSort (List.filterMap _ xs) _)
      (List.filter_congr fun m hm => ?_)
    cases hseen : m.isSeen Tree.isCode with
    | true => rw [Bool.and_true]
    | false => rw [hunseen m hm hseen, Bool.and_false]
  rw [matchesIn_strip hcode hbare, ← hsame, Import.ofMatches_strip_iff]
  constructor
  · intro h c hc hloads
    refine Bool.eq_false_iff.2 fun hbinds => ?_
    obtain ⟨m, hm, hcounts⟩ := (Import.exists_countsComments_iff src hknown).2 ⟨hloads, hbinds⟩
    have hmem : m ∈ ms := List.mem_flatMap.2 ⟨c, hc, hm⟩
    cases hseen : m.isSeen Tree.isCode with
    | true =>
      rw [h m (List.mem_filter.2 ⟨hmem, hseen⟩)] at hcounts
      cases hcounts
    | false => simp [Import.countsComments, hunseen m hmem hseen] at hcounts
  · intro h m hm
    obtain ⟨c, hc, hm⟩ := List.mem_flatMap.1 (List.mem_filter.1 hm).1
    refine Bool.eq_false_iff.2 fun hcounts => ?_
    obtain ⟨hloads, hbinds⟩ := (Import.exists_countsComments_iff src hknown).1 ⟨m, hm, hcounts⟩
    rw [h c hc hloads] at hbinds
    cases hbinds

theorem Export.ofMatches_matchesIn_strip_iff (hknown : language ≠ .unknown) :
    Export.ofMatches fs importer src
          (Rule.matchesIn (Topic.modules.rules language) src t.strip) =
        Export.ofMatches fs importer src (Rule.matchesIn (Topic.modules.rules language) src t) ↔
      ∀ c ∈ preorder t, c.kind = .exportStatement →
        Export.takesComment language c.node = false := by
  have hplain : ∀ c ∈ preorder t, IsPlain c := fun c hc => isPlain_of_mem_preorder hcode hbare hc
  rw [matchesIn_strip hcode hbare, Export.ofMatches_strip_iff]
  · constructor
    · intro h c hc hkind
      cases htakes : Export.takesComment language c.node with
      | false => rfl
      | true =>
        obtain ⟨m, hm, hseen⟩ := Export.exists_not_isSeen src hknown hkind htakes
        rw [h m (List.mem_flatMap.2 ⟨c, hc, hm⟩)] at hseen
        cases hseen
    · intro h m hm
      obtain ⟨c, hc, hm⟩ := List.mem_flatMap.1 hm
      cases hseen : m.isSeen Tree.isCode with
      | true => rfl
      | false =>
        obtain ⟨⟨hkind, htakes⟩, -⟩ := Export.cases_of_not_isSeen (hplain c hc) hm hseen
        rw [h c hc hkind] at htakes
        cases htakes
  · exact fun m hm => isBare_of_mem_matchesIn hbare hm
  · intro m hm hseen
    obtain ⟨c, hc, hm⟩ := List.mem_flatMap.1 hm
    obtain ⟨hexport, -, hsome⟩ :=
      Export.isSome_of_not_isSeen fs importer (hplain c hc) hm hseen
    exact ⟨hexport, hsome⟩

end Record

/-- A file and the same file without its comments give the same types. They give the same symbols
    exactly if no parameter changes its name, the same imports exactly if no statement that loads a
    module binds only comments, and the same exports exactly if no export takes a comment. -/
theorem Session.extract_strip {path : String} (hpath : (Grammar.ofPath path).isKnown = true)
    {t : Tree} (hcode : t.isCode = true) (hbare : t.bareComments = true)
    (w : Workshop) (src : Source) (n : Nat) :
    ∃ r r' : FileRecord,
      (Session.extract (w.reading t) (.new n) path src).1 = .ok r ∧
      (Session.extract (w.reading t.strip) (.new n) path src).1 = .ok r' ∧
      r'.types = r.types ∧
      (r'.symbols = r.symbols ↔
        ∀ c, Symbol.Leads (Rule.matchesIn (Topic.symbols.rules (Language.ofPath path)) src t) c →
          Symbol.KeepsNames src c.site) ∧
      (r'.imports = r.imports ↔
        ∀ c ∈ preorder t, Import.loadsModule src c.node = true →
          Import.bindsComments c.node = false) ∧
      (r'.exports = r.exports ↔
        ∀ c ∈ preorder t, c.kind = .exportStatement →
          Export.takesComment (Language.ofPath path) c.node = false) := by
  refine ⟨_, _, Session.extract_reading hpath w t src n, Session.extract_reading hpath w _ src n,
    ?_, ?_, ?_, ?_⟩
  · simp only [FileRecord.ofTree]
    rw [matchesIn_strip_of_skips hcode hbare (Topic.types_skipComments _),
      Typing.ofMatches_through faithful_stripAt]
  · simp only [FileRecord.ofTree]
    rw [matchesIn_strip_of_skips hcode hbare (Topic.symbols_skipComments _)]
    exact Symbol.ofMatches_strip_iff fun m hm => isBare_of_mem_matchesIn hbare hm
  · exact Import.ofMatches_matchesIn_strip_iff hcode hbare w.files path src
      ((Grammar.isKnown_iff _).1 hpath)
  · exact Export.ofMatches_matchesIn_strip_iff hcode hbare w.files path src
      ((Grammar.isKnown_iff _).1 hpath)

/-! ## An import of nothing but a comment -/

/-- The source of a file that imports a module for its effects, with a comment in the braces. -/
def commentedSource : Source :=
  .ofString "import \x7b /* only comment */ \x7d from './oc';\n"

/-- The tree of this file. -/
def commentedImport : Tree :=
  .node ⟨.other "program", none, false, 0, 43⟩
    [.node ⟨.importStatement, none, false, 0, 42⟩
      [.node ⟨.token "import", none, false, 0, 6⟩ [],
       .node ⟨.importClause, none, false, 7, 29⟩
        [.node ⟨.namedImports, none, false, 7, 29⟩
          [.node ⟨.token "\x7b", none, false, 7, 8⟩ [],
           .node ⟨.comment, none, false, 9, 27⟩ [],
           .node ⟨.token "\x7d", none, false, 28, 29⟩ []]],
       .node ⟨.token "from", none, false, 30, 34⟩ [],
       .node ⟨.stringLiteral, some .source, false, 35, 41⟩
        [.node ⟨.token "'", none, false, 35, 36⟩ [],
         .node ⟨.other "string_fragment", none, false, 36, 40⟩ [],
         .node ⟨.token "'", none, false, 40, 41⟩ []],
       .node ⟨.token ";", none, false, 41, 42⟩ []]]

theorem exists_bindsComments_commentedImport :
    ∃ c ∈ preorder commentedImport, Import.loadsModule commentedSource c.node = true ∧
      Import.bindsComments c.node = true := by
  have h : (preorder commentedImport).any (fun c =>
      Import.loadsModule commentedSource c.node && Import.bindsComments c.node) = true := by
    decide +kernel
  simpa using h

/-- The comment changes only the imports of this file. -/
theorem Session.extract_strip_commentedImport :
    let w : Workshop := ⟨⟨fun _ _ => none⟩, .empty, .usual⟩
    (Grammar.ofPath "/abs/main.cts").isKnown = true ∧ commentedImport.isCode = true ∧
      commentedImport.bareComments = true ∧
      ∃ r r' : FileRecord,
        (Session.extract (w.reading commentedImport) (.new 1) "/abs/main.cts"
          commentedSource).1 = .ok r ∧
        (Session.extract (w.reading commentedImport.strip) (.new 1) "/abs/main.cts"
          commentedSource).1 = .ok r' ∧
        r'.types = r.types ∧ r'.symbols = r.symbols ∧ r'.imports ≠ r.imports ∧
        r'.exports = r.exports := by
  intro w
  have hpath : (Grammar.ofPath "/abs/main.cts").isKnown = true := by decide
  have hcode : commentedImport.isCode = true := by decide
  have hbare : commentedImport.bareComments = true := by decide
  obtain ⟨r, r', hr, hr', htypes, hsymbols, himports, hexports⟩ :=
    Session.extract_strip hpath hcode hbare w commentedSource 1
  refine ⟨hpath, hcode, hbare, r, r', hr, hr', htypes, hsymbols.2 ?_, ?_, hexports.2 ?_⟩
  · have hnone : Rule.matchesIn (Topic.symbols.rules (Language.ofPath "/abs/main.cts"))
        commentedSource commentedImport = [] := by decide +kernel
    rintro c ⟨pre, post, hnames, -⟩
    simp [hnone] at hnames
  · intro heq
    obtain ⟨c, hc, hloads, hbinds⟩ := exists_bindsComments_commentedImport
    rw [himports.1 heq c hc hloads] at hbinds
    cases hbinds
  · have hnone : (preorder commentedImport).all (·.kind != .exportStatement) = true := by decide
    intro c hc hkind
    exact absurd hkind (by simpa using List.all_eq_true.1 hnone c hc)

/-- A comment in the braces hides the import. -/
theorem Session.imports_ne_commentedImport :
    let w : Workshop := ⟨⟨fun _ _ => none⟩, .empty, .usual⟩
    ∃ r r' : FileRecord,
      (Session.extract (w.reading commentedImport) (.new 1) "/abs/main.cts"
        commentedSource).1 = .ok r ∧
      (Session.extract (w.reading commentedImport.strip) (.new 1) "/abs/main.cts"
        commentedSource).1 = .ok r' ∧
      r'.imports ≠ r.imports := by
  intro w
  have hpath : (Grammar.ofPath "/abs/main.cts").isKnown = true := by decide
  refine ⟨_, _, Session.extract_reading hpath w _ _ 1, Session.extract_reading hpath w _ _ 1, ?_⟩
  intro heq
  have hkept := (Import.ofMatches_matchesIn_strip_iff (by decide) (by decide) w.files
    "/abs/main.cts" commentedSource (by decide)).1 heq
  obtain ⟨c, hc, hloads, hbinds⟩ := exists_bindsComments_commentedImport
  rw [hkept c hc hloads] at hbinds
  cases hbinds

end Outline
