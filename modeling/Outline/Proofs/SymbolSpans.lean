import Outline.Proofs.RegularTrees

/-!
# One symbol for each span

Whatever the matches are, they give one symbol for each span that they name: that of the first match
there, which becomes a function if it is a variable or a constant and some match there names a
function (`exists_heads`). If all matches at a span name one node, as a function or else as one
other thing, then their order does not matter (`ofMatches_of_perm`), and this is so for the matches
that the rules for symbols have in a tree (`areSettled_namesIn`).
-/

namespace Outline

open Cursor SymbolRules

/-- The span of a captured node. -/
def Capture.span (c : Capture) : Nat × Nat :=
  (c.site.label.start, c.site.label.stop)

/-- What a captured name is taken for. -/
def Capture.symbolKind (c : Capture) : SymbolKind :=
  .ofCategory c.tag.category

namespace Symbol

/-- What the first captured name of a span is taken for in the end. If it is a variable or a
    constant, a function at the span comes later. -/
def kindAmong (cs : List Capture) (c : Capture) : SymbolKind :=
  if (c.symbolKind = .plainVariable ∨ c.symbolKind = .constant) ∧
      ∃ d ∈ cs, d.span = c.span ∧ d.symbolKind = .function then .function
  else c.symbolKind

/-- The symbol of the first captured name of a span. -/
def ofFirst (src : Source) (cs : List Capture) (c : Capture) : Symbol :=
  ofName src c.site c.text (kindAmong cs c)

/-- Some captures are the first ones of all spans, each once, sorted by where they start. -/
structure Heads (cs fs : List Capture) : Prop where
  first : ∀ c, c ∈ fs ↔ cs.find? (fun d => d.span == c.span) = some c
  once : (fs.map Capture.span).Nodup
  sorted : fs.Pairwise fun c d => c.site.label.start ≤ d.site.label.start

/-! ## The first captures -/

theorem foldl_settleKind_eq (first : SymbolKind) (later : List SymbolKind) :
    later.foldl settleKind first =
      if (first = .plainVariable ∨ first = .constant) ∧ .function ∈ later then .function
      else first := by
  induction later generalizing first with
  | nil => simp
  | cons k ks ih =>
    rw [List.foldl_cons, ih, settleKind]
    by_cases hfirst : first = .plainVariable ∨ first = .constant
    · by_cases hk : k = .function
      · simp [hfirst, hk]
      · simp [hfirst, hk, Ne.symm hk]
    · simp [hfirst]

/-- A captured name with what it is taken for so far. -/
structure Reading where
  name : Capture
  kind : SymbolKind

namespace Reading

def ofCapture (c : Capture) : Reading :=
  ⟨c, c.symbolKind⟩

def span (r : Reading) : Nat × Nat :=
  r.name.span

def settle (first later : Reading) : Reading :=
  { first with kind := settleKind first.kind later.kind }

theorem span_settle (first later : Reading) : (first.settle later).span = first.span := rfl

def found (src : Source) (r : Reading) : Found :=
  ⟨r.name.site.label.start, r.name.site.label.stop, ofName src r.name.site r.name.text r.kind⟩

theorem foldl_settle (r : Reading) (rs : List Reading) :
    rs.foldl settle r = ⟨r.name, (rs.map (·.kind)).foldl settleKind r.kind⟩ := by
  induction rs generalizing r with
  | nil => rfl
  | cons s rs ih =>
    rw [List.foldl_cons, ih]
    rfl

end Reading

/-- The readings of captured names, one for each span. -/
def readings (cs : List Capture) : List Reading :=
  gather Reading.span Reading.settle (cs.map .ofCapture)

theorem ofMatches_eq_readings (src : Source) (ms : List Match) :
    ofMatches src ms =
      ((readings (ms.filterMap nameOf?)).mergeSort fun a b =>
        decide (a.name.site.label.start ≤ b.name.site.label.start)).map
          fun r => ofName src r.name.site r.name.text r.kind := by
  have hfound : ms.filterMap (found? src) =
      ((ms.filterMap nameOf?).map Reading.ofCapture).map (Reading.found src) := by
    rw [List.map_map, List.map_filterMap]
    rfl
  have hgather : gather Found.span Found.settle (ms.filterMap (found? src)) =
      (readings (ms.filterMap nameOf?)).map (Reading.found src) := by
    rw [hfound]
    exact (map_gather (fun _ => rfl) (fun _ _ => rfl) _).symm
  have hsort : ((readings (ms.filterMap nameOf?)).map (Reading.found src)).mergeSort
        (fun a b => decide (a.start ≤ b.start)) =
      ((readings (ms.filterMap nameOf?)).mergeSort fun a b =>
        decide (a.name.site.label.start ≤ b.name.site.label.start)).map (Reading.found src) := by
    symm
    apply List.map_mergeSort
    intro a _ b _
    rfl
  rw [ofMatches_eq, hgather, hsort, List.map_map]
  rfl

theorem kindAmong_split {pre post : List Capture} {c : Capture}
    (hpre : ∀ d ∈ pre, d.span ≠ c.span) :
    (((post.map Reading.ofCapture).filter fun r => r.span = c.span).map (·.kind)).foldl settleKind
      c.symbolKind = kindAmong (pre ++ c :: post) c := by
  rw [foldl_settleKind_eq, kindAmong]
  by_cases hc : c.symbolKind = .plainVariable ∨ c.symbolKind = .constant
  · have hne : c.symbolKind ≠ .function := by
      intro h
      rw [h] at hc
      rcases hc with hc | hc
      · cases hc
      · cases hc
    have hmem : SymbolKind.function ∈
        ((post.map Reading.ofCapture).filter fun r => r.span = c.span).map (·.kind) ↔
          ∃ d ∈ pre ++ c :: post, d.span = c.span ∧ d.symbolKind = .function := by
      constructor
      · intro h
        obtain ⟨r, hr, hkind⟩ := List.mem_map.1 h
        obtain ⟨hr, hspan⟩ := List.mem_filter.1 hr
        obtain ⟨d, hd, rfl⟩ := List.mem_map.1 hr
        exact ⟨d, by simp [hd], of_decide_eq_true hspan, hkind⟩
      · rintro ⟨d, hd, hspan, hkind⟩
        -- The span is new at `c`, which is no function, so `d` comes later.
        rcases List.mem_append.1 hd with hd | hd
        · exact absurd hspan (hpre d hd)
        · rcases List.mem_cons.1 hd with rfl | hd
          · exact absurd hkind hne
          · exact List.mem_map.2 ⟨.ofCapture d, List.mem_filter.2
              ⟨List.mem_map_of_mem hd, decide_eq_true hspan⟩, hkind⟩
    simp only [hc, true_and, hmem]
  · simp only [hc, false_and]

theorem exists_split_iff {cs : List Capture} {c : Capture} :
    cs.find? (fun d => d.span == c.span) = some c ↔
      ∃ pre post, cs = pre ++ c :: post ∧ ∀ d ∈ pre, d.span ≠ c.span := by
  rw [List.find?_eq_some_iff_append]
  simp

/-- A reading is that of the first capture of its span. -/
theorem mem_readings_iff {cs : List Capture} {r : Reading} :
    r ∈ readings cs ↔
      cs.find? (fun d => d.span == r.name.span) = some r.name ∧ r.kind = kindAmong cs r.name := by
  rw [readings, mem_gather_iff Reading.span_settle, exists_split_iff]
  constructor
  · rintro ⟨pre, x, post, hsplit, hpre, rfl⟩
    obtain ⟨pre, rest, rfl, rfl, hrest⟩ := List.map_eq_append_iff.1 hsplit
    obtain ⟨c, post, rfl, rfl, rfl⟩ := List.map_eq_cons_iff.1 hrest
    have hpre : ∀ d ∈ pre, d.span ≠ c.span := fun d hd => hpre _ (List.mem_map_of_mem hd)
    rw [Reading.foldl_settle]
    exact ⟨⟨pre, post, rfl, hpre⟩, kindAmong_split hpre⟩
  · rintro ⟨⟨pre, post, rfl, hpre⟩, hkind⟩
    refine ⟨pre.map .ofCapture, .ofCapture r.name, post.map .ofCapture, by simp, ?_, ?_⟩
    · intro y hy
      obtain ⟨d, hd, rfl⟩ := List.mem_map.1 hy
      exact hpre d hd
    · obtain ⟨c, kind⟩ := r
      rw [Reading.foldl_settle]
      exact congrArg (Reading.mk c) (hkind.trans (kindAmong_split hpre).symm)

/-- The first captures of all spans, and the symbols that they give. -/
theorem exists_heads (src : Source) (ms : List Match) :
    ∃ fs, Heads (ms.filterMap nameOf?) fs ∧
      ofMatches src ms = fs.map (ofFirst src (ms.filterMap nameOf?)) := by
  rw [ofMatches_eq_readings]
  generalize ms.filterMap nameOf? = cs
  have hmem : ∀ r, r ∈ (readings cs).mergeSort (fun a b =>
      decide (a.name.site.label.start ≤ b.name.site.label.start)) ↔ r ∈ readings cs :=
    fun r => List.mem_mergeSort
  have hsorted := List.pairwise_mergeSort (start_trans fun r : Reading => r.name.site.label.start)
    (start_total fun r : Reading => r.name.site.label.start) (readings cs)
  have hperm := List.mergeSort_perm (readings cs) fun a b =>
    decide (a.name.site.label.start ≤ b.name.site.label.start)
  generalize (readings cs).mergeSort (fun a b =>
    decide (a.name.site.label.start ≤ b.name.site.label.start)) = rs at hmem hsorted hperm
  refine ⟨rs.map (·.name), ⟨?_, ?_, ?_⟩, ?_⟩
  · intro c
    rw [List.mem_map]
    constructor
    · rintro ⟨r, hr, rfl⟩
      exact (mem_readings_iff.1 ((hmem r).1 hr)).1
    · intro hfirst
      exact ⟨⟨c, kindAmong cs c⟩, (hmem _).2 (mem_readings_iff.2 ⟨hfirst, rfl⟩), rfl⟩
  · rw [List.map_map]
    exact (hperm.map Reading.span).nodup_iff.2 (nodup_keys_gather Reading.span_settle _)
  · rw [List.pairwise_map]
    exact hsorted.imp of_decide_eq_true
  · rw [List.map_map]
    refine List.map_congr_left fun r hr => ?_
    rw [(mem_readings_iff.1 ((hmem r).1 hr)).2]
    rfl

/-! ## The order of matches -/

/-- Captured names of which those at one span are one node, which is taken for one thing, or for a
    function and one other thing. No two spans start at one place. -/
structure AreSettled (cs : List Capture) : Prop where
  same : ∀ c ∈ cs, ∀ d ∈ cs, c.span = d.span → c.site = d.site ∧ c.text = d.text
  starts : ∀ c ∈ cs, ∀ d ∈ cs, c.site.label.start = d.site.label.start → c.span = d.span
  kinds : ∀ c ∈ cs, (∀ d ∈ cs, d.span = c.span → d.symbolKind = c.symbolKind) ∨
    (∀ d ∈ cs, d.span = c.span → d.symbolKind = .function ∨ d.symbolKind = .constant) ∨
    (∀ d ∈ cs, d.span = c.span → d.symbolKind = .function ∨ d.symbolKind = .plainVariable)

theorem kindAmong_of_perm {cs cs' : List Capture} (h : cs'.Perm cs) (c : Capture) :
    kindAmong cs' c = kindAmong cs c := by
  simp only [kindAmong, h.mem_iff]

/-- A variable or constant that may also be a function. -/
theorem kindAmong_of_mem {cs : List Capture} {c : Capture} {other : SymbolKind}
    (hother : other = .plainVariable ∨ other = .constant) (hc : c ∈ cs)
    (hkind : c.symbolKind = .function ∨ c.symbolKind = other) :
    kindAmong cs c =
      if ∃ d ∈ cs, d.span = c.span ∧ d.symbolKind = .function then .function else other := by
  unfold kindAmong
  rcases hkind with hkind | hkind
  · have hfunction : ∃ d ∈ cs, d.span = c.span ∧ d.symbolKind = .function := ⟨c, hc, rfl, hkind⟩
    have hne : ¬ (c.symbolKind = .plainVariable ∨ c.symbolKind = .constant) := by
      rw [hkind]
      decide
    rw [if_neg fun h => hne h.1, if_pos hfunction, hkind]
  · simp only [hkind, hother, true_and]

theorem AreSettled.kindAmong_eq {cs : List Capture} (hcs : AreSettled cs) {c d : Capture}
    (hc : c ∈ cs) (hd : d ∈ cs) (hspan : c.span = d.span) : kindAmong cs c = kindAmong cs d := by
  rcases hcs.kinds c hc with hkinds | hkinds | hkinds
  · rw [kindAmong, kindAmong, hspan, hkinds d hd hspan.symm]
  · rw [kindAmong_of_mem (.inr rfl) hc (hkinds c hc rfl),
      kindAmong_of_mem (.inr rfl) hd (hkinds d hd hspan.symm), hspan]
  · rw [kindAmong_of_mem (.inl rfl) hc (hkinds c hc rfl),
      kindAmong_of_mem (.inl rfl) hd (hkinds d hd hspan.symm), hspan]

theorem AreSettled.ofFirst_eq {cs : List Capture} (hcs : AreSettled cs) (src : Source)
    {c d : Capture} (hc : c ∈ cs) (hd : d ∈ cs) (hspan : c.span = d.span) :
    ofFirst src cs c = ofFirst src cs d := by
  obtain ⟨hsite, htext⟩ := hcs.same c hc d hd hspan
  rw [ofFirst, ofFirst, hsite, htext, hcs.kindAmong_eq hc hd hspan]

theorem Heads.mem {cs fs : List Capture} (h : Heads cs fs) {c : Capture} (hc : c ∈ fs) : c ∈ cs :=
  List.mem_of_find?_eq_some ((h.first c).1 hc)

theorem exists_capture_of_mem {src : Source} {ms : List Match} {s : Symbol}
    (hs : s ∈ ofMatches src ms) :
    ∃ c ∈ ms.filterMap nameOf?, ∃ kind, s = ofName src c.site c.text kind := by
  obtain ⟨fs, hfs, heq⟩ := exists_heads src ms
  rw [heq] at hs
  obtain ⟨c, hc, rfl⟩ := List.mem_map.1 hs
  exact ⟨c, hfs.mem hc, _, rfl⟩

theorem exists_match_of_mem {src : Source} {ms : List Match} {s : Symbol}
    (hs : s ∈ ofMatches src ms) :
    ∃ m ∈ ms, ∃ c kind, m.field? "name" = some c ∧ s = ofName src c.site c.text kind := by
  obtain ⟨c, hc, kind, rfl⟩ := exists_capture_of_mem hs
  obtain ⟨m, hm, hname⟩ := List.mem_filterMap.1 hc
  exact ⟨m, hm, c, kind, (Option.filter_eq_some_iff.1 hname).1, rfl⟩

theorem Heads.mem_spans_iff {cs fs : List Capture} (h : Heads cs fs) {s : Nat × Nat} :
    s ∈ fs.map Capture.span ↔ s ∈ cs.map Capture.span := by
  rw [List.mem_map, List.mem_map]
  constructor
  · rintro ⟨c, hc, rfl⟩
    exact ⟨c, h.mem hc, rfl⟩
  · rintro ⟨c, hc, rfl⟩
    have hsome : (cs.find? fun d => d.span == c.span).isSome = true :=
      List.find?_isSome.2 ⟨c, hc, beq_self_eq_true _⟩
    obtain ⟨d, hd⟩ := Option.isSome_iff_exists.1 hsome
    have hspan : d.span = c.span := by simpa using List.find?_some hd
    rw [← hspan] at hd
    exact ⟨d, (h.first d).2 hd, hspan⟩

/-- The spans come in one order only. -/
theorem Heads.spans_eq {cs cs' fs fs' : List Capture} (hcs : AreSettled cs) (hperm : cs'.Perm cs)
    (h : Heads cs fs) (h' : Heads cs' fs') : fs'.map Capture.span = fs.map Capture.span := by
  have hmem : ∀ s, s ∈ fs'.map Capture.span ↔ s ∈ fs.map Capture.span := by
    intro s
    rw [h.mem_spans_iff, h'.mem_spans_iff]
    exact (hperm.map Capture.span).mem_iff
  have hspans := (List.perm_ext_iff_of_nodup h'.once h.once).2 hmem
  have hsorted : (fs.map Capture.span).Pairwise fun s t => s.1 ≤ t.1 :=
    List.pairwise_map.2 h.sorted
  have hsorted' : (fs'.map Capture.span).Pairwise fun s t => s.1 ≤ t.1 :=
    List.pairwise_map.2 h'.sorted
  refine hspans.eq_of_pairwise ?_ hsorted' hsorted
  intro s t hs ht hst hts
  obtain ⟨c, hc, rfl⟩ := List.mem_map.1 ((hmem s).1 hs)
  obtain ⟨d, hd, rfl⟩ := List.mem_map.1 ht
  exact hcs.starts c (h.mem hc) d (h.mem hd) (Nat.le_antisymm hst hts)

theorem map_eq_of_keys {α β κ : Type} {key : α → κ} {f : α → β} {xs ys : List α}
    (h : xs.map key = ys.map key) (hf : ∀ x ∈ xs, ∀ y ∈ ys, key x = key y → f x = f y) :
    xs.map f = ys.map f := by
  induction xs generalizing ys with
  | nil =>
    cases ys with
    | nil => rfl
    | cons y ys => cases h
  | cons x xs ih =>
    cases ys with
    | nil => cases h
    | cons y ys =>
      obtain ⟨hkey, hkeys⟩ := List.cons.inj h
      rw [List.map_cons, List.map_cons,
        hf x (List.mem_cons_self ..) y (List.mem_cons_self ..) hkey,
        ih hkeys fun a ha b hb => hf a (List.mem_cons_of_mem _ ha) b (List.mem_cons_of_mem _ hb)]

theorem ofMatches_of_perm {src : Source} {ms ms' : List Match}
    (hsettled : AreSettled (ms.filterMap nameOf?)) (hperm : ms'.Perm ms) :
    ofMatches src ms' = ofMatches src ms := by
  have hcs := hperm.filterMap nameOf?
  obtain ⟨fs, hfs, heq⟩ := exists_heads src ms
  obtain ⟨fs', hfs', heq'⟩ := exists_heads src ms'
  have hfirst : ∀ c,
      ofFirst src (ms'.filterMap nameOf?) c = ofFirst src (ms.filterMap nameOf?) c := by
    intro c
    rw [ofFirst, ofFirst, kindAmong_of_perm hcs]
  rw [heq, heq', List.map_congr_left fun c _ => hfirst c]
  refine map_eq_of_keys (hfs.spans_eq hsettled hcs hfs') ?_
  intro c hc d hd hspan
  exact hsettled.ofFirst_eq src (hcs.mem_iff.1 (hfs'.mem hc)) (hfs.mem hd) hspan

end Symbol

/-! ## The rules for symbols -/

namespace SymbolRules

variable {language : Language} {t : Tree}

/-- Whether the keywords of each lexical declaration of a tree are all the same. -/
def Unambiguous (t : Tree) : Prop :=
  ∀ d ∈ preorder t, d.kind = .lexicalDeclaration → ∀ a ∈ d.children, ∀ b ∈ d.children,
    a.kind.isKeyword = true → b.kind.isKeyword = true → a.kind = b.kind

theorem category_eq_of_direct {x : Direct} (hx : x ∈ directs language) {c d n : Cursor}
    {category : String} (hc : c.kind = x.kind) (hn : n ∈ c.children)
    (h : Names language d category n) : category = x.category := by
  have hdeclarator : c.kind ≠ .variableDeclarator := by
    intro hkind
    have hdeclaration := (isDeclaration_of_direct hx).1
    rw [← hc, hkind] at hdeclaration
    cases hdeclaration
  have hall : ∀ x ∈ directs language, ∀ y ∈ directs language, y.kind = x.kind →
      y.category = x.category := by
    cases language <;> decide
  cases h with
  | direct hy hd hn' =>
    obtain rfl := eq_of_mem_children hn hn'
    exact hall x hx _ hy (hd.symm.trans hc)
  | function hd hchildren =>
    have hn' : n ∈ d.children := by simp [hchildren]
    obtain rfl := eq_of_mem_children hn hn'
    exact absurd hd hdeclarator
  | lexical _ _ _ _ _ hv hn' =>
    obtain rfl := eq_of_mem_children hn hn'
    exact absurd hv hdeclarator
  | var _ _ hv hn' =>
    obtain rfl := eq_of_mem_children hn hn'
    exact absurd hv hdeclarator

theorem category_eq_of_root {c v n : Cursor} {category : String}
    (h : Names language c category n) (hroot : v.parent? = none)
    (hkind : v.kind = .variableDeclarator) (hn : n ∈ v.children) : category = "function" := by
  have hout : ∀ {d e : Cursor}, d ∈ e.children → n ∈ d.children → False := by
    intro d e hd hn'
    obtain rfl := eq_of_mem_children hn hn'
    rw [(mem_children_iff.1 hd).1] at hroot
    cases hroot
  cases h with
  | direct hx hc hn' =>
    obtain rfl := eq_of_mem_children hn hn'
    have hdeclaration := (isDeclaration_of_direct hx).1
    rw [← hc, hkind] at hdeclaration
    cases hdeclaration
  | function => rfl
  | lexical _ _ hchildren _ hd _ hn' => exact (hout (e := c) (by simp [hchildren, hd]) hn').elim
  | var _ hd _ hn' => exact (hout hd hn').elim

/-- The name of a declarator is found as that of a function, or of one other thing. -/
theorem exists_other (hkeys : Unambiguous t) {v n : Cursor} (hv : v ∈ preorder t)
    (hkind : v.kind = .variableDeclarator) (hn : n ∈ v.children) :
    ∃ other, (other = "constant" ∨ other = "variable") ∧
      ∀ c category, Names language c category n → category = "function" ∨ category = other := by
  cases hparent : v.parent? with
  | none =>
    refine ⟨"variable", .inr rfl, fun c category h => ?_⟩
    exact .inl (category_eq_of_root h hparent hkind hn)
  | some d =>
    obtain ⟨hd, hchild⟩ := mem_preorder_of_parent hv hparent
    by_cases hconst : d.kind = .lexicalDeclaration ∧ ∃ k ∈ d.children, k.kind = .token "const"
    · obtain ⟨hlexical, k, hk, hkconst⟩ := hconst
      refine ⟨"constant", .inl rfl, fun c category h => ?_⟩
      rcases h.cases_of_declarator hchild hkind hn with
        ⟨rfl, -⟩ | ⟨-, w, hw, rfl, k', hk', hkw⟩ | ⟨hvar, -⟩
      · exact .inl rfl
      · simp only [keywords, List.mem_cons, List.not_mem_nil, or_false] at hw
        rcases hw with rfl | rfl
        · exact .inr rfl
        · have hsame := hkeys d hd hlexical k hk k' hk' (by rw [hkconst]; rfl) (by rw [hkw]; rfl)
          rw [hkconst, hkw] at hsame
          exact absurd (Kind.token.inj hsame) (by decide)
      · rw [hlexical] at hvar
        cases hvar
    · refine ⟨"variable", .inr rfl, fun c category h => ?_⟩
      rcases h.cases_of_declarator hchild hkind hn with
        ⟨rfl, -⟩ | ⟨hlexical, w, hw, rfl, k, hk, hkw⟩ | ⟨-, rfl⟩
      · exact .inl rfl
      · simp only [keywords, List.mem_cons, List.not_mem_nil, or_false] at hw
        rcases hw with rfl | rfl
        · exact absurd ⟨hlexical, k, hk, hkw⟩ hconst
        · exact .inr rfl
      · exact .inr rfl

/-- What one name is found as. -/
theorem categories_of_names (hkeys : Unambiguous t) {c n : Cursor} {category : String}
    (hc : c ∈ preorder t) (h : Names language c category n) :
    (∀ d other, Names language d other n → other = category) ∨
      ∃ base, (base = "constant" ∨ base = "variable") ∧
        ∀ d other, Names language d other n → other = "function" ∨ other = base := by
  cases h with
  | direct hx hkind hn =>
    exact .inl fun d other h => category_eq_of_direct hx hkind hn h
  | function hkind hchildren =>
    exact .inr (exists_other hkeys hc hkind (by simp [hchildren]))
  | @lexical _ _ _ _ v _ _ _ hchildren _ hv hkind hn =>
    have hv : v ∈ c.children := by simp [hchildren, hv]
    exact .inr (exists_other hkeys (mem_preorder_of_mem_children hc hv) hkind hn)
  | var _ hv hkind hn =>
    exact .inr (exists_other hkeys (mem_preorder_of_mem_children hc hv) hkind hn)

end SymbolRules

namespace Symbol

variable {language : Language} {src : Source} {t : Tree}

/-- The names that are captured in a tree. -/
def namesIn (language : Language) (src : Source) (t : Tree) : List Capture :=
  (Rule.matchesIn (Topic.symbols.rules language) src t).filterMap nameOf?

/-- A captured name is a node that is found as a name. -/
theorem exists_names_of_capture {c : Capture} (hc : c ∈ namesIn language src t) :
    c.text = c.site.text src ∧ c.site.text src ≠ "" ∧
      ∃ d ∈ preorder t, ∃ category, Names language d category c.site ∧
        c.symbolKind = .ofCategory category := by
  obtain ⟨m, hm, hname⟩ := List.mem_filterMap.1 hc
  obtain ⟨d, hd, category, n, hnames, hks⟩ := exists_names_of_match hm
  rw [nameOf?_of_captures hks] at hname
  split at hname
  · cases hname
  · rename_i htext
    cases hname
    exact ⟨rfl, htext, d, hd, category, hnames, rfl⟩

/-- Captured names that start at one place are one node. -/
theorem site_eq_of_start (hnests : t.nests = true) (horder : t.inOrder = true)
    (hleaf : ∀ c ∈ preorder t, c.kind.isWord = true → c.node.children = []) {c d : Capture}
    (hc : c ∈ namesIn language src t) (hd : d ∈ namesIn language src t)
    (hstart : c.site.label.start = d.site.label.start) : c.site = d.site := by
  obtain ⟨-, htext, p, hp, _, hname, -⟩ := exists_names_of_capture hc
  obtain ⟨-, htext', q, hq, _, hname', -⟩ := exists_names_of_capture hd
  obtain ⟨hmem, hword⟩ := hname.mem_preorder hp
  obtain ⟨hmem', hword'⟩ := hname'.mem_preorder hq
  exact eq_of_start_eq hnests horder hmem hmem' (hleaf _ hmem hword) (hleaf _ hmem' hword') hstart
    (start_lt_stop_of_text htext) (start_lt_stop_of_text htext')

/-- What the captures of one node are taken for. -/
theorem kinds_of_capture (hkeys : Unambiguous t) {c : Capture} (hc : c ∈ namesIn language src t) :
    (∀ d ∈ namesIn language src t, d.site = c.site → d.symbolKind = c.symbolKind) ∨
      ∃ base, (base = "constant" ∨ base = "variable") ∧
        ∀ d ∈ namesIn language src t, d.site = c.site →
          d.symbolKind = .function ∨ d.symbolKind = .ofCategory base := by
  obtain ⟨-, -, p, hp, category, hname, hkind⟩ := exists_names_of_capture hc
  rcases categories_of_names hkeys hp hname with hall | ⟨base, hbase, hall⟩
  · left
    intro d hd hsite
    obtain ⟨-, -, q, -, other, hname', hkind'⟩ := exists_names_of_capture hd
    rw [hsite] at hname'
    rw [hkind, hkind', hall q other hname']
  · refine .inr ⟨base, hbase, ?_⟩
    intro d hd hsite
    obtain ⟨-, -, q, -, other, hname', hkind'⟩ := exists_names_of_capture hd
    rw [hsite] at hname'
    rw [hkind']
    rcases hall q other hname' with rfl | rfl
    · exact .inl (by decide)
    · exact .inr rfl

/-- The rules for symbols settle what the names of a tree are. -/
theorem areSettled_namesIn (hnests : t.nests = true) (horder : t.inOrder = true)
    (hleaf : ∀ c ∈ preorder t, c.kind.isWord = true → c.node.children = [])
    (hkeys : Unambiguous t) : AreSettled (namesIn language src t) := by
  have hsite : ∀ c ∈ namesIn language src t, ∀ d ∈ namesIn language src t, c.span = d.span →
      c.site = d.site :=
    fun c hc d hd hspan => site_eq_of_start hnests horder hleaf hc hd (congrArg Prod.fst hspan)
  refine ⟨?_, ?_, ?_⟩
  · intro c hc d hd hspan
    have heq := hsite c hc d hd hspan
    exact ⟨heq, by rw [(exists_names_of_capture hc).1, (exists_names_of_capture hd).1, heq]⟩
  · intro c hc d hd hstart
    rw [Capture.span, Capture.span, site_eq_of_start hnests horder hleaf hc hd hstart]
  · intro c hc
    rcases kinds_of_capture hkeys hc with hkinds | ⟨base, rfl | rfl, hkinds⟩
    · exact .inl fun d hd hspan => hkinds d hd (hsite d hd c hc hspan)
    · exact .inr (.inl fun d hd hspan => hkinds d hd (hsite d hd c hc hspan))
    · exact .inr (.inr fun d hd hspan => hkinds d hd (hsite d hd c hc hspan))

/-- There is one symbol for each span that matches name: that of the first match there, a function
    if it is a variable or a constant and another match there names a function. They come in the
    order of their starts. The order of settled matches does not matter, and those of the rules for
    symbols are settled in a tree whose words are leaves. -/
theorem ofMatches_one_per_span (src : Source) (ms : List Match) :
    (∃ fs, Heads (ms.filterMap nameOf?) fs ∧
      ofMatches src ms = fs.map (ofFirst src (ms.filterMap nameOf?))) ∧
    (AreSettled (ms.filterMap nameOf?) → ∀ ms', ms'.Perm ms →
      ofMatches src ms' = ofMatches src ms) ∧
    (∀ language (t : Tree), ms = Rule.matchesIn (Topic.symbols.rules language) src t →
      t.nests = true → t.inOrder = true →
      (∀ c ∈ preorder t, c.kind.isWord = true → c.node.children = []) → Unambiguous t →
      AreSettled (ms.filterMap nameOf?)) := by
  refine ⟨exists_heads src ms, fun hsettled ms' hperm => ofMatches_of_perm hsettled hperm, ?_⟩
  rintro language t rfl hnests horder hleaf hkeys
  exact areSettled_namesIn hnests horder hleaf hkeys

/-- A file with an arrow function under the name of a constant. -/
def arrowSource : Source :=
  .ofString "const f = () => 1;\n"

/-- The tree of this file. -/
def arrowConstant : Tree :=
  .node ⟨.other "program", none, false, 0, 19⟩
    [.node ⟨.lexicalDeclaration, none, false, 0, 18⟩
      [.node ⟨.token "const", some (.other "kind"), false, 0, 5⟩ [],
       .node ⟨.variableDeclarator, none, false, 6, 17⟩
        [.node ⟨.identifier, some .name, false, 6, 7⟩ [],
         .node ⟨.token "=", none, false, 8, 9⟩ [],
         .node ⟨.arrowFunction, some .value, false, 10, 17⟩
          [.node ⟨.formalParameters, some .parameters, false, 10, 12⟩
            [.node ⟨.token "(", none, false, 10, 11⟩ [],
             .node ⟨.token ")", none, false, 11, 12⟩ []],
           .node ⟨.token "=>", none, false, 13, 15⟩ [],
           .node ⟨.other "number", some (.other "body"), false, 16, 17⟩ []]],
       .node ⟨.token ";", none, false, 17, 18⟩ []]]

/-- Two rules name the constant, and it is a function in either order of their matches. -/
theorem ofMatches_one_per_span_arrowConstant :
    let ms := Rule.matchesIn (Topic.symbols.rules .typescript) arrowSource arrowConstant
    (ms.filterMap nameOf?).map (·.symbolKind) = [.constant, .function] ∧
      AreSettled (ms.filterMap nameOf?) ∧
      (ofMatches arrowSource ms).map (·.kind) = [.function] ∧
      (ofMatches arrowSource ms.reverse).map (·.kind) = [.function] := by
  intro ms
  obtain ⟨-, hperm, hrules⟩ := ofMatches_one_per_span arrowSource ms
  have hsettled : AreSettled (ms.filterMap nameOf?) :=
    hrules .typescript arrowConstant rfl (by decide) (by decide) (by decide)
      (by unfold Unambiguous; decide)
  have hkinds : (ofMatches arrowSource ms).map (·.kind) = [.function] := by decide +kernel
  refine ⟨by decide +kernel, hsettled, hkinds, ?_⟩
  rw [hperm hsettled ms.reverse (List.reverse_perm ms)]
  exact hkinds

end Symbol

end Outline
