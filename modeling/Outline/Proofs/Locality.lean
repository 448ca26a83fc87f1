import Outline.Proofs.Layout
import Outline.Proofs.Rehanging

/-!
# Extraction is local to top-level statements

If the statements of a file are split into two consecutive blocks, the record of the file is that of
the first block followed by that of the second, each read as a file of its own in the same source.
The matches in a block are the same in the whole file and in the file of the block
(`matchesIn_block`). What one block captures ends before the other block starts (`Precede`), so
gathering by spans and sorting by starts never mix the two.
-/

namespace Outline

open Cursor

/-! ## Spans -/

/-- A node lies in one of the given trees. -/
def LiesIn (block : List Tree) (c : Cursor) : Prop :=
  c.node.nests = true ∧ ∃ t ∈ block, t.label.start ≤ c.label.start ∧ c.label.stop ≤ t.label.stop

theorem hereditary_liesIn (block : List Tree) : Hereditary (LiesIn block) := by
  rintro c ⟨hnests, t, ht, hstart, hstop⟩ d hd
  obtain ⟨u, hu, rfl⟩ := List.mem_map.1 hd
  obtain ⟨hul, hur, hun⟩ := Tree.nestBelow_iff.1 (Tree.nests_iff.1 hnests).2 u hu
  exact ⟨hun, t, ht, Nat.le_trans hstart hul, Nat.le_trans hur hstop⟩

/-! ## Two lists of matches, one after the other -/

/-- All captures have spans and the texts of these. -/
def Match.Spanned (src : Source) (m : Match) : Prop :=
  ∀ k ∈ m.captures, k.site.label.start ≤ k.site.label.stop ∧ k.text = k.site.text src

/-- What the first matches capture ends before anything that the others capture. -/
structure Precede (src : Source) (ms ns : List Match) : Prop where
  spanned : ∀ m ∈ ms ++ ns, m.Spanned src
  order : ∀ m ∈ ms, ∀ k ∈ m.captures, ∀ n ∈ ns, ∀ j ∈ n.captures,
    k.site.label.stop ≤ j.site.label.start

namespace Precede

variable {src : Source} {ms ns : List Match} (h : Precede src ms ns)

include h

theorem start_le {m n : Match} (hm : m ∈ ms) (hn : n ∈ ns) {k j : Capture} (hk : k ∈ m.captures)
    (hj : j ∈ n.captures) : k.site.label.start ≤ j.site.label.start := by
  have hspan := (h.spanned m (List.mem_append_left _ hm) k hk).1
  exact Nat.le_trans hspan (h.order m hm k hk n hn j hj)

/-- A capture with a text starts before all that the other matches capture. -/
theorem start_lt {m n : Match} (hm : m ∈ ms) (hn : n ∈ ns) {k j : Capture} (hk : k ∈ m.captures)
    (hj : j ∈ n.captures) (htext : k.text ≠ "") : k.site.label.start < j.site.label.start := by
  obtain ⟨-, ht⟩ := h.spanned m (List.mem_append_left _ hm) k hk
  have hspan : k.site.label.start < k.site.label.stop := start_lt_stop_of_text (ht ▸ htext)
  exact Nat.lt_of_lt_of_le hspan (h.order m hm k hk n hn j hj)

end Precede

theorem Symbol.exists_of_found? {src : Source} {m : Match} {f : Symbol.Found}
    (h : Symbol.found? src m = some f) :
    ∃ k ∈ m.captures, k.text ≠ "" ∧ f.start = k.site.label.start := by
  obtain ⟨k, hk, rfl⟩ := Option.map_eq_some_iff.1 h
  obtain ⟨hmem, htext⟩ := Symbol.mem_of_nameOf? hk
  exact ⟨k, hmem, htext, rfl⟩

theorem Symbol.ofMatches_append {src : Source} {ms ns : List Match} (h : Precede src ms ns) :
    Symbol.ofMatches src (ms ++ ns) = Symbol.ofMatches src ms ++ Symbol.ofMatches src ns := by
  have hstart : ∀ x ∈ ms.filterMap (Symbol.found? src), ∀ y ∈ ns.filterMap (Symbol.found? src),
      x.start < y.start := by
    intro x hx y hy
    obtain ⟨m, hm, hx⟩ := List.mem_filterMap.1 hx
    obtain ⟨n, hn, hy⟩ := List.mem_filterMap.1 hy
    obtain ⟨k, hk, htext, hkx⟩ := Symbol.exists_of_found? hx
    obtain ⟨j, hj, -, hjy⟩ := Symbol.exists_of_found? hy
    rw [hkx, hjy]
    exact h.start_lt hm hn hk hj htext
  simp only [Symbol.ofMatches_eq, List.filterMap_append]
  rw [mergeSort_gather_append Found.start Found.span_settle Found.start_of_span hstart,
    List.map_append]

/-- Records that start where a capture of their match does are sorted block by block. -/
theorem mergeSort_filterMap_append {α : Type} {f : Match → Option α} {start : α → Nat}
    (hf : ∀ m x, f m = some x → ∃ k ∈ m.captures, start x = k.site.label.start) {src : Source}
    {ms ns : List Match} (h : Precede src ms ns) (p : Match → Bool) :
    (((ms ++ ns).filter p).filterMap f).mergeSort (fun a b => decide (start a ≤ start b)) =
      ((ms.filter p).filterMap f).mergeSort (fun a b => decide (start a ≤ start b)) ++
        ((ns.filter p).filterMap f).mergeSort (fun a b => decide (start a ≤ start b)) := by
  rw [List.filter_append, List.filterMap_append]
  refine mergeSort_start_append start fun x hx y hy => ?_
  obtain ⟨m, hm, hx⟩ := List.mem_filterMap.1 hx
  obtain ⟨n, hn, hy⟩ := List.mem_filterMap.1 hy
  obtain ⟨k, hk, hkx⟩ := hf m x hx
  obtain ⟨j, hj, hjy⟩ := hf n y hy
  rw [hkx, hjy]
  exact h.start_le (List.mem_filter.1 hm).1 (List.mem_filter.1 hn).1 hk hj

theorem Import.exists_startByte {fs : FileSystem} {importer : String} {src : Source} {m : Match}
    {i : Import} (h : Import.ofMatch? fs importer src m = some i) :
    ∃ k ∈ m.captures, i.location.startByte = k.site.label.start := by
  unfold Import.ofMatch? at h
  obtain ⟨source, hsource, h⟩ := Option.bind_eq_some_iff.1 h
  obtain ⟨binding, -, h⟩ := Option.bind_eq_some_iff.1 h
  obtain rfl := Option.some.inj h
  have hmem := Match.mem_of_firstOf? hsource
  unfold Import.locationOf
  cases hs : m.field? "statement" with
  | some s => exact ⟨s, Match.mem_of_field? hs, rfl⟩
  | none =>
    cases hc : m.captures with
    | nil => simp [hc] at hmem
    | cons k ks => exact ⟨k, List.mem_cons_self .., rfl⟩

theorem Export.exists_startByte {fs : FileSystem} {importer : String} {src : Source} {m : Match}
    {e : Export} (h : Export.ofMatch? fs importer src m = some e) :
    ∃ k ∈ m.captures, e.location.startByte = k.site.label.start := by
  unfold Export.ofMatch? at h
  split at h
  · unfold Export.ofAssignment? at h
    obtain ⟨value, hvalue, h⟩ := Option.bind_eq_some_iff.1 h
    obtain ⟨exposed, -, h⟩ := Option.bind_eq_some_iff.1 h
    obtain rfl := Option.some.inj h
    cases hs : m.field? "commonjs_statement" with
    | some s => exact ⟨s, Match.mem_of_field? hs, rfl⟩
    | none => exact ⟨value, Match.mem_of_field? hvalue, rfl⟩
  · unfold Export.ofStatement? at h
    obtain ⟨s, hs, h⟩ := Option.bind_eq_some_iff.1 h
    obtain ⟨exposed, -, h⟩ := Option.bind_eq_some_iff.1 h
    obtain rfl := Option.some.inj h
    exact ⟨s, Match.mem_of_field? hs, rfl⟩

theorem Import.ofMatches_append {src : Source} {ms ns : List Match} (h : Precede src ms ns)
    (fs : FileSystem) (importer : String) :
    Import.ofMatches fs importer src (ms ++ ns) =
      Import.ofMatches fs importer src ms ++ Import.ofMatches fs importer src ns :=
  mergeSort_filterMap_append (fun _ _ => Import.exists_startByte) h _

theorem Export.ofMatches_append {src : Source} {ms ns : List Match} (h : Precede src ms ns)
    (fs : FileSystem) (importer : String) :
    Export.ofMatches fs importer src (ms ++ ns) =
      Export.ofMatches fs importer src ms ++ Export.ofMatches fs importer src ns :=
  mergeSort_filterMap_append (fun _ _ => Export.exists_startByte) h _

/-! ## Types -/

/-- Entries without a result may be left out of a search. -/
theorem findSome?_filter_of_none {α β : Type} {f : α → Option β} {p : α → Bool} {xs : List α}
    (h : ∀ x ∈ xs, p x = false → f x = none) : (xs.filter p).findSome? f = xs.findSome? f := by
  induction xs with
  | nil => rfl
  | cons x xs ih =>
    have ih' := ih fun y hy => h y (List.mem_cons_of_mem _ hy)
    rw [List.filter_cons]
    cases hp : p x with
    | true => rw [if_pos rfl, List.findSome?_cons, List.findSome?_cons, ih']
    | false =>
      rw [if_neg Bool.false_ne_true, ih', List.findSome?_cons, h x (List.mem_cons_self ..) hp]

namespace Typing

/-- Whether a binding has a span that is not empty. -/
def Binding.isWide (b : Binding) : Bool :=
  decide (b.start < b.stop)

theorem exists_of_binding? {m : Match} {b : Binding} (h : binding? m = some b) :
    ∃ k ∈ m.captures, b.name = k.text ∧ b.span = (k.site.label.start, k.site.label.stop) := by
  obtain ⟨k, hk, rfl⟩ := Option.map_eq_some_iff.1 h
  exact ⟨k, Match.mem_of_firstOf? hk, rfl, rfl⟩

theorem name_foldl_join (b : Binding) (bs : List Binding) :
    (bs.foldl Binding.join b).name = b.name := by
  induction bs generalizing b with
  | nil => rfl
  | cons c bs ih => rw [List.foldl_cons, ih]; rfl

/-- Identifiers without a text have no type, so the types are those of the wide bindings. -/
theorem get?_ofMatches_wide {src : Source} {ms : List Match} (hms : ∀ m ∈ ms, m.Spanned src)
    (priority : TypePriority) (name : String) :
    (ofMatches priority ms).get? name =
      ((gather Binding.span Binding.join ((ms.filterMap binding?).filter Binding.isWide)).mergeSort
        fun a b => a.start ≤ b.start).findSome? (typeFor? priority name) := by
  have hwide : ∀ a b : Binding, a.span = b.span → a.isWide = b.isWide := by
    intro a b h
    obtain ⟨hstart, hstop⟩ := Prod.mk.inj h
    simp only [Binding.isWide, hstart, hstop]
  rw [get?_ofMatches, gather_filter Binding.span_join hwide,
    mergeSort_start_filter Binding.start Binding.isWide, findSome?_filter_of_none]
  intro b hb hnarrow
  obtain ⟨pre, x, post, hxs, -, rfl⟩ :=
    (mem_gather_iff Binding.span_join).1 (List.mem_mergeSort.1 hb)
  have hx : x ∈ ms.filterMap binding? := by simp [hxs]
  obtain ⟨m, hm, hx⟩ := List.mem_filterMap.1 hx
  obtain ⟨k, hk, hname, hspan⟩ := exists_of_binding? hx
  obtain ⟨-, htext⟩ := hms m hm k hk
  have hempty : k.site.label.stop ≤ k.site.label.start := by
    rw [hwide _ x (key_foldl_join Binding.span_join x _)] at hnarrow
    obtain ⟨hstart, hstop⟩ := Prod.mk.inj hspan
    simpa [Binding.isWide, hstart, hstop] using hnarrow
  have hxname : x.name = "" := hname.trans (htext.trans (src.text_eq_empty hempty))
  unfold typeFor?
  rw [if_neg]
  rintro ⟨rfl, hne⟩
  exact hne ((name_foldl_join x _).trans hxname)

/-- A name that is bound in both lists of matches keeps the type of the first. -/
theorem get?_ofMatches_append {src : Source} {ms ns : List Match} (h : Precede src ms ns)
    (priority : TypePriority) (name : String) :
    (ofMatches priority (ms ++ ns)).get? name =
      ((ofMatches priority ms).get? name).or ((ofMatches priority ns).get? name) := by
  have hstart : ∀ x ∈ (ms.filterMap binding?).filter Binding.isWide,
      ∀ y ∈ (ns.filterMap binding?).filter Binding.isWide, x.start < y.start := by
    intro x hx y hy
    obtain ⟨hx, hwide⟩ := List.mem_filter.1 hx
    obtain ⟨m, hm, hx⟩ := List.mem_filterMap.1 hx
    obtain ⟨n, hn, hy⟩ := List.mem_filterMap.1 (List.mem_filter.1 hy).1
    obtain ⟨k, hk, -, hkx⟩ := exists_of_binding? hx
    obtain ⟨j, hj, -, hjy⟩ := exists_of_binding? hy
    have horder := h.order m hm k hk n hn j hj
    have hlt : x.start < x.stop := of_decide_eq_true hwide
    rw [(Prod.mk.inj hkx).2] at hlt
    rw [(Prod.mk.inj hjy).1]
    exact Nat.lt_of_lt_of_le hlt horder
  rw [get?_ofMatches_wide h.spanned,
    get?_ofMatches_wide fun m hm => h.spanned m (List.mem_append_left _ hm),
    get?_ofMatches_wide fun n hn => h.spanned n (List.mem_append_right _ hn),
    List.filterMap_append, List.filter_append,
    mergeSort_gather_append Binding.start Binding.span_join Binding.start_of_span hstart,
    List.findSome?_append]

end Typing

/-! ## Blocks of statements -/

theorem preorderBelow_append (above ts us : List Tree) :
    preorderBelow above (ts ++ us) = preorderBelow above ts ++ preorderBelow above us := by
  induction ts with
  | nil => simp [preorderBelow]
  | cons t ts ih => simp only [List.cons_append, preorderBelow, ih, List.append_assoc]

/-- The matches in a block of the statements below a root. -/
def blockMatches (rules : List Rule) (src : Source) (root : Tree) (block : List Tree) :
    List Match :=
  (preorderBelow [root] block).flatMap (Rule.matchesAt rules src)

section Blocks

variable {root : Label} (hroot : root.kind.isFile = true) {src : Source}

theorem mem_blockMatches {rules : List Rule} {cs block : List Tree} {m : Match}
    (hm : m ∈ blockMatches rules src (.node root cs) block) :
    ∃ c ∈ preorderBelow [.node root cs] block, m ∈ Rule.matchesAt rules src c :=
  List.mem_flatMap.1 hm

/-- In a block whose statements are well nested, captures lie in the statements. -/
theorem spanned_of_mem_blockMatches {rules : List Rule} {cs block : List Tree} {m : Match}
    (hblock : ∀ t ∈ block, t.nests = true) (hm : m ∈ blockMatches rules src (.node root cs) block) :
    m.Spanned src ∧ ∀ k ∈ m.captures, LiesIn block k.site := by
  obtain ⟨c, hc, hm⟩ := mem_blockMatches hm
  have hlies : LiesIn block c :=
    (hereditary_liesIn block).preorderBelow _ block
      (fun t ht => ⟨hblock t ht, t, ht, Nat.le_refl _, Nat.le_refl _⟩) c hc
  have hcaptures := Rule.matchesAt_hereditary (hereditary_liesIn block) hlies hm
  refine ⟨fun k hk => ⟨?_, Rule.text_of_mem_captures hm hk⟩, hcaptures⟩
  exact (Tree.nests_iff.1 (hcaptures k hk).1).1

/-- What is captured in a block ends before anything that is captured in a later one. -/
theorem precede_blockMatches {rules : List Rule} {cs A B : List Tree}
    (hnests : ∀ t ∈ A ++ B, t.nests = true)
    (horder : (A ++ B).Pairwise fun t u => t.label.stop ≤ u.label.start) :
    Precede src (blockMatches rules src (.node root cs) A)
      (blockMatches rules src (.node root cs) B) := by
  have hA : ∀ t ∈ A, t.nests = true := fun t ht => hnests t (List.mem_append_left _ ht)
  have hB : ∀ t ∈ B, t.nests = true := fun t ht => hnests t (List.mem_append_right _ ht)
  refine ⟨fun m hm => ?_, fun m hm k hk n hn j hj => ?_⟩
  · rcases List.mem_append.1 hm with hm | hm
    · exact (spanned_of_mem_blockMatches hA hm).1
    · exact (spanned_of_mem_blockMatches hB hm).1
  · obtain ⟨-, t, ht, -, hstop⟩ := (spanned_of_mem_blockMatches hA hm).2 k hk
    obtain ⟨-, u, hu, hstart, -⟩ := (spanned_of_mem_blockMatches hB hn).2 j hj
    have htu := (List.pairwise_append.1 horder).2.2 t ht u hu
    exact Nat.le_trans hstop (Nat.le_trans htu hstart)

include hroot

theorem matchesIn_file (topic : Topic) (language : Language) (cs : List Tree) :
    Rule.matchesIn (topic.rules language) src (.node root cs) =
      blockMatches (topic.rules language) src (.node root cs) cs := by
  unfold Rule.matchesIn blockMatches Cursor.preorder
  rw [preorderFrom, List.flatMap_cons,
    Rule.matchesAt_eq_nil (Topic.startsAt_of_isFile hroot topic language), List.nil_append]

theorem hangs_of_mem_blockMatches {rules : List Rule} {cs block : List Tree} {m : Match}
    (hm : m ∈ blockMatches rules src (.node root cs) block) : ∀ k ∈ m.captures, Hangs k.site := by
  obtain ⟨c, hc, hm⟩ := mem_blockMatches hm
  have hhangs : Hangs c := by
    refine hereditary_hangs.preorderBelow _ block (fun t _ => ⟨List.cons_ne_nil _ _, ?_⟩) c hc
    intro a ha _
    obtain rfl := List.mem_singleton.1 ha
    exact hroot
  exact Rule.matchesAt_hereditary hereditary_hangs hhangs hm

/-- The matches in the file of a block are those in the block, seen in that file. -/
theorem matchesIn_block (topic : Topic) (language : Language) (cs block : List Tree) :
    Rule.matchesIn (topic.rules language) src (.node root block) =
      (blockMatches (topic.rules language) src (.node root cs) block).map
        (Match.through (rehang block)) := by
  have hnodes : preorderBelow [.node root block] block =
      (preorderBelow [.node root cs] block).map (rehang block) := by
    rw [preorderBelow_rehang (List.cons_ne_nil _ _)]
    rfl
  have hinner : ∀ c ∈ preorderBelow [.node root cs] block, c.above ≠ [] := by
    have hhereditary : Hereditary fun c => c.above ≠ [] := by
      intro c _ d hd
      obtain ⟨t, -, rfl⟩ := List.mem_map.1 hd
      exact List.cons_ne_nil _ _
    exact hhereditary.preorderBelow _ block fun _ _ => List.cons_ne_nil _ _
  have hmatches := (thinning_rehang block).flatMap_matchesAt
    (Topic.reportsComments topic language) src (fun c hc _ => hinner c hc)
    (fun _ _ h => by cases h)
  have hseen : Match.isSeen (fun _ => true) = fun _ => true :=
    funext fun m => by simp [Match.isSeen]
  rw [List.filter_true, hseen, List.filter_true] at hmatches
  rw [matchesIn_file hroot, blockMatches, hnodes, hmatches]
  rfl

end Blocks

theorem Tree.hasErrorBelow_append (ts us : List Tree) :
    Tree.hasError.hasErrorBelow (ts ++ us) =
      (Tree.hasError.hasErrorBelow ts || Tree.hasError.hasErrorBelow us) := by
  induction ts with
  | nil => simp [Tree.hasError.hasErrorBelow]
  | cons t ts ih => simp only [List.cons_append, Tree.hasError.hasErrorBelow, ih, Bool.or_assoc]

/-! ## The record of a file -/

/-- A record holds what two others hold, one after the other; a name that both give a type keeps
    that of the first. -/
structure FileRecord.IsAppend (r first second : FileRecord) : Prop where
  symbols : r.symbols = first.symbols ++ second.symbols
  imports : r.imports = first.imports ++ second.imports
  exports : r.exports = first.exports ++ second.exports
  types : ∀ name, r.types.get? name = (first.types.get? name).or (second.types.get? name)
  hasSyntaxErrors : r.hasSyntaxErrors = (first.hasSyntaxErrors || second.hasSyntaxErrors)

theorem FileRecord.isAppend_ofTree {root : Label} (hroot : root.kind.isFile = true)
    {A B : List Tree} (hnests : ∀ t ∈ A ++ B, t.nests = true)
    (horder : (A ++ B).Pairwise fun t u => t.label.stop ≤ u.label.start) (w : Workshop)
    (path : String) (src : Source) :
    (FileRecord.ofTree w path src (.node root (A ++ B))).IsAppend
      (.ofTree w path src (.node root A)) (.ofTree w path src (.node root B)) := by
  have hwhole : ∀ topic : Topic,
      Rule.matchesIn (topic.rules (Language.ofPath path)) src (.node root (A ++ B)) =
        blockMatches (topic.rules (Language.ofPath path)) src (.node root (A ++ B)) A ++
          blockMatches (topic.rules (Language.ofPath path)) src (.node root (A ++ B)) B := by
    intro topic
    rw [matchesIn_file hroot]
    simp only [blockMatches, preorderBelow_append, List.flatMap_append]
  have hblock : ∀ (topic : Topic) (block : List Tree),
      Rule.matchesIn (topic.rules (Language.ofPath path)) src (.node root block) =
        (blockMatches (topic.rules (Language.ofPath path)) src (.node root (A ++ B)) block).map
          (Match.through (rehang block)) :=
    fun topic block => matchesIn_block hroot topic _ (A ++ B) block
  constructor
  all_goals simp only [FileRecord.ofTree, hwhole, hblock _ A, hblock _ B]
  · rw [Symbol.ofMatches_append (precede_blockMatches hnests horder),
      Symbol.ofMatches_rehang fun m => hangs_of_mem_blockMatches hroot,
      Symbol.ofMatches_rehang fun m => hangs_of_mem_blockMatches hroot]
  · rw [Import.ofMatches_append (precede_blockMatches hnests horder),
      Import.ofMatches_rehang fun m => hangs_of_mem_blockMatches hroot,
      Import.ofMatches_rehang fun m => hangs_of_mem_blockMatches hroot]
  · rw [Export.ofMatches_append (precede_blockMatches hnests horder),
      Export.ofMatches_rehang fun m => hangs_of_mem_blockMatches hroot,
      Export.ofMatches_rehang fun m => hangs_of_mem_blockMatches hroot]
  · intro name
    rw [Typing.get?_ofMatches_append (precede_blockMatches hnests horder),
      Typing.ofMatches_through (faithful_rehang A), Typing.ofMatches_through (faithful_rehang B)]
  · simp only [Tree.hasError, Tree.hasErrorBelow_append]
    cases root.kind == .error <;> cases root.missing <;> rfl

/-- A file whose statements are split into two blocks gives the record of the first block followed
    by that of the second. -/
theorem Session.extract_append {path : String} (hpath : (Grammar.ofPath path).isKnown = true)
    {root : Label} (hroot : root.kind.isFile = true) {A B : List Tree}
    (hnests : ∀ t ∈ A ++ B, t.nests = true)
    (horder : (A ++ B).Pairwise fun t u => t.label.stop ≤ u.label.start)
    (w : Workshop) (src : Source) (n : Nat) :
    ∃ r first second : FileRecord,
      (Session.extract (w.reading (.node root (A ++ B))) (.new n) path src).1 = .ok r ∧
      (Session.extract (w.reading (.node root A)) (.new n) path src).1 = .ok first ∧
      (Session.extract (w.reading (.node root B)) (.new n) path src).1 = .ok second ∧
      r.IsAppend first second :=
  ⟨_, _, _, Session.extract_reading hpath w _ src n, Session.extract_reading hpath w _ src n,
    Session.extract_reading hpath w _ src n,
    FileRecord.isAppend_ofTree hroot hnests horder w path src⟩

/-- Two statements, the first a class and the second an export of a class with the same name. -/
theorem Session.extract_append_classes :
    let root : Label := ⟨.other "program", none, false, 0, 29⟩
    let first := Tree.node ⟨.classDeclaration, none, false, 0, 10⟩
      [.node ⟨.typeIdentifier, some .name, false, 6, 7⟩ []]
    let second := Tree.node ⟨.exportStatement, none, false, 11, 28⟩
      [.node ⟨.classDeclaration, some .declaration, false, 18, 28⟩
        [.node ⟨.typeIdentifier, some .name, false, 24, 25⟩ []]]
    let w : Workshop := ⟨⟨fun _ _ => none⟩, .empty, .usual⟩
    let src := Source.ofString "class A {}\nexport class A {}\n"
    (Grammar.ofPath "a.ts").isKnown = true ∧ root.kind.isFile = true ∧
      (∀ t ∈ [first] ++ [second], t.nests = true) ∧
      ([first] ++ [second]).Pairwise (fun t u => t.label.stop ≤ u.label.start) ∧
      ∃ r r₁ r₂ : FileRecord,
        (Session.extract (w.reading (.node root ([first] ++ [second]))) (.new 1) "a.ts" src).1 =
            .ok r ∧
          (Session.extract (w.reading (.node root [first])) (.new 1) "a.ts" src).1 = .ok r₁ ∧
          (Session.extract (w.reading (.node root [second])) (.new 1) "a.ts" src).1 = .ok r₂ ∧
          r.IsAppend r₁ r₂ := by
  intro root first second w src
  have hpath : (Grammar.ofPath "a.ts").isKnown = true := by decide
  have hroot : root.kind.isFile = true := by decide
  have hnests : ∀ t ∈ [first] ++ [second], t.nests = true := by decide
  have horder : ([first] ++ [second]).Pairwise fun t u => t.label.stop ≤ u.label.start := by decide
  exact ⟨hpath, hroot, hnests, horder, Session.extract_append hpath hroot hnests horder w src 1⟩

end Outline
