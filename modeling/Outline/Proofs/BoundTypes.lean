import Outline.Proofs.Locality
import Outline.Proofs.RecordReading
import Outline.Proofs.Slices
import Outline.Proofs.TypePriorities

/-!
# Types of bound names

A name has the type of its first binding that is offered any. Which binding that is does not depend
on the priority, since a priority lists all slots: it only chooses among the types that are offered
for the binding (`priority_only_chooses`). Nor does it depend on the order in which the bindings are
found, where captures have the texts of their nodes: two bindings of one name then start at
different places (`ofMatches_reading`).
-/

namespace Outline

/-- All captures of a match lie in the source and have the texts that are there. -/
def Match.IsSliced (src : Source) (m : Match) : Prop :=
  ∀ c ∈ m.captures, c.site.label.stop ≤ src.size ∧ c.text = c.site.text src

namespace Typing

/-! ## Bindings and what is offered for them -/

/-- Whether a match binds an identifier at a span. -/
def bindsAt (span : Nat × Nat) (m : Match) : Bool :=
  (m.firstOf? binderFields).any fun c => (c.site.label.start, c.site.label.stop) == span

/-- The captures of all matches that bind the identifier at a span, match by match. -/
def capturesAt (ms : List Match) (span : Nat × Nat) : List Capture :=
  (ms.filter (bindsAt span)).flatMap (·.captures)

/-- An identifier at a span is bound under a name. -/
def Binds (ms : List Match) (span : Nat × Nat) (name : String) : Prop :=
  ∃ m ∈ ms, ∃ c, m.firstOf? binderFields = some c ∧
    (c.site.label.start, c.site.label.stop) = span ∧ c.text = name

/-- Some type is captured for the identifier at a span. -/
def IsTyped (ms : List Match) (span : Nat × Nat) : Prop :=
  ∃ c ∈ capturesAt ms span, ∃ s : TypeSlot, c.tag.field = s.text

/-- The type of the identifier at a span: the text of the first capture of the first slot that has
    a capture. -/
def IsTypeAt (priority : TypePriority) (ms : List Match) (span : Nat × Nat) (type : String) :
    Prop :=
  ∃ before s after, priority.slots = before ++ s :: after ∧
    (∀ r ∈ before, ∀ c ∈ capturesAt ms span, c.tag.field ≠ r.text) ∧
    ∃ pre c post, capturesAt ms span = pre ++ c :: post ∧
      (∀ d ∈ pre, d.tag.field ≠ s.text) ∧ c.tag.field = s.text ∧ c.text = type

/-- The type that a capture offers, with its slot. -/
def offer? (c : Capture) : Option (TypeSlot × String) :=
  (TypeSlot.ofText? c.tag.field).map (·, c.text)

theorem lookup_offers (cs : List Capture) (s : TypeSlot) :
    (cs.filterMap offer?).lookup s = (cs.find? (·.tag.field == s.text)).map (·.text) := by
  induction cs with
  | nil => rfl
  | cons c cs ih =>
    rw [List.filterMap_cons, List.find?_cons]
    cases hc : TypeSlot.ofText? c.tag.field with
    | none =>
      have hne : (c.tag.field == s.text) = false := by
        rw [beq_eq_false_iff_ne]
        intro heq
        rw [TypeSlot.ofText?_eq_some_iff.2 heq] at hc
        cases hc
      simp only [offer?, hc, Option.map_none, hne]
      exact ih
    | some r =>
      have hfield := TypeSlot.ofText?_eq_some_iff.1 hc
      simp only [offer?, hc, Option.map_some, List.lookup_cons]
      by_cases hr : s = r
      · rw [hr, hfield]
        simp
      · have hne : (c.tag.field == s.text) = false := by
          rw [beq_eq_false_iff_ne]
          intro heq
          rw [TypeSlot.ofText?_eq_some_iff.2 heq] at hc
          exact hr (Option.some.inj hc)
        rw [beq_false_of_ne hr, hne]
        exact ih

theorem offers_foldl_join (b : Binding) (bs : List Binding) :
    (bs.foldl Binding.join b).offers = b.offers ++ bs.flatMap (·.offers) := by
  induction bs generalizing b with
  | nil => simp
  | cons c bs ih =>
    rw [List.foldl_cons, ih]
    simp [Binding.join]

/-- All bindings at a span together offer what is captured there. -/
theorem flatMap_offers (ms : List Match) (span : Nat × Nat) :
    ((ms.filterMap binding?).filter (·.span == span)).flatMap (·.offers) =
      (capturesAt ms span).filterMap offer? := by
  unfold capturesAt
  induction ms with
  | nil => rfl
  | cons m ms ih =>
    cases hm : m.firstOf? binderFields with
    | none =>
      have hbinding : binding? m = none := by rw [binding?, hm]; rfl
      have hbinds : ¬ bindsAt span m = true := by simp [bindsAt, hm]
      rw [List.filterMap_cons_none hbinding, List.filter_cons_of_neg hbinds]
      exact ih
    | some c =>
      obtain ⟨b, hbinding, hspan, hoffers⟩ : ∃ b, binding? m = some b ∧
          b.span = (c.site.label.start, c.site.label.stop) ∧ b.offers = offersOf m :=
        ⟨_, by rw [binding?, hm]; rfl, rfl, rfl⟩
      have hbinds : bindsAt span m = (b.span == span) := by simp [bindsAt, hm, hspan]
      rw [List.filterMap_cons_some hbinding, List.filter_cons, List.filter_cons, hbinds]
      by_cases hb : (b.span == span) = true
      · rw [if_pos hb, if_pos hb, List.flatMap_cons, List.flatMap_cons, List.filterMap_append, ih,
          hoffers]
        rfl
      · rw [if_neg hb, if_neg hb]
        exact ih

theorem offers_of_mem {ms : List Match} {b : Binding} (hb : b ∈ bindings ms) :
    b.offers = (capturesAt ms b.span).filterMap offer? := by
  rw [bindings_eq] at hb
  obtain ⟨pre, x, post, hxs, hpre, rfl⟩ := (mem_gather_iff Binding.span_join).1 hb
  have hnone : pre.filter (·.span == x.span) = [] := by
    refine List.filter_eq_nil_iff.2 fun y hy => ?_
    simpa using hpre y hy
  have hpost : (post.filter fun y => decide (y.span = x.span)) =
      post.filter (·.span == x.span) := List.filter_congr fun y _ => by simp [beq_eq_decide]
  rw [key_foldl_join Binding.span_join, offers_foldl_join, ← flatMap_offers, hxs, hpost]
  simp [hnone]

theorem binds_of_mem {ms : List Match} {b : Binding} (hb : b ∈ bindings ms) :
    Binds ms b.span b.name := by
  rw [bindings_eq] at hb
  obtain ⟨pre, x, post, hxs, -, rfl⟩ := (mem_gather_iff Binding.span_join).1 hb
  have hx : x ∈ ms.filterMap binding? := by simp [hxs]
  obtain ⟨m, hm, hx⟩ := List.mem_filterMap.1 hx
  obtain ⟨c, hc, rfl⟩ := Option.map_eq_some_iff.1 hx
  refine ⟨m, hm, c, hc, ?_, ?_⟩
  · rw [key_foldl_join Binding.span_join]
    rfl
  · rw [name_foldl_join]

theorem exists_binding {ms : List Match} {span : Nat × Nat} {name : String}
    (h : Binds ms span name) : ∃ b ∈ bindings ms, b.span = span := by
  obtain ⟨m, hm, c, hc, hspan, -⟩ := h
  have hx : (⟨c.text, c.site.label.start, c.site.label.stop, offersOf m⟩ : Binding) ∈
      ms.filterMap binding? := List.mem_filterMap.2 ⟨m, hm, by rw [binding?, hc]; rfl⟩
  obtain ⟨y, post, hkeys, -, hmem⟩ := exists_mem_gather Binding.span_join hx
  refine ⟨_, bindings_eq ms ▸ hmem, ?_⟩
  rw [key_foldl_join Binding.span_join, (hkeys y (List.mem_cons_self ..)).2]
  exact hspan

theorem offers_ne_nil_iff {ms : List Match} {b : Binding} (hb : b ∈ bindings ms) :
    b.offers ≠ [] ↔ IsTyped ms b.span := by
  rw [offers_of_mem hb]
  constructor
  · intro hne
    obtain ⟨x, hx⟩ := List.exists_mem_of_ne_nil _ hne
    obtain ⟨c, hc, hoffer⟩ := List.mem_filterMap.1 hx
    obtain ⟨s, hs, -⟩ := Option.map_eq_some_iff.1 hoffer
    exact ⟨c, hc, s, TypeSlot.ofText?_eq_some_iff.1 hs⟩
  · rintro ⟨c, hc, s, hs⟩ hnil
    have hoffer : offer? c = some (s, c.text) := by
      rw [offer?, TypeSlot.ofText?_eq_some_iff.2 hs]
      rfl
    exact absurd (List.mem_filterMap.2 ⟨c, hc, hoffer⟩) (by simp [hnil])

theorem isTypeAt_of_pick? {priority : TypePriority} {ms : List Match} {b : Binding}
    (hb : b ∈ bindings ms) {type : String} (h : pick? priority b = some type) :
    IsTypeAt priority ms b.span type := by
  unfold pick? at h
  rw [offers_of_mem hb] at h
  simp only [lookup_offers] at h
  obtain ⟨before, s, after, hslots, hs, hbefore⟩ := List.findSome?_eq_some_iff.1 h
  obtain ⟨c, hc, htext⟩ := Option.map_eq_some_iff.1 hs
  obtain ⟨hfield, pre, post, hcaptures, hpre⟩ := List.find?_eq_some_iff_append.1 hc
  refine ⟨before, s, after, hslots, fun r hr d hd hdr => ?_, pre, c, post, hcaptures,
    fun d hd => ?_, beq_iff_eq.1 hfield, htext⟩
  · have hnone := hbefore r hr
    rw [Option.map_eq_none_iff, List.find?_eq_none] at hnone
    exact hnone d hd (beq_iff_eq.2 hdr)
  · simpa using hpre d hd

theorem isSome_pick? {priority : TypePriority} (hpriority : priority.IsComplete) (b : Binding) :
    (pick? priority b).isSome = true ↔ b.offers ≠ [] := by
  unfold pick?
  rw [List.findSome?_isSome_iff]
  constructor
  · rintro ⟨s, -, hs⟩ hnil
    rw [hnil] at hs
    cases hs
  · intro hne
    obtain ⟨⟨s, type⟩, hx⟩ := List.exists_mem_of_ne_nil _ hne
    refine ⟨s, hpriority s, ?_⟩
    by_contra hnone
    rw [Option.not_isSome_iff_eq_none, List.lookup_eq_none_iff] at hnone
    exact absurd rfl (bne_iff_ne.1 (hnone _ hx))

/-! ## The types of some bindings -/

/-- The types of the names of some bindings, which are sorted by where they start. -/
def ofBindings (priority : TypePriority) (bs : List Binding) : Dict :=
  (bs.mergeSort fun a b => a.start ≤ b.start).foldl (note priority) .empty

/-- The bindings are listed in the order of their discovery. -/
theorem ofMatches_eq (priority : TypePriority) (ms : List Match) :
    ofMatches priority ms = ofBindings priority (bindings ms) := rfl

/-- The binding that gives a name its type: the first one that is offered any. -/
def chosen? (bs : List Binding) (name : String) : Option Binding :=
  (bs.mergeSort fun a b => a.start ≤ b.start).find? fun b => b.name == name && !b.offers.isEmpty

section Bindings

variable {priority : TypePriority} (hpriority : priority.IsComplete) {bs : List Binding}

include hpriority in
/-- The priority plays no part in which binding is chosen. -/
theorem get?_ofBindings {name : String} (hname : name ≠ "") :
    (ofBindings priority bs).get? name = (chosen? bs name).bind (pick? priority) := by
  rw [ofBindings, get?_foldl_note, Dict.get?_empty, Option.none_or, chosen?]
  induction bs.mergeSort fun a b => decide (a.start ≤ b.start) with
  | nil => rfl
  | cons b bs ih =>
    rw [List.findSome?_cons, List.find?_cons, ih]
    have hsome := isSome_pick? hpriority b
    unfold typeFor?
    by_cases hb : b.name = name
    · rw [if_pos ⟨hb, hname⟩]
      cases hpick : pick? priority b with
      | none =>
        have hnil : b.offers = [] := by simpa [hpick] using hsome
        simp [hnil]
      | some type =>
        have hne : b.offers.isEmpty = false := by simpa [hpick] using hsome
        simp [hb, hne, hpick]
    · have hfalse : (b.name == name) = false := beq_false_of_ne hb
      rw [if_neg fun h => hb h.1, hfalse]
      rfl

theorem get?_ofBindings_empty : (ofBindings priority bs).get? "" = none := by
  rw [ofBindings, get?_foldl_note, Dict.get?_empty, Option.none_or, List.findSome?_eq_none_iff]
  intro b _
  simp [typeFor?]

theorem chosen?_eq_some {name : String} {b : Binding} (h : chosen? bs name = some b) :
    b ∈ bs ∧ b.name = name ∧ b.offers ≠ [] ∧
      ∀ a ∈ bs, a.name = name → a.offers ≠ [] → b.start ≤ a.start := by
  obtain ⟨hb, pre, post, hsorted, hpre⟩ := List.find?_eq_some_iff_append.1 h
  have hperm : ∀ a, a ∈ pre ++ b :: post ↔ a ∈ bs := fun a => hsorted ▸ List.mem_mergeSort
  simp only [Bool.and_eq_true, beq_iff_eq, Bool.not_eq_true', List.isEmpty_eq_false_iff] at hb
  refine ⟨(hperm b).1 (by simp), hb.1, hb.2, fun a ha hname hoffers => ?_⟩
  have horder := List.pairwise_mergeSort (start_trans Binding.start) (start_total Binding.start) bs
  rw [hsorted] at horder
  rcases List.mem_append.1 ((hperm a).2 ha) with hmem | hmem
  · have hnot := hpre a hmem
    simp [hname, hoffers] at hnot
  · rcases List.mem_cons.1 hmem with rfl | hmem
    · exact Nat.le_refl _
    · have hle := (List.pairwise_cons.1 (List.pairwise_append.1 horder).2.1).1 a hmem
      simpa using hle

theorem chosen?_isSome_iff {name : String} :
    (chosen? bs name).isSome = true ↔ ∃ b ∈ bs, b.name = name ∧ b.offers ≠ [] := by
  simp [chosen?, List.find?_isSome, List.mem_mergeSort]

include hpriority in
theorem contains_ofBindings {name : String} :
    (ofBindings priority bs).contains name = true ↔
      name ≠ "" ∧ ∃ b ∈ bs, b.name = name ∧ b.offers ≠ [] := by
  unfold Dict.contains
  by_cases hname : name = ""
  · subst hname
    simp [get?_ofBindings_empty]
  · rw [get?_ofBindings hpriority hname, ← chosen?_isSome_iff]
    cases hchosen : chosen? bs name with
    | none => simp
    | some b =>
      have hsome := (isSome_pick? hpriority b).2 (chosen?_eq_some hchosen).2.2.1
      simp [hname, hsome]

include hpriority in
/-- The order of the bindings does not matter if those of one name start at different places. -/
theorem ofBindings_perm {cs : List Binding} (hperm : cs.Perm bs)
    (hstart : ∀ a ∈ bs, ∀ b ∈ bs, a.name = b.name → a.name ≠ "" → a.start = b.start → a = b) :
    ofBindings priority cs = ofBindings priority bs := by
  refine Dict.ext_get? fun name => ?_
  by_cases hname : name = ""
  · rw [hname, get?_ofBindings_empty, get?_ofBindings_empty]
  · have hchosen : chosen? cs name = chosen? bs name := by
      have hsome : (chosen? cs name).isSome = (chosen? bs name).isSome := by
        rw [Bool.eq_iff_iff, chosen?_isSome_iff, chosen?_isSome_iff]
        simp only [hperm.mem_iff]
      cases hcs : chosen? cs name with
      | none =>
        rw [hcs] at hsome
        exact (Option.not_isSome_iff_eq_none.1 (by simp [← hsome])).symm
      | some c =>
        rw [hcs] at hsome
        obtain ⟨b, hbs⟩ := Option.isSome_iff_exists.1 hsome.symm
        -- Both come first, so they start at one place.
        obtain ⟨hc, hcname, hcoffers, hcfirst⟩ := chosen?_eq_some hcs
        obtain ⟨hb, hbname, hboffers, hbfirst⟩ := chosen?_eq_some hbs
        have hcb := hcfirst b (hperm.mem_iff.2 hb) hbname hboffers
        have hbc := hbfirst c (hperm.mem_iff.1 hc) hcname hcoffers
        rw [hbs, hstart c (hperm.mem_iff.1 hc) b hb (hcname.trans hbname.symm)
          (hcname ▸ hname) (Nat.le_antisymm hcb hbc)]
    rw [get?_ofBindings hpriority hname, get?_ofBindings hpriority hname, hchosen]

end Bindings

/-! ## The types of some matches -/

section Sliced

variable {src : Source} {ms : List Match} (hms : ∀ m ∈ ms, m.IsSliced src)

include hms

theorem Binds.text_eq {span : Nat × Nat} {name : String} (h : Binds ms span name) :
    span.2 ≤ src.size ∧ name = src.text span.1 span.2 := by
  obtain ⟨m, hm, c, hc, rfl, rfl⟩ := h
  exact hms m hm c (Match.mem_of_firstOf? hc)

/-- Where captures have the texts of their nodes, one identifier has one name. -/
theorem Binds.name_eq {span : Nat × Nat} {name name' : String} (h : Binds ms span name)
    (h' : Binds ms span name') : name = name' := by
  rw [(h.text_eq hms).2, (h'.text_eq hms).2]

/-- Two identifiers with one name start at different places. -/
theorem Binds.span_eq {span span' : Nat × Nat} {name : String} (h : Binds ms span name)
    (h' : Binds ms span' name) (hname : name ≠ "") (hstart : span.1 = span'.1) : span = span' := by
  obtain ⟨hstop, htext⟩ := h.text_eq hms
  obtain ⟨hstop', htext'⟩ := h'.text_eq hms
  refine Prod.ext hstart (Source.stop_eq hstop hstop' ?_ (htext ▸ hname))
  rw [← htext, htext', hstart]

theorem exists_binding_iff {span : Nat × Nat} {name : String} :
    (∃ b ∈ bindings ms, b.span = span ∧ b.name = name) ↔ Binds ms span name := by
  constructor
  · rintro ⟨b, hb, rfl, rfl⟩
    exact binds_of_mem hb
  · intro h
    obtain ⟨b, hb, rfl⟩ := exists_binding h
    exact ⟨b, hb, rfl, (binds_of_mem hb).name_eq hms h⟩

theorem eq_of_start_eq {a b : Binding} (ha : a ∈ bindings ms) (hb : b ∈ bindings ms)
    (hname : a.name = b.name) (hne : a.name ≠ "") (hstart : a.start = b.start) : a = b := by
  have hspan : a.span = b.span :=
    (binds_of_mem ha).span_eq hms (hname ▸ binds_of_mem hb) hne hstart
  have hnodup := nodup_keys_gather Binding.span_join (ms.filterMap binding?)
  rw [← bindings_eq] at hnodup
  exact List.inj_on_of_nodup_map hnodup ha hb hspan

/-- The map of types as it reads: a name has a type if an identifier of this name has one, and then
    the type of the first such identifier. It is the same for every order of the bindings. -/
theorem ofMatches_reading (listed : List TypeSlot) :
    let types := ofMatches (.of listed) ms
    (∀ name, types.contains name = true ↔
        name ≠ "" ∧ ∃ span, Binds ms span name ∧ IsTyped ms span) ∧
      (∀ name type, types.get? name = some type → ∃ span, Binds ms span name ∧ IsTyped ms span ∧
        (∀ span', Binds ms span' name → IsTyped ms span' → span' = span ∨ span.1 < span'.1) ∧
        IsTypeAt (.of listed) ms span type) ∧
      ∀ bs, bs.Perm (bindings ms) → ofBindings (.of listed) bs = types := by
  have hpriority := TypePriority.isComplete_of listed
  refine ⟨fun name => ?_, fun name type htype => ?_, fun bs hperm => ?_⟩
  · rw [ofMatches_eq, contains_ofBindings hpriority]
    refine and_congr_right fun _ => ⟨?_, ?_⟩
    · rintro ⟨b, hb, rfl, hoffers⟩
      exact ⟨b.span, binds_of_mem hb, (offers_ne_nil_iff hb).1 hoffers⟩
    · rintro ⟨span, hbinds, htyped⟩
      obtain ⟨b, hb, rfl, rfl⟩ := (exists_binding_iff hms).2 hbinds
      exact ⟨b, hb, rfl, (offers_ne_nil_iff hb).2 htyped⟩
  · have hname : name ≠ "" := by
      rintro rfl
      rw [ofMatches_eq, get?_ofBindings_empty] at htype
      cases htype
    rw [ofMatches_eq, get?_ofBindings hpriority hname] at htype
    obtain ⟨b, hchosen, hpick⟩ := Option.bind_eq_some_iff.1 htype
    obtain ⟨hb, rfl, hoffers, hfirst⟩ := chosen?_eq_some hchosen
    refine ⟨b.span, binds_of_mem hb, (offers_ne_nil_iff hb).1 hoffers,
      fun span' hbinds htyped => ?_, isTypeAt_of_pick? hb hpick⟩
    obtain ⟨a, ha, rfl, hname'⟩ := (exists_binding_iff hms).2 hbinds
    have hle := hfirst a ha hname' ((offers_ne_nil_iff ha).2 htyped)
    rcases Nat.lt_or_eq_of_le hle with hlt | heq
    · exact .inr hlt
    · exact .inl (hbinds.span_eq hms (binds_of_mem hb) hname heq.symm)
  · exact ofBindings_perm hpriority hperm fun a ha b hb => eq_of_start_eq hms ha hb

end Sliced

/-- Two bindings of `x` in `x:P<U>;x:T`, the later one first. What is captured for the earlier one
    comes in two matches. -/
def boundTwice : List Match :=
  let captured := fun (field text : String) (start stop : Nat) =>
    (⟨TypeRules.typeAs field, text, .root (.node ⟨.identifier, none, false, start, stop⟩ [])⟩ :
      Capture)
  [⟨0, [captured "variable" "x" 7 8, captured "name" "T" 9 10]⟩,
   ⟨0, [captured "variable" "x" 0 1, captured "base" "P" 2 3]⟩,
   ⟨0, [captured "variable" "x" 0 1, captured "arg" "U" 4 5]⟩]

theorem bindings_boundTwice : bindings boundTwice =
    [⟨"x", 7, 8, [(.name, "T")]⟩, ⟨"x", 0, 1, [(.base, "P"), (.arg, "U")]⟩] := rfl

/-- The earlier binding counts. -/
theorem get?_boundTwice (listed : List TypeSlot) :
    (ofMatches (.of listed) boundTwice).get? "x" =
      pick? (.of listed) ⟨"x", 0, 1, [(.base, "P"), (.arg, "U")]⟩ := by
  have hchosen : chosen? (bindings boundTwice) "x" =
      some ⟨"x", 0, 1, [(.base, "P"), (.arg, "U")]⟩ := by
    rw [bindings_boundTwice]
    simp [chosen?, List.mergeSort]
  rw [ofMatches_eq, get?_ofBindings (TypePriority.isComplete_of listed) (by decide), hchosen]
  rfl

theorem ofMatches_reading_boundTwice :
    (∀ m ∈ boundTwice, m.IsSliced ⟨"x:P<U>;x:T".toList.map fun c => c.toNat.toUInt8⟩) ∧
      (ofMatches (.of [.base]) boundTwice).get? "x" = some "P" ∧
      ∃ span, Binds boundTwice span "x" ∧ IsTyped boundTwice span ∧
        (∀ span', Binds boundTwice span' "x" → IsTyped boundTwice span' →
          span' = span ∨ span.1 < span'.1) ∧
        IsTypeAt (.of [.base]) boundTwice span "P" := by
  have hsliced : ∀ m ∈ boundTwice,
      m.IsSliced ⟨"x:P<U>;x:T".toList.map fun c => c.toNat.toUInt8⟩ := by
    unfold Match.IsSliced
    decide +kernel
  have htype : (ofMatches (.of [.base]) boundTwice).get? "x" = some "P" :=
    get?_boundTwice [.base]
  exact ⟨hsliced, htype, (ofMatches_reading hsliced [.base]).2.1 "x" "P" htype⟩

/-! ## What a priority decides -/

/-- How a map of types depends on the priority: which names have a type does not, and whatever
    the priority, the type of a name is captured for the same binding, the first one of the name
    that is typed. -/
structure OnlyChooses (ms : List Match) (types : TypePriority → Dict) : Prop where
  contains_iff : ∀ listed listed' name,
    (types (.of listed)).contains name = true ↔ (types (.of listed')).contains name = true
  exists_binding : ∀ listed name, (types (.of listed)).contains name = true →
    ∃ b ∈ bindings ms, b.name = name ∧ IsTyped ms b.span ∧
      (∀ a ∈ bindings ms, a.name = name → IsTyped ms a.span → b.start ≤ a.start) ∧
      ∀ listed', ∃ type, (types (.of listed')).get? name = some type ∧
        IsTypeAt (.of listed') ms b.span type

theorem onlyChooses_ofBindings {ms : List Match} {bs : List Binding}
    (hperm : bs.Perm (bindings ms)) : OnlyChooses ms (ofBindings · bs) where
  contains_iff := by
    intro listed listed' name
    rw [contains_ofBindings (TypePriority.isComplete_of listed),
      contains_ofBindings (TypePriority.isComplete_of listed')]
  exists_binding := by
    intro listed name hname
    obtain ⟨hne, hbound⟩ := (contains_ofBindings (TypePriority.isComplete_of listed)).1 hname
    obtain ⟨b, hchosen⟩ := Option.isSome_iff_exists.1 (chosen?_isSome_iff.2 hbound)
    obtain ⟨hmem, hbname, hoffers, hfirst⟩ := chosen?_eq_some hchosen
    have hb : b ∈ bindings ms := hperm.mem_iff.1 hmem
    refine ⟨b, hb, hbname, (offers_ne_nil_iff hb).1 hoffers, fun a ha haname htyped => ?_,
      fun listed' => ?_⟩
    · exact hfirst a (hperm.mem_iff.2 ha) haname ((offers_ne_nil_iff ha).2 htyped)
    · have hcomplete := TypePriority.isComplete_of listed'
      obtain ⟨type, htype⟩ := Option.isSome_iff_exists.1 ((isSome_pick? hcomplete b).2 hoffers)
      refine ⟨type, ?_, isTypeAt_of_pick? hb htype⟩
      rw [get?_ofBindings hcomplete hne, hchosen]
      exact htype

/-- A priority is a complete order that starts with what is listed, and it only chooses: the same
    names have types, and under every priority the type of a name is one that is captured for the
    same binding of it. So it is for every order of the bindings. -/
theorem priority_only_chooses (listed : List TypeSlot) :
    (TypePriority.of listed).Completes listed ∧
      TypePriority.of (TypePriority.of listed).slots = TypePriority.of listed ∧
      ∀ ms, OnlyChooses ms (ofMatches · ms) ∧
        ∀ bs, bs.Perm (bindings ms) → OnlyChooses ms (ofBindings · bs) ∧
          ∀ listed' name, (ofBindings (.of listed) bs).contains name = true ↔
            (ofMatches (.of listed') ms).contains name = true := by
  have hcompletes := TypePriority.completes_of listed
  refine ⟨hcompletes, TypePriority.of_slots hcompletes.nodup (TypePriority.isComplete_of listed),
    fun ms => ⟨onlyChooses_ofBindings (.refl _), fun bs hperm =>
      ⟨onlyChooses_ofBindings hperm, fun listed' name => ?_⟩⟩⟩
  rw [ofMatches_eq, contains_ofBindings (TypePriority.isComplete_of listed),
    contains_ofBindings (TypePriority.isComplete_of listed')]
  simp only [hperm.mem_iff]

/-- The type of `x` in `x:P<U>` is `U`, or `P` if the base comes first. Both are captured for one
    binding. -/
theorem priority_only_chooses_boundTwice :
    (ofMatches (.of []) boundTwice).get? "x" = some "U" ∧
      (ofMatches (.of [.base]) boundTwice).get? "x" = some "P" ∧
      ∃ b ∈ bindings boundTwice, b.name = "x" ∧ IsTypeAt (.of []) boundTwice b.span "U" ∧
        IsTypeAt (.of [.base]) boundTwice b.span "P" := by
  have hchooses : OnlyChooses boundTwice (ofMatches · boundTwice) :=
    ((priority_only_chooses []).2.2 boundTwice).1
  have hu : (ofMatches (.of []) boundTwice).get? "x" = some "U" :=
    get?_boundTwice []
  have hp : (ofMatches (.of [.base]) boundTwice).get? "x" = some "P" :=
    get?_boundTwice [.base]
  obtain ⟨b, hb, hname, -, -, htypes⟩ :=
    hchooses.exists_binding [] "x" (by simp [Dict.contains, hu])
  have htypeAt : ∀ listed type, (ofMatches (.of listed) boundTwice).get? "x" = some type →
      IsTypeAt (.of listed) boundTwice b.span type := by
    intro listed type htype
    obtain ⟨type', htype', htypeAt⟩ := htypes listed
    rw [htype] at htype'
    exact Option.some.inj htype' ▸ htypeAt
  exact ⟨hu, hp, b, hb, hname, htypeAt [] "U" hu, htypeAt [.base] "P" hp⟩

end Typing

end Outline
