import Outline.Proofs.WorkingDirectory

/-!
# Texts of routes

The steps that a path says have names that entries may have. A route with such names is said by its
own text, unless it stays somewhere (`ofText_text`). Behind the text of a route, a slash and a name
make one more step (`joinPath_text`), and a dot and an extension make the last step longer
(`ofText_text_append`): a name with that extension, if there is a last step, and otherwise a name
that starts with its only dot and has no extension at all.
-/

namespace Outline

theorem Text.not_mem_of_mem_splitAt {sep : Char} {cs p : List Char} (h : p ∈ splitAt sep cs) :
    sep ∉ p := by
  induction cs generalizing p with
  | nil =>
    obtain rfl := List.mem_singleton.1 h
    exact List.not_mem_nil
  | cons c cs ih =>
    unfold splitAt at h
    by_cases hc : (c == sep) = true
    · rw [if_pos hc] at h
      rcases List.mem_cons.1 h with rfl | h
      · exact List.not_mem_nil
      · exact ih h
    · rw [if_neg hc] at h
      have hne : sep ≠ c := fun heq => hc (beq_iff_eq.2 heq.symm)
      split at h
      · obtain rfl := List.mem_singleton.1 h
        rw [List.mem_singleton]
        exact hne
      · rename_i piece pieces hpieces
        rw [hpieces] at ih
        rcases List.mem_cons.1 h with rfl | h
        · rw [List.mem_cons, not_or]
          exact ⟨hne, ih (List.mem_cons_self ..)⟩
        · exact ih (List.mem_cons_of_mem _ h)

/-! ## Steps -/

namespace Step

/-- Whether a step, if it goes to an entry by its name, has a name that entries may have. -/
def isProper : Step → Bool
  | name n => isName n
  | _ => true

theorem isProper_of_ofPiece? {piece : List Char} {s : Step} (hslash : '/' ∉ piece)
    (h : ofPiece? piece = some s) : s.isProper = true := by
  unfold ofPiece? at h
  split_ifs at h with hblank hup
  · obtain rfl := Option.some.inj h
    rfl
  · obtain rfl := Option.some.inj h
    rw [not_or] at hblank
    have hne : ∀ t : String, piece ≠ t.toList → String.ofList piece ≠ t := by
      rintro t ht rfl
      exact ht String.toList_ofList.symm
    refine isName_iff.2 ⟨hne "" hblank.1, hne "." hblank.2, hne ".." hup, ?_⟩
    rwa [String.toList_ofList]

theorem ofPiece?_text {s : Step} (hs : s.isProper = true) (hhere : s ≠ .here) :
    ofPiece? s.text.toList = some s := by
  cases s with
  | here => exact absurd rfl hhere
  | up => rfl
  | name n =>
    obtain ⟨hempty, hdot, hdots, -⟩ := isName_iff.1 hs
    have hne : ∀ t : String, n ≠ t → n.toList ≠ t.toList := fun t ht heq =>
      ht (String.toList_inj.1 heq)
    have hblank : ¬ (n.toList = [] ∨ n.toList = ['.']) := by
      rw [not_or]
      exact ⟨hne "" hempty, hne "." hdot⟩
    have hup : n.toList ≠ ['.', '.'] := hne ".." hdots
    show ofPiece? n.toList = _
    rw [ofPiece?, if_neg hblank, if_neg hup, String.ofList_toList]

theorem slash_not_mem_text {s : Step} (hs : s.isProper = true) : '/' ∉ s.text.toList := by
  cases s with
  | here => decide
  | up => decide
  | name n => exact (isName_iff.1 hs).2.2.2

theorem text_ne_nil {s : Step} (hs : s.isProper = true) : s.text.toList ≠ [] := by
  cases s with
  | here => decide
  | up => decide
  | name n => exact fun hnil => (isName_iff.1 hs).1 (String.toList_eq_nil_iff.1 hnil)

end Step

theorem extensionOfName?_append (front : List Char) {e : List Char} (he : '.' ∉ e) :
    extensionOfName? (front ++ '.' :: e) = if front = [] then none else some e := by
  have hreverse : (front ++ '.' :: e).reverse = e.reverse ++ '.' :: front.reverse := by simp
  have hpos : ∀ c ∈ e.reverse, (c != '.') = true := by
    intro c hc
    rw [bne_iff_ne]
    rintro rfl
    exact he (List.mem_reverse.1 hc)
  have hdrop : (e.reverse ++ '.' :: front.reverse).dropWhile (· != '.') = '.' :: front.reverse := by
    rw [List.dropWhile_append_of_pos hpos]
    rfl
  have htake : (e.reverse ++ '.' :: front.reverse).takeWhile (· != '.') = e.reverse := by
    rw [List.takeWhile_append_of_pos hpos]
    simp
  simp only [extensionOfName?, hreverse, hdrop, htake, List.reverse_reverse]
  by_cases hfront : front = []
  · subst hfront
    rfl
  · obtain ⟨c, cs, hcs⟩ := List.exists_cons_of_ne_nil (mt List.reverse_eq_nil_iff.1 hfront)
    rw [hcs, if_neg hfront]

namespace Route

/-! ## Reading and printing -/

/-- A route whose names are names that entries may have. -/
def IsProper (r : Route) : Prop :=
  ∀ s ∈ r.steps, s.isProper = true

theorem isProper_ofText (path : String) : (ofText path).IsProper := by
  have hpieces : ∀ p ∈ Text.splitAt '/' path.toList, '/' ∉ p := fun p hp =>
    Text.not_mem_of_mem_splitAt hp
  have hlater : ∀ {pieces : List (List Char)}, (∀ p ∈ pieces, '/' ∉ p) →
      ∀ s ∈ pieces.filterMap Step.ofPiece?, s.isProper = true := by
    intro pieces h s hs
    obtain ⟨p, hp, hs⟩ := List.mem_filterMap.1 hs
    exact Step.isProper_of_ofPiece? (h p hp) hs
  unfold ofText
  split
  · intro s hs
    cases hs
  · rename_i first rest hsplit
    rw [hsplit] at hpieces
    have hrest := hlater fun p hp => hpieces p (List.mem_cons_of_mem _ hp)
    intro s hs
    dsimp only at hs
    split_ifs at hs
    · exact hrest s hs
    · rcases List.mem_cons.1 hs with rfl | hs
      · rfl
      · exact hrest s hs
    · rcases List.mem_append.1 hs with hs | hs
      · have hfirst := hpieces first (List.mem_cons_self ..)
        exact Step.isProper_of_ofPiece? hfirst (Option.mem_toList.1 hs)
      · exact hrest s hs

theorem toList_text (r : Route) :
    r.text.toList = (if r.absolute then ['/'] else []) ++
      ['/'].intercalate (r.steps.map fun s => s.text.toList) := by
  rw [text, String.toList_append, String.toList_intercalate, List.map_map]
  cases r.absolute <;> rfl

/-- A route is said by its text, if it has proper names and does not stay anywhere. -/
theorem ofText_text {r : Route} (h : r.IsProper) (hhere : .here ∉ r.steps) :
    ofText r.text = r := by
  obtain ⟨absolute, steps⟩ := r
  have hsteps : (steps.map fun s => s.text.toList).filterMap Step.ofPiece? = steps := by
    rw [List.filterMap_map]
    refine (List.filterMap_congr fun s hs => ?_).trans List.filterMap_some
    exact Step.ofPiece?_text (h s hs) fun heq => hhere (heq ▸ hs)
  have hpieces : ∀ p ∈ steps.map fun s => s.text.toList, '/' ∉ p := by
    intro p hp
    obtain ⟨s, hs, rfl⟩ := List.mem_map.1 hp
    exact Step.slash_not_mem_text (h s hs)
  cases steps with
  | nil => cases absolute <;> rfl
  | cons s rest =>
    have hsplit : Text.splitAt '/' (['/'].intercalate ((s :: rest).map fun s => s.text.toList)) =
        (s :: rest).map fun s => s.text.toList :=
      Text.splitAt_intercalate (by simp) hpieces
    have hs : s.isProper = true := h s (List.mem_cons_self ..)
    have hne : s ≠ .here := fun heq => hhere (heq ▸ List.mem_cons_self ..)
    cases absolute with
    | true =>
      rw [ofText, toList_text, if_pos rfl, List.singleton_append, Text.splitAt, beq_self_eq_true,
        if_pos rfl, hsplit]
      show (if _ then _ else _) = _
      rw [if_pos ⟨rfl, by simp⟩, hsteps]
    | false =>
      have hdot : s.text.toList ≠ ['.'] := by
        intro heq
        have hpiece := Step.ofPiece?_text hs hne
        rw [heq] at hpiece
        cases hpiece
      rw [ofText, toList_text, if_neg Bool.false_ne_true, List.nil_append, hsplit]
      show (if _ then _ else _) = _
      rw [if_neg fun hroot => Step.text_ne_nil hs hroot.1, if_neg hdot]
      congr 1
      rw [List.map_cons, List.filterMap_cons, Step.ofPiece?_text hs hne] at hsteps
      rw [Step.ofPiece?_text hs hne]
      exact hsteps

/-! ## Texts with something behind them -/

theorem text_singleton (absolute : Bool) (s : Step) :
    text ⟨absolute, [s]⟩ = text ⟨absolute, []⟩ ++ s.text := by
  simp [text]

theorem text_concat (absolute : Bool) {steps : List Step} (hne : steps ≠ []) (s : Step) :
    text ⟨absolute, steps ++ [s]⟩ = text ⟨absolute, steps⟩ ++ "/" ++ s.text := by
  have hmap : steps.map Step.text ≠ [] := fun hnil => hne (List.map_eq_nil_iff.1 hnil)
  rw [text, text, List.map_append, List.map_singleton,
    String.intercalate_append_of_ne_nil hmap (by simp), String.intercalate_singleton]
  simp only [String.append_assoc]

/-- Whatever the last step is, the same text stands in front of it. -/
theorem exists_front (absolute : Bool) (steps : List Step) :
    ∃ front : String, ∀ s : Step, text ⟨absolute, steps ++ [s]⟩ = front ++ s.text := by
  by_cases hne : steps = []
  · subst hne
    exact ⟨text ⟨absolute, []⟩, text_singleton absolute⟩
  · exact ⟨text ⟨absolute, steps⟩ ++ "/", text_concat absolute hne⟩

theorem joinPath_text {r : Route} (h : r.IsProper) (n : String) :
    joinPath r.text n = text ⟨r.absolute, r.steps ++ [.name n]⟩ := by
  obtain ⟨absolute, steps⟩ := r
  rcases List.eq_nil_or_concat' steps with rfl | ⟨init, s, rfl⟩
  · rw [List.nil_append, text_singleton]
    cases absolute <;> simp [joinPath, text, Step.text]
  · -- The text ends as its last step does, so not in a slash.
    have hs : s.isProper = true := h s (by simp)
    obtain ⟨front, hfront⟩ := exists_front absolute init
    have hlast : (text ⟨absolute, init ++ [s]⟩).toList.getLast? =
        some (s.text.toList.getLast (Step.text_ne_nil hs)) := by
      rw [hfront, String.toList_append, List.getLast?_append_of_ne_nil _ (Step.text_ne_nil hs),
        List.getLast?_eq_some_getLast]
    have hslash : s.text.toList.getLast (Step.text_ne_nil hs) ≠ '/' := fun heq =>
      Step.slash_not_mem_text hs (heq ▸ List.getLast_mem _)
    rw [← String.toList_inj, toList_joinPath hlast hslash,
      text_concat absolute (List.concat_ne_nil s init)]
    simp [Step.text]

/-- The text of the last step, or nothing. -/
def lastText (r : Route) : String :=
  (r.steps.getLast?.map Step.text).getD ""

theorem text_append (r : Route) (x : String) :
    r.text ++ x = text ⟨r.absolute, r.steps.dropLast ++ [.name (r.lastText ++ x)]⟩ := by
  obtain ⟨absolute, steps⟩ := r
  rcases List.eq_nil_or_concat' steps with rfl | ⟨init, s, rfl⟩
  · exact (text_singleton absolute (.name x)).symm
  · obtain ⟨front, hfront⟩ := exists_front absolute init
    simp only [List.dropLast_concat, lastText, List.getLast?_concat, Option.map_some,
      Option.getD_some, hfront, Step.text, String.append_assoc]

theorem slash_not_mem_lastText {r : Route} (h : r.IsProper) : '/' ∉ r.lastText.toList := by
  unfold lastText
  cases hlast : r.steps.getLast? with
  | none => exact List.not_mem_nil
  | some s => exact Step.slash_not_mem_text (h s (List.mem_of_getLast? hlast))

theorem lastText_eq_empty {r : Route} (h : r.IsProper) : r.lastText = "" ↔ r.steps = [] := by
  unfold lastText
  cases hlast : r.steps.getLast? with
  | none =>
    exact ⟨fun _ => List.getLast?_eq_none_iff.1 hlast, fun _ => rfl⟩
  | some s =>
    have hs := Step.text_ne_nil (h s (List.mem_of_getLast? hlast))
    constructor
    · intro hempty
      exact absurd (String.toList_eq_nil_iff.2 hempty) hs
    · intro hnil
      rw [hnil] at hlast
      cases hlast

/-- Whether a text may follow a dot as an extension: it is not empty and has no dot and no
    slash. -/
def isExtension (e : String) : Bool :=
  e != "" && !(e.toList.contains '.') && !(e.toList.contains '/')

theorem isExtension_iff {e : String} :
    isExtension e = true ↔ e ≠ "" ∧ '.' ∉ e.toList ∧ '/' ∉ e.toList := by
  simp [isExtension, and_assoc]

theorem isName_append {front e : String} (hfront : '/' ∉ front.toList)
    (he : isExtension e = true) : isName (front ++ ("." ++ e)) = true := by
  obtain ⟨hempty, hdot, hslash⟩ := isExtension_iff.1 he
  have hchars : e.toList ≠ [] := fun hnil => hempty (String.toList_eq_nil_iff.1 hnil)
  -- The last character belongs to the extension, and so is no dot.
  have hlast : ∀ t : String, t.toList.getLast? = some '.' ∨ t = "" → front ++ ("." ++ e) ≠ t := by
    rintro t ht rfl
    rw [String.toList_append, String.toList_append, ← List.append_assoc,
      List.getLast?_append_of_ne_nil _ hchars, List.getLast?_eq_some_getLast hchars] at ht
    rcases ht with ht | ht
    · exact hdot (Option.some.inj ht ▸ List.getLast_mem hchars)
    · exact hempty (by simpa using congrArg String.toList ht)
  refine isName_iff.2 ⟨hlast "" (.inr rfl), hlast "." (.inl rfl), hlast ".." (.inl rfl), ?_⟩
  simp [hfront, hslash]

/-- A dot and an extension behind the text of a route make the last step longer. -/
theorem ofText_text_append {r : Route} (h : r.IsProper) (hhere : .here ∉ r.steps) {e : String}
    (he : isExtension e = true) :
    ofText (r.text ++ ("." ++ e)) =
      ⟨r.absolute, r.steps.dropLast ++ [.name (r.lastText ++ ("." ++ e))]⟩ := by
  rw [text_append]
  refine ofText_text ?_ ?_
  · intro s hs
    rcases List.mem_append.1 hs with hs | hs
    · exact h s (List.dropLast_subset _ hs)
    · rw [List.mem_singleton.1 hs]
      exact isName_append (slash_not_mem_lastText h) he
  · intro hmem
    rcases List.mem_append.1 hmem with hmem | hmem
    · exact hhere (List.dropLast_subset _ hmem)
    · cases List.mem_singleton.1 hmem

/-- With a dot and an extension behind its text, a route has this extension, unless it has no
    steps. -/
theorem extension?_text_append {r : Route} (h : r.IsProper) (hhere : .here ∉ r.steps) {e : String}
    (he : isExtension e = true) :
    (ofText (r.text ++ ("." ++ e))).extension? = if r.steps = [] then none else some e := by
  have hdot := (isExtension_iff.1 he).2.1
  have hname : (r.lastText ++ ("." ++ e)).toList = r.lastText.toList ++ '.' :: e.toList := by simp
  rw [ofText_text_append h hhere he, extension?, fileName?, List.getLast?_concat]
  show (extensionOfName? (r.lastText ++ ("." ++ e)).toList).map String.ofList = _
  simp only [hname, extensionOfName?_append _ hdot, String.toList_eq_nil_iff, lastText_eq_empty h]
  split_ifs
  · rfl
  · rw [Option.map_some, String.ofList_toList]

end Route

end Outline
