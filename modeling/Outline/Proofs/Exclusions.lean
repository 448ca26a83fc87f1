import Outline.Proofs.JoinedPaths
import Outline.Proofs.RegularWords
import Outline.Proofs.WalkedFiles

/-!
# Exclusions

Every exclusion leaves out what it matches, so more of them leave out more (`leavesOut_mono`), and
neither their order nor their number counts. The directories that no walk enters are excluded by
their names at every depth. A path is seen from the start of the walk before it is matched. What is
taken off its front has only dots and slashes in it, or is the path of the start, so the name at its
end stays (`endsIn_relativeTo`).
-/

namespace Outline

/-! ## Bytes of texts -/

theorem Text.toList_loop (bytes : ByteArray) (i : Nat) (done : List UInt8) :
    ByteArray.toList.loop bytes i done = done.reverse ++ bytes.data.toList.drop i := by
  fun_induction ByteArray.toList.loop bytes i done with
  | case1 i done hi ih =>
    have hlength : i < bytes.data.toList.length := hi
    have hbyte : bytes.get! i = bytes.data.toList[i] := getElem!_pos bytes.data i hi
    rw [ih, List.drop_eq_getElem_cons hlength, hbyte]
    simp
  | case2 i done hi =>
    have hlength : bytes.data.toList.length ≤ i := Nat.le_of_not_lt hi
    simp [List.drop_eq_nil_of_le hlength]

theorem Text.encode_append (s t : String) : encode (s ++ t) = encode s ++ encode t := by
  have hbytes : ∀ u : String, encode u = u.toByteArray.data.toList := by
    intro u
    rw [encode, ByteArray.toList, toList_loop]
    rfl
  rw [hbytes, hbytes, hbytes, String.toByteArray_append, ByteArray.data_append, Array.toList_append]

theorem Text.encode_ofList_append (cs ds : List Char) :
    encode (String.ofList (cs ++ ds)) = encode (String.ofList cs) ++ encode (String.ofList ds) := by
  rw [String.ofList_append, encode_append]

/-! ## Names at the end of paths -/

/-- The path is the name, or ends in a slash and the name. -/
def EndsIn (name path : List Char) : Prop :=
  ∃ front, path = front ++ name ∧ (front = [] ∨ front.getLast? = some '/')

/-- Other characters can be taken off the front of a path. -/
theorem EndsIn.of_append {name front path : List Char} (h : EndsIn name (front ++ path))
    (hfront : ∀ c ∈ front, c ∉ name) : EndsIn name path := by
  obtain ⟨before, heq, hbefore⟩ := h
  rcases List.append_eq_append_iff.1 heq with ⟨mid, rfl, rfl⟩ | ⟨mid, rfl, rfl⟩
  · refine ⟨mid, rfl, ?_⟩
    by_cases hmid : mid = []
    · exact .inl hmid
    · right
      rcases hbefore with hnil | hlast
      · exact absurd (List.append_eq_nil_iff.1 hnil).2 hmid
      · rwa [List.getLast?_append_of_ne_nil _ hmid] at hlast
  · -- The name would start inside the front, whose characters it does not have.
    have hmid : mid = [] := by
      rw [List.eq_nil_iff_forall_not_mem]
      intro c hc
      exact hfront c (List.mem_append_right _ hc) (List.mem_append_left _ hc)
    subst hmid
    exact ⟨[], rfl, .inl rfl⟩

namespace RuleSet

theorem dropFront_append (front rest : List Char) : dropFront front (front ++ rest) = rest := by
  rw [dropFront, Text.after?_eq_some_iff.2 rfl]
  rfl

theorem dropFront_cases (front path : List Char) :
    dropFront front path = path ∨ path = front ++ dropFront front path := by
  unfold dropFront
  cases hafter : Text.after? front path with
  | none => exact .inl rfl
  | some rest => exact .inr (Text.after?_eq_some_iff.1 hafter)

theorem exists_append_dropFront (front path : List Char) :
    ∃ dropped, path = dropped ++ dropFront front path ∧ ∀ c ∈ dropped, c ∈ front := by
  rcases dropFront_cases front path with hsame | hcut
  · exact ⟨[], by rw [List.nil_append, hsame], by simp⟩
  · exact ⟨front, hcut, fun c hc => hc⟩

/-- Where the base of a path can be taken off behind something, and also before it, what is left in
    the one case ends what is left in the other. The rest is a rearrangement of that something. -/
theorem exists_of_shift {front base rest tail : List Char}
    (h : front ++ (base ++ rest) = base ++ tail) : ∃ turned, tail = turned ++ rest ∧
      ∀ c ∈ turned, c ∈ front := by
  rw [← List.append_assoc] at h
  rcases List.append_eq_append_iff.1 h with ⟨mid, hbase, rfl⟩ | ⟨turned, hbase, rfl⟩
  · have hmid : mid = [] := by
      have hlength := congrArg List.length hbase
      simp only [List.length_append] at hlength
      apply List.eq_nil_of_length_eq_zero
      omega
    subst hmid
    exact ⟨[], rfl, by simp⟩
  · have hperm : (base ++ turned).Perm (base ++ front) := hbase ▸ List.perm_append_comm
    exact ⟨turned, rfl, fun c hc => ((List.perm_append_left_iff base).1 hperm).mem_iff.1 hc⟩

/-- A path below a directory ends in the same name if it is seen from the directory. -/
theorem endsIn_relativeTo {name : List Char} (hname : ∀ c ∈ "./".toList, c ∉ name) {base : String}
    {path tail : List Char} (hpath : path = base.toList ++ tail) (hends : EndsIn name path)
    (htail : EndsIn name tail) :
    EndsIn name (relativeTo base (dropFront "./".toList path)) := by
  have hdrop : ∀ {front cs}, (∀ c ∈ front, c ∈ "./".toList) → EndsIn name cs →
      EndsIn name (dropFront front cs) := by
    intro front cs hfront h
    obtain ⟨dropped, heq, hdropped⟩ := exists_append_dropFront front cs
    rw [heq] at h
    exact h.of_append fun c hc => hname c (hfront c (hdropped c hc))
  have hseen := hdrop (fun c hc => hc) (hdrop (fun c hc => hc) hends)
  unfold relativeTo
  dsimp only
  split
  · exact hseen
  cases hafter : Text.after? (dropFront "./".toList base.toList)
      (dropFront "./".toList (dropFront "./".toList path)) with
  | none => exact hseen
  | some rest =>
    refine hdrop (by simp) ?_
    -- Of the dots and slashes in front of the path, those in front of the base are dropped first.
    have hshift : ∃ front, (∀ c ∈ front, c ∈ "./".toList) ∧
        front ++ (dropFront "./".toList base.toList ++ rest) =
          dropFront "./".toList base.toList ++ tail := by
      obtain ⟨first, hfirst, hfirst'⟩ := exists_append_dropFront "./".toList path
      obtain ⟨second, hsecond, hsecond'⟩ :=
        exists_append_dropFront "./".toList (dropFront "./".toList path)
      rw [Text.after?_eq_some_iff.1 hafter] at hsecond
      rcases dropFront_cases "./".toList base.toList with hsame | hcut
      · refine ⟨first ++ second, ?_, ?_⟩
        · intro c hc
          exact (List.mem_append.1 hc).elim (hfirst' c) (hsecond' c)
        · rw [List.append_assoc, ← hsecond, ← hfirst, hpath, hsame]
      · refine ⟨second, hsecond', ?_⟩
        rw [← hsecond, hpath]
        nth_rewrite 1 [hcut]
        rw [List.append_assoc, dropFront_append]
    obtain ⟨front, hfront, hshift⟩ := hshift
    obtain ⟨turned, rfl, hturned⟩ := exists_of_shift hshift
    exact htail.of_append fun c hc => hname c (hfront c (hturned c hc))

end RuleSet

/-! ## Globs of names -/

namespace Glob

open Text

/-- The glob of a name at every depth. -/
def named (name : List Char) : Glob :=
  ⟨.anyParents :: name.map .literal⟩

theorem describes_literals (cs : List Char) :
    (partsRegex (cs.map .literal)).Describes (encode (String.ofList cs)) := by
  induction cs with
  | nil =>
    show encode (String.ofList []) = []
    decide +kernel
  | cons c cs ih =>
    have hchar : (Regex.word (bytesOf c)).Describes (encode (String.ofList [c])) :=
      (Regex.describes_word ..).2 rfl
    exact ⟨_, _, encode_ofList_append [c] cs, hchar, ih⟩

theorem describes_anyParents {front : List Char} (h : front = [] ∨ front.getLast? = some '/') :
    (partRegex .anyParents).Describes (encode (String.ofList front)) := by
  rcases h with rfl | hlast
  · exact .inl (.inr (describes_literals []))
  · obtain ⟨before, rfl⟩ := List.getLast?_eq_some_iff.1 hlast
    have hslash : (Regex.exactly slash).Describes (encode (String.ofList ['/'])) :=
      (Regex.describes_exactly ..).2 (by decide +kernel)
    exact .inr ⟨_, _, encode_ofList_append before ['/'], Regex.describes_anything _, hslash⟩

theorem accepts_named {name path : List Char} (hname : name ≠ []) (hdot : '.' ∉ name)
    (h : EndsIn name path) : (named name).accepts (encode (String.ofList path)) = true := by
  obtain ⟨front, rfl, hfront⟩ := h
  have hlast : (named name).parts.getLast?.any (isChar '.') = false := by
    obtain ⟨before, c, rfl⟩ := (List.eq_nil_or_concat' name).resolve_left hname
    have hc : '.' ≠ c := fun heq => hdot (heq ▸ by simp)
    rw [named, List.map_append, ← List.cons_append, List.map_singleton, List.getLast?_concat]
    simp [isChar, hc]
  have hregex : (named name).regex = partsRegex (.anyParents :: name.map .literal) := by
    cases name with
    | nil => exact absurd rfl hname
    | cons c cs => rfl
  rw [accepts, hlast, Bool.and_false, Bool.false_and, if_neg Bool.false_ne_true, hregex,
    Regex.accepts_iff]
  exact ⟨_, _, encode_ofList_append front name, describes_anyParents hfront,
    describes_literals name⟩

end Glob

/-! ## Rules of exclusions -/

theorem RuleSet.isSome_verdict?_iff {s : RuleSet} {path : String} {isDirectory : Bool} :
    (s.verdict? path isDirectory).isSome = true ↔ ∃ r ∈ s.rules,
      r.applies (Text.encode (String.ofList (relativeTo s.base path.toList))) isDirectory =
        true := by
  unfold verdict?
  rw [Option.isSome_map, List.find?_isSome]
  simp

namespace Walk

variable {fs : FileSystem} {home : Option String} {root : String} {place : Place}

/-- Exclusions are read line by line. One malformed line spoils them all. -/
theorem exclusions?_eq_some_iff {lines : List String} {rules : List IgnoreRule} :
    exclusions? lines = some rules ↔
      (∀ line ∈ lines, IgnoreLine.read false line.toList ≠ .malformed) ∧
        rules = lines.filterMap fun line => (IgnoreLine.read false line.toList).rule? := by
  induction lines generalizing rules with
  | nil => simp [exclusions?, eq_comm]
  | cons line lines ih =>
    rw [exclusions?, List.forall_mem_cons, List.filterMap_cons]
    cases hread : IgnoreLine.read false line.toList with
    | malformed => simp
    | silent => simpa [IgnoreLine.rule?] using ih
    | rule r =>
      rw [Option.map_eq_some_iff]
      simp only [ih, IgnoreLine.rule?]
      constructor
      · rintro ⟨rules, ⟨hlines, rfl⟩, rfl⟩
        exact ⟨⟨by simp, hlines⟩, rfl⟩
      · rintro ⟨⟨-, hlines⟩, rfl⟩
        exact ⟨_, ⟨hlines, rfl⟩, rfl⟩

/-- Where more is excluded, more is left out. -/
theorem leavesOut_mono {few many : List IgnoreRule} (h : few ⊆ many)
    {inside : List DirectoryRules} {path name : String} {isDirectory : Bool}
    (hout : leavesOut (surroundings fs home root place few) inside path name isDirectory = true) :
    leavesOut (surroundings fs home root place many) inside path name isDirectory = true := by
  unfold leavesOut at hout ⊢
  dsimp only at hout ⊢
  split
  · rfl
  rename_i hmany
  have hfew : ¬ ((surroundings fs home root place few).exclusions.verdict?
      (String.ofList (RuleSet.dropFront "./".toList path.toList)) isDirectory).isSome = true := by
    intro hsome
    obtain ⟨r, hr, happlies⟩ := RuleSet.isSome_verdict?_iff.1 hsome
    exact hmany (RuleSet.isSome_verdict?_iff.2 ⟨r, h hr, happlies⟩)
  rw [if_neg hfew] at hout
  exact hout

/-- The lines of the directories that no walk enters say what they should. -/
theorem read_unwanted {name : String} (h : name ∈ unwanted) :
    IgnoreLine.read false ("!" ++ name ++ "/").toList = .rule ⟨.named name.toList, true, true⟩ := by
  simp only [unwanted, List.mem_cons, List.not_mem_nil, or_false] at h
  rcases h with rfl | rfl | rfl | rfl | rfl | rfl <;> rfl

theorem leavesOut_unwanted {patterns : List String} {exclusions : List IgnoreRule}
    (hexclusions : exclusions? (exclusionLines patterns) = some exclusions) {name : String}
    (hname : name ∈ unwanted) {around : String} (hne : around ≠ "") {y : List Char}
    (haround : around.toList = root.toList ++ y) (inside : List DirectoryRules) :
    leavesOut (surroundings fs home root place exclusions) inside (joinPath around name) name true =
      true := by
  have hplain : name.toList ≠ [] ∧ ∀ c ∈ "./".toList, c ∉ name.toList := by
    simp only [unwanted, List.mem_cons, List.not_mem_nil, or_false] at hname
    rcases hname with rfl | rfl | rfl | rfl | rfl | rfl <;> simp
  have hmem : ⟨.named name.toList, true, true⟩ ∈ exclusions := by
    rw [(exclusions?_eq_some_iff.1 hexclusions).2, List.mem_filterMap]
    refine ⟨"!" ++ name ++ "/", ?_, by rw [read_unwanted hname]; rfl⟩
    exact List.mem_append_left _ (List.mem_map_of_mem hname)
  obtain ⟨x, hpath, hlast, -⟩ := exists_toList_joinPath hne name
  rw [haround, List.append_assoc] at hpath hlast
  have hends : EndsIn name.toList (joinPath around name).toList :=
    ⟨root.toList ++ (y ++ x), by simp [hpath], .inr hlast⟩
  have htail : EndsIn name.toList (y ++ (x ++ name.toList)) := by
    refine ⟨y ++ x, (List.append_assoc ..).symm, ?_⟩
    by_cases hnil : y ++ x = []
    · exact .inl hnil
    · rw [List.getLast?_append_of_ne_nil _ hnil] at hlast
      exact .inr hlast
  have happlies := Glob.accepts_named hplain.1 (hplain.2 '.' (by simp))
    (RuleSet.endsIn_relativeTo hplain.2 hpath hends htail)
  have hsome : ((surroundings fs home root place exclusions).exclusions.verdict? (String.ofList
      (RuleSet.dropFront "./".toList (joinPath around name).toList)) true).isSome = true := by
    refine RuleSet.isSome_verdict?_iff.2 ⟨_, hmem, ?_⟩
    rw [String.toList_ofList]
    exact happlies
  unfold leavesOut
  exact if_pos hsome

end Walk

end Outline
