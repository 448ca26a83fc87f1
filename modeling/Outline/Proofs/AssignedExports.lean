import Mathlib.Data.List.TakeWhile
import Outline.Proofs.RecordReading
import Outline.Proofs.RegularWords

/-!
# Assignments that export

The rule for assignments guards its targets by a regular expression, and the record of a match is
made by taking the target apart. Both describe the same targets (`assignment_iff_exportsTarget`):
`exports` and `module.exports`, which stand for the whole module, and their members, of which the
first name counts.
-/

namespace Outline

theorem Dict.get?_insertAll (d : Dict) (es : List (String × String)) (key : String) :
    (d.insertAll es).get? key = (es.reverse.lookup key).or (d.get? key) := by
  induction es generalizing d with
  | nil => simp [insertAll]
  | cons e es ih =>
    have hlast : (es.reverse ++ [e]).lookup key =
        (es.reverse.lookup key).or (if key = e.1 then some e.2 else none) := by
      rw [List.lookup_append, lookup_cons_eq]
      rfl
    rw [show d.insertAll (e :: es) = (d.insert e.1 e.2).insertAll es from rfl, ih, get?_insert,
      List.reverse_cons, hlast, Option.or_assoc]
    split_ifs <;> simp

/-- Of several entries with one key the last one counts. -/
theorem Dict.get?_ofList_iff {es : List (String × String)} {key value : String} :
    (ofList es).get? key = some value ↔
      ∃ before after, es = before ++ (key, value) :: after ∧ ∀ e ∈ after, e.1 ≠ key := by
  rw [ofList, get?_insertAll, get?_empty, Option.or_none, List.lookup_eq_some_iff]
  constructor
  · rintro ⟨after, before, heq, hafter⟩
    refine ⟨before.reverse, after.reverse, ?_, fun e he => ?_⟩
    · rw [← List.reverse_reverse es, heq]
      simp
    · have hne := hafter e (List.mem_reverse.1 he)
      intro hkey
      simp [hkey] at hne
  · rintro ⟨before, after, rfl, hafter⟩
    refine ⟨after.reverse, before.reverse, by simp, fun e he => ?_⟩
    have hne := hafter e (List.mem_reverse.1 he)
    simpa using hne.symm

namespace Export

/-! ## Targets -/

/-- The target of an assignment is the whole module. -/
def IsWhole (target : String) : Prop :=
  target = "exports" ∨ target = "module.exports"

/-- The target of an assignment is a member of the module, or something inside of it: the name of
    the member stands between the front and the next dot or the end. -/
def NamesMember (target name : String) : Prop :=
  ∃ front rest, (front = "exports." ∨ front = "module.exports.") ∧
    target = front ++ name ++ rest ∧ '.' ∉ name.toList ∧
      (rest = "" ∨ rest.toList.head? = some '.')

/-- A leading `module.` goes only once, and `exports` does not start with it. -/
theorem targetPath_eq_iff {target path : List Char} (hpath : path.head? = some 'e') :
    targetPath target = path ↔ target = path ∨ target = "module.".toList ++ path := by
  unfold targetPath
  cases hafter : Text.after? "module.".toList target with
  | some rest =>
    obtain rfl := Text.after?_eq_some_iff.1 hafter
    constructor
    · rintro rfl
      exact .inr rfl
    · rintro (rfl | heq)
      · simp at hpath
      · exact List.append_cancel_left heq
  | none =>
    constructor
    · exact .inl
    · rintro (heq | rfl)
      · exact heq
      · rw [Text.after?_eq_some_iff.2 rfl] at hafter
        cases hafter

theorem targetPath_exports_iff {target : String} :
    targetPath target.toList = "exports".toList ↔ IsWhole target := by
  rw [targetPath_eq_iff rfl, IsWhole, ← String.toList_inj, ← String.toList_inj]
  rfl

theorem targetPath_member_iff {target : String} {member : List Char} :
    targetPath target.toList = "exports.".toList ++ member ↔
      ∃ front, (front = "exports." ∨ front = "module.exports.") ∧
        target.toList = front.toList ++ member := by
  rw [targetPath_eq_iff rfl]
  constructor
  · rintro (heq | heq)
    · exact ⟨"exports.", .inl rfl, heq⟩
    · exact ⟨"module.exports.", .inr rfl, heq⟩
  · rintro ⟨front, rfl | rfl, heq⟩
    · exact .inl heq
    · exact .inr heq

theorem namesMember_takeWhile {target front : String} {member : List Char}
    (hfront : front = "exports." ∨ front = "module.exports.")
    (htarget : target.toList = front.toList ++ member) :
    NamesMember target (String.ofList (member.takeWhile (· != '.'))) := by
  refine ⟨front, String.ofList (member.dropWhile (· != '.')), hfront, ?_, ?_, ?_⟩
  · rw [← String.toList_inj, htarget]
    simp
  · rw [String.toList_ofList]
    intro hdot
    simpa using List.mem_takeWhile_imp hdot
  · rw [String.toList_ofList]
    cases hrest : member.dropWhile (· != '.') with
    | nil => exact .inl rfl
    | cons c cs =>
      have hc := List.head_dropWhile_not (p := (· != '.')) (l := member) (by simp [hrest])
      right
      simpa [hrest] using hc

/-- The guard of the rule describes the targets that begin with the module. -/
theorem accepts_exportsTarget_iff {target : List Char} :
    ModuleRules.exportsTarget.accepts target = true ↔
      targetPath target = "exports".toList ∨
        ∃ member, targetPath target = "exports.".toList ++ member := by
  have hbehind : ∀ w : List Char,
      (Text.Regex.seq (.word "exports".toList)
          (.optional (.seq (.exactly '.') .anything))).Describes w ↔
        w = "exports".toList ∨ ∃ member, w = "exports.".toList ++ member := by
    intro w
    rw [Text.Regex.describes_seq_of_single (Text.Regex.describes_word _)]
    simp only [Text.Regex.describes_optional, Text.Regex.describes_anything, and_true,
      Text.Regex.describes_seq_of_single (Text.Regex.describes_exactly '.')]
    constructor
    · rintro ⟨v, rfl, ⟨member, rfl⟩ | rfl⟩
      · exact .inr ⟨member, rfl⟩
      · exact .inl rfl
    · rintro (rfl | ⟨member, rfl⟩)
      · exact ⟨[], rfl, .inr rfl⟩
      · exact ⟨'.' :: member, rfl, .inl ⟨member, rfl⟩⟩
  have hdescribes : ModuleRules.exportsTarget.Describes target ↔ ∃ w,
      (target = w ∨ target = "module.".toList ++ w) ∧
        (w = "exports".toList ∨ ∃ member, w = "exports.".toList ++ member) := by
    constructor
    · rintro ⟨u, w, rfl, hu, hw⟩
      refine ⟨w, ?_, (hbehind w).1 hw⟩
      rcases hu with hu | rfl
      · exact .inr (by rw [(Text.Regex.describes_word _ u).1 hu])
      · exact .inl rfl
    · rintro ⟨w, rfl | rfl, hw⟩
      · exact ⟨[], target, rfl, .inr rfl, (hbehind target).2 hw⟩
      · exact ⟨_, w, rfl, .inl ((Text.Regex.describes_word _ _).2 rfl), (hbehind w).2 hw⟩
  rw [Text.Regex.accepts_iff, hdescribes]
  constructor
  · rintro ⟨w, hw, rfl | ⟨member, rfl⟩⟩
    · exact .inl ((targetPath_eq_iff rfl).2 hw)
    · exact .inr ⟨member, (targetPath_eq_iff rfl).2 hw⟩
  · rintro (hpath | ⟨member, hpath⟩)
    · exact ⟨_, (targetPath_eq_iff rfl).1 hpath, .inl rfl⟩
    · exact ⟨_, (targetPath_eq_iff rfl).1 hpath, .inr ⟨member, rfl⟩⟩

/-! ## Records -/

/-- A property of an object literal exports a name: a shorthand its own as a binding, and a key with
    a value the key. -/
inductive PropertyNames (src : Source) (t : Tree) : String → String → Prop where
  | shorthand : t.kind = .shorthandPropertyIdentifier → PropertyNames src t (t.text src) "binding"
  | pair {key : Tree} : t.kind = .pair → t.child? .key = some key →
      PropertyNames src t (Text.stripQuotes (key.text src)) "value"

/-- The last property of an object literal that exports a name. -/
def LastNames (src : Source) (object : Tree) (name what : String) : Prop :=
  ∃ before p after, object.children = before ++ p :: after ∧ PropertyNames src p name what ∧
    ∀ q ∈ after, ∀ other, ¬ PropertyNames src q name other

/-- The record of an assignment to the whole module: the names of an object literal, or else the
    value as the default. -/
structure ReplacesModule (src : Source) (value : Tree) (e : Export) : Prop where
  ofObject : value.kind = .objectLiteral →
    e.form = .named ∧ ∀ name what, e.names.get? name = some what ↔ LastNames src value name what
  ofOther : value.kind ≠ .objectLiteral →
    e.form = .default ∧ e.names.entries = [("default", "value")]

/-- A match reports the assignment of a value to a target. -/
def Assigns (m : Match) (target : String) (value : Tree) : Prop :=
  (m.field? "commonjs_target").map (·.text) = some target ∧
    (m.field? "commonjs_value").map (·.site.node) = some value

theorem propertyName?_eq_some_iff {src : Source} {t : Tree} {name what : String} :
    propertyName? src t = some (name, what) ↔ PropertyNames src t name what := by
  constructor
  · intro h
    unfold propertyName? at h
    split at h
    · cases h
      exact .shorthand ‹_›
    · obtain ⟨key, hkey, h⟩ := Option.map_eq_some_iff.1 h
      cases h
      exact .pair ‹_› hkey
    · cases h
  · rintro (hkind | ⟨hkind, hkey⟩)
    · simp [propertyName?, hkind]
    · simp [propertyName?, hkind, hkey]

theorem isNamed_of_propertyName? {src : Source} {t : Tree} {x : String × String}
    (h : propertyName? src t = some x) : t.kind.isNamed = true := by
  obtain ⟨name, what⟩ := x
  cases propertyName?_eq_some_iff.1 h with
  | shorthand hkind => rw [hkind]; rfl
  | pair hkind => rw [hkind]; rfl

theorem get?_properties_iff {src : Source} {object : Tree} {name what : String} :
    (Dict.ofList (object.namedChildren.filterMap (propertyName? src))).get? name = some what ↔
      LastNames src object name what := by
  have hall : object.namedChildren.filterMap (propertyName? src) =
      object.children.filterMap (propertyName? src) := by
    rw [Tree.namedChildren, List.filterMap_filter]
    refine List.filterMap_congr fun t _ => ?_
    cases ht : propertyName? src t with
    | none => simp
    | some x => rw [if_pos (isNamed_of_propertyName? ht)]
  rw [hall, Dict.get?_ofList_iff]
  constructor
  · rintro ⟨before, after, heq, hafter⟩
    obtain ⟨ts, rest, hchildren, -, hrest⟩ := List.filterMap_eq_append_iff.1 heq
    obtain ⟨skipped, p, us, rfl, -, hp, rfl⟩ := List.filterMap_eq_cons_iff.1 hrest
    refine ⟨ts ++ skipped, p, us, by simp [hchildren], propertyName?_eq_some_iff.1 hp, ?_⟩
    intro q hq other hnames
    exact hafter _ (List.mem_filterMap.2 ⟨q, hq, propertyName?_eq_some_iff.2 hnames⟩) rfl
  · rintro ⟨before, p, after, hchildren, hp, hafter⟩
    refine ⟨before.filterMap (propertyName? src), after.filterMap (propertyName? src), ?_, ?_⟩
    · rw [hchildren, List.filterMap_append, List.filterMap_cons, propertyName?_eq_some_iff.2 hp]
    · rintro ⟨other, label⟩ hmem rfl
      obtain ⟨q, hq, hnames⟩ := List.mem_filterMap.1 hmem
      exact hafter q hq label (propertyName?_eq_some_iff.1 hnames)

section Records

variable (src : Source) {m : Match} {target : String} {value : Tree}

/-- What a record says comes from the target and the value only. -/
theorem ofAssignment?_eq (h : Assigns m target value) :
    ∃ location, ofAssignment? src m =
      (exposeAssignment? src target.toList value).map fun x =>
        ⟨none, none, x.names, x.aliases, x.form, true, location⟩ := by
  obtain ⟨htarget, hvalue⟩ := h
  obtain ⟨t, ht, rfl⟩ := Option.map_eq_some_iff.1 htarget
  obtain ⟨v, hv, rfl⟩ := Option.map_eq_some_iff.1 hvalue
  refine ⟨((m.field? "commonjs_statement").getD v).site.location src, ?_⟩
  rw [ofAssignment?, ht, hv]
  simp only [Option.bind_eq_bind, Option.bind_some, Option.map_some, Option.getD_some]
  cases exposeAssignment? src t.text.toList v.site.node <;> rfl

theorem exists_record_iff (h : Assigns m target value) :
    (∃ e, ofAssignment? src m = some e) ↔
      targetPath target.toList = "exports".toList ∨
        ∃ member, targetPath target.toList = "exports.".toList ++ member := by
  obtain ⟨location, hrecord⟩ := ofAssignment?_eq src h
  rw [hrecord, ← Option.isSome_iff_exists, Option.isSome_map, exposeAssignment?]
  by_cases hwhole : targetPath target.toList = "exports".toList
  · simp [hwhole]
  · rw [if_neg hwhole, Option.isSome_map, Option.isSome_iff_exists]
    simp only [Text.after?_eq_some_iff, hwhole, false_or]

variable {src}

theorem replacesModule_of_isWhole (h : Assigns m target value) (hwhole : IsWhole target)
    {e : Export} (he : ofAssignment? src m = some e) : ReplacesModule src value e := by
  obtain ⟨location, hrecord⟩ := ofAssignment?_eq src h
  rw [hrecord, exposeAssignment?, if_pos (targetPath_exports_iff.2 hwhole)] at he
  obtain rfl := Option.some.inj he
  constructor
  · intro hobject
    rw [exposeModule, if_pos (beq_iff_eq.2 hobject)]
    exact ⟨rfl, fun name what => get?_properties_iff⟩
  · intro hother
    rw [exposeModule, if_neg (mt beq_iff_eq.1 hother)]
    exact ⟨rfl, rfl⟩

theorem namesMember_of_not_isWhole (h : Assigns m target value) (hwhole : ¬ IsWhole target)
    {e : Export} (he : ofAssignment? src m = some e) :
    e.form = .named ∧ ∃ name, NamesMember target name ∧ e.names.entries = [(name, "value")] := by
  obtain ⟨location, hrecord⟩ := ofAssignment?_eq src h
  rw [hrecord, exposeAssignment?, if_neg (mt targetPath_exports_iff.1 hwhole)] at he
  obtain ⟨x, hx, rfl⟩ := Option.map_eq_some_iff.1 he
  obtain ⟨member, hmember, rfl⟩ := Option.map_eq_some_iff.1 hx
  obtain ⟨front, hfront, htarget⟩ := targetPath_member_iff.1 (Text.after?_eq_some_iff.1 hmember)
  exact ⟨rfl, _, namesMember_takeWhile hfront htarget, rfl⟩

end Records

/-- The assignment of a plain name to a target. -/
def plainAssignment (target : String) : Match :=
  let site : Cursor := .root (.node ⟨.identifier, none, false, 0, 0⟩ [])
  ⟨0, [⟨ModuleRules.exportAs "commonjs_target", target, site⟩,
    ⟨ModuleRules.exportAs "commonjs_value", "", site⟩]⟩

theorem assigns_plainAssignment (target : String) :
    Assigns (plainAssignment target) target (.node ⟨.identifier, none, false, 0, 0⟩ []) :=
  ⟨rfl, rfl⟩

/-- The guard lets exactly those targets through for which there is a record. The record replaces
    the whole module just where the target is the whole module, and otherwise it has the one name
    that the target gives to a member. -/
theorem assignment_iff_exportsTarget (src : Source) {m : Match} {target : String} {value : Tree}
    (h : Assigns m target value) :
    (ModuleRules.exportsTarget.accepts target.toList = true ↔
        ∃ e, ofAssignment? src m = some e) ∧
      (∀ e, ofAssignment? src m = some e →
        (IsWhole target → ReplacesModule src value e) ∧
          (¬ IsWhole target → e.form = .named ∧
            ∃ name, NamesMember target name ∧ e.names.entries = [(name, "value")])) ∧
      (IsWhole target ↔ ∀ m' value', Assigns m' target value' →
        ∃ e, ofAssignment? src m' = some e ∧ ReplacesModule src value' e) := by
  refine ⟨?_, fun e he => ⟨?_, ?_⟩, ?_, ?_⟩
  · rw [accepts_exportsTarget_iff, exists_record_iff src h]
  · exact fun hwhole => replacesModule_of_isWhole h hwhole he
  · exact fun hwhole => namesMember_of_not_isWhole h hwhole he
  · intro hwhole m' value' h'
    obtain ⟨e, he⟩ := (exists_record_iff src h').2 (.inl (targetPath_exports_iff.2 hwhole))
    exact ⟨e, he, replacesModule_of_isWhole h' hwhole he⟩
  · -- A plain name makes the difference: as a module it is the default, and as a member it is not.
    intro hall
    by_contra hwhole
    obtain ⟨e, he, hreplaces⟩ := hall _ _ (assigns_plainAssignment target)
    have hdefault := (hreplaces.ofOther (by decide)).1
    have hnamed := (namesMember_of_not_isWhole (assigns_plainAssignment target) hwhole he).1
    rw [hdefault] at hnamed
    cases hnamed

theorem assignment_iff_exportsTarget_nested :
    ModuleRules.exportsTarget.accepts "module.exports.parse.raw".toList = true ∧
      ∃ e, ofAssignment? ⟨[]⟩ (plainAssignment "module.exports.parse.raw") = some e ∧
        e.form = .named ∧
        ∃ name, NamesMember "module.exports.parse.raw" name ∧
          e.names.entries = [(name, "value")] := by
  have haccepts : ModuleRules.exportsTarget.accepts "module.exports.parse.raw".toList = true := by
    decide +kernel
  obtain ⟨hiff, hrecord, -⟩ := assignment_iff_exportsTarget ⟨[]⟩
    (assigns_plainAssignment "module.exports.parse.raw")
  obtain ⟨e, he⟩ := hiff.1 haccepts
  have hwhole : ¬ IsWhole "module.exports.parse.raw" := by
    unfold IsWhole
    decide +kernel
  exact ⟨haccepts, e, he, (hrecord e he).2 hwhole⟩

end Export

end Outline
