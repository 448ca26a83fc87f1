import Outline.Proofs.ExportAgreement

/-!
# Names that exported declarations bind

A declarator binds a word, or takes a value apart by a pattern, which binds words at any depth.
The record of an exported declaration of variables has one name for each declarator
(`map_declaredNames`), a word or the text of a whole pattern. So it lists the names that the
declaration binds exactly if there is no such pattern.
-/

namespace Outline

open Cursor

/-! ## Patterns -/

namespace Kind

/-- Whether a node of this kind within a pattern is a word that the pattern binds. -/
def isBound : Kind → Bool
  | .identifier | .shorthandPropertyIdentifierPattern | .other "undefined" => true
  | _ => false

/-- Whether a node of this kind is a pattern that takes an object or an array apart. -/
def isDestructuring : Kind → Bool
  | .objectPattern | .other "array_pattern" => true
  | _ => false

/-- Whether a child of a pattern of this kind is a pattern, too, and not a key or a default. -/
def hasPart (k : Kind) (child : Label) : Bool :=
  match k with
  | .objectPattern | .other "array_pattern" | .restPattern => true
  | .pairPattern => child.field == some .value
  | .assignmentPattern | .other "object_assignment_pattern" => child.field == some .left
  | _ => false

end Kind

namespace Tree

mutual

/-- The words that a pattern binds. -/
def boundWords : Tree → List Tree
  | .node l cs => if l.kind.isBound then [.node l cs] else boundAmong l.kind cs

/-- The words that the parts of a pattern bind. -/
def boundAmong (k : Kind) : List Tree → List Tree
  | [] => []
  | t :: ts => if k.hasPart t.label then boundWords t ++ boundAmong k ts else boundAmong k ts

end

theorem boundWords_of_isBound {p : Tree} (h : p.kind.isBound = true) : p.boundWords = [p] := by
  obtain ⟨l, cs⟩ := p
  have hl : l.kind.isBound = true := h
  rw [boundWords, if_pos hl]

mutual

/-- What a declaration is: the declarations within it if it is a `declare` wrapper, or else
    itself. -/
def unwrapped : Tree → List Tree
  | .node l cs => if l.kind == .ambientDeclaration then unwrappedAmong cs else [.node l cs]

/-- What the declarations among some trees are. -/
def unwrappedAmong : List Tree → List Tree
  | [] => []
  | t :: ts =>
    if t.kind.isNamed && t.kind != .comment then unwrapped t ++ unwrappedAmong ts
    else unwrappedAmong ts

end

/-- The names of the declarators of a declaration of variables, which may be patterns. -/
def targets (d : Tree) : List Tree :=
  (d.namedChildren.filter (·.kind == .variableDeclarator)).filterMap (·.child? .name)

/-- The names of all declarators in what a declaration is. -/
def allTargets (d : Tree) : List Tree :=
  d.unwrapped.flatMap targets

/-- The words that a declaration of variables binds. -/
def bindings (d : Tree) : List Tree :=
  d.allTargets.flatMap boundWords

theorem unwrapped_of_ambient {l : Label} (h : l.kind = .ambientDeclaration) (cs : List Tree) :
    (Tree.node l cs).unwrapped = unwrappedAmong cs := by
  rw [unwrapped, h, beq_self_eq_true, if_pos rfl]

theorem unwrapped_of_ne {l : Label} (h : l.kind ≠ .ambientDeclaration) (cs : List Tree) :
    (Tree.node l cs).unwrapped = [.node l cs] := by
  rw [unwrapped, if_neg fun hambient => h (beq_iff_eq.1 hambient)]

end Tree

namespace Export

/-! ## Names in records -/

theorem map_variableNames (src : Source) (d : Tree) :
    (variableNames src d).map Prod.fst = d.targets.map (·.text src) := by
  unfold variableNames Tree.targets
  rw [List.map_filterMap, List.map_filterMap]
  congr 1
  funext v
  unfold declaratorName?
  cases v.child? .name <;> rfl

mutual

/-- A declaration of variables declares one name for each declarator, in their order. -/
theorem map_declaredNames (src : Source) : ∀ d : Tree,
    (∀ b ∈ d.unwrapped, b.kind.isVariables = true) → (∀ p ∈ d.allTargets, p.text src ≠ "") →
      (declaredNames src d).map Prod.fst = d.allTargets.map (·.text src)
  | .node l cs => by
    intro hvars hspelled
    unfold Tree.allTargets at hspelled ⊢
    by_cases hambient : l.kind = .ambientDeclaration
    · rw [Tree.unwrapped_of_ambient hambient] at hvars hspelled ⊢
      have hbelow := map_declaredBelow src cs hvars hspelled
      rw [declaredNames, hambient, beq_self_eq_true, if_pos rfl, ← hbelow]
      -- A wrapper drops empty names, and there is none.
      congr 1
      refine List.filter_eq_self.2 fun x hx => ?_
      have hx : x.1 ∈ (declaredBelow src cs).map Prod.fst := List.mem_map_of_mem hx
      rw [hbelow] at hx
      obtain ⟨p, hp, htext⟩ := List.mem_map.1 hx
      rw [← htext]
      exact bne_iff_ne.2 (hspelled p hp)
    · rw [Tree.unwrapped_of_ne hambient] at hvars ⊢
      rw [declaredNames_variables (hvars _ (List.mem_singleton_self _)), map_variableNames,
        List.flatMap_singleton]

theorem map_declaredBelow (src : Source) : ∀ ts : List Tree,
    (∀ b ∈ Tree.unwrappedAmong ts, b.kind.isVariables = true) →
    (∀ p ∈ (Tree.unwrappedAmong ts).flatMap Tree.targets, p.text src ≠ "") →
      (declaredBelow src ts).map Prod.fst =
        ((Tree.unwrappedAmong ts).flatMap Tree.targets).map (·.text src)
  | [] => fun _ _ => rfl
  | t :: ts => by
    intro hvars hspelled
    unfold declaredBelow
    unfold Tree.unwrappedAmong at hvars hspelled ⊢
    by_cases hnamed : (t.kind.isNamed && t.kind != .comment) = true
    · simp only [if_pos hnamed, List.flatMap_append, List.mem_append, List.map_append] at *
      rw [map_declaredNames src t (fun b hb => hvars b (.inl hb)) fun p hp => hspelled p (.inl hp),
        map_declaredBelow src ts (fun b hb => hvars b (.inr hb)) fun p hp => hspelled p (.inr hp)]
      rfl
    · simp only [if_neg hnamed] at *
      exact map_declaredBelow src ts hvars hspelled

end

theorem contains_names_iff {src : Source} {statement d : Tree}
    (hdefault : statement.hasToken "default" = false)
    (hvars : ∀ b ∈ d.unwrapped, b.kind.isVariables = true)
    (hspelled : ∀ p ∈ d.allTargets, p.text src ≠ "") {key : String} :
    (exposeDeclaration src statement d).names.contains key = true ↔
      ∃ p ∈ d.allTargets, p.text src = key := by
  rw [exposeDeclaration, hdefault, if_neg Bool.false_ne_true, ← List.mem_map,
    ← map_declaredNames src d hvars hspelled, List.mem_map]
  show (Dict.insertAll .empty (declaredNames src d)).contains key = true ↔ _
  rw [Dict.contains_insertAll]
  exact or_iff_right Bool.false_ne_true

theorem contains_names_default {src : Source} {statement d : Tree}
    (hdefault : statement.hasToken "default" = true) {key : String} :
    (exposeDeclaration src statement d).names.contains key = true ↔ key = "default" := by
  rw [exposeDeclaration, if_pos hdefault, exposeDefault]
  show (Dict.insertAll .empty [("default", _)]).contains key = true ↔ _
  rw [Dict.contains_insertAll]
  constructor
  · rintro (h | ⟨x, hx, rfl⟩)
    · cases h
    · rw [List.mem_singleton.1 hx]
  · rintro rfl
    exact .inr ⟨_, List.mem_singleton_self _, rfl⟩

/-! ## Bound names -/

/-- What a grammar promises of an exported declaration of variables: a declarator has a word or a
    pattern that takes a value apart, neither of them empty, and the word `default` is reserved. -/
structure IsSpelled (src : Source) (d : Tree) : Prop where
  shaped : ∀ p ∈ d.allTargets, p.kind.isBound = true ∨ p.kind.isDestructuring = true
  spelled : ∀ p ∈ d.allTargets, p.text src ≠ ""
  reserved : ∀ w ∈ d.bindings, w.text src ≠ "default"

/-- Some names are exactly the words that a declaration binds, and none is a whole pattern. -/
structure ListsBound (src : Source) (d : Tree) (names : Dict) : Prop where
  bound : ∀ key, names.contains key = true ↔ ∃ w ∈ d.bindings, w.text src = key
  unpacked : ∀ p ∈ d.allTargets, p.kind.isDestructuring = true →
    names.contains (p.text src) = false

theorem mem_bindings_iff {d w : Tree} (h : ∀ p ∈ d.allTargets, p.kind.isBound = true) :
    w ∈ d.bindings ↔ w ∈ d.allTargets := by
  unfold Tree.bindings
  rw [List.mem_flatMap]
  constructor
  · rintro ⟨p, hp, hw⟩
    rw [Tree.boundWords_of_isBound (h p hp)] at hw
    rwa [List.mem_singleton.1 hw]
  · intro hw
    refine ⟨w, hw, ?_⟩
    rw [Tree.boundWords_of_isBound (h w hw)]
    exact List.mem_singleton_self w

theorem listsBound_of_targets {src : Source} {d : Tree} (hspelled : IsSpelled src d) {names : Dict}
    (hnames : ∀ key, names.contains key = true ↔ ∃ p ∈ d.allTargets, p.text src = key) :
    ListsBound src d names ↔ ∀ p ∈ d.allTargets, p.kind.isDestructuring = false := by
  constructor
  · intro h p hp
    by_contra hkind
    have hnot := h.unpacked p hp (Bool.not_eq_false _ ▸ hkind)
    rw [(hnames _).2 ⟨p, hp, rfl⟩] at hnot
    cases hnot
  · intro h
    have hbound : ∀ p ∈ d.allTargets, p.kind.isBound = true := by
      intro p hp
      refine (hspelled.shaped p hp).resolve_right fun hkind => ?_
      rw [h p hp] at hkind
      cases hkind
    refine ⟨fun key => ?_, fun p hp hkind => ?_⟩
    · simp only [hnames, mem_bindings_iff hbound]
    · rw [h p hp] at hkind
      cases hkind

variable {language : Language} {fs : FileSystem} {importer : String} {src : Source} {t : Tree}

theorem isNamed_of_unwrapped {d : Tree} (hvars : ∀ b ∈ d.unwrapped, b.kind.isVariables = true) :
    (d.kind.isNamed && d.kind != .error) = true := by
  obtain ⟨l, cs⟩ := d
  show (l.kind.isNamed && l.kind != .error) = true
  by_cases hambient : l.kind = .ambientDeclaration
  · rw [hambient]
    rfl
  · rw [Tree.unwrapped_of_ne hambient] at hvars
    have hvars : l.kind.isVariables = true := hvars _ (List.mem_singleton_self _)
    have hdeclaration := Kind.isDeclaration_of_isVariables hvars
    rw [Kind.isNamed_of_isDeclaration hdeclaration, Bool.true_and]
    exact bne_iff_ne.2 (Kind.ne_of_isDeclaration hdeclaration rfl)

/-- An exported declaration of variables has its record, with one name for each declarator, or with
    the name `default` if the statement has that keyword. These are the names that it binds exactly
    if the keyword is absent and no declarator takes a value apart. -/
theorem listsBound_iff (hknown : language ≠ .unknown) {e d : Cursor} (he : e ∈ preorder t)
    (hkind : e.kind = .exportStatement) (hd : d ∈ e.children)
    (hfield : d.label.field = some .declaration)
    (hvars : ∀ b ∈ d.node.unwrapped, b.kind.isVariables = true)
    (hspelled : IsSpelled src d.node) :
    let r := ofDeclaration src e d
    r ∈ ofMatches fs importer src (Rule.matchesIn (Topic.modules.rules language) src t) ∧
      (e.node.hasToken "default" = false → ∀ key, r.names.contains key = true ↔
        ∃ p ∈ d.node.allTargets, p.text src = key) ∧
      (e.node.hasToken "default" = true → ∀ key, r.names.contains key = true ↔ key = "default") ∧
      (ListsBound src d.node r.names ↔ e.node.hasToken "default" = false ∧
        ∀ p ∈ d.node.allTargets, p.kind.isDestructuring = false) := by
  intro r
  have hnames : e.node.hasToken "default" = false → ∀ key, r.names.contains key = true ↔
      ∃ p ∈ d.node.allTargets, p.text src = key :=
    fun hdefault _ => contains_names_iff hdefault hvars hspelled.spelled
  have hkeyword : e.node.hasToken "default" = true → ∀ key,
      r.names.contains key = true ↔ key = "default" :=
    fun hdefault _ => contains_names_default hdefault
  have hnamed := isNamed_of_unwrapped hvars
  refine ⟨ofDeclaration_mem hknown he hkind hd hfield hnamed, hnames, hkeyword, ?_⟩
  cases hdefault : e.node.hasToken "default" with
  | false =>
    rw [listsBound_of_targets hspelled (hnames hdefault)]
    exact (and_iff_right rfl).symm
  | true =>
    refine ⟨fun h => ?_, fun h => ?_⟩
    · obtain ⟨w, hw, htext⟩ := (h.bound "default").1 ((hkeyword hdefault _).2 rfl)
      exact absurd htext (hspelled.reserved w hw)
    · cases h.1

/-- The record of the constant in a wrapper lists what the declaration binds. -/
theorem listsBound_iff_wrappedConstant :
    let e : Cursor := ⟨wrappedConstant.children.getD 0 wrappedConstant, [wrappedConstant]⟩
    let d : Cursor := ⟨e.node.children.getD 1 wrappedConstant, e.node :: e.above⟩
    e ∈ preorder wrappedConstant ∧ e.kind = .exportStatement ∧ d ∈ e.children ∧
      d.label.field = some .declaration ∧
      (∀ b ∈ d.node.unwrapped, b.kind.isVariables = true) ∧ IsSpelled wrappedSource d.node ∧
      d.node.bindings.map (·.text wrappedSource) = ["x"] ∧
      ofDeclaration wrappedSource e d ∈ ofMatches .empty "/abs/a.ts" wrappedSource
        (Rule.matchesIn (Topic.modules.rules .typescript) wrappedSource wrappedConstant) ∧
      ListsBound wrappedSource d.node (ofDeclaration wrappedSource e d).names := by
  intro e d
  have he : e ∈ preorder wrappedConstant := .tail _ (.head _)
  have hd : d ∈ e.children := .tail _ (.head _)
  have hvars : ∀ b ∈ d.node.unwrapped, b.kind.isVariables = true := by decide +kernel
  have hspelled : IsSpelled wrappedSource d.node := by constructor <;> decide +kernel
  obtain ⟨hmem, -, -, hlists⟩ := @listsBound_iff .typescript .empty "/abs/a.ts" wrappedSource
    wrappedConstant (by decide) e d he rfl hd rfl hvars hspelled
  exact ⟨he, rfl, hd, rfl, hvars, hspelled, by decide +kernel, hmem, hlists.2 (by decide +kernel)⟩

/-- A file that exports what an object is taken apart into. -/
def unpackedSource : Source :=
  .ofString "export const \x7b a, b: [c] \x7d = o;\n"

def unpackedObject : Tree :=
  .node ⟨.other "program", none, false, 0, 32⟩
    [.node ⟨.exportStatement, none, false, 0, 31⟩
      [.node ⟨.token "export", none, false, 0, 6⟩ [],
       .node ⟨.lexicalDeclaration, some .declaration, false, 7, 31⟩
        [.node ⟨.token "const", some (.other "kind"), false, 7, 12⟩ [],
         .node ⟨.variableDeclarator, none, false, 13, 30⟩
          [.node ⟨.objectPattern, some .name, false, 13, 26⟩
            [.node ⟨.token "\x7b", none, false, 13, 14⟩ [],
             .node ⟨.shorthandPropertyIdentifierPattern, none, false, 15, 16⟩ [],
             .node ⟨.token ",", none, false, 16, 17⟩ [],
             .node ⟨.pairPattern, none, false, 18, 24⟩
              [.node ⟨.propertyIdentifier, some .key, false, 18, 19⟩ [],
               .node ⟨.token ":", none, false, 19, 20⟩ [],
               .node ⟨.other "array_pattern", some .value, false, 21, 24⟩
                [.node ⟨.token "[", none, false, 21, 22⟩ [],
                 .node ⟨.identifier, none, false, 22, 23⟩ [],
                 .node ⟨.token "]", none, false, 23, 24⟩ []]],
             .node ⟨.token "\x7d", none, false, 25, 26⟩ []],
           .node ⟨.token "=", none, false, 27, 28⟩ [],
           .node ⟨.identifier, some .value, false, 29, 30⟩ []],
         .node ⟨.token ";", none, false, 30, 31⟩ []]]]

/-- The declaration binds two words, and its record has the pattern as its only name. -/
theorem not_listsBound_unpackedObject :
    let e : Cursor := ⟨unpackedObject.children.getD 0 unpackedObject, [unpackedObject]⟩
    let d : Cursor := ⟨e.node.children.getD 1 unpackedObject, e.node :: e.above⟩
    e ∈ preorder unpackedObject ∧ e.kind = .exportStatement ∧ d ∈ e.children ∧
      d.label.field = some .declaration ∧
      (∀ b ∈ d.node.unwrapped, b.kind.isVariables = true) ∧ IsSpelled unpackedSource d.node ∧
      d.node.bindings.map (·.text unpackedSource) = ["a", "c"] ∧
      (ofMatches .empty "/abs/a.ts" unpackedSource
        (Rule.matchesIn (Topic.modules.rules .typescript) unpackedSource unpackedObject)).map
          (·.names.keys) = [["\x7b a, b: [c] \x7d"]] ∧
      ofDeclaration unpackedSource e d ∈ ofMatches .empty "/abs/a.ts" unpackedSource
        (Rule.matchesIn (Topic.modules.rules .typescript) unpackedSource unpackedObject) ∧
      ¬ ListsBound unpackedSource d.node (ofDeclaration unpackedSource e d).names := by
  intro e d
  have he : e ∈ preorder unpackedObject := .tail _ (.head _)
  have hd : d ∈ e.children := .tail _ (.head _)
  have hspelled : IsSpelled unpackedSource d.node := by constructor <;> decide +kernel
  have hnot : ∀ w ∈ d.node.bindings, w.text unpackedSource ≠ "\x7b a, b: [c] \x7d" := by
    decide +kernel
  refine ⟨he, rfl, hd, rfl, by decide +kernel, hspelled, by decide +kernel, by decide +kernel,
    ofDeclaration_mem (by decide) he rfl hd rfl (by decide +kernel), fun h => ?_⟩
  obtain ⟨w, hw, htext⟩ := (h.bound "\x7b a, b: [c] \x7d").1 (by decide +kernel)
  exact hnot w hw htext

end Export

end Outline
