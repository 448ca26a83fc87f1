import Outline.Proofs.Captures
import Outline.Proofs.MatchMaps

/-!
# Trees without comments

`Tree.strip` deletes the comments of a tree and leaves everything else in place. Comments are leaves
that hang under no field (`Tree.bareComments`), so a child under a field, a token, a scope or a
declared name is found in the stripped tree as before, and the nodes of the stripped tree are those
of the tree without the comments (`thinning_strip`, `preorder_strip`). What the parameters of a
function are called and whether an `import` statement binds names is all that may be read in another
way.
-/

namespace Outline

open Cursor

namespace Tree

mutual

/-- A tree without its comments. -/
def strip : Tree → Tree
  | .node l cs => .node l (stripAll cs)

/-- Trees without their comments; those that are comments are left out. -/
def stripAll : List Tree → List Tree
  | [] => []
  | t :: ts => if t.kind == .comment then stripAll ts else t.strip :: stripAll ts

end

mutual

/-- Whether all comments below the root are leaves that hang under no field. -/
def bareComments : Tree → Bool
  | .node _ cs => bareCommentsAmong cs

/-- Whether all comments among some trees and below them are leaves that hang under no field. -/
def bareCommentsAmong : List Tree → Bool
  | [] => true
  | t :: ts =>
    (t.kind != .comment || (t.label.field.isNone && t.children.isEmpty)) && t.bareComments &&
      bareCommentsAmong ts

end

/-- Whether a tree is no comment. -/
def isCode (t : Tree) : Bool :=
  t.kind != .comment

theorem isCode_iff {t : Tree} : t.isCode = true ↔ t.kind ≠ .comment := by
  simp [isCode]

theorem kind_of_isCode {t : Tree} (h : t.isCode = false) : t.kind = .comment := by
  simpa [isCode] using h

theorem stripAll_eq (ts : List Tree) : stripAll ts = (ts.filter isCode).map strip := by
  induction ts with
  | nil => simp [stripAll]
  | cons t ts ih =>
    rw [stripAll, ih, List.filter_cons]
    by_cases h : t.kind = .comment <;> simp [isCode, h]

theorem label_strip (t : Tree) : t.strip.label = t.label := by
  obtain ⟨l, cs⟩ := t
  rw [strip]
  rfl

theorem kind_strip (t : Tree) : t.strip.kind = t.kind :=
  congrArg Label.kind t.label_strip

theorem text_strip (t : Tree) (src : Source) : t.strip.text src = t.text src := by
  simp only [text, label_strip]

theorem children_strip (t : Tree) : t.strip.children = (t.children.filter isCode).map strip := by
  obtain ⟨l, cs⟩ := t
  rw [strip, ← stripAll_eq]
  rfl

theorem bareCommentsAmong_iff {ts : List Tree} :
    bareCommentsAmong ts = true ↔
      ∀ t ∈ ts, (t.isCode = false → t.label.field = none ∧ t.children = []) ∧
        t.bareComments = true := by
  induction ts with
  | nil => simp [bareCommentsAmong]
  | cons t ts ih =>
    rw [bareCommentsAmong, Bool.and_eq_true, ih, List.forall_mem_cons, Bool.and_eq_true]
    refine and_congr (and_congr ?_ Iff.rfl) Iff.rfl
    by_cases h : t.kind = .comment <;> simp [isCode, h]

theorem bareComments_iff {t : Tree} :
    t.bareComments = true ↔
      ∀ u ∈ t.children, (u.isCode = false → u.label.field = none ∧ u.children = []) ∧
        u.bareComments = true := by
  obtain ⟨l, cs⟩ := t
  rw [bareComments, bareCommentsAmong_iff]
  rfl

/-! ## Children -/

section Children

variable {t : Tree} (ht : t.bareComments = true)

theorem hasChild_strip (t : Tree) {k : Kind} (hk : k ≠ .comment) :
    t.strip.hasChild k = t.hasChild k := by
  unfold hasChild
  rw [children_strip, List.any_map, List.any_filter]
  refine List.any_congr rfl fun u => ?_
  rw [Function.comp_apply, kind_strip]
  by_cases h : u.kind = k <;> simp [isCode, h, hk]

theorem tokensAgree_strip (t : Tree) : TokensAgree t.strip t :=
  fun _ => t.hasChild_strip (by simp)

theorem namedChildren_strip (t : Tree) :
    t.strip.namedChildren = (t.namedChildren.filter isCode).map strip := by
  unfold namedChildren
  have hnamed : ((fun u : Tree => u.kind.isNamed) ∘ strip) = fun u => u.kind.isNamed :=
    funext fun u => congrArg Kind.isNamed u.kind_strip
  rw [children_strip, List.filter_map, hnamed, List.filter_filter, List.filter_filter]
  simp only [Bool.and_comm]

include ht

theorem bareComments_of_mem {u : Tree} (hu : u ∈ t.children) : u.bareComments = true :=
  (bareComments_iff.1 ht u hu).2

theorem isCode_of_field {u : Tree} (hu : u ∈ t.children) {f : Field}
    (hf : u.label.field = some f) : u.isCode = true := by
  cases h : u.isCode with
  | true => rfl
  | false => rw [((bareComments_iff.1 ht u hu).1 h).1] at hf; cases hf

/-- The child under a field is the same, stripped. -/
theorem child?_strip (f : Field) : t.strip.child? f = (t.child? f).map strip := by
  unfold child?
  have hfield : ((fun u : Tree => u.label.field == some f) ∘ strip) =
      fun u => u.label.field == some f :=
    funext fun u => by rw [Function.comp_apply, label_strip]
  rw [children_strip, List.find?_map, hfield, ← List.head?_filter, ← List.head?_filter,
    List.filter_filter]
  congr 2
  refine List.filter_congr fun u hu => ?_
  cases hf : u.label.field == some f with
  | true => rw [isCode_of_field ht hu (beq_iff_eq.1 hf), Bool.and_self]
  | false => rw [Bool.false_and]

theorem bareComments_of_child? {f : Field} {u : Tree} (hu : t.child? f = some u) :
    u.bareComments = true :=
  bareComments_of_mem ht (List.mem_of_find?_eq_some hu)

end Children

end Tree

/-! ## Nodes -/

/-- A node in the stripped tree. -/
def stripAt (c : Cursor) : Cursor :=
  ⟨c.node.strip, c.above.map Tree.strip⟩

/-- A node that is no comment, with bare comments below it. -/
def IsClean (c : Cursor) : Prop :=
  c.node.isCode = true ∧ c.node.bareComments = true

theorem faithful_stripAt : Faithful stripAt where
  label c := c.node.label_strip
  parent c := by
    obtain ⟨t, above⟩ := c
    cases above <;> rfl

theorem thinning_strip : Thinning Tree.isCode stripAt IsClean where
  toFaithful := faithful_stripAt
  seen_of_inside hc := hc.1
  children {c} _ := by
    simp only [Cursor.children, stripAt, Tree.children_strip, List.map_map, List.filter_map]
    rfl
  below {c} hc d hd hseen := by
    obtain ⟨t, ht, rfl⟩ := List.mem_map.1 hd
    exact ⟨hseen, Tree.bareComments_of_mem hc.2 ht⟩
  bare {c} hc d hd hseen := by
    obtain ⟨t, ht, rfl⟩ := List.mem_map.1 hd
    exact ⟨Tree.kind_of_isCode hseen, ((Tree.bareComments_iff.1 hc.2 t ht).1 hseen).1⟩

mutual

theorem preorderFrom_strip (above : List Tree) :
    ∀ t : Tree, t.isCode = true → t.bareComments = true →
      preorderFrom (above.map Tree.strip) t.strip =
        ((preorderFrom above t).filter (·.node.isCode)).map stripAt
  | .node l cs => by
    intro hcode hbare
    have hbelow := preorderBelow_strip (.node l cs :: above) cs
      (Tree.bareCommentsAmong_iff.1 (by rwa [Tree.bareComments] at hbare))
    rw [List.map_cons, Tree.strip] at hbelow
    rw [Tree.strip, preorderFrom, preorderFrom, List.filter_cons, if_pos hcode, List.map_cons,
      ← hbelow, stripAt, Tree.strip]

theorem preorderBelow_strip (above : List Tree) :
    ∀ ts : List Tree,
      (∀ t ∈ ts, (t.isCode = false → t.label.field = none ∧ t.children = []) ∧
        t.bareComments = true) →
      preorderBelow (above.map Tree.strip) (Tree.stripAll ts) =
        ((preorderBelow above ts).filter (·.node.isCode)).map stripAt
  | [] => by
    intro _
    simp [Tree.stripAll, preorderBelow]
  | t :: ts => by
    intro hts
    obtain ⟨hleaf, hbare⟩ := hts t (List.mem_cons_self ..)
    have ih := preorderBelow_strip above ts fun u hu => hts u (List.mem_cons_of_mem _ hu)
    rw [preorderBelow, List.filter_append, List.map_append, ← ih, Tree.stripAll]
    cases hcode : t.isCode with
    | true =>
      have hkind : (t.kind == .comment) = false := beq_false_of_ne (Tree.isCode_iff.1 hcode)
      rw [hkind, if_neg Bool.false_ne_true, preorderBelow, preorderFrom_strip above t hcode hbare]
    | false =>
      -- A comment is a leaf, so nothing else is lost with it.
      have hkind : (t.kind == .comment) = true := beq_iff_eq.2 (Tree.kind_of_isCode hcode)
      have hself : preorderFrom above t = [⟨t, above⟩] := by
        obtain ⟨l, cs⟩ := t
        obtain rfl : cs = [] := (hleaf hcode).2
        simp [preorderFrom, preorderBelow]
      rw [hkind, if_pos rfl, hself, List.filter_cons_of_neg (by simp [hcode])]
      rfl

end

/-- The nodes of a stripped tree are those of the tree that are no comments. -/
theorem preorder_strip {t : Tree} (hcode : t.isCode = true) (hbare : t.bareComments = true) :
    preorder t.strip = ((preorder t).filter (·.node.isCode)).map stripAt :=
  preorderFrom_strip [] t hcode hbare

/-! ## What exports read -/

namespace Export

theorem declaratorName?_strip {d : Tree} (hd : d.bareComments = true) (src : Source)
    (constant : Bool) : declaratorName? src constant d.strip = declaratorName? src constant d := by
  unfold declaratorName?
  rw [Tree.child?_strip hd, Tree.child?_strip hd, Option.map_map, Option.any_map]
  simp only [Function.comp_def, Tree.kind_strip, Tree.text_strip]

theorem variableNames_strip {t : Tree} (ht : t.bareComments = true) (src : Source) :
    variableNames src t.strip = variableNames src t := by
  unfold variableNames
  have hkind : ((fun u : Tree => u.kind == .variableDeclarator) ∘ Tree.strip) =
      fun u => u.kind == .variableDeclarator :=
    funext fun u => by rw [Function.comp_apply, Tree.kind_strip]
  have hcode : (t.namedChildren.filter Tree.isCode).filter (·.kind == .variableDeclarator) =
      t.namedChildren.filter (·.kind == .variableDeclarator) := by
    rw [List.filter_filter]
    refine List.filter_congr fun u _ => ?_
    by_cases h : u.kind = .variableDeclarator <;> simp [Tree.isCode, h]
  rw [Tree.namedChildren_strip, List.filter_map, hkind, hcode, List.filterMap_map,
    Tree.tokensAgree_strip t]
  refine List.filterMap_congr fun d hd => ?_
  have hmem : d ∈ t.children := (List.mem_filter.1 (List.mem_filter.1 hd).1).1
  exact declaratorName?_strip (Tree.bareComments_of_mem ht hmem) src _

mutual

theorem declaredNames_strip (src : Source) :
    ∀ t : Tree, t.bareComments = true → declaredNames src t.strip = declaredNames src t
  | .node l cs => by
    intro ht
    have hbelow := declaredBelow_strip src cs
      fun u hu => (Tree.bareComments_iff.1 ht u hu).2
    have hvariables := variableNames_strip ht src
    have hname := Tree.child?_strip ht .name
    rw [Tree.strip] at hvariables hname ⊢
    rw [declaredNames, declaredNames, hbelow, hvariables, hname, Option.map_map]
    simp only [Function.comp_def, Tree.text_strip]

theorem declaredBelow_strip (src : Source) :
    ∀ ts : List Tree, (∀ t ∈ ts, t.bareComments = true) →
      declaredBelow src (Tree.stripAll ts) = declaredBelow src ts
  | [] => by
    intro _
    rw [Tree.stripAll]
  | t :: ts => by
    intro hts
    have ih := declaredBelow_strip src ts fun u hu => hts u (List.mem_cons_of_mem _ hu)
    have ht := declaredNames_strip src t (hts t (List.mem_cons_self ..))
    rw [Tree.stripAll, declaredBelow]
    by_cases hk : t.kind = .comment
    · simp [hk, ih]
    · rw [beq_false_of_ne hk, if_neg Bool.false_ne_true, declaredBelow, Tree.kind_strip, ht, ih]

end

theorem propertyName?_strip {t : Tree} (ht : t.bareComments = true) (src : Source) :
    propertyName? src t.strip = propertyName? src t := by
  unfold propertyName?
  rw [Tree.kind_strip, Tree.text_strip, Tree.child?_strip ht, Option.map_map]
  simp only [Function.comp_def, Tree.text_strip]

theorem exposeModule_strip {t : Tree} (ht : t.bareComments = true) (src : Source) :
    exposeModule src t.strip = exposeModule src t := by
  unfold exposeModule
  have hproperties : t.strip.namedChildren.filterMap (propertyName? src) =
      t.namedChildren.filterMap (propertyName? src) := by
    rw [Tree.namedChildren_strip, List.filterMap_map, List.filterMap_filter]
    refine List.filterMap_congr fun u hu => ?_
    have hbare := Tree.bareComments_of_mem ht (List.mem_filter.1 hu).1
    rw [Function.comp_apply, propertyName?_strip hbare]
    by_cases hk : u.kind = .comment
    · simp [Tree.isCode, hk, propertyName?]
    · simp [Tree.isCode, hk]
  rw [Tree.kind_strip, hproperties]

end Export

theorem Tree.readsAlike_strip {t : Tree} (ht : t.bareComments = true) (src : Source) :
    Tree.ReadsAlike src t.strip t where
  tokens := t.tokensAgree_strip
  ownName := by
    rw [Tree.child?_strip ht, Option.map_map]
    simp only [Function.comp_def, Tree.text_strip]
  declared := Export.declaredNames_strip src t ht
  module := Export.exposeModule_strip ht src

/-! ## What symbols read -/

/-- A node with bare comments below it and below each node above it. -/
def IsBare (c : Cursor) : Prop :=
  c.node.bareComments = true ∧ ∀ a ∈ c.ancestors, a.node.bareComments = true

theorem hereditary_isBare : Hereditary IsBare := by
  rintro c ⟨hc, habove⟩ d hd
  obtain ⟨t, ht, rfl⟩ := List.mem_map.1 hd
  refine ⟨Tree.bareComments_of_mem hc ht, fun a ha => ?_⟩
  rcases List.mem_cons.1 ha with rfl | ha
  · exact hc
  · exact habove a ha

theorem scopeName?_strip {a : Cursor} (ha : a.node.bareComments = true) (src : Source) :
    scopeName? src (stripAt a) = scopeName? src a := by
  unfold scopeName?
  have hname : (stripAt a).node.child? .name = (a.node.child? .name).map Tree.strip :=
    Tree.child?_strip ha .name
  rw [faithful_stripAt.kind, hname, Option.map_map]
  simp only [Function.comp_def, Tree.text_strip]

namespace Signature

theorem visibilityOf_strip (src : Source) (t : Tree) :
    visibilityOf src t.strip.children = visibilityOf src t.children := by
  unfold visibilityOf
  have hkind : ((fun u : Tree => u.kind == .accessibilityModifier) ∘ Tree.strip) =
      fun u => u.kind == .accessibilityModifier :=
    funext fun u => by rw [Function.comp_apply, Tree.kind_strip]
  have hcode : (t.children.filter Tree.isCode).filter (·.kind == .accessibilityModifier) =
      t.children.filter (·.kind == .accessibilityModifier) := by
    rw [List.filter_filter]
    refine List.filter_congr fun u _ => ?_
    by_cases h : u.kind = .accessibilityModifier <;> simp [Tree.isCode, h]
  rw [Tree.children_strip, List.filter_map, hkind, hcode, List.getLast?_map, Option.bind_map]
  simp only [Function.comp_def, Tree.text_strip]

theorem modifiersOf_strip (t : Tree) : modifiersOf t.strip.children = modifiersOf t.children := by
  unfold modifiersOf
  have hmodifiers : t.strip.children.filterMap modifier? = t.children.filterMap modifier? := by
    rw [Tree.children_strip, List.filterMap_map, List.filterMap_filter]
    refine List.filterMap_congr fun u _ => ?_
    simp only [Function.comp_apply, modifier?, Tree.kind_strip]
    by_cases hk : u.kind = .comment <;> simp [Tree.isCode, hk]
  rw [hmodifiers]

theorem returnTypeOf_strip {t : Tree} (ht : t.bareComments = true) (src : Source) :
    returnTypeOf src t.strip = returnTypeOf src t := by
  unfold returnTypeOf
  have hannotation : annotationText src ∘ Tree.strip = annotationText src := by
    funext u
    simp only [Function.comp_apply, annotationText, Tree.text_strip]
  rw [Tree.child?_strip ht, Option.map_map, hannotation]

theorem functionValue?_strip {d c : Cursor} (hd : d.node.bareComments = true) (hc : IsBare c) :
    functionValue? (stripAt d) (stripAt c) = (functionValue? d c).map Tree.strip := by
  have hvalue : ∀ t : Tree, t.bareComments = true →
      (t.strip.child? .value).filter (·.kind.isFunctionValue) =
        ((t.child? .value).filter (·.kind.isFunctionValue)).map Tree.strip := by
    intro t ht
    rw [Tree.child?_strip ht]
    cases t.child? .value with
    | none => rfl
    | some v =>
      simp only [Option.map_some, Option.filter_some, Tree.kind_strip]
      cases v.kind.isFunctionValue <;> rfl
  unfold functionValue?
  rw [faithful_stripAt.kind]
  cases d.kind.isVariables with
  | false => exact hvalue d.node hd
  | true =>
    simp only [if_true, faithful_stripAt.parent_filter c (· == .variableDeclarator)]
    cases hp : c.parent?.filter (·.kind == .variableDeclarator) with
    | none => rfl
    | some p =>
      have hparent := (Option.filter_eq_some_iff.1 hp).1
      exact hvalue p.node (hc.2 p (mem_ancestors_of_parent hparent))

theorem bareComments_of_functionValue? {d c : Cursor} (hd : d.node.bareComments = true)
    (hc : IsBare c) {f : Tree} (hf : functionValue? d c = some f) : f.bareComments = true := by
  unfold functionValue? at hf
  obtain ⟨hf, -⟩ := Option.filter_eq_some_iff.1 hf
  obtain ⟨holder, hholder, hf⟩ := Option.bind_eq_some_iff.1 hf
  refine Tree.bareComments_of_child? ?_ hf
  split at hholder
  · obtain ⟨p, hp, rfl⟩ := Option.map_eq_some_iff.1 hholder
    exact hc.2 p (mem_ancestors_of_parent (Option.filter_eq_some_iff.1 hp).1)
  · obtain rfl := Option.some.inj hholder
    exact hd

/-- The signature of a declaration differs in the names of the parameters at most. -/
theorem ofDeclaration_strip {d c : Cursor} (hd : d.node.bareComments = true) (hc : IsBare c)
    (src : Source) :
    ofDeclaration src (stripAt d) (stripAt c) =
      { ofDeclaration src d c with
        parameters := (ofDeclaration src (stripAt d) (stripAt c)).parameters } := by
  have hheld : isHeld (stripAt d) = isHeld d := by
    unfold isHeld
    rw [faithful_stripAt.kind]
  have hvisibility : visibilityOf src (stripAt d).node.children =
      visibilityOf src d.node.children := visibilityOf_strip src d.node
  have hmodifiers : modifiersOf (stripAt d).node.children = modifiersOf d.node.children :=
    modifiersOf_strip d.node
  have hresult : returnTypeOf src (stripAt d).node = returnTypeOf src d.node :=
    returnTypeOf_strip hd src
  unfold ofDeclaration
  simp only [hheld, hvisibility, hmodifiers, hresult, functionValue?_strip hd hc]
  cases isHeld d with
  | false => rfl
  | true =>
    cases hf : functionValue? d c with
    | none => rfl
    | some f =>
      have hasync : f.strip.hasToken "async" = f.hasToken "async" := f.tokensAgree_strip "async"
      have hreturn := returnTypeOf_strip (bareComments_of_functionValue? hd hc hf) src
      simp only [if_true, Option.map_some, hasync, hreturn]

/-! ### Parameters -/

/-- The pattern that a parameter is named by. -/
def pattern? (t : Tree) : Option Tree :=
  match t.kind with
  | .requiredParameter | .optionalParameter => t.child? .pattern
  | _ => some t

/-- The text of the type that a parameter has; empty if it has none. -/
def annotation (src : Source) (t : Tree) : String :=
  match t.kind with
  | .requiredParameter | .optionalParameter =>
    ((t.child? .type).map (annotationText src)).getD ""
  | _ => ""

/-- The patterns that the parameters in the list of a function are named by. -/
def patterns (f : Tree) : List Tree :=
  match f.child? .parameters with
  | some list => (list.namedChildren.filter Tree.isCode).filterMap pattern?
  | .none => []

/-- Whether a pattern is named by a comment: one that stands right behind the dots of a rest
    element. -/
def takesComment (t : Tree) : Bool :=
  (binder? t).any (·.kind == .comment)

/-- The name and the type of a parameter that is no comment. -/
def parameterOf (src : Source) (t : Tree) : String × String :=
  (((pattern? t).map (patternName src)).getD "", annotation src t)

theorem parameter?_eq {t : Tree} (hcode : t.isCode = true) (src : Source) :
    parameter? src t = some (parameterOf src t) := by
  have hkind := Tree.isCode_iff.1 hcode
  unfold parameter? parameterOf pattern? annotation
  split
  · exact absurd ‹_› hkind
  · simp [*]
  · simp [*]
  · simp [*]

theorem pattern?_strip {t : Tree} (ht : t.bareComments = true) :
    pattern? t.strip = (pattern? t).map Tree.strip := by
  unfold pattern?
  rw [Tree.kind_strip, Tree.child?_strip ht]
  split <;> rfl

theorem annotation_strip {t : Tree} (ht : t.bareComments = true) (src : Source) :
    annotation src t.strip = annotation src t := by
  have htext : annotationText src ∘ Tree.strip = annotationText src := by
    funext u
    simp only [Function.comp_apply, annotationText, Tree.text_strip]
  unfold annotation
  rw [Tree.kind_strip, Tree.child?_strip ht, Option.map_map, htext]

mutual

/-- A pattern that is not named by a comment is named by the same node in the stripped tree. -/
theorem binder?_strip :
    ∀ t : Tree, t.bareComments = true → (∀ b, binder? t = some b → b.isCode = true) →
      binder? t.strip = (binder? t).map Tree.strip
  | .node l cs => by
    intro hbare hcode
    rw [Tree.bareComments] at hbare
    rw [binder?] at hcode
    rw [Tree.strip, binder?, binder?]
    split_ifs at hcode ⊢
    · exact binderUnderLeft?_strip cs hbare hcode
    · exact firstBinder?_strip cs hbare hcode
    · rw [Option.map_some, Tree.strip]

theorem binderUnderLeft?_strip :
    ∀ ts : List Tree, Tree.bareCommentsAmong ts = true →
      (∀ b, binderUnderLeft? ts = some b → b.isCode = true) →
      binderUnderLeft? (Tree.stripAll ts) = (binderUnderLeft? ts).map Tree.strip
  | [] => by
    intro _ _
    rfl
  | t :: ts => by
    intro hbare hcode
    obtain ⟨⟨hleaf, ht⟩, hts⟩ := List.forall_mem_cons.1 (Tree.bareCommentsAmong_iff.1 hbare)
    have ih := binderUnderLeft?_strip ts (Tree.bareCommentsAmong_iff.2 hts)
    rw [binderUnderLeft?] at hcode ⊢
    rw [Tree.stripAll]
    by_cases hleft : (t.label.field == some .left) = true
    · have hkind : ¬ (t.kind == .comment) = true := by
        intro hkind
        have hfield := (hleaf (by simpa [Tree.isCode] using hkind)).1
        rw [hfield] at hleft
        cases hleft
      rw [if_pos hleft] at hcode ⊢
      rw [if_neg hkind, binderUnderLeft?, Tree.label_strip, if_pos hleft]
      exact binder?_strip t ht hcode
    · rw [if_neg hleft] at hcode ⊢
      split_ifs
      · exact ih hcode
      · rw [binderUnderLeft?, Tree.label_strip, if_neg hleft]
        exact ih hcode

theorem firstBinder?_strip :
    ∀ ts : List Tree, Tree.bareCommentsAmong ts = true →
      (∀ b, firstBinder? ts = some b → b.isCode = true) →
      firstBinder? (Tree.stripAll ts) = (firstBinder? ts).map Tree.strip
  | [] => by
    intro _ _
    rfl
  | t :: ts => by
    intro hbare hcode
    obtain ⟨⟨-, ht⟩, hts⟩ := List.forall_mem_cons.1 (Tree.bareCommentsAmong_iff.1 hbare)
    have ih := firstBinder?_strip ts (Tree.bareCommentsAmong_iff.2 hts)
    rw [firstBinder?] at hcode ⊢
    rw [Tree.stripAll]
    by_cases hnamed : t.kind.isNamed = true
    · rw [if_pos hnamed] at hcode ⊢
      -- A comment would be its own binder.
      have hkind : ¬ (t.kind == .comment) = true := by
        intro hkind
        obtain ⟨l, cs⟩ := t
        have hl : l.kind = .comment := beq_iff_eq.1 hkind
        have hself := hcode (.node l cs) (by rw [binder?]; simp [hl])
        exact Tree.isCode_iff.1 hself hl
      rw [if_neg hkind, firstBinder?, Tree.kind_strip, if_pos hnamed]
      exact binder?_strip t ht hcode
    · rw [if_neg hnamed] at hcode ⊢
      split_ifs
      · exact ih hcode
      · rw [firstBinder?, Tree.kind_strip, if_neg hnamed]
        exact ih hcode

end

theorem patternName_strip {t : Tree} (ht : t.bareComments = true) (h : takesComment t = false)
    (src : Source) : patternName src t.strip = patternName src t := by
  have hcode : ∀ b, binder? t = some b → b.isCode = true := by
    intro b hb
    simpa [takesComment, hb, Tree.isCode] using h
  unfold patternName
  rw [binder?_strip t ht hcode, Option.map_map]
  simp only [Function.comp_def, Tree.text_strip]

/-- A parameter is the same in the stripped tree just if its pattern is called the same. -/
theorem parameterOf_strip_iff {t : Tree} (ht : t.bareComments = true) (src : Source) :
    parameterOf src t.strip = parameterOf src t ↔
      ∀ q, pattern? t = some q → patternName src q.strip = patternName src q := by
  unfold parameterOf
  rw [pattern?_strip ht, annotation_strip ht]
  cases pattern? t <;> simp

theorem bareComments_of_mem_patterns {f q : Tree} (hf : f.bareComments = true)
    (hq : q ∈ patterns f) : q.bareComments = true := by
  unfold patterns at hq
  split at hq
  · rename_i list hlist
    obtain ⟨p, hp, hq⟩ := List.mem_filterMap.1 hq
    have hchild := (List.mem_filter.1 (List.mem_filter.1 hp).1).1
    have hbare := Tree.bareComments_of_mem (Tree.bareComments_of_child? hf hlist) hchild
    unfold pattern? at hq
    split at hq
    · exact Tree.bareComments_of_child? hbare hq
    · exact Tree.bareComments_of_child? hbare hq
    · exact Option.some.inj hq ▸ hbare
  · cases hq

/-- The parameters are the same in the stripped tree just if their patterns are called the same. -/
theorem parametersOf_strip_iff {f : Tree} (hf : f.bareComments = true) (src : Source) :
    parametersOf src f.strip = parametersOf src f ↔
      ∀ q ∈ patterns f, patternName src q.strip = patternName src q := by
  unfold parametersOf patterns
  rw [Tree.child?_strip hf, Tree.child?_strip hf]
  cases hlist : f.child? .parameters with
  | none => simp [Function.comp_def, Tree.text_strip]
  | some list =>
    have hlist := Tree.bareComments_of_child? hf hlist
    have hfirst : list.namedChildren.filterMap (parameter? src) =
        (list.namedChildren.filter Tree.isCode).map (parameterOf src) := by
      rw [← List.filterMap_eq_map, List.filterMap_filter]
      refine List.filterMap_congr fun p _ => ?_
      cases hcode : p.isCode with
      | true => rw [parameter?_eq hcode, if_pos rfl, Function.comp_apply]
      | false => simp [parameter?, Tree.kind_of_isCode hcode]
    have hsecond : list.strip.namedChildren.filterMap (parameter? src) =
        (list.namedChildren.filter Tree.isCode).map (parameterOf src ∘ Tree.strip) := by
      rw [Tree.namedChildren_strip, List.filterMap_map, ← List.filterMap_eq_map]
      refine List.filterMap_congr fun p hp => ?_
      have hcode : p.strip.isCode = true := by
        rw [Tree.isCode, Tree.kind_strip]
        exact (List.mem_filter.1 hp).2
      exact parameter?_eq hcode src
    simp only [Option.map_some, hfirst, hsecond, List.map_inj_left, List.mem_filterMap,
      Function.comp_apply, forall_exists_index, and_imp]
    constructor
    · intro h q p hp hq
      have hbare := Tree.bareComments_of_mem hlist (List.mem_filter.1 (List.mem_filter.1 hp).1).1
      exact (parameterOf_strip_iff hbare src).1 (h p hp) q hq
    · intro h p hp
      have hbare := Tree.bareComments_of_mem hlist (List.mem_filter.1 (List.mem_filter.1 hp).1).1
      exact (parameterOf_strip_iff hbare src).2 fun q hq => h q p hp hq

end Signature

/-- The function that gives the symbol of a name its parameters. -/
def Symbol.functionOf? (site : Cursor) : Option Tree :=
  site.declaration?.bind fun d =>
    if Signature.isHeld d then Signature.functionValue? d site else some d.node

theorem Symbol.parameters_signatureOf (src : Source) (site : Cursor) :
    (Symbol.signatureOf src site).parameters =
      ((Symbol.functionOf? site).map (Signature.parametersOf src)).getD [] := by
  unfold Symbol.signatureOf Symbol.functionOf? Signature.ofDeclaration
  cases site.declaration? with
  | none => rfl
  | some d =>
    simp only [Option.map_some, Option.getD_some, Option.bind_some]
    cases Signature.isHeld d with
    | false => rfl
    | true => cases Signature.functionValue? d site <;> rfl

theorem Symbol.functionOf?_strip {c : Cursor} (hc : IsBare c) :
    Symbol.functionOf? (stripAt c) = (Symbol.functionOf? c).map Tree.strip := by
  unfold Symbol.functionOf?
  rw [faithful_stripAt.declaration?]
  cases hd : c.declaration? with
  | none => rfl
  | some d =>
    have hbare := hc.2 d (mem_of_declaration? hd).1
    have hheld : Signature.isHeld (stripAt d) = Signature.isHeld d := by
      unfold Signature.isHeld
      rw [faithful_stripAt.kind]
    simp only [Option.map_some, Option.bind_some, hheld, Signature.functionValue?_strip hbare hc]
    split <;> rfl

theorem Symbol.bareComments_of_functionOf? {c : Cursor} (hc : IsBare c) {f : Tree}
    (hf : Symbol.functionOf? c = some f) : f.bareComments = true := by
  obtain ⟨d, hd, hf⟩ := Option.bind_eq_some_iff.1 hf
  have hbare := hc.2 d (mem_of_declaration? hd).1
  split at hf
  · exact Signature.bareComments_of_functionValue? hbare hc hf
  · exact Option.some.inj hf ▸ hbare

/-- The symbol of a name has the same parameters in the stripped tree just if no comment stands for
    the name of one that is called otherwise without it. -/
theorem Symbol.parameters_strip_iff {c : Cursor} (hc : IsBare c) (src : Source) :
    (Symbol.signatureOf src (stripAt c)).parameters = (Symbol.signatureOf src c).parameters ↔
      ∀ f, Symbol.functionOf? c = some f → ∀ q ∈ Signature.patterns f,
        Signature.takesComment q = true →
          Signature.patternName src q.strip = Signature.patternName src q := by
  rw [Symbol.parameters_signatureOf, Symbol.parameters_signatureOf, Symbol.functionOf?_strip hc]
  cases hf : Symbol.functionOf? c with
  | none => simp
  | some f =>
    have hbare := Symbol.bareComments_of_functionOf? hc hf
    simp only [Option.map_some, Option.getD_some, Option.some.injEq, forall_eq',
      Signature.parametersOf_strip_iff hbare]
    refine forall₂_congr fun q hq => ?_
    cases htakes : Signature.takesComment q with
    | true => simp
    | false =>
      have hname := Signature.patternName_strip
        (Signature.bareComments_of_mem_patterns hbare hq) htakes src
      simp [hname]

theorem Symbol.signatureOf_strip {c : Cursor} (hc : IsBare c) (src : Source) :
    Symbol.signatureOf src (stripAt c) =
      { Symbol.signatureOf src c with
        parameters := (Symbol.signatureOf src (stripAt c)).parameters } := by
  unfold Symbol.signatureOf
  rw [faithful_stripAt.declaration?]
  cases hd : c.declaration? with
  | none => rfl
  | some d =>
    exact Signature.ofDeclaration_strip (hc.2 d (mem_of_declaration? hd).1) hc src

/-! ## What imports read -/

/-- A statement that binds names without its comments binds names with them. -/
theorem Import.bindsNames_of_strip {t : Tree} (h : Import.bindsNames t.strip = true) :
    Import.bindsNames t = true := by
  unfold Import.bindsNames at h ⊢
  obtain ⟨clause', hclause, h⟩ := List.any_eq_true.1 h
  obtain ⟨hclause, hkind⟩ := List.mem_filter.1 hclause
  rw [Tree.children_strip] at hclause
  obtain ⟨clause, hmem, rfl⟩ := List.mem_map.1 hclause
  obtain ⟨u', hu, hbinder⟩ := List.any_eq_true.1 h
  rw [Tree.namedChildren_strip] at hu
  obtain ⟨u, hnamed, rfl⟩ := List.mem_map.1 hu
  rw [Tree.kind_strip] at hkind
  refine List.any_eq_true.2 ⟨clause, List.mem_filter.2 ⟨(List.mem_filter.1 hmem).1, hkind⟩, ?_⟩
  refine List.any_eq_true.2 ⟨u, (List.mem_filter.1 hnamed).1, ?_⟩
  unfold Import.isBinder at hbinder ⊢
  rw [Tree.kind_strip, Tree.namedChildren_strip] at hbinder
  rcases Bool.or_eq_true_iff.1 hbinder with hk | hne
  · rw [hk, Bool.true_or]
  · cases hinner : u.namedChildren with
    | nil => simp [hinner] at hne
    | cons v vs => simp

end Outline
