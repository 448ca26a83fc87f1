import Mathlib.Data.List.TakeWhile
import Outline.Proofs.Collecting
import Outline.Proofs.FileRecords
import Outline.Proofs.Thinning

/-!
# Records of matches in two trees

A match in one tree and the same match in another give the same record if the records' builders read
the same in both: the tokens of statements and specifiers, the names of declarations, the properties
of object literals, the scopes around a declaration, and its signature. Here each builder is reduced
to what it reads.
-/

namespace Outline

open Cursor

/-- Rules that could take a comment for something else report it. -/
theorem Topic.reportsComments (topic : Topic) (language : Language) :
    ∀ r ∈ topic.rules language, r.pattern.reportsComments = true := by
  cases topic <;> cases language <;> decide

/-! ## Captures -/

namespace Match

variable (φ : Cursor → Cursor) (m : Match)

theorem field?_through (field : String) :
    (m.through φ).field? field = (m.field? field).map (Capture.through φ) := by
  simp only [field?, through, List.find?_map]
  rfl

theorem hasField_through (field : String) : (m.through φ).hasField field = m.hasField field := by
  simp only [hasField, through, List.any_map]
  rfl

theorem hasCategory_through (category : String) :
    (m.through φ).hasCategory category = m.hasCategory category := by
  simp only [hasCategory, through, List.any_map]
  rfl

theorem firstOf?_through (fields : List String) :
    (m.through φ).firstOf? fields = (m.firstOf? fields).map (Capture.through φ) := by
  unfold firstOf?
  induction fields with
  | nil => rfl
  | cons f fs ih =>
    rw [List.findSome?_cons, List.findSome?_cons, field?_through, ih]
    cases m.field? f <;> rfl

theorem withAlias?_through (field : String) :
    (m.through φ).withAlias? field =
      (m.withAlias? field).map fun x => (x.1.through φ, x.2.map (Capture.through φ)) := by
  unfold withAlias? through
  rw [List.dropWhile_map]
  have hfield : ((fun c : Capture => c.tag.field != field) ∘ Capture.through φ) =
      fun c => c.tag.field != field := rfl
  rw [hfield]
  cases m.captures.dropWhile fun c => c.tag.field != field with
  | nil => rfl
  | cons c later =>
    simp only [List.map_cons, Option.map_some, List.find?_map]
    rfl

variable {m}

theorem mem_of_field? {field : String} {c : Capture} (h : m.field? field = some c) :
    c ∈ m.captures :=
  List.mem_of_find?_eq_some h

theorem mem_of_firstOf? {fields : List String} {c : Capture} (h : m.firstOf? fields = some c) :
    c ∈ m.captures := by
  obtain ⟨f, -, hf⟩ := List.exists_of_findSome?_eq_some h
  exact mem_of_field? hf

theorem mem_of_withAlias? {field : String} {c : Capture} {renamed : Option Capture}
    (h : m.withAlias? field = some (c, renamed)) : c ∈ m.captures := by
  unfold withAlias? at h
  split at h
  · cases h
  · rename_i d later hd
    cases h
    have : c ∈ m.captures.dropWhile fun c => c.tag.field != field := by simp [hd]
    exact (List.dropWhile_sublist _).subset this

theorem field?_eq_none_iff {field : String} :
    m.field? field = none ↔ ∀ k ∈ m.captures, k.tag.field ≠ field := by
  simp [field?]

theorem withAlias?_eq_none_iff {field : String} :
    m.withAlias? field = none ↔ ∀ k ∈ m.captures, k.tag.field ≠ field := by
  unfold withAlias?
  split
  · rename_i h
    simpa using List.dropWhile_eq_nil_iff.1 h
  · rename_i c later h
    have hne : m.captures.dropWhile (·.tag.field != field) ≠ [] := by simp [h]
    simpa using mt List.dropWhile_eq_nil_iff.2 hne

end Match

/-- Matches of a category that give the same records in another tree give the same list there. -/
theorem filterMap_category_through {α : Type} {φ : Cursor → Cursor} {ms : List Match}
    {f : Match → Option α} (h : ∀ m ∈ ms, f (m.through φ) = f m) (category : String) :
    ((ms.map (Match.through φ)).filter (·.hasCategory category)).filterMap f =
      (ms.filter (·.hasCategory category)).filterMap f := by
  have hcategory : ((·.hasCategory category) ∘ Match.through φ) = (·.hasCategory category) :=
    funext fun m => Match.hasCategory_through φ m category
  rw [List.filter_map, hcategory, List.filterMap_map]
  exact List.filterMap_congr fun m hm => h m (List.mem_filter.1 hm).1

/-! ## Types -/

theorem Typing.binding?_through {φ : Cursor → Cursor} (hφ : Faithful φ) (m : Match) :
    Typing.binding? (m.through φ) = Typing.binding? m := by
  have hoffers : Typing.offersOf (m.through φ) = Typing.offersOf m := by
    simp only [Typing.offersOf, Match.through, List.filterMap_map]
    rfl
  unfold Typing.binding?
  rw [Match.firstOf?_through, hoffers, Option.map_map]
  congr 1
  funext c
  simp [Capture.through, hφ.label]

theorem Typing.ofMatches_through {φ : Cursor → Cursor} (hφ : Faithful φ) (priority : TypePriority)
    (ms : List Match) :
    Typing.ofMatches priority (ms.map (Match.through φ)) = Typing.ofMatches priority ms := by
  have hbindings : (ms.map (Match.through φ)).filterMap Typing.binding? =
      ms.filterMap Typing.binding? := by
    rw [List.filterMap_map]
    exact List.filterMap_congr fun m _ => Typing.binding?_through hφ m
  unfold Typing.ofMatches
  rw [Typing.bindings_eq, hbindings, ← Typing.bindings_eq]

/-! ## Symbols -/

namespace Symbol

/-- A symbol with another signature. -/
def withSignature (s : Symbol) (signature : Signature) : Symbol :=
  { s with
    visibility := signature.visibility
    modifiers := signature.modifiers
    parameters := signature.parameters.map Prod.fst
    parameterTypes := signature.parameters.map Prod.snd
    returnType := signature.returnType }

/-- The signature of the symbol of a name. -/
def signatureOf (src : Source) (site : Cursor) : Signature :=
  (site.declaration?.map (Signature.ofDeclaration src · site)).getD Signature.none

/-- In another tree with the same scopes, the symbol of a name differs in its signature at most. -/
theorem ofName_through {φ : Cursor → Cursor} (hφ : Faithful φ) {src : Source} {site : Cursor}
    (hscope : ∀ a ∈ (site.declaration?.getD site).ancestors,
      scopeName? src (φ a) = scopeName? src a) (name : String) (kind : SymbolKind) :
    ofName src (φ site) name kind =
      (ofName src site name kind).withSignature (signatureOf src (φ site)) := by
  have hqualify := hφ.qualify hscope name
  unfold ofName signatureOf withSignature
  cases hd : site.declaration? with
  | none =>
    rw [hd, Option.getD_none] at hqualify
    simp only [hφ.declaration?, hd, Option.map_none, Option.getD_none, hqualify, hφ.location,
      hφ.isExported]
  | some d =>
    rw [hd, Option.getD_some] at hqualify
    simp only [hφ.declaration?, hd, Option.map_some, Option.getD_some, hqualify, hφ.wrapper?,
      Option.getD_map, hφ.location, hφ.isExported]

theorem ofName_withSignature (src : Source) (site : Cursor) (name : String) (kind : SymbolKind) :
    (ofName src site name kind).withSignature (signatureOf src site) = ofName src site name kind :=
  rfl

theorem nameOf?_through (φ : Cursor → Cursor) (m : Match) :
    nameOf? (m.through φ) = (nameOf? m).map (Capture.through φ) := by
  unfold nameOf?
  rw [Match.field?_through]
  cases m.field? "name" with
  | none => rfl
  | some c =>
    simp only [Option.map_some, Option.filter_some]
    have : (c.through φ).text = c.text := rfl
    rw [this]
    split <;> rfl

theorem mem_of_nameOf? {m : Match} {c : Capture} (h : nameOf? m = some c) :
    c ∈ m.captures ∧ c.text ≠ "" := by
  obtain ⟨hfield, htext⟩ := Option.filter_eq_some_iff.1 h
  exact ⟨Match.mem_of_field? hfield, by simpa using htext⟩

/-- A match offers the same symbol in both trees if the name has the same scopes and signature. -/
theorem found?_through {φ : Cursor → Cursor} (hφ : Faithful φ) {src : Source} {m : Match}
    (hscope : ∀ c ∈ m.captures, ∀ a ∈ (c.site.declaration?.getD c.site).ancestors,
      scopeName? src (φ a) = scopeName? src a)
    (hsignature : ∀ c ∈ m.captures, signatureOf src (φ c.site) = signatureOf src c.site) :
    found? src (m.through φ) = found? src m := by
  unfold found?
  rw [nameOf?_through]
  cases h : nameOf? m with
  | none => rfl
  | some c =>
    have hmem := (mem_of_nameOf? h).1
    simp only [Option.map_some, Capture.through, hφ.label, ofName_through hφ (hscope c hmem),
      hsignature c hmem, ofName_withSignature]

end Symbol

/-! ## Imports -/

/-- Two nodes have the same tokens among their children. -/
def Tree.TokensAgree (t u : Tree) : Prop :=
  ∀ text, t.hasToken text = u.hasToken text

/-- Whether nodes of a kind are specifiers of an import or export clause. -/
def Kind.isSpecifier : Kind → Bool
  | .importSpecifier | .exportSpecifier => true
  | _ => false

namespace Import

variable {φ : Cursor → Cursor} (hφ : Faithful φ) {m : Match}

theorem isTypeOnly_through
    (htok : ∀ c ∈ m.captures, Tree.TokensAgree (φ c.site).node c.site.node)
    {s s' : Option Tree}
    (hs : (s'.any fun s => s.kind == .importSpecifier && s.hasToken "type") =
      s.any fun s => s.kind == .importSpecifier && s.hasToken "type") :
    isTypeOnly (m.through φ) s' = isTypeOnly m s := by
  unfold isTypeOnly
  rw [hs, Match.field?_through]
  cases h : m.field? "statement" with
  | none => rfl
  | some c =>
    have := htok c (Match.mem_of_field? h) "type"
    simp only [Option.map_some, Option.any_some, Capture.through, this]

include hφ

/-- The specifier around a captured name is for types only in both trees or in none. -/
theorem specifier_through {c : Capture}
    (hpar : ∀ p, c.site.parent? = some p → p.kind.isSpecifier = true →
      Tree.TokensAgree (φ p).node p.node) :
    (((φ c.site).parent?.map (·.node)).any fun s =>
        s.kind == .importSpecifier && s.hasToken "type") =
      ((c.site.parent?.map (·.node)).any fun s =>
        s.kind == .importSpecifier && s.hasToken "type") := by
  rw [hφ.parent]
  cases hp : c.site.parent? with
  | none => rfl
  | some p =>
    have hk : (φ p).node.kind = p.node.kind := hφ.kind p
    simp only [Option.map_some, Option.any_some, hk]
    by_cases hi : p.node.kind = .importSpecifier
    · have hspec : p.kind.isSpecifier = true := by simp [Cursor.kind, hi, Kind.isSpecifier]
      rw [hpar p hp hspec "type"]
    · rw [beq_false_of_ne hi, Bool.false_and, Bool.false_and]

theorem locationOf_through (src : Source) : locationOf src (m.through φ) = locationOf src m := by
  unfold locationOf
  have hhead : (m.through φ).captures.head? = m.captures.head?.map (Capture.through φ) := by
    simp [Match.through]
  rw [Match.field?_through, hhead, ← Option.map_or, Option.map_map]
  congr 2
  exact funext fun c => hφ.location src c.site

/-- A match gives the same import in both trees if these have the same tokens at its nodes, and if
    its statement binds names in both or in none where this matters. -/
theorem ofMatch?_through
    (htok : ∀ c ∈ m.captures, Tree.TokensAgree (φ c.site).node c.site.node)
    (hpar : ∀ c ∈ m.captures, ∀ p, c.site.parent? = some p → p.kind.isSpecifier = true →
      Tree.TokensAgree (φ p).node p.node)
    (hbinds : m.field? "namespace" = none → m.field? "default" = none →
      m.withAlias? "named" = none → ∀ s, m.field? "statement" = some s →
        bindsNames (φ s.site).node = bindsNames s.site.node)
    (fs : FileSystem) (importer : String) (src : Source) :
    ofMatch? fs importer src (m.through φ) = ofMatch? fs importer src m := by
  have hnone : isTypeOnly (m.through φ) none = isTypeOnly m none := isTypeOnly_through htok rfl
  unfold ofMatch? binding?
  simp only [Match.firstOf?_through, Match.field?_through, Match.withAlias?_through,
    Match.hasField_through, locationOf_through hφ]
  cases m.firstOf? sourceFields with
  | none => rfl
  | some source =>
    cases hns : m.field? "namespace" with
    | some ns =>
      simp only [Option.map_some, Option.bind_eq_bind, Option.bind_some, hnone]
      rfl
    | none =>
      cases hd : m.field? "default" with
      | some d =>
        simp only [Option.map_some, Option.map_none, Option.bind_eq_bind, Option.bind_some, hnone]
        rfl
      | none =>
        cases hn : m.withAlias? "named" with
        | some x =>
          have hspec := specifier_through hφ (hpar x.1 (Match.mem_of_withAlias? hn))
          have htype := isTypeOnly_through htok hspec
          simp only [Option.map_some, Option.map_none, Option.bind_eq_bind, Option.bind_some,
            Capture.through, htype, Option.map_map]
          rfl
        | none =>
          have hstatement : ((m.field? "statement").map (Capture.through φ)).any
              (fun s => bindsNames s.site.node) =
              (m.field? "statement").any fun s => bindsNames s.site.node := by
            cases hs : m.field? "statement" with
            | none => rfl
            | some s => exact hbinds hns hd hn s hs
          simp only [Option.map_none, Option.map_some, hstatement]
          cases (m.field? "statement").any fun s => bindsNames s.site.node with
          | true => rfl
          | false =>
            simp only [Bool.false_eq_true, if_false, Option.bind_eq_bind, Option.bind_some, hnone]
            rfl

end Import

/-! ## Exports -/

/-- Two nodes read alike to an export: they have the same tokens, declare the same names, and
    expose the same properties. -/
structure Tree.ReadsAlike (src : Source) (t u : Tree) : Prop where
  tokens : Tree.TokensAgree t u
  ownName : (t.child? .name).map (·.text src) = (u.child? .name).map (·.text src)
  declared : Export.declaredNames src t = Export.declaredNames src u
  module : Export.exposeModule src t = Export.exposeModule src u

namespace Export

/-- Whether a match is one of an assignment can be read off its tags. -/
theorem isAssignment_eq {m : Match} (tags : List Tag) (hm : m.captures.map (·.tag) = tags) :
    isAssignment m = tags.any isAssignmentTag := by
  rw [← hm, List.any_map]
  rfl

variable {φ : Cursor → Cursor} (hφ : Faithful φ) {m : Match} {src : Source}

include hφ

theorem exposeValue_through {c : Capture} (h : Tree.ReadsAlike src (φ c.site).node c.site.node) :
    exposeValue src (c.through φ) = exposeValue src c := by
  unfold exposeValue Capture.through
  simp only [hφ.kind, h.ownName]

theorem exposeSpecifier_through {c : Capture}
    (hpar : ∀ p, c.site.parent? = some p → p.kind.isSpecifier = true →
      Tree.TokensAgree (φ p).node p.node) (hasSource : Bool) (renamed : Option Capture) :
    exposeSpecifier hasSource (c.through φ) (renamed.map (Capture.through φ)) =
      exposeSpecifier hasSource c renamed := by
  have hspec : ((φ c.site).parent?.any fun s =>
        s.kind == .exportSpecifier && s.node.hasToken "type") =
      c.site.parent?.any fun s => s.kind == .exportSpecifier && s.node.hasToken "type" := by
    rw [hφ.parent]
    cases hp : c.site.parent? with
    | none => rfl
    | some p =>
      simp only [Option.map_some, Option.any_some, hφ.kind]
      by_cases hi : p.kind = .exportSpecifier
      · have hspec : p.kind.isSpecifier = true := by simp [hi, Kind.isSpecifier]
        rw [hpar p hp hspec "type"]
      · rw [beq_false_of_ne hi, Bool.false_and, Bool.false_and]
  unfold exposeSpecifier
  simp only [Capture.through, hspec, Option.map_map]
  rfl

theorem exposed?_through
    (halike : ∀ c ∈ m.captures, Tree.ReadsAlike src (φ c.site).node c.site.node)
    (hpar : ∀ c ∈ m.captures, ∀ p, c.site.parent? = some p → p.kind.isSpecifier = true →
      Tree.TokensAgree (φ p).node p.node)
    {statement statement' : Tree} (hs : Tree.TokensAgree statement' statement) :
    exposed? src statement' (m.through φ) = exposed? src statement m := by
  unfold exposed?
  simp only [Match.field?_through, Match.hasField_through, Match.withAlias?_through]
  cases hd : m.field? "declaration" with
  | some d =>
    have hdeclared := (halike d (Match.mem_of_field? hd)).declared
    simp only [Option.map_some, exposeDeclaration, Capture.through, hdeclared, hs "default"]
  | none =>
    cases hv : m.field? "value" with
    | some v =>
      have hvalue := exposeValue_through hφ (halike v (Match.mem_of_field? hv))
      simp only [Option.map_some, Option.map_none, hvalue]
    | none =>
      cases hns : m.field? "namespace" with
      | some ns => rfl
      | none =>
        cases hn : m.withAlias? "name" with
        | none => rfl
        | some x =>
          have hspec := exposeSpecifier_through hφ (hpar x.1 (Match.mem_of_withAlias? hn))
            (m.hasField "source") x.2
          simp only [Option.map_some, Option.map_none, hspec]

/-- A match gives the same export in both trees if its nodes read alike. -/
theorem ofMatch?_through
    (halike : ∀ c ∈ m.captures, Tree.ReadsAlike src (φ c.site).node c.site.node)
    (hpar : ∀ c ∈ m.captures, ∀ p, c.site.parent? = some p → p.kind.isSpecifier = true →
      Tree.TokensAgree (φ p).node p.node)
    (fs : FileSystem) (importer : String) :
    ofMatch? fs importer src (m.through φ) = ofMatch? fs importer src m := by
  have hassign : isAssignment (m.through φ) = isAssignment m := by
    rw [isAssignment_eq _ rfl, isAssignment_eq _ rfl, Match.through, List.map_map]
    rfl
  unfold ofMatch?
  rw [hassign]
  congr 1
  · unfold ofAssignment?
    simp only [Match.field?_through]
    cases hv : m.field? "commonjs_value" with
    | none => rfl
    | some v =>
      have hmodule := (halike v (Match.mem_of_field? hv)).module
      have hlocation : (((m.field? "commonjs_statement").map (Capture.through φ)).getD
          (v.through φ)).site.location src =
          ((m.field? "commonjs_statement").getD v).site.location src := by
        rw [Option.getD_map]
        exact hφ.location src _
      have hvalue : (v.through φ).site.node = (φ v.site).node := rfl
      simp only [Option.map_some, Option.map_map, Option.bind_eq_bind, Option.bind_some, hlocation,
        hvalue, exposeAssignment?, hmodule]
      rfl
  · unfold ofStatement?
    simp only [Match.field?_through]
    cases hs : m.field? "statement" with
    | none => rfl
    | some s =>
      have htok := (halike s (Match.mem_of_field? hs)).tokens
      have hexposed := exposed?_through hφ halike hpar htok
      simp only [Option.map_some, Option.map_map, Option.bind_eq_bind, Option.bind_some,
        Capture.through, hexposed, htok "type", hφ.location]
      rfl

end Export

end Outline
