import Outline.Proofs.CursorMaps
import Outline.Symbol.Extract

/-!
# Qualified names

The walk through the scopes around a node collects their names and writes them down in reverse. The
same text is found by recursion (`nameWithin`): the name is put behind the full name of the nearest
scope, whose own name is put behind that of the next one. So qualified names compose, as long as the
walk comes to the root.
-/

namespace Outline

namespace Cursor

variable {src : Source}

/-- A node opens a scope: it is a class, an interface or a namespace, and its name without the
    quotes around it is the given text. -/
structure Opens (src : Source) (c : Cursor) (scope : String) : Prop where
  kind : c.kind.isScope = true
  name : ∃ t, c.node.child? .name = some t ∧
    Text.onChars (Text.trim fun ch => ch == '"' || ch == '\x27') (t.text src) = scope
  nonempty : scope ≠ ""

/-- The first node on the way from a node to the root that opens a scope. -/
structure NearestScope (src : Source) (c s : Cursor) (scope : String) : Prop where
  above : ∃ near far, c.ancestors = near ++ s :: far ∧ ∀ a ∈ near, ∀ other, ¬ a.Opens src other
  opens : s.Opens src scope

theorem scopeName?_eq_some_iff {c : Cursor} {scope : String} :
    scopeName? src c = some scope ↔ c.Opens src scope := by
  unfold scopeName?
  by_cases hkind : c.kind.isScope = true
  · rw [if_pos hkind, Option.filter_eq_some_iff, Option.map_eq_some_iff, bne_iff_ne]
    constructor
    · rintro ⟨hname, hne⟩
      exact ⟨hkind, hname, hne⟩
    · intro h
      exact ⟨h.name, h.nonempty⟩
  · rw [if_neg hkind]
    constructor
    · intro h
      cases h
    · intro h
      exact absurd h.kind hkind

theorem scopeName?_eq_none {c : Cursor} (h : ∀ scope, ¬ c.Opens src scope) :
    scopeName? src c = none := by
  cases hscope : scopeName? src c with
  | none => rfl
  | some scope => exact absurd (scopeName?_eq_some_iff.1 hscope) (h scope)

/-! ## The name by recursion -/

/-- A name within the scopes that some nodes open, the innermost first. -/
def nameWithin (src : Source) : List Cursor → String → String
  | [], name => name
  | a :: as, name =>
    match scopeName? src a with
    | some scope => nameWithin src as scope ++ "." ++ name
    | none => nameWithin src as name

theorem nameWithin_of_none {a : Cursor} (h : scopeName? src a = none) (as : List Cursor)
    (name : String) : nameWithin src (a :: as) name = nameWithin src as name := by
  rw [nameWithin, h]

theorem nameWithin_of_some {a : Cursor} {scope : String} (h : scopeName? src a = some scope)
    (as : List Cursor) (name : String) :
    nameWithin src (a :: as) name = nameWithin src as scope ++ "." ++ name := by
  rw [nameWithin, h]

/-- Nodes that open no scope do not count. -/
theorem nameWithin_append {near : List Cursor} (hnear : ∀ a ∈ near, scopeName? src a = none)
    (far : List Cursor) (name : String) :
    nameWithin src (near ++ far) name = nameWithin src far name := by
  induction near with
  | nil => rfl
  | cons a as ih =>
    rw [List.cons_append, nameWithin_of_none (hnear a (List.mem_cons_self ..))]
    exact ih fun b hb => hnear b (List.mem_cons_of_mem _ hb)

theorem intercalate_scopes (as : List Cursor) (name : String) :
    ".".intercalate ((as.filterMap (scopeName? src)).reverse ++ [name]) =
      nameWithin src as name := by
  induction as generalizing name with
  | nil => simp [nameWithin]
  | cons a as ih =>
    cases hscope : scopeName? src a with
    | none => rw [List.filterMap_cons_none hscope, nameWithin_of_none hscope, ih]
    | some scope =>
      rw [List.filterMap_cons_some hscope, nameWithin_of_some hscope, List.reverse_cons,
        String.intercalate_append_of_ne_nil (by simp) (by simp), ih, String.intercalate_singleton]

/-- The walk and the recursion give the same name, from as many nodes as the walk takes. -/
theorem qualify_eq_nameWithin (src : Source) (c : Cursor) (name : String) :
    c.qualify src name = nameWithin src (c.ancestors.take scopeReach) name :=
  intercalate_scopes _ name

theorem nameWithin_cases (as : List Cursor) (name : String) :
    nameWithin src as name = name ∨ ∃ outer, nameWithin src as name = outer ++ "." ++ name := by
  induction as with
  | nil => exact .inl rfl
  | cons a as ih =>
    cases hscope : scopeName? src a with
    | none =>
      rw [nameWithin_of_none hscope]
      exact ih
    | some scope => exact .inr ⟨_, nameWithin_of_some hscope as name⟩

/-- A qualified name is the name itself, or ends in it behind a dot. -/
theorem qualify_cases (src : Source) (c : Cursor) (name : String) :
    c.qualify src name = name ∨ ∃ outer, c.qualify src name = outer ++ "." ++ name := by
  rw [qualify_eq_nameWithin]
  exact nameWithin_cases _ name

/-! ## Scopes of scopes -/

theorem ancestors_of_append {c s : Cursor} {near far : List Cursor}
    (h : c.ancestors = near ++ s :: far) : s.ancestors = far := by
  obtain ⟨t, above⟩ := c
  induction near generalizing t above with
  | nil =>
    cases above with
    | nil => cases h
    | cons p ps =>
      obtain ⟨rfl, rfl⟩ := List.cons.inj h
      rfl
  | cons a near ih =>
    cases above with
    | nil => cases h
    | cons p ps => exact ih p ps (List.cons.inj h).2

/-- A walk that comes to the root takes all nodes above. -/
theorem qualify_of_length_le {c : Cursor} (h : c.ancestors.length ≤ scopeReach) (name : String) :
    c.qualify src name = nameWithin src c.ancestors name := by
  rw [qualify_eq_nameWithin, List.take_of_length_le h]

theorem qualify_of_nearestScope {c s : Cursor} {scope : String}
    (hdepth : c.ancestors.length ≤ scopeReach) (hs : NearestScope src c s scope) (name : String) :
    c.qualify src name = s.qualify src scope ++ "." ++ name := by
  obtain ⟨near, far, hsplit, hnear⟩ := hs.above
  have hfar : s.ancestors = far := ancestors_of_append hsplit
  -- The walk from the scope starts nearer to the root, so it comes there too.
  have hdepth' : s.ancestors.length ≤ scopeReach := by
    rw [hsplit, List.length_append, List.length_cons] at hdepth
    rw [hfar]
    omega
  rw [qualify_of_length_le hdepth, qualify_of_length_le hdepth', hsplit, hfar,
    nameWithin_append fun a ha => scopeName?_eq_none (hnear a ha),
    nameWithin_of_some (scopeName?_eq_some_iff.2 hs.opens)]

theorem qualify_of_no_scope {c : Cursor} (hdepth : c.ancestors.length ≤ scopeReach)
    (hnone : ∀ a ∈ c.ancestors, ∀ scope, ¬ a.Opens src scope) (name : String) :
    c.qualify src name = name := by
  have hscopes := nameWithin_append (fun a ha => scopeName?_eq_none (hnone a ha)) [] name
  rw [List.append_nil] at hscopes
  rw [qualify_of_length_le hdepth, hscopes]
  rfl

/-- Qualified names compose: that of a node is the one of the nearest scope around it, followed by
    a dot and the name, and just the name if there is no scope. So is the qualified name of a symbol
    that the node declares, whatever symbol stands for the scope. -/
theorem qualify_composes (src : Source) {c : Cursor} (hdepth : c.ancestors.length ≤ scopeReach)
    (name : String) :
    (∀ s scope, NearestScope src c s scope →
      c.qualify src name = s.qualify src scope ++ "." ++ name ∧
        ∀ member owner, member.declaration?.getD member = c → owner.declaration?.getD owner = s →
          ∀ kind kind', (Symbol.ofName src member name kind).qualifiedName =
            (Symbol.ofName src owner scope kind').qualifiedName ++ "." ++ name) ∧
    ((∀ a ∈ c.ancestors, ∀ scope, ¬ a.Opens src scope) →
      c.qualify src name = name ∧
        ∀ member, member.declaration?.getD member = c →
          ∀ kind, (Symbol.ofName src member name kind).qualifiedName = name) := by
  constructor
  · intro s scope hs
    have hname := qualify_of_nearestScope hdepth hs name
    refine ⟨hname, ?_⟩
    rintro member owner rfl rfl kind kind'
    exact hname
  · intro hnone
    have hname := qualify_of_no_scope hdepth hnone name
    refine ⟨hname, ?_⟩
    rintro member rfl kind
    exact hname

/-! ## A constant in a method of a class in a namespace -/

/-- A file with a constant in a method, which is in a class, which is in a namespace. -/
def nestedSource : Source :=
  .ofString <| "namespace N \x7b class A \x7b m(p, /**/ q) \x7b " ++
    "const f = async x => 1; \x7d \x7d \x7d\n"

def nestedConstant : Tree :=
  .node ⟨.lexicalDeclaration, none, false, 39, 62⟩
    [.node ⟨.token "const", some (.other "kind"), false, 39, 44⟩ [],
     .node ⟨.variableDeclarator, none, false, 45, 61⟩
      [.node ⟨.identifier, some .name, false, 45, 46⟩ [],
       .node ⟨.token "=", none, false, 47, 48⟩ [],
       .node ⟨.arrowFunction, some .value, false, 49, 61⟩
        [.node ⟨.token "async", none, false, 49, 54⟩ [],
         .node ⟨.identifier, some .parameter, false, 55, 56⟩ [],
         .node ⟨.token "=>", none, false, 57, 59⟩ [],
         .node ⟨.other "number", some (.other "body"), false, 60, 61⟩ []]],
     .node ⟨.token ";", none, false, 61, 62⟩ []]

def nestedMethod : Tree :=
  .node ⟨.methodDefinition, none, false, 24, 64⟩
    [.node ⟨.propertyIdentifier, some .name, false, 24, 25⟩ [],
     .node ⟨.formalParameters, some .parameters, false, 25, 36⟩
      [.node ⟨.token "(", none, false, 25, 26⟩ [],
       .node ⟨.requiredParameter, none, false, 26, 27⟩
        [.node ⟨.identifier, some .pattern, false, 26, 27⟩ []],
       .node ⟨.token ",", none, false, 27, 28⟩ [],
       .node ⟨.comment, none, false, 29, 33⟩ [],
       .node ⟨.requiredParameter, none, false, 34, 35⟩
        [.node ⟨.identifier, some .pattern, false, 34, 35⟩ []],
       .node ⟨.token ")", none, false, 35, 36⟩ []],
     .node ⟨.other "statement_block", some (.other "body"), false, 37, 64⟩
      [.node ⟨.token "\x7b", none, false, 37, 38⟩ [],
       nestedConstant,
       .node ⟨.token "\x7d", none, false, 63, 64⟩ []]]

def nestedTree : Tree :=
  .node ⟨.other "program", none, false, 0, 69⟩
    [.node ⟨.expressionStatement, none, false, 0, 68⟩
      [.node ⟨.internalModule, none, false, 0, 68⟩
        [.node ⟨.token "namespace", none, false, 0, 9⟩ [],
         .node ⟨.identifier, some .name, false, 10, 11⟩ [],
         .node ⟨.other "statement_block", some (.other "body"), false, 12, 68⟩
          [.node ⟨.token "\x7b", none, false, 12, 13⟩ [],
           .node ⟨.classDeclaration, none, false, 14, 66⟩
            [.node ⟨.token "class", none, false, 14, 19⟩ [],
             .node ⟨.typeIdentifier, some .name, false, 20, 21⟩ [],
             .node ⟨.other "class_body", some (.other "body"), false, 22, 66⟩
              [.node ⟨.token "\x7b", none, false, 22, 23⟩ [],
               nestedMethod,
               .node ⟨.token "\x7d", none, false, 65, 66⟩ []]],
           .node ⟨.token "\x7d", none, false, 67, 68⟩ []]]]]

/-- The method is no scope, so the constant is named by the class and the namespace. Around the
    namespace there is no scope. -/
theorem qualify_composes_nestedConstant :
    let c := ((preorder nestedTree).find? (·.kind == .lexicalDeclaration)).getD (.root nestedTree)
    let s := c.ancestors.getD 3 (.root nestedTree)
    let o := c.ancestors.getD 5 (.root nestedTree)
    c.ancestors.length ≤ scopeReach ∧ NearestScope nestedSource c s "A" ∧
      c.qualify nestedSource "f" = s.qualify nestedSource "A" ++ "." ++ "f" ∧
      c.qualify nestedSource "f" = "N.A.f" ∧
      (∀ a ∈ o.ancestors, ∀ scope, ¬ a.Opens nestedSource scope) ∧
      o.qualify nestedSource "N" = "N" := by
  intro c s o
  have hdepth : c.ancestors.length ≤ scopeReach := by decide +kernel
  have hdepth' : o.ancestors.length ≤ scopeReach := by decide +kernel
  have hnot : ∀ {a : Cursor}, scopeName? nestedSource a = none → ∀ scope,
      ¬ a.Opens nestedSource scope := by
    intro a ha scope hscope
    rw [scopeName?_eq_some_iff.2 hscope] at ha
    cases ha
  have hnear : ∀ a ∈ c.ancestors.take 3, scopeName? nestedSource a = none := by decide +kernel
  have hnone : ∀ a ∈ o.ancestors, scopeName? nestedSource a = none := by decide +kernel
  have hopens : scopeName? nestedSource s = some "A" := by decide +kernel
  have hs : NearestScope nestedSource c s "A" :=
    ⟨⟨c.ancestors.take 3, c.ancestors.drop 4, rfl, fun a ha => hnot (hnear a ha)⟩,
      scopeName?_eq_some_iff.1 hopens⟩
  have hout : ∀ a ∈ o.ancestors, ∀ scope, ¬ a.Opens nestedSource scope :=
    fun a ha => hnot (hnone a ha)
  refine ⟨hdepth, hs, ?_, by decide +kernel, hout, ?_⟩
  · exact ((qualify_composes nestedSource hdepth "f").1 s "A" hs).1
  · exact ((qualify_composes nestedSource hdepth' "N").2 hout).1

end Cursor

end Outline
