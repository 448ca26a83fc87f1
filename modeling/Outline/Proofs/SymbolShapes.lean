import Outline.Proofs.ExportFlags
import Outline.Report.Listing

/-!
# Well-formed symbols

Names and types of parameters are two lists in a symbol, and its written form pairs them. They come
from one list that has an entry for each parameter (`forall₂_parameter?`), so none gets lost on the
way from the source to the listing. The span of a symbol is that of a node above its name, whichever
statements are around the declaration (`exists_location_ofName`), and so it covers the name.
-/

namespace Outline

open Cursor

namespace Signature

/-- The node that a declaration's signature is read from: the function that it holds, or else the
    declaration itself. -/
def node? (decl name : Cursor) : Option Tree :=
  if isHeld decl then functionValue? decl name else some decl.node

theorem parameters_ofDeclaration (src : Source) (decl name : Cursor) :
    (ofDeclaration src decl name).parameters =
      ((node? decl name).map (parametersOf src)).getD [] := by
  unfold ofDeclaration node?
  by_cases hheld : isHeld decl = true
  · simp only [if_pos hheld]
    cases functionValue? decl name <;> rfl
  · simp only [if_neg hheld]
    rfl

theorem parameter?_eq_none_iff {src : Source} {t : Tree} :
    parameter? src t = .none ↔ t.kind = .comment := by
  unfold parameter?
  split <;> simp_all

/-- Every node that is no comment gives one entry, in the order of the nodes. -/
theorem forall₂_parameter? (src : Source) (ts : List Tree) :
    List.Forall₂ (fun t entry => parameter? src t = some entry) (ts.filter (·.kind != .comment))
      (ts.filterMap (parameter? src)) := by
  induction ts with
  | nil => exact .nil
  | cons t ts ih =>
    cases hentry : parameter? src t with
    | none =>
      have hcomment := parameter?_eq_none_iff.1 hentry
      rw [List.filter_cons_of_neg (by simp [hcomment]), List.filterMap_cons_none hentry]
      exact ih
    | some entry =>
      have hcomment : t.kind ≠ .comment := by
        intro h
        rw [parameter?_eq_none_iff.2 h] at hentry
        cases hentry
      rw [List.filter_cons_of_pos (by simp [hcomment]), List.filterMap_cons_some hentry]
      exact .cons hentry ih

/-! ## Modifiers -/

theorem nodup_addModifier {ms : List Modifier} (h : ms.Nodup) (m : Modifier) :
    (addModifier ms m).Nodup := by
  unfold addModifier
  by_cases hm : m ∈ ms
  · rwa [if_pos hm]
  · rw [if_neg hm]
    refine List.nodup_append.2 ⟨h, List.pairwise_singleton _ m, fun a ha b hb => ?_⟩
    obtain rfl := List.mem_singleton.1 hb
    exact fun hab => hm (hab ▸ ha)

theorem nodup_modifiersOf (ts : List Tree) : (modifiersOf ts).Nodup := by
  unfold modifiersOf
  suffices ∀ (ms acc : List Modifier), acc.Nodup → (ms.foldl addModifier acc).Nodup from
    this _ [] .nil
  intro ms
  induction ms with
  | nil => exact fun acc h => h
  | cons m ms ih => exact fun acc h => ih _ (nodup_addModifier h m)

theorem nodup_modifiers (src : Source) (decl name : Cursor) :
    (ofDeclaration src decl name).modifiers.Nodup := by
  have hown := nodup_modifiersOf decl.node.children
  unfold ofDeclaration
  by_cases hheld : isHeld decl = true
  · simp only [if_pos hheld]
    cases functionValue? decl name with
    | none => exact hown
    | some f =>
      by_cases hasync : f.hasToken "async" = true
      · simp only [if_pos hasync]
        exact nodup_addModifier hown .async
      · simp only [if_neg hasync]
        exact hown
  · simp only [if_neg hheld]
    exact hown

end Signature

/-! ## Spans -/

theorem Cursor.mem_ancestors_of_wrapper? {d w : Cursor} (h : d.wrapper? = some w) :
    w ∈ d.ancestors := by
  rcases Option.or_eq_some_iff.1 h with h | ⟨-, h⟩
  · exact List.mem_of_find?_eq_some (wraps_of_parent h).context?.1
  · exact mem_ancestors_of_parent (ambient?_eq_some_iff.1 h).1

namespace Symbol

/-- The node that the span of a symbol is taken from is that of its name, or above it. -/
theorem exists_location_ofName (src : Source) (n : Cursor) (name : String) (kind : SymbolKind) :
    ∃ a, (a = n ∨ a ∈ n.ancestors) ∧ (ofName src n name kind).location = a.location src := by
  cases hd : n.declaration? with
  | none => exact ⟨n, .inl rfl, by simp only [ofName, hd]⟩
  | some d =>
    have hmem := (mem_of_declaration? hd).1
    refine ⟨d.wrapper?.getD d, .inr ?_, location_ofName hd name kind⟩
    cases hw : d.wrapper? with
    | none => exact hmem
    | some w => exact mem_ancestors_trans hmem (mem_ancestors_of_wrapper? hw)

/-! ## Symbols -/

/-- The written form of a symbol has a list of parameters, with a piece for each of them that gives
    its name and its type. -/
structure Lists (s : Symbol) (pieces : List String) : Prop where
  written : s.signature = String.join (s.modifiers.map (·.name ++ " ")) ++ s.kind.name ++ " " ++
    s.qualifiedName ++ ("(" ++ ", ".intercalate pieces ++ ")") ++
      (if s.returnType = "" then "" else ": " ++ s.returnType)
  count : pieces.length = s.parameters.length
  piece : ∀ (i : Nat) (name : String), s.parameters[i]? = some name →
    ∃ type, s.parameterTypes[i]? = some type ∧ pieces[i]? = some (parameterText name type)

/-- What a symbol with the name `n` always has: a name, the name at the end of its qualified name, a
    span around the name, a type for each parameter, an entry for each node in its list of
    parameters that is no comment, and modifiers that differ. What is written for a function or a
    method then lists all parameters. -/
structure IsWellFormed (src : Source) (n : Cursor) (s : Symbol) : Prop where
  named : s.name = n.text src ∧ s.name ≠ ""
  qualified : s.qualifiedName = s.name ∨ ∃ outer, s.qualifiedName = outer ++ "." ++ s.name
  covers : s.location.startByte ≤ n.label.start ∧ n.label.stop ≤ s.location.endByte
  paired : s.parameters.length = s.parameterTypes.length
  entries : ∀ d f list, n.declaration? = some d → Signature.node? d n = some f →
    f.child? .parameters = some list →
    List.Forall₂ (fun t entry => Signature.parameter? src t = some entry)
      (list.namedChildren.filter (·.kind != .comment)) (s.parameters.zip s.parameterTypes)
  modifiers : s.modifiers.Nodup
  printed : s.kind.isCallable = true → ∃ pieces, s.Lists pieces

theorem exists_lists {s : Symbol} (hpaired : s.parameters.length = s.parameterTypes.length)
    (hcallable : s.kind.isCallable = true) : ∃ pieces, s.Lists pieces := by
  refine ⟨s.parameters.zipWith parameterText s.parameterTypes, ?_, ?_, ?_⟩
  · rw [signature, parameterList, if_pos hcallable]
  · rw [List.length_zipWith, ← hpaired, Nat.min_self]
  · intro i name hname
    obtain ⟨hi, -⟩ := List.getElem?_eq_some_iff.1 hname
    have htype := List.getElem?_eq_getElem (hpaired ▸ hi)
    refine ⟨_, htype, ?_⟩
    rw [List.getElem?_zipWith, hname, htype]

variable {language : Language} {src : Source} {t : Tree}

/-- In a tree whose nodes lie within their parents, a name gives a well-formed symbol. -/
theorem wellFormed_ofName (hwithin : ∀ p ∈ preorder t, ∀ c ∈ p.children, Within c p) {n : Cursor}
    (hn : n ∈ preorder t) (htext : n.text src ≠ "") (kind : SymbolKind) :
    IsWellFormed src n (ofName src n (n.text src) kind) := by
  have hpaired : (ofName src n (n.text src) kind).parameters.length =
      (ofName src n (n.text src) kind).parameterTypes.length := by
    simp only [ofName, List.length_map]
  refine ⟨⟨rfl, htext⟩, qualify_cases src _ _, ?_, hpaired, ?_, ?_, exists_lists hpaired⟩
  · obtain ⟨a, ha, hlocation⟩ := exists_location_ofName src n (n.text src) kind
    rw [hlocation]
    rcases ha with rfl | ha
    · exact ⟨Nat.le_refl _, Nat.le_refl _⟩
    · exact within_of_above hwithin hn ha
  · intro d f list hd hf hlist
    have hparameters : (Signature.ofDeclaration src d n).parameters =
        list.namedChildren.filterMap (Signature.parameter? src) := by
      rw [Signature.parameters_ofDeclaration, hf, Option.map_some, Option.getD_some,
        Signature.parametersOf, hlist]
    simp only [ofName, hd, Option.map_some, Option.getD_some, ← List.zip_of_prod rfl rfl,
      hparameters]
    exact Signature.forall₂_parameter? src list.namedChildren
  · cases hd : n.declaration? with
    | none =>
      simp only [ofName, hd, Option.map_none, Option.getD_none]
      exact .nil
    | some d =>
      simp only [ofName, hd, Option.map_some, Option.getD_some]
      exact Signature.nodup_modifiers src d n

/-- In a tree whose nodes lie within their parents, every symbol is well-formed. -/
theorem wellFormed_of_mem (hwithin : ∀ p ∈ preorder t, ∀ c ∈ p.children, Within c p) :
    ∀ s ∈ ofMatches src (Rule.matchesIn (Topic.symbols.rules language) src t),
      ∃ c ∈ namesIn language src t, c.site ∈ preorder t ∧ IsWellFormed src c.site s := by
  intro s hs
  obtain ⟨c, hc, kind, rfl⟩ := exists_capture_of_mem hs
  obtain ⟨htext, hne, d, hd, category, hnames, -⟩ := exists_names_of_capture hc
  have hmem := (hnames.mem_preorder hd).1
  rw [htext]
  exact ⟨c, hc, hmem, wellFormed_ofName hwithin hmem hne kind⟩

/-- A file with a function that has a comment and a rest element among its parameters. -/
def variadicSource : Source :=
  .ofString "export async function f(p, /**/ ...q) \x7b\x7d\n"

def variadicFunction : Tree :=
  .node ⟨.other "program", none, false, 0, 41⟩
    [.node ⟨.exportStatement, none, false, 0, 40⟩
      [.node ⟨.token "export", none, false, 0, 6⟩ [],
       .node ⟨.functionDeclaration, some .declaration, false, 7, 40⟩
        [.node ⟨.token "async", none, false, 7, 12⟩ [],
         .node ⟨.token "function", none, false, 13, 21⟩ [],
         .node ⟨.identifier, some .name, false, 22, 23⟩ [],
         .node ⟨.formalParameters, some .parameters, false, 23, 37⟩
          [.node ⟨.token "(", none, false, 23, 24⟩ [],
           .node ⟨.requiredParameter, none, false, 24, 25⟩
            [.node ⟨.identifier, some .pattern, false, 24, 25⟩ []],
           .node ⟨.token ",", none, false, 25, 26⟩ [],
           .node ⟨.comment, none, false, 27, 31⟩ [],
           .node ⟨.requiredParameter, none, false, 32, 36⟩
            [.node ⟨.restPattern, some .pattern, false, 32, 36⟩
              [.node ⟨.token "...", none, false, 32, 35⟩ [],
               .node ⟨.identifier, none, false, 35, 36⟩ []]],
           .node ⟨.token ")", none, false, 36, 37⟩ []],
         .node ⟨.other "statement_block", some (.other "body"), false, 38, 40⟩
          [.node ⟨.token "\x7b", none, false, 38, 39⟩ [],
           .node ⟨.token "\x7d", none, false, 39, 40⟩ []]]]]

/-- The function has the span of its export, and is written with both parameters. -/
theorem wellFormed_of_mem_variadicFunction :
    let symbols := ofMatches variadicSource
      (Rule.matchesIn (Topic.symbols.rules .typescript) variadicSource variadicFunction)
    (∀ p ∈ preorder variadicFunction, ∀ c ∈ p.children,
      p.label.start ≤ c.label.start ∧ c.label.stop ≤ p.label.stop) ∧
      symbols.map signature = ["async function f(p, q)"] ∧
      symbols.map (·.location.endByte) = [40] ∧
      ∀ s ∈ symbols, ∃ c ∈ namesIn .typescript variadicSource variadicFunction,
        c.site ∈ preorder variadicFunction ∧ IsWellFormed variadicSource c.site s := by
  intro symbols
  have hwithin : ∀ p ∈ preorder variadicFunction, ∀ c ∈ p.children,
      p.label.start ≤ c.label.start ∧ c.label.stop ≤ p.label.stop := by decide +kernel
  exact ⟨hwithin, by decide +kernel, by decide +kernel, wellFormed_of_mem hwithin⟩

end Symbol

end Outline
