import Outline.Proofs.ExportRecords
import Outline.Proofs.JsonTexts

/-!
# Reading records back

A reader for the JSON values of records. It takes members in any order and reads an absent member as
none or empty where the writer leaves such members out. Reading what was written gives the record
back (`FileRecord.reads_toJson`), so that the output for a file tells its record.
-/

namespace Outline

/-! ## Dictionaries -/

namespace Dict

theorem get?_of_mem {d : Dict} {key value : String} (h : (key, value) ∈ d.entries) :
    d.get? key = some value := by
  obtain ⟨es, hes⟩ := d
  change es.lookup key = some value
  induction es with
  | nil => cases h
  | cons e es ih =>
    obtain ⟨name, other⟩ := e
    obtain ⟨hfirst, hrest⟩ := List.pairwise_cons.1 hes
    rw [lookup_cons_eq]
    rcases List.mem_cons.1 h with heq | hmem
    · cases heq
      rw [if_pos rfl]
    · have hne : key ≠ name := by
        rintro rfl
        exact String.lt_irrefl key (hfirst (key, value) hmem)
      rw [if_neg hne]
      exact ih hrest hmem

theorem mem_entries_iff {d : Dict} {key value : String} :
    (key, value) ∈ d.entries ↔ d.get? key = some value := by
  refine ⟨get?_of_mem, fun h => ?_⟩
  obtain ⟨front, back, heq, -⟩ := List.lookup_eq_some_iff.1 h
  rw [heq]
  exact List.mem_append_right _ (List.mem_cons_self ..)

theorem nodup_entries (d : Dict) : d.entries.Nodup := by
  refine d.increasing.imp ?_
  rintro a b hlt rfl
  exact String.lt_irrefl _ hlt

/-- A dictionary is what it binds. -/
theorem ext_get? {d e : Dict} (h : ∀ key, d.get? key = e.get? key) : d = e := by
  have hmem : ∀ x, x ∈ d.entries ↔ x ∈ e.entries := by
    rintro ⟨key, value⟩
    rw [mem_entries_iff, mem_entries_iff, h]
  have hperm := (List.perm_ext_iff_of_nodup d.nodup_entries e.nodup_entries).2 hmem
  have heq : d.entries = e.entries := by
    refine hperm.eq_of_pairwise ?_ d.increasing e.increasing
    intro a b _ _ hab hba
    exact absurd (String.lt_trans hab hba) (String.lt_irrefl _)
  cases d
  cases e
  cases heq
  rfl

theorem ofList_eq {d : Dict} {es : List (String × String)}
    (h : ∀ key value, (key, value) ∈ es ↔ d.get? key = some value) : ofList es = d := by
  have hsub : ∀ key value, (ofList es).get? key = some value → d.get? key = some value := by
    intro key value hget
    exact (h key value).1 (mem_ofList (mem_entries_iff.2 hget))
  refine ext_get? fun key => ?_
  cases hd : d.get? key with
  | some value =>
    obtain ⟨other, hother⟩ := Option.isSome_iff_exists.1 (contains_ofList ((h key value).2 hd))
    rw [hother, ← hd, hsub key other hother]
  | none =>
    cases hes : (ofList es).get? key with
    | none => rfl
    | some value =>
      rw [hsub key value hes] at hd
      cases hd

end Dict

/-! ## Values in any order -/

namespace Json

/-- The same value, with the members of its objects in any order: two objects are the same if they
    have the same under every key. -/
inductive Same : Json → Json → Prop where
  | null : Same .null .null
  | bool (b : Bool) : Same (.bool b) (.bool b)
  | number (n : Nat) : Same (.number n) (.number n)
  | string (s : String) : Same (.string s) (.string s)
  | array {js ks : List Json} (h : List.Forall₂ Same js ks) : Same (.array js) (.array ks)
  | object {ms ns : List (String × Json)}
      (h : ∀ key, Option.Rel Same (ms.lookup key) (ns.lookup key)) : Same (.object ms) (.object ns)

mutual

theorem Same.refl : ∀ j : Json, Same j j
  | .null => .null
  | .bool b => .bool b
  | .number n => .number n
  | .string s => .string s
  | .array js => .array (same_items js)
  | .object ms => .object (same_members ms)

theorem same_items : ∀ js : List Json, List.Forall₂ Same js js
  | [] => .nil
  | j :: js => .cons (Same.refl j) (same_items js)

theorem same_members :
    ∀ (ms : List (String × Json)) (key : String), Option.Rel Same (ms.lookup key) (ms.lookup key)
  | [], _ => .none
  | (name, value) :: ms, key => by
    have hvalue := Same.refl value
    have hms := same_members ms key
    rw [List.lookup_cons]
    cases key == name with
    | true => exact .some hvalue
    | false => exact hms

end

theorem same_of_perm {ms ns : List (String × Json)} (hperm : ms.Perm ns)
    (hkeys : (ms.map Prod.fst).Nodup) : (object ms).Same (object ns) := by
  refine .object fun key => ?_
  have hlookup : ns.lookup key = ms.lookup key := by
    induction hperm with
    | nil => rfl
    | cons m hperm ih =>
      rw [List.map_cons, List.nodup_cons] at hkeys
      rw [List.lookup_cons, List.lookup_cons, ih hkeys.2]
    | swap m n ms =>
      have hne : n.1 ≠ m.1 := by
        rw [List.map_cons, List.map_cons, List.nodup_cons, List.mem_cons, not_or] at hkeys
        exact hkeys.1.1
      rw [List.lookup_cons, List.lookup_cons, List.lookup_cons, List.lookup_cons]
      cases hm : key == m.1 with
      | false => rfl
      | true =>
        have hn : (key == n.1) = false := by
          rw [beq_iff_eq.1 hm]
          exact beq_false_of_ne hne.symm
        rw [hn]
    | trans hperm hperm' ih ih' =>
      rw [ih' ((hperm.map Prod.fst).nodup_iff.1 hkeys), ih hkeys]
  rw [hlookup]
  exact same_members ms key

/-! ## Readers -/

section Readers

variable {α : Type} {read : Json → Option α} {x : α} {v w : Json} {ms : List (String × Json)}

/-- A value is read as `x`, in whatever order its members are. -/
def Reads (read : Json → Option α) (v : Json) (x : α) : Prop :=
  ∀ w, v.Same w → read w = some x

def bool? : Json → Option Bool
  | .bool b => some b
  | _ => none

def number? : Json → Option Nat
  | .number n => some n
  | _ => none

def string? : Json → Option String
  | .string s => some s
  | _ => none

/-- One of the given values, by its name. -/
def named? (all : List α) (name : α → String) (j : Json) : Option α :=
  j.string?.bind fun s => all.find? (name · == s)

def list? (read : Json → Option α) : Json → Option (List α)
  | .array js => js.mapM read
  | _ => none

/-- The member under a key. -/
def get? (j : Json) (key : String) : Option Json :=
  match j with
  | .object ms => ms.lookup key
  | _ => none

/-- Read the member under a key, which must be there. -/
def field (read : Json → Option α) (key : String) (j : Json) : Option α :=
  (j.get? key).bind read

/-- Read the member under a key, if there is one. -/
def fieldOr (absent : α) (read : Json → Option α) (key : String) (j : Json) : Option α :=
  match j.get? key with
  | some v => read v
  | none => some absent

/-- An object as a dictionary. -/
def dict? : Json → Option Dict
  | .object ms =>
    (ms.mapM fun m => (field string? m.1 (.object ms)).map (m.1, ·)).map Dict.ofList
  | _ => none

theorem reads_bool (b : Bool) : Reads bool? (.bool b) b := by
  rintro _ ⟨⟩
  rfl

theorem reads_number (n : Nat) : Reads number? (.number n) n := by
  rintro _ ⟨⟩
  rfl

theorem reads_string (s : String) : Reads string? (.string s) s := by
  rintro _ ⟨⟩
  rfl

theorem reads_named {all : List α} {name : α → String}
    (h : all.find? (name · == name x) = some x) :
    Reads (named? all name) (.string (name x)) x := by
  rintro _ ⟨⟩
  exact h

theorem mapM_eq_some {β : Type} {f : β → Option α} {g : β → α} {ys : List β}
    (h : ∀ y ∈ ys, f y = some (g y)) : ys.mapM f = some (ys.map g) := by
  induction ys with
  | nil => rfl
  | cons y ys ih =>
    rw [List.mapM_cons, h y (List.mem_cons_self ..),
      ih fun z hz => h z (List.mem_cons_of_mem _ hz)]
    rfl

theorem reads_list {write : α → Json} (hwrite : ∀ x, Reads read (write x) x) (xs : List α) :
    Reads (list? read) (.array (xs.map write)) xs := by
  rintro _ (_ | _ | _ | _ | hitems | _)
  rename_i ks
  change ks.mapM read = some xs
  induction xs generalizing ks with
  | nil =>
    cases hitems
    rfl
  | cons x xs ih =>
    obtain _ | ⟨hx, hxs⟩ := hitems
    rw [List.mapM_cons, hwrite x _ hx, ih hxs]
    rfl

theorem get?_rel (h : (object ms).Same w) (key : String) :
    Option.Rel Same (ms.lookup key) (w.get? key) := by
  obtain _ | _ | _ | _ | _ | hmembers := h
  exact hmembers key

theorem field_eq (key : String) (h : (object ms).Same w) (hkey : ms.lookup key = some v)
    (hv : Reads read v x) : w.field read key = some x := by
  have hrel := get?_rel h key
  rw [hkey] at hrel
  rw [field]
  cases hget : w.get? key with
  | none =>
    rw [hget] at hrel
    cases hrel
  | some u =>
    rw [hget] at hrel
    exact hv u (Option.rel_some_some.1 hrel)

theorem fieldOr_eq {absent : α} (key : String) (h : (object ms).Same w)
    (hv : ∀ v, ms.lookup key = some v → Reads read v x)
    (habsent : ms.lookup key = none → x = absent) : w.fieldOr absent read key = some x := by
  have hrel := get?_rel h key
  rw [fieldOr]
  cases hkey : ms.lookup key with
  | none =>
    rw [hkey] at hrel
    generalize w.get? key = u at hrel
    cases hrel
    exact congrArg some (habsent hkey).symm
  | some v =>
    rw [hkey] at hrel
    generalize w.get? key = u at hrel
    obtain ⟨hsame⟩ := hrel
    exact hv v hkey _ hsame

theorem lookup_toJson (es : List (String × String)) (key : String) :
    (es.map fun e => (e.1, Json.string e.2)).lookup key = (es.lookup key).map .string := by
  induction es with
  | nil => rfl
  | cons e es ih =>
    rw [List.map_cons, List.lookup_cons, List.lookup_cons, ih]
    cases key == e.1 <;> rfl

theorem isSome_get? (h : (object ms).Same w) (key : String) :
    (w.get? key).isSome = (ms.lookup key).isSome := by
  have hrel := get?_rel h key
  generalize w.get? key = u, ms.lookup key = v at hrel
  cases hrel with
  | some hsame => rfl
  | none => rfl

/-- The keys of an object that is the same as a dictionary are the bound ones. -/
theorem exists_key_iff {d : Dict} {ns : List (String × Json)} (h : d.toJson.Same (.object ns))
    (key : String) : (∃ m ∈ ns, m.1 = key) ↔ ∃ value, d.get? key = some value := by
  have hsome : (ns.lookup key).isSome = (d.get? key).isSome := by
    have heq := isSome_get? h key
    rwa [lookup_toJson, Option.isSome_map] at heq
  rw [← Option.isSome_iff_exists, ← hsome, List.lookup_isSome_iff]
  simp only [beq_iff_eq, eq_comm (a := key)]

theorem reads_dict (d : Dict) : Reads dict? d.toJson d := by
  intro w h
  obtain ⟨ns, rfl⟩ : ∃ ns, w = .object ns := by
    cases h
    exact ⟨_, rfl⟩
  -- All members are read, since only bound keys occur, and what is read is what is bound.
  have hread : ∀ m ∈ ns, (field string? m.1 (.object ns)).map (m.1, ·) =
      some (m.1, (d.get? m.1).getD "") := by
    intro m hm
    obtain ⟨value, hvalue⟩ := (exists_key_iff h m.1).1 ⟨m, hm, rfl⟩
    have hlookup : (d.entries.map fun e => (e.1, Json.string e.2)).lookup m.1 =
        some (.string value) := by
      rw [lookup_toJson, show d.entries.lookup m.1 = some value from hvalue, Option.map_some]
    rw [field_eq m.1 h hlookup (reads_string value), hvalue]
    rfl
  rw [dict?, mapM_eq_some hread, Option.map_some]
  refine congrArg some (Dict.ofList_eq fun key value => ?_)
  rw [List.mem_map]
  constructor
  · rintro ⟨m, hm, heq⟩
    obtain ⟨bound, hbound⟩ := (exists_key_iff h m.1).1 ⟨m, hm, rfl⟩
    rw [hbound] at heq
    cases heq
    exact hbound
  · intro hvalue
    obtain ⟨m, hm, rfl⟩ := (exists_key_iff h key).2 ⟨value, hvalue⟩
    exact ⟨m, hm, by rw [hvalue]; rfl⟩

/-- Read the member under a key as a value that may be absent. -/
def field? (read : Json → Option α) (key : String) (j : Json) : Option (Option α) :=
  fieldOr none (fun v => (read v).map some) key j

theorem field?_eq {write : α → Json} (hwrite : ∀ x, Reads read (write x) x) {y : Option α}
    (key : String) (h : (object ms).Same w) (hkey : ms.lookup key = y.map write) :
    w.field? read key = some y := by
  refine fieldOr_eq key h ?_ ?_
  · intro v hv u hsame
    rw [hkey] at hv
    obtain ⟨x, rfl, rfl⟩ := Option.map_eq_some_iff.1 hv
    exact congrArg (Option.map some) (hwrite x u hsame)
  · intro hnone
    rw [hkey] at hnone
    exact Option.map_eq_none_iff.1 hnone

/-- A member that is left out if what it holds is empty. -/
theorem fieldOr_of_ite {absent : α} {p : Prop} [Decidable p] (key : String)
    (h : (object ms).Same w) (hkey : ms.lookup key = if p then none else some v)
    (hv : Reads read v x) (habsent : p → x = absent) : w.fieldOr absent read key = some x := by
  by_cases hp : p
  · rw [if_pos hp] at hkey
    refine fieldOr_eq key h ?_ fun _ => habsent hp
    intro u hu
    rw [hkey] at hu
    cases hu
  · rw [if_neg hp] at hkey
    refine fieldOr_eq key h ?_ ?_
    · intro u hu
      rw [hkey] at hu
      rwa [← Option.some.inj hu]
    · intro hnone
      rw [hkey] at hnone
      cases hnone

end Readers

end Json

/-! ## Members of written records -/

section Members

variable (key name : String)

@[simp]
theorem lookup_single (value : Json) :
    [(name, value)].lookup key = if key = name then some value else none := by
  rw [List.lookup_cons, List.lookup_nil]
  by_cases h : key = name
  · rw [if_pos h, beq_iff_eq.2 h]
  · rw [if_neg h, beq_false_of_ne h]

@[simp]
theorem lookup_member (value : Json) :
    (member name value).lookup key = if key = name then some value else none :=
  lookup_single key name value

@[simp]
theorem lookup_textMember? (value : Option String) :
    (textMember? name value).lookup key = if key = name then value.map .string else none := by
  cases value with
  | none => simp [textMember?]
  | some s => simp [textMember?]

@[simp]
theorem lookup_textMember (value : String) :
    (textMember name value).lookup key =
      if key = name then (if value = "" then none else some (.string value)) else none := by
  unfold textMember
  split <;> simp

@[simp]
theorem lookup_listMember (values : List String) :
    (listMember name values).lookup key =
      if key = name then (if values = [] then none else some (.array (values.map .string)))
      else none := by
  unfold listMember
  split <;> simp

@[simp]
theorem lookup_dictMember (d : Dict) :
    (dictMember name d).lookup key =
      if key = name then (if d.isEmpty then none else some d.toJson) else none := by
  unfold dictMember
  split <;> simp

end Members

/-! ## Readers of records -/

open Json

def Location.ofJson? (j : Json) : Option Location := do
  return {
    startLine := ← j.field number? "start_line"
    startColumn := ← j.field number? "start_column"
    endLine := ← j.field number? "end_line"
    endColumn := ← j.field number? "end_column"
    startByte := ← j.field number? "start_byte"
    endByte := ← j.field number? "end_byte" }

theorem Location.reads_toJson (l : Location) : Reads ofJson? l.toJson l := by
  intro w h
  simp [ofJson?, field_eq "start_line" h rfl (reads_number l.startLine),
    field_eq "start_column" h rfl (reads_number l.startColumn),
    field_eq "end_line" h rfl (reads_number l.endLine),
    field_eq "end_column" h rfl (reads_number l.endColumn),
    field_eq "start_byte" h rfl (reads_number l.startByte),
    field_eq "end_byte" h rfl (reads_number l.endByte)]

/-! No two kinds, visibilities, modifiers, forms or languages have the same name. -/

theorem SymbolKind.reads_name (k : SymbolKind) : Reads (named? all name) (.string k.name) k :=
  reads_named (by cases k <;> rfl)

theorem Visibility.reads_name (v : Visibility) : Reads (named? all name) (.string v.name) v :=
  reads_named (by cases v <;> rfl)

theorem Modifier.reads_name (m : Modifier) : Reads (named? all name) (.string m.name) m :=
  reads_named (by cases m <;> rfl)

theorem ImportForm.reads_name (f : ImportForm) : Reads (named? all name) (.string f.name) f :=
  reads_named (by cases f <;> rfl)

theorem ExportForm.reads_name (f : ExportForm) : Reads (named? all name) (.string f.name) f :=
  reads_named (by cases f <;> rfl)

def Language.all : List Language :=
  [typescript, javascript, unknown]

theorem Language.reads_name (l : Language) : Reads (named? all name) (.string l.name) l :=
  reads_named (by cases l <;> rfl)

def Symbol.ofJson? (j : Json) : Option Symbol := do
  return {
    name := ← j.field string? "name"
    qualifiedName := ← j.field string? "fqn"
    kind := ← j.field (named? SymbolKind.all SymbolKind.name) "kind"
    location := ← j.field Location.ofJson? "location"
    visibility := ← j.field? (named? Visibility.all Visibility.name) "visibility"
    modifiers := ← j.fieldOr [] (list? (named? Modifier.all Modifier.name)) "modifiers"
    parameters := ← j.fieldOr [] (list? string?) "parameters"
    parameterTypes := ← j.fieldOr [] (list? string?) "parameter_types"
    returnType := ← j.fieldOr "" string? "return_type"
    exported := ← j.field bool? "is_exported" }

theorem Symbol.reads_toJson (s : Symbol) : Reads ofJson? s.toJson s := by
  intro w h
  have hname := field_eq "name" h (by simp [List.lookup_append]) (reads_string s.name)
  have hfqn := field_eq "fqn" h (by simp [List.lookup_append]) (reads_string s.qualifiedName)
  have hkind := field_eq "kind" h (by simp [List.lookup_append]) s.kind.reads_name
  have hlocation := field_eq "location" h (by simp [List.lookup_append]) s.location.reads_toJson
  have hvisibility := field?_eq Visibility.reads_name (y := s.visibility) "visibility" h
    (by simp [List.lookup_append, Function.comp_def])
  have hmodifiers := fieldOr_of_ite (p := s.modifiers = []) "modifiers" h
    (by simp [List.lookup_append, Function.comp_def])
    (reads_list Modifier.reads_name s.modifiers) id
  have hparameters := fieldOr_of_ite (p := s.parameters = []) "parameters" h
    (by simp [List.lookup_append]) (reads_list reads_string s.parameters) id
  have htypes := fieldOr_of_ite (p := s.parameterTypes = []) "parameter_types" h
    (by simp [List.lookup_append]) (reads_list reads_string s.parameterTypes) id
  have hreturn := fieldOr_of_ite (p := s.returnType = "") "return_type" h
    (by simp [List.lookup_append]) (reads_string s.returnType) id
  have hexported := field_eq "is_exported" h (by simp [List.lookup_append]) (reads_bool s.exported)
  simp [ofJson?, hname, hfqn, hkind, hlocation, hvisibility, hmodifiers, hparameters, htypes,
    hreturn, hexported]

def Import.ofJson? (j : Json) : Option Import := do
  return {
    source := ← j.field string? "source"
    resolvedPath := ← j.field? string? "resolved_path"
    isExternal := ← j.field bool? "is_external"
    names := ← j.field dict? "names"
    form := ← j.field (named? ImportForm.all ImportForm.name) "form"
    commonjs := ← j.field bool? "commonjs"
    location := ← j.field Location.ofJson? "location" }

theorem Import.reads_toJson (i : Import) : Reads ofJson? i.toJson i := by
  intro w h
  have hsource := field_eq "source" h (by simp [List.lookup_append]) (reads_string i.source)
  have hpath := field?_eq reads_string (y := i.resolvedPath) "resolved_path" h
    (by simp [List.lookup_append])
  have hexternal := field_eq "is_external" h (by simp [List.lookup_append])
    (reads_bool i.isExternal)
  have hnames := field_eq "names" h (by simp [List.lookup_append]) (reads_dict i.names)
  have hform := field_eq "form" h (by simp [List.lookup_append]) i.form.reads_name
  have hcommonjs := field_eq "commonjs" h (by simp [List.lookup_append]) (reads_bool i.commonjs)
  have hlocation := field_eq "location" h (by simp [List.lookup_append]) i.location.reads_toJson
  simp [ofJson?, hsource, hpath, hexternal, hnames, hform, hcommonjs, hlocation]

def Export.ofJson? (j : Json) : Option Export := do
  return {
    source := ← j.field? string? "source"
    resolvedPath := ← j.field? string? "resolved_path"
    names := ← j.field dict? "names"
    aliases := ← j.fieldOr Dict.empty dict? "aliases"
    form := ← j.field (named? ExportForm.all ExportForm.name) "form"
    commonjs := ← j.field bool? "commonjs"
    location := ← j.field Location.ofJson? "location" }

theorem Dict.eq_empty_of_isEmpty {d : Dict} (h : d.isEmpty = true) : d = Dict.empty := by
  obtain ⟨es, hes⟩ := d
  cases List.isEmpty_iff.1 h
  rfl

theorem Export.reads_toJson (e : Export) : Reads ofJson? e.toJson e := by
  intro w h
  have hsource := field?_eq reads_string (y := e.source) "source" h
    (by simp [List.lookup_append])
  have hpath := field?_eq reads_string (y := e.resolvedPath) "resolved_path" h
    (by simp [List.lookup_append])
  have hnames := field_eq "names" h (by simp [List.lookup_append]) (reads_dict e.names)
  have haliases := fieldOr_of_ite (p := e.aliases.isEmpty = true) "aliases" h
    (by simp [List.lookup_append]) (reads_dict e.aliases) Dict.eq_empty_of_isEmpty
  have hform := field_eq "form" h (by simp [List.lookup_append]) e.form.reads_name
  have hcommonjs := field_eq "commonjs" h (by simp [List.lookup_append]) (reads_bool e.commonjs)
  have hlocation := field_eq "location" h (by simp [List.lookup_append]) e.location.reads_toJson
  simp [ofJson?, hsource, hpath, hnames, haliases, hform, hcommonjs, hlocation]

namespace FileRecord

def ofJson? (j : Json) : Option FileRecord := do
  return {
    path := ← j.field string? "path"
    language := ← j.field (named? Language.all Language.name) "language"
    symbols := ← j.field (list? Symbol.ofJson?) "symbols"
    imports := ← j.field (list? Import.ofJson?) "imports"
    exports := ← j.field (list? Export.ofJson?) "exports"
    types := ← j.field dict? "types"
    hasSyntaxErrors := ← j.field bool? "has_syntax_errors" }

theorem reads_toJson (r : FileRecord) : Reads ofJson? r.toJson r := by
  intro w h
  have hpath := field_eq "path" h rfl (reads_string r.path)
  have hlanguage := field_eq "language" h rfl r.language.reads_name
  have hsymbols := field_eq "symbols" h rfl (reads_list Symbol.reads_toJson r.symbols)
  have himports := field_eq "imports" h rfl (reads_list Import.reads_toJson r.imports)
  have hexports := field_eq "exports" h rfl (reads_list Export.reads_toJson r.exports)
  have htypes := field_eq "types" h rfl (reads_dict r.types)
  have hfaults := field_eq "has_syntax_errors" h rfl (reads_bool r.hasSyntaxErrors)
  simp [ofJson?, hpath, hlanguage, hsymbols, himports, hexports, htypes, hfaults]

theorem eq_of_same {r r' : FileRecord} (h : r.toJson.Same r'.toJson) : r = r' := by
  have hread := r'.reads_toJson r'.toJson (Same.refl _)
  rw [r.reads_toJson r'.toJson h] at hread
  exact Option.some.inj hread

theorem eq_of_file_eq {r r' : FileRecord}
    (h : OutputFormat.json.file false r = OutputFormat.json.file false r') : r = r' := by
  have hline : r.toJson.line = r'.toJson.line := (List.cons.inj h).1
  have hjson := line_injective hline
  exact eq_of_same (hjson ▸ Same.refl _)

/-- JSON output for a file is one line, and the line tells the record: records with the same line
    are the same, records with the same value are the same, also if the members of its objects come
    in another order, and reading the value gives the record back. The output of exported symbols
    only is that of the record with just these of its symbols, in order. -/
theorem json_file_lossless (r : FileRecord) :
    OutputFormat.json.file false r = [r.toJson.line] ∧
    (∀ w, r.toJson.Same w → ofJson? w = some r) ∧
    (∀ r' : FileRecord, r.toJson.Same r'.toJson → r = r') ∧
    (∀ r', OutputFormat.json.file false r = OutputFormat.json.file false r' → r = r') ∧
    OutputFormat.json.file true r =
      [{ r with symbols := r.symbols.filter (·.exported) }.toJson.line] :=
  ⟨rfl, r.reads_toJson, fun _ h => eq_of_same h, fun _ h => eq_of_file_eq h, rfl⟩

/-- A record with a symbol that lacks all that may be left out. -/
def oneConstant : FileRecord :=
  { path := "a.ts"
    language := .typescript
    symbols := [⟨"x", "x", .constant, ⟨1, 1, 1, 20, 0, 19⟩, none, [], [], [], "", false⟩]
    imports := []
    exports := []
    types := .single "x" "number"
    hasSyntaxErrors := false }

/-- The members of a record may come in the reverse order, and a visibility is not lost. -/
theorem json_file_lossless_oneConstant :
    (∃ ms, oneConstant.toJson = .object ms ∧ ofJson? (.object ms.reverse) = some oneConstant) ∧
    OutputFormat.json.file false oneConstant ≠
      OutputFormat.json.file false { oneConstant with symbols :=
        [⟨"x", "x", .constant, ⟨1, 1, 1, 20, 0, 19⟩, some .everyone, [], [], [], "", false⟩] } := by
  obtain ⟨-, hread, -, hinj, -⟩ := json_file_lossless oneConstant
  refine ⟨⟨_, rfl, hread _ (same_of_perm (List.reverse_perm _).symm (by decide))⟩, ?_⟩
  intro h
  have heq := hinj _ h
  revert heq
  decide

end FileRecord

end Outline
