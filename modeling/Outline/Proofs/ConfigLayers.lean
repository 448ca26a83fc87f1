import Mathlib.Control.Monad.Basic
import Outline.Config

/-!
# Layers of settings

A configuration has five settings, and each of them is read and merged for itself. A document makes
a layer exactly if it says something readable, or nothing, about each setting at the setting's own
place (`ofMembers?_eq_some_iff`). The file at a path gives a layer or is bad (`isGiven_or_isBad`).
Loading puts one layer after the other on top of the usual settings: the last one that names a
setting decides about it (`exists_loadOnto`), and the first bad file ends the loading
(`loadOnto_of_isBad`).
-/

namespace Outline

/-! ## Settings -/

/-- The settings. -/
inductive Setting where
  | poolSize
  | maxFileSizeKb
  | typePriority
  | defaultFormat
  | patterns
deriving DecidableEq

namespace Setting

/-- The values that a setting may have. -/
def Value : Setting → Type
  | poolSize | maxFileSizeKb => Nat
  | typePriority => List TypeSlot
  | defaultFormat => String
  | patterns => List String

/-- The value of a setting that is in force. -/
def inForce : (s : Setting) → Config → s.Value
  | poolSize, c => c.poolSize
  | maxFileSizeKb, c => c.maxFileSizeKb
  | typePriority, c => c.typePriority
  | defaultFormat, c => c.defaultFormat
  | patterns, c => c.patterns

/-- The value of a setting that a layer names. -/
def named? : (s : Setting) → Layer → Option s.Value
  | poolSize, l => l.poolSize
  | maxFileSizeKb, l => l.maxFileSizeKb
  | typePriority, l => l.typePriority
  | defaultFormat, l => l.defaultFormat
  | patterns, l => l.patterns

/-- The name of the section that holds a setting. -/
def sectionName : Setting → String
  | poolSize => "parser"
  | maxFileSizeKb | typePriority => "extract"
  | defaultFormat => "output"
  | patterns => "ignore"

/-- The key of a setting in its section. -/
def key : Setting → String
  | poolSize => "pool_size"
  | maxFileSizeKb => "max_file_size_kb"
  | typePriority => "type_priority"
  | defaultFormat => "default_format"
  | patterns => "patterns"

/-- The place of a setting among those of its section. -/
def index : Setting → Nat
  | typePriority => 1
  | _ => 0

/-- Read the value of a setting. -/
def read? : (s : Setting) → Toml → Option s.Value
  | poolSize | maxFileSizeKb => Toml.natural?
  | typePriority => fun v => v.items?.bind (·.mapM Toml.slot?)
  | defaultFormat => Toml.text?
  | patterns => fun v => v.items?.bind (·.mapM Toml.text?)

/-- What stands in a document where a setting belongs: under its key in the section, or at its place
    if the section is an array. There is no such place if the section is no section. -/
def place? (s : Setting) (document : Toml.Members) : Option (Option Toml) :=
  match document.lookup s.sectionName with
  | none => some none
  | some (.table _ members) => some (members.lookup s.key)
  | some (.array items) => some items[s.index]?
  | some (.tables items) => some (items[s.index]?.map (.table .header))
  | some .datetime => some none
  | some _ => none

/-- What a document says about a setting: a value or nothing, unless it cannot be read. -/
def said? (s : Setting) (document : Toml.Members) : Option (Option s.Value) :=
  (s.place? document).bind (Toml.setting? s.read?)

theorem forall_iff {p : Setting → Prop} :
    (∀ s, p s) ↔
      p poolSize ∧ p maxFileSizeKb ∧ p typePriority ∧ p defaultFormat ∧ p patterns := by
  constructor
  · intro h
    exact ⟨h _, h _, h _, h _, h _⟩
  · rintro ⟨hpool, hsize, hpriority, hformat, hpatterns⟩ s
    cases s <;> assumption

theorem inForce_apply (s : Setting) (c : Config) (l : Layer) :
    s.inForce (c.apply l) = (s.named? l).getD (s.inForce c) := by
  cases s <;> rfl

end Setting

theorem Config.ext_inForce {c d : Config} (h : ∀ s : Setting, s.inForce c = s.inForce d) :
    c = d := by
  obtain ⟨hpool, hsize, hpriority, hformat, hpatterns⟩ := Setting.forall_iff.1 h
  cases c
  cases d
  simp only [Setting.inForce] at hpool hsize hpriority hformat hpatterns
  subst hpool hsize hpriority hformat hpatterns
  rfl

/-- A layer changes nothing more when it is applied again. -/
theorem Config.apply_apply (c : Config) (l : Layer) : (c.apply l).apply l = c.apply l := by
  refine ext_inForce fun s => ?_
  rw [Setting.inForce_apply, Setting.inForce_apply]
  cases s.named? l with
  | none => rfl
  | some v => rfl

/-! ## Reading a layer -/

namespace Setting

/-- The keys of the section that holds a setting. -/
def siblings : Setting → List String
  | poolSize => ["pool_size"]
  | maxFileSizeKb | typePriority => ["max_file_size_kb", "type_priority"]
  | defaultFormat => ["default_format"]
  | patterns => ["patterns"]

theorem siblings_index (s : Setting) : s.siblings[s.index]? = some s.key := by
  cases s <;> rfl

/-- The settings of a section do not disturb each other. -/
theorem place?_eq (s : Setting) (ms : Toml.Members) :
    s.place? ms = (Layer.settings? s.siblings (ms.lookup s.sectionName)).map fun values =>
      values[s.index]?.bind id := by
  obtain ⟨hindex, hkey⟩ := List.getElem?_eq_some_iff.1 s.siblings_index
  unfold place?
  cases ms.lookup s.sectionName with
  | none => simp [Layer.settings?, hindex]
  | some v => cases v <;> simp [Layer.settings?, Toml.section?, hindex, hkey]

theorem said?_eq (s : Setting) (ms : Toml.Members) :
    s.said? ms = (Layer.settings? s.siblings (ms.lookup s.sectionName)).bind fun values =>
      Toml.setting? s.read? (values[s.index]?.bind id) := by
  rw [said?, place?_eq, Option.bind_map]
  rfl

end Setting

namespace Layer

/-- A document makes a layer exactly if each setting can be read for itself. -/
theorem ofMembers?_eq_some_iff {ms : Toml.Members} {l : Layer} :
    ofMembers? ms = some l ↔ ∀ s : Setting, s.said? ms = some (s.named? l) := by
  simp only [Setting.forall_iff, Setting.said?_eq, Setting.siblings, Setting.sectionName,
    Setting.index, Setting.read?, Setting.named?, ofMembers?]
  -- Without a section that can be read there is neither a layer nor a value of its settings.
  rcases settings? ["pool_size"] (ms.lookup "parser") with _ | parser
  · simp
  rcases settings? ["max_file_size_kb", "type_priority"] (ms.lookup "extract") with _ | extract
  · simp
  rcases settings? ["default_format"] (ms.lookup "output") with _ | output
  · simp
  rcases settings? ["patterns"] (ms.lookup "ignore") with _ | ignore
  · simp
  simp only [Option.bind_eq_bind, Option.bind_some]
  constructor
  · intro h
    obtain ⟨pool, hpool, h⟩ := Option.bind_eq_some_iff.1 h
    obtain ⟨size, hsize, h⟩ := Option.bind_eq_some_iff.1 h
    obtain ⟨priority, hpriority, h⟩ := Option.bind_eq_some_iff.1 h
    obtain ⟨format, hformat, h⟩ := Option.bind_eq_some_iff.1 h
    obtain ⟨patterns, hpatterns, h⟩ := Option.bind_eq_some_iff.1 h
    cases h
    exact ⟨hpool, hsize, hpriority, hformat, hpatterns⟩
  · rintro ⟨hpool, hsize, hpriority, hformat, hpatterns⟩
    refine Option.bind_eq_some_iff.2 ⟨_, hpool, Option.bind_eq_some_iff.2 ⟨_, hsize, ?_⟩⟩
    refine Option.bind_eq_some_iff.2 ⟨_, hpriority, Option.bind_eq_some_iff.2 ⟨_, hformat, ?_⟩⟩
    exact Option.bind_eq_some_iff.2 ⟨_, hpatterns, rfl⟩

/-- Whether a document leaves a setting open: its section is missing, or a table without its key. -/
def leavesOpen (document : Toml.Members) (s : Setting) : Bool :=
  match document.lookup s.sectionName with
  | none => true
  | some (.table _ members) => (members.lookup s.key).isNone
  | some _ => false

/-- A document has no keys but unknown ones, whatever their values are. -/
def NamesNothing (document : Toml.Members) : Prop :=
  ∀ s, leavesOpen document s = true

instance (document : Toml.Members) : Decidable (NamesNothing document) :=
  decidable_of_iff _ Setting.forall_iff.symm

theorem ofMembers?_of_namesNothing {document : Toml.Members} (h : NamesNothing document) :
    ofMembers? document = some .empty := by
  refine ofMembers?_eq_some_iff.2 fun s => ?_
  have hplace : s.place? document = some none := by
    have hopen := h s
    unfold leavesOpen at hopen
    unfold Setting.place?
    split at hopen
    · rename_i hmissing
      rw [hmissing]
    · rename_i members htable
      rw [htable]
      exact congrArg some (Option.isNone_iff_eq_none.1 hopen)
    · cases hopen
  rw [Setting.said?, hplace]
  cases s <;> rfl

/-! ## Files -/

/-- The configuration file at a path gives a layer: it is missing and names nothing, or its text
    makes the layer. -/
inductive IsGiven (fs : FileSystem) (path : String) : Layer → Prop
  | absent (hread : fs.readText path = .error .notFound) : IsGiven fs path .empty
  | file {text : String} {document : Toml.Members} {l : Layer} (hread : fs.readText path = .ok text)
      (hparse : Toml.read? text = some document) (hlayer : ofMembers? document = some l) :
      IsGiven fs path l

/-- The configuration file at a path is bad, for the given reason: it cannot be read, or its text
    cannot be parsed. A file that is not found is missing and not bad; a path that leads through
    another file cannot be read. -/
inductive IsBad (fs : FileSystem) (path : String) : ConfigError → Prop
  | unreadable {cause : FileError} (hread : fs.readText path = .error cause)
      (hcause : cause ≠ .notFound) : IsBad fs path (.unreadable path cause)
  | malformed {text : String} (hread : fs.readText path = .ok text)
      (hparse : read? text = none) : IsBad fs path (.malformed path)

/-- The configuration file at a path does nothing: it is missing, or it is empty, or it names
    nothing but what is unknown. -/
inductive IsIdle (fs : FileSystem) (path : String) : Prop
  | absent (hread : fs.readText path = .error .notFound)
  | empty (hread : fs.readText path = .ok "")
  | unknown {text : String} {document : Toml.Members} (hread : fs.readText path = .ok text)
      (hparse : Toml.read? text = some document) (hnothing : NamesNothing document)

variable {fs : FileSystem} {path : String} {l : Layer} {e : ConfigError}

theorem isGiven_or_isBad (fs : FileSystem) (path : String) :
    (∃ l, IsGiven fs path l) ∨ ∃ e, IsBad fs path e := by
  cases hread : fs.readText path with
  | error cause =>
    by_cases hcause : cause = .notFound
    · exact .inl ⟨_, .absent (hcause ▸ hread)⟩
    · exact .inr ⟨_, .unreadable hread hcause⟩
  | ok text =>
    cases hlayer : read? text with
    | none => exact .inr ⟨_, .malformed hread hlayer⟩
    | some l =>
      obtain ⟨document, hparse, hdocument⟩ := Option.bind_eq_some_iff.1 hlayer
      exact .inl ⟨l, .file hread hparse hdocument⟩

theorem load_of_isGiven (h : IsGiven fs path l) : load fs path = .ok l := by
  cases h with
  | absent hread => rw [load, hread]
  | file hread hparse hlayer =>
    have hread? : read? _ = some l := Option.bind_eq_some_iff.2 ⟨_, hparse, hlayer⟩
    simp only [load, hread, hread?]

theorem load_of_isBad (h : IsBad fs path e) : load fs path = .error e := by
  cases h with
  | unreadable hread hcause =>
    rename_i cause
    rw [load, hread]
    cases cause with
    | notFound => exact absurd rfl hcause
    | _ => rfl
  | malformed hread hparse => simp only [load, hread, hparse]

theorem isBad_of_load (h : load fs path = .error e) : IsBad fs path e := by
  obtain ⟨l, hl⟩ | ⟨e', he'⟩ := isGiven_or_isBad fs path
  · rw [load_of_isGiven hl] at h
    cases h
  · rw [load_of_isBad he'] at h
    cases h
    exact he'

theorem IsIdle.isGiven (h : IsIdle fs path) : IsGiven fs path .empty := by
  cases h with
  | absent hread => exact .absent hread
  | empty hread =>
    exact .file hread (rfl : Toml.read? "" = some []) (ofMembers?_of_namesNothing fun s => rfl)
  | unknown hread hparse hnothing =>
    exact .file hread hparse (ofMembers?_of_namesNothing hnothing)

end Layer

/-- What the configuration file of a directory says about a setting, if it says anything. Whatever
    else the file says does not matter. -/
def Setting.valueIn? (s : Setting) (fs : FileSystem) (directory : String) : Option s.Value :=
  match fs.readText (Config.pathIn directory) with
  | .ok text => ((Toml.read? text).bind s.said?).join
  | .error _ => none

theorem Setting.named?_of_isGiven (s : Setting) {fs : FileSystem} {directory : String} {l : Layer}
    (h : Layer.IsGiven fs (Config.pathIn directory) l) :
    s.named? l = s.valueIn? fs directory := by
  unfold valueIn?
  cases h with
  | absent hread =>
    rw [hread]
    cases s <;> rfl
  | file hread hparse hlayer =>
    have hsaid := Layer.ofMembers?_eq_some_iff.1 hlayer s
    simp only [hread, hparse, Option.bind_some, hsaid, Option.join_some]

namespace ConfigError

/-- The file that an error is about. -/
def path : ConfigError → String
  | unreadable path _ => path
  | malformed path => path

/-- An error names a file: it is about the file, and its message says so. -/
def Names (e : ConfigError) (file : String) : Prop :=
  e.path = file ∧ ∃ front back, e.message = front ++ file ++ back

theorem names_of_isBad {fs : FileSystem} {file : String} {e : ConfigError}
    (h : Layer.IsBad fs file e) : e.Names file := by
  cases h with
  | unreadable hread hthere =>
    exact ⟨rfl, "failed to read config file ", _, String.append_assoc ..⟩
  | malformed hread hparse =>
    exact ⟨rfl, "failed to parse config file: ", "", String.append_empty.symm⟩

end ConfigError

/-! ## Loading layer after layer -/

namespace Config

variable {fs : FileSystem} {c : Config}

/-- Put the layers of some directories on top of settings, one after the other. -/
def loadOnto (fs : FileSystem) (c : Config) (directories : List String) :
    Except ConfigError Config :=
  directories.foldlM (fun c directory => (Layer.load fs (pathIn directory)).map c.apply) c

theorem load_eq_loadOnto (fs : FileSystem) (home root : Option String) :
    load fs home root = loadOnto fs usual (home.toList ++ root.toList) :=
  rfl

theorem loadOnto_append (ds es : List String) :
    loadOnto fs c (ds ++ es) = loadOnto fs c ds >>= (loadOnto fs · es) :=
  List.foldlM_append

theorem loadOnto_cons_of_isGiven {d : String} {l : Layer} (h : Layer.IsGiven fs (pathIn d) l)
    (ds : List String) : loadOnto fs c (d :: ds) = loadOnto fs (c.apply l) ds := by
  rw [loadOnto, List.foldlM_cons, Layer.load_of_isGiven h]
  rfl

theorem loadOnto_cons_of_isBad {d : String} {e : ConfigError} (h : Layer.IsBad fs (pathIn d) e)
    (ds : List String) : loadOnto fs c (d :: ds) = .error e := by
  rw [loadOnto, List.foldlM_cons, Layer.load_of_isBad h]
  rfl

/-- If no file is bad, the last one that names a setting decides about it. -/
theorem exists_loadOnto {ds : List String} (h : ∀ d ∈ ds, ∀ e, ¬ Layer.IsBad fs (pathIn d) e) :
    ∃ c', loadOnto fs c ds = .ok c' ∧ ∀ s : Setting, s.inForce c' =
      (ds.reverse.findSome? (s.valueIn? fs)).getD (s.inForce c) := by
  induction ds generalizing c with
  | nil => exact ⟨c, rfl, fun s => rfl⟩
  | cons d ds ih =>
    obtain ⟨hd, hds⟩ := List.forall_mem_cons.1 h
    obtain ⟨l, hl⟩ := (Layer.isGiven_or_isBad fs (pathIn d)).resolve_right fun ⟨e, he⟩ => hd e he
    obtain ⟨c', hc', hsettings⟩ := ih hds (c := c.apply l)
    refine ⟨c', (loadOnto_cons_of_isGiven hl ds).trans hc', fun s => ?_⟩
    rw [hsettings s, Setting.inForce_apply, s.named?_of_isGiven hl, List.reverse_cons,
      List.findSome?_append, List.findSome?_singleton, Option.getD_or]

/-- The first bad file ends the loading. -/
theorem loadOnto_of_isBad (before : List String)
    (hbefore : ∀ d ∈ before, ∀ e, ¬ Layer.IsBad fs (pathIn d) e) {d : String} {e : ConfigError}
    (hd : Layer.IsBad fs (pathIn d) e) (after : List String) :
    loadOnto fs c (before ++ d :: after) = .error e := by
  obtain ⟨c', hc', -⟩ := exists_loadOnto hbefore (c := c)
  simp only [loadOnto_append, hc', loadOnto_cons_of_isBad hd]
  rfl

/-- A file that does nothing may be left out, wherever it stands. -/
theorem loadOnto_of_isIdle (before : List String) {d : String}
    (hd : Layer.IsIdle fs (pathIn d)) (after : List String) :
    loadOnto fs c (before ++ d :: after) = loadOnto fs c (before ++ after) := by
  have hskip : ∀ c, loadOnto fs c (d :: after) = loadOnto fs c after := fun c =>
    loadOnto_cons_of_isGiven hd.isGiven after
  simp only [loadOnto_append, hskip]

/-- Layers merge setting by setting. If no configuration file is bad, a setting is what the file of
    the directory says about it, or else what the file of the user says, or else as usual; files
    that do nothing may be left out, and nothing changes if a layer is applied twice. If a file is
    bad, loading fails with an error that names it, the one of the user first. -/
theorem load_merges (fs : FileSystem) (home root : Option String) :
    ((∀ d ∈ home.toList ++ root.toList, ∀ e, ¬ Layer.IsBad fs (pathIn d) e) →
      ∃ c, load fs home root = .ok c ∧ ∀ s : Setting, s.inForce c =
        ((root.bind (s.valueIn? fs)).or (home.bind (s.valueIn? fs))).getD (s.inForce usual)) ∧
    (∀ d e, home = some d → Layer.IsBad fs (pathIn d) e →
      load fs home root = .error e ∧ e.Names (pathIn d)) ∧
    (∀ d e, root = some d → Layer.IsBad fs (pathIn d) e →
      (∀ h, home = some h → ∀ e', ¬ Layer.IsBad fs (pathIn h) e') →
      load fs home root = .error e ∧ e.Names (pathIn d)) ∧
    (∀ d, Layer.IsIdle fs (pathIn d) →
      load fs (some d) root = load fs none root ∧ load fs home (some d) = load fs home none) ∧
    ∀ (c : Config) (l : Layer), (c.apply l).apply l = c.apply l := by
  simp only [load_eq_loadOnto]
  refine ⟨fun hgood => ?_, ?_, ?_, fun d hidle => ?_, apply_apply⟩
  · obtain ⟨c, hc, hsettings⟩ := exists_loadOnto hgood (c := usual)
    refine ⟨c, hc, fun s => ?_⟩
    rw [hsettings s, List.reverse_append, List.findSome?_append]
    cases home <;> cases root <;> simp
  · rintro d e rfl hbad
    exact ⟨loadOnto_of_isBad [] (by simp) hbad root.toList, ConfigError.names_of_isBad hbad⟩
  · rintro d e rfl hbad hgood
    refine ⟨loadOnto_of_isBad home.toList (fun h hmem => ?_) hbad [],
      ConfigError.names_of_isBad hbad⟩
    exact hgood h (Option.mem_toList.1 hmem)
  · refine ⟨loadOnto_of_isIdle [] hidle root.toList, ?_⟩
    exact loadOnto_of_isIdle home.toList hidle []

/-- Settings of a user and of a directory, a file with an unknown key, and one that breaks off. -/
def layeredFiles : FileSystem where
  root := .directory "" [
    .directory "home" [.directory ".glean" [.file "config.toml" (Text.encode
      "parser.pool_size = 16\noutput.default_format = 'json'")]],
    .directory "work" [.directory ".glean" [.file "config.toml" (Text.encode
      "[parser]\npool_size = 4\n[extract]\ntype_priority = ['base', 'arg']")]],
    .directory "next" [.directory ".glean" [.file "config.toml" (Text.encode
      "parser.threads = 8")]],
    .directory "torn" [.directory ".glean" [.file "config.toml" (Text.encode "[parser")]]]
  workingDirectory := []

/-- Both files set the size of pools, and each of them something else. -/
theorem load_merges_layeredFiles :
    (∀ d ∈ ["home", "work"], ∀ e, ¬ Layer.IsBad layeredFiles (pathIn d) e) ∧
    Layer.IsBad layeredFiles (pathIn "torn") (.malformed "torn/.glean/config.toml") ∧
    Layer.IsIdle layeredFiles (pathIn "next") ∧
    load layeredFiles (some "home") (some "work") = .ok ⟨4, 1024, [.base, .arg], "json", []⟩ ∧
    (∃ c, load layeredFiles (some "home") (some "work") = .ok c ∧ ∀ s : Setting, s.inForce c =
      ((s.valueIn? layeredFiles "work").or (s.valueIn? layeredFiles "home")).getD
        (s.inForce usual)) ∧
    load layeredFiles (some "torn") (some "work") =
      .error (.malformed "torn/.glean/config.toml") ∧
    load layeredFiles (some "home") (some "torn") =
      .error (.malformed "torn/.glean/config.toml") ∧
    load layeredFiles (some "home") (some "next") = load layeredFiles (some "home") none := by
  have hload : load layeredFiles (some "home") (some "work") =
      .ok ⟨4, 1024, [.base, .arg], "json", []⟩ := by decide +kernel
  obtain ⟨hmerges, hhome, hroot, -⟩ := load_merges layeredFiles (some "home") (some "work")
  have hhomeGood : ∀ h, some "home" = some h → ∀ e, ¬ Layer.IsBad layeredFiles (pathIn h) e := by
    rintro _ ⟨⟩ e hbad
    cases hload.symm.trans (hhome _ e rfl hbad).1
  have hgood : ∀ d ∈ ["home", "work"], ∀ e, ¬ Layer.IsBad layeredFiles (pathIn d) e := by
    refine List.forall_mem_cons.2 ⟨hhomeGood _ rfl, List.forall_mem_singleton.2 fun e hbad => ?_⟩
    cases hload.symm.trans (hroot _ e rfl hbad hhomeGood).1
  have htorn : Layer.IsBad layeredFiles (pathIn "torn") (.malformed "torn/.glean/config.toml") :=
    Layer.isBad_of_load (by decide +kernel)
  have hnext : Layer.IsIdle layeredFiles (pathIn "next") := by
    have hopen : (Toml.read? "parser.threads = 8").any (decide <| Layer.NamesNothing ·) =
        true := by decide +kernel
    obtain ⟨document, hparse, hnothing⟩ := (Option.any_eq_true ..).1 hopen
    exact .unknown (by decide +kernel) hparse (of_decide_eq_true hnothing)
  refine ⟨hgood, htorn, hnext, hload, hmerges hgood, ?_, ?_, ?_⟩
  · exact ((load_merges layeredFiles (some "torn") (some "work")).2.1 _ _ rfl htorn).1
  · exact ((load_merges layeredFiles (some "home") (some "torn")).2.2.1 _ _ rfl htorn hhomeGood).1
  · exact ((load_merges layeredFiles (some "home") none).2.2.2.1 _ hnext).2

end Config

end Outline
