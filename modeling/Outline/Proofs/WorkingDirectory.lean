import Mathlib.Data.List.Basic
import Mathlib.Tactic.SplitIfs
import Outline.Command.Run
import Outline.Proofs.ProperEntries

/-!
# The working directory

The working directory is known under two paths: `.`, and its path from the root directory. Both lead
to the same configuration file, unless the longer one cannot be followed at all
(`find_pathIn`). So where the configuration loads, it is the same for both (`loadConfig_here`).
-/

namespace Outline

/-! ## Pieces of paths -/

namespace Text

theorem splitAt_of_not_mem {sep : Char} {cs : List Char} (h : sep ∉ cs) :
    splitAt sep cs = [cs] := by
  induction cs with
  | nil => rfl
  | cons c cs ih =>
    have hne : ¬ (c == sep) = true := by
      intro heq
      exact h (beq_iff_eq.1 heq ▸ List.mem_cons_self ..)
    rw [splitAt, if_neg hne, ih fun hmem => h (List.mem_cons_of_mem _ hmem)]

theorem splitAt_append {sep : Char} {xs : List Char} (h : sep ∉ xs) (ys : List Char) :
    splitAt sep (xs ++ sep :: ys) = xs :: splitAt sep ys := by
  induction xs with
  | nil => simp [splitAt]
  | cons x xs ih =>
    have hne : ¬ (x == sep) = true := by
      intro heq
      exact h (beq_iff_eq.1 heq ▸ List.mem_cons_self ..)
    rw [List.cons_append, splitAt, if_neg hne, ih fun hmem => h (List.mem_cons_of_mem _ hmem)]

/-- Splitting undoes joining. -/
theorem splitAt_intercalate {sep : Char} :
    ∀ {pieces : List (List Char)}, pieces ≠ [] → (∀ p ∈ pieces, sep ∉ p) →
      splitAt sep ([sep].intercalate pieces) = pieces
  | [p], _, h => by
    rw [List.intercalate_singleton]
    exact splitAt_of_not_mem (h p (List.mem_cons_self ..))
  | p :: q :: pieces, _, h => by
    rw [List.intercalate_cons_cons, List.append_assoc, List.singleton_append,
      splitAt_append (h p (List.mem_cons_self ..)),
      splitAt_intercalate (by simp) fun r hr => h r (List.mem_cons_of_mem _ hr)]

theorem intercalate_concat (sep : Char) (p : List Char) :
    ∀ {pieces : List (List Char)}, pieces ≠ [] →
      [sep].intercalate (pieces ++ [p]) = [sep].intercalate pieces ++ sep :: p
  | [q], _ => by simp
  | q :: r :: pieces, _ => by
    rw [List.cons_append, List.cons_append, List.intercalate_cons_cons, ← List.cons_append,
      intercalate_concat sep p (by simp), List.intercalate_cons_cons]
    simp

end Text

/-! ## Paths of places -/

theorem toList_joinPath {base name : String} {c : Char} (hlast : base.toList.getLast? = some c)
    (hc : c ≠ '/') : (joinPath base name).toList = base.toList ++ '/' :: name.toList := by
  unfold joinPath
  rw [hlast]
  split
  · cases ‹some c = none›
  · exact absurd (Option.some.inj ‹_›) hc
  · simp

theorem toList_placePath (place : Place) :
    (placePath place).toList = '/' :: ['/'].intercalate (place.map String.toList) := by
  rw [placePath, String.toList_append, String.toList_intercalate]
  rfl

theorem head?_joinPath {base : String} {c : Char} (h : base.toList.head? = some c) (name : String) :
    (joinPath base name).toList.head? = some c := by
  obtain ⟨cs, hcs⟩ : ∃ cs, base.toList = c :: cs := by
    cases hbase : base.toList with
    | nil => simp [hbase] at h
    | cons d ds =>
      rw [hbase] at h
      obtain rfl := Option.some.inj h
      exact ⟨ds, rfl⟩
  unfold joinPath
  split
  · rename_i hnone
    rw [List.getLast?_eq_none_iff, hcs] at hnone
    cases hnone
  · simp [hcs]
  · simp [hcs]

/-- The path of a place that is not the root directory does not end in a slash. -/
theorem getLast?_placePath {place : Place} (hne : place ≠ []) (h : ∀ n ∈ place, isName n = true) :
    ∃ c, (placePath place).toList.getLast? = some c ∧ c ≠ '/' := by
  obtain ⟨ns, n, rfl⟩ := (List.eq_nil_or_concat' place).resolve_left hne
  obtain ⟨hempty, -, -, hslash⟩ := isName_iff.1 (h n (by simp))
  have hchars : n.toList ≠ [] := fun hnil => hempty (String.toList_eq_nil_iff.1 hnil)
  obtain ⟨front, hfront⟩ : ∃ front, (placePath (ns ++ [n])).toList = front ++ n.toList := by
    rw [toList_placePath, List.map_append, List.map_singleton]
    cases ns with
    | nil => exact ⟨['/'], by simp⟩
    | cons m ms =>
      rw [Text.intercalate_concat _ _ (by simp)]
      exact ⟨'/' :: (['/'].intercalate ((m :: ms).map String.toList) ++ ['/']), by simp⟩
  refine ⟨n.toList.getLast hchars, ?_, ?_⟩
  · rw [hfront, List.getLast?_append_of_ne_nil _ hchars, List.getLast?_eq_some_getLast hchars]
  · intro heq
    exact hslash (heq ▸ List.getLast_mem hchars)

/-- The path of the configuration file of a place has the names of the place as its pieces. -/
theorem splitAt_pathIn {place : Place} (h : ∀ n ∈ place, isName n = true) :
    Text.splitAt '/' (Config.pathIn (placePath place)).toList =
      [] :: (place.map String.toList ++ [".glean".toList, "config.toml".toList]) := by
  by_cases hne : place = []
  · subst hne
    rfl
  · obtain ⟨c, hlast, hc⟩ := getLast?_placePath hne h
    have hbase : (placePath place).toList = ['/'].intercalate ([] :: place.map String.toList) := by
      rw [toList_placePath]
      cases place with
      | nil => exact absurd rfl hne
      | cons n ns => rfl
    have hglean : (joinPath (placePath place) ".glean").toList =
        ['/'].intercalate ([] :: place.map String.toList ++ [".glean".toList]) := by
      rw [toList_joinPath hlast hc, hbase, Text.intercalate_concat _ _ (by simp)]
    -- The second join needs to know that the first one does not end in a slash either.
    have hlast' : (joinPath (placePath place) ".glean").toList.getLast? = some 'n' := by
      rw [toList_joinPath hlast hc, List.getLast?_append_of_ne_nil _ (by simp)]
      rfl
    have hconfig : (Config.pathIn (placePath place)).toList = ['/'].intercalate
        ([] :: place.map String.toList ++ [".glean".toList] ++ ["config.toml".toList]) := by
      rw [Config.pathIn, toList_joinPath hlast' (by decide), hglean,
        Text.intercalate_concat '/' "config.toml".toList (by simp)]
    rw [hconfig, Text.splitAt_intercalate (by simp), List.append_assoc]
    · rfl
    · intro p hp
      simp only [List.cons_append, List.append_assoc, List.mem_cons, List.mem_append, List.mem_map,
        List.not_mem_nil, false_or, or_false] at hp
      rcases hp with rfl | ⟨n, hn, rfl⟩ | rfl | rfl
      · simp
      · exact (isName_iff.1 (h n hn)).2.2.2
      · decide
      · decide

/-! ## Following paths -/

namespace FileSystem

variable {fs : FileSystem}

theorem currentDirectory_eq_ok_iff {here : String} :
    fs.currentDirectory = .ok here ↔ here = placePath fs.workingDirectory ∧
      ∃ name entries, fs.top.descend? fs.workingDirectory = some (.directory name entries) := by
  unfold currentDirectory
  split
  · rename_i name entries h
    simp [h, eq_comm]
  · rename_i h
    simp only [reduceCtorEq, false_iff, not_and, not_exists]
    exact fun _ => h

/-- A short path that does not start with a slash is followed from the working directory. -/
theorem find_relative {path : String} (hzero : path.toList.contains (Char.ofNat 0) = false)
    (hne : path ≠ "") (hlimit : ¬ pathLimit < path.utf8ByteSize)
    (hhead : path.toList.head? ≠ some '/') {e : Entry}
    (he : fs.top.descend? fs.workingDirectory = some e) :
    fs.find path = fs.follow fs.workingDirectory e (Text.splitAt '/' path.toList) := by
  rw [find, hzero]
  simp only [Bool.false_eq_true, if_false, hne, hlimit, hhead, he]

/-- A path that starts with a slash is followed from the root directory, if it can be. -/
theorem find_absolute {path : String} (hhead : path.toList.head? = some '/') :
    fs.find path = fs.follow [] fs.top (Text.splitAt '/' path.toList) ∨
      fs.find path = .error .nameTooLong ∨ fs.find path = .error .zeroInPath := by
  have hne : path ≠ "" := by
    rintro rfl
    cases hhead
  rw [find, if_neg hne]
  by_cases hzero : path.toList.contains (Char.ofNat 0) = true
  · rw [if_pos hzero]
    exact .inr (.inr rfl)
  · rw [if_neg hzero]
    by_cases hlimit : pathLimit < path.utf8ByteSize
    · rw [if_pos hlimit]
      exact .inr (.inl rfl)
    · rw [if_neg hlimit, hhead]
      exact .inl rfl

theorem isDirectory_here {here : String} (h : fs.currentDirectory = .ok here) :
    fs.isDirectory "." = true := by
  obtain ⟨-, name, entries, he⟩ := currentDirectory_eq_ok_iff.1 h
  have hfind := find_relative (show ".".toList.contains (Char.ofNat 0) = false by decide)
    (by decide) (by decide) (by decide) he
  rw [isDirectory, hfind]
  rfl

/-- Names lead down, or are too long. -/
theorem follow_names {names : List String} (hnames : ∀ n ∈ names, isName n = true)
    (rest : List (List Char)) {place : Place} {e inner : Entry}
    (he : e.descend? names = some inner) :
    fs.follow place e (names.map String.toList ++ rest) = fs.follow (place ++ names) inner rest ∨
      fs.follow place e (names.map String.toList ++ rest) = .error .nameTooLong := by
  -- Along the names, the place grows by what the names shrink.
  induction names generalizing place e with
  | nil =>
    obtain rfl := Option.some.inj he
    simp
  | cons n ns ih =>
    obtain ⟨e', hchild, he'⟩ := Option.bind_eq_some_iff.1 he
    obtain ⟨hempty, hdot, hdots, -⟩ := isName_iff.1 (hnames n (List.mem_cons_self ..))
    have hdirectory : e.isDirectory = true := by
      cases e with
      | file => cases hchild
      | directory => rfl
    have hpiece : ∀ s : String, n ≠ s → n.toList ≠ s.toList := fun s hs heq =>
      hs (String.toList_inj.1 heq)
    have hstay : ¬ (n.toList = [] ∨ n.toList = ['.']) := by
      rw [not_or]
      exact ⟨hpiece "" hempty, hpiece "." hdot⟩
    have hstep : fs.follow place e (n.toList :: (ns.map String.toList ++ rest)) =
        if nameLimit < n.utf8ByteSize then .error .nameTooLong
        else fs.follow (place ++ [n]) e' (ns.map String.toList ++ rest) := by
      have hup : n.toList ≠ ['.', '.'] := hpiece ".." hdots
      rw [follow, hdirectory, Bool.not_true, if_neg Bool.false_ne_true, if_neg hstay, if_neg hup]
      simp only [String.ofList_toList, hchild]
    rw [List.map_cons, List.cons_append, hstep, List.append_cons place n ns]
    split_ifs
    · exact .inr rfl
    · exact ih (fun m hm => hnames m (List.mem_cons_of_mem _ hm)) he'

/-- The configuration file has two paths, which lead to the same file, unless the path from the root
    directory cannot be followed. -/
theorem find_pathIn {here : String} (h : fs.currentDirectory = .ok here) :
    fs.find (Config.pathIn here) = fs.find (Config.pathIn ".") ∨
      fs.find (Config.pathIn here) = .error .nameTooLong ∨
      fs.find (Config.pathIn here) = .error .zeroInPath := by
  obtain ⟨rfl, name, entries, he⟩ := currentDirectory_eq_ok_iff.1 h
  have hplace := isName_of_descend? he
  have hhere : fs.find (Config.pathIn ".") = fs.follow fs.workingDirectory (.directory name entries)
      [".glean".toList, "config.toml".toList] := by
    rw [find_relative (by decide +kernel) (by decide +kernel) (by decide +kernel)
      (by decide +kernel) he]
    rfl
  have hhead : (Config.pathIn (placePath fs.workingDirectory)).toList.head? = some '/' := by
    refine head?_joinPath (head?_joinPath ?_ _) _
    rw [toList_placePath]
    rfl
  have htop : fs.top.isDirectory = true := fs.root.isDirectory
  have hdown : fs.follow [] fs.top
      (Text.splitAt '/' (Config.pathIn (placePath fs.workingDirectory)).toList) =
      fs.follow [] fs.top
        (fs.workingDirectory.map String.toList ++ [".glean".toList, "config.toml".toList]) := by
    rw [splitAt_pathIn hplace, follow, htop]
    rfl
  have hnames : fs.follow [] fs.top (fs.workingDirectory.map String.toList ++
        [".glean".toList, "config.toml".toList]) = fs.follow fs.workingDirectory
          (.directory name entries) [".glean".toList, "config.toml".toList] ∨ _ :=
    follow_names hplace _ he
  rw [hhere]
  rcases find_absolute hhead with hfind | hfind
  · rw [hfind, hdown]
    exact hnames.imp_right .inl
  · exact .inr hfind

end FileSystem

/-! ## The configuration -/

/-- A layer that loads by a path also loads by another path to the same file. A path that cannot be
    followed does not load, so nothing is claimed about it. -/
theorem Layer.load_of_find {fs : FileSystem} {p q : String} {l : Layer}
    (h : fs.find p = fs.find q ∨ fs.find p = .error .nameTooLong ∨ fs.find p = .error .zeroInPath)
    (hp : Layer.load fs p = .ok l) : Layer.load fs q = .ok l := by
  have hfails : ∀ e, fs.find p = .error e → fs.readText p = .error e := by
    intro e he
    unfold FileSystem.readText FileSystem.read
    rw [he]
    rfl
  rcases h with h | h | h
  · have htext : fs.readText q = fs.readText p := by
      unfold FileSystem.readText FileSystem.read
      rw [h]
    unfold Layer.load at hp ⊢
    rw [htext]
    split at hp
    · exact hp
    · cases hp
    · split at hp
      · exact hp
      · cases hp
  · rw [Layer.load, hfails _ h] at hp
    cases hp
  · rw [Layer.load, hfails _ h] at hp
    cases hp

theorem Config.load_some {fs : FileSystem} {home : Option String} {directory : String}
    {c : Config} :
    Config.load fs home (some directory) = .ok c ↔ ∃ c₀ l, Config.load fs home none = .ok c₀ ∧
      Layer.load fs (Config.pathIn directory) = .ok l ∧ c = c₀.apply l := by
  have hbind : ∀ x : Except ConfigError Config,
      (x >>= fun c => (Layer.load fs (pathIn directory)).map c.apply) = .ok c ↔
        ∃ c₀ l, x = .ok c₀ ∧ Layer.load fs (pathIn directory) = .ok l ∧ c = c₀.apply l := by
    intro x
    cases x <;> cases Layer.load fs (pathIn directory) <;>
      simp [bind, Except.bind, Except.map, eq_comm]
  rw [← hbind]
  simp only [Config.load, Option.toList_some, Option.toList_none, List.append_nil,
    List.foldlM_append, List.foldlM_cons, List.foldlM_nil, bind_pure]

namespace Command

/-- Where the configuration of the working directory loads, it is that of `.`. -/
theorem loadConfig_here {w : World} {here : String} (h : w.files.currentDirectory = .ok here)
    {c : Config} (hc : loadConfig w here = .ok c) : loadConfig w "." = .ok c := by
  have hload : ∀ directory, loadConfig w directory = .ok c ↔
      Config.load w.files w.home (some directory) = .ok c := by
    intro directory
    unfold loadConfig
    cases Config.load w.files w.home (some directory) with
    | error e => simp [Except.mapError]
    | ok c' => simp [Except.mapError]
  rw [hload, Config.load_some] at hc ⊢
  obtain ⟨c₀, l, hhome, hl, rfl⟩ := hc
  exact ⟨c₀, l, hhome, Layer.load_of_find (FileSystem.find_pathIn h) hl, rfl⟩

end Command

end Outline
