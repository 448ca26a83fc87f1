import Outline.Proofs.Exclusions
import Outline.Proofs.Gathering

/-!
# The paths that a walk collects

A walk goes down a tree of entries, so each file that it finds has a way of names below the start
(`IsWay`), and different files have different ways. No directory on a way is one that walks do not
enter. With more exclusions the walk finds a part of the files, in the same order
(`filesIn_sublist`). What is collected is sorted by routes, and no two routes are the same, so each
path comes strictly before the next (`sources?_shrinks`).
-/

namespace Outline

/-! ## The order of routes -/

namespace Route

theorem key_inj {r s : Route} (h : r.key = s.key) : r = s := by
  have hrank : ∀ a b : Step, some a.rank = some b.rank → a = b := by
    intro a b hab
    cases a <;> cases b <;> simp_all [Step.rank]
  have hsteps : ∀ {as bs : List Step},
      (as.map fun a => some a.rank) = bs.map (fun b => some b.rank) → as = bs := fun heq =>
    List.map_injective_iff.2 hrank heq
  obtain ⟨absolute, steps⟩ := r
  obtain ⟨absolute', steps'⟩ := s
  cases absolute <;> cases absolute'
  · exact congrArg (mk false) (hsteps h)
  · cases steps <;> cases h
  · cases steps' <;> cases h
  · exact congrArg (mk true) (hsteps (List.cons.inj h).2)

theorem compare_self (r : Route) : r.compare r = .eq :=
  (compare_eq r r).trans Std.ReflCmp.compare_self

theorem compare_eq_lt {p q : String} (hle : pathLe p q = true) (hne : ofText p ≠ ofText q) :
    (ofText p).compare (ofText q) = .lt := by
  have heq : (ofText p).compare (ofText q) ≠ .eq := by
    intro heq
    rw [compare_eq] at heq
    exact hne (key_inj (Std.LawfulEqCmp.eq_of_compare heq))
  rw [pathLe] at hle
  cases hcompare : (ofText p).compare (ofText q) with
  | lt => rfl
  | eq => exact absurd hcompare heq
  | gt => rw [hcompare] at hle; cases hle

end Route

namespace Walk

/-! ## Fewer files -/

section Fewer

variable {fs : FileSystem} {home : Option String} {root : String} {place : Place}
  {few many : List IgnoreRule}

theorem sublist_of_leavesOut {out out' : Bool} (h : out = true → out' = true) {xs ys : List String}
    (hsublist : xs.Sublist ys) :
    (if out' then [] else xs).Sublist (if out then [] else ys) := by
  cases out with
  | true =>
    rw [h rfl]
    exact List.Sublist.refl _
  | false =>
    split
    · exact List.nil_sublist _
    · exact hsublist

mutual

theorem filesAt_sublist (h : few ⊆ many) (inside : List DirectoryRules) (around : String) :
    ∀ e : Entry, (filesAt fs (surroundings fs home root place many) inside around e).Sublist
      (filesAt fs (surroundings fs home root place few) inside around e)
  | .file name bytes => by
    rw [filesAt, filesAt]
    exact sublist_of_leavesOut (leavesOut_mono h) (List.Sublist.refl _)
  | .directory name entries => by
    rw [filesAt, filesAt]
    refine sublist_of_leavesOut (leavesOut_mono h) ?_
    split
    · exact List.Sublist.refl _
    · exact filesIn_sublist h _ _ entries

theorem filesIn_sublist (h : few ⊆ many) (inside : List DirectoryRules) (around : String) :
    ∀ es : List Entry, (filesIn fs (surroundings fs home root place many) inside around es).Sublist
      (filesIn fs (surroundings fs home root place few) inside around es)
  | [] => List.Sublist.refl _
  | e :: es => (filesAt_sublist h inside around e).append (filesIn_sublist h inside around es)

end

end Fewer

/-! ## Ways -/

section Ways

variable {fs : FileSystem} {home : Option String} {root : String} {place : Place}
  {patterns : List String} {exclusions : List IgnoreRule}

/-- Below an entry, names lead to a file. None of the directories on the way, this entry included,
    is one that walks do not enter. -/
structure IsWay (e : Entry) (names : List String) : Prop where
  file : ∃ name bytes, e.descend? names = some (.file name bytes)
  proper : ∀ n ∈ e.name :: names, isEntryName n = true
  wanted : ∀ d ∈ (e.name :: names).dropLast, d ∉ unwanted

mutual

/-- A walk finds files by their ways. -/
theorem exists_way_at (hroot : root ≠ "")
    (hexclusions : exclusions? (exclusionLines patterns) = some exclusions) :
    ∀ (e : Entry), isEntryName e.name = true → e.isProper = true →
      ∀ (inside : List DirectoryRules) (front : List String), ∀ path ∈
        filesAt fs (surroundings fs home root place exclusions) inside (below root front) e,
        ∃ names, path = below root (front ++ e.name :: names) ∧ IsWay e names
  | .file name bytes, hname, _, inside, front, path, hpath => by
    rw [filesAt, ← below_concat] at hpath
    split at hpath
    · cases hpath
    · refine ⟨[], List.mem_singleton.1 hpath, ⟨name, bytes, rfl⟩, ?_, ?_⟩
      · simpa using hname
      · simp
  | .directory name entries, hname, hproper, inside, front, path, hpath => by
    obtain ⟨hne, y, hy⟩ := exists_toList_below hroot front
    obtain ⟨hnodup, hentries⟩ := Entry.isProper_directory_iff.1 hproper
    rw [filesAt] at hpath
    split_ifs at hpath with hentered
    · cases hpath
    · cases hpath
    · have hwanted : name ∉ unwanted := fun hmem =>
        hentered (leavesOut_unwanted hexclusions hmem hne hy inside)
      rw [← below_concat] at hpath
      obtain ⟨e, he, names, hpath, hway⟩ :=
        exists_way_in hroot hexclusions entries hentries _ _ path hpath
      refine ⟨e.name :: names, by rw [hpath, List.append_assoc]; rfl, ?_, ?_, ?_⟩
      · rw [Entry.descend?_of_mem hnodup he]
        exact hway.file
      · exact List.forall_mem_cons.2 ⟨hname, hway.proper⟩
      · exact List.forall_mem_cons.2 ⟨hwanted, hway.wanted⟩

theorem exists_way_in (hroot : root ≠ "")
    (hexclusions : exclusions? (exclusionLines patterns) = some exclusions) :
    ∀ (es : List Entry), Entry.areProper es = true →
      ∀ (inside : List DirectoryRules) (front : List String), ∀ path ∈
        filesIn fs (surroundings fs home root place exclusions) inside (below root front) es,
        ∃ e ∈ es, ∃ names, path = below root (front ++ e.name :: names) ∧ IsWay e names
  | [], _, _, _, path, hpath => by
    rw [filesIn] at hpath
    cases hpath
  | e :: es, hproper, inside, front, path, hpath => by
    rw [filesIn, List.mem_append] at hpath
    obtain ⟨⟨hname, he⟩, hes⟩ := Entry.areProper_cons_iff.1 hproper
    rcases hpath with hpath | hpath
    · obtain ⟨names, hway⟩ := exists_way_at hroot hexclusions e hname he inside front path hpath
      exact ⟨e, List.mem_cons_self .., names, hway⟩
    · obtain ⟨e', he', hway⟩ := exists_way_in hroot hexclusions es hes inside front path hpath
      exact ⟨e', List.mem_cons_of_mem _ he', hway⟩

end

theorem IsWay.route {e : Entry} {names front : List String} (hway : IsWay e names)
    (hroot : root ≠ "") (hfront : ∀ n ∈ front, isName n = true) :
    Route.ofText (below root (front ++ e.name :: names)) =
      (Route.ofText root).down (front ++ e.name :: names) := by
  refine Route.ofText_below hroot fun n hn => ?_
  rcases List.mem_append.1 hn with hn | hn
  · exact hfront n hn
  · exact (isEntryName_iff.1 (hway.proper n hn)).1

mutual

/-- A walk finds no two files on the same route. -/
theorem nodup_filesAt (hroot : root ≠ "")
    (hexclusions : exclusions? (exclusionLines patterns) = some exclusions) :
    ∀ (e : Entry), isEntryName e.name = true → e.isProper = true →
      ∀ (inside : List DirectoryRules) (front : List String), (∀ n ∈ front, isName n = true) →
        ((filesAt fs (surroundings fs home root place exclusions) inside (below root front) e).map
          Route.ofText).Nodup
  | .file name bytes, _, _, inside, front, _ => by
    rw [filesAt]
    split <;> simp
  | .directory name entries, hname, hproper, inside, front, hfront => by
    obtain ⟨hnodup, hentries⟩ := Entry.isProper_directory_iff.1 hproper
    have hfront' : ∀ n ∈ front ++ [name], isName n = true := by
      intro n hn
      rcases List.mem_append.1 hn with hn | hn
      · exact hfront n hn
      · obtain rfl := List.mem_singleton.1 hn
        exact (isEntryName_iff.1 hname).1
    rw [filesAt, ← below_concat]
    split_ifs
    · exact List.nodup_nil
    · exact List.nodup_nil
    · exact nodup_filesIn hroot hexclusions entries hnodup hentries _ _ hfront'

theorem nodup_filesIn (hroot : root ≠ "")
    (hexclusions : exclusions? (exclusionLines patterns) = some exclusions) :
    ∀ (es : List Entry), (es.map Entry.name).Nodup → Entry.areProper es = true →
      ∀ (inside : List DirectoryRules) (front : List String), (∀ n ∈ front, isName n = true) →
        ((filesIn fs (surroundings fs home root place exclusions) inside (below root front) es).map
          Route.ofText).Nodup
  | [], _, _, inside, front, _ => by
    rw [filesIn]
    exact List.nodup_nil
  | e :: es, hnames, hproper, inside, front, hfront => by
    obtain ⟨hfirst, hnames⟩ := List.nodup_cons.1 hnames
    obtain ⟨⟨hname, he⟩, hes⟩ := Entry.areProper_cons_iff.1 hproper
    rw [filesIn, List.map_append, List.nodup_append]
    refine ⟨nodup_filesAt hroot hexclusions e hname he inside front hfront,
      nodup_filesIn hroot hexclusions es hnames hes inside front hfront, ?_⟩
    -- The routes part where the names of the entries stand.
    intro r hr r' hr' heq
    obtain ⟨p, hp, rfl⟩ := List.mem_map.1 hr
    obtain ⟨q, hq, rfl⟩ := List.mem_map.1 hr'
    obtain ⟨names, rfl, hway⟩ := exists_way_at hroot hexclusions e hname he inside front p hp
    obtain ⟨e', he', names', rfl, hway'⟩ :=
      exists_way_in hroot hexclusions es hes inside front q hq
    rw [hway.route hroot hfront, hway'.route hroot hfront] at heq
    have hcons := List.append_cancel_left (Route.down_inj heq)
    exact hfirst ((List.cons.inj hcons).1 ▸ List.mem_map_of_mem he')

end

end Ways

/-! ## Collected paths -/

section Collected

variable {fs : FileSystem} {home : Option String} {root : String} {patterns : List String}
  {exclusions : List IgnoreRule}

/-- What a walk promises of a path: it leads from the start through directories that are not
    unwanted to a source file. -/
structure IsCollected (fs : FileSystem) (root path : String) : Prop where
  way : ∃ names, Route.ofText path = (Route.ofText root).down names ∧
    ∀ d ∈ names.dropLast, d ∉ unwanted
  file : fs.HasFile path
  /-- The path can also be followed, unless it is too long for that. -/
  opens : fs.isFile path = true ∨ fs.find path = .error .nameTooLong
  source : Language.ofPath path ≠ .unknown

theorem isCollected_of_mem
    (hexclusions : exclusions? (exclusionLines patterns) = some exclusions) {path : String}
    (hpath : path ∈ filesFrom fs home root exclusions) (hsource : isSource path = true) :
    IsCollected fs root path := by
  have hsource' : Language.ofPath path ≠ .unknown := bne_iff_ne.1 hsource
  unfold filesFrom at hpath
  split at hpath
  · cases hpath
  · rename_i hfind
    obtain rfl := List.mem_singleton.1 hpath
    have hroute : Route.ofText path = (Route.ofText path).down [] := by simp [Route.down]
    exact ⟨⟨[], hroute, by simp⟩, FileSystem.hasFile_of_find hfind,
      .inl (FileSystem.isFile_of_find hfind), hsource'⟩
  · rename_i place name entries hfind
    obtain ⟨-, hroot, -⟩ := FileSystem.find_ok hfind
    obtain ⟨hentry, hplace⟩ := FileSystem.descend?_of_find hfind
    obtain ⟨hnodup, hentries⟩ :=
      Entry.isProper_directory_iff.1 (FileSystem.isProper_of_descend? hentry)
    obtain ⟨e, he, names, hbelow, hway⟩ :=
      exists_way_in hroot hexclusions entries hentries _ [] path hpath
    have hroute : Route.ofText path = (Route.ofText root).down (e.name :: names) :=
      hbelow ▸ hway.route hroot (List.forall_mem_nil _)
    obtain ⟨n, bytes, hfile⟩ := hway.file
    have hdescend : (Entry.directory name entries).descend? (e.name :: names) =
        some (.file n bytes) := (Entry.descend?_of_mem hnodup he names).trans hfile
    refine ⟨⟨e.name :: names, hroute, hway.wanted⟩, ⟨n, bytes, ?_⟩, ?_, hsource'⟩
    · rw [hroute, Route.walk_down, hplace, Entry.descend?_append, hentry]
      exact hdescend
    · rw [hbelow]
      exact (FileSystem.find_below hfind hway.proper hdescend).imp_left
        FileSystem.isFile_of_find

theorem nodup_filesFrom
    (hexclusions : exclusions? (exclusionLines patterns) = some exclusions) :
    ((filesFrom fs home root exclusions).map Route.ofText).Nodup := by
  unfold filesFrom
  split
  · exact List.nodup_nil
  · simp
  · rename_i place name entries hfind
    obtain ⟨-, hroot, -⟩ := FileSystem.find_ok hfind
    have hdirectory := FileSystem.isProper_of_descend? (FileSystem.descend?_of_find hfind).1
    obtain ⟨hnodup, hentries⟩ := Entry.isProper_directory_iff.1 hdirectory
    exact nodup_filesIn hroot hexclusions entries hnodup hentries _ [] (List.forall_mem_nil _)

theorem filesFrom_sublist {few many : List IgnoreRule} (h : few ⊆ many) :
    (filesFrom fs home root many).Sublist (filesFrom fs home root few) := by
  unfold filesFrom
  split
  · exact List.Sublist.refl _
  · exact List.Sublist.refl _
  · exact filesIn_sublist h _ _ _

theorem sourcesBelow_sublist {few many : List IgnoreRule} (h : few ⊆ many) :
    (sourcesBelow fs home many root).Sublist (sourcesBelow fs home few root) :=
  mergeSort_sublist pathLe_trans pathLe_total ((filesFrom_sublist h).filter _)

/-- Each path comes strictly before the next. -/
theorem pairwise_lt_sourcesBelow
    (hexclusions : exclusions? (exclusionLines patterns) = some exclusions) :
    (sourcesBelow fs home exclusions root).Pairwise fun p q =>
      (Route.ofText p).compare (Route.ofText q) = .lt := by
  have hroutes : ((sourcesBelow fs home exclusions root).map Route.ofText).Nodup := by
    refine (sourcesBelow_perm.map Route.ofText).nodup_iff.2 ?_
    exact (nodup_filesFrom hexclusions).sublist (List.filter_sublist.map Route.ofText)
  exact (pairwise_sourcesBelow.and (List.pairwise_map.1 hroutes)).imp fun ⟨hle, hne⟩ =>
    Route.compare_eq_lt hle hne

/-! ## Patterns -/

/-- Whether a pattern can be read as an exclusion. -/
def isValid (pattern : String) : Bool :=
  (exclusions? ["!" ++ pattern]).isSome

theorem exists_exclusions (h : ∀ p ∈ patterns, isValid p = true) :
    ∃ exclusions, exclusions? (exclusionLines patterns) = some exclusions := by
  refine ⟨_, exclusions?_eq_some_iff.2 ⟨fun line hline => ?_, rfl⟩⟩
  rcases List.mem_append.1 hline with hline | hline
  · obtain ⟨d, hd, rfl⟩ := List.mem_map.1 hline
    rw [read_unwanted hd]
    intro hread
    cases hread
  · obtain ⟨p, hp, rfl⟩ := List.mem_map.1 hline
    obtain ⟨rules, hrules⟩ := Option.isSome_iff_exists.1 (h p hp)
    exact (exclusions?_eq_some_iff.1 hrules).1 _ (List.mem_singleton_self _)

/-- What is excluded depends on which patterns there are, and only grows with them. -/
theorem exclusions_subset {ps qs : List String} {few many : List IgnoreRule} (h : ps ⊆ qs)
    (hps : exclusions? (exclusionLines ps) = some few)
    (hqs : exclusions? (exclusionLines qs) = some many) : few ⊆ many := by
  have hlines : exclusionLines ps ⊆ exclusionLines qs := by
    intro line hline
    rcases List.mem_append.1 hline with hline | hline
    · exact List.mem_append_left _ hline
    · exact List.mem_append_right _ (List.map_subset _ h hline)
  rw [(exclusions?_eq_some_iff.1 hps).2, (exclusions?_eq_some_iff.1 hqs).2]
  intro r hr
  obtain ⟨line, hline, hr⟩ := List.mem_filterMap.1 hr
  exact List.mem_filterMap.2 ⟨line, hlines hline, hr⟩

theorem exists_sources? (h : ∀ p ∈ patterns, isValid p = true) :
    ∃ all, sources? fs home root patterns = some all := by
  obtain ⟨exclusions, hexclusions⟩ := exists_exclusions h
  exact ⟨_, sources?_eq hexclusions⟩

/-- What is collected comes from a walk with the exclusions that the patterns give. -/
theorem exists_of_sources? {all : List String} (h : sources? fs home root patterns = some all) :
    ∃ exclusions, exclusions? (exclusionLines patterns) = some exclusions ∧
      all = if isDash root then [] else sourcesBelow fs home exclusions root := by
  obtain ⟨exclusions, hexclusions, -⟩ := Option.bind_eq_some_iff.1 h
  rw [sources?_eq hexclusions] at h
  exact ⟨exclusions, hexclusions, (Option.some.inj h).symm⟩

theorem sources?_sublist {ps qs : List String} (h : ps ⊆ qs) {all few : List String}
    (hall : sources? fs home root ps = some all) (hfew : sources? fs home root qs = some few) :
    few.Sublist all := by
  obtain ⟨rules, hrules, rfl⟩ := exists_of_sources? hall
  obtain ⟨rules', hrules', rfl⟩ := exists_of_sources? hfew
  split
  · exact List.Sublist.refl _
  · exact sourcesBelow_sublist (exclusions_subset h hrules hrules')

theorem pairwise_sources? {all : List String}
    (h : sources? fs home root patterns = some all) :
    all.Pairwise fun p q => (Route.ofText p).compare (Route.ofText q) = .lt := by
  obtain ⟨exclusions, hexclusions, rfl⟩ := exists_of_sources? h
  split
  · exact List.Pairwise.nil
  · exact pairwise_lt_sourcesBelow hexclusions

theorem isCollected_of_mem_sources? {all : List String}
    (h : sources? fs home root patterns = some all) {path : String} (hpath : path ∈ all) :
    IsCollected fs root path := by
  obtain ⟨exclusions, hexclusions, rfl⟩ := exists_of_sources? h
  split at hpath
  · cases hpath
  · obtain ⟨hfile, hsource⟩ := List.mem_filter.1 (sourcesBelow_perm.mem_iff.1 hpath)
    exact isCollected_of_mem hexclusions hfile hsource

/-- The paths that a walk collects with some patterns are the same for every list of these patterns,
    and more patterns leave a part of them, in the same order. They strictly increase, and each of
    them is the path of a source file that no unwanted directory is around. -/
theorem sources?_shrinks {ps qs : List String} (hps : ∀ p ∈ ps, isValid p = true)
    (hqs : ∀ q ∈ qs, isValid q = true) :
    ∃ all few, sources? fs home root ps = some all ∧ sources? fs home root (ps ++ qs) = some few ∧
      few.Sublist all ∧
      (∀ rs : List String, (∀ p, p ∈ rs ↔ p ∈ ps) → sources? fs home root rs = some all) ∧
      (all.Pairwise fun p q => (Route.ofText p).compare (Route.ofText q) = .lt) ∧ all.Nodup ∧
      ∀ p ∈ all, IsCollected fs root p := by
  have hboth : ∀ p ∈ ps ++ qs, isValid p = true := fun p hp =>
    (List.mem_append.1 hp).elim (hps p) (hqs p)
  obtain ⟨all, hall⟩ := exists_sources? hps
  obtain ⟨few, hfew⟩ := exists_sources? hboth
  have hstrict := pairwise_sources? hall
  refine ⟨all, few, hall, hfew, sources?_sublist (List.subset_append_left ..) hall hfew, ?_,
    hstrict, ?_, fun p hp => isCollected_of_mem_sources? hall hp⟩
  · intro rs hrs
    obtain ⟨same, hsame⟩ := exists_sources? fun p hp => hps p ((hrs p).1 hp)
    have hless : same.Sublist all := sources?_sublist (fun p hp => (hrs p).2 hp) hall hsame
    have hmore : all.Sublist same := sources?_sublist (fun p hp => (hrs p).1 hp) hsame hall
    rw [hsame, hless.antisymm hmore]
  · -- No path comes strictly before itself.
    refine hstrict.imp fun hlt heq => ?_
    rw [heq, Route.compare_self] at hlt
    cases hlt

/-- A project with a script among its sources and a package that it has installed. -/
def installedPackage : FileSystem where
  root := .directory "" [
    .directory "node_modules" [.file "lib.js" []],
    .directory "src" [.file "main.ts" [], .file "run.js" []],
    .file "notes.md" []]
  workingDirectory := []

/-- A walk that finds its files in the order of their paths collects them as it finds them. -/
theorem sources?_of_pairwise {found : List String} (hdash : isDash root = false)
    (hfound : (exclusions? (exclusionLines patterns)).any (fun exclusions =>
      (filesFrom fs home root exclusions).filter isSource == found) = true)
    (hsorted : found.Pairwise fun p q => pathLe p q = true) :
    sources? fs home root patterns = some found := by
  obtain ⟨exclusions, hexclusions, heq⟩ := (Option.any_eq_true ..).1 hfound
  rw [sources?_eq hexclusions, hdash, sourcesBelow, beq_iff_eq.1 heq,
    List.mergeSort_of_pairwise hsorted]
  rfl

theorem sources?_shrinks_installedPackage :
    isValid "!node_modules/" = true ∧ isValid "*.js" = true ∧
    ∃ all few, all = ["./src/main.ts", "./src/run.js"] ∧ few = ["./src/main.ts"] ∧
      sources? installedPackage none "." ["!node_modules/"] = some all ∧
      sources? installedPackage none "." ["!node_modules/", "*.js"] = some few ∧ few.Sublist all ∧
      (∀ rs : List String, (∀ p, p ∈ rs ↔ p ∈ ["!node_modules/"]) →
        sources? installedPackage none "." rs = some all) ∧
      (all.Pairwise fun p q => (Route.ofText p).compare (Route.ofText q) = .lt) ∧ all.Nodup ∧
      ∀ p ∈ all, IsCollected installedPackage "." p := by
  have hfirst : isValid "!node_modules/" = true := by decide +kernel
  have hsecond : isValid "*.js" = true := by decide +kernel
  obtain ⟨all, few, hall, hfew, hrest⟩ :=
    sources?_shrinks (List.forall_mem_singleton.2 hfirst) (List.forall_mem_singleton.2 hsecond)
  have hboth : sources? installedPackage none "." ["!node_modules/"] =
      some ["./src/main.ts", "./src/run.js"] :=
    sources?_of_pairwise (by decide +kernel) (by decide +kernel) (by decide +kernel)
  have hone : sources? installedPackage none "." ["!node_modules/", "*.js"] =
      some ["./src/main.ts"] :=
    sources?_of_pairwise (by decide +kernel) (by decide +kernel) (by decide +kernel)
  exact ⟨hfirst, hsecond, all, few, Option.some.inj (hall.symm.trans hboth),
    Option.some.inj (hfew.symm.trans hone), hall, hfew, hrest⟩

end Collected

end Walk

end Outline
