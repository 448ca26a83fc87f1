import Outline.Proofs.RouteTexts

/-!
# Normal forms of routes

Folding a route keeps an invariant: what is folded already climbs at first, unless the route starts
at the root directory, and then descends by names (`IsSettled`). So the folded route is normal. From
every directory it leads to where the route leads (`walk_normalize`). It is the only normal route
that does so, because two normal routes are told apart by walks from two directories
(`eq_of_walk_eq`).

The file that a source means depends on the normal form of the way to it, so it is the same for all
sources that mean one place (`exists_resolve?_of_walk_eq`).
-/

namespace Outline

namespace Route

/-- A route that climbs at first, unless it starts at the root directory, and then descends by
    names. -/
def IsNormal (r : Route) : Prop :=
  ∃ (climb : Nat) (names : List String), r.steps = List.replicate climb .up ++ names.map .name ∧
    (r.absolute = true → climb = 0)

theorem IsNormal.here_not_mem {r : Route} (h : r.IsNormal) : .here ∉ r.steps := by
  obtain ⟨climb, names, hsteps, -⟩ := h
  rw [hsteps]
  simp

/-! ## Folding -/

/-- The invariant of folding. The folded steps stand with the last one first, so the names come
    before the climbing. -/
def IsSettled (absolute : Bool) (done : List Step) : Prop :=
  ∃ (names : List String) (climb : Nat), done = names.map .name ++ List.replicate climb .up ∧
    (absolute = true → climb = 0)

theorem IsSettled.settle {absolute : Bool} {done : List Step} (h : IsSettled absolute done)
    (s : Step) : IsSettled absolute (settle absolute done s) := by
  obtain ⟨names, climb, rfl, hroot⟩ := h
  cases s with
  | here => exact ⟨names, climb, rfl, hroot⟩
  | name n => exact ⟨n :: names, climb, rfl, hroot⟩
  | up =>
    cases names with
    | cons m names => exact ⟨names, climb, rfl, hroot⟩
    | nil =>
      -- Only climbing is left to go up from, or nothing.
      cases climb with
      | zero =>
        cases absolute with
        | true => exact ⟨[], 0, rfl, hroot⟩
        | false => exact ⟨[], 1, rfl, by simp⟩
      | succ climb =>
        refine ⟨[], climb + 2, rfl, fun habsolute => ?_⟩
        have := hroot habsolute
        omega

theorem IsSettled.foldl {absolute : Bool} {done : List Step} (h : IsSettled absolute done)
    (steps : List Step) : IsSettled absolute (steps.foldl (Route.settle absolute) done) := by
  induction steps generalizing done with
  | nil => exact h
  | cons s steps ih => exact ih (h.settle s)

theorem isNormal_normalize (r : Route) : r.normalize.IsNormal := by
  have hnil : IsSettled r.absolute [] := ⟨[], 0, rfl, fun _ => rfl⟩
  obtain ⟨names, climb, hdone, hroot⟩ := hnil.foldl r.steps
  refine ⟨climb, names.reverse, ?_, hroot⟩
  show (r.steps.foldl (settle r.absolute) []).reverse = _
  rw [hdone]
  simp

theorem foldl_settle_names (absolute : Bool) (names : List String) (done : List Step) :
    (names.map .name).foldl (settle absolute) done = (names.map .name).reverse ++ done := by
  induction names generalizing done with
  | nil => rfl
  | cons n names ih =>
    rw [List.map_cons, List.foldl_cons, ih]
    simp [settle]

theorem foldl_settle_climb (climb : Nat) :
    (List.replicate climb Step.up).foldl (settle false) [] = List.replicate climb .up := by
  induction climb with
  | zero => rfl
  | succ climb ih =>
    rw [List.replicate_succ', List.foldl_append, ih]
    cases climb with
    | zero => rfl
    | succ climb =>
      rw [← List.replicate_succ']
      rfl

/-- A normal route is folded already. -/
theorem IsNormal.normalize_eq {r : Route} (h : r.IsNormal) : r.normalize = r := by
  obtain ⟨absolute, steps⟩ := r
  obtain ⟨climb, names, hsteps, hroot⟩ := h
  have hclimb : (List.replicate climb Step.up).foldl (settle absolute) [] =
      List.replicate climb .up := by
    cases absolute with
    | true =>
      rw [hroot rfl]
      rfl
    | false => exact foldl_settle_climb climb
  simp only at hsteps
  simp only [normalize, hsteps, List.foldl_append, hclimb, foldl_settle_names]
  simp

theorem mem_of_mem_settle {absolute : Bool} {done : List Step} {s x : Step}
    (hx : x ∈ settle absolute done s) : x ∈ done ∨ x = s := by
  unfold settle at hx
  split at hx
  · exact .inl hx
  · exact .inl (List.mem_cons_of_mem _ hx)
  · split_ifs at hx
    · exact .inl hx
    · exact .inr (List.mem_singleton.1 hx)
  · exact (List.mem_cons.1 hx).symm
  · exact (List.mem_cons.1 hx).symm

/-- Folding makes no new steps. -/
theorem mem_of_mem_normalize {r : Route} {x : Step} (hx : x ∈ r.normalize.steps) :
    x ∈ r.steps := by
  have hfoldl : ∀ (steps done : List Step), x ∈ steps.foldl (settle r.absolute) done →
      x ∈ done ∨ x ∈ steps := by
    intro steps
    induction steps with
    | nil => exact fun done hx => .inl hx
    | cons s steps ih =>
      intro done hx
      rcases ih _ hx with hx | hx
      · rcases mem_of_mem_settle hx with hx | rfl
        · exact .inl hx
        · exact .inr (List.mem_cons_self ..)
      · exact .inr (List.mem_cons_of_mem _ hx)
  exact (hfoldl r.steps [] (List.mem_reverse.1 hx)).resolve_left List.not_mem_nil

theorem IsProper.normalize {r : Route} (h : r.IsProper) : r.normalize.IsProper := fun s hs =>
  h s (mem_of_mem_normalize hs)

/-! ## Walking -/

/-- Folding a step and then walking is walking and then taking the step. -/
theorem foldl_walkStep_settle {absolute : Bool} {place : Place}
    (hroot : absolute = true → place = []) (done : List Step) (s : Step) :
    (settle absolute done s).reverse.foldl walkStep place =
      walkStep (done.reverse.foldl walkStep place) s := by
  cases s with
  | here => rfl
  | name n => simp [settle, walkStep]
  | up =>
    cases done with
    | nil =>
      cases absolute with
      | true =>
        rw [hroot rfl]
        rfl
      | false => rfl
    | cons last done =>
      cases last with
      | name n => simp [settle, walkStep]
      | up => simp [settle, walkStep]
      | here => simp [settle, walkStep]

theorem foldl_walkStep_foldl_settle {absolute : Bool} {place : Place}
    (hroot : absolute = true → place = []) (steps done : List Step) :
    (steps.foldl (settle absolute) done).reverse.foldl walkStep place =
      steps.foldl walkStep (done.reverse.foldl walkStep place) := by
  induction steps generalizing done with
  | nil => rfl
  | cons s steps ih => rw [List.foldl_cons, List.foldl_cons, ih, foldl_walkStep_settle hroot]

/-- A folded route leads to where the route leads, from every directory. -/
theorem walk_normalize (start : Place) (r : Route) : r.normalize.walk start = r.walk start := by
  have hroot : r.absolute = true → (if r.absolute then [] else start) = [] := fun h => if_pos h
  exact foldl_walkStep_foldl_settle hroot r.steps []

theorem foldl_walkStep_names (place : Place) (names : List String) :
    (names.map .name).foldl walkStep place = place ++ names := by
  induction names generalizing place with
  | nil => simp
  | cons n names ih =>
    rw [List.map_cons, List.foldl_cons, ih]
    simp [walkStep]

theorem foldl_walkStep_climb (place : Place) (climb : Nat) :
    (List.replicate climb .up).foldl walkStep place = place.take (place.length - climb) := by
  induction climb generalizing place with
  | zero => simp
  | succ climb ih =>
    have hlength : min (place.length - 1 - climb) (place.length - 1) =
        place.length - (climb + 1) := by omega
    rw [List.replicate_succ, List.foldl_cons, ih]
    show place.dropLast.take (place.dropLast.length - climb) = _
    rw [List.length_dropLast, List.dropLast_eq_take, List.take_take, hlength]

/-- Where a normal route leads from a directory that is deep enough. -/
theorem walk_replicate {r : Route} {climb : Nat} {names : List String}
    (hsteps : r.steps = List.replicate climb .up ++ names.map .name) (depth : Nat) (x : String) :
    r.walk (List.replicate depth x) =
      List.replicate (if r.absolute then 0 else depth - climb) x ++ names := by
  have hwalk : r.walk (List.replicate depth x) =
      (List.replicate climb .up).foldl walkStep
        (if r.absolute then [] else List.replicate depth x) ++ names := by
    rw [walk, hsteps, List.foldl_append, foldl_walkStep_names]
  rw [hwalk, foldl_walkStep_climb]
  by_cases habsolute : r.absolute = true
  · simp [habsolute]
  · have hmin : min (depth - climb) depth = depth - climb := by omega
    rw [if_neg habsolute, if_neg habsolute, List.length_replicate, List.take_replicate, hmin]

/-- Two lists in front of which the same number of equal entries stands, for two different
    entries. -/
theorem eq_of_replicate_append {x y : String} (hxy : x ≠ y) {p q : Nat} {ns ms : List String}
    (hx : List.replicate p x ++ ns = List.replicate q x ++ ms)
    (hy : List.replicate p y ++ ns = List.replicate q y ++ ms) : p = q ∧ ns = ms := by
  induction p generalizing q with
  | zero =>
    cases q with
    | zero => exact ⟨rfl, hx⟩
    | succ q =>
      have hheads := hx.symm.trans hy
      exact absurd (List.cons.inj hheads).1 hxy
  | succ p ih =>
    cases q with
    | zero =>
      have hheads := hx.trans hy.symm
      exact absurd (List.cons.inj hheads).1 hxy
    | succ q =>
      obtain ⟨hpq, hnames⟩ := ih (List.cons.inj hx).2 (List.cons.inj hy).2
      exact ⟨congrArg (· + 1) hpq, hnames⟩

/-- A directory that can exist: its names are names of entries. -/
def IsDirectory (place : Place) : Prop :=
  ∀ n ∈ place, isName n = true

/-- Two normal routes that lead to the same place from every directory are equal. -/
theorem eq_of_walk_eq {r s : Route} (hr : r.IsNormal) (hs : s.IsNormal)
    (h : ∀ start, IsDirectory start → r.walk start = s.walk start) : r = s := by
  obtain ⟨climb, names, hrsteps, hrroot⟩ := hr
  obtain ⟨climb', names', hssteps, hsroot⟩ := hs
  -- Walks start deeper than both routes can climb and than the names can reach.
  obtain ⟨depth, hdepth⟩ : ∃ depth, depth = climb + climb' + names.length + names'.length + 1 :=
    ⟨_, rfl⟩
  have hwalks : ∀ x : String, isName x = true →
      List.replicate (if r.absolute then 0 else depth - climb) x ++ names =
        List.replicate (if s.absolute then 0 else depth - climb') x ++ names' := by
    intro x hx
    have hwalk := h (List.replicate depth x) fun n hn => by rwa [List.eq_of_mem_replicate hn]
    rwa [walk_replicate hrsteps, walk_replicate hssteps] at hwalk
  obtain ⟨hfront, rfl⟩ := eq_of_replicate_append (by decide : "a" ≠ "b")
    (hwalks "a" (by decide +kernel)) (hwalks "b" (by decide +kernel))
  obtain ⟨absolute, steps⟩ := r
  obtain ⟨absolute', steps'⟩ := s
  simp only at hrsteps hssteps hrroot hsroot hfront
  subst hrsteps hssteps
  cases absolute <;> cases absolute' <;> simp only [if_true, if_false, Bool.false_eq_true] at hfront
  · have hclimb : climb = climb' := by omega
    rw [hclimb]
  · omega
  · omega
  · rw [hrroot rfl, hsroot rfl]

/-- Normal forms are equal exactly if the routes lead to the same place from every directory. -/
theorem normalize_eq_iff {r s : Route} :
    r.normalize = s.normalize ↔ ∀ start, IsDirectory start → r.walk start = s.walk start := by
  constructor
  · intro h start _
    rw [← walk_normalize, h, walk_normalize]
  · intro h
    refine eq_of_walk_eq (isNormal_normalize r) (isNormal_normalize s) fun start hstart => ?_
    rw [walk_normalize, walk_normalize, h start hstart]

/-- A route that leads from every directory back to it, or to the root directory if it starts
    there. -/
def LeadsBack (r : Route) : Prop :=
  ∀ start, IsDirectory start → r.walk start = if r.absolute then [] else start

theorem steps_normalize_eq_nil_iff {r : Route} : r.normalize.steps = [] ↔ r.LeadsBack := by
  have hiff : r.normalize = normalize ⟨r.absolute, []⟩ ↔ r.LeadsBack := normalize_eq_iff
  rw [← hiff]
  exact ⟨fun hnil => congrArg (Route.mk r.absolute) hnil, fun heq => congrArg Route.steps heq⟩

/-- The path that is printed for the normal form of a path says the normal form. -/
theorem ofText_text_normalize {r : Route} (h : r.IsProper) :
    ofText r.normalize.text = r.normalize :=
  ofText_text h.normalize (isNormal_normalize r).here_not_mem

end Route

/-! ## Sources that mean one place -/

namespace Module

/-- The way to what a source means, from the directory of the importing file. -/
def route (importer source : String) : Route :=
  (((Route.ofText importer).parent?).getD ⟨false, []⟩).join (Route.ofText source)

theorem exists_resolve?_of_walk_eq (fs : FileSystem) {importer importer' source source' : String}
    (hsource : isExternal source = false) (hsource' : isExternal source' = false)
    (hextension : (Route.ofText importer).extension? = (Route.ofText importer').extension?)
    (hwalk : ∀ start, Route.IsDirectory start →
      (route importer source).walk start = (route importer' source').walk start) :
    ∃ p, resolve? fs importer source = some p ∧ resolve? fs importer' source' = some p := by
  have hbase : base importer source = base importer' source' := Route.normalize_eq_iff.2 hwalk
  unfold resolve?
  rw [hsource, hsource', if_neg Bool.false_ne_true, if_neg Bool.false_ne_true]
  refine ⟨_, rfl, ?_⟩
  simp only [hbase, guess, hextension]

end Module

/-- Folding computes canonical forms. A folded route does not stay anywhere, climbs only at the
    front of a relative route, and folds to itself, also when it is printed and read again; it leads
    to where the route leads; and routes that lead to the same places have one folded route. So two
    sources that mean one place mean the same file to files with the same extension. -/
theorem Route.normalize_canonical (r s : Route) :
    .here ∉ r.normalize.steps ∧ r.normalize.IsNormal ∧ r.normalize.normalize = r.normalize ∧
      (∀ path, ofText (ofText path).normalize.text = (ofText path).normalize) ∧
      (∀ start, r.normalize.walk start = r.walk start) ∧
      (r.normalize = s.normalize ↔ ∀ start, IsDirectory start → r.walk start = s.walk start) ∧
      ∀ (fs : FileSystem) (importer importer' source source' : String),
        Module.isExternal source = false → Module.isExternal source' = false →
        (ofText importer).extension? = (ofText importer').extension? →
        (∀ start, IsDirectory start →
          (Module.route importer source).walk start =
            (Module.route importer' source').walk start) →
        ∃ p, Module.resolve? fs importer source = some p ∧
          Module.resolve? fs importer' source' = some p := by
  have hnormal := isNormal_normalize r
  refine ⟨hnormal.here_not_mem, hnormal, hnormal.normalize_eq, ?_,
    fun start => walk_normalize start r, normalize_eq_iff, ?_⟩
  · exact fun path => ofText_text_normalize (isProper_ofText path)
  · intro fs importer importer' source source' hsource hsource' hextension hwalk
    exact Module.exists_resolve?_of_walk_eq fs hsource hsource' hextension hwalk

/-- From two files of one extension, `./ui/../util` and `../util` may mean the same file. If there
    is none, they mean the one that would have the extension, too. -/
theorem Route.normalize_canonical_siblings :
    (Module.route "src/app.ts" "./ui/../util").steps ≠
        (Module.route "src/ui/button.ts" "../util").steps ∧
      Module.isExternal "./ui/../util" = false ∧ Module.isExternal "../util" = false ∧
      (ofText "src/app.ts").extension? = (ofText "src/ui/button.ts").extension? ∧
      Module.resolve? .empty "src/app.ts" "./ui/../util" = some "src/util.ts" ∧
      Module.resolve? .empty "src/ui/button.ts" "../util" = some "src/util.ts" := by
  have hcanonical := normalize_canonical (Module.route "src/app.ts" "./ui/../util")
    (Module.route "src/ui/button.ts" "../util")
  have hsame := hcanonical.2.2.2.2.2.1.1 (by decide +kernel)
  have hguess : Module.resolve? .empty "src/app.ts" "./ui/../util" = some "src/util.ts" := by
    decide +kernel
  obtain ⟨p, hp, hp'⟩ := hcanonical.2.2.2.2.2.2 .empty "src/app.ts" "src/ui/button.ts"
    "./ui/../util" "../util" (by decide +kernel) (by decide +kernel) (by decide +kernel) hsame
  obtain rfl := Option.some.inj (hp.symm.trans hguess)
  exact ⟨by decide +kernel, by decide +kernel, by decide +kernel, by decide +kernel, hp, hp'⟩

end Outline
