import Outline.Proofs.NormalRoutes
import Outline.Proofs.RecordShapes

/-!
# Module resolution

A source that means a file has seventeen candidates, and the first one that exists is its file
(`resolve?_picks_first`). If there is none, the answer is a guess. For a file with a known extension
the guess is one of the candidates (`guess_mem_candidates`), because the extensions that are tried
are those that languages have (`dot_append_mem_extensions`); so it does not exist either.

The guess names a source file in a known language, unless the source leads back to the directory
where the way to it starts, or to the root directory: then there is no name in front of the
extension, and a name that starts with its only dot has no extension (`known_guess_iff`).
-/

namespace Outline

/-! ## Extensions -/

namespace Module

/-- The extensions to try are those of the languages. -/
theorem dot_append_mem_extensions {e : String} :
    "." ++ e ∈ extensions ↔ e ∈ Language.extensions.map Prod.fst := by
  have hperm : extensions.Perm ((Language.extensions.map Prod.fst).map ("." ++ ·)) := by
    decide +kernel
  have hinj : ∀ x y : String, "." ++ x = "." ++ y → x = y := by
    intro x y h
    have hchars := congrArg String.toList h
    rw [String.toList_append, String.toList_append] at hchars
    exact String.toList_inj.1 (List.append_cancel_left hchars)
  rw [hperm.mem_iff, List.mem_map]
  constructor
  · rintro ⟨x, hx, heq⟩
    exact hinj x e heq ▸ hx
  · exact fun he => ⟨e, he, rfl⟩

theorem isExtension_of_mem {e : String} (he : "." ++ e ∈ extensions) :
    Route.isExtension e = true := by
  have hall : ∀ x ∈ Language.extensions.map Prod.fst, Route.isExtension x = true := by
    decide +kernel
  exact hall e (dot_append_mem_extensions.1 he)

end Module

/-- The known languages are those of files with one of the extensions. -/
theorem Language.ofExtension_ne_unknown {extension : Option String} :
    ofExtension extension ≠ .unknown ↔ ∃ e, extension = some e ∧ "." ++ e ∈ Module.extensions := by
  have hall : ∀ x ∈ extensions.map Prod.fst, ofExtension (some x) ≠ .unknown := by decide +kernel
  constructor
  · intro h
    cases extension with
    | none => exact absurd rfl h
    | some e =>
      refine ⟨e, rfl, Module.dot_append_mem_extensions.2 ?_⟩
      by_contra hnot
      have hnone : extensions.lookup e = none := by
        refine List.lookup_eq_none_iff.2 fun x hx => ?_
        rw [bne_iff_ne]
        rintro rfl
        exact hnot (List.mem_map_of_mem hx)
      refine h ?_
      rw [ofExtension, Option.bind_some, hnone]
      rfl
  · rintro ⟨e, rfl, he⟩
    exact hall e (Module.dot_append_mem_extensions.1 he)

namespace Module

/-! ## Candidates -/

/-- Whether a route has one of the extensions. -/
def HasExtension (r : Route) : Prop :=
  ∃ e, r.extension? = some e ∧ "." ++ e ∈ extensions

theorem hasExtension_iff {r : Route} :
    r.extension?.any (fun e => extensions.contains ("." ++ e)) = true ↔ HasExtension r := by
  unfold HasExtension
  cases r.extension? <;> simp

theorem isProper_route (importer source : String) : (route importer source).IsProper := by
  have hdirectory : (((Route.ofText importer).parent?).getD ⟨false, []⟩).IsProper := by
    intro s hs
    unfold Route.parent? at hs
    split_ifs at hs
    · cases hs
    · exact Route.isProper_ofText importer s (List.dropLast_subset _ hs)
  intro s hs
  unfold route Route.join at hs
  split_ifs at hs
  · exact Route.isProper_ofText source s hs
  · rcases List.mem_append.1 hs with hs | hs
    · exact hdirectory s hs
    · exact Route.isProper_ofText source s hs

/-- The paths that a route may mean, the first choice first. -/
def choices (r : Route) : List String :=
  r.text :: extensions.map (r.text ++ ·) ++
    extensions.map fun e => Route.text ⟨r.absolute, r.steps ++ [.name ("index" ++ e)]⟩

theorem candidates_eq {r : Route} (h : r.IsProper) : candidates r = choices r := by
  unfold candidates choices
  congr 1
  exact List.map_congr_left fun e _ => Route.joinPath_text h ("index" ++ e)

theorem guess_of_hasExtension (importer : String) {r : Route} (h : HasExtension r) :
    guess importer r = r.text := by
  rw [guess, if_pos (hasExtension_iff.2 h)]

theorem guess_of_not_hasExtension {importer e : String}
    (he : (Route.ofText importer).extension? = some e) {r : Route} (h : ¬ HasExtension r) :
    guess importer r = r.text ++ ("." ++ e) := by
  rw [guess, if_neg (mt hasExtension_iff.1 h), he]
  rfl

/-- The guess for a file with a known extension is a candidate. -/
theorem guess_mem_candidates {importer : String} (h : Language.ofPath importer ≠ .unknown)
    (r : Route) : guess importer r ∈ candidates r := by
  obtain ⟨e, he, hmem⟩ := Language.ofExtension_ne_unknown.1 h
  unfold candidates
  by_cases hextension : HasExtension r
  · rw [guess_of_hasExtension importer hextension]
    simp
  · rw [guess_of_not_hasExtension he hextension]
    refine List.mem_append_left _ (List.mem_cons_of_mem _ ?_)
    exact List.mem_map_of_mem hmem

/-! ## The answer -/

/-- A path is the first of some paths at which there is a regular file. -/
def IsFirstFile (fs : FileSystem) (paths : List String) (p : String) : Prop :=
  ∃ before after, paths = before ++ p :: after ∧ fs.isFile p = true ∧
    ∀ q ∈ before, fs.isFile q = false

theorem IsFirstFile.find?_eq {fs : FileSystem} {paths : List String} {p : String}
    (h : IsFirstFile fs paths p) : paths.find? fs.isFile = some p := by
  obtain ⟨before, after, hpaths, hp, hbefore⟩ := h
  refine List.find?_eq_some_iff_append.2 ⟨hp, before, after, hpaths, fun q hq => ?_⟩
  rw [hbefore q hq]
  rfl

theorem isExternal_iff {source : String} :
    isExternal source = true ↔ source.toList.head? ≠ some '.' ∧ source.toList.head? ≠ some '/' := by
  unfold isExternal
  split
  · rename_i cs hcs
    simp [hcs]
  · rename_i cs hcs
    simp [hcs]
  · rename_i hdot hslash
    cases hsource : source.toList with
    | nil => simp
    | cons c cs =>
      have hc : c ≠ '.' ∧ c ≠ '/' := by
        constructor
        · rintro rfl
          exact hdot cs hsource
        · rintro rfl
          exact hslash cs hsource
      simpa using hc

section Answer

variable {fs : FileSystem} {importer source p : String}

/-- The answer is the first candidate that is a file, or no candidate is one and it is the guess. -/
theorem cases_of_resolve? (hp : resolve? fs importer source = some p) :
    (candidates (base importer source)).find? fs.isFile = some p ∨
      (∀ q ∈ candidates (base importer source), fs.isFile q = false) ∧
        p = guess importer (base importer source) := by
  unfold resolve? at hp
  split_ifs at hp
  have heq := Option.some.inj hp
  cases hfind : (candidates (base importer source)).find? fs.isFile with
  | some q =>
    rw [hfind] at heq
    exact .inl (congrArg some heq)
  | none =>
    rw [hfind] at heq
    refine .inr ⟨fun q hq => ?_, heq.symm⟩
    exact Bool.eq_false_iff.2 (List.find?_eq_none.1 hfind q hq)

theorem isFile_iff_exists (hknown : Language.ofPath importer ≠ .unknown)
    (hp : resolve? fs importer source = some p) :
    fs.isFile p = true ↔ ∃ q ∈ candidates (base importer source), fs.isFile q = true := by
  rcases cases_of_resolve? hp with hfind | ⟨hnone, rfl⟩
  · have hfile := List.find?_some hfind
    exact ⟨fun _ => ⟨p, List.mem_of_find?_eq_some hfind, hfile⟩, fun _ => hfile⟩
  · refine ⟨fun hfile => ⟨_, guess_mem_candidates hknown _, hfile⟩, ?_⟩
    rintro ⟨q, hq, hfile⟩
    rw [hnone q hq] at hfile
    cases hfile

/-- A path that is no file is the guess. -/
theorem eq_guess (hp : resolve? fs importer source = some p) (hmissing : fs.isFile p = false) :
    p = guess importer (base importer source) := by
  rcases cases_of_resolve? hp with hfind | ⟨-, hguess⟩
  · rw [List.find?_some hfind] at hmissing
    cases hmissing
  · exact hguess

end Answer

/-- A source means a package unless it starts with a dot or a slash. Otherwise it means the first of
    its choices that is a file. If none is, the answer is no file: the folded way itself if that has
    one of the extensions, and with the extension of the importing file if not. -/
theorem resolve?_picks_first (fs : FileSystem) {importer : String} (source : String)
    (hknown : Language.ofPath importer ≠ .unknown) :
    let r := (route importer source).normalize
    (resolve? fs importer source = none ↔
        source.toList.head? ≠ some '.' ∧ source.toList.head? ≠ some '/') ∧
      (choices r).length = 17 ∧
      ∀ p, resolve? fs importer source = some p →
        (∀ q, IsFirstFile fs (choices r) q → p = q) ∧
        ((∀ q ∈ choices r, fs.isFile q = false) →
          fs.isFile p = false ∧ (HasExtension r → p = r.text) ∧
            (¬ HasExtension r → ∃ e, (Route.ofText importer).extension? = some e ∧
              p = r.text ++ ("." ++ e))) ∧
        (fs.isFile p = true ↔ ∃ q ∈ choices r, fs.isFile q = true) := by
  intro r
  have hchoices : candidates (base importer source) = choices r :=
    candidates_eq (isProper_route importer source).normalize
  refine ⟨?_, rfl, fun p hp => ⟨fun q hq => ?_, fun hnone => ?_, ?_⟩⟩
  · rw [← isExternal_iff, ← Option.not_isSome_iff_eq_none, isSome_resolve?]
    simp
  · rcases cases_of_resolve? hp with hfind | ⟨hnone, -⟩
    · rw [hchoices, hq.find?_eq] at hfind
      exact (Option.some.inj hfind).symm
    · rw [hchoices] at hnone
      obtain ⟨before, after, hpaths, hfile, -⟩ := hq
      rw [hnone q (by rw [hpaths]; simp)] at hfile
      cases hfile
  · have hmissing : fs.isFile p = false := by
      refine Bool.eq_false_iff.2 fun hfile => ?_
      obtain ⟨q, hq, hfile⟩ := (isFile_iff_exists hknown hp).1 hfile
      rw [hnone q (hchoices ▸ hq)] at hfile
      cases hfile
    have hguess : p = guess importer r := eq_guess hp hmissing
    refine ⟨hmissing, fun hextension => ?_, fun hextension => ?_⟩
    · rw [hguess, guess_of_hasExtension importer hextension]
    · obtain ⟨e, he, -⟩ := Language.ofExtension_ne_unknown.1 hknown
      exact ⟨e, he, hguess.trans (guess_of_not_hasExtension he hextension)⟩
  · rw [← hchoices]
    exact isFile_iff_exists hknown hp

/-- A directory with two files that `./util` may mean. -/
def twoFiles : FileSystem :=
  ⟨.directory "" [.directory "p" [.file "util.js" [], .directory "util" [.file "index.ts" []]]], []⟩

theorem resolve?_picks_first_twoFiles :
    Language.ofPath "/p/app.ts" ≠ .unknown ∧
      resolve? twoFiles "/p/app.ts" "./util" = some "/p/util.js" ∧
      twoFiles.isFile "/p/util/index.ts" = true := by
  have hknown : Language.ofPath "/p/app.ts" ≠ .unknown := by decide +kernel
  obtain ⟨hexternal, -, hfirst⟩ := resolve?_picks_first twoFiles "./util" hknown
  obtain ⟨p, hp⟩ : ∃ p, resolve? twoFiles "/p/app.ts" "./util" = some p := by
    refine Option.ne_none_iff_exists'.1 fun hnone => ?_
    exact (hexternal.1 hnone).1 (by decide +kernel)
  have hq : IsFirstFile twoFiles (choices (route "/p/app.ts" "./util").normalize) "/p/util.js" :=
    ⟨(choices (route "/p/app.ts" "./util").normalize).take 3,
      (choices (route "/p/app.ts" "./util").normalize).drop 4, by decide +kernel,
      by decide +kernel, by decide +kernel⟩
  exact ⟨hknown, (hfirst p hp).1 _ hq ▸ hp, by decide +kernel⟩

/-! ## Guesses -/

/-- The guess for a file with a known extension names a file in a known language unless the way to
    the source leads back to where it starts. Then the guess is only a dot and an extension. -/
theorem known_guess_iff {fs : FileSystem} {importer source p : String}
    (hknown : Language.ofPath importer ≠ .unknown) (hp : resolve? fs importer source = some p)
    (hmissing : fs.isFile p = false) :
    (Language.ofPath p ≠ .unknown ↔ ¬ (route importer source).LeadsBack) ∧
      ((route importer source).LeadsBack → ∃ e, (Route.ofText importer).extension? = some e ∧
        p = (if (route importer source).absolute then "/" else "") ++ ("." ++ e)) := by
  obtain ⟨e, he, hmem⟩ := Language.ofExtension_ne_unknown.1 hknown
  have hproper := isProper_route importer source
  have hguess : p = guess importer (route importer source).normalize := eq_guess hp hmissing
  rw [← Route.steps_normalize_eq_nil_iff]
  by_cases hextension : HasExtension (route importer source).normalize
  · -- A route with an extension has a last step.
    have hsteps : (route importer source).normalize.steps ≠ [] := by
      intro hnil
      obtain ⟨x, hx, -⟩ := hextension
      rw [Route.extension?, Route.fileName?, hnil] at hx
      cases hx
    rw [guess_of_hasExtension importer hextension] at hguess
    refine ⟨⟨fun _ => hsteps, fun _ => ?_⟩, fun hnil => absurd hnil hsteps⟩
    rw [hguess, Language.ofPath, Route.ofText_text_normalize hproper]
    exact Language.ofExtension_ne_unknown.2 hextension
  · rw [guess_of_not_hasExtension he hextension] at hguess
    have hlanguage : Language.ofPath p = Language.ofExtension
        (if (route importer source).normalize.steps = [] then none else some e) := by
      rw [hguess, Language.ofPath, Route.extension?_text_append hproper.normalize
        (Route.isNormal_normalize _).here_not_mem (isExtension_of_mem hmem)]
    refine ⟨⟨fun hlang hnil => ?_, fun hsteps => ?_⟩, fun hnil => ⟨e, he, ?_⟩⟩
    · rw [hlanguage, if_pos hnil] at hlang
      exact hlang rfl
    · rw [hlanguage, if_neg hsteps]
      exact Language.ofExtension_ne_unknown.2 ⟨e, rfl, hmem⟩
    · have htext : (route importer source).normalize.text =
          if (route importer source).absolute then "/" else "" := by
        rw [Route.text, hnil]
        exact String.append_empty
      rw [hguess, htext]

/-- What is guessed for `..` from the working directory has an extension. -/
theorem known_guess_iff_parent :
    Language.ofPath "app.js" ≠ .unknown ∧ resolve? .empty "app.js" ".." = some "...js" ∧
      FileSystem.empty.isFile "...js" = false ∧ Language.ofPath "...js" ≠ .unknown := by
  have hknown : Language.ofPath "app.js" ≠ .unknown := by decide +kernel
  have hp : resolve? .empty "app.js" ".." = some "...js" := by decide +kernel
  have hmissing : FileSystem.empty.isFile "...js" = false := by decide +kernel
  refine ⟨hknown, hp, hmissing, (known_guess_iff hknown hp hmissing).1.2 fun hback => ?_⟩
  have hdirectory : ∀ n ∈ ["p"], isName n = true := by decide +kernel
  have hstart := hback ["p"] hdirectory
  revert hstart
  decide +kernel

/-- What is guessed for `.` from the working directory has no extension. -/
theorem unknown_guess_here :
    Language.ofPath "a.ts" = .typescript ∧ isExternal "." = false ∧
      resolve? .empty "a.ts" "." = some ".ts" ∧ FileSystem.empty.isFile ".ts" = false ∧
      Language.ofPath ".ts" = .unknown := by
  decide +kernel

end Module

end Outline
