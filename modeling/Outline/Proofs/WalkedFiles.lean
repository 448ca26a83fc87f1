import Outline.Ignore.Walk

/-!
# The files that a walk finds

A walk lists source files in the order of their paths. Paths are ordered as lists of steps, so the
order is that of the keys below (`Route.compare_eq`), and sorting by it works. A path that is
a single dash stands for the standard input, so a directory of that name is never walked
(`sources?_eq`).
-/

namespace Outline

/-! ## The order of paths -/

/-- Where a step stands in the order of steps. -/
def Step.rank : Step → Option (Option String)
  | .here => none
  | .up => some none
  | .name s => some (some s)

theorem Step.compare_eq (a b : Step) : a.compare b = Ord.compare a.rank b.rank := by
  cases a <;> cases b <;> rfl

namespace Route

/-- Where a route stands in the order of routes: its steps, after a mark for the root directory. -/
def key (r : Route) : List (Option (Option (Option String))) :=
  (if r.absolute then [none] else []) ++ r.steps.map fun s => some s.rank

theorem compareSteps_eq (as bs : List Step) :
    compareSteps as bs =
      Ord.compare (as.map fun s => some s.rank) (bs.map fun s => some s.rank) := by
  induction as generalizing bs with
  | nil => cases bs <;> rfl
  | cons a as ih =>
    cases bs with
    | nil => rfl
    | cons b bs =>
      rw [compareSteps, ih, Step.compare_eq, List.map_cons, List.map_cons, List.compare_cons_cons]
      rfl

theorem compare_eq (r s : Route) : r.compare s = Ord.compare r.key s.key := by
  obtain ⟨absolute, steps⟩ := r
  obtain ⟨absolute', steps'⟩ := s
  cases absolute <;> cases absolute'
  -- Where only one route is absolute, its mark meets a step or the end of the other.
  · exact compareSteps_eq steps steps'
  · cases steps <;> rfl
  · cases steps' <;> rfl
  · simp only [compare, compareSteps_eq, key, if_true, List.singleton_append,
      List.compare_cons_cons]
    rfl

end Route

theorem pathLe_eq (p q : String) :
    pathLe p q = (Ord.compare (Route.ofText p).key (Route.ofText q).key).isLE := by
  rw [pathLe, Route.compare_eq]
  cases Ord.compare (Route.ofText p).key (Route.ofText q).key <;> rfl

theorem pathLe_trans (p q r : String) (hpq : pathLe p q = true) (hqr : pathLe q r = true) :
    pathLe p r = true := by
  rw [pathLe_eq] at *
  exact Std.TransCmp.isLE_trans hpq hqr

theorem pathLe_total (p q : String) : (pathLe p q || pathLe q p) = true := by
  have hswap : Ord.compare (Route.ofText p).key (Route.ofText q).key =
      (Ord.compare (Route.ofText q).key (Route.ofText p).key).swap :=
    Std.OrientedCmp.eq_swap
  rw [pathLe_eq, pathLe_eq, hswap]
  cases Ord.compare (Route.ofText q).key (Route.ofText p).key <;> rfl

/-! ## Source files -/

namespace Walk

variable {fs : FileSystem} {home : Option String} {exclusions : List IgnoreRule} {root : String}

/-- The source files below a directory, in the order of their paths. -/
def sourcesBelow (fs : FileSystem) (home : Option String) (exclusions : List IgnoreRule)
    (root : String) : List String :=
  ((filesFrom fs home root exclusions).filter isSource).mergeSort pathLe

theorem sourcesBelow_perm :
    (sourcesBelow fs home exclusions root).Perm
      ((filesFrom fs home root exclusions).filter isSource) :=
  List.mergeSort_perm ..

theorem pairwise_sourcesBelow :
    (sourcesBelow fs home exclusions root).Pairwise fun p q => pathLe p q = true :=
  List.pairwise_mergeSort pathLe_trans pathLe_total _

theorem sources?_eq {patterns : List String}
    (h : exclusions? (exclusionLines patterns) = some exclusions) :
    sources? fs home root patterns =
      some (if isDash root then [] else sourcesBelow fs home exclusions root) := by
  rw [sources?, h]
  show some ((((files fs home root exclusions).filter isSource)).mergeSort pathLe) = _
  rw [files]
  cases isDash root with
  | true => simp
  | false => rfl

end Walk

end Outline
